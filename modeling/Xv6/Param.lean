/-
  The constants of `param.h`, `fs.h` and `stat.h`, the disk block, and the C integer types.

  A disk block is `BSIZE` raw bytes.  Everything the kernel keeps in a block (log header, inode,
  indirect block, bitmap, directory entries) is a VIEW of those bytes through the field accessors
  of `Xv6.Lib.Bytes`, as the casts of the source make it.
-/
import Mathlib
import Xv6.Lib.Bytes

namespace Xv6

/-! ## `param.h` -/

abbrev NPROC : Nat := 64
abbrev NOFILE : Nat := 16
abbrev NFILE : Nat := 100
abbrev NINODE : Nat := 50
abbrev NDEV : Nat := 10
abbrev ROOTDEV : Nat := 1
/-- Max number of blocks any file-system operation writes. -/
abbrev MAXOPBLOCKS : Nat := 10
/-- What the header block of the log has room for; `mkfs` makes the log of this size. -/
abbrev LOGSIZE : Nat := MAXOPBLOCKS * 3
/-- Size of the file system `mkfs` makes, in blocks. -/
abbrev FSSIZE : Nat := 1000

-- Constants, so that a slot given by a numeral is one term in every module.
instance neZero_NPROC : NeZero NPROC := ⟨by decide⟩

instance neZero_NOFILE : NeZero NOFILE := ⟨by decide⟩

instance neZero_NFILE : NeZero NFILE := ⟨by decide⟩

instance neZero_NINODE : NeZero NINODE := ⟨by decide⟩

/-! ## `fs.h`, `stat.h` -/

abbrev ROOTINO : Nat := 1
abbrev BSIZE : Nat := 512
abbrev NDIRECT : Nat := 12
abbrev NINDIRECT : Nat := BSIZE / 4
abbrev MAXFILE : Nat := NDIRECT + NINDIRECT
/-- Inodes per block: `sizeof(struct dinode)` is 64. -/
abbrev IPB : Nat := BSIZE / 64
/-- Bitmap bits per block. -/
abbrev BPB : Nat := BSIZE * 8
abbrev DIRSIZ : Nat := 14

abbrev T_DIR : Nat := 1
abbrev T_FILE : Nat := 2
abbrev T_DEV : Nat := 3

/-- One disk block. -/
abbrev Block := ByteBuf.Buf BSIZE

/-- The contents of a disk: a block for every block number. -/
abbrev Disk := Nat → Block

/-- The block `memset` to zero. -/
def zeroBlock : Block := fun _ => 0

/-- Overwrite one block. -/
def updBlk (d : Disk) (b : Nat) (x : Block) : Disk := fun c => if c = b then x else d c

theorem updBlk_same (d : Disk) (b : Nat) (x : Block) : updBlk d b x b = x := if_pos rfl

theorem updBlk_ne {d : Disk} {b c : Nat} {x : Block} (h : c ≠ b) : updBlk d b x c = d c :=
  if_neg h

/-- What a C `int` keeps of a number: a 32-bit word, read with its sign. -/
def cInt (n : Int) : Int := n.bmod (2 ^ 32)

/-- What a C `short` keeps of a number. -/
def cShort (n : Int) : Int := n.bmod (2 ^ 16)

/-- The nonnegative half of the `int` range is kept as it is. -/
theorem cInt_of_lt {n : Int} (h0 : 0 ≤ n) (h : n < 2 ^ 31) : cInt n = n :=
  Int.bmod_eq_of_le (by omega) (by omega)

/-- An `int` that is counted up, whether it overflows or not. -/
theorem cInt_succ (n : Nat) : cInt (cInt n + 1) = cInt (n + 1 : Nat) := by
  rw [Nat.cast_succ]
  exact Int.bmod_add_bmod

end Xv6
