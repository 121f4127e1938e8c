/-
  `mkfs.c` — the host program that builds the file system image.

  The image is a `Disk`; `freeinode` and `freeblock` are its two counters.  A failed `assert`, or a sector that
  cannot be read, ends the program without an image (`none`).  The host is little-endian, as the machine that
  runs the image is, so `xint` and `xshort` keep a number as it is and `struct dinode` on the host is the one
  that the kernel reads (`getDinode`, `putDinode`).

  A host file comes as what successive calls of `read` deliver: pieces of 1 to `BSIZE` bytes, in whatever sizes.
-/
import Xv6.Fs.Inode
import Xv6.Kernel.Names

namespace Xv6.Mkfs

open ByteBuf Fs Kernel

structure St where
  disk : Disk
  freeinode : Nat
  freeblock : Nat

/-! ## Sectors and inodes -/

/-- A sector past the end of the image cannot be read. -/
def rsect (st : St) (sec : Nat) : Option Block := if sec < FSSIZE then some (st.disk sec) else none

def wsect (st : St) (sec : Nat) (buf : Block) : St := { st with disk := updBlk st.disk sec buf }

def winode (st : St) (inum : Nat) (ip : Dinode) : Option St := do
  let buf ← rsect st (mkfsSb.iblock inum)
  return wsect st (mkfsSb.iblock inum) (putDinode buf (inodeOff inum) ip)

def rinode (st : St) (inum : Nat) : Option Dinode := do
  let buf ← rsect st (mkfsSb.iblock inum)
  return getDinode buf (inodeOff inum)

def ialloc (st : St) (type : Nat) : Option (Nat × St) := do
  let inum := st.freeinode
  let st ← winode { st with freeinode := inum + 1 } inum
    { Dinode.zero with type := UInt16.ofNat type, nlink := 1 }
  return (inum, st)

/-- `din.addrs[k] = xint(freeblock++)`, if it is zero. -/
def setAddr (st : St) (din : Dinode) (k : Fin (NDIRECT + 1)) : Dinode × St :=
  if din.addrs k = 0 then
    ({ din with addrs := fun l => if l = k then UInt32.ofNat st.freeblock else din.addrs l },
      { st with freeblock := st.freeblock + 1 })
  else (din, st)

/-- The sector of block `fbn` of the file, in `iappend`; if there is none, the next free one. -/
def mapBlock (st : St) (din : Dinode) (fbn : Nat) : Option (Nat × Dinode × St) :=
  if h : fbn < NDIRECT then
    let k : Fin (NDIRECT + 1) := ⟨fbn, Nat.lt_succ_of_lt h⟩
    let (din, st) := setAddr st din k
    some ((din.addrs k).toNat, din, st)
  else do
    let (din, st) := setAddr st din (Fin.last NDIRECT)
    let indirect ← rsect st din.indirect.toNat
    if word indirect (fbn - NDIRECT) = 0 then
      let indirect := setWord indirect (fbn - NDIRECT) st.freeblock
      let st := wsect { st with freeblock := st.freeblock + 1 } din.indirect.toNat indirect
      return (word indirect (fbn - NDIRECT), din, st)
    else
      return (word indirect (fbn - NDIRECT), din, st)

/-- The loop of `iappend`, with `n` bytes still to come. -/
def iappendLoop (st : St) (din : Dinode) (off : Nat) (p : Nat → UInt8) (n : Nat) : Option (Dinode × Nat × St) :=
  if _h : n = 0 then some (din, off, st)
  else
    let fbn := off / BSIZE
    if MAXFILE ≤ fbn then none
    else do
      let (x, din, st) ← mapBlock st din fbn
      let n1 := min n ((fbn + 1) * BSIZE - off)
      let buf ← rsect st x
      let st := wsect st x (blit buf (off - fbn * BSIZE) n1 p)
      iappendLoop st din (off + n1) (fun i => p (i + n1)) (n - n1)
termination_by n
decreasing_by
  have hsize : BSIZE = 512 := rfl
  simp only [hsize] at *
  omega

/-- Append `n` bytes from `p` to a file. -/
def iappend (st : St) (inum : Nat) (p : Nat → UInt8) (n : Nat) : Option St := do
  let din ← rinode st inum
  let (din, off, st) ← iappendLoop st din din.size.toNat p n
  winode st inum { din with size := UInt32.ofNat off }

/-- The bitmap block with the first `used` bits set. -/
def bitmap (used : Nat) : Block := (List.range used).foldl setBit zeroBlock

/-- Mark the first `used` blocks. -/
def balloc (st : St) (used : Nat) : Option St :=
  if used < BPB then some (wsect st mkfsSb.bmapstart (bitmap used)) else none

/-! ## `main` -/

/-- A host file: its name on the command line, and what `read` delivers of it. -/
structure HostFile where
  name : List UInt8
  reads : List (List UInt8)
  /-- A C string. -/
  name_str : 0 ∉ name
  reads_ok : ∀ c ∈ reads, c ≠ [] ∧ c.length ≤ BSIZE

/-- `'_'` -/
abbrev underscore : UInt8 := 95

namespace HostFile

variable (f : HostFile)

def bytes : List UInt8 := f.reads.flatten

/-- `if(argv[i][0] == '_') ++argv[i];` -/
def fsName : List UInt8 := if f.name.head? = some underscore then f.name.tail else f.name

end HostFile

/-- A list of bytes as the buffer that `p` points to. -/
def buffer (l : List UInt8) (i : Nat) : UInt8 := l.getD i 0

/-- `iappend(inum, &de, sizeof(de))` -/
def addEntry (st : St) (dir : Nat) (de : Dirent) : Option St := iappend st dir (buffer de.encode) DESIZE

/-- One round of the loop over the files. -/
def addFile (st : St) (f : HostFile) : Option St :=
  if slash ∈ f.name then none
  else do
    let (inum, st) ← ialloc st T_FILE
    let st ← addEntry st ROOTINO ⟨inum, Name.ofBytes f.fsName⟩
    f.reads.foldlM (fun st c => iappend st inum (buffer c) c.length) st

/-- The superblock's sector. -/
def superblock : Block :=
  putWords zeroBlock 0 [mkfsSb.size, mkfsSb.nblocks, mkfsSb.ninodes, mkfsSb.nlog, mkfsSb.logstart,
    mkfsSb.inodestart, mkfsSb.bmapstart]

/-- The image, all zeroes but for the superblock. -/
def start : St := wsect ⟨fun _ => zeroBlock, 1, mkfsSb.nmeta⟩ 1 superblock

/-- The root directory with its two entries. -/
def makeRoot (st : St) : Option St := do
  let (rootino, st) ← ialloc st T_DIR
  if rootino ≠ ROOTINO then none
  else
    let st ← addEntry st rootino ⟨rootino, dot⟩
    addEntry st rootino ⟨rootino, dotdot⟩

/-- Fix the size of the root directory, and write the bitmap. -/
def finish (st : St) : Option St := do
  let din ← rinode st ROOTINO
  let off := (din.size.toNat / BSIZE + 1) * BSIZE
  let st ← winode st ROOTINO { din with size := UInt32.ofNat off }
  balloc st st.freeblock

/-- `main`, with the counters as they are in the end. -/
def build (files : List HostFile) : Option St := do
  let st ← makeRoot start
  let st ← files.foldlM addFile st
  finish st

/-- The image that `main` leaves. -/
def mkfs (files : List HostFile) : Option Disk := (build files).map St.disk

end Xv6.Mkfs
