/-
  What is where on an xv6 disk: superblock, free bitmap, inode blocks, block pointers.

      [ boot | super | log | inode blocks | free bit map | data blocks ]

  Everything here is a READING of raw blocks, as the macros and casts of `fs.h` and `fs.c` read them:

  1. **Superblock** — `IBLOCK`, `BBLOCK` and the data area; the fields carry the layout that `mkfs`
     gives them (inode blocks before the bitmap, the bitmap before the data).
  2. **Bitmap** — `bit sb d b`, and how setting or clearing one bit changes it.
  3. **Inodes** — `struct dinode` in 64 bytes of an inode block; overwriting one inode leaves the
     other seven of its block alone (`dinodeAt_write`).
  4. **Pointers** — the slots of an inode (`addrs[i]`, and the words of its indirect block), the map
     `own` from slots to block numbers, and `Consistent`: NO BLOCK IS SHARED AND NONE IS LOST.
-/
import Xv6.Lib.Bytes
import Xv6.Lib.Ownership
import Xv6.Param

namespace Xv6.Fs

open ByteBuf Ownership

/-! ## The superblock -/

/-- `struct superblock`.  In `balloc` a block number is an `int`. -/
structure SuperFields where
  /-- Size of file system image (blocks). -/
  size : Nat
  /-- Number of data blocks. -/
  nblocks : Nat
  ninodes : Nat
  nlog : Nat
  logstart : Nat
  inodestart : Nat
  bmapstart : Nat
  size_lt : size < 2 ^ 31

/-- A superblock of a layout without overlaps. -/
structure Superblock extends SuperFields where
  log_fits : logstart + nlog ≤ inodestart
  inodes_fit : inodestart + (ninodes / IPB + 1) ≤ bmapstart
  bitmap_fits : bmapstart + (size / BPB + 1) ≤ size - nblocks

instance : Coe Superblock SuperFields := ⟨Superblock.toSuperFields⟩

variable {i b c : Nat}

/-- `IBLOCK(i, sb)`: the block containing inode `i`. -/
def SuperFields.iblock (sb : SuperFields) (i : Nat) : Nat := i / IPB + sb.inodestart

/-- `BBLOCK(b, sb)`: the block of the free map containing the bit for block `b`. -/
def SuperFields.bblock (sb : SuperFields) (b : Nat) : Nat := b / BPB + sb.bmapstart

theorem SuperFields.bmapstart_le (sb : SuperFields) (b : Nat) : sb.bmapstart ≤ sb.bblock b :=
  Nat.le_add_left _ _

namespace Superblock

variable (sb : Superblock)

/-- Boot block, superblock, log, inode blocks and bitmap come before the data (`nmeta` of `mkfs`). -/
def nmeta : Nat := sb.size - sb.nblocks

/-- Block `b` is in the data area. -/
def IsData (b : Nat) : Prop := sb.nmeta ≤ b ∧ b < sb.size

instance (b : Nat) : Decidable (sb.IsData b) := inferInstanceAs (Decidable (_ ∧ _))

theorem bmapstart_lt : sb.bmapstart < sb.nmeta := by
  have h1 := sb.bitmap_fits
  have h2 : 0 ≤ sb.size / BPB := Nat.zero_le _
  unfold nmeta
  omega

variable {sb}

theorem iblock_lt (h : i < sb.ninodes) : sb.iblock i < sb.bmapstart := by
  have hdiv : i / IPB ≤ sb.ninodes / IPB := Nat.div_le_div_right (Nat.le_of_lt h)
  have := sb.inodes_fit
  unfold SuperFields.iblock
  omega

theorem bblock_lt (h : b < sb.size) : sb.bblock b < sb.nmeta := by
  have hdiv : b / BPB ≤ sb.size / BPB := Nat.div_le_div_right (Nat.le_of_lt h)
  have := sb.bitmap_fits
  unfold SuperFields.bblock nmeta
  omega

/-- Inode blocks and bitmap blocks are different blocks. -/
theorem iblock_ne_bblock (h : i < sb.ninodes) (b : Nat) : sb.iblock i ≠ sb.bblock b := by
  have h1 := iblock_lt h
  have h2 := sb.bmapstart_le b
  omega

theorem IsData.ne_iblock (hb : sb.IsData b) (h : i < sb.ninodes) : sb.iblock i ≠ b := by
  have h1 := iblock_lt h
  have h2 := bmapstart_lt sb
  have h3 := hb.1
  omega

theorem IsData.ne_bblock (hb : sb.IsData b) (h : c < sb.size) : sb.bblock c ≠ b := by
  have h1 := bblock_lt h
  have h2 := hb.1
  omega

theorem IsData.pos (hb : sb.IsData b) : b ≠ 0 := by
  have h1 := bmapstart_lt sb
  have h2 := hb.1
  omega

theorem IsData.lt_word (hb : sb.IsData b) : b < 2 ^ 32 := by
  have h1 := sb.size_lt
  have h2 := hb.2
  omega

end Superblock

/-- The superblock that `mkfs` writes. -/
def mkfsSb : Superblock where
  size := FSSIZE
  nblocks := 941
  ninodes := 200
  nlog := LOGSIZE
  logstart := 2
  inodestart := 32
  bmapstart := 58
  log_fits := by decide
  inodes_fit := by decide
  bitmap_fits := by decide
  size_lt := by decide

/-! ## The free bitmap -/

variable {x : Block}

theorem get_zeroBlock (i : Nat) : ByteBuf.get zeroBlock i = 0 := by
  unfold ByteBuf.get
  split <;> rfl

theorem testBit_zeroBlock (i : Nat) : testBit zeroBlock i = false := by
  unfold testBit
  rw [get_zeroBlock]
  simp

section Bitmap

variable (sb : SuperFields)

/-- The bitmap's bit for block `b`. -/
def bit (d : Disk) (b : Nat) : Bool := testBit (d (sb.bblock b)) (b % BPB)

/-- The disk with the bit of block `b` set. -/
def markUsed (d : Disk) (b : Nat) : Disk :=
  updBlk d (sb.bblock b) (setBit (d (sb.bblock b)) (b % BPB))

/-- The disk with the bit of block `b` clear. -/
def markFree (d : Disk) (b : Nat) : Disk :=
  updBlk d (sb.bblock b) (clearBit (d (sb.bblock b)) (b % BPB))

variable {sb}

theorem bit_congr {d d' : Disk} (h : d' (sb.bblock b) = d (sb.bblock b)) : bit sb d' b = bit sb d b := by
  unfold bit
  rw [h]

theorem bit_updBlk_ne {d : Disk} (h : sb.bblock b ≠ c) : bit sb (updBlk d c x) b = bit sb d b :=
  bit_congr (updBlk_ne h)

theorem bit_index_lt (b : Nat) : b % BPB / 8 < BSIZE := by
  have : b % BPB < BPB := Nat.mod_lt b (by decide)
  simp only [BPB, BSIZE] at *
  omega

theorem bblock_eq_iff : sb.bblock c = sb.bblock b ↔ c / BPB = b / BPB := by
  unfold SuperFields.bblock
  omega

theorem bblock_mod_iff (h : sb.bblock c = sb.bblock b) : b % BPB = c % BPB ↔ b = c := by
  have hdiv := bblock_eq_iff.mp h
  refine ⟨fun hmod => ?_, fun h => by rw [h]⟩
  rw [← Nat.div_add_mod b BPB, ← Nat.div_add_mod c BPB, hdiv, hmod]

theorem bit_markUsed (d : Disk) (b c : Nat) : bit sb (markUsed sb d b) c = (bit sb d c || decide (b = c)) := by
  by_cases hblk : sb.bblock c = sb.bblock b
  · unfold bit markUsed
    rw [hblk, updBlk_same, testBit_setBit _ _ (bit_index_lt b)]
    simp only [bblock_mod_iff hblk]
  · have hne : b ≠ c := fun e => hblk (by rw [e])
    rw [markUsed, bit_updBlk_ne hblk, decide_eq_false hne, Bool.or_false]

theorem bit_markFree (d : Disk) (b c : Nat) : bit sb (markFree sb d b) c = (bit sb d c && !decide (b = c)) := by
  by_cases hblk : sb.bblock c = sb.bblock b
  · unfold bit markFree
    rw [hblk, updBlk_same, testBit_clearBit _ _ (bit_index_lt b)]
    simp only [bblock_mod_iff hblk]
  · have hne : b ≠ c := fun e => hblk (by rw [e])
    rw [markFree, bit_updBlk_ne hblk, decide_eq_false hne, Bool.not_false, Bool.and_true]

/-- Marking the blocks below `k` sets those bits. -/
theorem bit_markUsed_range (d : Disk) (c : Nat) : ∀ k : Nat,
    bit sb ((List.range k).foldl (markUsed sb) d) c = (bit sb d c || decide (c < k))
  | 0 => by rw [List.range_zero, List.foldl_nil, decide_eq_false (Nat.not_lt_zero c), Bool.or_false]
  | k + 1 => by
      rw [List.range_succ, List.foldl_append, List.foldl_cons, List.foldl_nil, bit_markUsed,
        bit_markUsed_range d c k, Bool.or_assoc, ← Bool.decide_or]
      congr 1
      exact decide_eq_decide.mpr (by omega)

/-- Marking blocks leaves the blocks before the bitmap alone. -/
theorem foldl_markUsed_other (hc : c < sb.bmapstart) : ∀ bs : List Nat,
    ∀ d : Disk, bs.foldl (markUsed sb) d c = d c
  | [], _ => rfl
  | b :: bs, d => by
      have hne : c ≠ sb.bblock b := by
        have := sb.bmapstart_le b
        omega
      rw [List.foldl_cons, foldl_markUsed_other hc bs, markUsed, updBlk_ne hne]

end Bitmap

/-! ## `struct dinode` -/

/-- On-disk inode structure.  `short` fields are kept as raw 16-bit words. -/
@[ext] structure Dinode where
  type : UInt16
  major : UInt16
  minor : UInt16
  nlink : UInt16
  size : UInt32
  addrs : Fin (NDIRECT + 1) → UInt32

/-- The inode `memset` to zero. -/
def Dinode.zero : Dinode := ⟨0, 0, 0, 0, 0, fun _ => 0⟩

/-- `ip->addrs[NDIRECT]`, the indirect block. -/
def Dinode.indirect (di : Dinode) : UInt32 := di.addrs (Fin.last NDIRECT)

/-- `(struct dinode*)bp->data + i`, read from byte offset `o` on. -/
def getDinode (blk : Block) (o : Nat) : Dinode where
  type := UInt16.ofNat (getLE 2 blk o)
  major := UInt16.ofNat (getLE 2 blk (o + 2))
  minor := UInt16.ofNat (getLE 2 blk (o + 4))
  nlink := UInt16.ofNat (getLE 2 blk (o + 6))
  size := UInt32.ofNat (getLE 4 blk (o + 8))
  addrs := fun i => UInt32.ofNat (getLE 4 blk (o + 12 + 4 * i))

/-- The block with the inode at byte offset `o` overwritten, field by field. -/
def putDinode (blk : Block) (o : Nat) (di : Dinode) : Block :=
  let blk := setLE 2 blk o di.type.toNat
  let blk := setLE 2 blk (o + 2) di.major.toNat
  let blk := setLE 2 blk (o + 4) di.minor.toNat
  let blk := setLE 2 blk (o + 6) di.nlink.toNat
  let blk := setLE 4 blk (o + 8) di.size.toNat
  putWords blk (o + 12) (List.ofFn fun i => (di.addrs i).toNat)

/-- The block with the inode at byte offset `o` zeroed and given a type, as `ialloc` does. -/
def freshDinode (blk : Block) (o : Nat) (type : UInt16) : Block :=
  setLE 2 (blit blk o 64 fun _ => 0) o type.toNat

variable {blk : Block} {o : Nat}

theorem getDinode_congr {blk' : Block}
    (h : ∀ j, o ≤ j → j < o + 64 → get blk' j = get blk j) : getDinode blk' o = getDinode blk o := by
  have hfield : ∀ k off, o ≤ off → off + k ≤ o + 64 → getLE k blk' off = getLE k blk off :=
    fun k off h1 h2 => getLE_congr k fun j h3 h4 => h j (by omega) (by omega)
  unfold getDinode
  rw [hfield 2 o (by omega) (by omega), hfield 2 (o + 2) (by omega) (by omega),
    hfield 2 (o + 4) (by omega) (by omega), hfield 2 (o + 6) (by omega) (by omega),
    hfield 4 (o + 8) (by omega) (by omega)]
  congr 1
  funext i
  have hi : i.val ≤ NDIRECT := Nat.le_of_lt_succ i.isLt
  simp only [NDIRECT] at hi
  rw [hfield 4 (o + 12 + 4 * i) (by omega) (by omega)]

variable {di : Dinode}

theorem get_putDinode_out {j : Nat} (h : j < o ∨ o + 64 ≤ j) : get (putDinode blk o di) j = get blk j := by
  have hlen : (List.ofFn fun i => (di.addrs i).toNat).length = 13 := List.length_ofFn
  unfold putDinode
  simp only
  rw [get_putWords_out _ _ _ _ (by omega),
    get_setLE_out 4 _ _ _ _ (by omega), get_setLE_out 2 _ _ _ _ (by omega),
    get_setLE_out 2 _ _ _ _ (by omega), get_setLE_out 2 _ _ _ _ (by omega),
    get_setLE_out 2 _ _ _ _ (by omega)]

variable {n off : Nat}

theorem ofNat16_getLE {b : Buf n} {v : UInt16} (h : getLE 2 b off = v.toNat) : UInt16.ofNat (getLE 2 b off) = v := by
  rw [h, UInt16.ofNat_toNat]

theorem ofNat32_getLE {b : Buf n} {v : UInt32} (h : getLE 4 b off = v.toNat) : UInt32.ofNat (getLE 4 b off) = v := by
  rw [h, UInt32.ofNat_toNat]

/-- **An inode written is the inode read.** -/
theorem getDinode_putDinode (ho : o + 64 ≤ BSIZE) : getDinode (putDinode blk o di) o = di := by
  have w16 : ∀ v : UInt16, v.toNat < 256 ^ 2 := fun v => v.toNat_lt
  have w32 : ∀ v : UInt32, v.toNat < 256 ^ 4 := fun v => v.toNat_lt
  have hlen : (List.ofFn fun i => (di.addrs i).toNat).length = 13 := List.length_ofFn
  have hsize : BSIZE = 512 := rfl
  unfold getDinode putDinode
  ext i
  · apply congrArg
    refine ofNat16_getLE ?_
    rw [getLE_putWords_disjoint (by omega), getLE_setLE_disjoint (by omega),
      getLE_setLE_disjoint (by omega), getLE_setLE_disjoint (by omega),
      getLE_setLE_disjoint (by omega), getLE_setLE_of_lt (by omega) (w16 _)]
  · apply congrArg
    refine ofNat16_getLE ?_
    rw [getLE_putWords_disjoint (by omega), getLE_setLE_disjoint (by omega),
      getLE_setLE_disjoint (by omega), getLE_setLE_disjoint (by omega),
      getLE_setLE_of_lt (by omega) (w16 _)]
  · apply congrArg
    refine ofNat16_getLE ?_
    rw [getLE_putWords_disjoint (by omega), getLE_setLE_disjoint (by omega),
      getLE_setLE_disjoint (by omega), getLE_setLE_of_lt (by omega) (w16 _)]
  · apply congrArg
    refine ofNat16_getLE ?_
    rw [getLE_putWords_disjoint (by omega), getLE_setLE_disjoint (by omega), getLE_setLE_of_lt (by omega) (w16 _)]
  · apply congrArg
    refine ofNat32_getLE ?_
    rw [getLE_putWords_disjoint (by omega), getLE_setLE_of_lt (by omega) (w32 _)]
  · apply congrArg
    refine ofNat32_getLE ?_
    have hi : i.val < (List.ofFn fun i => (di.addrs i).toNat).length := by rw [hlen]; exact i.isLt
    have hget : (List.ofFn fun i => (di.addrs i).toNat)[i.val] = (di.addrs i).toNat := by
      rw [List.getElem_ofFn]
    rw [getLE_putWords _ _ _ i.val hi (by omega) (by rw [hget]; exact w32 _), hget]

theorem getDinode_zeroBlock (o : Nat) : getDinode zeroBlock o = Dinode.zero := by
  have hzero : ∀ k off, getLE k zeroBlock off = 0 := fun k off => getLE_zero k fun j _ _ => get_zeroBlock j
  unfold getDinode Dinode.zero
  simp only [hzero]
  rfl

variable {type : UInt16}

theorem get_freshDinode_out {j : Nat} (h : j < o ∨ o + 64 ≤ j) : get (freshDinode blk o type) j = get blk j := by
  rw [freshDinode, get_setLE_out 2 _ _ _ _ (by omega), get_blit_out _ _ h]

theorem getDinode_freshDinode (ho : o + 64 ≤ BSIZE) :
    getDinode (freshDinode blk o type) o = { Dinode.zero with type := type } := by
  have hsize : BSIZE = 512 := rfl
  have hzero : ∀ k off, o + 2 ≤ off → off + k ≤ o + 64 →
      getLE k (freshDinode blk o type) off = 0 := by
    intro k off h1 h2
    refine getLE_zero k fun j h3 h4 => ?_
    rw [freshDinode, get_setLE_out 2 _ _ _ _ (by omega), get_blit_in _ _ (by omega) (by omega) (by omega)]
  unfold getDinode
  rw [hzero 2 (o + 2) (by omega) (by omega), hzero 2 (o + 4) (by omega) (by omega),
    hzero 2 (o + 6) (by omega) (by omega), hzero 4 (o + 8) (by omega) (by omega)]
  ext i
  · apply congrArg
    refine ofNat16_getLE ?_
    rw [freshDinode, getLE_setLE_of_lt (by omega) type.toNat_lt]
  · rfl
  · rfl
  · rfl
  · rfl
  · have hi : i.val ≤ NDIRECT := Nat.le_of_lt_succ i.isLt
    simp only [NDIRECT] at hi
    show (UInt32.ofNat (getLE 4 (freshDinode blk o type) (o + 12 + 4 * i))).toNat = 0
    rw [hzero 4 (o + 12 + 4 * i) (by omega) (by omega)]
    rfl

/-- The byte offset of inode `i` in its block. -/
def inodeOff (i : Nat) : Nat := i % IPB * 64

theorem inodeOff_le (i : Nat) : inodeOff i + 64 ≤ BSIZE := by
  have h := Nat.mod_lt i (show 0 < IPB by decide)
  simp only [inodeOff, IPB, BSIZE] at *
  omega

/-- Inode `i` as it is on the disk. -/
def dinodeAt (sb : Superblock) (d : Disk) (i : Nat) : Dinode :=
  getDinode (d (sb.iblock i)) (inodeOff i)

theorem dinodeAt_updBlk_ne {sb : Superblock} {d : Disk}
    (h : sb.iblock i ≠ c) : dinodeAt sb (updBlk d c x) i = dinodeAt sb d i := by
  unfold dinodeAt
  rw [updBlk_ne h]

/-- Overwriting the 64 bytes of one inode changes that inode only. -/
theorem dinodeAt_write {sb : Superblock} {d : Disk} (hsame : getDinode blk (inodeOff i) = di)
    (hout : ∀ j, j < inodeOff i ∨ inodeOff i + 64 ≤ j → get blk j = get (d (sb.iblock i)) j) (m : Nat) :
    dinodeAt sb (updBlk d (sb.iblock i) blk) m = if m = i then di else dinodeAt sb d m := by
  by_cases hm : m = i
  · subst hm
    rw [if_pos rfl, dinodeAt, updBlk_same, hsame]
  · rw [if_neg hm]
    by_cases hblk : sb.iblock m = sb.iblock i
    · -- another inode of the same block
      unfold dinodeAt
      rw [hblk, updBlk_same]
      refine getDinode_congr fun j h1 h2 => hout j ?_
      simp only [SuperFields.iblock, inodeOff, IPB, BSIZE] at *
      omega
    · exact dinodeAt_updBlk_ne hblk

/-! ## Block pointers -/

/-- `((uint*)bp->data)[j]`. -/
def word (blk : Block) (j : Nat) : Nat := getLE 4 blk (4 * j)

def setWord (blk : Block) (j v : Nat) : Block := setLE 4 blk (4 * j) v

theorem word_setWord (blk : Block) {j v : Nat} (hj : j < NINDIRECT) (hv : v < 2 ^ 32) (i : Nat) :
    word (setWord blk j v) i = if i = j then v else word blk i := by
  have hsize : BSIZE = 512 := rfl
  simp only [NINDIRECT, BSIZE] at hj
  unfold word setWord
  split
  · rename_i hi
    rw [hi]
    exact getLE_setLE_of_lt (by omega) hv
  · exact getLE_setLE_disjoint (by omega)

theorem word_zeroBlock (j : Nat) : word zeroBlock j = 0 := getLE_zero 4 fun i _ _ => get_zeroBlock i

/-- The places of an inode that hold block numbers: `addrs[i]`, and the words of its indirect
    block. -/
inductive Slot
  | addr (i : Fin (NDIRECT + 1))
  | ind (j : Nat)
  deriving DecidableEq

/-- The slot that holds the indirect block. -/
abbrev Slot.indirect : Slot := .addr (Fin.last NDIRECT)

/-- The slot is a word of the indirect block. -/
def Slot.isWord : Slot → Bool
  | .addr _ => false
  | .ind _ => true

/-- The block number in a slot of an inode (`0`: none). -/
def ptr (d : Disk) (di : Dinode) : Slot → Nat
  | .addr i => (di.addrs i).toNat
  | .ind j => if di.indirect = 0 then 0 else word (d di.indirect.toNat) j

/-- The slot that maps block `bn` of a file. -/
def slotOf (bn : Nat) : Slot :=
  if h : bn < NDIRECT then .addr ⟨bn, Nat.lt_succ_of_lt h⟩ else .ind (bn - NDIRECT)

/-- The disk block that holds block `bn` of the file (`0`: none). -/
def blockOf (d : Disk) (di : Dinode) (bn : Nat) : Nat := ptr d di (slotOf bn)

theorem slotOf_inj {a : Nat} (h : slotOf a = slotOf b) : a = b := by
  unfold slotOf at h
  split at h <;> split at h
  · exact Fin.mk.inj (Slot.addr.inj h)
  · cases h
  · cases h
  · have := Slot.ind.inj h
    omega

theorem slotOf_ne_indirect (bn : Nat) : slotOf bn ≠ Slot.indirect := by
  unfold slotOf
  split
  · rename_i hbn
    intro h
    have hval := congrArg Fin.val (Slot.addr.inj h)
    have hlast : (Fin.last NDIRECT).val = NDIRECT := rfl
    simp only [hlast] at hval
    omega
  · nofun

/-- Who holds which block: the pointers of all allocated inodes.  `ino` is the inode table, which an
    operation in progress may have ahead of the disk. -/
def own (sb : Superblock) (d : Disk) (ino : Nat → Dinode) (k : Nat × Slot) : Nat :=
  if k.1 < sb.ninodes ∧ (ino k.1).type ≠ 0 then ptr d (ino k.1) k.2 else 0

/-- **No block is shared and none is lost**: every block number held lies in the data area, is held
    once, and the bits set in the bitmap are those of the blocks held and of the metadata. -/
structure Consistent (sb : Superblock) (d : Disk) (ino : Nat → Dinode) : Prop where
  excl : Exclusive sb.IsData (own sb d ino) (fun b => bit sb d b = true)
  metadata : ∀ b, b < sb.nmeta → bit sb d b = true

variable {inum : Nat}

section Own

variable {sb : Superblock} {d d' : Disk} {ino ino' : Nat → Dinode}

theorem own_of_live (hn : n < sb.ninodes) (ht : (ino n).type ≠ 0) (k : Slot) :
    own sb d ino (n, k) = ptr d (ino n) k := if_pos ⟨hn, ht⟩

/-- An indirect block in use is held, in its inode's slot for it. -/
theorem own_indirect (hn : n < sb.ninodes) (ht : (ino n).type ≠ 0) :
    own sb d ino (n, Slot.indirect) = (ino n).indirect.toNat := own_of_live hn ht _

/-- Pointers are read from the inode table and the indirect blocks, and from nowhere else. -/
theorem own_congr (h : ∀ n, n < sb.ninodes → (ino n).type ≠ 0 → (ino n).indirect ≠ 0 →
      d' (ino n).indirect.toNat = d (ino n).indirect.toNat) (k : Nat × Slot) :
    own sb d' ino k = own sb d ino k := by
  unfold own
  split
  · rename_i hk
    cases k.2 with
    | addr i => rfl
    | ind j =>
      simp only [ptr]
      split
      · rfl
      · rename_i hi
        rw [h k.1 hk.1 hk.2 hi]
  · rfl

/-- Of an inode, the type and the pointers count. -/
theorem own_congr_table (h : ∀ n, n < sb.ninodes →
      (ino' n).type = (ino n).type ∧ (ino' n).addrs = (ino n).addrs) (k : Nat × Slot) :
    own sb d ino' k = own sb d ino k := by
  unfold own
  by_cases hlt : k.1 < sb.ninodes
  · obtain ⟨h1, h2⟩ := h k.1 hlt
    have hind : (ino' k.1).indirect = (ino k.1).indirect := congrFun h2 _
    rw [h1]
    split
    · cases k.2 with
      | addr i => exact congrArg UInt32.toNat (congrFun h2 i)
      | ind j => simp only [ptr, hind]
    · rfl
  · rw [if_neg (fun h => hlt h.1), if_neg (fun h => hlt h.1)]

theorem toNat_ne_zero {w : UInt32} : w.toNat ≠ 0 ↔ w ≠ 0 := by
  constructor
  · rintro h rfl
    exact h rfl
  · intro h e
    exact h (UInt32.toNat_inj.mp (by rw [e]; rfl))

theorem toNat_eq_zero {w : UInt32} : w.toNat = 0 ↔ w = 0 := not_iff_not.mp toNat_ne_zero

/-- An indirect block in use is a used data block. -/
theorem Consistent.indirect_used (h : Consistent sb d ino) (hn : n < sb.ninodes)
    (ht : (ino n).type ≠ 0) (hi : (ino n).indirect ≠ 0) :
    sb.IsData (ino n).indirect.toNat ∧ bit sb d (ino n).indirect.toNat = true := by
  have hown := own_indirect (d := d) hn ht
  have hne : own sb d ino (n, Slot.indirect) ≠ 0 := by rw [hown]; exact toNat_ne_zero.mpr hi
  have h1 := h.excl.inArea _ hne
  have h2 := h.excl.used_own hne
  rw [hown] at h1 h2
  exact ⟨h1, h2⟩

/-- Changes outside the used data blocks do not change who holds what. -/
theorem Consistent.own_eq (h : Consistent sb d ino)
    (hd : ∀ b, sb.IsData b → bit sb d b = true → d' b = d b) (k : Nat × Slot) : own sb d' ino k = own sb d ino k :=
  own_congr (fun n hn ht hi => by
    obtain ⟨h1, h2⟩ := h.indirect_used hn ht hi
    exact hd _ h1 h2) k

/-- Writing an inode block touches neither data blocks nor the bitmap. -/
theorem Consistent.put_inode (h : Consistent sb d ino) (hi : i < sb.ninodes) (x : Block) :
    Consistent sb (updBlk d (sb.iblock i) x) ino where
  excl := h.excl.congr (h.own_eq fun b hb _ => updBlk_ne (Ne.symm (hb.ne_iblock hi))) fun b _ => by
    rw [bit_updBlk_ne (Ne.symm (sb.iblock_ne_bblock hi b))]
  metadata := fun b hb => by
    rw [bit_updBlk_ne (Ne.symm (sb.iblock_ne_bblock hi b)), h.metadata b hb]

/-- An inode without blocks in place of a free one: no block changes hands. -/
theorem own_fresh (hfree : (ino inum).type = 0) (hempty : di.addrs = fun _ => 0)
    (hinodes : ∀ n, ino' n = if n = inum then di else ino n) (k : Nat × Slot) : own sb d ino' k = own sb d ino k := by
  have hptr : ∀ k, ptr d di k = 0 := by
    intro k
    have hind : di.indirect = 0 := congrFun hempty _
    cases k with
    | addr i => exact congrArg UInt32.toNat (congrFun hempty i)
    | ind j => exact if_pos hind
  obtain ⟨n, k⟩ := k
  unfold own
  rcases eq_or_ne n inum with rfl | hn
  · simp only [hinodes, if_true, hfree, ne_eq, not_true_eq_false, and_false, if_false, hptr, ite_self]
  · simp only [hinodes, if_neg hn]

theorem Consistent.fresh (h : Consistent sb d ino) (hfree : (ino inum).type = 0)
    (hempty : di.addrs = fun _ => 0) (hinodes : ∀ n, ino' n = if n = inum then di else ino n) : Consistent sb d ino' :=
  ⟨h.excl.congr (own_fresh hfree hempty hinodes) fun _ _ => Iff.rfl, h.metadata⟩

end Own

end Xv6.Fs
