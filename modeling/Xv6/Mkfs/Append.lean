/-
  `iappend` does what the kernel's `writei` does.

  The two programs keep their books differently: the kernel takes the first block whose bit is clear, zeroes it
  and logs the bitmap; `mkfs` counts `freeblock` up, over blocks that are zero since the beginning, and writes
  the bitmap once, at the end.  So the image is looked at with the bitmap that `mkfs` WOULD write (`image`), and
  an inode in the hands of `iappend` as one in slot 0 of an inode cache (`work`):

  1. taking a block is a `Grab`, as `balloc` of the kernel is;
  2. `mapBlock` meets the specification of `bmap` (`Mapped`);
  3. the loop of `iappend` meets that of the loop of `writei` (`Wrote`).

  On top of that `mkfs` is exact: a file of `z` bytes has `blocksFor z` blocks (`Tight`), so `freeblock` is known
  from the sizes of the files alone.
-/
import Xv6.Fs.Refine
import Xv6.Mkfs.Program

namespace Xv6.Mkfs

open ByteBuf Outcome Fs Ownership

variable {m : St} {din : Dinode} {inum : Nat} {L : LogOps.Log}

/-! ## The image so far -/

/-- The image, if `mkfs` stopped here and wrote the bitmap. -/
def image (m : St) : Disk := updBlk m.disk mkfsSb.bmapstart (bitmap m.freeblock)

/-- The blocks not yet taken are zero. -/
structure Fresh (m : St) : Prop where
  low : mkfsSb.nmeta ≤ m.freeblock
  high : m.freeblock ≤ FSSIZE
  zero : ∀ b, m.freeblock ≤ b → b < FSSIZE → m.disk b = zeroBlock

/-- Inode `inum` in the hands of `iappend`, which has changed it to `din`. -/
def work (m : St) (inum : Nat) (din : Dinode) (L : LogOps.Log) : Fs.St where
  disk := image m
  log := L
  icache := fun ip =>
    if ip = 0 then ⟨ROOTDEV, inum, 1, true, true, din⟩ else ⟨0, 0, 0, false, false, Dinode.zero⟩

theorem ne_bmapstart {b : Nat} (h : mkfsSb.nmeta ≤ b) : b ≠ mkfsSb.bmapstart := by
  have := mkfsSb.bmapstart_lt
  omega

theorem testBit_bitmap (i : Nat) : ∀ used, used ≤ BPB → testBit (bitmap used) i = decide (i < used)
  | 0, _ => by
    rw [decide_eq_false (Nat.not_lt_zero i)]
    show testBit zeroBlock i = false
    unfold testBit
    rw [get_zeroBlock]
    simp
  | used + 1, h => by
    have hidx : used / 8 < BSIZE := by
      simp only [BPB, BSIZE] at *
      omega
    have hstep : bitmap (used + 1) = setBit (bitmap used) used := by
      unfold bitmap
      rw [List.range_succ, List.foldl_append]
      rfl
    rw [hstep, testBit_setBit _ _ hidx, testBit_bitmap i used (by omega), ← Bool.decide_or]
    exact decide_eq_decide.mpr (by omega)

variable {b : Nat}

theorem bblock_mkfs (h : b < FSSIZE) : mkfsSb.bblock b = mkfsSb.bmapstart := by
  have : b / BPB = 0 := by
    simp only [BPB, BSIZE, FSSIZE] at *
    omega
  unfold SuperFields.bblock
  rw [this, Nat.zero_add]

theorem bit_image (hf : Fresh m) (hb : b < FSSIZE) : bit mkfsSb (image m) b = decide (b < m.freeblock) := by
  have hmod : b % BPB = b := Nat.mod_eq_of_lt (by simp only [BPB, BSIZE, FSSIZE] at *; omega)
  have hused : m.freeblock ≤ BPB := hf.high.trans (by decide)
  rw [bit, bblock_mkfs hb, hmod, image, updBlk_same, testBit_bitmap b _ hused]

/-- `freeblock++` -/
def take (m : St) : St := { m with freeblock := m.freeblock + 1 }

theorem Fresh.take (hf : Fresh m) (hlt : m.freeblock < FSSIZE) : Fresh (take m) where
  low := Nat.le_succ_of_le hf.low
  high := hlt
  zero := fun b hb hlt => hf.zero b (Nat.le_of_succ_le hb) hlt

/-- **Taking the next free block** is what `balloc` of the kernel does. -/
theorem grab (inum : Nat) (din : Dinode) (L : LogOps.Log) (hf : Fresh m) (hlt : m.freeblock < FSSIZE) :
    Grab mkfsSb (work m inum din L) (work (take m) inum din L) m.freeblock where
  data := ⟨hf.low, hlt⟩
  free := by
    show bit mkfsSb (image m) m.freeblock = false
    rw [bit_image hf hlt]
    exact decide_eq_false (Nat.lt_irrefl _)
  disk := by
    have hmod : m.freeblock % BPB = m.freeblock :=
      Nat.mod_eq_of_lt (by simp only [BPB, BSIZE, FSSIZE] at *; omega)
    funext c
    show image (take m) c = updBlk (markUsed mkfsSb (image m) m.freeblock) m.freeblock zeroBlock c
    rcases eq_or_ne c m.freeblock with rfl | hc
    · rw [updBlk_same, image, updBlk_ne (ne_bmapstart hf.low)]
      exact hf.zero _ (Nat.le_refl _) hlt
    · rw [updBlk_ne hc, markUsed, bblock_mkfs hlt, hmod]
      rcases eq_or_ne c mkfsSb.bmapstart with rfl | hb
      · rw [updBlk_same, image, updBlk_same, image, updBlk_same]
        show (List.range (m.freeblock + 1)).foldl setBit zeroBlock = _
        rw [List.range_succ, List.foldl_append]
        rfl
      · rw [updBlk_ne hb, image, updBlk_ne hb, image, updBlk_ne hb]
        rfl
  icache := rfl
  logged := ⟨rfl, rfl, Nat.le_add_right _ _⟩

/-- The inode at hand is changed. -/
theorem work_setInode (m : St) (inum : Nat) (din di : Dinode) (L : LogOps.Log) :
    (work m inum din L).setInode 0 ⟨ROOTDEV, inum, 1, true, true, di⟩ = work m inum di L := by
  unfold St.setInode work
  congr 1
  funext j
  by_cases hj : j = 0
  · simp only [if_pos hj]
  · simp only [if_neg hj]

theorem image_wsect (m : St) (hb : b ≠ mkfsSb.bmapstart) (x : Block) : image (wsect m b x) = updBlk (image m) b x := by
  funext c
  show updBlk (updBlk m.disk b x) mkfsSb.bmapstart (bitmap m.freeblock) c = updBlk (image m) b x c
  rcases eq_or_ne c mkfsSb.bmapstart with rfl | hc
  · rw [updBlk_ne hb.symm, image, updBlk_same, updBlk_same]
  · rw [updBlk_ne hc]
    rcases eq_or_ne c b with rfl | hcb
    · rw [updBlk_same, updBlk_same]
    · rw [updBlk_ne hcb, updBlk_ne hcb, image, updBlk_ne hc]

theorem work_put (m : St) (inum : Nat) (din : Dinode) (L : LogOps.Log) (hb : b ≠ mkfsSb.bmapstart) (x : Block) :
    (work m inum din L).put b x = work (wsect m b x) inum din (L.absorb b) := by
  unfold work
  rw [image_wsect m hb x]
  rfl

/-- A write to a block in use leaves the free ones alone. -/
theorem Fresh.wsect (hf : Fresh m) (hb : b < m.freeblock) (x : Block) : Fresh (wsect m b x) where
  low := hf.low
  high := hf.high
  zero := fun c hc hlt => by
    have hne : c ≠ b := by
      rintro rfl
      exact absurd hb (Nat.not_lt.mpr hc)
    show updBlk m.disk b x c = zeroBlock
    rw [updBlk_ne hne]
    exact hf.zero c hc hlt

/-- Appending neither takes an inode nor writes to the blocks before the inodes. -/
structure Kept (m m' : St) : Prop where
  freeinode : m'.freeinode = m.freeinode
  head : ∀ b, b < mkfsSb.inodestart → m'.disk b = m.disk b

theorem Kept.refl (m : St) : Kept m m := ⟨rfl, fun _ _ => rfl⟩

theorem Kept.take (m : St) : Kept m (take m) := ⟨rfl, fun _ _ => rfl⟩

theorem Kept.trans {m' m'' : St} (h : Kept m m') (h' : Kept m' m'') : Kept m m'' :=
  ⟨h'.freeinode.trans h.freeinode, fun b hb => (h'.head b hb).trans (h.head b hb)⟩

theorem Kept.wsect (m : St) (hb : mkfsSb.inodestart ≤ b) (x : Block) : Kept m (wsect m b x) :=
  ⟨rfl, fun c hc => updBlk_ne (by omega)⟩

/-! ## Mapping a block -/

/-- The pointers of the inode at hand. -/
theorem work_own (hw : Working mkfsSb (work m inum din L) 0) (k : Slot) :
    (work m inum din L).own mkfsSb 0 ((work m inum din L).key 0 k) = ptr (image m) din k := hw.own_key k

/-- A block held is a data block in use. -/
theorem work_held (hw : Working mkfsSb (work m inum din L) 0) (hf : Fresh m) {k : Nat × Slot}
    (hk : (work m inum din L).own mkfsSb 0 k ≠ 0) :
    mkfsSb.nmeta ≤ (work m inum din L).own mkfsSb 0 k ∧ (work m inum din L).own mkfsSb 0 k < m.freeblock := by
  obtain ⟨hdata, hbit⟩ := hw.held hk
  have hbit' : bit mkfsSb (image m) ((work m inum din L).own mkfsSb 0 k) = true := hbit
  rw [bit_image hf hdata.2] at hbit'
  exact ⟨hdata.1, of_decide_eq_true hbit'⟩

theorem rsect_image (hlow : mkfsSb.nmeta ≤ b) (hhigh : b < FSSIZE) : rsect m b = some (image m b) := by
  rw [rsect, if_pos hhigh, image, updBlk_ne (ne_bmapstart hlow)]

/-- The inode with `addrs[k] = b`. -/
def withAddr (din : Dinode) (k : Fin (NDIRECT + 1)) (b : Nat) : Dinode :=
  { din with addrs := fun l => if l = k then UInt32.ofNat b else din.addrs l }

variable {k : Fin (NDIRECT + 1)}

theorem setAddr_zero (hk : din.addrs k = 0) : setAddr m din k = (withAddr din k m.freeblock, take m) := if_pos hk

theorem setAddr_ne (hk : din.addrs k ≠ 0) : setAddr m din k = (din, m) := if_neg hk

theorem withAddr_self (hlt : m.freeblock < FSSIZE) (k : Fin (NDIRECT + 1)) :
    ((withAddr din k m.freeblock).addrs k).toNat = m.freeblock := by
  show (if k = k then UInt32.ofNat m.freeblock else din.addrs k).toNat = m.freeblock
  rw [if_pos rfl]
  exact UInt32.toNat_ofNat_of_lt' (Nat.lt_trans hlt (by decide))

/-- `din.addrs[k] = xint(freeblock++)` -/
theorem setAddr_took (hw : Working mkfsSb (work m inum din L) 0) (hf : Fresh m) (hlt : m.freeblock < FSSIZE)
    (hk : din.addrs k = 0) :
    Took mkfsSb (work m inum din L) (work (take m) inum (withAddr din k m.freeblock) L) 0 (.addr k) m.freeblock := by
  have h0 : (work m inum din L).own mkfsSb 0 ((work m inum din L).key 0 (.addr k)) = 0 := by
    rw [work_own hw]
    exact toNat_eq_zero.mpr hk
  have htook := attach_addr hw (grab inum din L hf hlt) h0
  rw [← work_setInode (take m) inum din]
  exact htook

/-- How many blocks `mapBlock` takes, as the kernel counts them. -/
def need1 (m : St) (inum : Nat) (din : Dinode) (L : LogOps.Log) (fbn : Nat) : Nat :=
  (work m inum din L).need1 mkfsSb 0 fbn

variable {fbn : Nat}

/-- The outcome of `mapBlock`. -/
structure Maps (m : St) (inum : Nat) (din : Dinode) (L : LogOps.Log) (fbn x : Nat) (din' : Dinode) (m' : St)
    (L' : LogOps.Log) : Prop where
  mapped : Mapped mkfsSb (work m inum din L) (work m' inum din' L') 0 fbn x
  fresh : Fresh m'
  freeblock : m'.freeblock = m.freeblock + need1 m inum din L fbn
  kept : Kept m m'

section

variable (hw : Working mkfsSb (work m inum din L) 0) (hf : Fresh m)

include hw hf

/-- A block that is mapped. -/
theorem mapBlock_mapped (hm : (work m inum din L).own mkfsSb 0 ((work m inum din L).key 0 (slotOf fbn)) ≠ 0) :
    mapBlock m din fbn = some ((work m inum din L).own mkfsSb 0 ((work m inum din L).key 0 (slotOf fbn)), din, m) := by
  unfold mapBlock
  by_cases h : fbn < NDIRECT
  · rw [slotOf_direct h, work_own hw] at hm ⊢
    rw [dif_pos h]
    dsimp only
    rw [setAddr_ne (toNat_ne_zero.mp hm)]
    rfl
  · rw [slotOf_indirect h] at hm ⊢
    have hne := hw.indirect_of_word hm
    obtain ⟨hlow, hhigh⟩ := work_held hw hf hne
    rw [work_own hw] at hne hlow hhigh hm ⊢
    have hi : din.indirect ≠ 0 := toNat_ne_zero.mp hne
    simp only [ptr, if_neg hi] at hm ⊢
    rw [dif_neg h, setAddr_ne hi]
    dsimp only
    rw [show rsect m din.indirect.toNat = _ from rsect_image hlow (Nat.lt_of_lt_of_le hhigh hf.high)]
    simp only [Option.bind_eq_bind, Option.bind_some]
    rw [if_neg hm]
    rfl

/-- The indirect block, taken if it is not there. -/
theorem setAddr_indirect (hroom : m.freeblock +
      (if (work m inum din L).own mkfsSb 0 ((work m inum din L).key 0 .indirect) = 0 then 1 else 0) ≤ FSSIZE) :
    ∃ din' m', setAddr m din (Fin.last NDIRECT) = (din', m') ∧
      Indirect mkfsSb (work m inum din L) (work m' inum din' L) 0 din'.indirect.toNat ∧ Fresh m' ∧
      m'.freeblock = m.freeblock +
        (if (work m inum din L).own mkfsSb 0 ((work m inum din L).key 0 .indirect) = 0 then 1 else 0) ∧ Kept m m' := by
  have hown := work_own hw .indirect
  by_cases hi : din.indirect = 0
  · have h0 := hown.trans (toNat_eq_zero.mpr hi)
    rw [if_pos h0] at hroom ⊢
    refine ⟨_, _, setAddr_zero hi, ?_, hf.take hroom, rfl, Kept.take m⟩
    rw [show (withAddr din (Fin.last NDIRECT) m.freeblock).indirect.toNat = m.freeblock from withAddr_self hroom _]
    exact (setAddr_took hw hf hroom hi).toIndirect h0
  · have h0 := ne_of_eq_of_ne hown (toNat_ne_zero.mpr hi)
    rw [if_neg h0]
    refine ⟨din, m, setAddr_ne hi, ?_, hf, rfl, Kept.refl m⟩
    rw [show din.indirect.toNat = _ from hown.symm]
    exact Indirect.refl hw h0

theorem mapBlock_indirect (h : ¬ fbn < NDIRECT) (hfbn : fbn < MAXFILE)
    (hm : (work m inum din L).own mkfsSb 0 ((work m inum din L).key 0 (slotOf fbn)) = 0)
    (hroom : m.freeblock + need1 m inum din L fbn ≤ FSSIZE) :
    ∃ x din' m' L', mapBlock m din fbn = some (x, din', m') ∧ Maps m inum din L fbn x din' m' L' := by
  have hj : fbn - NDIRECT < NINDIRECT := by
    simp only [MAXFILE] at hfbn
    omega
  have hneed : need1 m inum din L fbn = _ := need1_indirect h hm
  obtain ⟨din₁, m₁, hset, hind, hf₁, hfb, hkept⟩ := setAddr_indirect hw hf (by omega)
  have hw₁ := hind.grown.work
  have hi₁ : (work m₁ inum din₁ L).own mkfsSb 0 ((work m₁ inum din₁ L).key 0 .indirect) = din₁.indirect.toNat :=
    work_own hw₁ .indirect
  have hi₁ne := ne_of_eq_of_ne hi₁ hind.ne
  obtain ⟨hlow, hhigh⟩ := work_held hw₁ hf₁ hi₁ne
  rw [hi₁] at hlow hhigh
  have hzero : (work m₁ inum din₁ L).own mkfsSb 0 ((work m₁ inum din₁ L).key 0 (.ind (fbn - NDIRECT))) = 0 := by
    rw [hind.grown.key, hind.own, if_neg nofun, ← slotOf_indirect h, hm]
  have hz : word (image m₁ din₁.indirect.toNat) (fbn - NDIRECT) = 0 := hw₁.word_zero hind.ne hzero
  have hlt : m₁.freeblock < FSSIZE := by omega
  have hattach := attach_word hw₁ (grab inum din₁ L hf₁ hlt) hj hi₁ne hzero
  rw [hi₁, work_put _ _ _ _ (ne_bmapstart hlow)] at hattach
  have htook : Took mkfsSb (work m₁ inum din₁ L) (work (wsect { m₁ with freeblock := m₁.freeblock + 1 }
      din₁.indirect.toNat (setWord (image m₁ din₁.indirect.toNat) (fbn - NDIRECT) m₁.freeblock)) inum din₁
      (L.absorb din₁.indirect.toNat)) 0 (.ind (fbn - NDIRECT)) m₁.freeblock := hattach
  have hnew : word (setWord (image m₁ din₁.indirect.toNat) (fbn - NDIRECT) m₁.freeblock) (fbn - NDIRECT) =
      m₁.freeblock := by
    rw [word_setWord _ hj (Nat.lt_trans hlt (by decide)), if_pos rfl]
  unfold mapBlock
  rw [dif_neg h, hset]
  dsimp only
  rw [rsect_image hlow (Nat.lt_of_lt_of_le hhigh hf₁.high)]
  simp only [Option.bind_eq_bind, Option.bind_some]
  rw [if_pos hz, hnew]
  refine ⟨_, _, _, L.absorb din₁.indirect.toNat, rfl, hind.mapped h hm htook,
    (hf₁.take hlt).wsect (Nat.lt_succ_of_lt hhigh) _, ?_,
    (hkept.trans (Kept.take m₁)).trans (Kept.wsect _ (Nat.le_trans (by decide) hlow) _)⟩
  show m₁.freeblock + 1 = _
  rw [hneed, hfb]
  omega

/-- **`mapBlock` does what `bmap` does.** -/
theorem mapBlock_spec (hfbn : fbn < MAXFILE) (hroom : m.freeblock + need1 m inum din L fbn ≤ FSSIZE) :
    ∃ x din' m' L', mapBlock m din fbn = some (x, din', m') ∧ Maps m inum din L fbn x din' m' L' := by
  by_cases hm : (work m inum din L).own mkfsSb 0 ((work m inum din L).key 0 (slotOf fbn)) = 0
  case neg =>
    refine ⟨_, _, _, L, mapBlock_mapped hw hf hm, hw.mapped hm, hf, ?_, Kept.refl m⟩
    rw [need1, need1_mapped hw hm, Nat.add_zero]
  case pos =>
    by_cases h : fbn < NDIRECT
    · have hk : din.addrs ⟨fbn, Nat.lt_succ_of_lt h⟩ = 0 := hw.addr_zero h hm
      have hneed : need1 m inum din L fbn = 1 := need1_direct h hm
      have hlt : m.freeblock < FSSIZE := by omega
      unfold mapBlock
      rw [dif_pos h]
      dsimp only
      rw [setAddr_zero hk]
      refine ⟨_, _, _, L, rfl, ?_, hf.take hlt, by rw [hneed]; rfl, Kept.take m⟩
      rw [withAddr_self hlt]
      exact (setAddr_took hw hf hlt hk).direct h hm
    · exact mapBlock_indirect hw hf h hfbn hm hroom

/-! ## How many blocks -/

end

/-- The blocks of a file of `z` bytes, with the indirect block. -/
def blocksFor (z : Nat) : Nat :=
  let k := (z + BSIZE - 1) / BSIZE
  k + if NDIRECT < k then 1 else 0

theorem blocksFor_mono {y z : Nat} (h : y ≤ z) : blocksFor y ≤ blocksFor z := by
  have hsize : BSIZE = 512 := rfl
  unfold blocksFor
  simp only [hsize, NDIRECT]
  split <;> split <;> omega

/-- The inode at hand has the blocks of a file of `z` bytes, and no others. -/
structure Tight (s : Fs.St) (z : Nat) : Prop where
  block : ∀ bn, bn < MAXFILE → (s.own mkfsSb 0 (s.key 0 (slotOf bn)) ≠ 0 ↔ bn * BSIZE < z)
  indirect : s.own mkfsSb 0 (s.key 0 .indirect) ≠ 0 ↔ NDIRECT * BSIZE < z

variable {off n : Nat}

/-- One more block is needed at the end of one, and another for the first word of the indirect block. -/
theorem need1_tight (ht : Tight (work m inum din L) off) (hfbn : off / BSIZE < MAXFILE) (hn : n ≠ 0) :
    need1 m inum din L (off / BSIZE) + blocksFor off = blocksFor (off + chunk off n) := by
  have hblock := ht.block _ hfbn
  have hind := ht.indirect
  have hsize : BSIZE = 512 := rfl
  have hpos := chunk_pos off hn
  have hroom := chunk_room off n
  generalize chunk off n = c at *
  have h0 : (work m inum din L).own mkfsSb 0 ((work m inum din L).key 0 (slotOf (off / BSIZE))) = 0 ↔
      ¬ off / BSIZE * BSIZE < off := by rw [← hblock, not_not]
  have hi : (work m inum din L).own mkfsSb 0 ((work m inum din L).key 0 .indirect) = 0 ↔ ¬ NDIRECT * BSIZE < off := by
    rw [← hind, not_not]
  unfold need1 St.need1 blocksFor
  simp only [h0, hi]
  simp only [hsize, NDIRECT] at *
  split <;> split <;> split <;> split <;> omega

variable {t s : Fs.St}

/-- After a round the inode has the blocks for the bytes written so far. -/
theorem Tight.step {x : Nat} {u : Fs.St} (ht : Tight s off) (hn : n ≠ 0)
    (hmap : Mapped mkfsSb s t 0 (off / BSIZE) x) (hkey : ∀ k, u.key 0 k = s.key 0 k)
    (hown : ∀ l, u.own mkfsSb 0 l = t.own mkfsSb 0 l) : Tight u (off + chunk off n) := by
  have hsize : BSIZE = 512 := rfl
  have hpos := chunk_pos off hn
  have hroom := chunk_room off n
  generalize chunk off n = c at *
  constructor
  · intro bn hbn
    rw [hkey, hown]
    by_cases hb : bn = off / BSIZE
    · rw [hb, hmap.here]
      refine ⟨fun _ => ?_, fun _ => hmap.ne⟩
      simp only [hsize] at *
      omega
    · rw [hmap.only _ (fun e => hb (slotOf_inj (Prod.mk.inj e).2)) fun e => slotOf_ne_indirect bn (Prod.mk.inj e.1).2,
        ht.block bn hbn]
      simp only [hsize] at *
      omega
  · rw [hkey, hown]
    by_cases hge : NDIRECT ≤ off / BSIZE
    · refine ⟨fun _ => ?_, fun _ => hmap.indirect hge⟩
      simp only [hsize, NDIRECT] at *
      omega
    · rw [hmap.only _ (fun e => slotOf_ne_indirect _ (Prod.mk.inj e).2.symm) fun e => hge e.2, ht.indirect]
      simp only [hsize, NDIRECT] at *
      omega

/-! ## The loop -/

/-- After one round of the loop of `iappend`, with `m₂` and `din₂` for the rest. -/
structure Round (m m₂ : St) (din din₂ : Dinode) (inum : Nat) (L L₂ : LogOps.Log) (p : Nat → UInt8) (off n : Nat) :
    Prop where
  work : Working mkfsSb (work m₂ inum din₂ L₂) 0
  fresh : Fresh m₂
  tight : Tight (Mkfs.work m₂ inum din₂ L₂) (off + chunk off n)
  freeblock : m₂.freeblock + blocksFor off = m.freeblock + blocksFor (off + chunk off n)
  kept : Kept m m₂
  wrote : ∀ v, Wrote mkfsSb (Mkfs.work m₂ inum din₂ L₂) v 0 (fun i => p (i + chunk off n)) (off + chunk off n)
    (n - chunk off n) → Wrote mkfsSb (Mkfs.work m inum din L) v 0 p off n

/-- **One round** does what a round of the loop of `writei` does, and takes just the blocks it needs. -/
theorem iappendLoop_round (hw : Working mkfsSb (work m inum din L) 0) (hf : Fresh m)
    (ht : Tight (work m inum din L) off) (hn : n ≠ 0) (hfbn : off / BSIZE < MAXFILE)
    (hroom : m.freeblock + need1 m inum din L (off / BSIZE) ≤ FSSIZE) (p : Nat → UInt8) :
    ∃ din₂ m₂ L₂, iappendLoop m din off p n =
        iappendLoop m₂ din₂ (off + chunk off n) (fun i => p (i + chunk off n)) (n - chunk off n) ∧
      Round m m₂ din din₂ inum L L₂ p off n := by
  have hsize : BSIZE = 512 := rfl
  have hneed := need1_tight ht hfbn hn
  -- the same piece as in `writei`
  have hpiece : min n ((off / BSIZE + 1) * BSIZE - off) = chunk off n := by
    unfold chunk
    simp only [hsize]
    omega
  have hat : off - off / BSIZE * BSIZE = off % BSIZE := by
    simp only [hsize]
    omega
  obtain ⟨x, din₁, m₁, L₁, hblock, hmaps⟩ := mapBlock_spec hw hf hfbn hroom
  have hmap := hmaps.mapped
  have hx : mkfsSb.nmeta ≤ x ∧ x < m₁.freeblock := by
    have hne : (work m₁ inum din₁ L₁).own mkfsSb 0 ((work m inum din L).key 0 (slotOf (off / BSIZE))) ≠ 0 := by
      rw [hmap.here]
      exact hmap.ne
    have := work_held hmap.grown.work hmaps.fresh hne
    rw [hmap.here] at this
    exact this
  have hput := work_put m₁ inum din₁ L₁ (ne_bmapstart hx.1) (blit (image m₁ x) (off % BSIZE) (chunk off n) p)
  have hcons := fun v => Wrote.cons (v := v) hn hmap hput.symm
  obtain ⟨hframe, hown, -, -⟩ := hcons (work m inum din L)
  have hfb := hmaps.freeblock
  refine ⟨din₁, wsect m₁ x (blit (image m₁ x) (off % BSIZE) (chunk off n) p), L₁.absorb x, ?_, hframe.work,
    hmaps.fresh.wsect hx.2 _, ht.step hn hmap hframe.key hown, ?_,
    hmaps.kept.trans (Kept.wsect _ (Nat.le_trans (by decide) hx.1) _), fun v => (hcons v).2.2.2⟩
  · rw [iappendLoop, dif_neg hn]
    dsimp only
    rw [if_neg (Nat.not_le.mpr hfbn), hblock]
    simp only [Option.bind_eq_bind, Option.bind_some]
    rw [rsect_image hx.1 (Nat.lt_of_lt_of_le hx.2 hmaps.fresh.high)]
    simp only [Option.bind_some]
    rw [hpiece, hat]
  · show m₁.freeblock + blocksFor off = _
    omega

/-- **The loop of `iappend` does what the loop of `writei` does**, and takes just the blocks it needs. -/
theorem iappendLoop_spec : ∀ (n : Nat) {m : St} {din : Dinode} {L : LogOps.Log} (p : Nat → UInt8) (off : Nat),
    Working mkfsSb (work m inum din L) 0 → Fresh m → Tight (work m inum din L) off → off + n ≤ MAXFILE * BSIZE →
    m.freeblock + blocksFor (off + n) ≤ FSSIZE + blocksFor off →
    ∃ din' m' L', iappendLoop m din off p n = some (din', off + n, m') ∧
      Wrote mkfsSb (work m inum din L) (work m' inum din' L') 0 p off n ∧ Fresh m' ∧
      Tight (work m' inum din' L') (off + n) ∧ m'.freeblock + blocksFor off = m.freeblock + blocksFor (off + n) ∧
      Kept m m' := by
  intro n
  induction n using Nat.strongRecOn with
  | _ n ih =>
  intro m din L p off hw hf ht hmax hroom
  by_cases hn : n = 0
  · subst hn
    rw [iappendLoop, dif_pos rfl]
    exact ⟨din, m, L, rfl, Wrote.nil hw p off, hf, ht, rfl, Kept.refl m⟩
  have hsize : BSIZE = 512 := rfl
  have hpos := chunk_pos off hn
  have hle := chunk_le off n
  have hfbn : off / BSIZE < MAXFILE := by
    simp only [hsize] at *
    omega
  have hneed := need1_tight ht hfbn hn
  have hmono : blocksFor (off + chunk off n) ≤ blocksFor (off + n) := blocksFor_mono (by omega)
  have hend : off + chunk off n + (n - chunk off n) = off + n := by omega
  obtain ⟨din₂, m₂, L₂, hround, h₂⟩ := iappendLoop_round hw hf ht hn hfbn (by omega) p
  have hfb := h₂.freeblock
  obtain ⟨din', m', L', hloop, hwrote, hf', ht', hfb', hkept⟩ := ih (n - chunk off n) (by omega)
    (fun i => p (i + chunk off n)) (off + chunk off n) h₂.work h₂.fresh h₂.tight (by omega) (by rw [hend]; omega)
  rw [hend] at hloop ht' hfb'
  rw [hround]
  exact ⟨din', m', L', hloop, h₂.wrote _ hwrote, hf', ht', by omega, h₂.kept.trans hkept⟩

/-! ## `iappend` -/

/-- A file system in order, whose files have just the blocks they need. -/
structure Sound (d : Disk) : Prop where
  cons : Consistent mkfsSb d (dinodeAt mkfsSb d)
  size_le : ∀ n, n < mkfsSb.ninodes → (dinodeAt mkfsSb d n).type ≠ 0 →
    (dinodeAt mkfsSb d n).size.toNat ≤ MAXFILE * BSIZE
  block : ∀ n, n < mkfsSb.ninodes → (dinodeAt mkfsSb d n).type ≠ 0 → ∀ bn, bn < MAXFILE →
    (blockOf d (dinodeAt mkfsSb d n) bn ≠ 0 ↔ bn * BSIZE < (dinodeAt mkfsSb d n).size.toNat)
  indirect : ∀ n, n < mkfsSb.ninodes → (dinodeAt mkfsSb d n).type ≠ 0 →
    ((dinodeAt mkfsSb d n).indirect ≠ 0 ↔ NDIRECT * BSIZE < (dinodeAt mkfsSb d n).size.toNat)

theorem Sound.holes {d : Disk} (h : Sound d) (hn : n < mkfsSb.ninodes) (ht : (dinodeAt mkfsSb d n).type ≠ 0) :
    HoleFree d (dinodeAt mkfsSb d n) := by
  have hle := h.size_le n hn ht
  refine ⟨hle, fun bn hbn => (h.block n hn ht bn ?_).mpr hbn⟩
  have hsize : BSIZE = 512 := rfl
  simp only [hsize] at *
  omega

section

variable (h : Sound (image m)) (hi : inum < mkfsSb.ninodes) (ht : (dinodeAt mkfsSb (image m) inum).type ≠ 0)

include h hi ht

/-- The state in which `iappend` takes an inode in hand. -/
theorem Sound.inv (L : LogOps.Log) : Inv mkfsSb (work m inum (dinodeAt mkfsSb (image m) inum) L) :=
  .of_one h.cons (fun _ hn ht => h.holes hn ht) rfl (fun _ h0 => if_neg h0) hi rfl ht

theorem Sound.working (L : LogOps.Log) : Working mkfsSb (work m inum (dinodeAt mkfsSb (image m) inum) L) 0 :=
  (h.inv hi ht L).working (show (0 : Int) < 1 by decide) rfl

theorem Sound.tight (L : LogOps.Log) : Tight (work m inum (dinodeAt mkfsSb (image m) inum) L) (dinodeAt mkfsSb (image m) inum).size.toNat := by
  have hw := h.working hi ht L
  constructor
  · intro bn hbn
    rw [work_own hw]
    exact h.block inum hi ht bn hbn
  · rw [work_own hw, ← h.indirect inum hi ht]
    exact toNat_ne_zero

end

/-- An inode block is not the bitmap, and is within the image. -/
theorem iblock_image (hi : inum < mkfsSb.ninodes) :
    mkfsSb.iblock inum ≠ mkfsSb.bmapstart ∧ rsect m (mkfsSb.iblock inum) = some (image m (mkfsSb.iblock inum)) := by
  have hlt := mkfsSb.iblock_lt hi
  have hne : mkfsSb.iblock inum ≠ mkfsSb.bmapstart := Nat.ne_of_lt hlt
  refine ⟨hne, ?_⟩
  rw [rsect, if_pos (Nat.lt_trans hlt (by decide)), image, updBlk_ne hne]

theorem rinode_eq (hi : inum < mkfsSb.ninodes) : rinode m inum = some (dinodeAt mkfsSb (image m) inum) := by
  unfold rinode
  rw [(iblock_image hi).2]
  rfl

/-- What `winode` does. -/
def putInode (m : St) (inum : Nat) (di : Dinode) : St :=
  wsect m (mkfsSb.iblock inum) (putDinode (image m (mkfsSb.iblock inum)) (inodeOff inum) di)

theorem winode_eq (hi : inum < mkfsSb.ninodes) (di : Dinode) : winode m inum di = some (putInode m inum di) := by
  unfold winode
  rw [(iblock_image hi).2]
  rfl

theorem Fresh.putInode (hf : Fresh m) (hi : inum < mkfsSb.ninodes) (di : Dinode) : Fresh (putInode m inum di) := by
  refine hf.wsect ?_ _
  have h1 := mkfsSb.iblock_lt hi
  have h2 := mkfsSb.bmapstart_lt
  have h3 := hf.low
  omega

theorem Kept.putInode (m : St) (inum : Nat) (di : Dinode) : Kept m (putInode m inum di) :=
  Kept.wsect m (Nat.le_add_left _ _) _

/-- What `iappend` makes of the image. -/
structure Appended (m m' : St) (inum : Nat) (p : Nat → UInt8) (n : Nat) : Prop where
  sound : Sound (image m')
  fresh : Fresh m'
  kept : Kept m m'
  freeblock : m'.freeblock + blocksFor (dinodeAt mkfsSb (image m) inum).size.toNat =
    m.freeblock + blocksFor ((dinodeAt mkfsSb (image m) inum).size.toNat + n)
  others : ∀ k, k < mkfsSb.ninodes → k ≠ inum → dinodeAt mkfsSb (image m') k = dinodeAt mkfsSb (image m) k
  type : (dinodeAt mkfsSb (image m') inum).type = (dinodeAt mkfsSb (image m) inum).type
  contents : ∀ k, k < mkfsSb.ninodes → (dinodeAt mkfsSb (image m) k).type ≠ 0 →
    content (image m') (dinodeAt mkfsSb (image m') k) =
      if k = inum then content (image m) (dinodeAt mkfsSb (image m) k) ++ (List.range n).map p
      else content (image m) (dinodeAt mkfsSb (image m) k)

/-- The pointers of the other inodes are those they were. -/
theorem own_others {p : Nat → UInt8} (h : Wrote mkfsSb s t 0 p off n) {k : Nat}
    (hk : k ≠ (s.icache 0).inum) (sl : Slot) : t.own mkfsSb 0 (k, sl) = s.own mkfsSb 0 (k, sl) := by
  by_cases h0 : s.own mkfsSb 0 (k, sl) = 0
  · rw [h0]
    by_contra hne
    obtain ⟨bn, -, hor⟩ := h.only _ h0 hne
    rcases hor with e | ⟨e, -⟩ <;> exact hk (Prod.mk.inj e).1
  · exact h.keep _ h0

/-- A file system in order, with one inode written back: `own` says what its pointers are. -/
theorem Sound.of_own {d d' : Disk} (h : Sound d) (hi : inum < mkfsSb.ninodes)
    (hcons : Consistent mkfsSb d' (dinodeAt mkfsSb d'))
    (hothers : ∀ k, k < mkfsSb.ninodes → k ≠ inum → dinodeAt mkfsSb d' k = dinodeAt mkfsSb d k)
    (hptrs : ∀ k, k < mkfsSb.ninodes → k ≠ inum → ∀ sl,
      own mkfsSb d' (dinodeAt mkfsSb d') (k, sl) = own mkfsSb d (dinodeAt mkfsSb d) (k, sl))
    (hlive : (dinodeAt mkfsSb d' inum).type ≠ 0) (hle : (dinodeAt mkfsSb d' inum).size.toNat ≤ MAXFILE * BSIZE)
    (hblock : ∀ bn, bn < MAXFILE → (own mkfsSb d' (dinodeAt mkfsSb d') (inum, slotOf bn) ≠ 0 ↔
      bn * BSIZE < (dinodeAt mkfsSb d' inum).size.toNat))
    (hind : own mkfsSb d' (dinodeAt mkfsSb d') (inum, .indirect) ≠ 0 ↔
      NDIRECT * BSIZE < (dinodeAt mkfsSb d' inum).size.toNat) : Sound d' := by
  refine ⟨hcons, fun k hk ht => ?_, fun k hk ht bn hbn => ?_, fun k hk ht => ?_⟩
  · rcases eq_or_ne k inum with rfl | hne
    · exact hle
    · rw [hothers k hk hne] at ht ⊢
      exact h.size_le k hk ht
  · have hnew : own mkfsSb d' (dinodeAt mkfsSb d') (k, slotOf bn) = blockOf d' (dinodeAt mkfsSb d' k) bn :=
      own_of_live hk ht _
    rw [← hnew]
    rcases eq_or_ne k inum with rfl | hne
    · exact hblock bn hbn
    · rw [hothers k hk hne] at ht ⊢
      rw [hptrs k hk hne, own_of_live hk ht]
      exact h.block k hk ht bn hbn
  · have hnew : own mkfsSb d' (dinodeAt mkfsSb d') (k, .indirect) = (dinodeAt mkfsSb d' k).indirect.toNat :=
      own_indirect hk ht
    rw [← toNat_ne_zero, ← hnew]
    rcases eq_or_ne k inum with rfl | hne
    · exact hind
    · rw [hothers k hk hne] at ht ⊢
      rw [hptrs k hk hne, own_indirect hk ht, toNat_ne_zero]
      exact h.indirect k hk ht

/-- **`iappend` appends.** -/
theorem iappend_spec (h : Sound (image m)) (hf : Fresh m) (hi : inum < mkfsSb.ninodes)
    (ht : (dinodeAt mkfsSb (image m) inum).type ≠ 0) (p : Nat → UInt8)
    (hmax : (dinodeAt mkfsSb (image m) inum).size.toNat + n ≤ MAXFILE * BSIZE)
    (hroom : m.freeblock + blocksFor ((dinodeAt mkfsSb (image m) inum).size.toNat + n) ≤
      FSSIZE + blocksFor (dinodeAt mkfsSb (image m) inum).size.toNat) :
    ∃ m', iappend m inum p n = some m' ∧ Appended m m' inum p n := by
  let L := LogOps.Log.init 2 LOGSIZE
  have hinv := h.inv hi ht L
  have hr : 0 < ((work m inum (dinodeAt mkfsSb (image m) inum) L).icache 0).ref := show (0 : Int) < 1 by decide
  obtain ⟨din', m', L', hloop, hwrote, hf', htight, hfb, hkept⟩ :=
    iappendLoop_spec n p _ (h.working hi ht L) hf (h.tight hi ht L) hmax hroom
  generalize hz : (dinodeAt mkfsSb (image m) inum).size.toNat = z at *
  have hword : (UInt32.ofNat (z + n)).toNat = z + n := by
    refine UInt32.toNat_ofNat_of_lt' ?_
    simp only [MAXFILE, NDIRECT, NINDIRECT, BSIZE] at hmax
    show z + n < 2 ^ 32
    omega
  -- the inode with its new size, and then on disk
  have hsetwork := hwrote.work.setInode (v := ⟨ROOTDEV, inum, 1, true, true, { din' with size := UInt32.ofNat (z + n) }⟩)
    rfl rfl rfl
  rw [work_setInode] at hsetwork
  have hstored := Stored.put hsetwork.1.inum_lt hsetwork.1.cons
  have hput : St.put _ _ _ = work (putInode m' inum { din' with size := UInt32.ofNat (z + n) }) inum _ _ :=
    work_put m' inum { din' with size := UInt32.ofNat (z + n) } L' (iblock_image (m := m') hi).1 _
  generalize hm'' : putInode m' inum { din' with size := UInt32.ofNat (z + n) } = m'' at hput
  replace hstored : Stored mkfsSb (work m' inum { din' with size := UInt32.ofNat (z + n) } L')
      (work m'' inum { din' with size := UInt32.ofNat (z + n) } (L'.absorb (mkfsSb.iblock inum))) 0 := by
    rw [← hput]
    exact hstored
  have hwritten : Written mkfsSb (work m inum (dinodeAt mkfsSb (image m) inum) L)
      (work m'' inum { din' with size := UInt32.ofNat (z + n) } (L'.absorb (mkfsSb.iblock inum))) 0 p z n := by
    refine Written.of_stored (z := UInt32.ofNat (z + n)) hinv hr rfl (Nat.le_of_eq hz.symm) hmax hwrote ?_ ?_
    · rw [hword]
      show z + n = max (dinodeAt mkfsSb (image m) inum).size.toNat (z + n)
      rw [hz]
      omega
    · show Stored mkfsSb ((work m' inum din' L').setInode 0
        ⟨ROOTDEV, inum, 1, true, true, { din' with size := UInt32.ofNat (z + n) }⟩) _ 0
      rw [work_setInode]
      exact hstored
  have hself : dinodeAt mkfsSb (image m'') inum = { din' with size := UInt32.ofNat (z + n) } :=
    (hstored.inodes inum).trans (if_pos rfl)
  have hothers : ∀ k, k < mkfsSb.ninodes → k ≠ inum → dinodeAt mkfsSb (image m'') k = dinodeAt mkfsSb (image m) k := by
    intro k hk hne
    have h1 : dinodeAt mkfsSb (image m'') k = dinodeAt mkfsSb (image m') k := (hstored.inodes k).trans (table_ne hne)
    exact h1.trans (hwrote.inodes k hk)
  have htypes : (dinodeAt mkfsSb (image m'') inum).type = (dinodeAt mkfsSb (image m) inum).type :=
    hwritten.types inum hi
  have hown : ∀ l, own mkfsSb (image m'') (dinodeAt mkfsSb (image m'')) l = (work m' inum din' L').own mkfsSb 0 l :=
    fun l => (hstored.own l).trans (hsetwork.2 l)
  have hsizes : (dinodeAt mkfsSb (image m'') inum).size.toNat = z + n := by
    rw [hself]
    exact hword
  unfold iappend
  rw [rinode_eq hi]
  simp only [Option.bind_eq_bind, Option.bind_some]
  rw [hz, hloop]
  simp only [Option.bind_some]
  rw [winode_eq hi, hm'']
  refine ⟨_, rfl, ?_, ?_, ?_, ?_, hothers, htypes, fun k hk hlive => ?_⟩
  · refine h.of_own hi hstored.cons hothers (fun k hk hne sl => ?_) ?_ ?_ (fun bn hbn => ?_) ?_
    · rw [hown, own_others hwrote hne, St.own, hinv.table hr rfl]
      rfl
    · rw [htypes]
      exact ht
    · rw [hsizes]
      exact hmax
    · rw [hown, hsizes]
      exact htight.block bn hbn
    · rw [hown, hsizes]
      exact htight.indirect
  · rw [← hm'']
    exact hf'.putInode hi _
  · rw [← hm'']
    exact hkept.trans (Kept.putInode m' inum _)
  · rw [hz, ← hm'']
    exact hfb
  · refine (hwritten.contents k hk hlive).trans ?_
    show (if k = inum then (content (image m) (dinodeAt mkfsSb (image m) k)).take z ++ (List.range n).map p ++
      (content (image m) (dinodeAt mkfsSb (image m) k)).drop (z + n) else _) = _
    split
    · rename_i hk'
      have hlen : (content (image m) (dinodeAt mkfsSb (image m) k)).length = z := by
        rw [content, List.length_map, List.length_range, hk', hz]
      rw [List.take_of_length_le (Nat.le_of_eq hlen), List.drop_of_length_le (by omega), List.append_nil]
    · rfl

end Xv6.Mkfs
