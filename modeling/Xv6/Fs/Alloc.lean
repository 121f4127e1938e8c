/-
  The block allocator: what `log_write`, `balloc` and `bfree` do, once and for all.

  Every outcome is described, the stops included:

  * a `log_write` stops when the log has no room left (`LogStop`) and otherwise stores one block;
  * `balloc` stops when every bit is set, and otherwise takes a block that was FREE, in the data
    area, and leaves it zeroed (`Grab`);
  * `bfree` stops when the bit is clear, and otherwise clears it.

  `Logged s t k` bounds the log traffic: at most `k` entries were added on the way from `s` to `t`.
-/
import Mathlib
import Xv6.Fs.Inode

namespace Xv6.Fs

open ByteBuf Outcome Ownership

/-! ## `log_write` -/

/-- How many entries `log_write` accepts. -/
def St.logCap (s : St) : Nat := min LOGSIZE (s.log.size - 1)

/-- Between `s` and `t` at most `k` blocks were added to the log. -/
structure Logged (s t : St) (k : Nat) : Prop where
  size : t.log.size = s.log.size
  outstanding : t.log.outstanding = s.log.outstanding
  length : t.log.lh.length ≤ s.log.lh.length + k

theorem Logged.refl (s : St) : Logged s s 0 := ⟨rfl, rfl, Nat.le_refl _⟩

variable {k l : Nat}

theorem Logged.trans {s t u : St} (h : Logged s t k) (h' : Logged t u l) : Logged s u (k + l) where
  size := h'.size.trans h.size
  outstanding := h'.outstanding.trans h.outstanding
  length := by have h1 := h.length; have h2 := h'.length; omega

theorem Logged.mono {s t : St} (h : Logged s t k) (hkl : k ≤ l) : Logged s t l :=
  { h with length := by have := h.length; omega }

theorem Logged.logCap {s t : St} (h : Logged s t k) : t.logCap = s.logCap := by
  unfold St.logCap
  rw [h.size]

/-- Stopped in `log_write`, before its `k`-th call: the log is too small for `k` more entries, or no
    transaction is open. -/
def LogStop (s : St) (k : Nat) (e : Stop) : Prop :=
  (e = .log .tooBig ∧ s.logCap < s.log.lh.length + k) ∨
    (e = .log .outside ∧ s.log.outstanding < 1)

theorem LogStop.mono {s : St} {e : Stop} (h : LogStop s k e) (hkl : k ≤ l) : LogStop s l e := by
  rcases h with ⟨h1, h2⟩ | h
  · exact Or.inl ⟨h1, by omega⟩
  · exact Or.inr h

/-- A stop later on is a stop of the whole. -/
theorem LogStop.after {s t : St} {e : Stop} (h : LogStop t l e) (hst : Logged s t k) : LogStop s (k + l) e := by
  rcases h with ⟨h1, h2⟩ | ⟨h1, h2⟩
  · refine Or.inl ⟨h1, ?_⟩
    have := hst.length
    rw [hst.logCap] at h2
    omega
  · exact Or.inr ⟨h1, by rw [← hst.outstanding]; exact h2⟩

/-- With room for `k` entries inside a transaction, `log_write` does not stop. -/
theorem not_logStop {s : St} (hroom : s.log.lh.length + k ≤ s.logCap)
    (htx : 1 ≤ s.log.outstanding) (e : Stop) : ¬ LogStop s k e := by
  rintro (⟨-, h⟩ | ⟨-, h⟩) <;> omega

/-- The state after a `log_write` of block `b` with contents `x`. -/
def St.put (s : St) (b : Nat) (x : Block) : St :=
  { s with disk := updBlk s.disk b x, log := s.log.absorb b }

@[simp] theorem put_disk (s : St) (b : Nat) (x : Block) : (s.put b x).disk = updBlk s.disk b x := rfl
@[simp] theorem put_icache (s : St) (b : Nat) (x : Block) : (s.put b x).icache = s.icache := rfl

theorem logged_put (s : St) (b : Nat) (x : Block) : Logged s (s.put b x) 1 where
  size := rfl
  outstanding := rfl
  length := by
    show (s.log.absorb b).lh.length ≤ _
    rw [LogOps.Log.absorb_lh]
    split
    · omega
    · simp

@[simp] theorem setInode_disk (s : St) (ip : Fin NINODE) (v : Inode) : (s.setInode ip v).disk = s.disk := rfl

@[simp] theorem setInode_same (s : St) (ip : Fin NINODE) (v : Inode) : (s.setInode ip v).icache ip = v := if_pos rfl

variable {ip j : Fin NINODE}

theorem setInode_ne {s : St} {v : Inode} (h : j ≠ ip) : (s.setInode ip v).icache j = s.icache j := if_neg h

theorem logged_setInode (s : St) (ip : Fin NINODE) (v : Inode) : Logged s (s.setInode ip v) 0 :=
  ⟨rfl, rfl, Nat.le_refl _⟩

/-- The state after `ip->addrs[k] = a`. -/
def St.withAddr (s : St) (ip : Fin NINODE) (k : Fin (NDIRECT + 1)) (a : Nat) : St :=
  s.setInode ip { s.icache ip with di := { (s.icache ip).di with
    addrs := fun l => if l = k then UInt32.ofNat a else (s.icache ip).di.addrs l } }

theorem get_eq (s : St) : (get : M St) s = .ok (s, s) := rfl

theorem bread_eq (s : St) (b : Nat) : bread b s = .ok (s.disk b, s) := rfl

theorem inode_eq (s : St) (ip : Fin NINODE) : inode ip s = .ok (s.icache ip, s) := rfl

theorem setAddr_eq (s : St) (ip : Fin NINODE) (k : Fin (NDIRECT + 1)) (a : Nat) :
    setAddr ip k a s = .ok ((), s.withAddr ip k a) := rfl

@[simp] theorem withAddr_disk (s : St) (ip : Fin NINODE) (k : Fin (NDIRECT + 1)) (a : Nat) :
    (s.withAddr ip k a).disk = s.disk := rfl

theorem withAddr_same (s : St) (ip : Fin NINODE) (k : Fin (NDIRECT + 1)) (a : Nat) :
    (s.withAddr ip k a).icache ip = { s.icache ip with di := { (s.icache ip).di with
      addrs := fun l => if l = k then UInt32.ofNat a else (s.icache ip).di.addrs l } } :=
  setInode_same s ip _

theorem withAddr_ne {s : St} {k : Fin (NDIRECT + 1)} {a : Nat} (h : j ≠ ip) :
    (s.withAddr ip k a).icache j = s.icache j := setInode_ne h

theorem logWrite_spec (s : St) (b : Nat) (x : Block) :
    Meets (logWrite b x s) (fun _ t => t = s.put b x) (LogStop s 1) := by
  unfold logWrite
  split
  · rename_i hbig
    refine Or.inl ⟨rfl, ?_⟩
    simp only [LogOps.Log.tooBig, Bool.or_eq_true, decide_eq_true_eq] at hbig
    unfold St.logCap
    omega
  · split
    · rename_i hout
      exact Or.inr ⟨rfl, by simpa [LogOps.Log.outside] using hout⟩
    · exact rfl

/-! ## The search of `balloc` -/

section Bitmap

variable {sb : SuperFields} {bi : Nat}

theorem parts_mod (k : Nat) (hbi : bi < BPB) : (k * BPB + bi) % BPB = bi := by
  rw [Nat.mul_comm, Nat.mul_add_mod, Nat.mod_eq_of_lt hbi]

theorem bblock_parts (sb : SuperFields) (k : Nat) (hbi : bi < BPB) : sb.bblock (k * BPB + bi) = sb.bblock (k * BPB) := by
  rw [bblock_eq_iff, Nat.mul_comm, Nat.mul_add_div (by decide), Nat.div_eq_of_lt hbi,
    Nat.mul_div_cancel_left k (by decide : 0 < BPB), Nat.add_zero]

theorem bit_of_parts (sb : SuperFields) (d : Disk) (k : Nat) (hbi : bi < BPB) :
    bit sb d (k * BPB + bi) = testBit (d (sb.bblock (k * BPB))) bi := by
  unfold bit
  rw [parts_mod k hbi, bblock_parts sb k hbi]

variable {c : Nat} {d : Disk}

/-- A block that the search passes by has its bit set. -/
theorem bit_of_passed (hc : c < sb.size) (h : ¬ (decide (c / BPB * BPB + c % BPB < sb.size) &&
    !testBit (d (sb.bblock (c / BPB * BPB))) (c % BPB)) = true) : bit sb d c = true := by
  have hsplit := Nat.div_add_mod' c BPB
  rw [hsplit, decide_eq_true hc, Bool.true_and, Bool.not_eq_true', Bool.not_eq_false] at h
  rw [← hsplit, bit_of_parts sb d _ (Nat.mod_lt c (by decide))]
  exact h

/-- A bitmap block without a result is passed by as a whole. -/
theorem bit_of_none (hc : c < sb.size) (h : (((List.range BPB).find? fun bi =>
    decide (c / BPB * BPB + bi < sb.size) && !testBit (d (sb.bblock (c / BPB * BPB))) bi).map
      fun bi => (c / BPB * BPB, bi)) = none) : bit sb d c = true := by
  rw [Option.map_eq_none_iff, List.find?_eq_none] at h
  exact bit_of_passed hc (h (c % BPB) (List.mem_range.mpr (Nat.mod_lt c (by decide))))

/-- What the search finds: the first block below `sb.size` whose bit is clear. -/
theorem findFree_some {b : Nat} (h : findFree sb d = some (b, bi)) :
    b + bi < sb.size ∧ bit sb d (b + bi) = false ∧ sb.bblock b = sb.bblock (b + bi) ∧ bi = (b + bi) % BPB ∧
      ∀ c, c < b + bi → bit sb d c = true := by
  obtain ⟨l, k, l', hsplit, hk, hbefore⟩ := List.findSome?_eq_some_iff.mp h
  obtain ⟨bi', hfind, heq⟩ := Option.map_eq_some_iff.mp hk
  obtain ⟨rfl, rfl⟩ := Prod.mk.inj heq
  obtain ⟨htest, hmem, hfirst⟩ := List.find?_range_eq_some.mp hfind
  have hlt : bi' < BPB := List.mem_range.mp hmem
  simp only [Bool.and_eq_true, decide_eq_true_eq, Bool.not_eq_true'] at htest
  refine ⟨htest.1, ?_, (bblock_parts sb k hlt).symm, (parts_mod k hlt).symm, fun c hc => ?_⟩
  · rw [bit_of_parts sb d k hlt]
    exact htest.2
  · have hsize : c < sb.size := hc.trans htest.1
    have hck : c / BPB ≤ k := Nat.lt_succ_iff.mp (Nat.div_lt_of_lt_mul (by rw [Nat.mul_succ, Nat.mul_comm]; omega))
    rcases Nat.lt_or_eq_of_le hck with hearlier | rfl
    · -- a bitmap block before the one with the result
      refine bit_of_none hsize (hbefore _ ?_)
      have hsorted := List.pairwise_lt_range (n := (sb.size + BPB - 1) / BPB)
      have hrange : c / BPB ∈ List.range ((sb.size + BPB - 1) / BPB) := by
        rw [List.mem_range]
        simp only [BPB, BSIZE] at *
        omega
      rw [hsplit] at hsorted hrange
      rcases List.mem_append.mp hrange with hl | hl
      · exact hl
      · rcases List.mem_cons.mp hl with heq | hl
        · omega
        · have := List.rel_of_pairwise_cons (List.pairwise_append.mp hsorted).2.1 hl
          omega
    · -- the same block, an earlier bit
      have hparts := Nat.div_add_mod' c BPB
      refine bit_of_passed hsize fun hyes => ?_
      have := hfirst (c % BPB) (by omega)
      rw [hyes] at this
      cases this

/-- The search fails only when every bit is set. -/
theorem findFree_none (h : findFree sb d = none) (hc : c < sb.size) : bit sb d c = true := by
  refine bit_of_none hc (List.findSome?_eq_none_iff.mp h _ ?_)
  rw [List.mem_range]
  simp only [BPB, BSIZE] at *
  omega

/-! ## `balloc` and `bfree` -/

/-- The number of free blocks. -/
def St.free (sb : SuperFields) (s : St) : Nat := ((Finset.range sb.size).filter fun b => bit sb s.disk b = false).card

/-- `balloc` takes the first free block; it logs a bitmap block and the block it takes. -/
theorem balloc_puts (s : St) : Meets (balloc sb s)
    (fun b t => (b < sb.size ∧ bit sb s.disk b = false ∧ ∀ c, c < b → bit sb s.disk c = true) ∧
      t = (s.put (sb.bblock b) (setBit (s.disk (sb.bblock b)) (b % BPB))).put b zeroBlock)
    (fun e => (e = .outOfBlocks ∧ s.free sb = 0) ∨ LogStop s 1 e ∨ ∃ b x, LogStop (s.put b x) 1 e) := by
  rw [balloc, bind_of_ok (get_eq s)]
  cases hfound : findFree sb s.disk with
  | none =>
    refine Or.inl ⟨rfl, ?_⟩
    refine Finset.card_eq_zero.mpr (Finset.filter_eq_empty_iff.mpr fun b hb => ?_)
    rw [findFree_none hfound (Finset.mem_range.mp hb)]
    decide
  | some found =>
    obtain ⟨b, bi⟩ := found
    obtain ⟨hlt, hfree, hblk, hbi, hfirst⟩ := findFree_some hfound
    show Meets ((do
      let bp ← bread (sb.bblock b)
      logWrite (sb.bblock b) (setBit bp bi)
      bzero (b + bi)
      return b + bi : M Nat) s) _ _
    rw [bind_of_ok (bread_eq s _)]
    refine (logWrite_spec s _ _).bind (fun _ t ht => ?_) fun e he => Or.inr (Or.inl he)
    subst ht
    refine (logWrite_spec _ _ _).bind (fun _ u hu => ?_) fun e he => Or.inr (Or.inr ⟨_, _, he⟩)
    refine ⟨⟨hlt, hfree, hfirst⟩, ?_⟩
    rw [hu, hblk, ← hbi]

theorem balloc_stop {s : St} {e : Stop} (h : LogStop s 1 e ∨ ∃ b x, LogStop (s.put b x) 1 e) : LogStop s 2 e := by
  rcases h with he | ⟨b, x, he⟩
  · exact he.mono (by decide)
  · exact he.after (logged_put s b x)

/-- With a full log `balloc` panics, whatever is free. -/
theorem balloc_log_full {s : St} (hbig : s.log.tooBig = true) {b : Nat} (hb : b < sb.size)
    (hfree : bit sb s.disk b = false) : balloc sb s = .error (.log .tooBig) := by
  unfold balloc
  rw [bind_of_ok (get_eq s)]
  cases hfound : findFree sb s.disk with
  | none =>
    rw [findFree_none hfound hb] at hfree
    cases hfree
  | some found =>
    obtain ⟨c, ci⟩ := found
    have hlog : ∀ c x, logWrite c x s = .error (.log .tooBig) := fun c x => if_pos hbig
    show (bread (sb.bblock c) >>= fun bp => logWrite (sb.bblock c) (setBit bp ci) >>= fun _ =>
      bzero (c + ci) >>= fun _ => pure (c + ci) : M Nat) s = _
    rw [bind_of_ok (bread_eq s _), bind_of_error (hlog _ _)]

/-- `t` is `s` with the bit of block `b` cleared. -/
structure Release (sb : SuperFields) (s t : St) (b : Nat) : Prop where
  disk : t.disk = markFree sb s.disk b
  icache : t.icache = s.icache
  logged : Logged s t 1

theorem bfree_spec (s : St) (b : Nat) : Meets (bfree sb b s) (fun _ t => Release sb s t b)
      (fun e => (e = .freeingFree ∧ bit sb s.disk b = false) ∨ LogStop s 1 e) := by
  have hget : bfree sb b s = (do
      if testBit (s.disk (sb.bblock b)) (b % BPB) = false then
        throw .freeingFree
      logWrite (sb.bblock b) (clearBit (s.disk (sb.bblock b)) (b % BPB)) : M Unit) s := rfl
  rw [hget]
  split
  · rename_i hclear
    exact Or.inl ⟨rfl, hclear⟩
  · refine (logWrite_spec s _ _).mono (fun _ t ht => ?_) fun e he => Or.inr he
    refine ⟨by rw [ht]; rfl, by rw [ht]; rfl, ?_⟩
    rw [ht]
    exact logged_put s _ _

section Release

variable {s t : St} {b : Nat}

theorem Release.bit (h : Release sb s t b) (c : Nat) : bit sb t.disk c = (bit sb s.disk c && !decide (b = c)) := by
  rw [h.disk, bit_markFree]

theorem Release.other (h : Release sb s t b) (hc : sb.bblock b ≠ c) : t.disk c = s.disk c := by
  rw [h.disk, markFree, updBlk_ne (Ne.symm hc)]

end Release

/-! ## The bitmap as a whole -/

/-- There is a bit for block `c`, be it below `sb.size` or in the rest of the last bitmap block. -/
def SuperFields.Mapped (sb : SuperFields) (c : Nat) : Prop := c / BPB ≤ sb.size / BPB

theorem SuperFields.mapped_of_lt (h : c < sb.size) : sb.Mapped c := Nat.div_le_div_right (Nat.le_of_lt h)

theorem balloc_full {s : St} (h : ∀ c, c < sb.size → bit sb s.disk c = true) : balloc sb s = .error .outOfBlocks := by
  rw [balloc, bind_of_ok (get_eq s)]
  cases hfound : findFree sb s.disk with
  | none => rfl
  | some found =>
    obtain ⟨hlt, hfree, -⟩ := findFree_some hfound
    rw [h _ hlt] at hfree
    cases hfree

/-- **The bitmap allocator.**  `balloc` takes the first block that is free and zeroes it, and runs out of blocks if and
    only if none is free.  Where the bitmap marks its own blocks, `balloc` sets the bit of the block it takes and no
    other, and `bfree` of it undoes that; where it does not, `balloc` may take one of them, and what it zeroes is the
    bitmap. -/
theorem balloc_exact {s : St} :
    Meets (balloc sb s)
      (fun b t => (b < sb.size ∧ bit sb s.disk b = false ∧ ∀ c, c < b → bit sb s.disk c = true) ∧
        t.disk b = zeroBlock ∧
        ((∀ c, sb.Mapped c → bit sb s.disk (sb.bblock c) = true) →
          (∀ c, sb.Mapped c → bit sb t.disk c = (bit sb s.disk c || decide (b = c))) ∧
          Meets (bfree sb b t) (fun _ u => ∀ c, sb.Mapped c → bit sb u.disk c = bit sb s.disk c)
            (LogStop t 1)))
      (fun e => (e = .outOfBlocks ∧ ∀ c, c < sb.size → bit sb s.disk c = true) ∨ LogStop s 2 e) ∧
    ((∀ c, c < sb.size → bit sb s.disk c = true) → balloc sb s = .error .outOfBlocks) ∧
    ∀ b, bit sb s.disk b = true → Meets (bfree sb b s)
      (fun _ t => ∀ c, bit sb t.disk c = (bit sb s.disk c && !decide (b = c))) (LogStop s 1) := by
  have hfreed : ∀ (t : St) (b : Nat), bit sb t.disk b = true → Meets (bfree sb b t)
      (fun _ u => ∀ c, bit sb u.disk c = (bit sb t.disk c && !decide (b = c))) (LogStop t 1) := by
    intro t b hb
    refine (bfree_spec t b).mono (fun _ u hu => hu.bit) ?_
    rintro e (⟨-, hclear⟩ | he)
    · rw [hb] at hclear
      cases hclear
    · exact he
  refine ⟨(balloc_puts s).mono ?_ ?_, balloc_full, hfreed s⟩
  · rintro b t ⟨⟨hlt, hfree, hfirst⟩, ht⟩
    have hdisk : t.disk = updBlk (markUsed sb s.disk b) b zeroBlock := by rw [ht]; rfl
    refine ⟨⟨hlt, hfree, hfirst⟩, by rw [hdisk, updBlk_same], fun hown => ?_⟩
    have hbits : ∀ c, sb.Mapped c → bit sb t.disk c = (bit sb s.disk c || decide (b = c)) := by
      intro c hc
      -- the block that is zeroed is not a bitmap block
      have hne : sb.bblock c ≠ b := by
        rintro rfl
        rw [hown c hc] at hfree
        cases hfree
      rw [hdisk, bit_updBlk_ne hne, bit_markUsed]
    have hb := hbits b (sb.mapped_of_lt hlt)
    rw [decide_eq_true rfl, Bool.or_true] at hb
    refine ⟨hbits, (hfreed t b hb).mono (fun _ u hu c hc => ?_) fun _ he => he⟩
    rw [hu c, hbits c hc]
    by_cases hbc : b = c
    · rw [← hbc, hfree, decide_eq_true rfl]
      rfl
    · rw [decide_eq_false hbc, Bool.or_false, Bool.not_false, Bool.and_true]
  · rintro e (⟨rfl, hnone⟩ | he)
    · refine Or.inl ⟨rfl, fun c hc => ?_⟩
      have := Finset.filter_eq_empty_iff.mp (Finset.card_eq_zero.mp hnone) (Finset.mem_range.mpr hc)
      exact Bool.of_not_eq_false this
    · exact Or.inr (balloc_stop he)

/-- A disk of `mkfs` on which the first `k` blocks are marked, inside a transaction. -/
def markedBelow (k : Nat) : St where
  disk := (List.range k).foldl (markUsed mkfsSb) fun _ => zeroBlock
  log := { LogOps.Log.init 2 LOGSIZE with outstanding := 1 }
  icache := fun _ => ⟨0, 0, 0, false, false, Dinode.zero⟩

theorem bit_markedBelow (k c : Nat) : bit mkfsSb (markedBelow k).disk c = decide (c < k) := by
  rw [markedBelow, bit_markUsed_range, bit, testBit_zeroBlock, Bool.false_or]

theorem balloc_markedBelow {k : Nat} (hk : k < mkfsSb.size) : ∃ t, balloc mkfsSb (markedBelow k) = .ok (k, t) ∧
    t.disk = updBlk (markUsed mkfsSb (markedBelow k).disk k) k zeroBlock := by
  have hclear : bit mkfsSb (markedBelow k).disk k = false := by rw [bit_markedBelow, decide_eq_false (Nat.lt_irrefl k)]
  have hruns : ∀ e, ¬ ((e = .outOfBlocks ∧ (markedBelow k).free mkfsSb = 0) ∨ LogStop (markedBelow k) 1 e ∨
      ∃ b x, LogStop ((markedBelow k).put b x) 1 e) := by
    rintro e (⟨-, hall⟩ | he)
    · exact Finset.filter_eq_empty_iff.mp (Finset.card_eq_zero.mp hall) (Finset.mem_range.mpr hk) hclear
    · exact not_logStop (show 0 + 2 ≤ min LOGSIZE (LOGSIZE - 1) by decide) (le_refl 1) e (balloc_stop he)
  obtain ⟨b, t, hb, ⟨-, hfree, hfirst⟩, ht⟩ := (balloc_puts (markedBelow k)).returns hruns
  rw [bit_markedBelow, decide_eq_false_iff_not] at hfree
  have hle : ¬ k < b := fun h => absurd (hfirst k h) (by rw [hclear]; decide)
  obtain rfl : b = k := by omega
  exact ⟨t, hb, by rw [ht]; rfl⟩

/-- On a fresh disk the first free block is 59. -/
theorem balloc_exact_first : ∃ t, balloc mkfsSb (markedBelow 59) = .ok (59, t) ∧ bit mkfsSb t.disk 0 = true := by
  obtain ⟨t, ht, -⟩ := balloc_markedBelow (show 59 < mkfsSb.size by decide)
  have hexact := (balloc_exact.1.of_ok ht).2.2
  refine ⟨t, ht, ((hexact fun c hc => ?_).1 0 (mkfsSb.mapped_of_lt (by decide))).trans ?_⟩
  · have hc' : c / BPB ≤ 0 := hc
    rw [bit_markedBelow, SuperFields.bblock, Nat.le_zero.mp hc']
    rfl
  · rw [bit_markedBelow]
    rfl

/-- Where the bit of the bitmap block is clear, `balloc` takes that block, and no bit is left. -/
theorem balloc_takes_bitmap : ∃ t, balloc mkfsSb (markedBelow 58) = .ok (58, t) ∧
    bit mkfsSb (markedBelow 58).disk 0 = true ∧ bit mkfsSb t.disk 0 = false ∧ bit mkfsSb t.disk 58 = false := by
  obtain ⟨t, ht, hdisk⟩ := balloc_markedBelow (show 58 < mkfsSb.size by decide)
  have hblock : t.disk 58 = zeroBlock := by rw [hdisk, updBlk_same]
  have hlost : ∀ c, mkfsSb.bblock c = 58 → bit mkfsSb t.disk c = false := by
    intro c hc
    rw [bit, hc, hblock, testBit_zeroBlock]
  exact ⟨t, ht, bit_markedBelow 58 0, hlost 0 rfl, hlost 58 rfl⟩

end Bitmap

/-! ## The data area -/

variable {sb : Superblock} {c : Nat}

/-- `t` is `s` with the free data block `b` taken and zeroed. -/
structure Grab (sb : Superblock) (s t : St) (b : Nat) : Prop where
  data : sb.IsData b
  free : bit sb s.disk b = false
  disk : t.disk = updBlk (markUsed sb s.disk b) b zeroBlock
  icache : t.icache = s.icache
  logged : Logged s t 2

/-- With the metadata marked, a free block is in the data area. -/
theorem isData_of_free {s : St} {b : Nat} (hmeta : ∀ b, b < sb.nmeta → bit sb s.disk b = true) (hlt : b < sb.size)
    (hfree : bit sb s.disk b = false) : sb.IsData b := by
  refine ⟨?_, hlt⟩
  by_contra hnm
  rw [hmeta _ (Nat.lt_of_not_le hnm)] at hfree
  cases hfree

theorem balloc_spec {s : St} (hmeta : ∀ b, b < sb.nmeta → bit sb s.disk b = true) :
    Meets (balloc sb s) (fun b t => Grab sb s t b)
      (fun e => (e = .outOfBlocks ∧ s.free sb = 0) ∨ LogStop s 2 e) := by
  refine (balloc_puts s).mono ?_ ?_
  · rintro b t ⟨⟨hlt, hfree, -⟩, rfl⟩
    exact ⟨isData_of_free hmeta hlt hfree, hfree, rfl, rfl, (logged_put s _ _).trans (logged_put _ _ _)⟩
  · exact fun e he => he.imp id balloc_stop

section Grab

variable {s t : St} {b : Nat}

section

variable (h : Grab sb s t b)

include h

/-- The bits after a `balloc`. -/
theorem Grab.bit (hc : c < sb.size) : bit sb t.disk c = (bit sb s.disk c || decide (b = c)) := by
  rw [h.disk, bit_updBlk_ne (h.data.ne_bblock hc), bit_markUsed]

theorem Grab.zero : t.disk b = zeroBlock := by rw [h.disk, updBlk_same]

/-- Blocks other than the new one and the bitmap keep their contents. -/
theorem Grab.other (hcb : c ≠ b) (hc : sb.bblock b ≠ c) : t.disk c = s.disk c := by
  rw [h.disk, updBlk_ne hcb, markUsed, updBlk_ne (Ne.symm hc)]

theorem Grab.used (hd : sb.IsData c) (hc : Fs.bit sb s.disk c = true) : t.disk c = s.disk c := by
  refine h.other ?_ (hd.ne_bblock h.data.2)
  rintro rfl
  rw [h.free] at hc
  cases hc

theorem Grab.dinodeAt {i : Nat} (hi : i < sb.ninodes) : dinodeAt sb t.disk i = Fs.dinodeAt sb s.disk i := by
  unfold Fs.dinodeAt
  rw [h.other (h.data.ne_iblock hi) (Ne.symm (sb.iblock_ne_bblock hi b))]

theorem Grab.card : s.free sb = t.free sb + 1 := by
  have hb : b ∈ (Finset.range sb.size).filter fun c => Fs.bit sb s.disk c = false :=
    Finset.mem_filter.mpr ⟨Finset.mem_range.mpr h.data.2, h.free⟩
  have herase : ((Finset.range sb.size).filter fun c => Fs.bit sb t.disk c = false) =
      ((Finset.range sb.size).filter fun c => Fs.bit sb s.disk c = false).erase b := by
    ext c
    rw [Finset.mem_erase, Finset.mem_filter, Finset.mem_filter, Finset.mem_range]
    constructor
    · rintro ⟨hc, hbit⟩
      rw [h.bit hc, Bool.or_eq_false_iff, decide_eq_false_iff_not] at hbit
      exact ⟨Ne.symm hbit.2, hc, hbit.1⟩
    · rintro ⟨hne, hc, hbit⟩
      refine ⟨hc, ?_⟩
      rw [h.bit hc, hbit, decide_eq_false (Ne.symm hne)]
      rfl
  unfold St.free
  rw [herase, Finset.card_erase_of_mem hb]
  have hpos : 0 < ((Finset.range sb.size).filter fun c => Fs.bit sb s.disk c = false).card :=
    Finset.card_pos.mpr ⟨b, hb⟩
  omega

end

end Grab

theorem Release.dinodeAt {s t : St} {b i : Nat} (h : Release sb s t b) (hi : i < sb.ninodes) :
    dinodeAt sb t.disk i = Fs.dinodeAt sb s.disk i := by
  unfold Fs.dinodeAt
  rw [h.other (Ne.symm (sb.iblock_ne_bblock hi b))]

end Xv6.Fs
