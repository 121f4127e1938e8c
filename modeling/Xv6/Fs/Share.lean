/-
  ONE CHUNK OF `filewrite` FITS INTO ONE OPERATION'S SHARE OF THE LOG.

  `filewrite` writes at most `((MAXOPBLOCKS-1-1-2) / 2) * 512` bytes in one transaction, with the comment "i-node, indirect
  block, allocation blocks, and 2 blocks of slop for non-aligned writes".  Here is the count, with absorption: a block
  that `log_write` gets twice has one entry in the header.

  The indirect block is the one that rounds of the loop share: whichever of them logs it first, it has one entry.
  `Share s t k` therefore counts the entries made since `s` WITHOUT the one of the indirect block.  A round costs one
  entry for the data block, and one for a bitmap block for each block that is allocated (`round_share`); so the loop
  costs `touched + need`, to which indirect block and inode add two (`writei_share`).
-/
import Mathlib
import Xv6.Fs.Refine

namespace Xv6.Fs

open ByteBuf Outcome Ownership

variable {sb : Superblock} {s t u : St} {ip : Fin NINODE} {devsw : Nat → Devsw} {k l b : Nat}

/-! ## Entries of the header -/

/-- The header has got the entries `new` since `s`. -/
structure Entered (s t : St) (new : List Nat) : Prop where
  size : t.log.size = s.log.size
  outstanding : t.log.outstanding = s.log.outstanding
  lh : t.log.lh = s.log.lh ++ new
  nodup : new.Nodup
  fresh : ∀ b ∈ new, b ∉ s.log.lh

theorem Entered.refl (s : St) : Entered s s [] :=
  ⟨rfl, rfl, (List.append_nil _).symm, List.nodup_nil, fun _ hb => absurd hb List.not_mem_nil⟩

theorem Entered.trans {new new' : List Nat} (h : Entered s t new) (h' : Entered t u new') : Entered s u (new ++ new') where
  size := h'.size.trans h.size
  outstanding := h'.outstanding.trans h.outstanding
  lh := by rw [h'.lh, h.lh, List.append_assoc]
  nodup := by
    refine h.nodup.append h'.nodup ?_
    intro b hb hb'
    apply h'.fresh b hb'
    rw [h.lh]
    exact List.mem_append_right _ hb
  fresh := by
    intro b hb hs
    rcases List.mem_append.mp hb with hb | hb
    · exact h.fresh b hb hs
    · apply h'.fresh b hb
      rw [h.lh]
      exact List.mem_append_left _ hs

/-- A block that has an entry is absorbed; another gets one. -/
theorem entered_put (s : St) (b : Nat) (x : Block) : Entered s (s.put b x) (if b ∈ s.log.lh then [] else [b]) := by
  have hlh : (s.put b x).log.lh = if b ∈ s.log.lh then s.log.lh else s.log.lh ++ [b] := LogOps.Log.absorb_lh _ _
  by_cases hb : b ∈ s.log.lh
  · rw [if_pos hb] at hlh ⊢
    exact ⟨rfl, rfl, hlh.trans (List.append_nil _).symm, List.nodup_nil, fun _ hc => absurd hc List.not_mem_nil⟩
  · rw [if_neg hb] at hlh ⊢
    refine ⟨rfl, rfl, hlh, List.nodup_singleton b, ?_⟩
    intro c hc
    rw [List.mem_singleton.mp hc]
    exact hb

theorem mem_put (s : St) (b : Nat) (x : Block) : b ∈ (s.put b x).log.lh := by
  have hlh : (s.put b x).log.lh = if b ∈ s.log.lh then s.log.lh else s.log.lh ++ [b] := LogOps.Log.absorb_lh _ _
  rw [hlh]
  split
  · assumption
  · exact List.mem_append_right _ (List.mem_singleton_self b)

theorem mem_put_of_mem {c : Nat} (h : c ∈ s.log.lh) (b : Nat) (x : Block) : c ∈ (s.put b x).log.lh := by
  rw [(entered_put s b x).lh]
  exact List.mem_append_left _ h

/-! ## Shares -/

/-- The indirect block of the inode being worked on (0: none). -/
def St.ind (s : St) (ip : Fin NINODE) : Nat := (s.icache ip).di.indirect.toNat

/-- The entries that count when `c` is the indirect block. -/
def counted (c : Nat) (new : List Nat) : List Nat := new.filter fun b => c = 0 ∨ b ≠ c

theorem counted_append (c : Nat) (new new' : List Nat) : counted c (new ++ new') = counted c new ++ counted c new' :=
  List.filter_append new new'

theorem length_counted_le (c : Nat) (new : List Nat) : (counted c new).length ≤ new.length := List.length_filter_le _ _

/-- All entries but one. -/
theorem length_le_counted {c : Nat} {new : List Nat} (h : new.Nodup) : new.length ≤ (counted c new).length + 1 := by
  have hrest : (new.filter fun b => !decide (c = 0 ∨ b ≠ c)).length ≤ 1 := by
    have hsub : (new.filter fun b => !decide (c = 0 ∨ b ≠ c)) ⊆ [c] := by
      intro b hb
      have htest := (List.mem_filter.mp hb).2
      simp only [Bool.not_eq_true', decide_eq_false_iff_not, not_or, not_not] at htest
      exact List.mem_singleton.mpr htest.2
    exact (h.filter _).length_le_of_subset hsub
  have hsplit := List.length_eq_length_filter_add (l := new) fun b => decide (c = 0 ∨ b ≠ c)
  unfold counted
  omega

/-- Since `s` at most `k` entries were made, the indirect block's not counted. -/
structure Share (ip : Fin NINODE) (s t : St) (k : Nat) : Prop where
  keep : s.ind ip ≠ 0 → t.ind ip = s.ind ip
  entered : ∃ new, Entered s t new ∧ (counted (t.ind ip) new).length ≤ k

variable {e : Stop} {x : Block}

namespace Share

theorem refl (ip : Fin NINODE) (s : St) : Share ip s s 0 := ⟨fun _ => rfl, [], Entered.refl s, Nat.le_refl _⟩

theorem mono (h : Share ip s t k) (hkl : k ≤ l) : Share ip s t l := by
  obtain ⟨new, hnew, hlen⟩ := h.entered
  exact ⟨h.keep, new, hnew, hlen.trans hkl⟩

theorem trans (h : Share ip s t k) (h' : Share ip t u l) : Share ip s u (k + l) := by
  obtain ⟨new, hnew, hlen⟩ := h.entered
  obtain ⟨new', hnew', hlen'⟩ := h'.entered
  refine ⟨?_, new ++ new', hnew.trans hnew', ?_⟩
  · intro hs
    have ht := h.keep hs
    rw [← ht] at hs ⊢
    exact h'.keep hs
  · rw [counted_append, List.length_append]
    by_cases ht : t.ind ip = 0
    · -- whatever becomes the indirect block, all entries counted so far
      have hall : counted (t.ind ip) new = new := by
        apply List.filter_eq_self.mpr
        intro b hb
        simp [ht]
      rw [hall] at hlen
      have hle := length_counted_le (u.ind ip) new
      omega
    · rw [h'.keep ht] at hlen' ⊢
      omega

/-- The header has grown by `k + 1` at most. -/
theorem length_le (h : Share ip s t k) : t.log.lh.length ≤ s.log.lh.length + (k + 1) := by
  obtain ⟨new, hnew, hlen⟩ := h.entered
  have hle := length_le_counted (c := t.ind ip) hnew.nodup
  rw [hnew.lh, List.length_append]
  omega

/-- A `log_write` that stops. -/
theorem stop (h : Share ip s t k) (he : LogStop t 1 e) : LogStop s (k + 2) e := by
  obtain ⟨new, hnew, -⟩ := h.entered
  rcases he with ⟨rfl, hcap⟩ | ⟨rfl, hout⟩
  · refine .inl ⟨rfl, ?_⟩
    have hlen := h.length_le
    have hsame : t.logCap = s.logCap := by rw [St.logCap, St.logCap, hnew.size]
    omega
  · refine .inr ⟨rfl, ?_⟩
    rw [← hnew.outstanding]
    exact hout

/-- A new entry. -/
theorem put (ip : Fin NINODE) (s : St) (b : Nat) (x : Block) : Share ip s (s.put b x) 1 := by
  refine ⟨fun _ => rfl, _, entered_put s b x, (length_counted_le _ _).trans ?_⟩
  split
  · exact Nat.zero_le _
  · exact Nat.le_refl _

/-- An entry that is there already. -/
theorem put_again (ip : Fin NINODE) (hb : b ∈ s.log.lh) : Share ip s (s.put b x) 0 := by
  have hput := entered_put s b x
  rw [if_pos hb] at hput
  exact ⟨fun _ => rfl, [], hput, Nat.le_refl _⟩

/-- The indirect block is not counted. -/
theorem put_indirect (s : St) (x : Block) (hne : s.ind ip ≠ 0) : Share ip s (s.put (s.ind ip) x) 0 := by
  refine ⟨fun _ => rfl, _, entered_put s _ x, ?_⟩
  show (counted (s.ind ip) _).length ≤ 0
  split
  · exact Nat.le_refl _
  · simp [counted, hne]

/-- The inode's pointers change, but not the one to the indirect block. -/
theorem setInode (s : St) {v : Inode} (hv : v.di.indirect = (s.icache ip).di.indirect) : Share ip s (s.setInode ip v) 0 := by
  refine ⟨fun _ => ?_, [], ⟨rfl, rfl, (List.append_nil _).symm, List.nodup_nil, fun _ hb => absurd hb List.not_mem_nil⟩,
    Nat.le_refl _⟩
  rw [St.ind, St.ind, setInode_same, hv]

theorem withAddr (s : St) {i : Fin (NDIRECT + 1)} (hi : i ≠ Fin.last NDIRECT) (a : Nat) : Share ip s (s.withAddr ip i a) 0 :=
  setInode s (if_neg hi.symm)

/-- A block becomes the indirect block: its entry is not counted any more. -/
theorem put_withAddr (hzero : s.ind ip = 0) (hne : b ≠ 0) (hb : b < 2 ^ 32) :
    Share ip s ((s.put b x).withAddr ip (Fin.last NDIRECT) b) 0 := by
  have hind : ((s.put b x).withAddr ip (Fin.last NDIRECT) b).ind ip = b := by
    rw [St.ind, withAddr_same]
    simp only [Dinode.indirect, if_true]
    exact UInt32.toNat_ofNat_of_lt' hb
  have hput := entered_put s b x
  refine ⟨fun hne => absurd hzero hne, _, ⟨hput.size, hput.outstanding, hput.lh, hput.nodup, hput.fresh⟩, ?_⟩
  rw [hind]
  split
  · exact Nat.le_refl _
  · simp [counted, hne]

end Share

/-- Stopped in a `log_write`, when no more than `k` entries had been made. -/
def ShareStop (ip : Fin NINODE) (s : St) (k : Nat) (e : Stop) : Prop := ∃ t l, l ≤ k ∧ Share ip s t l ∧ LogStop t 1 e

theorem ShareStop.mono (h : ShareStop ip s k e) (hkl : k ≤ l) : ShareStop ip s l e := by
  obtain ⟨t, j, hj, hshare, he⟩ := h
  exact ⟨t, j, hj.trans hkl, hshare, he⟩

theorem ShareStop.after (h : ShareStop ip t l e) (hst : Share ip s t k) : ShareStop ip s (k + l) e := by
  obtain ⟨u, j, hj, hshare, he⟩ := h
  exact ⟨u, k + j, Nat.add_le_add_left hj k, hst.trans hshare, he⟩

theorem ShareStop.logStop (h : ShareStop ip s k e) : LogStop s (k + 2) e := by
  obtain ⟨t, j, hj, hshare, he⟩ := h
  exact (hshare.stop he).mono (Nat.add_le_add_right hj 2)

/-- One `log_write` after others. -/
theorem logWrite_share (hst : Share ip s t k) (b : Nat) (x : Block) :
    Meets (logWrite b x t) (fun _ u => u = t.put b x) (ShareStop ip s k) :=
  (logWrite_spec t b x).mono (fun _ _ hu => hu) fun _ he => ⟨t, k, Nat.le_refl k, hst, he⟩

/-! ## `balloc` and `bmap` -/

/-- The entries of a block that is taken: one for the bitmap, one for the block. -/
theorem share_taken (ip : Fin NINODE) (s : St) (b : Nat) :
    Share ip s ((s.put (sb.bblock b) x).put b zeroBlock) 2 := (Share.put ip s _ _).trans (Share.put ip _ _ _)

theorem balloc_share (ip : Fin NINODE) (hmeta : ∀ b, b < sb.nmeta → bit sb s.disk b = true) : Meets (balloc sb s)
    (fun b t => sb.IsData b ∧ ∃ x, t = (s.put (sb.bblock b) x).put b zeroBlock)
    (fun e => e = .outOfBlocks ∨ ShareStop ip s 1 e) := by
  refine (balloc_puts s).mono ?_ ?_
  · rintro b t ⟨⟨hlt, hfree, -⟩, rfl⟩
    exact ⟨isData_of_free hmeta hlt hfree, _, rfl⟩
  · rintro e (⟨he, -⟩ | he | ⟨b, x, he⟩)
    · exact .inl he
    · exact .inr ⟨s, 0, Nat.zero_le 1, Share.refl ip s, he⟩
    · exact .inr ⟨_, 1, Nat.le_refl 1, Share.put ip s b x, he⟩

theorem bmapIndirect_share (hw : Working sb s ip) : Meets (bmapIndirect sb ip s)
    (fun a t => t.ind ip = a ∧ a ≠ 0 ∧ Share ip s t (if s.own sb ip (s.key ip .indirect) = 0 then 1 else 0))
    (fun e => e = .outOfBlocks ∨ s.own sb ip (s.key ip .indirect) = 0 ∧ ShareStop ip s 1 e) := by
  have hkey : s.own sb ip (s.key ip .indirect) = s.ind ip := hw.own_key _
  unfold bmapIndirect
  rw [bind_of_ok (inode_eq s ip), hkey]
  by_cases hi : (s.icache ip).di.indirect = 0
  · have hzero : s.ind ip = 0 := by rw [St.ind, hi]; rfl
    rw [if_pos hi, if_pos hzero]
    refine (balloc_share ip hw.cons.metadata).bind ?_ fun e he => he.imp id fun h => ⟨hzero, h⟩
    rintro b t ⟨hdata, x, rfl⟩
    rw [bind_of_ok (setAddr_eq _ ip _ b)]
    have hput : Share ip s (((s.put (sb.bblock b) x).put b zeroBlock).withAddr ip (Fin.last NDIRECT) b) (1 + 0) :=
      (Share.put ip s (sb.bblock b) x).trans (Share.put_withAddr hzero hdata.pos hdata.lt_word)
    refine ⟨?_, hdata.pos, hput⟩
    rw [St.ind, withAddr_same]
    simp only [Dinode.indirect, if_true]
    exact UInt32.toNat_ofNat_of_lt' hdata.lt_word
  · have hne : s.ind ip ≠ 0 := toNat_ne_zero.mpr hi
    rw [if_neg hi, if_neg hne]
    exact ⟨rfl, hne, Share.refl ip s⟩

/-- **`bmap` of a block that is not mapped**: one entry for each bitmap block, and one for the new block. -/
theorem bmap_share (hw : Working sb s ip) {bn : Nat} (hbn : bn < MAXFILE) (hm : s.own sb ip (s.key ip (slotOf bn)) = 0) :
    Meets (bmap sb ip bn s) (fun a t => Share ip s t (s.need1 sb ip bn + 1) ∧ a ∈ t.log.lh)
      (fun e => e = .outOfBlocks ∨ ShareStop ip s (s.need1 sb ip bn + 1) e) := by
  unfold bmap
  by_cases h : bn < NDIRECT
  · rw [dif_pos h, bind_of_ok (inode_eq s ip), if_pos (hw.addr_zero h hm), need1_direct h hm]
    refine (balloc_share ip hw.cons.metadata).bind ?_ fun e he => he.imp id fun h => h.mono (by decide)
    rintro b t ⟨-, x, rfl⟩
    rw [bind_of_ok (setAddr_eq _ ip _ b)]
    have hlog : b ∈ ((s.put (sb.bblock b) x).put b zeroBlock).log.lh := mem_put _ _ _
    refine ⟨(share_taken ip s b).trans (Share.withAddr _ ?_ b), hlog⟩
    intro hlast
    have hval := congrArg Fin.val hlast
    simp only [Fin.val_last] at hval
    omega
  · have hlt : bn - NDIRECT < NINDIRECT := by
      simp only [MAXFILE] at hbn
      omega
    have hneed := need1_indirect h hm
    rw [slotOf_indirect h] at hm
    rw [dif_neg h, if_pos hlt]
    refine ((bmapIndirect_spec hw).and (bmapIndirect_share hw)).bind ?_ ?_
    · rintro a t ⟨⟨hgrown, -, hown, -, -⟩, rfl, hne, hshare⟩
      have hword : word (t.disk (t.ind ip)) (bn - NDIRECT) = 0 := by
        apply hgrown.work.word_zero hne
        rw [hgrown.key, hown, if_neg nofun, hm]
      rw [bind_of_ok (bread_eq t _), if_pos hword]
      have hall : ∀ {u j}, Share ip t u j → j ≤ 2 → Share ip s u (s.need1 sb ip bn + 1) := by
        intro u j hu hj
        refine (hshare.trans hu).mono ?_
        rw [hneed]
        omega
      refine (balloc_share ip hgrown.work.cons.metadata).bind ?_ ?_
      · rintro b u ⟨-, x, rfl⟩
        have hu : Share ip t ((t.put (sb.bblock b) x).put b zeroBlock) 2 := share_taken ip t b
        refine (logWrite_share (hall hu (Nat.le_refl 2)) _ _).bind ?_ fun e he => .inr he
        rintro - v rfl
        constructor
        · exact hall (hu.trans (Share.put_indirect _ _ hne)) (Nat.le_refl 2)
        · exact mem_put_of_mem (mem_put _ _ _) _ _
      · rintro e (he | he)
        · exact .inl he
        · refine .inr ((he.after hshare).mono ?_)
          rw [hneed]
          omega
    · rintro e ⟨-, he | ⟨hzero, he⟩⟩
      · exact .inl he
      · refine .inr (he.mono ?_)
        rw [hneed]
        omega

/-! ## The loop of `writei` -/

/-- **One round**: one entry for the data block, and one for the bitmap for each block allocated. -/
theorem round_share (hw : Working sb s ip) {bn : Nat} (hbn : bn < MAXFILE) : Meets (bmap sb ip bn s)
    (fun a t => Share ip s t (s.need1 sb ip bn + 1) ∧ ∀ x, Share ip s (t.put a x) (s.need1 sb ip bn + 1))
    (fun e => e = .outOfBlocks ∨ ShareStop ip s (s.need1 sb ip bn + 1) e) := by
  by_cases hm : s.own sb ip (s.key ip (slotOf bn)) = 0
  · refine (bmap_share hw hbn hm).mono ?_ fun _ he => he
    rintro a t ⟨hshare, hlog⟩
    exact ⟨hshare, fun x => hshare.trans (Share.put_again ip hlog)⟩
  · rw [bmap_mapped hw hbn hm]
    constructor
    · exact (Share.refl ip s).mono (Nat.zero_le _)
    · intro x
      exact (Share.put ip s _ x).mono (Nat.le_add_left 1 _)

/-- What the loop costs. -/
def St.cost (sb : Superblock) (s : St) (ip : Fin NINODE) (off n : Nat) : Nat :=
  (touched off n).card + s.need sb ip (touched off n)

theorem writeLoop_share : ∀ (n : Nat) {s : St} (src : Nat → UInt8) (off : Nat), Working sb s ip →
    off + n ≤ MAXFILE * BSIZE → Meets (writeLoop sb ip src off n s) (fun _ t => Share ip s t (s.cost sb ip off n))
      (fun e => e = .outOfBlocks ∨ ShareStop ip s (s.cost sb ip off n) e) := by
  intro n
  induction n using Nat.strongRecOn with
  | _ n ih =>
  intro s src off hw hmax
  rw [writeLoop]
  by_cases hn : n = 0
  · rw [dif_pos hn]
    exact (Share.refl ip s).mono (Nat.zero_le _)
  · rw [dif_neg hn]
    obtain ⟨htouched, hfirst⟩ := touched_step off hn
    have hpos := chunk_pos off hn
    have hle := chunk_le off n
    have hbn := div_lt_maxfile hn hmax
    have hcard := card_touched off hn
    have hround : s.need1 sb ip (off / BSIZE) + 1 ≤ s.cost sb ip off n := by
      have hmem : off / BSIZE ∈ touched off n := by rw [htouched]; exact Finset.mem_insert_self _ _
      have hneed : s.need1 sb ip (off / BSIZE) ≤ s.need sb ip (touched off n) := need1_le_need hmem
      unfold St.cost
      omega
    refine ((bmap_spec hw hbn).and (round_share hw hbn)).bind ?_ ?_
    · rintro a t ⟨hmap, hshare, hput⟩
      rw [bind_of_ok (bread_eq t a)]
      refine (logWrite_share hshare _ _).bind ?_ fun e he => .inr (he.mono hround)
      intro _ u hu
      obtain ⟨hsu, hown, -, -⟩ := Wrote.cons (v := u) hn hmap hu
      have hneed := need_step hfirst hmap hown hsu.key
      rw [← htouched] at hneed
      have hcost : s.need1 sb ip (off / BSIZE) + 1 + u.cost sb ip (off + chunk off n) (n - chunk off n) ≤
          s.cost sb ip off n := by
        unfold St.cost
        omega
      have hround' : Share ip s u (s.need1 sb ip (off / BSIZE) + 1) := by
        rw [hu]
        exact hput _
      refine (ih (n - chunk off n) (by omega) _ _ hsu.work (by omega)).mono ?_ ?_
      · intro _ v hv
        exact (hround'.trans hv).mono hcost
      · rintro e (he | he)
        · exact .inl he
        · exact .inr ((he.after hround').mono hcost)
    · rintro e ⟨-, he | he⟩
      · exact .inl he
      · exact .inr (he.mono hround)

/-! ## The budget -/

/-- What `filewrite` passes to `writei` at most. -/
def maxChunk : Nat := (MAXOPBLOCKS - 1 - 1 - 2) / 2 * 512

/-- **The count.**  A request of four blocks starts inside a block, and that one is mapped. -/
theorem cost_le (hw : Working sb s ip) (hfree : HoleFree s.disk (s.icache ip).di) {off n : Nat}
    (hoff : off ≤ (s.icache ip).di.size.toNat) (hn : n ≤ maxChunk) : s.cost sb ip off n + 2 ≤ MAXOPBLOCKS := by
  have hsize : BSIZE = 512 := rfl
  have hmax : maxChunk = 1536 := rfl
  have hops : MAXOPBLOCKS = 10 := rfl
  have hcard : (touched off n).card = (if n = 0 then off / BSIZE else (off + n - 1) / BSIZE + 1) - off / BSIZE :=
    Nat.card_Ico _ _
  have hunmapped : (touched off n).filter (fun bn => s.own sb ip (s.key ip (slotOf bn)) = 0) ⊆
      if off % BSIZE = 0 then touched off n else (touched off n).erase (off / BSIZE) := by
    intro bn hbn
    obtain ⟨hmem, hzero⟩ := Finset.mem_filter.mp hbn
    split
    · exact hmem
    · rename_i hmod
      refine Finset.mem_erase.mpr ⟨?_, hmem⟩
      rintro rfl
      rw [hw.own_key] at hzero
      refine hfree.mapped (off / BSIZE) ?_ hzero
      simp only [hsize] at *
      omega
  have hle := Finset.card_le_card hunmapped
  have hneed : s.need sb ip (touched off n) ≤
      ((touched off n).filter fun bn => s.own sb ip (s.key ip (slotOf bn)) = 0).card + 1 := by
    unfold St.need
    split <;> omega
  unfold St.cost
  rw [hmax] at hn
  rw [hsize] at hcard hle
  by_cases hmod : off % 512 = 0
  · rw [if_pos hmod] at hle
    split at hcard <;> omega
  · rw [if_neg hmod] at hle
    by_cases hzero : n = 0
    · have hempty : (touched off n).card = 0 := by rw [hcard, if_pos hzero, Nat.sub_self]
      have herase := Finset.card_erase_le (s := touched off n) (a := off / 512)
      omega
    · rw [if_neg hzero] at hcard
      have hmem : off / 512 ∈ touched off n := by
        rw [← hsize, mem_touched]
        simp only [hsize]
        omega
      rw [Finset.card_erase_of_mem hmem] at hle
      omega

/-- **One chunk fits into one operation's share of the log.**  Whatever the superblock, the offset in a file without
    holes and the bytes: the header gets at most `MAXOPBLOCKS` entries, all different and none of them there before; so
    from an empty header, these are the blocks passed to `log_write`.  And with room for so many entries no `log_write`
    stops for want of room, in no outcome of `writei`. -/
theorem writei_share (src : Nat → UInt8) (off n : UInt32) (hw : Working sb s ip)
    (hfree : HoleFree s.disk (s.icache ip).di) (hoff : off ≤ (s.icache ip).di.size) (hn : n.toNat ≤ maxChunk) :
    Meets (writei sb devsw ip src off n s)
      (fun _ t => ∃ new, t.log.lh = s.log.lh ++ new ∧ new.Nodup ∧ (∀ b ∈ new, b ∉ s.log.lh) ∧ new.length ≤ MAXOPBLOCKS)
      (fun e => e = .outOfBlocks ∨ LogStop s MAXOPBLOCKS e) := by
  have hcost := cost_le hw hfree (UInt32.le_iff_toNat_le.mp hoff) hn
  have hsame : ∃ new, s.log.lh = s.log.lh ++ new ∧ new.Nodup ∧ (∀ b ∈ new, b ∉ s.log.lh) ∧ new.length ≤ MAXOPBLOCKS :=
    ⟨[], (List.append_nil _).symm, List.nodup_nil, fun _ hb => absurd hb List.not_mem_nil, Nat.zero_le _⟩
  have hentries : ∀ {t k}, Share ip s t k → k + 1 ≤ MAXOPBLOCKS → ∃ new, t.log.lh = s.log.lh ++ new ∧ new.Nodup ∧
      (∀ b ∈ new, b ∉ s.log.lh) ∧ new.length ≤ MAXOPBLOCKS := by
    intro t k hshare hk
    obtain ⟨new, hnew, hlen⟩ := hshare.entered
    have hle := length_le_counted (c := t.ind ip) hnew.nodup
    exact ⟨new, hnew.lh, hnew.nodup, hnew.fresh, by omega⟩
  unfold writei
  rw [bind_of_ok (inode_eq s ip)]
  split
  · dsimp only
    generalize (if cShort (s.icache ip).di.major.toNat < 0 ∨ (NDEV : Int) ≤ cShort (s.icache ip).di.major.toNat then none
      else (devsw (cShort (s.icache ip).di.major.toNat).toNat).write) = write
    cases write with
    | none => exact hsame
    | some f => exact hsame
  split
  · exact hsame
  rename_i hwrap
  split
  · exact hsame
  rename_i hmax
  rw [toNat_add_of_not_wrap (not_or.mp hwrap).2] at hmax
  refine (writeLoop_share n.toNat src off.toNat hw (Nat.le_of_not_lt hmax)).bind ?_ ?_
  · intro _ t ht
    rw [bind_of_ok (inode_eq t ip)]
    split
    · rw [bind_of_ok (show modifyInode ip _ t = .ok ((), _) from rfl)]
      have hsize : Share ip t (t.setInode ip { t.icache ip with di := { (t.icache ip).di with size := off + n } }) 0 := by
        apply Share.setInode
        rfl
      have hset := ht.trans hsize
      have hupdate : Meets (iupdate sb ip
          (t.setInode ip { t.icache ip with di := { (t.icache ip).di with size := off + n } }))
          (fun _ u => Share ip s u (s.cost sb ip off.toNat n.toNat + 1))
          (ShareStop ip s (s.cost sb ip off.toNat n.toNat)) := by
        unfold iupdate
        rw [bind_of_ok (inode_eq _ ip), bind_of_ok (bread_eq _ _)]
        refine (logWrite_share hset _ _).mono ?_ fun _ he => he
        rintro - u rfl
        exact hset.trans (Share.put ip _ _ _)
      refine hupdate.bind ?_ fun e he => .inr (he.logStop.mono hcost)
      intro _ u hu
      exact hentries hu (by omega)
    · exact hentries ht (by omega)
  · rintro e (he | he)
    · exact .inl he
    · exact .inr (he.logStop.mono hcost)

/-- A whole chunk, written to an empty file with an empty log. -/
theorem writei_share_empty : Meets (writei mkfsSb (fun _ => ⟨none, none⟩) 0 hello 0 1536 (smallFs []))
    (fun _ t => t.log.lh.Nodup ∧ t.log.lh.length ≤ MAXOPBLOCKS) (fun e => e = .outOfBlocks) := by
  have hw : Working mkfsSb (smallFs []) 0 := (inv_smallFs []).working (by decide) rfl
  have hfree : HoleFree (smallFs []).disk ((smallFs []).icache 0).di :=
    ⟨Nat.zero_le _, fun bn hbn => absurd hbn (Nat.not_lt_zero _)⟩
  refine (writei_share hello 0 1536 hw hfree (by decide) (by decide)).mono ?_ ?_
  · rintro - t ⟨new, hlh, hnodup, -, hlen⟩
    rw [hlh]
    exact ⟨hnodup, hlen⟩
  · rintro e (he | he)
    · exact he
    · exact absurd he (not_logStop (by decide) (by decide) e)

end Xv6.Fs
