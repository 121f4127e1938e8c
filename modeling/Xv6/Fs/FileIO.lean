/-
  `readi` and `writei`: an inode is an array of bytes.

  1. **The byte view** — `fileByte d di i` is byte `i` of a file, read through its block pointers
     (`0` where no block is mapped); `content` is the first `size` of them.
  2. **The loops** — the byte range is cut at block boundaries (`chunk`); one round of `writei` maps
     one block and overwrites one run of bytes in it.  `writeLoop_spec` says what all rounds together
     do: the bytes of `[off, off + n)` of THIS file, and nothing else.
  3. **The functions** — `readi_content` and `writei_content`.
-/
import Mathlib
import Xv6.Fs.Bmap

namespace Xv6.Fs

open ByteBuf Outcome Ownership

/-! ## The bytes of a file -/

/-- Byte `i` of a file. -/
def fileByte (d : Disk) (di : Dinode) (i : Nat) : UInt8 :=
  if blockOf d di (i / BSIZE) = 0 then 0 else ByteBuf.get (d (blockOf d di (i / BSIZE))) (i % BSIZE)

/-- The content of a file: its first `size` bytes. -/
def content (d : Disk) (di : Dinode) : List UInt8 := (List.range di.size.toNat).map (fileByte d di)

/-- The file has a block for every byte below its size. -/
structure HoleFree (d : Disk) (di : Dinode) : Prop where
  size_le : di.size.toNat ≤ MAXFILE * BSIZE
  mapped : ∀ bn, bn * BSIZE < di.size.toNat → blockOf d di bn ≠ 0

section Bytes

variable (sb : Superblock) (s : St) (ip : Fin NINODE)

/-- Byte `i` of file `n`, while the inode in slot `ip` is being worked on. -/
def St.byte (n i : Nat) : UInt8 :=
  if s.own sb ip (n, slotOf (i / BSIZE)) = 0 then 0
  else ByteBuf.get (s.disk (s.own sb ip (n, slotOf (i / BSIZE)))) (i % BSIZE)

end Bytes

variable {sb : Superblock} {s t u : St} {ip : Fin NINODE}

theorem byte_eq {n : Nat} (hn : n < sb.ninodes) (hl : (s.table sb ip n).type ≠ 0) (i : Nat) :
    s.byte sb ip n i = fileByte s.disk (s.table sb ip n) i := by
  unfold St.byte fileByte blockOf
  rw [St.own, own_of_live hn hl]

/-- Filling empty slots with zeroed blocks changes no byte. -/
theorem Grown.byte (h : Grown sb s t ip) (n i : Nat) : t.byte sb ip n i = s.byte sb ip n i := by
  have hslot := slotOf_ne_indirect (i / BSIZE)
  unfold St.byte
  by_cases h0 : s.own sb ip (n, slotOf (i / BSIZE)) = 0
  · rw [if_pos h0]
    split
    · rfl
    · rename_i h1
      rw [h.zeroed _ hslot h0 h1, get_zeroBlock]
  · rw [if_neg h0, h.keep _ h0, if_neg h0, h.contents _ hslot h0]

/-! ## Overwriting a data block -/

/-- Overwriting a block held in a data slot changes no pointer, no inode and no bit. -/
theorem Frame.put_data (hw : Working sb s ip) {k : Nat × Slot} (hk : s.own sb ip k ≠ 0)
    (hi : k.2 ≠ Slot.indirect) (x : Block) : Frame sb s (s.put (s.own sb ip k) x) ip ∧
      (∀ l, (s.put (s.own sb ip k) x).own sb ip l = s.own sb ip l) ∧
      (s.put (s.own sb ip k) x).free sb = s.free sb := by
  obtain ⟨hdata, hbit⟩ := hw.held hk
  have hinodes : ∀ n, n < sb.ninodes →
      dinodeAt sb (updBlk s.disk (s.own sb ip k) x) n = dinodeAt sb s.disk n :=
    fun n hn => dinodeAt_updBlk_ne (hdata.ne_iblock hn)
  have htable : ∀ n, n < sb.ninodes → (s.put (s.own sb ip k) x).table sb ip n = s.table sb ip n := by
    intro n hn
    unfold St.table
    rw [put_icache, put_disk, hinodes n hn]
  have hown : ∀ l, (s.put (s.own sb ip k) x).own sb ip l = s.own sb ip l := by
    intro l
    have hsame : Fs.own sb (updBlk s.disk (s.own sb ip k) x) (s.table sb ip) l =
        s.own sb ip l := by
      refine own_congr (fun n hn ht h0 => updBlk_ne fun e => hi ?_) l
      have hne : Fs.own sb s.disk (s.table sb ip) (n, Slot.indirect) ≠ 0 := by
        rw [own_indirect hn ht]
        exact toNat_ne_zero.mpr h0
      rw [← own_indirect (d := s.disk) hn ht] at e
      rw [← hw.cons.excl.inj _ _ hne e]
    rw [← hsame, St.own, put_disk]
    unfold Fs.own
    by_cases hlt : l.1 < sb.ninodes
    · rw [htable l.1 hlt]
    · rw [if_neg (fun h => hlt h.1), if_neg (fun h => hlt h.1)]
  have hbits : ∀ c, c < sb.size → bit sb (updBlk s.disk (s.own sb ip k) x) c = bit sb s.disk c :=
    fun c hc => bit_updBlk_ne (hdata.ne_bblock hc)
  have hcons : Consistent sb (s.put (s.own sb ip k) x).disk ((s.put (s.own sb ip k) x).table sb ip) := by
    refine ⟨hw.cons.excl.congr hown fun b hb => ?_, fun b hb => ?_⟩
    · show bit sb (updBlk s.disk (s.own sb ip k) x) b = true ↔ _
      rw [hbits b hb.2]
    · show bit sb (updBlk s.disk (s.own sb ip k) x) b = true
      have h1 := hdata.1
      have h2 := hdata.2
      rw [hbits b (by omega), hw.cons.metadata b hb]
  refine ⟨⟨⟨hw.inum_lt, hw.live, hcons⟩, ⟨_, rfl⟩, fun _ _ => rfl, hinodes, fun l _ => hown l⟩, hown, ?_⟩
  unfold St.free
  congr 1
  exact Finset.filter_congr fun c hc => by
    rw [put_disk, hbits c (Finset.mem_range.mp hc)]

/-- The bytes after a run of bytes has been copied into a mapped block. -/
theorem byte_put (hw : Working sb s ip) {bn o m : Nat} (hk : s.own sb ip (s.key ip (slotOf bn)) ≠ 0)
    (src : Nat → UInt8) (hm : o + m ≤ BSIZE) (n i : Nat) : (s.put (s.own sb ip (s.key ip (slotOf bn)))
        (blit (s.disk (s.own sb ip (s.key ip (slotOf bn)))) o m src)).byte sb ip n i =
      if n = (s.icache ip).inum ∧ bn * BSIZE + o ≤ i ∧ i < bn * BSIZE + o + m
      then src (i - (bn * BSIZE + o)) else s.byte sb ip n i := by
  obtain ⟨-, hown, -⟩ := Frame.put_data hw hk (slotOf_ne_indirect bn)
    (blit (s.disk (s.own sb ip (s.key ip (slotOf bn)))) o m src)
  have hsize : BSIZE = 512 := rfl
  have hlt : i % BSIZE < BSIZE := Nat.mod_lt i (by decide)
  unfold St.byte
  rw [hown, put_disk]
  by_cases hkey : (n, slotOf (i / BSIZE)) = s.key ip (slotOf bn)
  · -- a byte of the block written to
    obtain ⟨hn, hslot⟩ := Prod.mk.inj hkey
    have hbn : i / BSIZE = bn := slotOf_inj hslot
    rw [hkey, if_neg hk, if_neg hk, updBlk_same]
    by_cases hin : o ≤ i % BSIZE ∧ i % BSIZE < o + m
    · rw [get_blit_in _ _ hlt hin.1 hin.2, if_pos]
      · congr 1
        simp only [hsize] at *
        omega
      · refine ⟨hn, ?_⟩
        simp only [hsize] at *
        omega
    · rw [get_blit_out _ _ (by omega), if_neg]
      rintro ⟨-, h1⟩
      apply hin
      simp only [hsize] at *
      omega
  · have hout : ¬ (n = (s.icache ip).inum ∧ bn * BSIZE + o ≤ i ∧ i < bn * BSIZE + o + m) := by
      rintro ⟨rfl, h1⟩
      apply hkey
      have hbn : i / BSIZE = bn := by
        simp only [hsize] at *
        omega
      rw [St.key, hbn]
    rw [if_neg hout]
    by_cases h0 : s.own sb ip (n, slotOf (i / BSIZE)) = 0
    · rw [if_pos h0, if_pos h0]
    · rw [if_neg h0, if_neg h0, updBlk_ne]
      exact fun e => hkey (hw.cons.excl.inj _ _ h0 e)

/-! ## The blocks a request touches -/

/-- The file blocks that `n` bytes from `off` on lie in. -/
def touched (off n : Nat) : Finset Nat :=
  Finset.Ico (off / BSIZE) (if n = 0 then off / BSIZE else (off + n - 1) / BSIZE + 1)

theorem mem_touched {off n bn : Nat} : bn ∈ touched off n ↔ n ≠ 0 ∧ off / BSIZE ≤ bn ∧ bn * BSIZE < off + n := by
  have hsize : BSIZE = 512 := rfl
  unfold touched
  rw [Finset.mem_Ico]
  simp only [hsize]
  split <;> omega

/-- One round of a copying loop takes care of the first block. -/
theorem touched_step (off : Nat) {n : Nat} (hn : n ≠ 0) :
    touched off n = insert (off / BSIZE) (touched (off + chunk off n) (n - chunk off n)) ∧
      off / BSIZE ∉ touched (off + chunk off n) (n - chunk off n) := by
  have hsize : BSIZE = 512 := rfl
  have hpos := chunk_pos off hn
  have hmod : off % BSIZE < BSIZE := Nat.mod_lt off (by decide)
  have hchunk : chunk off n = n ∨ chunk off n = BSIZE - off % BSIZE := by
    unfold chunk
    omega
  have hle := chunk_le off n
  have hle' : chunk off n ≤ BSIZE - off % BSIZE := Nat.min_le_right _ _
  generalize chunk off n = m at *
  constructor
  · ext bn
    rw [Finset.mem_insert, mem_touched, mem_touched]
    simp only [hsize] at *
    omega
  · rw [mem_touched]
    simp only [hsize] at *
    omega

/-- How many blocks have to be allocated for the file blocks `T`: those not mapped, and the indirect
    block if it is needed and missing. -/
def St.need (sb : Superblock) (s : St) (ip : Fin NINODE) (T : Finset Nat) : Nat :=
  (T.filter fun bn => s.own sb ip (s.key ip (slotOf bn)) = 0).card +
    (if s.own sb ip (s.key ip .indirect) = 0 ∧ ∃ bn ∈ T, NDIRECT ≤ bn then 1 else 0)

theorem need1_le_need {T : Finset Nat} {bn : Nat} (hbn : bn ∈ T) : s.need1 sb ip bn ≤ s.need sb ip T := by
  have hblk : (if s.own sb ip (s.key ip (slotOf bn)) = 0 then 1 else 0) ≤
      (T.filter fun c => s.own sb ip (s.key ip (slotOf c)) = 0).card := by
    split
    · rename_i h0
      exact Finset.card_pos.mpr ⟨bn, Finset.mem_filter.mpr ⟨hbn, h0⟩⟩
    · exact Nat.zero_le _
  have hind : (if NDIRECT ≤ bn ∧ s.own sb ip (s.key ip .indirect) = 0 then 1 else 0) ≤
      (if s.own sb ip (s.key ip .indirect) = 0 ∧ ∃ c ∈ T, NDIRECT ≤ c then 1 else 0) := by
    split
    · rename_i h
      rw [if_pos ⟨h.2, bn, hbn, h.1⟩]
    · exact Nat.zero_le _
  unfold St.need1 St.need
  omega

/-- Mapping one block of `T` leaves the rest to be mapped. -/
theorem need_step {T : Finset Nat} {bn a : Nat} (hbn : bn ∉ T) (h : Mapped sb s t ip bn a)
    (hu : ∀ l, u.own sb ip l = t.own sb ip l) (hkey : ∀ k, u.key ip k = s.key ip k) :
    s.need1 sb ip bn + u.need sb ip T ≤ s.need sb ip (insert bn T) := by
  have hrest : (T.filter fun c => u.own sb ip (u.key ip (slotOf c)) = 0) =
      T.filter fun c => s.own sb ip (s.key ip (slotOf c)) = 0 := by
    refine Finset.filter_congr fun c hc => ?_
    rw [hkey, hu, h.only]
    · intro e
      obtain rfl := slotOf_inj (Prod.mk.inj e).2
      exact hbn hc
    · rintro ⟨e, -⟩
      exact slotOf_ne_indirect c (Prod.mk.inj e).2
  have hcount : ((insert bn T).filter fun c => s.own sb ip (s.key ip (slotOf c)) = 0).card =
      (T.filter fun c => s.own sb ip (s.key ip (slotOf c)) = 0).card +
        (if s.own sb ip (s.key ip (slotOf bn)) = 0 then 1 else 0) := by
    rw [Finset.filter_insert]
    split
    · rw [Finset.card_insert_of_notMem fun hm => hbn (Finset.mem_filter.mp hm).1]
    · rfl
  have hind : (if NDIRECT ≤ bn ∧ s.own sb ip (s.key ip .indirect) = 0 then 1 else 0) +
      (if u.own sb ip (u.key ip .indirect) = 0 ∧ ∃ c ∈ T, NDIRECT ≤ c then 1 else 0) ≤
      (if s.own sb ip (s.key ip .indirect) = 0 ∧ ∃ c ∈ insert bn T, NDIRECT ≤ c then 1 else 0) := by
    rw [hkey, hu]
    by_cases hge : NDIRECT ≤ bn
    · -- the indirect block is there from now on
      have hno : ¬ (t.own sb ip (s.key ip .indirect) = 0 ∧ ∃ c ∈ T, NDIRECT ≤ c) :=
        fun hc => h.indirect hge hc.1
      rw [if_neg hno]
      by_cases h0 : s.own sb ip (s.key ip .indirect) = 0
      · rw [if_pos ⟨hge, h0⟩, if_pos ⟨h0, bn, Finset.mem_insert_self bn T, hge⟩]
      · rw [if_neg fun hc => h0 hc.2]
        exact Nat.zero_le _
    · have hsame : t.own sb ip (s.key ip .indirect) = s.own sb ip (s.key ip .indirect) :=
        h.only _ (fun e => slotOf_ne_indirect bn (Prod.mk.inj e).2.symm) fun hc => hge hc.2
      rw [if_neg fun hc => hge hc.1, hsame, Nat.zero_add]
      by_cases hc : s.own sb ip (s.key ip .indirect) = 0 ∧ ∃ c ∈ T, NDIRECT ≤ c
      · obtain ⟨h0, c, hcT, hcn⟩ := hc
        rw [if_pos ⟨h0, c, hcT, hcn⟩, if_pos ⟨h0, c, Finset.mem_insert_of_mem hcT, hcn⟩]
      · rw [if_neg hc]
        exact Nat.zero_le _
  unfold St.need1 St.need
  rw [hrest, hcount]
  omega

theorem card_touched (off : Nat) {n : Nat} (hn : n ≠ 0) :
    (touched off n).card = (touched (off + chunk off n) (n - chunk off n)).card + 1 := by
  obtain ⟨htouched, hfirst⟩ := touched_step off hn
  rw [htouched, Finset.card_insert_of_notMem hfirst]

theorem div_lt_maxfile {off n : Nat} (hn : n ≠ 0) (hmax : off + n ≤ MAXFILE * BSIZE) : off / BSIZE < MAXFILE := by
  have hsize : BSIZE = 512 := rfl
  simp only [hsize] at *
  omega

/-! ## The loops -/

/-- `n` bytes from `src` were written at `off` of the file in slot `ip`, and nothing else. -/
structure Wrote (sb : Superblock) (s t : St) (ip : Fin NINODE) (src : Nat → UInt8) (off n : Nat) :
    Prop extends Frame sb s t ip where
  only : ∀ k, s.own sb ip k = 0 → t.own sb ip k ≠ 0 →
    ∃ bn ∈ touched off n, k = s.key ip (slotOf bn) ∨ (k = s.key ip .indirect ∧ NDIRECT ≤ bn)
  mapped : ∀ bn ∈ touched off n, t.own sb ip (s.key ip (slotOf bn)) ≠ 0
  bytes : ∀ m i, t.byte sb ip m i =
    if m = (s.icache ip).inum ∧ off ≤ i ∧ i < off + n then src (i - off) else s.byte sb ip m i

/-- At most this many calls of `log_write`: one for each block touched and three for each block
    allocated. -/
def St.calls (sb : Superblock) (s : St) (ip : Fin NINODE) (off n : Nat) : Nat :=
  (touched off n).card + 3 * s.need sb ip (touched off n)

theorem chunk_room (off n : Nat) : off % BSIZE + chunk off n ≤ BSIZE := by
  have h1 := Nat.mod_lt off (show 0 < BSIZE by decide)
  have h2 : chunk off n ≤ BSIZE - off % BSIZE := Nat.min_le_right _ _
  omega

/-- Nothing to write. -/
theorem Wrote.nil (hw : Working sb s ip) (src : Nat → UInt8) (off : Nat) : Wrote sb s s ip src off 0 := by
  have hnone : ∀ bn, bn ∉ touched off 0 := fun bn h => (mem_touched.mp h).1 rfl
  refine ⟨Frame.refl hw, fun k h0 h1 => absurd h0 h1, fun bn h => absurd h (hnone bn), fun m i => ?_⟩
  rw [if_neg (by omega)]

/-- **One round**: the first block is mapped (`t`), the first bytes are copied into it (`u`), and the loop goes
    on from there. -/
theorem Wrote.cons {src : Nat → UInt8} {off n a : Nat} {v : St} (hn : n ≠ 0) (hmap : Mapped sb s t ip (off / BSIZE) a)
    (hu : u = t.put a (blit (t.disk a) (off % BSIZE) (chunk off n) src)) :
    Frame sb s u ip ∧ (∀ l, u.own sb ip l = t.own sb ip l) ∧ u.free sb = t.free sb ∧
      (Wrote sb u v ip (fun i => src (i + chunk off n)) (off + chunk off n) (n - chunk off n) →
        Wrote sb s v ip src off n) := by
  obtain ⟨htouched, hfirst⟩ := touched_step off hn
  have hpos := chunk_pos off hn
  have hle := chunk_le off n
  have hkey : ∀ k, t.key ip k = s.key ip k := hmap.grown.key
  have ha : t.own sb ip (t.key ip (slotOf (off / BSIZE))) = a := by rw [hkey]; exact hmap.here
  have hane : t.own sb ip (t.key ip (slotOf (off / BSIZE))) ≠ 0 := by rw [ha]; exact hmap.ne
  obtain ⟨hframe, hown, hfree⟩ := Frame.put_data hmap.grown.work hane (slotOf_ne_indirect _)
    (blit (t.disk a) (off % BSIZE) (chunk off n) src)
  have hbytes := byte_put hmap.grown.work hane src (chunk_room off n)
  rw [ha] at hframe hown hfree hbytes
  rw [← hu] at hframe hown hfree hbytes
  have hsu : Frame sb s u ip := hmap.grown.toFrame.trans hframe
  refine ⟨hsu, hown, hfree, fun hwrote => ⟨hsu.trans hwrote.toFrame, ?_, ?_, ?_⟩⟩
  · intro k h0 h1
    rw [htouched]
    by_cases hu0 : u.own sb ip k = 0
    · obtain ⟨bn, hmem, hor⟩ := hwrote.only k hu0 h1
      rw [hsu.key, hsu.key] at hor
      exact ⟨bn, Finset.mem_insert_of_mem hmem, hor⟩
    · refine ⟨off / BSIZE, Finset.mem_insert_self _ _, ?_⟩
      rw [hown] at hu0
      by_contra hnot
      rw [not_or] at hnot
      rw [hmap.only k hnot.1 hnot.2] at hu0
      exact hu0 h0
  · intro bn hmem
    rw [htouched, Finset.mem_insert] at hmem
    rcases hmem with rfl | hmem
    · have hne : u.own sb ip (s.key ip (slotOf (off / BSIZE))) ≠ 0 := by
        rw [hown, hmap.here]
        exact hmap.ne
      rw [hwrote.keep _ hne]
      exact hne
    · rw [← hsu.key]
      exact hwrote.mapped bn hmem
  · intro m i
    rw [hwrote.bytes, hbytes, hmap.grown.byte, hsu.inum, hmap.grown.inum]
    have hoff : off / BSIZE * BSIZE + off % BSIZE = off := Nat.div_add_mod' off BSIZE
    rw [hoff]
    by_cases hm : m = (s.icache ip).inum
    · by_cases h1 : off + chunk off n ≤ i ∧ i < off + n
      · rw [if_pos ⟨hm, h1.1, by omega⟩, if_pos ⟨hm, by omega, h1.2⟩]
        congr 1
        omega
      · rw [if_neg (by omega)]
        by_cases h2 : off ≤ i ∧ i < off + chunk off n
        · rw [if_pos ⟨hm, h2⟩, if_pos ⟨hm, by omega⟩]
        · rw [if_neg (by omega), if_neg (by omega)]
    · rw [if_neg fun h => hm h.1, if_neg fun h => hm h.1, if_neg fun h => hm h.1]

/-- **The loop of `writei`.** -/
theorem writeLoop_spec : ∀ (n : Nat) {s : St} (src : Nat → UInt8) (off : Nat), Working sb s ip →
    off + n ≤ MAXFILE * BSIZE → Meets (writeLoop sb ip src off n s)
      (fun _ t => Wrote sb s t ip src off n ∧ Logged s t (s.calls sb ip off n))
      (fun e => (e = .outOfBlocks ∧ s.free sb < s.need sb ip (touched off n)) ∨
        LogStop s (s.calls sb ip off n) e) := by
  intro n
  induction n using Nat.strongRecOn with
  | _ n ih =>
  intro s src off hw hmax
  rw [writeLoop]
  by_cases hn : n = 0
  · rw [dif_pos hn]
    subst hn
    exact ⟨Wrote.nil hw src off, (Logged.refl s).mono (Nat.zero_le _)⟩
  · rw [dif_neg hn]
    obtain ⟨htouched, hfirst⟩ := touched_step off hn
    have hpos := chunk_pos off hn
    have hle := chunk_le off n
    have hcard := card_touched off hn
    refine (bmap_spec hw (div_lt_maxfile hn hmax)).bind (fun a t hmap => ?_) fun e he => ?_
    · rw [bind_of_ok (bread_eq t a)]
      refine (logWrite_spec t _ _).bind (fun _ u hu => ?_) fun e he => ?_
      · obtain ⟨hsu, hown, hfree, -⟩ := Wrote.cons (v := u) hn hmap hu
        have hneed := need_step hfirst hmap hown hsu.key
        rw [← htouched] at hneed
        have hlogu : Logged s u (3 * s.need1 sb ip (off / BSIZE) + 1) :=
          hmap.logged.trans (by rw [hu]; exact logged_put t _ _)
        have hcalls : 3 * s.need1 sb ip (off / BSIZE) + 1 +
            u.calls sb ip (off + chunk off n) (n - chunk off n) ≤ s.calls sb ip off n := by
          unfold St.calls
          omega
        refine (ih (n - chunk off n) (by omega) _ _ hsu.work (by omega)).mono ?_ ?_
        · rintro - v ⟨hwrote, hlog⟩
          exact ⟨(Wrote.cons hn hmap hu).2.2.2 hwrote, (hlogu.trans hlog).mono hcalls⟩
        · rintro e (⟨h1, h2⟩ | he)
          · refine Or.inl ⟨h1, ?_⟩
            have := hmap.free
            omega
          · exact Or.inr ((he.after hlogu).mono hcalls)
      · refine Or.inr ((he.after hmap.logged).mono ?_)
        have := need_step hfirst hmap (fun _ => rfl) hmap.grown.key
        rw [← htouched] at this
        unfold St.calls
        omega
    · have hle1 : s.need1 sb ip (off / BSIZE) ≤ s.need sb ip (touched off n) :=
        need1_le_need (by rw [htouched]; exact Finset.mem_insert_self _ _)
      rcases he with ⟨h1, h2⟩ | he
      · exact Or.inl ⟨h1, by omega⟩
      · exact Or.inr (he.mono (by unfold St.calls; omega))

end Xv6.Fs
