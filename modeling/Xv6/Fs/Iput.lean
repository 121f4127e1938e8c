/-
  `itrunc` and `iput`: giving blocks and inodes back.

  `itrunc` frees the direct blocks one by one, clearing each pointer at once; so after every round
  the file system is consistent.  Not so for the indirect block: its words are freed while they still
  stand in the block, and only at the end is the block itself freed and dropped.  In between, the
  table of pointers is AHEAD of the bitmap.  The invariant of that loop is therefore stated for the
  pointers NOT YET freed (`remaining`), and meets the real table again when `addrs[NDIRECT]` is
  cleared.
-/
import Xv6.Fs.Refine

namespace Xv6.Fs

open ByteBuf Outcome Ownership

variable {sb : Superblock} {s t u : St} {ip : Fin NINODE}

/-- Stopped by a panic of `log_write`. -/
def Stop.IsLog (e : Stop) : Prop := ∃ p, e = .log p

theorem LogStop.isLog {k : Nat} {e : Stop} (h : LogStop s k e) : e.IsLog := by
  rcases h with ⟨h, -⟩ | ⟨h, -⟩
  · exact ⟨_, h⟩
  · exact ⟨_, h⟩

/-! ## Freeing direct blocks -/

/-- What truncation leaves alone, all the way: the other inodes and their pointers. -/
structure Shrunk (sb : Superblock) (s t : St) (ip : Fin NINODE) : Prop where
  work : Working sb t ip
  slot : ∃ a, t.icache ip = { s.icache ip with di := { (s.icache ip).di with addrs := a } }
  others : ∀ j, j ≠ ip → t.icache j = s.icache j
  inodes : ∀ n, n < sb.ninodes → dinodeAt sb t.disk n = dinodeAt sb s.disk n
  rest : ∀ n k, n ≠ (s.icache ip).inum → t.own sb ip (n, k) = s.own sb ip (n, k)
  less : ∀ k, s.own sb ip k = 0 → t.own sb ip k = 0

theorem Shrunk.refl (h : Working sb s ip) : Shrunk sb s s ip where
  work := h
  slot := ⟨_, rfl⟩
  others := fun _ _ => rfl
  inodes := fun _ _ => rfl
  rest := fun _ _ _ => rfl
  less := fun _ h => h

theorem Shrunk.inum (h : Shrunk sb s t ip) : (t.icache ip).inum = (s.icache ip).inum := by
  obtain ⟨a, ha⟩ := h.slot
  rw [ha]

theorem Shrunk.key (h : Shrunk sb s t ip) (k : Slot) : t.key ip k = s.key ip k := by
  rw [St.key, h.inum]

theorem Shrunk.trans (h : Shrunk sb s t ip) (h' : Shrunk sb t u ip) : Shrunk sb s u ip where
  work := h'.work
  slot := by
    obtain ⟨a, ha⟩ := h.slot
    obtain ⟨b, hb⟩ := h'.slot
    exact ⟨b, by rw [hb, ha]⟩
  others := fun j hj => (h'.others j hj).trans (h.others j hj)
  inodes := fun n hn => (h'.inodes n hn).trans (h.inodes n hn)
  rest := fun n k hn => by rw [h'.rest n k (by rw [h.inum]; exact hn), h.rest n k hn]
  less := fun k hk => h'.less k (h.less k hk)

variable {k : Nat × Slot}

/-- Freeing what a slot holds. -/
theorem Consistent.give {d d' : Disk} {ino ino' : Nat → Dinode} (h : Consistent sb d ino) (hk : own sb d ino k ≠ 0)
    (ho : ∀ l, own sb d' ino' l = if l = k then 0 else own sb d ino l)
    (hbit : ∀ c, bit sb d' c = (bit sb d c && !decide (own sb d ino k = c))) : Consistent sb d' ino' where
  excl := by
    refine h.excl.give hk ho fun c _ => ?_
    rw [hbit c]
    simp only [Bool.and_eq_true, Bool.not_eq_true', decide_eq_false_iff_not]
    exact ⟨fun h => ⟨Ne.symm h.2, h.1⟩, fun h => ⟨h.2, Ne.symm h.1⟩⟩
  metadata := fun c hc => by
    have hd := (h.excl.inArea k hk).1
    rw [hbit c, h.metadata c hc, decide_eq_false (by omega)]
    rfl

/-- **One round of the first loop.** -/
theorem truncDirect_spec (hw : Working sb s ip) (k : Fin NDIRECT) : Meets (truncDirect sb ip k s)
      (fun _ t => Shrunk sb s t ip ∧ t.own sb ip (s.key ip (.addr k.castSucc)) = 0) Stop.IsLog := by
  have hkey := hw.own_key (.addr k.castSucc)
  have hlast : k.castSucc ≠ Fin.last NDIRECT := Fin.castSucc_ne_last k
  unfold truncDirect
  rw [bind_of_ok (inode_eq s ip)]
  by_cases h0 : (s.icache ip).di.addrs k.castSucc = 0
  · rw [if_neg (not_not.mpr h0)]
    refine ⟨Shrunk.refl hw, ?_⟩
    rw [hkey]
    simp only [ptr, h0]
    rfl
  · rw [if_pos h0]
    have hne : s.own sb ip (s.key ip (.addr k.castSucc)) ≠ 0 := by
      rw [hkey]
      exact toNat_ne_zero.mpr h0
    have hheld := hw.held hne
    have haddr : ((s.icache ip).di.addrs k.castSucc).toNat =
        s.own sb ip (s.key ip (.addr k.castSucc)) := hkey.symm
    rw [haddr]
    refine (bfree_spec s _).bind (fun _ t ht => ?_) fun e he => ?_
    · rw [setAddr_eq]
      have hslot : (t.withAddr ip k.castSucc 0).icache ip = { s.icache ip with
          di := { (s.icache ip).di with addrs := fun l =>
            if l = k.castSucc then UInt32.ofNat 0 else (s.icache ip).di.addrs l } } := by
        rw [withAddr_same, ht.icache]
      have hothers : ∀ j, j ≠ ip → (t.withAddr ip k.castSucc 0).icache j = s.icache j := by
        intro j hj
        rw [withAddr_ne hj, ht.icache]
      have hinodes : ∀ n, n < sb.ninodes →
          dinodeAt sb (t.withAddr ip k.castSucc 0).disk n = dinodeAt sb s.disk n :=
        fun n hn => ht.dinodeAt hn
      have hown : ∀ l, (t.withAddr ip k.castSucc 0).own sb ip l =
          if l = s.key ip (.addr k.castSucc) then 0 else s.own sb ip l := by
        intro l
        rw [own_setAddr hw (by decide) hslot hinodes (fun c hc _ => ht.other (hc.ne_bblock hheld.1.2)) fun h => absurd rfl h]
        simp only [hlast, false_and, if_false]
      have hcons : Consistent sb t.disk ((t.withAddr ip k.castSucc 0).table sb ip) :=
        hw.cons.give hne hown ht.bit
      refine ⟨⟨⟨by rw [hslot]; exact hw.inum_lt, by rw [hslot]; exact hw.live, hcons⟩, ⟨_, hslot⟩,
        hothers, hinodes, fun n l hn => ?_, fun l hl => ?_⟩, ?_⟩
      · rw [hown, if_neg fun e => hn (Prod.mk.inj e).1]
      · rw [hown, hl, ite_self]
      · rw [hown, if_pos rfl]
    · rcases he with ⟨-, h1⟩ | he
      · rw [hheld.2] at h1
        cases h1
      · exact he.isLog

/-- **The first loop**: every direct pointer is cleared. -/
theorem truncDirect_loop (hw : Working sb s ip) : Meets ((List.finRange NDIRECT).forM (truncDirect sb ip) s)
      (fun _ t => Shrunk sb s t ip ∧
        ∀ k : Fin NDIRECT, t.own sb ip (s.key ip (.addr k.castSucc)) = 0) Stop.IsLog := by
  -- `ks` are the pointers still to be cleared
  have hloop := Meets.forM (f := truncDirect sb ip) (E := Stop.IsLog) (I := fun ks t =>
    Shrunk sb s t ip ∧ ∀ k : Fin NDIRECT, k ∉ ks → t.own sb ip (s.key ip (.addr k.castSucc)) = 0)
    (fun k ks t ht => ?_) (List.finRange NDIRECT) s
    ⟨Shrunk.refl hw, fun k hk => absurd (List.mem_finRange k) hk⟩
  · refine hloop.mono (fun _ t ht => ⟨ht.1, fun k => ht.2 k (List.not_mem_nil)⟩) fun e he => he
  · obtain ⟨hshrunk, hdone⟩ := ht
    refine (truncDirect_spec hshrunk.work k).mono (fun _ u hu => ?_) fun e he => he
    obtain ⟨hu, hzero⟩ := hu
    refine ⟨hshrunk.trans hu, fun l hl => ?_⟩
    by_cases hlk : l = k
    · rw [hlk, ← hshrunk.key]
      exact hzero
    · refine hu.less _ (hdone l fun hmem => ?_)
      rcases List.mem_cons.mp hmem with h1 | h1
      · exact hlk h1
      · exact hl h1

/-! ## Freeing the indirect block -/

/-- The pointers not yet freed, when the words `js` of the indirect block are still to be done. -/
def St.remaining (sb : Superblock) (s : St) (ip : Fin NINODE) (js : List Nat) : Nat × Slot → Nat
  | (n, .addr i) => s.own sb ip (n, .addr i)
  | (n, .ind j) => if n = (s.icache ip).inum ∧ j ∉ js then 0 else s.own sb ip (n, .ind j)

/-- The second loop of `itrunc`, started in `s`, has the words `js` left. -/
structure Freeing (sb : Superblock) (s : St) (ip : Fin NINODE) (js : List Nat) (t : St) : Prop where
  icache : t.icache = s.icache
  other : ∀ c, (∀ b, b < sb.size → sb.bblock b ≠ c) → t.disk c = s.disk c
  excl : Exclusive sb.IsData (s.remaining sb ip js) (fun b => bit sb t.disk b = true)
  metadata : ∀ b, b < sb.nmeta → bit sb t.disk b = true
  nodup : js.Nodup

variable {js : List Nat}

theorem remaining_step {j : Nat} (hj : j ∉ js) (l : Nat × Slot) : s.remaining sb ip js l =
      if l = s.key ip (.ind j) then 0 else s.remaining sb ip (j :: js) l := by
  obtain ⟨n, sl⟩ := l
  cases sl with
  | addr i => rw [if_neg nofun]; rfl
  | ind i =>
    simp only [St.remaining, St.key, Prod.mk.injEq, Slot.ind.injEq, List.mem_cons, not_or]
    by_cases hn : n = (s.icache ip).inum <;> by_cases hi : i = j
    · subst hi
      rw [if_pos ⟨hn, hj⟩, if_pos ⟨hn, rfl⟩]
    · rw [if_neg (c := n = (s.icache ip).inum ∧ i = j) fun h => hi h.2]
      simp only [hn, hi, true_and, not_false_eq_true]
    · rw [if_neg fun h => hn h.1, if_neg fun h => hn h.1, if_neg fun h => hn h.1]
    · rw [if_neg fun h => hn h.1, if_neg fun h => hn h.1, if_neg fun h => hn h.1]

/-- Clearing the bit of a block that a slot holds: the slot counts as empty from now on. -/
theorem Freeing.release (h : Freeing sb s ip js t) (hk : s.remaining sb ip js k ≠ 0) :
    Meets (bfree sb (s.remaining sb ip js k) t)
      (fun _ u => Release sb t u (s.remaining sb ip js k) ∧ u.icache = s.icache ∧
        (∀ c, (∀ b, b < sb.size → sb.bblock b ≠ c) → u.disk c = s.disk c) ∧
        (∀ b, b < sb.nmeta → bit sb u.disk b = true) ∧
        ∀ own' : Nat × Slot → Nat,
          (∀ l, own' l = if l = k then 0 else s.remaining sb ip js l) →
          Exclusive sb.IsData own' (fun b => bit sb u.disk b = true)) Stop.IsLog := by
  have hdata := h.excl.inArea k hk
  refine (bfree_spec t _).mono (fun _ u hu => ⟨hu, by rw [hu.icache, h.icache], ?_, ?_, ?_⟩) ?_
  · intro c hc
    rw [hu.other (hc _ hdata.2), h.other c hc]
  · intro b hb
    have hne : s.remaining sb ip js k ≠ b := by
      have := hdata.1
      omega
    rw [hu.bit, h.metadata b hb, decide_eq_false hne]
    rfl
  · intro own' hown
    refine h.excl.give hk hown fun c _ => ?_
    rw [hu.bit]
    simp only [Bool.and_eq_true, Bool.not_eq_true', decide_eq_false_iff_not]
    exact ⟨fun h => ⟨Ne.symm h.2, h.1⟩, fun h => ⟨h.2, Ne.symm h.1⟩⟩
  · rintro e (⟨-, h1⟩ | he)
    · have := h.excl.used_own hk
      rw [h1] at this
      cases this
    · exact he.isLog

/-- **One round of the second loop.** -/
theorem truncWord_spec {j : Nat} (hw : Working sb s ip)
    (hi : (s.icache ip).di.indirect ≠ 0) (h : Freeing sb s ip (j :: js) t) :
    Meets (truncWord sb (s.disk (s.icache ip).di.indirect.toNat) j t)
      (fun _ u => Freeing sb s ip js u) Stop.IsLog := by
  obtain ⟨hj, hnodup⟩ := List.nodup_cons.mp h.nodup
  have hown : s.remaining sb ip (j :: js) (s.key ip (.ind j)) =
      word (s.disk (s.icache ip).di.indirect.toNat) j := by
    have hmem : j ∈ j :: js := List.mem_cons_self
    have hkey := hw.own_key (.ind j)
    simp only [ptr, if_neg hi] at hkey
    simp only [St.remaining, hmem, not_true_eq_false, and_false, if_false]
    exact hkey
  unfold truncWord
  by_cases h0 : word (s.disk (s.icache ip).di.indirect.toNat) j = 0
  · rw [if_neg (not_not.mpr h0)]
    refine ⟨h.icache, h.other, h.excl.congr (fun l => ?_) fun _ _ => Iff.rfl, h.metadata, hnodup⟩
    rw [remaining_step hj]
    split
    · rename_i e
      rw [e, hown, h0]
    · rfl
  · rw [if_pos h0, ← hown]
    refine (h.release (by rw [hown]; exact h0)).mono ?_ fun e he => he
    rintro - u ⟨-, hic, hother, hmeta, hexcl⟩
    exact ⟨hic, hother, hexcl _ (remaining_step hj), hmeta, hnodup⟩

/-- **The indirect part of `itrunc`**: afterwards the inode holds no block. -/
theorem truncIndirect_spec (hw : Working sb s ip)
    (hdirect : ∀ k : Fin NDIRECT, s.own sb ip (s.key ip (.addr k.castSucc)) = 0) : Meets (truncIndirect sb ip s)
      (fun _ t => Shrunk sb s t ip ∧ ∀ k, t.own sb ip (s.key ip k) = 0) Stop.IsLog := by
  have hdir : ∀ i : Fin (NDIRECT + 1), i ≠ Fin.last NDIRECT →
      s.own sb ip (s.key ip (.addr i)) = 0 := by
    intro i hne
    obtain ⟨k, rfl⟩ := Fin.exists_castSucc_eq.mpr hne
    exact hdirect k
  unfold truncIndirect
  rw [bind_of_ok (inode_eq s ip)]
  by_cases hi : (s.icache ip).di.indirect = 0
  · rw [if_neg (not_not.mpr hi)]
    refine ⟨Shrunk.refl hw, fun k => ?_⟩
    cases k with
    | addr i =>
      by_cases hlast : i = Fin.last NDIRECT
      · rw [hw.own_key, hlast]
        exact congrArg UInt32.toNat hi
      · exact hdir i hlast
    | ind j =>
      rw [hw.own_key]
      exact if_pos hi
  · rw [if_pos hi, bind_of_ok (bread_eq s _)]
    have hstart : Freeing sb s ip (List.range NINDIRECT) s := by
      refine ⟨rfl, fun _ _ => rfl, hw.cons.excl.congr (fun l => ?_) fun _ _ => Iff.rfl,
        hw.cons.metadata, List.nodup_range⟩
      obtain ⟨n, sl⟩ := l
      cases sl with
      | addr i => rfl
      | ind j =>
        simp only [St.remaining]
        split
        · -- past the end of the block there is nothing
          rename_i h
          obtain ⟨rfl, hj⟩ := h
          have hkey := hw.own_key (.ind j)
          simp only [ptr, if_neg hi] at hkey
          refine Eq.trans ?_ hkey.symm
          rw [List.mem_range] at hj
          refine (getLE_zero 4 fun i h1 h2 => ?_).symm
          unfold ByteBuf.get
          rw [dif_neg]
          simp only [NINDIRECT, BSIZE] at hj ⊢
          omega
        · rfl
    refine (Meets.forM (f := truncWord sb _) (I := Freeing sb s ip)
      (fun j js t ht => truncWord_spec hw hi ht) _ s hstart).bind (fun _ t ht => ?_) fun e he => he
    have hkey : s.remaining sb ip [] (s.key ip .indirect) = (s.icache ip).di.indirect.toNat :=
      hw.own_key .indirect
    have hne : s.remaining sb ip [] (s.key ip .indirect) ≠ 0 := by
      rw [hkey]
      exact toNat_ne_zero.mpr hi
    rw [← hkey]
    refine (ht.release hne).bind ?_ fun e he => he
    rintro - u ⟨-, hic, hother, hmeta, hexcl⟩
    rw [setAddr_eq]
    have hslot : (u.withAddr ip (Fin.last NDIRECT) 0).icache ip = { s.icache ip with
        di := { (s.icache ip).di with addrs := fun l =>
          if l = (Fin.last NDIRECT) then UInt32.ofNat 0 else (s.icache ip).di.addrs l } } := by
      rw [withAddr_same, hic]
    have hinodes : ∀ n, n < sb.ninodes →
        dinodeAt sb (u.withAddr ip (Fin.last NDIRECT) 0).disk n = dinodeAt sb s.disk n := by
      intro n hn
      show dinodeAt sb u.disk n = _
      unfold dinodeAt
      rw [hother _ fun b _ => Ne.symm (sb.iblock_ne_bblock hn b)]
    have hown := own_setAddr hw (by decide) hslot hinodes (fun c hc _ => hother c fun b hb => hc.ne_bblock hb)
      fun h => absurd rfl h
    -- the table of pointers has caught up with the bitmap
    have hcons : Consistent sb u.disk ((u.withAddr ip (Fin.last NDIRECT) 0).table sb ip) := by
      refine ⟨hexcl _ fun l => ?_, hmeta⟩
      show (u.withAddr ip (Fin.last NDIRECT) 0).own sb ip l = _
      rw [hown]
      obtain ⟨n, sl⟩ := l
      cases sl with
      | addr i | ind j => simp [St.remaining, Slot.isWord]
    refine ⟨⟨⟨by rw [hslot]; exact hw.inum_lt, by rw [hslot]; exact hw.live, hcons⟩, ⟨_, hslot⟩,
      fun j hj => by rw [withAddr_ne hj, hic], hinodes, fun n l hn => ?_, fun l hl => ?_⟩, fun k => ?_⟩
    · rw [hown, if_neg fun e => hn (Prod.mk.inj e).1, if_neg fun e => hn e.2.1]
    · rw [hown, hl, ite_self, ite_self]
    · rw [hown]
      cases k with
      | addr i =>
        by_cases hlast : i = Fin.last NDIRECT
        · rw [if_pos (by rw [hlast])]
        · rw [hdir i hlast, ite_self, ite_self]
      | ind j => rw [if_neg (fun e => by cases e), if_pos ⟨rfl, rfl, rfl⟩]

/-! ## `itrunc` -/

/-- The state after `itrunc`: the inode in slot `ip` holds nothing, on disk and in memory. -/
structure Emptied (sb : Superblock) (s t : St) (ip : Fin NINODE) : Prop where
  slot : ∃ a, t.icache ip =
    { s.icache ip with di := { (s.icache ip).di with size := 0, addrs := a } }
  others : ∀ j, j ≠ ip → t.icache j = s.icache j
  inodes : ∀ n, n < sb.ninodes → n ≠ (s.icache ip).inum →
    dinodeAt sb t.disk n = dinodeAt sb s.disk n
  self : dinodeAt sb t.disk (s.icache ip).inum = (t.icache ip).di
  cons : Consistent sb t.disk (dinodeAt sb t.disk)
  gone : ∀ k, own sb t.disk (dinodeAt sb t.disk) ((s.icache ip).inum, k) = 0
  rest : ∀ n k, n ≠ (s.icache ip).inum →
    own sb t.disk (dinodeAt sb t.disk) (n, k) = s.own sb ip (n, k)

theorem itrunc_spec (hw : Working sb s ip) : Meets (itrunc sb ip s) (fun _ t => Emptied sb s t ip) Stop.IsLog := by
  unfold itrunc
  refine (truncDirect_loop hw).bind (fun _ t ht => ?_) fun e he => he
  obtain ⟨hshrunk, hdirect⟩ := ht
  refine (truncIndirect_spec hshrunk.work fun k => ?_).bind (fun _ u hu => ?_) fun e he => he
  · rw [hshrunk.key]
    exact hdirect k
  obtain ⟨hu, hzero⟩ := hu
  have htotal := hshrunk.trans hu
  obtain ⟨a, ha⟩ := htotal.slot
  show Meets (iupdate sb ip (u.setInode ip { u.icache ip with di := { (u.icache ip).di with size := 0 } })) _ _
  obtain ⟨hwork, hown⟩ := hu.work.setInode
    (v := { u.icache ip with di := { (u.icache ip).di with size := 0 } }) rfl rfl rfl
  refine (iupdate_spec hwork.inum_lt hwork.cons).mono (fun _ v hv => ?_) fun e he => he.isLog
  have hslot : v.icache ip =
      { s.icache ip with di := { (s.icache ip).di with size := 0, addrs := a } } := by
    rw [hv.icache, setInode_same, ha]
  refine ⟨⟨a, hslot⟩, fun j hj => ?_, fun n hn hne => ?_, ?_, hv.cons, fun k => ?_, fun n k hne => ?_⟩
  · rw [hv.icache, setInode_ne hj, htotal.others j hj]
  · rw [hv.inodes, table_ne (by rw [setInode_same]; exact fun e => hne (e.trans htotal.inum))]
    exact htotal.inodes n hn
  · have hself := hv.inodes (s.icache ip).inum
    rw [hself, hv.icache, ← htotal.inum]
    exact (congrArg _ (by rw [setInode_same])).trans table_self
  · rw [hv.own, hown]
    have := hzero k
    rwa [hshrunk.key] at this
  · rw [hv.own, hown, htotal.rest n k hne]

/-! ## `iput` -/

/-- The states of `iput` while it holds the lock: the caller's state, but for slot `ip`, whose inode
    may be off the disk already. -/
structure Putting (sb : Superblock) (s t : St) (ip : Fin NINODE) : Prop where
  cons : Consistent sb t.disk (dinodeAt sb t.disk)
  holes : ∀ n, n < sb.ninodes → (dinodeAt sb t.disk n).type ≠ 0 →
    HoleFree t.disk (dinodeAt sb t.disk n)
  others : ∀ j, j ≠ ip → t.icache j = s.icache j
  inodes : ∀ n, n < sb.ninodes → n ≠ (s.icache ip).inum →
    dinodeAt sb t.disk n = dinodeAt sb s.disk n
  slot : ∃ d v, t.icache ip = { s.icache ip with di := d, valid := v, locked := true } ∧
    (v = true → d = (s.icache ip).di ∧ (s.icache ip).valid = true ∧ t.disk = s.disk)

/-- Freeing the inode (its blocks, its type, and the copy in memory), before the rest `k` of
    `iput`. -/
theorem iput_free (h : Inv sb s) (hr : 0 < (s.icache ip).ref) (hv : (s.icache ip).valid = true)
    (ht : t = s.setInode ip { s.icache ip with locked := true }) {k : M Unit}
    {Q : Unit → St → Prop} {E : Stop → Prop} (hE : ∀ e, e.IsLog → E e)
    (hk : ∀ u, Putting sb s u ip → Meets (k u) Q E) :
    Meets ((do
        itrunc sb ip
        modifyInode ip fun v => { v with di := { v.di with type := 0 } }
        iupdate sb ip
        modifyInode ip fun v => { v with valid := false }
        k : M Unit) t) Q E := by
  obtain ⟨hw, hown⟩ := (h.working hr hv).setInode (v := { s.icache ip with locked := true }) rfl rfl rfl
  rw [← ht] at hw hown
  have hslotT : t.icache ip = { s.icache ip with locked := true } := by rw [ht, setInode_same]
  have hinumT : (t.icache ip).inum = (s.icache ip).inum := by rw [hslotT]
  have hothersT : ∀ j, j ≠ ip → t.icache j = s.icache j := fun j hj => by rw [ht, setInode_ne hj]
  have hdiskT : t.disk = s.disk := by rw [ht, setInode_disk]
  refine (itrunc_spec hw).bind (fun _ u hu => ?_) hE
  obtain ⟨a, ha⟩ := hu.slot
  have hinumU : (u.icache ip).inum = (s.icache ip).inum := by rw [ha, hinumT]
  -- `type = 0`: the inode holds nothing any more, so the table of pointers does not change
  let w : Inode := { u.icache ip with di := { (u.icache ip).di with type := 0 } }
  show Meets ((do
      iupdate sb ip
      modifyInode ip fun v => { v with valid := false }
      k : M Unit) (u.setInode ip w)) _ _
  have htable : ∀ n, n ≠ (s.icache ip).inum →
      (u.setInode ip w).table sb ip n = dinodeAt sb u.disk n := by
    intro n hn
    exact table_ne (by rw [setInode_same]; exact fun e => hn (e.trans hinumU))
  have hself : (u.setInode ip w).table sb ip (s.icache ip).inum = w.di := by
    rw [← hinumU]
    unfold St.table
    rw [setInode_same, if_pos rfl]
  have hownW : ∀ k, (u.setInode ip w).own sb ip k = own sb u.disk (dinodeAt sb u.disk) k := by
    rintro ⟨n, k⟩
    rcases eq_or_ne n (s.icache ip).inum with rfl | hn
    · have hgone := hu.gone k
      rw [hinumT] at hgone
      rw [hgone]
      unfold St.own own
      simp only [hself]
      exact if_neg fun hc => hc.2 rfl
    · unfold St.own own
      simp only [htable n hn]
      rfl
  have hconsW : Consistent sb u.disk ((u.setInode ip w).table sb ip) :=
    ⟨hu.cons.excl.congr hownW fun _ _ => Iff.rfl, hu.cons.metadata⟩
  have hltW : ((u.setInode ip w).icache ip).inum < sb.ninodes := by
    rw [setInode_same]
    exact hinumU ▸ (h.cached ip hr).2
  refine (iupdate_spec hltW hconsW).bind (fun _ v hvs => ?_) fun e he => hE e he.isLog
  show Meets (k (v.setInode ip { v.icache ip with valid := false })) Q E
  refine hk _ ?_
  have hinodes : ∀ n, n < sb.ninodes → n ≠ (s.icache ip).inum →
      dinodeAt sb v.disk n = dinodeAt sb s.disk n := by
    intro n hn hne
    rw [hvs.inodes, htable n hne, hu.inodes n hn (by rw [hinumT]; exact hne), hdiskT]
  refine ⟨hvs.cons, fun n hn hlive => ?_, fun j hj => ?_, hinodes, ⟨w.di, false, ?_, nofun⟩⟩
  · rcases eq_or_ne n (s.icache ip).inum with rfl | hne
    · refine absurd ?_ hlive
      show (dinodeAt sb v.disk _).type = 0
      rw [hvs.inodes, hself]
    · rw [setInode_disk] at hlive ⊢
      have hliveS : (dinodeAt sb s.disk n).type ≠ 0 := by rw [← hinodes n hn hne]; exact hlive
      have hole := h.holes n hn hliveS
      refine ⟨by rw [hinodes n hn hne]; exact hole.size_le, fun bn hbn => ?_⟩
      rw [hinodes n hn hne] at hbn
      have hsame : blockOf v.disk (dinodeAt sb v.disk n) bn =
          blockOf s.disk (dinodeAt sb s.disk n) bn := by
        calc blockOf v.disk (dinodeAt sb v.disk n) bn
            = own sb v.disk (dinodeAt sb v.disk) (n, slotOf bn) := (own_of_live hn hlive _).symm
          _ = own sb u.disk (dinodeAt sb u.disk) (n, slotOf bn) := by rw [hvs.own, hownW]
          _ = t.own sb ip (n, slotOf bn) := hu.rest n _ (by rw [hinumT]; exact hne)
          _ = s.own sb ip (n, slotOf bn) := by rw [hown]
          _ = blockOf s.disk (dinodeAt sb s.disk n) bn := by
              rw [St.own, h.table hr hv, own_of_live hn hliveS]
              rfl
      rw [hsame]
      exact hole.mapped bn hbn
  · rw [setInode_ne hj, hvs.icache, setInode_ne hj, hu.others j hj, hothersT j hj]
  · rw [setInode_same, hvs.icache, setInode_same]
    show { u.icache ip with di := w.di, valid := false } = _
    rw [ha, hslotT]

theorem acquiresleep_eq : acquiresleep ip s = if (s.icache ip).locked = true then .error .asleep
    else .ok ((), s.setInode ip { s.icache ip with locked := true }) := by
  unfold acquiresleep
  rw [bind_of_ok (inode_eq s ip)]
  split <;> rfl

theorem setInode_setInode (s : St) (ip : Fin NINODE) (v w : Inode) :
    (s.setInode ip v).setInode ip w = s.setInode ip w := by
  unfold St.setInode
  congr 1
  funext j
  by_cases hj : j = ip
  · rw [if_pos hj, if_pos hj]
  · rw [if_neg hj, if_neg hj]
    exact if_neg hj

/-- The end of `iput`: the lock is released and the reference dropped. -/
theorem Putting.done (h : Inv sb s) (hr : 0 < (s.icache ip).ref) (ht : Putting sb s t ip)
    (hu : u = t.setInode ip { t.icache ip with locked := false, ref := (t.icache ip).ref - 1 }) :
    Inv sb u := by
  obtain ⟨d, v, hslot, hvalid⟩ := ht.slot
  have hslotU : u.icache ip =
      { s.icache ip with di := d, valid := v, locked := false, ref := (s.icache ip).ref - 1 } := by
    rw [hu, setInode_same, hslot]
  have hothersU : ∀ j, j ≠ ip → u.icache j = s.icache j := by
    intro j hj
    rw [hu, setInode_ne hj, ht.others j hj]
  have hdisk : u.disk = t.disk := by rw [hu, setInode_disk]
  have hne : ∀ j, j ≠ ip → 0 < (s.icache j).ref → (s.icache j).inum ≠ (s.icache ip).inum :=
    fun j hj h1 e => hj (h.uniq j ip h1 hr e)
  refine h.update (by rw [hdisk]; exact ht.cons) (by rw [hdisk]; exact ht.holes) hothersU
    (fun j hj h1 _ => ?_) (fun _ => ?_) (fun _ j hj h1 => ?_) (fun _ h2 => ?_) (fun hl => ?_)
  · rw [hdisk]
    exact ht.inodes _ (h.cached j h1).2 (hne j hj h1)
  · rw [hslotU]
    exact h.cached ip hr
  · rw [hslotU]
    exact hne j hj h1
  · rw [hslotU] at h2 ⊢
    obtain ⟨hd, hv, hsame⟩ := hvalid h2
    rw [hdisk, hsame, hd]
    exact h.synced ip hr hv
  · rw [hslotU] at hl
    cases hl

/-- **`iput` keeps the invariant**, and never frees a free block. -/
theorem iput_spec (h : Inv sb s) (hr : 0 < (s.icache ip).ref) :
    Meets (iput sb ip s) (fun _ t => Inv sb t) (fun e => e = .asleep ∨ e.IsLog) := by
  unfold iput
  by_cases hl : (s.icache ip).locked = true
  · rw [bind_of_error (acquiresleep_eq.trans (if_pos hl))]
    exact Or.inl rfl
  · rw [bind_of_ok (acquiresleep_eq.trans (if_neg hl))]
    let t := s.setInode ip { s.icache ip with locked := true }
    have hslot : t.icache ip = { s.icache ip with locked := true } := setInode_same _ _ _
    have hkeep : Putting sb s t ip := by
      refine ⟨h.cons, h.holes, fun j hj => setInode_ne hj, fun _ _ _ => rfl,
        ⟨(s.icache ip).di, (s.icache ip).valid, hslot, fun hv => ⟨rfl, hv, rfl⟩⟩⟩
    rw [bind_of_ok (inode_eq t ip)]
    have hdone : ∀ u, Putting sb s u ip →
        Meets ((do
            releasesleep ip
            modifyInode ip fun v => { v with ref := v.ref - 1 } : M Unit) u)
          (fun _ t => Inv sb t) (fun e => e = .asleep ∨ e.IsLog) := by
      intro u hu
      refine hu.done h hr ?_
      rw [setInode_setInode, setInode_same]
    by_cases hfree : (t.icache ip).valid = true ∧ (t.icache ip).di.nlink = 0
    · rw [if_pos hfree]
      by_cases hone : (t.icache ip).ref = 1
      · rw [if_pos hone]
        refine iput_free h hr (by rw [hslot] at hfree; exact hfree.1) rfl (fun e he => Or.inr he) hdone
      · rw [if_neg hone]
        exact hdone t hkeep
    · rw [if_neg hfree]
      exact hdone t hkeep

end Xv6.Fs
