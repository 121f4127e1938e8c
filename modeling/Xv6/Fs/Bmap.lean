/-
  `bmap`: finding the disk block of a file block, and allocating it on demand.

  While the inode in slot `ip` is being worked on, its in-memory copy may be ahead of the disk; the
  inode table that counts is `St.table`: the copy for that inode, the disk for all others.  With
  it, `St.own` says who holds which block.

  * `Grown s t ip`  — from `s` to `t` only EMPTY slots were filled, with zeroed blocks; whatever was
    held is still held, with its contents.
  * `Took`          — exactly one empty slot was filled; `attach_addr` and `attach_word` show it for
    the two kinds of slot, `addrs[k]` and a word of the indirect block.
  * `bmap_spec`     — the outcome of `bmap`, with the blocks and the log entries it needs.
-/
import Xv6.Fs.Alloc

namespace Xv6.Fs

open ByteBuf Outcome Ownership

/-! ## The inode table during an operation -/

section Table

variable (sb : Superblock) (s : St) (ip : Fin NINODE)

/-- The inode table while the inode in slot `ip` is being worked on. -/
def St.table (n : Nat) : Dinode :=
  if n = (s.icache ip).inum then (s.icache ip).di else dinodeAt sb s.disk n

/-- Who holds which block, by that table. -/
def St.own : Nat × Slot → Nat := Fs.own sb s.disk (s.table sb ip)

/-- A slot of the inode being worked on. -/
abbrev St.key (k : Slot) : Nat × Slot := ((s.icache ip).inum, k)

/-- The slot `ip` holds an allocated inode of a consistent file system. -/
structure Working : Prop where
  inum_lt : (s.icache ip).inum < sb.ninodes
  live : (s.icache ip).di.type ≠ 0
  cons : Consistent sb s.disk (s.table sb ip)

end Table

variable {sb : Superblock} {s t u : St} {ip : Fin NINODE}

theorem table_self : s.table sb ip (s.icache ip).inum = (s.icache ip).di := if_pos rfl

theorem table_ne {n : Nat} (h : n ≠ (s.icache ip).inum) : s.table sb ip n = dinodeAt sb s.disk n := if_neg h

/-- The pointers of the inode being worked on. -/
theorem Working.own_key (h : Working sb s ip) (k : Slot) :
    s.own sb ip (s.key ip k) = ptr s.disk (s.icache ip).di k := by
  have hlive : (s.table sb ip (s.icache ip).inum).type ≠ 0 := by rw [table_self]; exact h.live
  rw [St.own, own_of_live h.inum_lt hlive, table_self]

variable {k : Nat × Slot}

theorem Working.held (h : Working sb s ip) (hk : s.own sb ip k ≠ 0) :
    sb.IsData (s.own sb ip k) ∧ bit sb s.disk (s.own sb ip k) = true :=
  ⟨h.cons.excl.inArea k hk, h.cons.excl.used_own hk⟩

/-- A file block mapped through the indirect block needs one. -/
theorem Working.indirect_of_word (h : Working sb s ip) {j : Nat}
    (hj : s.own sb ip (s.key ip (.ind j)) ≠ 0) : s.own sb ip (s.key ip .indirect) ≠ 0 := by
  rw [h.own_key] at hj ⊢
  exact fun h0 => hj (if_pos (toNat_eq_zero.mp h0))

/-! ## Filling empty slots -/

/-- What every step of an operation on the inode in slot `ip` leaves alone: the other inodes, and
    the blocks that are held. -/
structure Frame (sb : Superblock) (s t : St) (ip : Fin NINODE) : Prop where
  work : Working sb t ip
  slot : ∃ a, t.icache ip = { s.icache ip with di := { (s.icache ip).di with addrs := a } }
  others : ∀ j, j ≠ ip → t.icache j = s.icache j
  inodes : ∀ n, n < sb.ninodes → dinodeAt sb t.disk n = dinodeAt sb s.disk n
  keep : ∀ k, s.own sb ip k ≠ 0 → t.own sb ip k = s.own sb ip k

theorem Frame.refl (h : Working sb s ip) : Frame sb s s ip where
  work := h
  slot := ⟨_, rfl⟩
  others := fun _ _ => rfl
  inodes := fun _ _ => rfl
  keep := fun _ _ => rfl

theorem Frame.trans (h : Frame sb s t ip) (h' : Frame sb t u ip) : Frame sb s u ip where
  work := h'.work
  slot := by
    obtain ⟨a, ha⟩ := h.slot
    obtain ⟨b, hb⟩ := h'.slot
    exact ⟨b, by rw [hb, ha]⟩
  others := fun j hj => (h'.others j hj).trans (h.others j hj)
  inodes := fun n hn => (h'.inodes n hn).trans (h.inodes n hn)
  keep := fun k hk => by
    have h1 := h.keep k hk
    rw [h'.keep k (by rw [h1]; exact hk), h1]

theorem Frame.inum (h : Frame sb s t ip) : (t.icache ip).inum = (s.icache ip).inum := by
  obtain ⟨a, ha⟩ := h.slot
  rw [ha]

theorem Frame.key (h : Frame sb s t ip) (k : Slot) : t.key ip k = s.key ip k := by
  rw [St.key, h.inum]

/-- From `s` to `t` only empty slots of the inode were filled, with zeroed blocks. -/
structure Grown (sb : Superblock) (s t : St) (ip : Fin NINODE) : Prop extends Frame sb s t ip where
  contents : ∀ k, k.2 ≠ Slot.indirect → s.own sb ip k ≠ 0 →
    t.disk (s.own sb ip k) = s.disk (s.own sb ip k)
  zeroed : ∀ k, k.2 ≠ Slot.indirect → s.own sb ip k = 0 → t.own sb ip k ≠ 0 →
    t.disk (t.own sb ip k) = zeroBlock

theorem Grown.refl (h : Working sb s ip) : Grown sb s s ip where
  toFrame := Frame.refl h
  contents := fun _ _ _ => rfl
  zeroed := fun _ _ h0 h1 => absurd h0 h1

theorem Grown.trans (h : Grown sb s t ip) (h' : Grown sb t u ip) : Grown sb s u ip where
  toFrame := h.toFrame.trans h'.toFrame
  contents := fun k hi hk => by
    have h1 := h.keep k hk
    have h2 := h'.contents k hi (by rw [h1]; exact hk)
    rw [h1] at h2
    rw [h2, h.contents k hi hk]
  zeroed := fun k hi h0 h1 => by
    by_cases ht : t.own sb ip k = 0
    · exact h'.zeroed k hi ht h1
    · rw [h'.keep k ht, h'.contents k hi ht, h.zeroed k hi h0 ht]

variable {b : Nat}

/-- Taking a free block and storing it in an empty slot keeps the file system consistent. -/
theorem Consistent.take {d d' : Disk} {ino ino' : Nat → Dinode}
    (h : Consistent sb d ino) (hb : sb.IsData b) (hfree : bit sb d b = false)
    (hk : own sb d ino k = 0) (ho : ∀ l, own sb d' ino' l = if l = k then b else own sb d ino l)
    (hbit : ∀ c, c < sb.size → bit sb d' c = (bit sb d c || decide (b = c))) : Consistent sb d' ino' where
  excl := by
    refine h.excl.take hb (by rw [hfree]; decide) hk ho fun c hc => ?_
    rw [hbit c hc.2, Bool.or_eq_true, decide_eq_true_eq]
    constructor
    · rintro (h1 | h1)
      · exact Or.inr h1
      · exact Or.inl h1.symm
    · rintro (h1 | h1)
      · exact Or.inr h1.symm
      · exact Or.inl h1
  metadata := fun c hc => by
    have hlt : c < sb.size := by have h1 := hb.1; have h2 := hb.2; omega
    rw [hbit c hlt, h.metadata c hc]
    rfl

/-- Exactly one empty slot was filled. -/
structure Took (sb : Superblock) (s t : St) (ip : Fin NINODE) (k : Slot) (b : Nat) : Prop where
  grown : Grown sb s t ip
  ne : b ≠ 0
  own : ∀ l, t.own sb ip l = if l = s.key ip k then b else s.own sb ip l
  free : s.free sb = t.free sb + 1
  logged : Logged s t 3

section

variable (hw : Working sb s ip)

include hw

/-- Filling an empty slot, given what the new table of pointers looks like. -/
theorem Took.of_own {k : Slot} (hg : Grab sb s t b)
    (hslot : ∃ a, u.icache ip = { s.icache ip with di := { (s.icache ip).di with addrs := a } })
    (hothers : ∀ j, j ≠ ip → u.icache j = s.icache j)
    (hinodes : ∀ n, n < sb.ninodes → dinodeAt sb u.disk n = dinodeAt sb s.disk n)
    (hk : s.own sb ip (s.key ip k) = 0)
    (hown : ∀ l, u.own sb ip l = if l = s.key ip k then b else s.own sb ip l)
    (hbit : ∀ c, c < sb.size → bit sb u.disk c = bit sb t.disk c)
    (hdata : ∀ l, l.2 ≠ Slot.indirect → s.own sb ip l ≠ 0 →
      u.disk (s.own sb ip l) = t.disk (s.own sb ip l))
    (hzero : k ≠ Slot.indirect → u.disk b = zeroBlock) (hlog : Logged t u 1) :
    Took sb s u ip k b where
  grown := by
    obtain ⟨a, ha⟩ := hslot
    have hcons : Consistent sb u.disk (u.table sb ip) :=
      hw.cons.take hg.data hg.free hk hown fun c hc => by rw [hbit c hc]; exact hg.bit hc
    refine ⟨⟨⟨by rw [ha]; exact hw.inum_lt, by rw [ha]; exact hw.live, hcons⟩, ⟨a, ha⟩, hothers,
      hinodes, fun l hl => ?_⟩, fun l hi hl => ?_, fun l hi h0 h1 => ?_⟩
    · rw [hown l, if_neg]
      rintro rfl
      exact hl hk
    · rw [hdata l hi hl]
      exact hg.used (hw.held hl).1 (hw.held hl).2
    · rw [hown l] at h1 ⊢
      split at h1
      · rename_i e
        rw [if_pos e]
        exact hzero (by rw [e] at hi; exact hi)
      · exact absurd h0 h1
  ne := hg.data.pos
  own := hown
  free := by
    have hsame : u.free sb = t.free sb := by
      unfold St.free
      congr 1
      exact Finset.filter_congr fun c hc => by rw [hbit c (Finset.mem_range.mp hc)]
    rw [hg.card, hsame]
  logged := hg.logged.trans hlog

/-- The pointers of an inode other than the one being worked on, after a `balloc` and a change that
    leaves other inodes and their indirect blocks alone. -/
theorem own_other {n : Nat} (hn : n ≠ (s.icache ip).inum) (hinum : (u.icache ip).inum = (s.icache ip).inum)
    (hinodes : ∀ m, m < sb.ninodes → dinodeAt sb u.disk m = dinodeAt sb s.disk m)
    (hind : ∀ c, sb.IsData c → bit sb s.disk c = true → c ≠ s.own sb ip (s.key ip .indirect) →
      u.disk c = s.disk c) (k : Slot) : u.own sb ip (n, k) = s.own sb ip (n, k) := by
  by_cases hlt : n < sb.ninodes
  · have htable : u.table sb ip n = s.table sb ip n := by
      rw [table_ne (by rw [hinum]; exact hn), table_ne hn, hinodes n hlt]
    unfold St.own Fs.own
    simp only [htable]
    split
    · rename_i hlive
      cases k with
      | addr i => rfl
      | ind j =>
        simp only [ptr]
        split
        · rfl
        · rename_i h0
          obtain ⟨h1, h2⟩ := hw.cons.indirect_used hlive.1 hlive.2 h0
          rw [hind _ h1 h2]
          -- its indirect block is not that of the inode being worked on
          rw [← own_indirect (d := s.disk) hlive.1 hlive.2]
          intro e
          have hne : Fs.own sb s.disk (s.table sb ip) (n, Slot.indirect) ≠ 0 := by
            rw [own_indirect hlive.1 hlive.2]
            exact toNat_ne_zero.mpr h0
          exact hn (Prod.mk.inj (hw.cons.excl.inj _ _ hne e)).1
    · rfl
  · unfold St.own Fs.own
    rw [if_neg (fun h => hlt h.1), if_neg (fun h => hlt h.1)]

/-- The pointers after `addrs[k] = b`, in a state with the same blocks in use.  A new indirect block has no entries. -/
theorem own_setAddr {k : Fin (NDIRECT + 1)} (hb : b < 2 ^ 32)
    (hslot : u.icache ip = { s.icache ip with di := { (s.icache ip).di with
      addrs := fun l => if l = k then UInt32.ofNat b else (s.icache ip).di.addrs l } })
    (hinodes : ∀ n, n < sb.ninodes → dinodeAt sb u.disk n = dinodeAt sb s.disk n)
    (hdata : ∀ c, sb.IsData c → bit sb s.disk c = true → u.disk c = s.disk c)
    (hzero : b ≠ 0 → u.disk b = zeroBlock) (l : Nat × Slot) :
    u.own sb ip l = if l = s.key ip (.addr k) then b
      else if k = Fin.last NDIRECT ∧ l.1 = (s.icache ip).inum ∧ l.2.isWord then 0 else s.own sb ip l := by
  have hword : (UInt32.ofNat b).toNat = b := UInt32.toNat_ofNat_of_lt' hb
  have hinum : (u.icache ip).inum = (s.icache ip).inum := by rw [hslot]
  obtain ⟨n, sl⟩ := l
  by_cases hn : n = (s.icache ip).inum
  · subst hn
    have hself : u.own sb ip ((s.icache ip).inum, sl) = ptr u.disk (u.icache ip).di sl := by
      rw [St.own, ← hinum, own_of_live (by rw [hinum]; exact hw.inum_lt)
        (by rw [table_self, hslot]; exact hw.live), table_self]
    rw [hself, show s.own sb ip ((s.icache ip).inum, sl) = _ from hw.own_key sl]
    cases sl with
    | addr i =>
      by_cases hi : i = k
      · subst hi
        simp only [if_true, ptr, hslot, hword]
      · rw [if_neg fun e => hi (Slot.addr.inj (Prod.mk.inj e).2), if_neg fun e => Bool.false_ne_true e.2.2]
        simp only [ptr, hslot, if_neg hi]
    | ind j =>
      rw [if_neg fun e => by cases e]
      by_cases hk : k = Fin.last NDIRECT
      · have hnew : (u.icache ip).di.indirect = UInt32.ofNat b := by
          rw [hslot]
          exact if_pos hk.symm
        rw [if_pos ⟨hk, rfl, rfl⟩]
        simp only [ptr, hnew]
        split
        · rfl
        · rename_i h0
          rw [hword, hzero (by rintro rfl; exact h0 rfl), word_zeroBlock]
      · have hold : (u.icache ip).di.indirect = (s.icache ip).di.indirect := by
          rw [hslot]
          exact if_neg (Ne.symm hk)
        rw [if_neg fun e => hk e.1]
        simp only [ptr, hold]
        split
        · rfl
        · rename_i h0
          have hheld := hw.cons.indirect_used hw.inum_lt (by rw [table_self]; exact hw.live)
            (by rw [table_self]; exact h0)
          rw [table_self] at hheld
          rw [hdata _ hheld.1 hheld.2]
  · rw [if_neg fun e => hn (Prod.mk.inj e).1, if_neg fun e => hn e.2.1]
    exact own_other hw hn hinum hinodes (fun c h1 h2 _ => hdata c h1 h2) sl

/-- `balloc`, then store the block number in `addrs[k]`. -/
theorem attach_addr (hg : Grab sb s t b) {k : Fin (NDIRECT + 1)}
    (hk : s.own sb ip (s.key ip (.addr k)) = 0) : Took sb s (t.withAddr ip k b) ip (.addr k) b := by
  generalize hset : t.withAddr ip k b = u
  have hslot : u.icache ip = { s.icache ip with di := { (s.icache ip).di with
      addrs := fun l => if l = k then UInt32.ofNat b else (s.icache ip).di.addrs l } } := by
    rw [← hset, withAddr_same, hg.icache]
  have hothers : ∀ j, j ≠ ip → u.icache j = s.icache j := by
    intro j hj
    rw [← hset, withAddr_ne hj, hg.icache]
  have hdisk : u.disk = t.disk := by rw [← hset, withAddr_disk]
  have hinodes : ∀ n, n < sb.ninodes → dinodeAt sb u.disk n = dinodeAt sb s.disk n := by
    intro n hn
    rw [hdisk, hg.dinodeAt hn]
  -- the new table of pointers: one more entry
  have hown : ∀ l, u.own sb ip l = if l = s.key ip (.addr k) then b else s.own sb ip l := by
    intro l
    rw [own_setAddr hw hg.data.lt_word hslot hinodes (fun c h1 h2 => by rw [hdisk]; exact hg.used h1 h2)
      fun _ => by rw [hdisk, hg.zero]]
    split
    · rfl
    split
    · -- there was no indirect block
      rename_i hnew
      obtain ⟨rfl, hn, hsl⟩ := hnew
      obtain ⟨n, sl⟩ := l
      cases hn
      cases sl with
      | addr i => cases hsl
      | ind j =>
        by_contra hne
        exact hw.indirect_of_word (Ne.symm hne) hk
    · rfl
  refine Took.of_own hw hg ⟨_, hslot⟩ hothers hinodes hk hown (fun c _ => by rw [hdisk])
    (fun l _ _ => by rw [hdisk]) (fun _ => by rw [hdisk, hg.zero]) ?_
  rw [← hset]
  exact (logged_setInode t ip _).mono (by decide)

/-- `balloc`, then store the block number in word `j` of the indirect block and `log_write` that. -/
theorem attach_word {j : Nat} (hg : Grab sb s t b) (hj : j < NINDIRECT)
    (hi : s.own sb ip (s.key ip .indirect) ≠ 0) (hk : s.own sb ip (s.key ip (.ind j)) = 0) :
    Took sb s (t.put (s.own sb ip (s.key ip .indirect))
      (setWord (s.disk (s.own sb ip (s.key ip .indirect))) j b)) ip (.ind j) b := by
  obtain ⟨hidata, hibit⟩ := hw.held hi
  have hiaddr : s.own sb ip (s.key ip .indirect) = (s.icache ip).di.indirect.toNat := hw.own_key _
  have hine : (s.icache ip).di.indirect ≠ 0 := by rw [hiaddr] at hi; exact toNat_ne_zero.mp hi
  generalize hia : s.own sb ip (s.key ip .indirect) = iaddr at *
  have hbi : b ≠ iaddr := by
    rintro rfl
    rw [hg.free] at hibit
    cases hibit
  have hinodes : ∀ n, n < sb.ninodes →
      dinodeAt sb (updBlk t.disk iaddr (setWord (s.disk iaddr) j b)) n = dinodeAt sb s.disk n := by
    intro n hn
    rw [dinodeAt_updBlk_ne (hidata.ne_iblock hn), hg.dinodeAt hn]
  have hother : ∀ c, sb.IsData c → bit sb s.disk c = true → c ≠ iaddr →
      updBlk t.disk iaddr (setWord (s.disk iaddr) j b) c = s.disk c := by
    intro c h1 h2 h3
    rw [updBlk_ne h3, hg.used h1 h2]
  have hself : ∀ sl, (t.put iaddr (setWord (s.disk iaddr) j b)).own sb ip (s.key ip sl) =
      ptr (updBlk t.disk iaddr (setWord (s.disk iaddr) j b)) (s.icache ip).di sl := by
    intro sl
    have hic : (t.put iaddr (setWord (s.disk iaddr) j b)).icache ip = s.icache ip := by
      rw [put_icache, hg.icache]
    rw [St.own, St.key, ← hic, own_of_live (by rw [hic]; exact hw.inum_lt)
      (by rw [table_self, hic]; exact hw.live), table_self, hic, put_disk]
  have hown : ∀ l, (t.put iaddr (setWord (s.disk iaddr) j b)).own sb ip l =
      if l = s.key ip (.ind j) then b else s.own sb ip l := by
    rintro ⟨n, sl⟩
    by_cases hn : n = (s.icache ip).inum
    · subst hn
      rw [hself sl, show s.own sb ip ((s.icache ip).inum, sl) = _ from hw.own_key sl]
      cases sl with
      | addr l =>
        rw [if_neg nofun]
        rfl
      | ind i =>
        simp only [ptr, if_neg hine]
        rw [← hiaddr, updBlk_same, word_setWord _ hj hg.data.lt_word]
        by_cases hij : i = j
        · rw [if_pos hij, if_pos (by rw [hij])]
        · rw [if_neg hij, if_neg fun e => hij (Slot.ind.inj (Prod.mk.inj e).2)]
    · rw [if_neg fun e => hn (Prod.mk.inj e).1]
      refine own_other hw hn (by rw [put_icache, hg.icache]) hinodes (fun c h1 h2 h3 => ?_) sl
      exact hother c h1 h2 (by rw [← hia]; exact h3)
  refine Took.of_own hw hg ⟨(s.icache ip).di.addrs, by rw [put_icache, hg.icache]⟩
    (fun l _ => by rw [put_icache, hg.icache]) hinodes hk hown (fun c hc => ?_) (fun l hl h0 => ?_)
    (fun _ => ?_) (logged_put t _ _)
  · exact bit_updBlk_ne (hidata.ne_bblock hc)
  · refine updBlk_ne fun e => hl ?_
    rw [← hia] at e
    rw [hw.cons.excl.inj _ _ h0 e]
  · exact (updBlk_ne hbi).trans hg.zero

end

/-! ## `bmap` -/

variable {bn : Nat}

theorem slotOf_direct (h : bn < NDIRECT) : slotOf bn = .addr ⟨bn, Nat.lt_succ_of_lt h⟩ :=
  dif_pos h

theorem slotOf_indirect (h : ¬ bn < NDIRECT) : slotOf bn = .ind (bn - NDIRECT) := dif_neg h

/-- How many blocks `bmap` has to allocate to map file block `bn`. -/
def St.need1 (sb : Superblock) (s : St) (ip : Fin NINODE) (bn : Nat) : Nat :=
  (if s.own sb ip (s.key ip (slotOf bn)) = 0 then 1 else 0) +
    (if NDIRECT ≤ bn ∧ s.own sb ip (s.key ip .indirect) = 0 then 1 else 0)

theorem need1_direct (h : bn < NDIRECT) (hm : s.own sb ip (s.key ip (slotOf bn)) = 0) : s.need1 sb ip bn = 1 := by
  unfold St.need1
  rw [if_pos hm, if_neg fun hc => by omega]

theorem need1_indirect (h : ¬ bn < NDIRECT) (hm : s.own sb ip (s.key ip (slotOf bn)) = 0) :
    s.need1 sb ip bn = 1 + (if s.own sb ip (s.key ip .indirect) = 0 then 1 else 0) := by
  unfold St.need1
  rw [if_pos hm]
  simp only [show NDIRECT ≤ bn by omega, true_and]

/-- A direct slot that is empty. -/
theorem Working.addr_zero (hw : Working sb s ip) (h : bn < NDIRECT) (hm : s.own sb ip (s.key ip (slotOf bn)) = 0) :
    (s.icache ip).di.addrs ⟨bn, Nat.lt_succ_of_lt h⟩ = 0 := by
  rw [hw.own_key, slotOf_direct h] at hm
  exact toNat_eq_zero.mp hm

/-- A word of the indirect block that is empty. -/
theorem Working.word_zero (hw : Working sb s ip) {j : Nat} (hi : (s.icache ip).di.indirect.toNat ≠ 0)
    (hm : s.own sb ip (s.key ip (.ind j)) = 0) : word (s.disk (s.icache ip).di.indirect.toNat) j = 0 := by
  rw [hw.own_key] at hm
  simp only [ptr] at hm
  rw [if_neg (toNat_ne_zero.mp hi)] at hm
  exact hm

/-- File block `bn` is mapped in `t`, at block `a`, and nothing else has changed on the way from
    `s`. -/
structure Mapped (sb : Superblock) (s t : St) (ip : Fin NINODE) (bn a : Nat) : Prop where
  grown : Grown sb s t ip
  here : t.own sb ip (s.key ip (slotOf bn)) = a
  ne : a ≠ 0
  only : ∀ l, l ≠ s.key ip (slotOf bn) → ¬ (l = s.key ip .indirect ∧ NDIRECT ≤ bn) →
    t.own sb ip l = s.own sb ip l
  indirect : NDIRECT ≤ bn → t.own sb ip (s.key ip .indirect) ≠ 0
  free : s.free sb = t.free sb + s.need1 sb ip bn
  logged : Logged s t (3 * s.need1 sb ip bn)

theorem need1_mapped (hw : Working sb s ip) (hm : s.own sb ip (s.key ip (slotOf bn)) ≠ 0) : s.need1 sb ip bn = 0 := by
  unfold St.need1
  rw [if_neg hm, if_neg]
  rintro ⟨h1, h2⟩
  rw [slotOf_indirect (by omega)] at hm
  exact hw.indirect_of_word hm h2

theorem Working.mapped (hw : Working sb s ip) (hm : s.own sb ip (s.key ip (slotOf bn)) ≠ 0) :
    Mapped sb s s ip bn (s.own sb ip (s.key ip (slotOf bn))) := by
  have hneed := need1_mapped hw hm
  refine ⟨Grown.refl hw, rfl, hm, fun _ _ _ => rfl, fun h => ?_, by rw [hneed]; rfl, by rw [hneed]; exact Logged.refl s⟩
  rw [slotOf_indirect (by omega)] at hm
  exact hw.indirect_of_word hm

variable {a : Nat}

/-- The empty slot of a direct block was filled. -/
theorem Took.direct (h : bn < NDIRECT) (hm : s.own sb ip (s.key ip (slotOf bn)) = 0)
    (htook : Took sb s t ip (.addr ⟨bn, Nat.lt_succ_of_lt h⟩) b) : Mapped sb s t ip bn b := by
  have hneed := need1_direct h hm
  refine ⟨htook.grown, ?_, htook.ne, fun l hl _ => ?_, fun hc => by omega, ?_, ?_⟩
  · rw [slotOf_direct h, htook.own, if_pos rfl]
  · rw [slotOf_direct h] at hl
    rw [htook.own, if_neg hl]
  · rw [hneed]; exact htook.free
  · rw [hneed]; exact htook.logged

/-- The inode has the indirect block `a` in `t`, taken if it was not there. -/
structure Indirect (sb : Superblock) (s t : St) (ip : Fin NINODE) (a : Nat) : Prop where
  grown : Grown sb s t ip
  ne : a ≠ 0
  own : ∀ l, t.own sb ip l = if l = s.key ip .indirect then a else s.own sb ip l
  free : s.free sb = t.free sb + (if s.own sb ip (s.key ip .indirect) = 0 then 1 else 0)
  logged : Logged s t (if s.own sb ip (s.key ip .indirect) = 0 then 3 else 0)

theorem Took.toIndirect (htook : Took sb s t ip .indirect a) (h0 : s.own sb ip (s.key ip .indirect) = 0) :
    Indirect sb s t ip a :=
  ⟨htook.grown, htook.ne, htook.own, by rw [if_pos h0]; exact htook.free, by rw [if_pos h0]; exact htook.logged⟩

theorem Indirect.refl (hw : Working sb s ip) (h0 : s.own sb ip (s.key ip .indirect) ≠ 0) :
    Indirect sb s s ip (s.own sb ip (s.key ip .indirect)) := by
  refine ⟨Grown.refl hw, h0, fun l => ?_, by rw [if_neg h0]; rfl, by rw [if_neg h0]; exact Logged.refl s⟩
  split
  · rename_i e
    rw [e]
  · rfl

/-- An empty word of the indirect block was filled. -/
theorem Indirect.mapped (hi : Indirect sb s t ip a) (h : ¬ bn < NDIRECT) (hm : s.own sb ip (s.key ip (slotOf bn)) = 0)
    (htook : Took sb t u ip (.ind (bn - NDIRECT)) b) : Mapped sb s u ip bn b := by
  have hneed := need1_indirect h hm
  have hkey := hi.grown.key
  refine ⟨hi.grown.trans htook.grown, ?_, htook.ne, fun l h1 h2 => ?_, fun _ => ?_, ?_, ?_⟩
  · rw [slotOf_indirect h, ← hkey, htook.own, if_pos rfl]
  · rw [slotOf_indirect h, ← hkey] at h1
    rw [htook.own, if_neg h1, hi.own, if_neg fun e => h2 ⟨e, by omega⟩]
  · rw [htook.own, if_neg (by rw [hkey]; nofun), hi.own, if_pos rfl]
    exact hi.ne
  · rw [hneed, hi.free, htook.free]
    omega
  · refine (hi.logged.trans htook.logged).mono ?_
    rw [hneed]
    split <;> omega

/-- A block that is mapped is returned, and nothing changes. -/
theorem bmap_mapped (hw : Working sb s ip) (hbn : bn < MAXFILE) (hm : s.own sb ip (s.key ip (slotOf bn)) ≠ 0) :
    bmap sb ip bn s = .ok (s.own sb ip (s.key ip (slotOf bn)), s) := by
  have hinode : inode ip s = .ok (s.icache ip, s) := rfl
  by_cases h : bn < NDIRECT
  · rw [hw.own_key, slotOf_direct h] at hm ⊢
    simp only [ptr] at hm ⊢
    unfold bmap
    rw [dif_pos h, bind_of_ok hinode, if_neg (toNat_ne_zero.mp hm)]
    rfl
  · have hlt : bn - NDIRECT < NINDIRECT := by
      simp only [MAXFILE] at hbn
      omega
    have hi : (s.icache ip).di.indirect ≠ 0 := by
      rw [slotOf_indirect h] at hm
      have := hw.indirect_of_word hm
      rw [hw.own_key] at this
      exact toNat_ne_zero.mp this
    have hind : bmapIndirect sb ip s = .ok ((s.icache ip).di.indirect.toNat, s) := by
      unfold bmapIndirect
      rw [bind_of_ok hinode, if_neg hi]
      rfl
    rw [hw.own_key, slotOf_indirect h] at hm ⊢
    simp only [ptr, if_neg hi] at hm ⊢
    unfold bmap
    rw [dif_neg h, if_pos hlt, bind_of_ok hind, bind_of_ok (bread_eq s _), if_neg hm]
    rfl

/-- The outcome of getting hold of the indirect block. -/
theorem bmapIndirect_spec (hw : Working sb s ip) : Meets (bmapIndirect sb ip s)
      (fun a t => Indirect sb s t ip a)
      (fun e => s.own sb ip (s.key ip .indirect) = 0 ∧
        ((e = .outOfBlocks ∧ s.free sb = 0) ∨ LogStop s 2 e)) := by
  have hkey : s.own sb ip (s.key ip .indirect) = (s.icache ip).di.indirect.toNat := hw.own_key _
  unfold bmapIndirect
  rw [bind_of_ok (inode_eq s ip)]
  by_cases hi : (s.icache ip).di.indirect = 0
  · have h0 : s.own sb ip (s.key ip .indirect) = 0 := by rw [hkey, hi]; rfl
    rw [if_pos hi]
    refine (balloc_spec hw.cons.metadata).bind (fun b t hg => ?_) fun e he => ⟨h0, he⟩
    have htook := attach_addr hw hg h0
    rw [bind_of_ok (setAddr_eq t ip _ b)]
    exact htook.toIndirect h0
  · have h0 : s.own sb ip (s.key ip .indirect) ≠ 0 := by rw [hkey]; exact toNat_ne_zero.mpr hi
    rw [if_neg hi, ← hkey]
    exact Indirect.refl hw h0

/-- **The outcome of `bmap`**, with what it costs: `need1` blocks, and at most three log entries for
    each of them. -/
theorem bmap_spec (hw : Working sb s ip) (hbn : bn < MAXFILE) :
    Meets (bmap sb ip bn s) (fun a t => Mapped sb s t ip bn a)
      (fun e => (e = .outOfBlocks ∧ s.free sb < s.need1 sb ip bn) ∨
        LogStop s (3 * s.need1 sb ip bn) e) := by
  by_cases hm : s.own sb ip (s.key ip (slotOf bn)) = 0
  case neg =>
    rw [bmap_mapped hw hbn hm]
    exact hw.mapped hm
  case pos =>
    by_cases h : bn < NDIRECT
    · have hneed := need1_direct h hm
      unfold bmap
      rw [dif_pos h, bind_of_ok (inode_eq s ip), if_pos (hw.addr_zero h hm), hneed]
      refine (balloc_spec hw.cons.metadata).bind (fun b t hg => ?_) fun e he => ?_
      · rw [slotOf_direct h] at hm
        have htook := attach_addr hw hg hm
        rw [bind_of_ok (setAddr_eq t ip _ b)]
        exact htook.direct h (by rw [slotOf_direct h]; exact hm)
      · rcases he with ⟨h1, h2⟩ | he
        · exact Or.inl ⟨h1, by omega⟩
        · exact Or.inr (he.mono (by decide))
    · have hlt : bn - NDIRECT < NINDIRECT := by
        simp only [MAXFILE] at hbn
        omega
      have hneed := need1_indirect h hm
      unfold bmap
      rw [dif_neg h, if_pos hlt]
      refine (bmapIndirect_spec hw).bind (fun a t ht => ?_) fun e he => ?_
      · have ⟨hgrown, ha, hown, hfree, hlog⟩ := ht
        have hti : t.own sb ip (t.key ip .indirect) = a := by rw [hgrown.key, hown, if_pos rfl]
        have htj : t.own sb ip (t.key ip (.ind (bn - NDIRECT))) = 0 := by
          rw [hgrown.key, hown, if_neg nofun, ← slotOf_indirect h, hm]
        have hword : word (t.disk a) (bn - NDIRECT) = 0 := by
          have haddr : a = (t.icache ip).di.indirect.toNat := hti.symm.trans (hgrown.work.own_key _)
          rw [haddr] at ha ⊢
          exact hgrown.work.word_zero ha htj
        rw [bind_of_ok (bread_eq t a), if_pos hword]
        refine (balloc_spec hgrown.work.cons.metadata).bind (fun b u hg => ?_) fun e he => ?_
        · have htook := attach_word hgrown.work hg hlt (by rw [hti]; exact ha) htj
          rw [hti] at htook
          refine (logWrite_spec u _ _).bind (fun _ v hv => ?_) fun e he => Or.inr ?_
          · subst hv
            exact ht.mapped h hm htook
          · refine ((he.after hg.logged).after hlog).mono ?_
            rw [hneed]
            split <;> omega
        · rcases he with ⟨h1, h2⟩ | he
          · refine Or.inl ⟨h1, ?_⟩
            rw [hneed, hfree, h2]
            omega
          · refine Or.inr ((he.after hlog).mono ?_)
            rw [hneed]
            split <;> omega
      · obtain ⟨h0, he⟩ := he
        rw [hneed, if_pos h0]
        rcases he with ⟨h1, h2⟩ | he
        · exact Or.inl ⟨h1, by omega⟩
        · exact Or.inr (he.mono (by decide))

end Xv6.Fs
