/-
  Does a transaction fit in the log?  The three pieces of arithmetic that have to agree:

      begin_op    admits when  lh.n + (outstanding + 1) * MAXOPBLOCKS <= LOGSIZE
      log_write   panics when  lh.n >= LOGSIZE  or  lh.n >= log.size - 1
      mkfs        nlog = LOGSIZE blocks, the header block INCLUDED

  1. **The header is exact** (`Exact`) — `lh` lists, without repetition, the distinct blocks logged
     since the last commit: absorption loses nothing and adds nothing twice.
  2. **Reservation** (`Reserved`) — for operations that log at most `MAXOPBLOCKS` distinct blocks
     each, what is logged plus what running operations may still log never exceeds `LOGSIZE`; so
     the in-memory header never outgrows its array (`header_le_LOGSIZE`).
  3. **The shortfall** — the log `mkfs` lays out has `LOGSIZE - 1` data blocks, ONE LESS than
     admission counts on.  Three operations that use up their shares reach the panic
     (`admission_insufficient`); two that pass the unlocked test together make `write_log` run past
     the end of the log.  Operations that leave one block of their share unused are safe
     (`log_room`).
  4. **The books balance** (`log_balanced`), whatever the operations log.
-/
import Mathlib
import Xv6.LogOps

namespace Xv6.LogOps

open Machines

/-! ## The header is exactly what was logged since the last commit -/

/-- The distinct blocks logged since the last commit. -/
def St.opened (s : St) : Finset Nat :=
  ((s.logged.filter (·.epoch = s.commits.length)).map (·.block)).toFinset

/-- The distinct blocks logged by operation `id`. -/
def St.own (s : St) (id : Nat) : Finset Nat :=
  ((s.logged.filter (·.op = id)).map (·.block)).toFinset

variable {s : St} {b : Nat}

theorem mem_opened : b ∈ s.opened ↔ ∃ e ∈ s.logged, e.epoch = s.commits.length ∧ e.block = b := by
  simp [St.opened, and_assoc]

variable {id : Nat}

theorem mem_own : b ∈ s.own id ↔ ∃ e ∈ s.logged, e.op = id ∧ e.block = b := by
  simp [St.own, and_assoc]

variable {t : St}

theorem opened_congr (hl : t.logged = s.logged) (hc : t.commits = s.commits) : t.opened = s.opened := by
  rw [St.opened, St.opened, hl, hc]

/-- Past the first test of `commit()`. -/
def St.Beyond (s : St) : Prop := ∃ p c, s.pc p = .commit c ∧ c ≠ .start

structure Exact (s : St) : Prop where
  nodup : s.log.lh.Nodup
  same : ¬ s.Beyond → s.log.lh.toFinset = s.opened
  erased : ∀ p c, s.pc p = .commit c → c = .eraseHead ∨ c = .fin → s.log.lh = []

theorem exact_init (start size : Nat) : Exact (St.init start size) where
  nodup := List.nodup_nil
  same := fun _ => rfl
  erased := fun _ _ h => nomatch h

/-- The length of the header is the number of distinct blocks logged since the last commit. -/
theorem Exact.length (h : Exact s) (hb : ¬ s.Beyond) : s.log.lh.length = s.opened.card := by
  rw [← h.same hb, List.toFinset_card_of_nodup h.nodup]

variable {p : Nat}

theorem Inv.not_beyond (h : Inv s) (hp : (s.pc p).opId = some id) : ¬ s.Beyond := by
  rintro ⟨q, c, hq, -⟩
  have := h.not_commit hp q
  rw [hq] at this
  cases this

/-- Nothing is logged under the present commit number once `commit()` is past its first test. -/
theorem Inv.opened_beyond (h : Inv s) (hb : s.Beyond) : s.opened = ∅ := by
  obtain ⟨p, c, hp, hc⟩ := hb
  refine Finset.eq_empty_iff_forall_notMem.mpr fun b hbm => ?_
  obtain ⟨e, he, hep, -⟩ := mem_opened.mp hbm
  have := h.past p c (by rw [hp]; rfl) hc e he
  omega

/-- Moving processes outside `commit()` does not matter to the header. -/
theorem Exact.frame (h : Exact s) (hco : ∀ q c, t.pc q = .commit c ↔ s.pc q = .commit c)
    (hlh : t.log.lh = s.log.lh) (hl : t.logged = s.logged) (hc : t.commits = s.commits) : Exact t where
  nodup := by rw [hlh]; exact h.nodup
  same := by
    intro hb
    rw [hlh, opened_congr hl hc]
    refine h.same fun hs => hb ?_
    obtain ⟨p, c, hp, hne⟩ := hs
    exact ⟨p, c, (hco p c).mpr hp, hne⟩
  erased := by
    intro p c hp hd
    rw [hlh]
    exact h.erased p c ((hco p c).mp hp) hd

variable {c : PC}

theorem goto_commit_iff (hs : ∀ d, s.pc p ≠ .commit d) (hc : ∀ d, c ≠ .commit d) (q : Nat) (d : CommitPC) :
    (s.goto p c).pc q = .commit d ↔ s.pc q = .commit d := by
  by_cases hq : q = p
  · subst hq
    rw [goto_pc_same]
    exact ⟨fun h => absurd h (hc d), fun h => absurd h (hs d)⟩
  · rw [goto_pc_ne hq]

theorem wakeup_commit_iff (s : St) (q : Nat) (d : CommitPC) : s.wakeup.pc q = .commit d ↔ s.pc q = .commit d := by
  simp only [St.wakeup]
  split
  · rename_i h
    rw [h]
    constructor <;> intro h' <;> cases h'
  · rfl

theorem Exact.goto (h : Exact s) (hs : ∀ d, s.pc p ≠ .commit d) (hc : ∀ d, c ≠ .commit d) : Exact (s.goto p c) :=
  h.frame (goto_commit_iff hs hc) rfl rfl rfl

/-- The distinct blocks of one kind, with one more entry. -/
theorem blocks_snoc (f : Entry → Bool) (l : List Entry) (e : Entry) : (((l ++ [e]).filter f).map (·.block)).toFinset =
      if f e then insert e.block ((l.filter f).map (·.block)).toFinset
      else ((l.filter f).map (·.block)).toFinset := by
  rw [List.filter_append, List.map_append, List.toFinset_append, Finset.union_comm]
  cases he : f e with
  | false => simp [he]
  | true =>
    rw [List.filter_singleton, he]
    rfl

/-- Logging a block adds it to the header and to the blocks of the open transaction alike. -/
theorem opened_record (p b id : Nat) : St.opened (recordStep s p id b) = insert b s.opened :=
  (blocks_snoc _ s.logged ⟨id, b, s.commits.length⟩).trans (if_pos (decide_eq_true rfl))

theorem absorb_toFinset (L : Log) (b : Nat) : (L.absorb b).lh.toFinset = insert b L.lh.toFinset := by
  rw [Log.absorb_lh]
  split
  · rename_i hb
    rw [Finset.insert_eq_of_mem (List.mem_toFinset.mpr hb)]
  · rw [List.toFinset_append, Finset.union_comm]
    rfl

theorem absorb_nodup {L : Log} (h : L.lh.Nodup) (b : Nat) : (L.absorb b).lh.Nodup := by
  rw [Log.absorb_lh]
  split
  · exact h
  · rename_i hb
    exact List.nodup_append.mpr ⟨h, List.nodup_singleton b, fun x hx y hy e => by
      rw [List.mem_singleton.mp hy] at e
      exact hb (e ▸ hx)⟩

theorem Exact.commitStep (hi : Inv s) (h : Exact s) {c : CommitPC}
    (hp : s.pc p = .commit c) : Exact (commitStep s p c) := by
  -- from any position but the last, the committer stays inside `commit()`, past its first test
  have move : ∀ d, d ≠ .start → (d = .eraseHead ∨ d = .fin → s.log.lh = []) →
      Exact (s.goto p (.commit d)) := by
    intro d hd he
    refine ⟨h.nodup, fun hb => absurd ⟨p, d, goto_pc_same s p _, hd⟩ hb, fun q e hq hqe => ?_⟩
    by_cases hqp : q = p
    · subst hqp
      rw [goto_pc_same] at hq
      obtain rfl : d = e := PC.commit.inj hq
      exact he hqe
    · rw [goto_pc_ne hqp] at hq
      exact h.erased q e hq hqe
  cases c with
  | start =>
    simp only [LogOps.commitStep]
    split
    · have hm := move (.writeLog 0) (by rintro ⟨⟩) (by simp)
      exact ⟨hm.nodup, fun hb => absurd ⟨p, .writeLog 0, goto_pc_same s p _, by rintro ⟨⟩⟩ hb, hm.erased⟩
    · rename_i hlen
      have hnil : s.log.lh = [] := List.length_eq_zero_iff.mp (by omega)
      have hm := move .fin (by rintro ⟨⟩) (fun _ => hnil)
      exact ⟨hm.nodup, fun hb => absurd ⟨p, .fin, goto_pc_same s p _, by rintro ⟨⟩⟩ hb, hm.erased⟩
  | writeLog tail =>
    simp only [LogOps.commitStep]
    split
    · have hm := move (.writeLog (tail + 1)) (by rintro ⟨⟩) (by simp)
      exact hm.frame (fun _ _ => Iff.rfl) rfl rfl rfl
    · exact move .writeHead (by rintro ⟨⟩) (by simp)
  | writeHead => exact move (.install 0) (by rintro ⟨⟩) (by simp)
  | install tail =>
    simp only [LogOps.commitStep]
    split
    · exact move (.install (tail + 1)) (by rintro ⟨⟩) (by simp)
    · exact move .clear (by rintro ⟨⟩) (by simp)
  | clear =>
    refine ⟨List.nodup_nil, fun hb => absurd ⟨p, .eraseHead, goto_pc_same s p _, by rintro ⟨⟩⟩ hb, fun _ _ _ _ => rfl⟩
  | eraseHead => exact move .fin (by rintro ⟨⟩) (fun _ => h.erased p _ hp (Or.inl rfl))
  | fin =>
    have hnil : s.log.lh = [] := h.erased p _ hp (Or.inr rfl)
    have hopen : s.opened = ∅ := hi.opened_beyond ⟨p, _, hp, by rintro ⟨⟩⟩
    refine ⟨h.nodup, fun _ => ?_, fun q c hq _ => hnil⟩
    show s.log.lh.toFinset = s.opened
    rw [hnil, hopen]
    rfl

variable {l : Label}

theorem exact_step (hi : Inv s) (h : Exact s) (hst : step s l = some t) : Exact t := by
  obtain ⟨-, hst⟩ := step_cases hst
  cases hst with
  | begin p hp | sleep p hp _ | kill p hp | enter p b id hp _ | pass p b id hp _ =>
    exact h.goto (by rw [hp]; nofun) nofun
  | admitted p hp _ => exact h.frame (goto_commit_iff (by rw [hp]; nofun) nofun) rfl rfl rfl
  | tooBig p b id hp _ | outside p b id hp _ => exact h.frame (fun _ _ => Iff.rfl) rfl rfl rfl
  | record p b id hp =>
    have hco := goto_commit_iff (s := s) (p := p) (c := .op id) (by rw [hp]; nofun) (by nofun)
    refine ⟨absorb_nodup h.nodup b, fun _ => ?_, fun q c hq hd => ?_⟩
    · rw [opened_record p b id, ← h.same (hi.not_beyond (p := p) (by rw [hp]; rfl))]
      exact absorb_toFinset s.log b
    · have := hi.not_commit (show (s.pc p).opId = some id by rw [hp]; rfl) q
      rw [(hco q c).mp hq] at this
      cases this
  | endOp p id hp =>
    have hid : (s.pc p).opId = some id := by rw [hp]; rfl
    have hc : s.log.committing = false := hi.committing_false (hi.not_commit hid)
    have hnb := hi.not_beyond hid
    simp only [endOpStep, hc, Bool.false_eq_true, if_false]
    split
    · refine ⟨h.nodup, fun _ => h.same hnb, fun q c hq hd => ?_⟩
      by_cases hqp : q = p
      · subst hqp
        simp only [goto_pc_same] at hq
        obtain rfl : CommitPC.start = c := PC.commit.inj hq
        rcases hd with hd | hd <;> cases hd
      · simp only [goto_pc_ne hqp] at hq
        exact h.erased q c hq hd
    · refine h.frame (fun q c => ?_) rfl rfl rfl
      rw [wakeup_commit_iff]
      exact goto_commit_iff (s := { s with log := _, ended := _ }) (by simp only [hp]; nofun) (by nofun) q c
  | commit p c hp => exact h.commitStep hi hp

/-! ## Room in the log

  `begin_op` reserves `MAXOPBLOCKS` entries of the header for every operation it admits.  What that
  buys depends on what the operations really use: `m` bounds the distinct blocks of one operation,
  `cap` is the length of the header that results. -/

/-- The caller's side of the bargain: an operation logs at most `m` distinct blocks. -/
def OpBounded (m : Nat) (s : St) : Label → Prop
  | .logWrite p b => ∀ id, s.pc p = .op id → (insert b (s.own id)).card ≤ m
  | _ => True

instance (m : Nat) (s : St) (l : Label) : Decidable (OpBounded m s l) :=
  match l with
  | .logWrite p b =>
    match hp : s.pc p with
    | .op id => decidable_of_iff ((insert b (s.own id)).card ≤ m)
        ⟨fun h i hi => by rw [hp] at hi; cases hi; exact h, fun h => h id hp⟩
    | .out | .begin | .asleep | .lwOutside _ _ | .lwRecord _ _ | .commit _ =>
        isTrue fun i hi => by rw [hp] at hi; cases hi
  | .begin _ | .test _ | .kill _ | .check _ | .record _ | .endOp _ | .commit _ => isTrue trivial

/-- The test of `begin_op`, passed with `n` blocks in the header and `k` operations running, leaves
    `m` entries for each of the `k + 1` operations within `cap`.  (A header that no operation is
    using is empty.) -/
def Budget (m cap : Nat) : Prop :=
  ∀ n k : Nat, (k = 0 → n = 0) → n + (k + 1) * MAXOPBLOCKS ≤ LOGSIZE → n + (k + 1) * m ≤ cap

theorem budget_full : Budget MAXOPBLOCKS LOGSIZE := fun _ _ _ h => h

/-- One block less per operation saves two entries: with a header in use, two operations at least
    share what admission reserved. -/
theorem budget_less : Budget (MAXOPBLOCKS - 1) (LOGSIZE - 2) := by
  intro n k hk h
  simp only [MAXOPBLOCKS, LOGSIZE] at *
  omega

/-- Blocks wait for a commit only while an operation or a commit is in progress. -/
def Attended (s : St) : Prop :=
  (∀ q, (s.pc q).opId = none) → (∀ q, (s.pc q).commit? = none) → s.opened = ∅

theorem attended_init (start size : Nat) : Attended (St.init start size) := fun _ _ => rfl

theorem Attended.frame (h : Attended s) (hop : ∀ q, (t.pc q).opId = (s.pc q).opId)
    (hco : ∀ q, (t.pc q).commit? = (s.pc q).commit?) (hl : t.logged = s.logged)
    (hc : t.commits = s.commits) : Attended t := by
  intro h1 h2
  rw [opened_congr hl hc]
  exact h (fun q => by rw [← hop q]; exact h1 q) (fun q => by rw [← hco q]; exact h2 q)

theorem Attended.goto (h : Attended s) (hop : c.opId = (s.pc p).opId)
    (hco : c.commit? = (s.pc p).commit?) : Attended (s.goto p c) :=
  h.frame (goto_same hop) (goto_same hco) rfl rfl

theorem attended_of_op (p id : Nat) (hp : (s.pc p).opId = some id) : Attended s := by
  intro h1 _
  rw [h1 p] at hp
  cases hp

theorem attended_of_commit {c : CommitPC} (hp : s.pc p = .commit c) : Attended s := by
  intro _ h2
  have := h2 p
  rw [hp] at this
  cases this

/-- Nobody is in an operation. -/
theorem ops_empty {A : Finset Nat} (hA : ∀ p, p ∈ A ↔ (s.pc p).opId.isSome) (h : ∀ q, (s.pc q).opId = none) :
    A = ∅ := by
  refine Finset.eq_empty_iff_forall_notMem.mpr fun q hq => ?_
  have := (hA q).mp hq
  rw [h q] at this
  cases this

theorem attended_step (hi : Inv s) (hit : Inv t) (h : Attended s) (hst : step s l = some t) : Attended t := by
  obtain ⟨-, hst⟩ := step_cases hst
  cases hst with
  | begin p hp | sleep p hp _ | kill p hp | enter p b id hp _ | pass p b id hp _ =>
    exact h.goto (by rw [hp]; rfl) (by rw [hp]; rfl)
  | admitted p hp _ => exact attended_of_op p s.nops (by simp [admitStep, PC.opId])
  | tooBig p b id hp _ | outside p b id hp _ => exact attended_of_op p id (by simp only [hp, PC.opId])
  | record p b id hp => exact attended_of_op p id (by simp [recordStep, PC.opId])
  | endOp p id hp =>
    have hc : s.log.committing = false := hi.committing_false (hi.not_commit (by rw [hp]; rfl))
    simp only [endOpStep, hc, Bool.false_eq_true, if_false] at hit ⊢
    split
    · exact attended_of_commit (p := p) (c := .start) (by simp)
    · -- the counter is not zero, so another operation is still running
      rename_i hne
      rw [if_neg hne] at hit
      obtain ⟨A, hA, hcard⟩ := hit.ops
      intro h1 _
      rw [ops_empty hA h1] at hcard
      exact absurd hcard hne
  | commit p c hp =>
    cases c with
    | start | writeHead | clear | eraseHead => exact attended_of_commit (goto_pc_same s p _)
    | writeLog tail | install tail =>
      simp only [commitStep]
      split <;> exact attended_of_commit (goto_pc_same s p _)
    | fin => exact fun _ _ => hi.opened_beyond ⟨p, _, hp, by rintro ⟨⟩⟩

/-- The blocks logged by the operation that process `p` is in. -/
def St.ownOf (s : St) (p : Nat) : Finset Nat :=
  match (s.pc p).opId with
  | some id => s.own id
  | none => ∅

/-- How many blocks of its share of `m` process `p` has left. -/
def St.left (m : Nat) (s : St) (p : Nat) : Nat := if (s.pc p).opId = none then 0 else m - (s.ownOf p).card

/-- The block a process is about to log. -/
def PC.pending : PC → Option Nat
  | .lwOutside _ b => some b
  | .lwRecord _ b => some b
  | _ => none

theorem PC.pending_opId (h : c.pending = some b) : c.opId ≠ none := by
  cases c with
  | lwOutside id b' => nofun
  | lwRecord id b' => nofun
  | _ => cases h

/-- What is logged, plus what running operations may still log, fits in `cap` entries. -/
structure Reserved (m cap : Nat) (s : St) : Prop where
  fits : ∀ A : Finset Nat, s.opened.card + ∑ p ∈ A, s.left m p ≤ cap
  share : ∀ p b, (s.pc p).pending = some b → (insert b (s.ownOf p)).card ≤ m
  short : s.log.lh.length ≤ cap

/-- A process that still has a block to log is not the one that has moved on. -/
theorem goto_pending {q : Nat} (hc : c.pending = none) (h : ((s.goto p c).pc q).pending = some b) :
    q ≠ p ∧ (s.pc q).pending = some b := by
  by_cases hq : q = p
  · subst hq
    rw [goto_pc_same, hc] at h
    cases h
  · rw [goto_pc_ne hq] at h
    exact ⟨hq, h⟩

variable {m cap : Nat}

theorem reserved_init (start size : Nat) : Reserved m cap (St.init start size) where
  fits := fun A => by
    have hleft : ∑ p ∈ A, (St.init start size).left m p = 0 := Finset.sum_eq_zero fun _ _ => rfl
    rw [hleft]
    exact Nat.zero_le _
  share := fun p b h => nomatch h
  short := Nat.zero_le _

/-- Steps that log nothing: who was in an operation is in it still, or has left. -/
theorem Reserved.mono (h : Reserved m cap s) (hop : ∀ q, (t.pc q).opId = (s.pc q).opId ∨ (t.pc q).opId = none)
    (hpe : ∀ q b, (t.pc q).pending = some b → (insert b (s.ownOf q)).card ≤ m) (hl : t.logged = s.logged)
    (hopen : t.opened ⊆ s.opened) (hlh : t.log.lh.length ≤ cap) : Reserved m cap t := by
  have hown : ∀ q, (t.pc q).opId ≠ none → (t.pc q).opId = (s.pc q).opId ∧ t.ownOf q = s.ownOf q := by
    intro q hq
    have hsame := (hop q).resolve_right hq
    refine ⟨hsame, ?_⟩
    simp only [St.ownOf, hsame, St.own, hl]
  have hleft : ∀ q, t.left m q ≤ s.left m q := by
    intro q
    unfold St.left
    split
    · exact Nat.zero_le _
    · rename_i hq
      obtain ⟨hsame, hset⟩ := hown q hq
      rw [if_neg (hsame ▸ hq), hset]
  refine ⟨fun A => ?_, fun q b hq => ?_, hlh⟩
  · exact (Nat.add_le_add (Finset.card_le_card hopen) (Finset.sum_le_sum fun q _ => hleft q)).trans (h.fits A)
  · rw [(hown q (PC.pending_opId hq)).2]
    exact hpe q b hq

theorem Reserved.goto (h : Reserved m cap s) (hop : c.opId = (s.pc p).opId)
    (hpe : ∀ b, c.pending = some b → (insert b (s.ownOf p)).card ≤ m) : Reserved m cap (s.goto p c) := by
  refine h.mono (fun q => .inl (goto_same hop q)) (fun q b hq => ?_) rfl (Finset.Subset.refl _) h.short
  by_cases hqp : q = p
  · subst hqp
    rw [goto_pc_same] at hq
    exact hpe b hq
  · rw [goto_pc_ne hqp] at hq
    exact h.share q b hq

/-- The blocks of the open transaction include those of every running operation. -/
theorem Inv.ownOf_subset (h : Inv s) (p : Nat) : s.ownOf p ⊆ s.opened := by
  intro b hb
  unfold St.ownOf at hb
  split at hb
  · rename_i id hid
    obtain ⟨e, he, rfl, rfl⟩ := mem_own.mp hb
    exact mem_opened.mpr ⟨e, he, h.live e he p hid, rfl⟩
  · exact absurd hb (Finset.notMem_empty b)

theorem Reserved.admitted (hbud : Budget m cap) (hi : Inv s) (he : Exact s) (ha : Attended s)
    (hp : s.pc p = .begin) (hm : s.log.mayBegin = true) (h : Reserved m cap s) : Reserved m cap (admitStep s p) := by
  simp only [Log.mayBegin, Bool.and_eq_true, Bool.not_eq_true', decide_eq_true_eq] at hm
  obtain ⟨hcom, hroom⟩ := hm
  have hnone := hi.no_commit hcom
  have hnb : ¬ s.Beyond := by
    rintro ⟨q, c, hq, -⟩
    have := hnone q
    rw [hq] at this
    cases this
  obtain ⟨A, hA, hcard⟩ := hi.ops
  have hlen := he.length hnb
  have hother : ∀ q, q ≠ p → (admitStep s p).pc q = s.pc q := fun q hq => goto_pc_ne hq
  refine ⟨fun B => ?_, fun q b hq => ?_, h.short⟩
  · -- those who have blocks left are `p` and the operations that were running
    have hsum : ∑ q ∈ B, (admitStep s p).left m q ≤ (A.card + 1) * m := by
      calc ∑ q ∈ B, (admitStep s p).left m q
          ≤ ∑ q ∈ insert p A, (admitStep s p).left m q := by
            refine Finset.sum_le_sum_of_ne_zero fun q _ hq => Finset.mem_insert.mpr (or_iff_not_imp_left.mpr fun hqp => ?_)
            rw [hA q, ← hother q hqp, Option.isSome_iff_ne_none]
            exact fun hout => hq (if_pos hout)
        _ ≤ (insert p A).card * m := by
            refine Finset.sum_le_card_nsmul _ _ m fun q _ => ?_
            unfold St.left
            split <;> omega
        _ ≤ (A.card + 1) * m := Nat.mul_le_mul_right m (Finset.card_insert_le p A)
    have hempty : A.card = 0 → s.opened.card = 0 := by
      intro h0
      rw [ha (fun q => ?_) hnone, Finset.card_empty]
      by_contra hq
      have : q ∈ A := (hA q).mpr (Option.isSome_iff_ne_none.mpr hq)
      rw [Finset.card_eq_zero.mp h0] at this
      exact Finset.notMem_empty q this
    refine (Nat.add_le_add_left hsum s.opened.card).trans (hbud _ _ hempty ?_)
    rw [hcard, hlen] at hroom
    simp only [MAXOPBLOCKS, LOGSIZE] at *
    omega
  · obtain ⟨hqp, hq⟩ := goto_pending (c := .op s.nops) rfl hq
    have hown : (admitStep s p).ownOf q = s.ownOf q := by
      unfold St.ownOf
      rw [hother q hqp]
      rfl
    rw [hown]
    exact h.share q b hq

/-- The blocks of an operation after it has logged one more. -/
theorem own_record (p b id i : Nat) :
    St.own (recordStep s p id b) i = if i = id then insert b (s.own id) else s.own i := by
  refine (blocks_snoc (·.op = i) s.logged ⟨id, b, s.commits.length⟩).trans ?_
  by_cases hi : i = id
  · rw [if_pos hi, if_pos (decide_eq_true hi.symm), hi]
    rfl
  · rw [if_neg hi, if_neg (by simpa using Ne.symm hi)]
    rfl

/-- Logging a block: if it is new to the transaction, it is new to the operation, whose remaining
    share goes down by one. -/
theorem Reserved.record (hi : Inv s) (he : Exact s) (h : Reserved m cap s)
    (hp : s.pc p = .lwRecord id b) : Reserved m cap (recordStep s p id b) := by
  have hid : (s.pc p).opId = some id := by rw [hp]; rfl
  have hop : ∀ q, ((recordStep s p id b).pc q).opId = (s.pc q).opId :=
    goto_same (f := PC.opId) (c := .op id) (by rw [hid]; rfl)
  have hownp : St.ownOf (recordStep s p id b) p = insert b (s.ownOf p) := by
    simp only [St.ownOf, hop p, hid, own_record, if_pos]
  have hownq : ∀ q, q ≠ p → St.ownOf (recordStep s p id b) q = s.ownOf q := by
    intro q hq
    simp only [St.ownOf, hop q]
    split
    · rename_i i hiq
      have hne : i ≠ id := by
        rintro rfl
        exact hq (hi.distinct q p i hiq hid)
      rw [own_record, if_neg hne]
    · rfl
  have hshare := h.share p b (by rw [hp]; rfl)
  have hfits : ∀ A : Finset Nat, (insert b s.opened).card + ∑ q ∈ A, (recordStep s p id b).left m q ≤ cap := by
    intro A
    have hold := h.fits (insert p A)
    have hle : ∑ q ∈ A, (recordStep s p id b).left m q ≤ ∑ q ∈ insert p A, (recordStep s p id b).left m q :=
      Finset.sum_le_sum_of_subset (Finset.subset_insert p A)
    rw [← Finset.sum_erase_add _ _ (Finset.mem_insert_self p A)] at hold hle
    have hrest : ∑ q ∈ (insert p A).erase p, (recordStep s p id b).left m q = ∑ q ∈ (insert p A).erase p, s.left m q :=
      Finset.sum_congr rfl fun q hq => by rw [St.left, St.left, hop q, hownq q (Finset.ne_of_mem_erase hq)]
    have hbusy : (s.pc p).opId ≠ none := by rw [hid]; nofun
    rw [hrest, St.left, hop p, if_neg hbusy, hownp] at hle
    rw [St.left, if_neg hbusy] at hold
    by_cases hb : b ∈ s.opened
    · rw [Finset.insert_eq_of_mem hb]
      have : (s.ownOf p).card ≤ (insert b (s.ownOf p)).card :=
        Finset.card_le_card (Finset.subset_insert b _)
      omega
    · have hb' : b ∉ s.ownOf p := fun hmem => hb (hi.ownOf_subset p hmem)
      rw [Finset.card_insert_of_notMem hb'] at hshare hle
      rw [Finset.card_insert_of_notMem hb]
      omega
  refine ⟨fun A => ?_, fun q c hq => ?_, ?_⟩
  · rw [opened_record p b id]
    exact hfits A
  · obtain ⟨hqp, hq⟩ := goto_pending (c := .op id) rfl hq
    rw [hownq q hqp]
    exact h.share q c hq
  · -- the new header is as long as the open transaction, which fits
    have hlen : (s.log.absorb b).lh.length = (insert b s.opened).card := by
      rw [← List.toFinset_card_of_nodup (absorb_nodup he.nodup b), absorb_toFinset, he.same (hi.not_beyond hid)]
    have := hfits ∅
    show (s.log.absorb b).lh.length ≤ cap
    omega

/-- A process that leaves its operation, or is in none. -/
theorem goto_left (hc : c.opId = none) (q : Nat) :
    ((s.goto p c).pc q).opId = (s.pc q).opId ∨ ((s.goto p c).pc q).opId = none := by
  by_cases hq : q = p
  · rw [hq, goto_pc_same]
    exact .inr hc
  · rw [goto_pc_ne hq]
    exact .inl rfl

theorem Reserved.endOp (hi : Inv s) (h : Reserved m cap s) (hp : s.pc p = .op id) :
    Reserved m cap (endOpStep s p id) := by
  have hc : s.log.committing = false := hi.committing_false (hi.not_commit (by rw [hp]; rfl))
  simp only [endOpStep, hc, Bool.false_eq_true, if_false]
  split
  · refine h.mono (goto_left (c := .commit .start) rfl) (fun q b hq => ?_) rfl (Finset.Subset.refl _) h.short
    exact h.share q b (goto_pending (c := .commit .start) rfl hq).2
  · refine h.mono (fun q => ?_) (fun q b hq => h.share q b ?_) rfl (Finset.Subset.refl _) h.short
    · rw [wakeup_opId]
      exact goto_left (c := .out) rfl q
    · simp only [St.wakeup] at hq
      split at hq
      · cases hq
      · exact (goto_pending (c := .out) rfl hq).2

/-- Inside `commit()` nobody is in an operation, and the header does not grow. -/
theorem Reserved.commitStep (hi : Inv s) (h : Reserved m cap s) {c : CommitPC}
    (hp : s.pc p = .commit c) : Reserved m cap (LogOps.commitStep s p c) := by
  obtain ⟨hs, -⟩ := hi.commit_alone hp
  have hgoto : ∀ d : PC, d.opId = none → ∀ q, ((s.goto p d).pc q).opId = none :=
    fun d hd => goto_forall (P := (·.opId = none)) hd fun q _ => hs q
  have idle : ∀ t : St, (∀ q, (t.pc q).opId = none) → t.logged = s.logged → t.opened ⊆ s.opened →
      t.log.lh.length ≤ cap → Reserved m cap t :=
    fun t ht => h.mono (fun q => .inr (ht q)) fun q b hq => absurd (ht q) (PC.pending_opId hq)
  have move : ∀ d, Reserved m cap (s.goto p (.commit d)) := fun d =>
    idle _ (hgoto _ rfl) rfl (Finset.Subset.refl _) h.short
  cases c with
  | start =>
    have hnext := hi.startCommit (d := if 0 < s.log.lh.length then .writeLog 0 else .fin) hp
    have hopen := hnext.opened_beyond ⟨p, _, goto_pc_same s p _, by split <;> nofun⟩
    exact idle _ (hgoto _ rfl) rfl (hopen.subset.trans (Finset.empty_subset _)) h.short
  | writeLog tail =>
    simp only [LogOps.commitStep]
    split
    · exact idle _ (hgoto _ rfl) rfl (Finset.Subset.refl _) h.short
    · exact move .writeHead
  | writeHead => exact move (.install 0)
  | install tail =>
    simp only [LogOps.commitStep]
    split
    · exact move (.install (tail + 1))
    · exact move .clear
  | clear => exact idle _ (hgoto _ rfl) rfl (Finset.Subset.refl _) (Nat.zero_le _)
  | eraseHead => exact move .fin
  | fin =>
    refine idle _ (fun q => ?_) rfl (Finset.Subset.refl _) h.short
    show ((s.goto p .out).wakeup.pc q).opId = none
    rw [wakeup_opId]
    exact hgoto .out rfl q

theorem reserved_step (hbud : Budget m cap) (hi : Inv s) (he : Exact s)
    (ha : Attended s) (h : Reserved m cap s) (hb : OpBounded m s l) (hst : step s l = some t) : Reserved m cap t := by
  obtain ⟨-, hst⟩ := step_cases hst
  cases hst with
  | begin p hp | sleep p hp _ | kill p hp => exact h.goto (by rw [hp]; rfl) nofun
  | admitted p hp hm => exact h.admitted hbud hi he ha hp hm
  | tooBig p b id hp _ | outside p b id hp _ =>
    exact h.mono (fun _ => .inl rfl) h.share rfl (Finset.Subset.refl _) h.short
  | enter p b id hp _ =>
    refine h.goto (by rw [hp]; rfl) fun c hc => ?_
    obtain rfl : b = c := Option.some.inj hc
    have hown : s.ownOf p = s.own id := by simp only [St.ownOf, hp, PC.opId]
    rw [hown]
    exact hb id hp
  | pass p b id hp _ =>
    refine h.goto (by rw [hp]; rfl) fun c hc => ?_
    obtain rfl : b = c := Option.some.inj hc
    exact h.share p b (by rw [hp]; rfl)
  | record p b id hp => exact h.record hi he hp
  | endOp p id hp => exact h.endOp hi hp
  | commit p c hp => exact h.commitStep hi hp

/-- Everything the operations of one run maintain together. -/
structure Managed (m cap : Nat) (s : St) : Prop where
  inv : Inv s
  exact : Exact s
  attended : Attended s
  reserved : Reserved m cap s

theorem managed_init (m cap start size : Nat) : Managed m cap (St.init start size) where
  inv := inv_init start size
  exact := exact_init start size
  attended := attended_init start size
  reserved := reserved_init start size

theorem Managed.step (hbud : Budget m cap) (h : Managed m cap s)
    (hb : OpBounded m s l) (hst : step s l = some t) : Managed m cap t where
  inv := inv_step h.inv hst
  exact := exact_step h.inv h.exact hst
  attended := attended_step h.inv (inv_step h.inv hst) h.attended hst
  reserved := reserved_step hbud h.inv h.exact h.attended h.reserved hb hst

/-- **What admission control does guarantee.**  As long as every operation keeps to its share, the
    in-memory header never has more than `LOGSIZE` entries, whatever the size of the log on disk. -/
theorem header_le_LOGSIZE {start size : Nat}
    (h : (machine start size).Reachable (OpBounded MAXOPBLOCKS) s) : s.log.lh.length ≤ LOGSIZE := by
  have hall : Managed MAXOPBLOCKS LOGSIZE s := by
    refine Machine.invariant (fun s hs => ?_) (fun s l t hi hb hst => hi.step budget_full hb hst) h
    rw [hs]
    exact managed_init _ _ start size
  exact hall.reserved.short

/-! ## The log that `mkfs` lays out -/

/-- `nlog` of `mkfs.c`: the size of the log, its header block included. -/
abbrev nlog : Nat := LOGSIZE

/-- `sb.logstart` as `mkfs` writes it. -/
abbrev logstart : Nat := 2

/-- The machine on a file system made by `mkfs`. -/
def mkfsLog : Machine St Label := machine logstart nlog

/-- No panic "too big a transaction", and `write_log` stays inside the log. -/
structure WithinLog (s : St) : Prop where
  not_tooBig : s.panic ≠ some .tooBig
  inside : ∀ b ∈ s.logWritten, logstart ≤ b ∧ b < logstart + nlog

/-- The place and size of the log are fixed at boot. -/
structure Placed (s : St) : Prop where
  start_eq : s.log.start = logstart
  size_eq : s.log.size = nlog
  within : WithinLog s

theorem placed_init : Placed (St.init logstart nlog) where
  start_eq := rfl
  size_eq := rfl
  within := ⟨by nofun, by nofun⟩

theorem Placed.frame (h : Placed s) (hs : t.log.start = s.log.start)
    (hz : t.log.size = s.log.size) (hp : t.panic = s.panic) (hw : t.logWritten = s.logWritten) : Placed t where
  start_eq := hs.trans h.start_eq
  size_eq := hz.trans h.size_eq
  within := ⟨by rw [hp]; exact h.within.not_tooBig, by rw [hw]; exact h.within.inside⟩

theorem Placed.goto (h : Placed s) (p : Nat) (c : PC) : Placed (s.goto p c) :=
  h.frame rfl rfl rfl rfl

/-- A header shorter than the log is copied inside the log. -/
theorem Placed.commitStep (h : Placed s) (hshort : s.log.lh.length < nlog) (p : Nat)
    (c : CommitPC) : Placed (LogOps.commitStep s p c) := by
  cases c with
  | start | clear | fin => exact h.frame rfl rfl rfl rfl
  | writeLog tail =>
    simp only [LogOps.commitStep]
    split
    · rename_i htail
      refine ⟨h.start_eq, h.size_eq, h.within.not_tooBig, fun b hb => ?_⟩
      rcases List.mem_append.mp hb with hb | hb
      · exact h.within.inside b hb
      · rw [List.mem_singleton.mp hb, h.start_eq]
        omega
    · exact h.goto p _
  | writeHead | eraseHead => exact h.goto p _
  | install tail =>
    simp only [LogOps.commitStep]
    split <;> exact h.goto p _

theorem Placed.step (hi : Inv s) (hshort : s.log.lh.length < nlog - 1)
    (h : Placed s) (hst : step s l = some t) : Placed t := by
  obtain ⟨-, hst⟩ := step_cases hst
  cases hst with
  | begin p hp | sleep p hp _ | kill p hp | enter p b id hp _ | pass p b id hp _ => exact h.goto p _
  | admitted p hp _ | record p b id hp => exact h.frame rfl rfl rfl rfl
  | tooBig p b id hp hbig =>
    simp only [Log.tooBig, Bool.or_eq_true, decide_eq_true_eq, h.size_eq] at hbig
    have : LOGSIZE = nlog := rfl
    omega
  | outside p b id hp ho => exact ⟨h.start_eq, h.size_eq, by nofun, h.within.inside⟩
  | endOp p id hp =>
    have hc : s.log.committing = false := hi.committing_false (hi.not_commit (by rw [hp]; rfl))
    simp only [endOpStep, hc, Bool.false_eq_true, if_false]
    split <;> exact h.frame rfl rfl rfl rfl
  | commit p c hp => exact h.commitStep (by omega) p c

/-- **One block less each is enough.**  When no operation logs more than `MAXOPBLOCKS - 1` distinct
    blocks, then in every state reached `log_write` has not panicked with "too big a transaction"
    and every block `write_log` wrote lies inside the log: absorbed writes and the race between
    the unlocked test and the critical section included. -/
theorem log_room {s : St} (h : mkfsLog.Reachable (OpBounded (MAXOPBLOCKS - 1)) s) : WithinLog s := by
  have hall : Managed (MAXOPBLOCKS - 1) (LOGSIZE - 2) s ∧ Placed s := by
    refine Machine.invariant (M := mkfsLog)
      (I := fun s => Managed (MAXOPBLOCKS - 1) (LOGSIZE - 2) s ∧ Placed s) (fun s hs => ?_)
      (fun s l t hi hb hst => ?_) h
    · obtain rfl : s = St.init logstart nlog := hs
      exact ⟨managed_init _ _ _ _, placed_init⟩
    · obtain ⟨hm, hp⟩ := hi
      have hlt : LOGSIZE - 2 < nlog - 1 := by decide
      exact ⟨hm.step budget_less hb hst, hp.step hm.inv (Nat.lt_of_le_of_lt hm.reserved.short hlt) hst⟩
  exact hall.2.within

/-- Processes `0`, `1`, `2` enter `begin_op`, and all three are admitted. -/
def threeOps : List Label :=
  [.begin 0, .test 0, .begin 1, .test 1, .begin 2, .test 2]

/-- Process `p` logs the blocks `b`, `b + 1`, … (`k` of them), one call after the other. -/
def logBlocks (p b k : Nat) : List Label :=
  (List.range k).flatMap fun i => [.logWrite p (b + i), .check p, .record p]

/-- Nine blocks each, then everybody leaves and process `2` commits. -/
def smallShares : List Label :=
  threeOps ++ logBlocks 0 100 9 ++ logBlocks 1 110 9 ++ logBlocks 2 120 9 ++
    [.endOp 0, .endOp 1, .endOp 2] ++ List.replicate 28 (.commit 2)

theorem log_room_smallShares : ∃ s, mkfsLog.Run (OpBounded (MAXOPBLOCKS - 1)) (St.init logstart nlog) smallShares s ∧
      s.logWritten.length = 27 ∧ WithinLog s := by
  have h : ((mkfsLog.runIf (OpBounded (MAXOPBLOCKS - 1)) (St.init logstart nlog) smallShares).map
      (·.logWritten.length)) = some 27 := by decide +kernel
  obtain ⟨s, hs, hw⟩ := Option.map_eq_some_iff.mp h
  have hrun := Machine.run_of_runIf hs
  exact ⟨s, hrun, hw, log_room ⟨_, _, rfl, hrun⟩⟩

/-- Process `2` calls `log_write` once more than the log has room for. -/
def fullShares : List Label :=
  threeOps ++ logBlocks 0 100 10 ++ logBlocks 1 110 10 ++ logBlocks 2 120 9 ++ [.logWrite 2 129]

theorem header_le_LOGSIZE_full : ∃ s, (machine 2 30).Reachable (OpBounded MAXOPBLOCKS) s ∧ s.log.lh.length = 29 ∧
    s.log.lh.length ≤ LOGSIZE := by
  have hrun : ((machine 2 30).runIf (OpBounded MAXOPBLOCKS) (St.init 2 30) fullShares).any
      (fun s => decide (s.log.lh.length = 29)) = true := by decide +kernel
  obtain ⟨s, hreach, hs⟩ := Machine.reachable_of_runIf rfl hrun
  exact ⟨s, hreach, hs, header_le_LOGSIZE hreach⟩

/-- Processes `1` and `2` both pass `log_write`'s test with 28 blocks in the header. -/
def racingTests : List Label :=
  threeOps ++ logBlocks 0 100 10 ++ logBlocks 1 110 9 ++ logBlocks 2 120 9 ++
    [.logWrite 1 119, .logWrite 2 129, .check 1, .check 2, .record 1, .record 2,
     .endOp 0, .endOp 1, .endOp 2] ++ List.replicate 31 (.commit 2)

/-- **Full shares do not fit.**  Three operations of `MAXOPBLOCKS` blocks each are admitted
    together; the thirtieth block finds the 29 data blocks of the log taken.  And when two of them
    make their tests before either records its block, there is no panic, but `write_log` writes to
    the block just after the log. -/
theorem admission_insufficient : (∃ s, mkfsLog.Run (OpBounded MAXOPBLOCKS) (St.init logstart nlog) fullShares s ∧
      s.panic = some .tooBig) ∧
    ∃ s, mkfsLog.Run (OpBounded MAXOPBLOCKS) (St.init logstart nlog) racingTests s ∧
      logstart + nlog ∈ s.logWritten := by
  have h1 : ((mkfsLog.runIf (OpBounded MAXOPBLOCKS) (St.init logstart nlog) fullShares).map
      (·.panic)) = some (some .tooBig) := by decide +kernel
  have h2 : ((mkfsLog.runIf (OpBounded MAXOPBLOCKS) (St.init logstart nlog) racingTests).map
      (·.logWritten.contains (logstart + nlog))) = some true := by decide +kernel
  obtain ⟨s, hs, hp⟩ := Option.map_eq_some_iff.mp h1
  obtain ⟨t, ht, hw⟩ := Option.map_eq_some_iff.mp h2
  exact ⟨⟨s, Machine.run_of_runIf hs, hp⟩, t, Machine.run_of_runIf ht, by simpa using hw⟩

/-- **The books of the log balance**, whatever the processes do: `outstanding` counts those inside an operation, and at
    most one commits; the header has each block logged since the last commit once, and no other; and it is empty when
    nobody is in an operation or commits, so that nothing waits for a commit that nobody will make. -/
theorem log_balanced {start size : Nat} (h : (machine start size).Reachable anyStep s) :
    (∃ A : Finset Nat, (∀ p, p ∈ A ↔ (s.pc p).opId.isSome) ∧ s.log.outstanding = A.card) ∧
    (∀ p q, (s.pc p).commit?.isSome → (s.pc q).commit?.isSome → p = q) ∧ s.log.lh.Nodup ∧
    (¬ s.Beyond → ∀ b, b ∈ s.log.lh ↔ ∃ e ∈ s.logged, e.epoch = s.commits.length ∧ e.block = b) ∧
    ((∀ p, (s.pc p).opId = none ∧ (s.pc p).commit? = none) → s.log.lh = []) := by
  have hall : Inv s ∧ Exact s ∧ Attended s := by
    refine Machine.invariant (I := fun s => Inv s ∧ Exact s ∧ Attended s) (fun s hs => ?_) (fun s l t hi _ hst => ?_) h
    · rw [hs]
      exact ⟨inv_init start size, exact_init start size, attended_init start size⟩
    · have ht := inv_step hi.1 hst
      exact ⟨ht, exact_step hi.1 hi.2.1 hst, attended_step hi.1 ht hi.2.2 hst⟩
  obtain ⟨hi, he, ha⟩ := hall
  refine ⟨hi.ops, hi.one, he.nodup, fun hb b => ?_, fun hidle => ?_⟩
  · rw [← List.mem_toFinset, he.same hb, mem_opened]
  · have hb : ¬ s.Beyond := by
      rintro ⟨p, c, hp, -⟩
      have hnone := (hidle p).2
      rw [hp] at hnone
      cases hnone
    rw [← List.toFinset_eq_empty_iff, he.same hb]
    exact ha (fun q => (hidle q).1) fun q => (hidle q).2

theorem log_balanced_oneOp : ∃ s, (machine 2 30).Reachable anyStep s ∧ s.log.lh = [5] ∧ s.log.lh.Nodup := by
  have hrun : ((machine 2 30).run (St.init 2 30) oneOp).any (fun s => decide (s.log.lh = [5])) = true := by decide
  obtain ⟨s, hreach, hs⟩ := Machine.reachable_of_run rfl hrun
  exact ⟨s, hreach, hs, (log_balanced hreach).2.2.1⟩

end Xv6.LogOps
