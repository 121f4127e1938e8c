/-
  Group commit: `begin_op`, `log_write`, `end_op` and `commit` of `log.c`, run by any number of
  processes in any order.

  `log.lock` makes each critical section atomic, so a critical section is ONE step of the machine
  below.  Everything that happens without the lock is a step of its own: the two tests at the top
  of `log_write`, and every disk write of `commit()`, which runs with the lock dropped.  A caller
  of `begin_op` that finds the log busy sleeps on `&log` and tests again after a `wakeup(&log)`
  (or a `kill`, which wakes any sleeper).

  1. **Program** — `Log` is `struct log`; `Log.mayBegin`, `Log.tooBig`, `Log.outside`,
     `Log.absorb` are the tests and the update of the three functions; `step` is the machine.
  2. **History** — the state also records, without influencing any step: how many operations were
     admitted, which called `end_op`, which blocks each one logged and under which commit, the
     header each `commit()` found, and the log blocks `write_log` wrote.
  3. **Isolation** — `Inv` ties the counter, the flag and the program points of all processes
     together; `group_commit` reads off that a commit carries whole operations only.
-/
import Mathlib
import Xv6.Lib.Machine
import Xv6.Param

namespace Xv6.LogOps

open Machines

/-! ## `struct log` and its critical sections -/

/-- `struct log`; `lh` is `lh.block[0 .. n)`. -/
structure Log where
  start : Nat
  size : Nat
  /-- How many FS system calls are executing. -/
  outstanding : Int
  /-- In `commit()`, please wait. -/
  committing : Bool
  lh : List Nat

/-- The log after `initlog`. -/
def Log.init (start size : Nat) : Log where
  start := start
  size := size
  outstanding := 0
  committing := false
  lh := []

/-- The test of `begin_op`: no commit is running and this op cannot exhaust the log space. -/
def Log.mayBegin (L : Log) : Bool :=
  !L.committing && decide (¬ (L.lh.length + (L.outstanding + 1) * MAXOPBLOCKS > LOGSIZE))

/-- `log_write`'s first test: "too big a transaction". -/
def Log.tooBig (L : Log) : Bool :=
  decide (LOGSIZE ≤ L.lh.length) || decide (L.size - 1 ≤ L.lh.length)

/-- `log_write`'s second test: "log_write outside of trans". -/
def Log.outside (L : Log) : Bool := decide (L.outstanding < 1)

/-- `log_write`'s critical section: store `b` at its own index (absorption) or at index `n`. -/
def Log.absorb (L : Log) (b : Nat) : Log :=
  let i := L.lh.findIdx (· == b)
  { L with lh := if i = L.lh.length then L.lh ++ [b] else L.lh.set i b }

/-- Absorption keeps a header that has the block and extends one that has not. -/
theorem Log.absorb_lh (L : Log) (b : Nat) : (L.absorb b).lh = if b ∈ L.lh then L.lh else L.lh ++ [b] := by
  by_cases hb : b ∈ L.lh
  · have hlt : L.lh.findIdx (· == b) < L.lh.length :=
      List.findIdx_lt_length_of_exists ⟨b, hb, beq_self_eq_true b⟩
    have hget : L.lh[L.lh.findIdx (· == b)] = b := by
      have := List.findIdx_getElem (w := hlt)
      simpa using this
    rw [if_pos hb]
    simp only [Log.absorb, if_neg (Nat.ne_of_lt hlt)]
    generalize L.lh.findIdx (· == b) = i at hlt hget
    subst hget
    exact List.set_getElem_self hlt
  · have heq : L.lh.findIdx (· == b) = L.lh.length := by
      refine List.findIdx_eq_length.mpr fun x hx => ?_
      have hne : x ≠ b := fun e => hb (e ▸ hx)
      simpa using hne
    rw [if_neg hb]
    simp only [Log.absorb, if_pos heq]

/-! ## Processes -/

/-- The panics of `log.c`. -/
inductive Panic
  | tooBig
  | outside
  | committing
  deriving DecidableEq

/-- Where a process is inside `commit()`. -/
inductive CommitPC
  /-- About to test `log.lh.n > 0`. -/
  | start
  | writeLog (tail : Nat)
  | writeHead
  | install (tail : Nat)
  /-- About to set `log.lh.n = 0`. -/
  | clear
  | eraseHead
  /-- `commit()` has returned; `end_op` is about to take the lock again. -/
  | fin
  deriving DecidableEq

/-- Where a process is.  Operations are numbered in the order of their admission. -/
inductive PC
  | out
  /-- In `begin_op`, about to make its test under the lock. -/
  | begin
  /-- In `begin_op`, asleep on `&log`. -/
  | asleep
  /-- Between `begin_op` and `end_op`. -/
  | op (id : Nat)
  /-- In `log_write(b)`, past the first test. -/
  | lwOutside (id b : Nat)
  /-- In `log_write(b)`, about to take the lock. -/
  | lwRecord (id b : Nat)
  /-- In the `commit()` that ends its operation. -/
  | commit (c : CommitPC)
  deriving DecidableEq

/-- The operation a process is in. -/
def PC.opId : PC → Option Nat
  | .op id => some id
  | .lwOutside id _ => some id
  | .lwRecord id _ => some id
  | _ => none

/-- A block logged: by which operation, and how many commits had started before. -/
structure Entry where
  op : Nat
  block : Nat
  epoch : Nat
  deriving DecidableEq

/-- The log, where every process is, and the history. -/
structure St where
  log : Log
  pc : Nat → PC
  panic : Option Panic
  /-- History: operations admitted. -/
  nops : Nat
  /-- History: operations that have called `end_op`. -/
  ended : List Nat
  /-- History: every block logged. -/
  logged : List Entry
  /-- History: the header each `commit()` found. -/
  commits : List (List Nat)
  /-- History: the log blocks `write_log` wrote. -/
  logWritten : List Nat

/-- After boot: nobody is in an operation. -/
def St.init (start size : Nat) : St where
  log := Log.init start size
  pc := fun _ => .out
  panic := none
  nops := 0
  ended := []
  logged := []
  commits := []
  logWritten := []

/-- The process moves to another program point. -/
def St.goto (s : St) (p : Nat) (c : PC) : St :=
  { s with pc := fun q => if q = p then c else s.pc q }

/-- `wakeup(&log)`. -/
def St.wakeup (s : St) : St :=
  { s with pc := fun q => if s.pc q = .asleep then .begin else s.pc q }

/-- Who moves, and how. -/
inductive Label
  /-- The process calls `begin_op`. -/
  | begin (p : Nat)
  /-- `begin_op` takes the lock and makes its test. -/
  | test (p : Nat)
  /-- `kill` wakes a sleeper. -/
  | kill (p : Nat)
  /-- The process calls `log_write(b)`, which makes its first test. -/
  | logWrite (p b : Nat)
  /-- `log_write` makes its second test. -/
  | check (p : Nat)
  /-- `log_write`'s critical section. -/
  | record (p : Nat)
  /-- The process calls `end_op`: its first critical section. -/
  | endOp (p : Nat)
  /-- One step of `commit()` or of the rest of `end_op`. -/
  | commit (p : Nat)
  deriving DecidableEq

/-- `begin_op` admits process `p`: a new operation, counted as outstanding. -/
def admitStep (s : St) (p : Nat) : St :=
  { s.goto p (.op s.nops) with
    nops := s.nops + 1
    log := { s.log with outstanding := s.log.outstanding + 1 } }

/-- The critical section of `log_write(b)`, by process `p` in operation `id`. -/
def recordStep (s : St) (p id b : Nat) : St :=
  { s.goto p (.op id) with
    log := s.log.absorb b
    logged := s.logged ++ [⟨id, b, s.commits.length⟩] }

/-- One step of `commit()` by process `p`. -/
def commitStep (s : St) (p : Nat) : CommitPC → St
  | .start =>
      { s.goto p (.commit (if 0 < s.log.lh.length then .writeLog 0 else .fin)) with
        commits := s.commits ++ [s.log.lh] }
  | .writeLog tail =>
      if tail < s.log.lh.length then
        { s.goto p (.commit (.writeLog (tail + 1))) with
          logWritten := s.logWritten ++ [s.log.start + tail + 1] }
      else s.goto p (.commit .writeHead)
  | .writeHead => s.goto p (.commit (.install 0))
  | .install tail =>
      if tail < s.log.lh.length then s.goto p (.commit (.install (tail + 1)))
      else s.goto p (.commit .clear)
  | .clear => { s.goto p (.commit .eraseHead) with log := { s.log with lh := [] } }
  | .eraseHead => s.goto p (.commit .fin)
  | .fin => { (s.goto p .out).wakeup with log := { s.log with committing := false } }

/-- The first critical section of `end_op`, by process `p` in operation `id`. -/
def endOpStep (s : St) (p id : Nat) : St :=
  let L := { s.log with outstanding := s.log.outstanding - 1 }
  let s := { s with log := L, ended := s.ended ++ [id] }
  if L.committing then { s with panic := some .committing }
  else if L.outstanding = 0 then
    { s.goto p (.commit .start) with log := { L with committing := true } }
  else (s.goto p .out).wakeup

/-- One step.  A panic stops the machine for good. -/
def step (s : St) (l : Label) : Option St :=
  if s.panic.isSome then none else
  match l with
  | .begin p => if s.pc p = .out then some (s.goto p .begin) else none
  | .test p =>
      if s.pc p = .begin then
        if s.log.mayBegin then some (admitStep s p)
        else some (s.goto p .asleep)
      else none
  | .kill p => if s.pc p = .asleep then some (s.goto p .begin) else none
  | .logWrite p b =>
      match s.pc p with
      | .op id => if s.log.tooBig then some { s with panic := some .tooBig }
                  else some (s.goto p (.lwOutside id b))
      | _ => none
  | .check p =>
      match s.pc p with
      | .lwOutside id b => if s.log.outside then some { s with panic := some .outside }
                           else some (s.goto p (.lwRecord id b))
      | _ => none
  | .record p =>
      match s.pc p with
      | .lwRecord id b => some (recordStep s p id b)
      | _ => none
  | .endOp p =>
      match s.pc p with
      | .op id => some (endOpStep s p id)
      | _ => none
  | .commit p =>
      match s.pc p with
      | .commit c => some (commitStep s p c)
      | _ => none

/-- The log at `[start, start + size)`, from boot on. -/
def machine (start size : Nat) : Machine St Label where
  init := fun s => s = St.init start size
  step := step

/-! ## What one step can do -/

/-- The position inside `commit()`, if the process is there. -/
def PC.commit? : PC → Option CommitPC
  | .commit c => some c
  | _ => none

@[simp] theorem goto_pc_same (s : St) (p : Nat) (c : PC) : (s.goto p c).pc p = c := if_pos rfl

variable {s : St} {p : Nat}

theorem goto_pc_ne {q : Nat} {c : PC} (h : q ≠ p) : (s.goto p c).pc q = s.pc q :=
  if_neg h

/-- What holds of every position, after one process has moved. -/
theorem goto_forall {P : PC → Prop} {c : PC} (hc : P c) (hs : ∀ q, q ≠ p → P (s.pc q)) (q : Nat) :
    P ((s.goto p c).pc q) := by
  by_cases hq : q = p
  · subst hq; rw [goto_pc_same]; exact hc
  · rw [goto_pc_ne hq]; exact hs q hq

/-- What the move of a process does not change. -/
theorem goto_same {α : Type} {f : PC → α} {c : PC} (h : f c = f (s.pc p)) (q : Nat) :
    f ((s.goto p c).pc q) = f (s.pc q) := by
  by_cases hq : q = p
  · subst hq; rw [goto_pc_same, h]
  · rw [goto_pc_ne hq]

@[simp] theorem goto_log (s : St) (p : Nat) (c : PC) : (s.goto p c).log = s.log := rfl
@[simp] theorem goto_nops (s : St) (p : Nat) (c : PC) : (s.goto p c).nops = s.nops := rfl
@[simp] theorem goto_ended (s : St) (p : Nat) (c : PC) : (s.goto p c).ended = s.ended := rfl
@[simp] theorem goto_logged (s : St) (p : Nat) (c : PC) : (s.goto p c).logged = s.logged := rfl
@[simp] theorem goto_commits (s : St) (p : Nat) (c : PC) : (s.goto p c).commits = s.commits := rfl

/-- A `wakeup` moves sleepers of `begin_op` only. -/
theorem wakeup_opId (s : St) (q : Nat) : (s.wakeup.pc q).opId = (s.pc q).opId := by
  simp only [St.wakeup]
  split
  · rename_i h; rw [h]; rfl
  · rfl

theorem wakeup_commit? (s : St) (q : Nat) : (s.wakeup.pc q).commit? = (s.pc q).commit? := by
  simp only [St.wakeup]
  split
  · rename_i h; rw [h]; rfl
  · rfl

/-- The steps of the machine, with what each one finds. -/
inductive Step (s : St) : Label → St → Prop
  | begin (p : Nat) : s.pc p = .out → Step s (.begin p) (s.goto p .begin)
  | admitted (p : Nat) : s.pc p = .begin → s.log.mayBegin = true →
      Step s (.test p) (admitStep s p)
  | sleep (p : Nat) : s.pc p = .begin → s.log.mayBegin = false → Step s (.test p) (s.goto p .asleep)
  | kill (p : Nat) : s.pc p = .asleep → Step s (.kill p) (s.goto p .begin)
  | tooBig (p b id : Nat) : s.pc p = .op id → s.log.tooBig = true →
      Step s (.logWrite p b) { s with panic := some .tooBig }
  | enter (p b id : Nat) : s.pc p = .op id → s.log.tooBig = false →
      Step s (.logWrite p b) (s.goto p (.lwOutside id b))
  | outside (p b id : Nat) : s.pc p = .lwOutside id b → s.log.outside = true →
      Step s (.check p) { s with panic := some .outside }
  | pass (p b id : Nat) : s.pc p = .lwOutside id b → s.log.outside = false →
      Step s (.check p) (s.goto p (.lwRecord id b))
  | record (p b id : Nat) : s.pc p = .lwRecord id b →
      Step s (.record p) (recordStep s p id b)
  | endOp (p id : Nat) : s.pc p = .op id → Step s (.endOp p) (endOpStep s p id)
  | commit (p : Nat) (c : CommitPC) : s.pc p = .commit c → Step s (.commit p) (commitStep s p c)

variable {l : Label}

/-- Every step of the machine is one of these, and a machine that has panicked takes none. -/
theorem step_cases {t : St} (h : step s l = some t) : s.panic = none ∧ Step s l t := by
  unfold step at h
  split at h
  · cases h
  rename_i hn
  refine ⟨by simpa using hn, ?_⟩
  cases l with
  | begin p | kill p =>
    obtain ⟨hpc, ⟨⟩⟩ := Option.ite_none_right_eq_some.mp h
    constructor
    exact hpc
  | test p =>
    obtain ⟨hpc, h⟩ := Option.ite_none_right_eq_some.mp h
    split at h <;> rename_i hm <;> cases h
    · exact .admitted p hpc hm
    · exact .sleep p hpc (by simpa using hm)
  | logWrite p b =>
    dsimp only at h
    split at h
    · rename_i id hpc
      split at h <;> rename_i hb <;> cases h
      · exact .tooBig p b id hpc hb
      · exact .enter p b id hpc (by simpa using hb)
    · cases h
  | check p =>
    dsimp only at h
    split at h
    · rename_i id b hpc
      split at h <;> rename_i ho <;> cases h
      · exact .outside p b id hpc ho
      · exact .pass p b id hpc (by simpa using ho)
    · cases h
  | record p | endOp p | commit p =>
    dsimp only at h
    split at h
    · cases h
      constructor
      assumption
    · cases h

/-! ## The invariant of group commit -/

/-- The flag, and who is in `commit()`. -/
structure Commits (s : St) : Prop where
  /-- `committing` says that some process is in `commit()`. -/
  flag : s.log.committing = true ↔ ∃ p, (s.pc p).commit?.isSome
  one : ∀ p q, (s.pc p).commit?.isSome → (s.pc q).commit?.isSome → p = q
  /-- Nobody is inside an operation while somebody commits. -/
  quiet : ∀ p q, (s.pc p).commit?.isSome → (s.pc q).opId = none
  past : ∀ p c, (s.pc p).commit? = some c → c ≠ .start → ∀ e ∈ s.logged, e.epoch < s.commits.length

/-- The operations in progress. -/
structure Running (s : St) : Prop where
  running : ∀ p id, (s.pc p).opId = some id → id < s.nops ∧ id ∉ s.ended
  distinct : ∀ p q id, (s.pc p).opId = some id → (s.pc q).opId = some id → p = q
  status : ∀ e ∈ s.logged, e.op ∈ s.ended ∨ ∃ p, (s.pc p).opId = some e.op
  /-- A running operation has logged under the present commit only. -/
  live : ∀ e ∈ s.logged, ∀ p, (s.pc p).opId = some e.op → e.epoch = s.commits.length

/-- How the counter, the flag, the program points and the history fit together. -/
structure Inv (s : St) : Prop extends Commits s, Running s where
  /-- `outstanding` counts the processes inside an operation. -/
  ops : ∃ A : Finset Nat, (∀ p, p ∈ A ↔ (s.pc p).opId.isSome) ∧ s.log.outstanding = A.card
  safe : s.panic ≠ some .committing ∧ s.panic ≠ some .outside
  ended_lt : ∀ id ∈ s.ended, id < s.nops
  epoch_le : ∀ e ∈ s.logged, e.epoch ≤ s.commits.length
  whole : ∀ e ∈ s.logged, ∀ f ∈ s.logged, e.op = f.op → e.epoch = f.epoch
  /-- What was logged since the last commit is in the header. -/
  current : ∀ e ∈ s.logged, e.epoch = s.commits.length → e.block ∈ s.log.lh
  carried : ∀ e ∈ s.logged, ∀ hdr, s.commits[e.epoch]? = some hdr → e.block ∈ hdr

/-- Nobody commits. -/
theorem Commits.none (hpc : ∀ q, (s.pc q).commit? = none) (hc : s.log.committing = false) :
    Commits s where
  flag := by simp [hc, hpc]
  one p q hp := by rw [hpc p] at hp; cases hp
  quiet p q hp := by rw [hpc p] at hp; cases hp
  past p c hp := by rw [hpc p] at hp; cases hp

/-- Nobody is in an operation. -/
theorem Running.none (hop : ∀ q, (s.pc q).opId = none)
    (hended : ∀ e ∈ s.logged, e.op ∈ s.ended) : Running s where
  running p id hid := by rw [hop p] at hid; cases hid
  distinct p q id hid := by rw [hop p] at hid; cases hid
  status e he := .inl (hended e he)
  live e _ p hid := by rw [hop p] at hid; cases hid

theorem inv_init (start size : Nat) : Inv (St.init start size) where
  toCommits := .none (fun _ => rfl) rfl
  toRunning := .none (fun _ => rfl) nofun
  ops := ⟨∅, fun p => by simp [St.init, PC.opId], by simp [St.init, Log.init]⟩
  safe := by simp [St.init]
  ended_lt := nofun
  epoch_le := nofun
  whole := nofun
  current := nofun
  carried := nofun

/-- A step that moves no process into or out of an operation or a commit, and leaves the log and
    the history alone, keeps the invariant. -/
theorem Inv.frame {t : St} (h : Inv s) (hop : ∀ q, (t.pc q).opId = (s.pc q).opId)
    (hco : ∀ q, (t.pc q).commit?.isSome = (s.pc q).commit?.isSome)
    (hpast : ∀ q c, (t.pc q).commit? = some c → c ≠ .start →
      ∃ d, (s.pc q).commit? = some d ∧ d ≠ .start) (hlog : t.log = s.log)
    (hpanic : t.panic = s.panic ∨ t.panic = some .tooBig) (hn : t.nops = s.nops)
    (he : t.ended = s.ended) (hl : t.logged = s.logged) (hc : t.commits = s.commits) : Inv t where
  ops := by simpa only [hop, hlog] using h.ops
  flag := by simpa only [hco, hlog] using h.flag
  one := by simpa only [hco] using h.one
  quiet := by simpa only [hco, hop] using h.quiet
  safe := by
    rcases hpanic with hp | hp
    · rw [hp]; exact h.safe
    · rw [hp]; exact ⟨by decide, by decide⟩
  running := by simpa only [hop, hn, he] using h.running
  distinct := by simpa only [hop] using h.distinct
  ended_lt := by simpa only [hn, he] using h.ended_lt
  status := by simpa only [hop, he, hl] using h.status
  live := by simpa only [hop, hl, hc] using h.live
  epoch_le := by simpa only [hl, hc] using h.epoch_le
  past := by
    intro q c hq hne
    obtain ⟨d, hd, hds⟩ := hpast q c hq hne
    simpa only [hl, hc] using h.past q d hd hds
  whole := by simpa only [hl] using h.whole
  current := by simpa only [hl, hc, hlog] using h.current
  carried := by simpa only [hl, hc] using h.carried

/-- Moving one process between program points of the same kind. -/
theorem Inv.goto (h : Inv s) {c : PC} (hop : c.opId = (s.pc p).opId)
    (hco : c.commit? = (s.pc p).commit?) : Inv (s.goto p c) := by
  have hco' := goto_same (f := PC.commit?) hco
  refine h.frame (goto_same hop) (fun q => by rw [hco' q]) (fun q d hd hne => ?_) rfl (Or.inl rfl) rfl rfl rfl rfl
  exact ⟨d, by rw [← hco' q]; exact hd, hne⟩

theorem Inv.wakeup (h : Inv s) : Inv s.wakeup := by
  refine h.frame (wakeup_opId s) (fun q => by rw [wakeup_commit? s q]) (fun q d hd hne => ?_)
    rfl (Or.inl rfl) rfl rfl rfl rfl
  exact ⟨d, by rw [← wakeup_commit? s q]; exact hd, hne⟩

variable {id : Nat}

section

variable (h : Inv s)

include h

/-- While somebody is inside an operation nobody commits. -/
theorem Inv.not_commit (hp : (s.pc p).opId = some id) (q : Nat) : (s.pc q).commit? = none := by
  by_contra hq
  have := h.quiet q p (Option.isSome_iff_ne_none.mpr hq)
  rw [hp] at this
  cases this

theorem Inv.committing_false (hq : ∀ q, (s.pc q).commit? = none) : s.log.committing = false := by
  cases hc : s.log.committing with
  | false => rfl
  | true =>
    obtain ⟨q, hs⟩ := h.flag.mp hc
    rw [hq q] at hs
    cases hs

/-- With the flag down nobody commits. -/
theorem Inv.no_commit (hc : s.log.committing = false) (q : Nat) : (s.pc q).commit? = none := by
  by_contra hq
  have := h.flag.mpr ⟨q, Option.isSome_iff_ne_none.mpr hq⟩
  rw [hc] at this
  cases this

/-- An operation in progress is counted. -/
theorem Inv.outstanding_pos (hp : (s.pc p).opId = some id) : 0 < s.log.outstanding := by
  obtain ⟨A, hA, hcard⟩ := h.ops
  have hmem : p ∈ A := (hA p).mpr (by rw [hp]; rfl)
  have : 0 < A.card := Finset.card_pos.mpr ⟨p, hmem⟩
  omega

theorem Inv.admitted (hp : s.pc p = .begin) (hm : s.log.mayBegin = true) : Inv (admitStep s p) := by
  unfold admitStep
  have hcom : s.log.committing = false := by
    simp only [Log.mayBegin, Bool.and_eq_true, Bool.not_eq_true'] at hm
    exact hm.1
  have hpc : ∀ q, ((s.goto p (.op s.nops)).pc q).commit? = none :=
    goto_forall (P := (·.commit? = none)) rfl fun q _ => h.no_commit hcom q
  have hop : ∀ q id, ((s.goto p (.op s.nops)).pc q).opId = some id →
      (q = p ∧ id = s.nops) ∨ (s.pc q).opId = some id := by
    intro q id hid
    by_cases hq : q = p
    · subst hq
      rw [goto_pc_same] at hid
      exact Or.inl ⟨rfl, (Option.some.inj hid).symm⟩
    · rw [goto_pc_ne hq] at hid
      exact Or.inr hid
  have hlt : ∀ e ∈ s.logged, e.op < s.nops := by
    intro e he
    rcases h.status e he with h1 | ⟨q, h1⟩
    · exact h.ended_lt _ h1
    · exact (h.running q _ h1).1
  exact { h with
    toCommits := .none hpc hcom
    ops := by
      obtain ⟨A, hA, hcard⟩ := h.ops
      have hnot : p ∉ A := by rw [hA p, hp]; simp [PC.opId]
      refine ⟨insert p A, fun q => ?_, ?_⟩
      · by_cases hq : q = p
        · subst hq; simp [PC.opId]
        · rw [Finset.mem_insert, hA q]
          simp [hq, goto_pc_ne hq]
      · rw [Finset.card_insert_of_notMem hnot]
        simp only
        omega
    running := fun q id hid => by
      rcases hop q id hid with ⟨-, rfl⟩ | h1
      · exact ⟨Nat.lt_succ_self _, fun hmem => absurd (h.ended_lt _ hmem) (Nat.lt_irrefl _)⟩
      · exact (h.running q id h1).imp_left Nat.lt_succ_of_lt
    distinct := fun q r id hq hr => by
      rcases hop q id hq with ⟨rfl, rfl⟩ | h1 <;> rcases hop r _ hr with ⟨h2, h3⟩ | h2
      · exact h2.symm
      · exact absurd (h.running r _ h2).1 (Nat.lt_irrefl _)
      · subst h3
        exact absurd (h.running q _ h1).1 (Nat.lt_irrefl _)
      · exact h.distinct q r id h1 h2
    ended_lt := fun id hid => Nat.lt_succ_of_lt (h.ended_lt id hid)
    status := fun e he => (h.status e he).imp_right <| Exists.imp fun q h1 => by
      have hqp : q ≠ p := by
        rintro rfl
        rw [hp] at h1
        cases h1
      exact (congrArg PC.opId (goto_pc_ne hqp)).trans h1
    live := fun e he q hq => by
      rcases hop q _ hq with ⟨-, h2⟩ | h1
      · exact absurd (hlt e he) (by omega)
      · exact h.live e he q h1 }

theorem Inv.record {b : Nat} (hp : s.pc p = .lwRecord id b) : Inv (recordStep s p id b) := by
  unfold recordStep
  have hid : (s.pc p).opId = some id := by rw [hp]; rfl
  have hg : Inv (s.goto p (.op id)) := h.goto (by rw [hid]; rfl) (by rw [hp]; rfl)
  have hnone : ∀ q, ((s.goto p (.op id)).pc q).commit? = none :=
    hg.not_commit (p := p) (by rw [goto_pc_same]; rfl)
  have hsplit : ∀ e, e ∈ s.logged ++ [⟨id, b, s.commits.length⟩] →
      e ∈ s.logged ∨ e = ⟨id, b, s.commits.length⟩ := by
    intro e he
    rcases List.mem_append.mp he with he | he
    · exact Or.inl he
    · exact Or.inr (List.mem_singleton.mp he)
  have hown : ∀ e ∈ s.logged, e.op = id → e.epoch = s.commits.length := by
    intro e he heq
    exact h.live e he p (by rw [hid, heq])
  exact { hg with
    toCommits := .none hnone (hg.committing_false hnone)
    ops := hg.ops
    status := fun e he => by
      rcases hsplit e he with he | rfl
      · exact hg.status e he
      · exact Or.inr ⟨p, by simp only [goto_pc_same]; rfl⟩
    live := fun e he q hq => by
      rcases hsplit e he with he | rfl
      · exact hg.live e he q hq
      · rfl
    epoch_le := fun e he => by
      rcases hsplit e he with he | rfl
      · exact h.epoch_le e he
      · exact Nat.le_refl _
    whole := fun e he f hf heq => by
      rcases hsplit e he with he | rfl <;> rcases hsplit f hf with hf | rfl
      · exact h.whole e he f hf heq
      · exact hown e he heq
      · exact (hown f hf heq.symm).symm
      · rfl
    current := fun e he hep => by
      rw [Log.absorb_lh]
      rcases hsplit e he with he | rfl
      · have := h.current e he hep
        split
        · exact this
        · exact List.mem_append_left _ this
      · split
        · assumption
        · exact List.mem_append_right _ (List.mem_singleton.mpr rfl)
    carried := fun e he hdr hhdr => by
      rcases hsplit e he with he | rfl
      · exact h.carried e he hdr hhdr
      · have hend : s.commits[s.commits.length]? = none := List.getElem?_eq_none (Nat.le_refl _)
        exact absurd (hend.symm.trans hhdr) (by simp) }

/-- Leaving the operation: the first half of `end_op`'s critical section. -/
theorem Inv.leave (hp : s.pc p = .op id) : Inv { s.goto p .out with
      log := { s.log with outstanding := s.log.outstanding - 1 }
      ended := s.ended ++ [id] } := by
  have hid : (s.pc p).opId = some id := by rw [hp]; rfl
  have hnone := h.not_commit hid
  have hpc : ∀ q, ((s.goto p .out).pc q).commit? = none :=
    goto_forall (P := (·.commit? = none)) rfl fun q _ => hnone q
  have hop : ∀ q i, ((s.goto p .out).pc q).opId = some i → q ≠ p ∧ (s.pc q).opId = some i := by
    intro q i hi
    by_cases hq : q = p
    · subst hq; rw [goto_pc_same] at hi; cases hi
    · rw [goto_pc_ne hq] at hi; exact ⟨hq, hi⟩
  exact { h with
    toCommits := .none hpc (h.committing_false hnone)
    ops := by
      obtain ⟨A, hA, hcard⟩ := h.ops
      have hmem : p ∈ A := (hA p).mpr (by rw [hid]; rfl)
      refine ⟨A.erase p, fun q => ?_, ?_⟩
      · by_cases hq : q = p
        · subst hq; simp [PC.opId]
        · rw [Finset.mem_erase, hA q]
          simp [hq, goto_pc_ne hq]
      · have hpos : 0 < A.card := Finset.card_pos.mpr ⟨p, hmem⟩
        rw [Finset.card_erase_of_mem hmem]
        simp only
        omega
    running := fun q i hi => by
      obtain ⟨hq, h1⟩ := hop q i hi
      obtain ⟨h2, h3⟩ := h.running q i h1
      refine ⟨h2, fun hmem => ?_⟩
      rcases List.mem_append.mp hmem with hmem | hmem
      · exact h3 hmem
      · obtain rfl := List.mem_singleton.mp hmem
        exact hq (h.distinct q p _ h1 hid)
    distinct := fun q r i hq hr => h.distinct q r i (hop q i hq).2 (hop r i hr).2
    ended_lt := fun i hi => by
      rcases List.mem_append.mp hi with hi | hi
      · exact h.ended_lt i hi
      · obtain rfl := List.mem_singleton.mp hi
        exact (h.running p _ hid).1
    status := fun e he => by
      rcases h.status e he with h1 | ⟨q, h1⟩
      · exact Or.inl (List.mem_append_left _ h1)
      · by_cases hq : q = p
        · subst hq
          rw [hid] at h1
          exact Or.inl (List.mem_append_right _ (List.mem_singleton.mpr (Option.some.inj h1).symm))
        · exact Or.inr ⟨q, (congrArg PC.opId (goto_pc_ne hq)).trans h1⟩
    live := fun e he q hq => h.live e he q (hop q e.op hq).2 }

/-- With nobody in an operation, all that logged have ended. -/
theorem Inv.all_ended (hop : ∀ q, (s.pc q).opId = none) : ∀ e ∈ s.logged, e.op ∈ s.ended := by
  intro e he
  rcases h.status e he with h1 | ⟨q, h1⟩
  · exact h1
  · rw [hop q] at h1; cases h1

/-- Raising the flag when the last operation has left. -/
theorem Inv.raise (hp : s.pc p = .out) (h0 : s.log.outstanding = 0) (hc : s.log.committing = false) :
    Inv { s.goto p (.commit .start) with log := { s.log with committing := true } } := by
  have hnone : ∀ q, (s.pc q).opId = none := by
    intro q
    by_contra hq
    obtain ⟨id, hid⟩ := Option.ne_none_iff_exists'.mp hq
    have := h.outstanding_pos hid
    omega
  have hop : ∀ q, ((s.goto p (.commit .start)).pc q).opId = none :=
    goto_forall (P := (·.opId = none)) rfl fun q _ => hnone q
  have hpc : ∀ q c, ((s.goto p (.commit .start)).pc q).commit? = some c → q = p ∧ c = .start := by
    intro q c hq
    by_cases hqp : q = p
    · subst hqp
      rw [goto_pc_same] at hq
      exact ⟨rfl, (Option.some.inj hq).symm⟩
    · rw [goto_pc_ne hqp, h.no_commit hc q] at hq
      cases hq
  exact { h with
    toRunning := .none hop (h.all_ended hnone)
    ops := by simpa only [hop, hnone] using h.ops
    flag := ⟨fun _ => ⟨p, by simp [PC.commit?]⟩, fun _ => rfl⟩
    one := fun q r hq hr => by
      obtain ⟨c, hc⟩ := Option.isSome_iff_exists.mp hq
      obtain ⟨d, hd⟩ := Option.isSome_iff_exists.mp hr
      rw [(hpc q c hc).1, (hpc r d hd).1]
    quiet := fun _ r _ => hop r
    past := fun q c hq hne => absurd (hpc q c hq).2 hne }

theorem Inv.endOp (hp : s.pc p = .op id) : Inv (endOpStep s p id) := by
  have hid : (s.pc p).opId = some id := by rw [hp]; rfl
  have hc : s.log.committing = false := h.committing_false (h.not_commit hid)
  have hl := h.leave hp
  unfold endOpStep
  rw [if_neg (by simp [hc])]
  split
  · rename_i h0
    have hr := hl.raise (p := p) (by simp) h0 hc
    -- the two moves of the process, out of the operation and into the commit, are one
    have hpc : ∀ q, (if q = p then PC.commit .start else if q = p then .out else s.pc q) =
        (if q = p then PC.commit .start else s.pc q) := by
      intro q; split <;> rfl
    simp only [St.goto, hpc] at hr ⊢
    exact hr
  · exact hl.wakeup

end

variable {c : CommitPC}

/-- Inside `commit()` everybody else is out of any operation. -/
theorem Inv.commit_alone (h : Inv s) (hp : s.pc p = .commit c) :
    (∀ q, (s.pc q).opId = none) ∧ ∀ q d, (s.pc q).commit? = some d → q = p := by
  have hs : (s.pc p).commit?.isSome := by rw [hp]; rfl
  refine ⟨fun q => h.quiet p q hs, fun q d hd => ?_⟩
  exact h.one q p (by rw [hd]; rfl) hs

/-- Moving on inside `commit()`, past its first test. -/
theorem Inv.moveCommit (h : Inv s) {d : CommitPC} (hp : s.pc p = .commit c)
    (hc : c ≠ .start) : Inv (s.goto p (.commit d)) := by
  obtain ⟨hop, hone⟩ := h.commit_alone hp
  have hcp : (s.pc p).commit? = some c := by rw [hp]; rfl
  refine h.frame (goto_same (by rw [hop p]; rfl)) (goto_same (f := (·.commit?.isSome)) (by rw [hcp]; rfl)) (fun q e hq _ => ?_) rfl (Or.inl rfl) rfl rfl rfl rfl
  by_cases hqp : q = p
  · subst hqp; exact ⟨c, hcp, hc⟩
  · rw [goto_pc_ne hqp] at hq
    exact absurd (hone q e hq) hqp

/-- The start of `commit()`: the header it finds has everything logged since the last one. -/
theorem Inv.startCommit (h : Inv s) {d : CommitPC} (hp : s.pc p = .commit .start) :
    Inv { s.goto p (.commit d) with commits := s.commits ++ [s.log.lh] } := by
  obtain ⟨hop, hone⟩ := h.commit_alone hp
  have hpc : ∀ q, ((s.goto p (.commit d)).pc q).commit?.isSome = (s.pc q).commit?.isSome :=
    goto_same (f := (·.commit?.isSome)) (by rw [hp]; rfl)
  have hop' : ∀ q, ((s.goto p (.commit d)).pc q).opId = none :=
    goto_forall (P := (·.opId = none)) rfl fun q _ => hop q
  have hlen : (s.commits ++ [s.log.lh]).length = s.commits.length + 1 := by simp
  have hlt : ∀ e ∈ s.logged, e.epoch < (s.commits ++ [s.log.lh]).length := by
    intro e he
    have := h.epoch_le e he
    rw [hlen]
    omega
  exact { h with
    toRunning := .none hop' (h.all_ended hop)
    ops := by simpa only [hop', hop, goto_log] using h.ops
    flag := by simpa only [hpc, goto_log] using h.flag
    one := by simpa only [hpc] using h.one
    quiet := fun _ r _ => hop' r
    past := fun _ _ _ _ => hlt
    epoch_le := fun e he => (hlt e he).le
    current := fun e he hep => absurd hep (hlt e he).ne
    carried := fun e he hdr hhdr => by
      rcases Nat.lt_or_eq_of_le (h.epoch_le e he) with hlt | heq
      · rw [List.getElem?_append_left hlt] at hhdr
        exact h.carried e he hdr hhdr
      · have hb := h.current e he heq
        rw [heq, List.getElem?_concat_length] at hhdr
        rw [← Option.some.inj hhdr]
        exact hb }

/-- `log.lh.n = 0`: by now nothing is logged that an earlier commit has not taken. -/
theorem Inv.clear (h : Inv s) (hp : s.pc p = .commit c)
    (hc : c ≠ .start) : Inv { s with log := { s.log with lh := [] } } := by
  have hpast := h.past p c (by rw [hp]; rfl) hc
  exact { h with
    ops := h.ops
    flag := h.flag
    current := fun e he hep => by have := hpast e he; simp only at hep; omega }

/-- The rest of `end_op` after `commit()`: the flag is lowered. -/
theorem Inv.lower (h : Inv s) (hp : s.pc p = .commit c) :
    Inv { s.goto p .out with log := { s.log with committing := false } } := by
  obtain ⟨hop, hone⟩ := h.commit_alone hp
  have hpc : ∀ q, ((s.goto p .out).pc q).commit? = none := by
    refine goto_forall (P := (·.commit? = none)) rfl fun q hq => ?_
    by_contra hne
    obtain ⟨d, hd⟩ := Option.ne_none_iff_exists'.mp hne
    exact hq (hone q d hd)
  have hop' := goto_same (f := PC.opId) (s := s) (p := p) (c := .out) (by rw [hop p]; rfl)
  exact { h with
    toCommits := .none hpc rfl
    toRunning := .none (fun q => (hop' q).trans (hop q)) (h.all_ended hop)
    ops := by simpa only [hop'] using h.ops }

theorem Inv.commitStep (h : Inv s) (hp : s.pc p = .commit c) : Inv (commitStep s p c) := by
  cases c with
  | start => exact h.startCommit hp
  | writeLog tail =>
    simp only [LogOps.commitStep]
    split
    · have hm := h.moveCommit (d := .writeLog (tail + 1)) hp (by nofun)
      exact hm.frame (fun _ => rfl) (fun _ => rfl) (fun _ c hc hne => ⟨c, hc, hne⟩) rfl (Or.inl rfl) rfl rfl rfl rfl
    · exact h.moveCommit hp (by nofun)
  | writeHead | eraseHead => exact h.moveCommit hp (by decide)
  | install tail =>
    simp only [LogOps.commitStep]
    split <;> exact h.moveCommit hp (by nofun)
  | clear =>
    have hm := h.moveCommit (d := .eraseHead) hp (by decide)
    exact hm.clear (p := p) (goto_pc_same s p _) (by decide)
  | fin => exact (h.lower hp).wakeup

/-- **Every step keeps the invariant.** -/
theorem inv_step {t : St} (h : Inv s) (hst : step s l = some t) : Inv t := by
  obtain ⟨-, hst⟩ := step_cases hst
  cases hst with
  | begin p hp | sleep p hp _ | kill p hp | enter p b id hp _ | pass p b id hp _ =>
    exact h.goto (by rw [hp]; rfl) (by rw [hp]; rfl)
  | admitted p hp hm => exact h.admitted hp hm
  | tooBig p b id hp _ =>
    exact h.frame (fun _ => rfl) (fun _ => rfl) (fun _ c hc hne => ⟨c, hc, hne⟩) rfl (Or.inr rfl) rfl rfl rfl rfl
  | outside p b id hp ho =>
    have := h.outstanding_pos (show (s.pc p).opId = some id by rw [hp]; rfl)
    simp only [Log.outside, decide_eq_true_eq] at ho
    omega
  | record p b id hp => exact h.record hp
  | endOp p id hp => exact h.endOp hp
  | commit p c hp => exact h.commitStep hp

theorem inv_reachable {start size : Nat} {C : St → Label → Prop} (h : (machine start size).Reachable C s) : Inv s := by
  refine Machine.invariant (fun s hs => ?_) (fun s l t hi _ hst => inv_step hi hst) h
  rw [hs]
  exact inv_init start size

/-! ## Isolation -/

/-- **Group-commit isolation.**  In every reachable state: the flag excludes outstanding
    operations, so `end_op` never panics; while a process is in `commit()`, every operation that
    ever logged a block has called `end_op`, and no step logs a block or admits an operation; the
    blocks an operation logs fall under ONE commit, and that commit finds them all in its header. -/
theorem group_commit {start size : Nat} {s : St} (h : (machine start size).Reachable anyStep s) :
    (s.log.committing = true → s.log.outstanding = 0) ∧ s.panic ≠ some .committing ∧
    (∀ p c, s.pc p = .commit c → ∀ e ∈ s.logged, e.op ∈ s.ended) ∧
    (∀ p c, s.pc p = .commit c → ∀ l t, step s l = some t →
      t.logged = s.logged ∧ t.nops = s.nops) ∧
    (∀ e ∈ s.logged, ∀ f ∈ s.logged, e.op = f.op → e.epoch = f.epoch) ∧
    (∀ e ∈ s.logged, ∀ hdr, s.commits[e.epoch]? = some hdr → e.block ∈ hdr) := by
  have hi := inv_reachable h
  refine ⟨fun hc => ?_, hi.safe.1, fun p c hp e he => ?_, fun p c hp l t hst => ?_, hi.whole, hi.carried⟩
  · obtain ⟨p, hp⟩ := hi.flag.mp hc
    obtain ⟨A, hA, hcard⟩ := hi.ops
    have hempty : A = ∅ := Finset.eq_empty_iff_forall_notMem.mpr fun q hq => by
      have := (hA q).mp hq
      rw [hi.quiet p q hp] at this
      cases this
    rw [hcard, hempty]
    rfl
  · exact hi.all_ended (hi.commit_alone hp).1 e he
  · -- the only steps enabled are those of the committer and of callers of `begin_op`
    obtain ⟨hop, -⟩ := hi.commit_alone hp
    have hcom : s.log.committing = true := hi.flag.mpr ⟨p, by rw [hp]; rfl⟩
    obtain ⟨-, hst⟩ := step_cases hst
    cases hst with
    | begin q _ | sleep q _ _ | kill q _ => exact ⟨rfl, rfl⟩
    | admitted q _ hm =>
      simp only [Log.mayBegin, hcom] at hm
      cases hm
    | tooBig q b id hq _ | enter q b id hq _ | outside q b id hq _ | pass q b id hq _ | record q b id hq
    | endOp q id hq =>
      have := hop q; rw [hq] at this; cases this
    | commit q d _ =>
      cases d with
      | writeLog tail | install tail => simp only [LogOps.commitStep]; split <;> exact ⟨rfl, rfl⟩
      | _ => exact ⟨rfl, rfl⟩

/-- One operation that logs block 5 and ends: its `end_op` starts a commit. -/
def oneOp : List Label :=
  [.begin 0, .test 0, .logWrite 0 5, .check 0, .record 0, .endOp 0]

theorem group_commit_oneOp : ∃ s, (machine 2 30).Reachable anyStep s ∧ s.log.committing = true ∧
    s.log.outstanding = 0 := by
  have hrun : ((machine 2 30).run (St.init 2 30) oneOp).isSome = true := by decide
  obtain ⟨s, hs⟩ := Option.isSome_iff_exists.mp hrun
  have hc : ((machine 2 30).run (St.init 2 30) oneOp).map (fun s => s.log.committing) = some true := by
    decide
  have hreach : (machine 2 30).Reachable anyStep s := ⟨_, _, rfl, Machine.run_iff.mpr hs⟩
  have hcs : s.log.committing = true := by
    rw [hs] at hc
    exact Option.some.inj hc
  exact ⟨s, hreach, hcs, (group_commit hreach).1 hcs⟩

end Xv6.LogOps
