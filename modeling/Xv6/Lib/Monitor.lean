/-
  MONITORS: locks, `sleep` and `wakeup`.

  A monitor is a resource with a spin-lock.  Every operation on it has the same shape:

      acquire(lock); while(!guard) sleep(chan, lock); act; if(wakes) wakeup(chan); release(lock);

  and what it is an operation OF is given by `guard`, `act`, `ret` and `wakes`.  `sleep` takes the lock of the
  process table BEFORE it releases the monitor's, and the process is marked SLEEPING before the table's lock is
  given up; `wakeup` needs the table's lock.  Each `acquire` and `release` is a step of its own, so that anything
  can happen in between; and any process can be killed, which wakes it for no reason of the monitor's.

  1. **`Step`** says once what a step can do, **`Excl`** that the locks are held where the code holds them.
  2. **`Linear`** — the operations take effect one after the other: the resource is what the completed
     operations, in the order in which they completed, make of its first value, and the guard of each held
     when its turn came.  This is what a monitor is FOR.
  3. **`Obeys`** — callers that keep to a rule leave a history that keeps to it.
  4. **`Awake`** — whoever is asleep, or about to be, while the guard holds, will be woken: the holder of the
     lock still has to call `wakeup`.  This needs that an operation without a `wakeup` makes no guard true that
     somebody waits for (`Quiet`).
-/
import Xv6.Lib.Machine
import Xv6.Lib.Locks

namespace Monitors

open Machines Locks
open Function (update update_self update_apply update_of_ne)

/-- What is particular about an operation. -/
structure Op (π R ρ : Type) where
  guard : R → Bool
  act : π → R → R
  /-- The value returned, from the resource that `act` finds. -/
  ret : π → R → ρ
  wakes : Bool

/-- Monitors `ι`; the operations `O`, each on one of them; and the resources at the beginning. -/
structure Monitor (ι π O R ρ : Type) where
  on : O → ι
  op : O → Op π R ρ
  first : ι → R

inductive Status (ι : Type)
  | running
  | sleeping (i : ι)
  | runnable
  deriving DecidableEq

/-- Where a process is in an operation. -/
inductive Pc (O ρ : Type)
  | idle
  /-- `acquire(lock)`, on entry or at the end of `sleep` -/
  | acquire (o : O)
  /-- The test of the `while`, and `act` -/
  | test (o : O)
  /-- `sleep`: `acquire` of the table's lock -/
  | sleepAcquire (o : O)
  /-- `sleep`: `release(lock)` -/
  | sleepRelease (o : O)
  /-- `sleep`: the process is marked SLEEPING, and leaves its CPU -/
  | sleepState (o : O)
  | asleep (o : O)
  /-- `sleep`, back on a CPU: `release` of the table's lock -/
  | resume (o : O)
  /-- `wakeup`: `acquire` of the table's lock -/
  | wakeAcquire (o : O) (r : ρ)
  | wakeup (o : O) (r : ρ)
  /-- `wakeup`: `release` of the table's lock -/
  | wakeRelease (o : O) (r : ρ)
  /-- `release(lock)`, and return -/
  | release (o : O) (r : ρ)
  deriving DecidableEq

/-- A completed operation. -/
structure Done (π O ρ : Type) where
  proc : π
  op : O
  ret : ρ
  deriving DecidableEq

structure St (ι π O R ρ : Type) where
  res : ι → R
  lock : ι → Option π
  /-- The lock of the process table. -/
  table : Option π
  status : π → Status ι
  killed : π → Bool
  pc : π → Pc O ρ
  /-- History: what has been completed, in order. -/
  done : List (Done π O ρ)

inductive Label (π O : Type)
  | call (p : π) (o : O)
  | step (p : π)
  | kill (p : π)

variable {ι π O R ρ : Type}

section

variable [DecidableEq ι] [DecidableEq π]

namespace St

variable (S : St ι π O R ρ)

def goto (p : π) (k : Pc O ρ) : St ι π O R ρ := { S with pc := update S.pc p k }

def setLock (i : ι) (l : Option π) : St ι π O R ρ := { S with lock := update S.lock i l }

/-- `wakeup1` -/
def wake (i : ι) : St ι π O R ρ :=
  { S with status := fun q => if S.status q = .sleeping i then .runnable else S.status q }

/-- `kill` -/
def kill (p : π) : St ι π O R ρ :=
  { S with
    killed := update S.killed p true
    status := update S.status p
      (match S.status p with
      | .sleeping _ => .runnable
      | v => v) }

end St

namespace Monitor

variable (M : Monitor ι π O R ρ)

/-- What follows `act`. -/
def after (o : O) (r : ρ) : Pc O ρ := if (M.op o).wakes then .wakeAcquire o r else .release o r

/-- What process `p` does next. -/
def next (S : St ι π O R ρ) (p : π) : Option (St ι π O R ρ) :=
  match S.pc p with
  | .idle => none
  | .acquire o => if S.lock (M.on o) = none then some ((S.setLock (M.on o) (some p)).goto p (.test o)) else none
  | .test o =>
    if (M.op o).guard (S.res (M.on o)) then
      some (St.goto { S with res := update S.res (M.on o) ((M.op o).act p (S.res (M.on o))) } p
        (M.after o ((M.op o).ret p (S.res (M.on o)))))
    else some (S.goto p (.sleepAcquire o))
  | .sleepAcquire o => if S.table = none then some ({ S with table := some p }.goto p (.sleepRelease o)) else none
  | .sleepRelease o => some ((S.setLock (M.on o) none).goto p (.sleepState o))
  | .sleepState o => some (St.goto { S with
      table := none
      status := update S.status p (.sleeping (M.on o)) } p (.asleep o))
  | .asleep o =>
    -- the scheduler switches to the process with the table's lock held
    if S.status p = .runnable ∧ S.table = none then
      some (St.goto { S with table := some p, status := update S.status p .running } p (.resume o))
    else none
  | .resume o => some ({ S with table := none }.goto p (.acquire o))
  | .wakeAcquire o r => if S.table = none then some ({ S with table := some p }.goto p (.wakeup o r)) else none
  | .wakeup o r => some ((S.wake (M.on o)).goto p (.wakeRelease o r))
  | .wakeRelease o r => some ({ S with table := none }.goto p (.release o r))
  | .release o r =>
    some (St.goto { S with lock := update S.lock (M.on o) none, done := S.done ++ [⟨p, o, r⟩] } p .idle)

def step (S : St ι π O R ρ) : Label π O → Option (St ι π O R ρ)
  | .call p o =>
    match S.pc p with
    | .idle => some (S.goto p (.acquire o))
    | _ => none
  | .step p => M.next S p
  | .kill p => if S.table = none then some (S.kill p) else none

/-- Nobody is in an operation. -/
def start : St ι π O R ρ where
  res := M.first
  lock := fun _ => none
  table := none
  status := fun _ => .running
  killed := fun _ => false
  pc := fun _ => .idle
  done := []

def machine : Machine (St ι π O R ρ) (Label π O) where
  init := fun S => S = M.start
  step := M.step

/-! ## What a step can do -/

/-- Everything a step can do. -/
inductive Step (S : St ι π O R ρ) : Label π O → St ι π O R ρ → Prop
  | call {p : π} {o : O} : S.pc p = .idle → Step S (.call p o) (S.goto p (.acquire o))
  | kill {p : π} : S.table = none → Step S (.kill p) (S.kill p)
  | acquire {p : π} {o : O} : S.pc p = .acquire o → S.lock (M.on o) = none →
      Step S (.step p) ((S.setLock (M.on o) (some p)).goto p (.test o))
  | act {p : π} {o : O} : S.pc p = .test o → (M.op o).guard (S.res (M.on o)) = true →
      Step S (.step p) (St.goto { S with
        res := update S.res (M.on o) ((M.op o).act p (S.res (M.on o))) } p
        (M.after o ((M.op o).ret p (S.res (M.on o)))))
  | wait {p : π} {o : O} : S.pc p = .test o → (M.op o).guard (S.res (M.on o)) = false →
      Step S (.step p) (S.goto p (.sleepAcquire o))
  | sleepAcquire {p : π} {o : O} : S.pc p = .sleepAcquire o → S.table = none →
      Step S (.step p) ({ S with table := some p }.goto p (.sleepRelease o))
  | sleepRelease {p : π} {o : O} : S.pc p = .sleepRelease o →
      Step S (.step p) ((S.setLock (M.on o) none).goto p (.sleepState o))
  | sleepState {p : π} {o : O} : S.pc p = .sleepState o →
      Step S (.step p) (St.goto { S with
        table := none
        status := update S.status p (.sleeping (M.on o)) } p (.asleep o))
  | wakened {p : π} {o : O} : S.pc p = .asleep o → S.status p = .runnable → S.table = none →
      Step S (.step p) (St.goto { S with
        table := some p
        status := update S.status p .running } p (.resume o))
  | resume {p : π} {o : O} : S.pc p = .resume o → Step S (.step p) ({ S with table := none }.goto p (.acquire o))
  | wakeAcquire {p : π} {o : O} {r : ρ} : S.pc p = .wakeAcquire o r → S.table = none →
      Step S (.step p) ({ S with table := some p }.goto p (.wakeup o r))
  | wakeup {p : π} {o : O} {r : ρ} : S.pc p = .wakeup o r →
      Step S (.step p) ((S.wake (M.on o)).goto p (.wakeRelease o r))
  | wakeRelease {p : π} {o : O} {r : ρ} : S.pc p = .wakeRelease o r →
      Step S (.step p) ({ S with table := none }.goto p (.release o r))
  | release {p : π} {o : O} {r : ρ} : S.pc p = .release o r →
      Step S (.step p) (St.goto { S with
        lock := update S.lock (M.on o) none
        done := S.done ++ [⟨p, o, r⟩] } p .idle)

end Monitor

variable {M : Monitor ι π O R ρ} {S T : St ι π O R ρ} {p q : π} {l : Label π O} {i : ι} {o : O}

theorem Monitor.next_cases (h : M.next S p = some T) : M.Step S (.step p) T := by
  unfold Monitor.next at h
  cases hpc : S.pc p <;> simp only [hpc, reduceCtorEq, Option.ite_none_right_eq_some, Option.some.injEq] at h
  case test o =>
    split at h
    · rename_i hg
      cases h
      exact .act hpc hg
    · rename_i hg
      cases h
      exact .wait hpc (Bool.not_eq_true _ ▸ hg)
  case asleep o =>
    obtain ⟨⟨hr, hl⟩, rfl⟩ := h
    exact .wakened hpc hr hl
  case' acquire | sleepAcquire | wakeAcquire => obtain ⟨hl, rfl⟩ := h
  case' sleepRelease | sleepState | resume | wakeup | wakeRelease | release => subst h
  all_goals constructor <;> assumption

theorem Monitor.step_cases (h : M.machine.step S l = some T) : M.Step S l T := by
  replace h : M.step S l = some T := h
  cases l with
  | step p => exact Monitor.next_cases h
  | call p o =>
    cases hpc : S.pc p <;> simp only [Monitor.step, hpc, reduceCtorEq, Option.some.injEq] at h
    subst h
    exact .call hpc
  | kill p =>
    simp only [Monitor.step, Option.ite_none_right_eq_some, Option.some.injEq] at h
    obtain ⟨hl, rfl⟩ := h
    exact .kill hl

/-- The operation a process is in. -/
def Pc.op : Pc O ρ → Option O
  | .idle => none
  | .acquire o | .test o | .sleepAcquire o | .sleepRelease o | .sleepState o | .asleep o | .resume o
  | .wakeAcquire o _ | .wakeup o _ | .wakeRelease o _ | .release o _ => some o

/-- An operation touches no other monitor. -/
theorem Monitor.Step.elsewhere (hs : M.Step S (.step p) T) (ho : (S.pc p).op = some o) (hi : i ≠ M.on o) :
    T.res i = S.res i ∧ T.lock i = S.lock i := by
  cases hs with
  | act hpc _ =>
    rw [hpc] at ho
    cases ho
    exact ⟨update_of_ne hi _ _, rfl⟩
  | acquire hpc _ | sleepRelease hpc | release hpc =>
    rw [hpc] at ho
    cases ho
    exact ⟨rfl, update_of_ne hi _ _⟩
  | wait _ _ | sleepAcquire _ _ | sleepState _ | wakened _ _ _ | resume _ | wakeAcquire _ _ | wakeup _ | wakeRelease _ =>
    exact ⟨rfl, rfl⟩

/-- A process on its way through an operation: either it is still in it, or it has returned and the operation is
    completed.  The others are where they were. -/
theorem Monitor.Step.own (hs : M.Step S (.step p) T) (ho : (S.pc p).op = some o) : (∀ q, q ≠ p → T.pc q = S.pc q) ∧
      ((T.pc p).op = some o ∧ T.done = S.done ∨ T.pc p = .idle ∧ ∃ r, T.done = S.done ++ [⟨p, o, r⟩]) := by
  refine ⟨fun q hq => ?_, ?_⟩
  · cases hs <;> exact update_of_ne hq _ _
  · cases hs with
    | @act _ o' hpc _ =>
      rw [hpc] at ho
      cases ho
      refine .inl ⟨?_, rfl⟩
      simp only [St.goto, update_self, Monitor.after]
      split <;> rfl
    | @release _ o' r hpc =>
      rw [hpc] at ho
      cases ho
      exact .inr ⟨update_self _ _ _, r, rfl⟩
    | acquire hpc _ | sleepRelease hpc | wait hpc _ | sleepAcquire hpc _ | sleepState hpc | wakened hpc _ _ | resume hpc
    | wakeAcquire hpc _ | wakeup hpc | wakeRelease hpc =>
      rw [hpc] at ho
      cases ho
      refine .inl ⟨?_, rfl⟩
      simp only [St.goto, update_self]
      rfl

end

variable {M : Monitor ι π O R ρ} {S T : St ι π O R ρ} {p q : π} {l : Label π O} {i : ι} {o : O}

/-! ## Who holds the locks -/

/-- The monitor whose lock is held at this point. -/
def Monitor.inside (M : Monitor ι π O R ρ) : Pc O ρ → Option ι
  | .test o | .sleepAcquire o | .sleepRelease o | .wakeAcquire o _ | .wakeup o _ | .wakeRelease o _ | .release o _ =>
    some (M.on o)
  | _ => none

/-- The operation that has taken effect and not yet returned. -/
def Pc.acted : Pc O ρ → Option (O × ρ)
  | .wakeAcquire o r | .wakeup o r | .wakeRelease o r | .release o r => some (o, r)
  | _ => none

/-- Is the table's lock held at this point? -/
def Pc.tabled : Pc O ρ → Bool
  | .sleepRelease _ | .sleepState _ | .resume _ | .wakeup .. | .wakeRelease .. => true
  | _ => false

structure Excl (M : Monitor ι π O R ρ) (S : St ι π O R ρ) : Prop where
  lock : ∀ i p, S.lock i = some p ↔ M.inside (S.pc p) = some i
  table : ∀ p, S.table = some p ↔ (S.pc p).tabled = true

theorem Monitor.after_spec (M : Monitor ι π O R ρ) (o : O) (r : ρ) : M.inside (M.after o r) = some (M.on o) ∧
    (M.after o r).tabled = false ∧ (M.after o r).acted = some (o, r) ∧ (M.after o r).op = some o := by
  unfold Monitor.after
  split <;> exact ⟨rfl, rfl, rfl, rfl⟩

theorem Excl.start : Excl M M.start := ⟨fun _ _ => iff_of_false nofun nofun, fun _ => iff_of_false nofun nofun⟩

/-- Two processes that hold the lock of one monitor are one. -/
theorem Excl.same (h : Excl M S) (hp : M.inside (S.pc p) = some i) (hq : M.inside (S.pc q) = some i) : p = q :=
  Option.some.inj (((h.lock i p).mpr hp).symm.trans ((h.lock i q).mpr hq))

section

variable [DecidableEq ι] [DecidableEq π]

section

variable {k : Pc O ρ} (h : Excl M S) (hpc : T.pc = update S.pc p k)

include h hpc

theorem Excl.move (hl : ∀ i, Handover p (S.lock i) (decide (M.inside (S.pc p) = some i)) (T.lock i) (decide (M.inside k = some i)))
    (ht : Handover p S.table (S.pc p).tabled T.table k.tabled) : Excl M T := by
  constructor
  · intro i q
    have hq := Handover.excl (f := fun q => decide (M.inside (S.pc q) = some i)) (hl i)
      (fun q => by rw [h.lock i q, decide_eq_true_iff]) q
    rw [hq, hpc, update_apply, update_apply]
    split <;> rw [decide_eq_true_iff]
  · intro q
    have hq := Handover.excl (f := fun q => (S.pc q).tabled) ht h.table q
    rw [hq, hpc, update_apply, update_apply]
    split <;> rfl

/-- A step that touches no monitor's lock. -/
theorem Excl.keep (hlock : T.lock = S.lock)
    (hk : M.inside k = M.inside (S.pc p)) (ht : Handover p S.table (S.pc p).tabled T.table k.tabled) : Excl M T := by
  refine h.move hpc (fun i => ?_) ht
  rw [hlock, hk]
  exact .keep _ _

/-- `acquire(lock)` -/
theorem Excl.take (hlock : T.lock = update S.lock i (some p)) (hfree : S.lock i = none) (hout : M.inside (S.pc p) = none)
    (hk : M.inside k = some i) (ht : Handover p S.table (S.pc p).tabled T.table k.tabled) : Excl M T := by
  refine h.move hpc (fun j => ?_) ht
  rw [hlock, hout, hk]
  rcases eq_or_ne j i with rfl | hj
  · rw [update_self, hfree, decide_eq_true rfl, decide_eq_false nofun]
    exact .take
  · rw [update_of_ne hj, decide_eq_false nofun, decide_eq_false fun e => hj (Option.some.inj e).symm]
    exact .keep _ _

/-- `release(lock)` -/
theorem Excl.give (hlock : T.lock = update S.lock i none) (hin : M.inside (S.pc p) = some i) (hk : M.inside k = none)
    (ht : Handover p S.table (S.pc p).tabled T.table k.tabled) : Excl M T := by
  refine h.move hpc (fun j => ?_) ht
  rw [hlock, hin, hk]
  rcases eq_or_ne j i with rfl | hj
  · rw [update_self, decide_eq_true rfl, decide_eq_false nofun]
    exact .give _
  · rw [update_of_ne hj, decide_eq_false fun e => hj (Option.some.inj e).symm, decide_eq_false nofun]
    exact .keep _ _

end

theorem Excl.step (h : Excl M S) (hs : M.Step S l T) : Excl M T := by
  cases hs with
  | kill _ => exact ⟨h.lock, h.table⟩
  | call hpc | wait hpc _ | wakeup hpc => exact h.keep rfl rfl (by rw [hpc]; rfl) (by rw [hpc]; exact .keep _ _)
  | act hpc _ =>
    refine h.keep rfl rfl (by rw [hpc, (M.after_spec _ _).1]; rfl) ?_
    rw [hpc, (M.after_spec _ _).2.1]
    exact .keep _ _
  | acquire hpc hl => exact h.take rfl rfl hl (by rw [hpc]; rfl) rfl (by rw [hpc]; exact .keep _ _)
  | sleepAcquire hpc hl | wakeAcquire hpc hl | wakened hpc _ hl =>
    exact h.keep rfl rfl (by rw [hpc]; rfl) (by rw [hpc, hl]; exact .take)
  | sleepRelease hpc | release hpc => exact h.give rfl rfl (by rw [hpc]; rfl) rfl (by rw [hpc]; exact .keep _ _)
  | sleepState hpc | resume hpc | wakeRelease hpc => exact h.keep rfl rfl (by rw [hpc]; rfl) (by rw [hpc]; exact .give _)

end

/-! ## The operations take effect one after the other

`Good p o v` is what the run promises of the resource `v` that operation `o` of `p` finds, beyond its guard. -/

/-- No promise. -/
def anyValue : π → O → R → Prop := fun _ _ _ => True

/-- Operation `d` finds the resource as `v`, with its guard true, and leaves it as `w`. -/
def Monitor.Effect (M : Monitor ι π O R ρ) (Good : π → O → R → Prop) (d : Done π O ρ) (v w : R) : Prop :=
  ((M.op d.op).guard v = true ∧ Good d.proc d.op v) ∧ d.ret = (M.op d.op).ret d.proc v ∧ w = (M.op d.op).act d.proc v

/-- One operation of the list at a time makes `v` of the first value of resource `i`. -/
inductive History (M : Monitor ι π O R ρ) (Good : π → O → R → Prop) (i : ι) : List (Done π O ρ) → R → Prop
  | nil : History M Good i [] (M.first i)
  | snoc {ds : List (Done π O ρ)} {d : Done π O ρ} {v w : R} :
      History M Good i ds v → M.on d.op = i → M.Effect Good d v w → History M Good i (ds ++ [d]) w
  | other {ds : List (Done π O ρ)} {d : Done π O ρ} {v : R} :
      History M Good i ds v → M.on d.op ≠ i → History M Good i (ds ++ [d]) v

theorem Monitor.inside_of_acted {k : Pc O ρ} {r : ρ} (h : k.acted = some (o, r)) : M.inside k = some (M.on o) := by
  cases k <;> simp only [Pc.acted, reduceCtorEq, Option.some.injEq, Prod.mk.injEq] at h
  all_goals
    obtain ⟨rfl, -⟩ := h
    rfl

/-- The resources are what the completed operations have made of them, and the one that is about to return. -/
structure Linear (M : Monitor ι π O R ρ) (Good : π → O → R → Prop) (S : St ι π O R ρ) : Prop where
  settled : ∀ i, (∀ p o r, (S.pc p).acted = some (o, r) → M.on o ≠ i) → History M Good i S.done (S.res i)
  pending : ∀ p o r, (S.pc p).acted = some (o, r) →
    ∃ v, History M Good (M.on o) S.done v ∧ M.Effect Good ⟨p, o, r⟩ v (S.res (M.on o))

variable {Good : π → O → R → Prop}

theorem Linear.start : Linear M Good M.start := ⟨fun _ _ => .nil, nofun⟩

/-- At the test the caller has the lock, so nobody has an operation on this resource pending. -/
theorem Excl.nobody_acted (he : Excl M S) (hpc : S.pc p = .test o) (q : π) (o' : O) (r : ρ)
    (hq : (S.pc q).acted = some (o', r)) : M.on o' ≠ M.on o := by
  intro hon
  have hp : M.inside (S.pc p) = some (M.on o) := by rw [hpc]; rfl
  have hqp : q = p := he.same ((Monitor.inside_of_acted hq).trans (congrArg some hon)) hp
  rw [hqp, hpc] at hq
  cases hq

/-- What an operation finds is what the completed ones have made of the resource. -/
theorem Linear.found (h : Linear M Good S) (he : Excl M S) (hpc : S.pc p = .test o) :
    History M Good (M.on o) S.done (S.res (M.on o)) :=
  h.settled _ (he.nobody_acted hpc)

/-- While the lock is free, the resource is what the completed operations have made of it. -/
theorem Linear.history (h : Linear M Good S) (he : Excl M S) (hfree : S.lock i = none) : History M Good i S.done (S.res i) := by
  refine h.settled i fun p o r hp hon => ?_
  have hlock := (he.lock i p).mpr ((Monitor.inside_of_acted hp).trans (congrArg some hon))
  rw [hfree] at hlock
  cases hlock

/-- In any state: what the completed operations have made of the resource, and at most one more. -/
theorem Linear.past (h : Linear M Good S) (i : ι) : ∃ v, History M Good i S.done v ∧
    (S.res i = v ∨ ∃ p o r, (S.pc p).acted = some (o, r) ∧ M.on o = i ∧ M.Effect Good ⟨p, o, r⟩ v (S.res i)) := by
  by_cases hi : ∀ p o r, (S.pc p).acted = some (o, r) → M.on o ≠ i
  · exact ⟨S.res i, h.settled i hi, .inl rfl⟩
  · simp only [not_forall, ne_eq, not_not] at hi
    obtain ⟨p, o, r, hp, rfl⟩ := hi
    obtain ⟨v, hv, heff⟩ := h.pending p o r hp
    exact ⟨v, hv, .inr ⟨p, o, r, hp, rfl, heff⟩⟩

section

variable [DecidableEq π]

/-- A step before `act`, or between `act` and the return. -/
theorem Linear.keep {k : Pc O ρ} (h : Linear M Good S) (hpc : T.pc = update S.pc p k) (hres : T.res = S.res)
    (hdone : T.done = S.done) (hk : k.acted = (S.pc p).acted) : Linear M Good T := by
  have hacted : ∀ q, (T.pc q).acted = (S.pc q).acted := by
    intro q
    rw [hpc, update_apply]
    split
    · rename_i hq
      rw [hq, hk]
    · rfl
  constructor
  · intro i hi
    rw [hres, hdone]
    exact h.settled i fun q o r hq => hi q o r ((hacted q).trans hq)
  · intro q o r hq
    rw [hres, hdone]
    exact h.pending q o r ((hacted q).symm.trans hq)

variable [DecidableEq ι]

/-- `act`: the operation becomes the pending one. -/
theorem Linear.act (h : Linear M Good S) (he : Excl M S) (hpc : S.pc p = .test o)
    (hg : (M.op o).guard (S.res (M.on o)) = true) (hgood : Good p o (S.res (M.on o))) :
    Linear M Good (St.goto { S with res := update S.res (M.on o) ((M.op o).act p (S.res (M.on o))) } p
      (M.after o ((M.op o).ret p (S.res (M.on o))))) := by
  have hnone : (S.pc p).acted = none := by rw [hpc]; rfl
  have hother := he.nobody_acted hpc
  constructor
  · intro i hi
    have hne : i ≠ M.on o := by
      intro heq
      refine hi p o ((M.op o).ret p (S.res (M.on o))) ?_ heq.symm
      simp only [St.goto, update_self, (M.after_spec _ _).2.2.1]
    simp only [St.goto, update_of_ne hne]
    refine h.settled i fun q o' r hq => hi q o' r ?_
    have hqp : q ≠ p := by rintro rfl; rw [hnone] at hq; cases hq
    simpa only [St.goto, update_of_ne hqp] using hq
  · intro q o' r hq
    simp only [St.goto] at hq ⊢
    rcases eq_or_ne q p with rfl | hqp
    · rw [update_self, (M.after_spec _ _).2.2.1] at hq
      cases hq
      exact ⟨_, h.settled _ hother, ⟨hg, hgood⟩, rfl, by rw [update_self]⟩
    · rw [update_of_ne hqp] at hq
      rw [update_of_ne (hother q o' r hq)]
      exact h.pending q o' r hq

/-- The return: the pending operation is the next completed one. -/
theorem Linear.release {r : ρ} (h : Linear M Good S) (he : Excl M S) (hpc : S.pc p = .release o r) :
    Linear M Good (St.goto { S with
      lock := update S.lock (M.on o) none
      done := S.done ++ [⟨p, o, r⟩] } p .idle) := by
  have hp : (S.pc p).acted = some (o, r) := by rw [hpc]; rfl
  have hother : ∀ q o' r', q ≠ p → (S.pc q).acted = some (o', r') → M.on o ≠ M.on o' := by
    intro q o' r' hqp hq hon
    refine hqp (he.same (Monitor.inside_of_acted hq) ?_)
    rw [Monitor.inside_of_acted hp, hon]
  constructor
  · intro i hi
    simp only [St.goto]
    by_cases hon : M.on o = i
    · obtain ⟨v, hv, heff⟩ := h.pending p o r hp
      subst hon
      exact .snoc hv rfl heff
    · refine .other (h.settled i fun q o' r' hq => ?_) hon
      rcases eq_or_ne q p with rfl | hqp
      · rw [hp] at hq
        cases hq
        exact hon
      · refine hi q o' r' ?_
        simpa only [St.goto, update_of_ne hqp] using hq
  · intro q o' r' hq
    simp only [St.goto] at hq ⊢
    rcases eq_or_ne q p with rfl | hqp
    · rw [update_self] at hq
      cases hq
    · rw [update_of_ne hqp] at hq
      obtain ⟨v, hv, heff⟩ := h.pending q o' r' hq
      exact ⟨v, .other hv (hother q o' r' hqp hq), heff⟩

theorem Linear.step (h : Linear M Good S) (he : Excl M S)
    (hgood : ∀ p o, l = .step p → S.pc p = .test o → (M.op o).guard (S.res (M.on o)) = true → Good p o (S.res (M.on o)))
    (hs : M.Step S l T) : Linear M Good T := by
  cases hs with
  | kill _ => exact ⟨h.settled, h.pending⟩
  | act hpc hg => exact h.act he hpc hg (hgood _ _ rfl hpc hg)
  | release hpc => exact h.release he hpc
  | call hpc | acquire hpc _ | wait hpc _ | sleepAcquire hpc _ | sleepRelease hpc | sleepState hpc | wakened hpc _ _
  | resume hpc | wakeAcquire hpc _ | wakeup hpc | wakeRelease hpc => exact h.keep rfl rfl rfl (by rw [hpc]; rfl)

end

/-! ## Callers that keep to a rule

A rule `Ok p o ds` says when `p` may call `o`, from what has been completed.  What the others complete does
not take the permission away, so the rule still holds when the operation is completed. -/

/-- Every operation of the list was permitted by those before it. -/
inductive Disciplined (Ok : π → O → List (Done π O ρ) → Prop) : List (Done π O ρ) → Prop
  | nil : Disciplined Ok []
  | snoc {ds : List (Done π O ρ)} {d : Done π O ρ} :
      Disciplined Ok ds → Ok d.proc d.op ds → Disciplined Ok (ds ++ [d])

theorem Disciplined.last {Ok : π → O → List (Done π O ρ) → Prop} {ds : List (Done π O ρ)} {d : Done π O ρ}
    (h : Disciplined Ok (ds ++ [d])) : Disciplined Ok ds ∧ Ok d.proc d.op ds := by
  generalize hl : ds ++ [d] = l at h
  cases h with
  | nil => exact absurd hl (by simp)
  | snoc hds hok =>
    obtain ⟨rfl, hd⟩ := List.append_inj' hl rfl
    cases hd
    exact ⟨hds, hok⟩

theorem Pc.op_of_acted {k : Pc O ρ} {r : ρ} (h : k.acted = some (o, r)) : k.op = some o := by
  cases k <;> simp only [Pc.acted, reduceCtorEq, Option.some.injEq, Prod.mk.injEq] at h
  all_goals
    obtain ⟨rfl, -⟩ := h
    rfl

structure Obeys (Ok : π → O → List (Done π O ρ) → Prop) (S : St ι π O R ρ) : Prop where
  past : Disciplined Ok S.done
  current : ∀ p o, (S.pc p).op = some o → Ok p o S.done

section Rule

variable [DecidableEq π] {Ok : π → O → List (Done π O ρ) → Prop}

theorem Obeys.keep {k : Pc O ρ} (h : Obeys Ok S) (hpc : T.pc = update S.pc p k) (hdone : T.done = S.done)
    (hk : k.op = (S.pc p).op) : Obeys Ok T := by
  refine ⟨hdone ▸ h.past, fun q o hq => ?_⟩
  rw [hdone]
  refine h.current q o ?_
  rw [← hq, hpc, update_apply]
  split
  · rename_i hqp
    rw [hqp, hk]
  · rfl

variable [DecidableEq ι]

theorem Obeys.step (h : Obeys Ok S) (hstable : ∀ p o ds d, d.proc ≠ p → Ok p o ds → Ok p o (ds ++ [d]))
    (hc : ∀ p o, l = .call p o → Ok p o S.done) (hs : M.Step S l T) : Obeys Ok T := by
  cases hs with
  | kill _ => exact ⟨h.past, h.current⟩
  | @call p o hpc =>
    refine ⟨h.past, fun q o' hq => ?_⟩
    simp only [St.goto, update_apply] at hq ⊢
    split at hq
    · rename_i hqp
      subst hqp
      cases hq
      exact hc q o rfl
    · exact h.current q o' hq
  | @release p o r hpc =>
    refine ⟨h.past.snoc (h.current p o (by rw [hpc]; rfl)), fun q o' hq => ?_⟩
    simp only [St.goto, update_apply] at hq ⊢
    split at hq
    · cases hq
    · rename_i hqp
      exact hstable q o' _ _ (Ne.symm hqp) (h.current q o' hq)
  | act hpc hg => exact h.keep rfl rfl (by rw [hpc, (M.after_spec _ _).2.2.2]; rfl)
  | acquire hpc _ | wait hpc _ | sleepAcquire hpc _ | sleepRelease hpc | sleepState hpc | wakened hpc _ _
  | resume hpc | wakeAcquire hpc _ | wakeup hpc | wakeRelease hpc => exact h.keep rfl rfl (by rw [hpc]; rfl)

end Rule

/-! ## Nobody is left asleep -/

/-- `p` sleeps in operation `o`, or has given up the lock in order to. -/
def Waits (S : St ι π O R ρ) (M : Monitor ι π O R ρ) (p : π) (o : O) : Prop :=
  S.pc p = .sleepState o ∨ S.pc p = .asleep o ∧ S.status p = .sleeping (M.on o)

/-- Somebody still has to call `wakeup` for monitor `i`. -/
def Owed (S : St ι π O R ρ) (M : Monitor ι π O R ρ) (i : ι) : Prop :=
  ∃ q o r, (S.pc q = .wakeAcquire o r ∨ S.pc q = .wakeup o r) ∧ M.on o = i

/-- An operation that calls no `wakeup` makes no guard true that somebody waits for. -/
def Quiet (M : Monitor ι π O R ρ) (S : St ι π O R ρ) (l : Label π O) : Prop :=
  ∀ p o, l = .step p → S.pc p = .test o → (M.op o).wakes = false → (M.op o).guard (S.res (M.on o)) = true →
    ∀ q o', Waits S M q o' → M.on o' = M.on o → (M.op o').guard (S.res (M.on o)) = false →
      (M.op o').guard ((M.op o).act p (S.res (M.on o))) = false

structure Awake (M : Monitor ι π O R ρ) (S : St ι π O R ρ) : Prop where
  /-- Nobody is SLEEPING but in `sleep`. -/
  sleeping : ∀ p i, S.status p = .sleeping i → ∃ o, S.pc p = .asleep o ∧ M.on o = i
  /-- On the way into `sleep` the lock is held, and the guard stays as it was tested. -/
  tested : ∀ p o, S.pc p = .sleepAcquire o ∨ S.pc p = .sleepRelease o → (M.op o).guard (S.res (M.on o)) = false
  /-- Whose guard has become true will be woken. -/
  owed : ∀ p o, Waits S M p o → (M.op o).guard (S.res (M.on o)) = false ∨ Owed S M (M.on o)

theorem Awake.start : Awake M M.start := ⟨nofun, nofun, nofun⟩

/-- While the lock is free, whoever is SLEEPING waits for a guard that is false. -/
theorem Awake.unready (h : Awake M S) (he : Excl M S) (hfree : S.lock i = none) (hs : S.status p = .sleeping i) :
    ∃ o, S.pc p = .asleep o ∧ M.on o = i ∧ (M.op o).guard (S.res i) = false := by
  obtain ⟨o, hpc, rfl⟩ := h.sleeping p i hs
  refine ⟨o, hpc, rfl, ?_⟩
  rcases h.owed p o (.inr ⟨hpc, hs⟩) with hfalse | ⟨q, o', r, hq, hon⟩
  · exact hfalse
  · have hlock : S.lock (M.on o) = some q := (he.lock _ q).mpr (by rcases hq with hq | hq <;> rw [hq, ← hon] <;> rfl)
    rw [hfree] at hlock
    cases hlock

variable [DecidableEq π]

section

variable {k : Pc O ρ} (h : Awake M S) (hpc : T.pc = update S.pc p k) (hres : T.res = S.res)
  (htest : ∀ o, k = .sleepAcquire o ∨ k = .sleepRelease o → (M.op o).guard (S.res (M.on o)) = false)
  (howed : ∀ o r, S.pc p = .wakeAcquire o r ∨ S.pc p = .wakeup o r → k = .wakeAcquire o r ∨ k = .wakeup o r)

include h hpc hres htest howed

/-- What one process does to the sleepers, when the resources stay as they are and nobody is woken: it may fall
    asleep itself. -/
theorem Awake.move (hstatus : ∀ q, q ≠ p → T.status q = S.status q)
    (hsleep : ∀ i, T.status p = .sleeping i → ∃ o, k = .asleep o ∧ M.on o = i)
    (hwait : ∀ o, k = .sleepState o ∨ k = .asleep o ∧ T.status p = .sleeping (M.on o) →
      (M.op o).guard (S.res (M.on o)) = false ∨ Owed S M (M.on o)) : Awake M T := by
  have hkeep : ∀ i, Owed S M i → Owed T M i := by
    rintro i ⟨q, o, r, hq, hi⟩
    refine ⟨q, o, r, ?_, hi⟩
    rw [hpc, update_apply]
    split
    · rename_i hqp
      exact howed o r (hqp ▸ hq)
    · exact hq
  refine ⟨fun q i hq => ?_, fun q o hq => ?_, fun q o hq => ?_⟩
  · rcases eq_or_ne q p with rfl | hqp
    · rw [hpc, update_self]
      exact hsleep i hq
    · rw [hpc, update_of_ne hqp]
      exact h.sleeping q i (hstatus q hqp ▸ hq)
  · rw [hres]
    rcases eq_or_ne q p with rfl | hqp
    · rw [hpc, update_self] at hq
      exact htest o hq
    · rw [hpc, update_of_ne hqp] at hq
      exact h.tested q o hq
  · rw [hres]
    unfold Waits at hq
    rcases eq_or_ne q p with rfl | hqp
    · rw [hpc, update_self] at hq
      exact (hwait o hq).imp_right (hkeep _)
    · rw [hpc, update_of_ne hqp, hstatus q hqp] at hq
      exact (h.owed q o hq).imp_right (hkeep _)

/-- The same for a step on the CPU, which leaves the process's state as it is. -/
theorem Awake.stay (hstatus : T.status = S.status) (hp : ∀ o, S.pc p ≠ .asleep o)
    (hwait : ∀ o, k = .sleepState o → (M.op o).guard (S.res (M.on o)) = false ∨ Owed S M (M.on o)) : Awake M T := by
  have hawake : ∀ i, T.status p ≠ .sleeping i := by
    intro i hi
    obtain ⟨o, hq, -⟩ := h.sleeping p i (hstatus ▸ hi)
    exact hp o hq
  refine h.move hpc hres htest howed (fun q _ => by rw [hstatus]) (fun i hi => absurd hi (hawake i)) ?_
  rintro o (hk | ⟨-, hs⟩)
  · exact hwait o hk
  · exact absurd hs (hawake _)

end

theorem Awake.kill (h : Awake M S) : Awake M (S.kill p) := by
  have hstatus : ∀ q i, (S.kill p).status q = .sleeping i → S.status q = .sleeping i := by
    intro q i hq
    simp only [St.kill, update_apply] at hq
    split at hq
    · split at hq
      · cases hq
      · rename_i hqp _ _
        rwa [hqp]
    · exact hq
  exact ⟨fun q i hq => h.sleeping q i (hstatus q i hq), h.tested,
    fun q o hq => h.owed q o (hq.imp_right (And.imp_right (hstatus q (M.on o))))⟩

variable [DecidableEq ι]

/-- `wakeup`: whoever slept no longer does, and nobody can be on the way while the table's lock is held. -/
theorem Awake.wakeup {r : ρ} (h : Awake M S) (he : Excl M S) (hpc : S.pc p = .wakeup o r) :
    Awake M ((S.wake (M.on o)).goto p (.wakeRelease o r)) := by
  have hstatus : ∀ q i, (S.wake (M.on o)).status q = .sleeping i → S.status q = .sleeping i ∧ i ≠ M.on o := by
    intro q i hq
    simp only [St.wake] at hq
    split at hq
    · cases hq
    · rename_i hne
      refine ⟨hq, ?_⟩
      rintro rfl
      exact hne hq
  have hpc' : ∀ q k, k ≠ Pc.wakeRelease o r → update S.pc p (.wakeRelease o r) q = k → S.pc q = k := by
    intro q k hk hq
    rw [update_apply] at hq
    split at hq
    · exact absurd hq.symm hk
    · exact hq
  refine ⟨fun q i hq => ?_, fun q o' hq => ?_, fun q o' hq => ?_⟩
  · obtain ⟨o', hq', hi⟩ := h.sleeping q i (hstatus q i hq).1
    refine ⟨o', ?_, hi⟩
    have hqp : q ≠ p := by rintro rfl; rw [hpc] at hq'; cases hq'
    exact (update_of_ne hqp _ _).trans hq'
  · exact h.tested q o' (hq.imp (hpc' q _ nofun) (hpc' q _ nofun))
  · rcases hq with hq | ⟨hq, hsleep⟩
    · have htab : S.table = some q := (he.table q).mpr (by rw [hpc' q _ (by nofun) hq]; rfl)
      have htab' : S.table = some p := (he.table p).mpr (by rw [hpc]; rfl)
      obtain rfl : q = p := Option.some.inj (htab.symm.trans htab')
      simp only [St.goto, update_self] at hq
      cases hq
    · obtain ⟨hold, hne⟩ := hstatus q _ hsleep
      refine (h.owed q o' (.inr ⟨hpc' q _ nofun hq, hold⟩)).imp_right ?_
      rintro ⟨q', o'', r', hq', hon⟩
      have hqp : q' ≠ p := by
        rintro rfl
        rw [hpc] at hq'
        rcases hq' with hq' | hq' <;> cases hq'
        exact hne hon.symm
      refine ⟨q', o'', r', ?_, hon⟩
      simpa only [St.goto, St.wake, update_of_ne hqp] using hq'

/-- `act`: whoever waits is either owed a `wakeup` from now on, or nothing has changed for them. -/
theorem Awake.act (h : Awake M S) (he : Excl M S) (hc : Quiet M S (.step p)) (hpc : S.pc p = .test o)
    (hg : (M.op o).guard (S.res (M.on o)) = true) :
    Awake M (St.goto { S with res := update S.res (M.on o) ((M.op o).act p (S.res (M.on o))) } p
      (M.after o ((M.op o).ret p (S.res (M.on o))))) := by
  have hafter : ∀ k : Pc O ρ, M.after o ((M.op o).ret p (S.res (M.on o))) = k → k.acted ≠ none := by
    rintro k rfl
    rw [(M.after_spec _ _).2.2.1]
    nofun
  have hpc' : ∀ q k, k.acted = none →
      update S.pc p (M.after o ((M.op o).ret p (S.res (M.on o)))) q = k → q ≠ p ∧ S.pc q = k := by
    intro q k hk hq
    rcases eq_or_ne q p with rfl | hqp
    · rw [update_self] at hq
      exact absurd hk (hafter k hq)
    · exact ⟨hqp, by rwa [update_of_ne hqp] at hq⟩
  have hp : M.inside (S.pc p) = some (M.on o) := by rw [hpc]; rfl
  refine ⟨fun q i hq => ?_, fun q o' hq => ?_, fun q o' hq => ?_⟩
  · obtain ⟨o', hq', hi⟩ := h.sleeping q i hq
    have hqp : q ≠ p := by rintro rfl; rw [hpc] at hq'; cases hq'
    exact ⟨o', (update_of_ne hqp _ _).trans hq', hi⟩
  · have hold : q ≠ p ∧ (S.pc q = .sleepAcquire o' ∨ S.pc q = .sleepRelease o') := by
      rcases hq with hq | hq
      · exact (hpc' q _ rfl hq).imp_right .inl
      · exact (hpc' q _ rfl hq).imp_right .inr
    have hne : M.on o' ≠ M.on o := by
      intro hon
      refine hold.1 (he.same (i := M.on o) ?_ hp)
      rcases hold.2 with hq' | hq' <;> rw [hq', ← hon] <;> rfl
    simp only [St.goto, update_of_ne hne]
    exact h.tested q o' hold.2
  · have hold : q ≠ p ∧ Waits S M q o' := by
      rcases hq with hq | ⟨hq, hs⟩
      · exact (hpc' q _ rfl hq).imp_right .inl
      · exact (hpc' q _ rfl hq).imp_right fun hq' => .inr ⟨hq', hs⟩
    have howed : ∀ q' o'' r', S.pc q' = .wakeAcquire o'' r' ∨ S.pc q' = .wakeup o'' r' → q' ≠ p := by
      rintro q' o'' r' hq' rfl
      rw [hpc] at hq'
      rcases hq' with hq' | hq' <;> cases hq'
    by_cases hon : M.on o' = M.on o
    · cases hw : (M.op o).wakes with
      | true =>
        refine .inr ⟨p, o, (M.op o).ret p (S.res (M.on o)), .inl ?_, hon.symm⟩
        simp only [St.goto, update_self, Monitor.after, hw, if_true]
      | false =>
        refine .inl ?_
        simp only [St.goto, hon, update_self]
        refine hc p o rfl hpc hw hg q o' hold.2 hon ?_
        rcases h.owed q o' hold.2 with hfalse | ⟨q', o'', r', hq', hon'⟩
        · rwa [hon] at hfalse
        · refine absurd (he.same (i := M.on o) ?_ hp) (howed q' o'' r' hq')
          rcases hq' with hq' | hq' <;> rw [hq', ← hon, ← hon'] <;> rfl
    · simp only [St.goto, update_of_ne hon]
      refine (h.owed q o' hold.2).imp_right ?_
      rintro ⟨q', o'', r', hq', hon'⟩
      refine ⟨q', o'', r', ?_, hon'⟩
      simpa only [update_of_ne (howed q' o'' r' hq')] using hq'

theorem Awake.step (h : Awake M S) (he : Excl M S) (hc : Quiet M S l) (hs : M.Step S l T) : Awake M T := by
  cases hs with
  | kill _ => exact h.kill
  | wakeup hpc => exact h.wakeup he hpc
  | act hpc hg => exact h.act he hc hpc hg
  | wait hpc hg =>
    refine h.stay rfl rfl ?_ (by rw [hpc]; nofun) rfl (by rw [hpc]; nofun) nofun
    rintro o' (hk | hk) <;> cases hk
    exact hg
  | @sleepAcquire p o hpc _ =>
    refine h.stay rfl rfl ?_ (by rw [hpc]; nofun) rfl (by rw [hpc]; nofun) nofun
    rintro o' (hk | hk) <;> cases hk
    exact h.tested p o (.inl hpc)
  | @sleepRelease p o hpc =>
    refine h.stay rfl rfl nofun (by rw [hpc]; nofun) rfl (by rw [hpc]; nofun) ?_
    rintro o' hk
    cases hk
    exact .inl (h.tested p o (.inr hpc))
  | @sleepState p o hpc =>
    refine h.move rfl rfl nofun (by rw [hpc]; nofun) (fun q hq => update_of_ne hq _ _) (fun i hi => ?_) ?_
    · simp only [St.goto, update_self, Status.sleeping.injEq] at hi
      exact ⟨o, rfl, hi⟩
    · rintro o' (hk | ⟨hk, -⟩) <;> cases hk
      exact h.owed p o (.inl hpc)
  | @wakened p o hpc _ _ =>
    refine h.move rfl rfl nofun (by rw [hpc]; nofun) (fun q hq => update_of_ne hq _ _) (fun i hi => ?_) nofun
    simp only [St.goto, update_self, reduceCtorEq] at hi
  | wakeAcquire hpc _ =>
    refine h.stay rfl rfl nofun ?_ rfl (by rw [hpc]; nofun) nofun
    rw [hpc]
    rintro o' r' (hk | hk) <;> cases hk
    exact .inr rfl
  | call hpc | acquire hpc _ | resume hpc | wakeRelease hpc | release hpc =>
    exact h.stay rfl rfl nofun (by rw [hpc]; nofun) rfl (by rw [hpc]; nofun) nofun

end Monitors
