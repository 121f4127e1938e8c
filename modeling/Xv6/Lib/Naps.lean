/-
  LOOPS THAT SLEEP, and processes that are killed.

      acquire(lock); for(;;){ .. if(killed){ release(lock); return -1; } sleep(chan, lock); .. } release(lock);

  A `Code` says what one turn of such a loop does to the resource that the lock protects, and whether it goes on,
  calls `wakeup`, stops, or has to wait.  Who has to wait looks at its `killed` flag first and then goes to sleep:
  `sleep` takes the lock of the process table, gives up the loop's lock, marks the process SLEEPING, and gives up the
  table's lock.  `kill` needs the table's lock too; it sets the flag, and wakes whoever is SLEEPING already.

  1. **`Step`** says once what a step can do.
  2. **`resource_invariant`** — what every turn preserves holds of the resource in every state.
  3. **`Spared`**, **`Alert`** — a process is not SLEEPING with its flag set, unless it was killed between its look at the
     flag and the point at which it is SLEEPING (`Patient`).
-/
import Mathlib
import Xv6.Lib.Machine

namespace Naps

open Machines
open Function (update update_self update_of_ne)

/-- One turn of a loop. -/
inductive Turn (L R ρ : Type)
  | go (l : L) (r : R)
  /-- `wakeup(chan)`, and on. -/
  | wake (l : L) (r : R)
  /-- `if(killed) ..; sleep(chan, lock)`, and on. -/
  | wait (l : L)
  | stop (r : R) (v : ρ)

/-- The resource after the turn. -/
def Turn.after {L R ρ : Type} (old : R) : Turn L R ρ → R
  | .go _ r | .wake _ r | .stop r _ => r
  | .wait _ => old

/-- A turn on another resource. -/
def Turn.map {L R R' ρ : Type} (f : R → R') : Turn L R ρ → Turn L R' ρ
  | .go l r => .go l (f r)
  | .wake l r => .wake l (f r)
  | .wait l => .wait l
  | .stop r v => .stop (f r) v

/-- Calls `O`, the local variables `L` of whoever is in one, the resource `R`, and what is returned. -/
structure Code (O L R ρ : Type) where
  enter : O → L
  turn : L → R → Turn L R ρ
  /-- What is returned by a process that has been killed. -/
  fail : L → ρ
  first : R

inductive Status
  | running
  | sleeping
  | runnable
  deriving DecidableEq

inductive Pc (L ρ : Type)
  | idle
  /-- `acquire(lock)`, on entry or at the end of `sleep` -/
  | acquire (l : L)
  | turn (l : L)
  /-- `wakeup`: `acquire` of the table's lock -/
  | wakeAcquire (l : L)
  | wakeup (l : L)
  | wakeRelease (l : L)
  /-- `sleep`: `acquire` of the table's lock -/
  | sleepAcquire (l : L)
  /-- `sleep`: `release(lock)` -/
  | sleepRelease (l : L)
  /-- `sleep`: the process is marked SLEEPING, and leaves its CPU -/
  | sleepState (l : L)
  | asleep (l : L)
  /-- `sleep`, back on a CPU: `release` of the table's lock -/
  | resume (l : L)
  /-- `release(lock)`, and return -/
  | release (v : ρ)

structure St (π L R ρ : Type) where
  res : R
  lock : Option π
  /-- The lock of the process table. -/
  table : Option π
  status : π → Status
  killed : π → Bool
  pc : π → Pc L ρ
  /-- History: who has returned what. -/
  returned : List (π × ρ)

inductive Label (π O : Type)
  | call (p : π) (o : O)
  | step (p : π)
  | kill (p : π)

variable {π O L R ρ : Type} [DecidableEq π]

namespace St

variable (S : St π L R ρ)

def goto (p : π) (k : Pc L ρ) : St π L R ρ := { S with pc := update S.pc p k }

/-- `wakeup1` -/
def wake : St π L R ρ :=
  { S with status := fun q => if S.status q = .sleeping then .runnable else S.status q }

/-- `kill` -/
def kill (p : π) : St π L R ρ :=
  { S with
    killed := update S.killed p true
    status := update S.status p (if S.status p = .sleeping then .runnable else S.status p) }

end St

namespace Code

variable (M : Code O L R ρ)

/-- What process `p` does next. -/
def next (S : St π L R ρ) (p : π) : Option (St π L R ρ) :=
  match S.pc p with
  | .idle => none
  | .acquire l => if S.lock = none then some ({ S with lock := some p }.goto p (.turn l)) else none
  | .turn l =>
    match M.turn l S.res with
    | .go l' r => some ({ S with res := r }.goto p (.turn l'))
    | .wake l' r => some ({ S with res := r }.goto p (.wakeAcquire l'))
    | .stop r v => some ({ S with res := r }.goto p (.release v))
    | .wait l' => some (S.goto p (if S.killed p then .release (M.fail l') else .sleepAcquire l'))
  | .wakeAcquire l => if S.table = none then some ({ S with table := some p }.goto p (.wakeup l)) else none
  | .wakeup l => some (S.wake.goto p (.wakeRelease l))
  | .wakeRelease l => some ({ S with table := none }.goto p (.turn l))
  | .sleepAcquire l => if S.table = none then some ({ S with table := some p }.goto p (.sleepRelease l)) else none
  | .sleepRelease l => some ({ S with lock := none }.goto p (.sleepState l))
  | .sleepState l => some (St.goto { S with
      table := none
      status := update S.status p .sleeping } p (.asleep l))
  | .asleep l =>
    -- the scheduler switches to the process with the table's lock held
    if S.status p = .runnable ∧ S.table = none then
      some (St.goto { S with table := some p, status := update S.status p .running } p (.resume l))
    else none
  | .resume l => some ({ S with table := none }.goto p (.acquire l))
  | .release v => some (St.goto { S with lock := none, returned := S.returned ++ [(p, v)] } p .idle)

def step (S : St π L R ρ) : Label π O → Option (St π L R ρ)
  | .call p o =>
    match S.pc p with
    | .idle => some (S.goto p (.acquire (M.enter o)))
    | _ => none
  | .step p => M.next S p
  | .kill p => if S.table = none then some (S.kill p) else none

/-- Nobody is in a call. -/
def start : St π L R ρ where
  res := M.first
  lock := none
  table := none
  status := fun _ => .running
  killed := fun _ => false
  pc := fun _ => .idle
  returned := []

def machine : Machine (St π L R ρ) (Label π O) where
  init := fun S => S = M.start
  step := M.step

/-- A call that is alone: the turns it takes until it returns, at most `fuel`; `none` if it has to wait. -/
def alone : Nat → L → R → Option (R × ρ)
  | 0, _, _ => none
  | fuel + 1, l, r =>
    match M.turn l r with
    | .go l' r' | .wake l' r' => alone fuel l' r'
    | .wait _ => none
    | .stop r' v => some (r', v)

/-- Everything a step can do. -/
inductive Step (S : St π L R ρ) : Label π O → St π L R ρ → Prop
  | call {p : π} {o : O} : S.pc p = .idle → Step S (.call p o) (S.goto p (.acquire (M.enter o)))
  | kill {p : π} : S.table = none → Step S (.kill p) (S.kill p)
  | acquire {p : π} {l : L} : S.pc p = .acquire l → S.lock = none →
      Step S (.step p) ({ S with lock := some p }.goto p (.turn l))
  | go {p : π} {l l' : L} {r : R} : S.pc p = .turn l → M.turn l S.res = .go l' r →
      Step S (.step p) ({ S with res := r }.goto p (.turn l'))
  | wake {p : π} {l l' : L} {r : R} : S.pc p = .turn l → M.turn l S.res = .wake l' r →
      Step S (.step p) ({ S with res := r }.goto p (.wakeAcquire l'))
  | stop {p : π} {l : L} {r : R} {v : ρ} : S.pc p = .turn l → M.turn l S.res = .stop r v →
      Step S (.step p) ({ S with res := r }.goto p (.release v))
  | fail {p : π} {l l' : L} : S.pc p = .turn l → M.turn l S.res = .wait l' → S.killed p = true →
      Step S (.step p) (S.goto p (.release (M.fail l')))
  | wait {p : π} {l l' : L} : S.pc p = .turn l → M.turn l S.res = .wait l' → S.killed p = false →
      Step S (.step p) (S.goto p (.sleepAcquire l'))
  | wakeAcquire {p : π} {l : L} : S.pc p = .wakeAcquire l → S.table = none →
      Step S (.step p) ({ S with table := some p }.goto p (.wakeup l))
  | wakeup {p : π} {l : L} : S.pc p = .wakeup l → Step S (.step p) (S.wake.goto p (.wakeRelease l))
  | wakeRelease {p : π} {l : L} : S.pc p = .wakeRelease l →
      Step S (.step p) ({ S with table := none }.goto p (.turn l))
  | sleepAcquire {p : π} {l : L} : S.pc p = .sleepAcquire l → S.table = none →
      Step S (.step p) ({ S with table := some p }.goto p (.sleepRelease l))
  | sleepRelease {p : π} {l : L} : S.pc p = .sleepRelease l →
      Step S (.step p) ({ S with lock := none }.goto p (.sleepState l))
  | sleepState {p : π} {l : L} : S.pc p = .sleepState l →
      Step S (.step p) (St.goto { S with
        table := none
        status := update S.status p .sleeping } p (.asleep l))
  | wakened {p : π} {l : L} : S.pc p = .asleep l → S.status p = .runnable → S.table = none →
      Step S (.step p) (St.goto { S with
        table := some p
        status := update S.status p .running } p (.resume l))
  | resume {p : π} {l : L} : S.pc p = .resume l → Step S (.step p) ({ S with table := none }.goto p (.acquire l))
  | release {p : π} {v : ρ} : S.pc p = .release v →
      Step S (.step p) (St.goto { S with lock := none, returned := S.returned ++ [(p, v)] } p .idle)

end Code

variable {M : Code O L R ρ} {S T : St π L R ρ} {p : π} {a : Label π O}

theorem Code.next_cases (h : M.next S p = some T) : M.Step S (.step p) T := by
  unfold Code.next at h
  cases hpc : S.pc p <;> simp only [hpc, reduceCtorEq, Option.ite_none_right_eq_some, Option.some.injEq] at h
  case turn l =>
    cases ht : M.turn l S.res <;> simp only [ht, Option.some.injEq] at h <;> subst h
    case go l' r => exact .go hpc ht
    case wake l' r => exact .wake hpc ht
    case stop r v => exact .stop hpc ht
    case wait l' =>
      cases hk : S.killed p with
      | true => exact .fail hpc ht hk
      | false => exact .wait hpc ht hk
  case asleep l =>
    obtain ⟨⟨hr, hl⟩, rfl⟩ := h
    exact .wakened hpc hr hl
  case' acquire | wakeAcquire | sleepAcquire => obtain ⟨hl, rfl⟩ := h
  case' wakeup | wakeRelease | sleepRelease | sleepState | resume | release => subst h
  all_goals constructor <;> assumption

theorem Code.step_cases (h : M.machine.step S a = some T) : M.Step S a T := by
  replace h : M.step S a = some T := h
  cases a with
  | step p => exact Code.next_cases h
  | call p o =>
    cases hpc : S.pc p <;> simp only [Code.step, hpc, reduceCtorEq, Option.some.injEq] at h
    subst h
    exact .call hpc
  | kill p =>
    simp only [Code.step, Option.ite_none_right_eq_some, Option.some.injEq] at h
    obtain ⟨hl, rfl⟩ := h
    exact .kill hl

/-! ## The resource -/

/-- Only a turn changes the resource. -/
theorem Code.Step.res (hs : M.Step S a T) :
    T.res = S.res ∨ ∃ p l, a = .step p ∧ S.pc p = .turn l ∧ T.res = (M.turn l S.res).after S.res := by
  cases hs with
  | go hpc ht | wake hpc ht | stop hpc ht => exact .inr ⟨_, _, rfl, hpc, by rw [ht]; rfl⟩
  | _ => exact .inl rfl

theorem Code.Step.res_turn {l : L} (hs : M.Step S (.step p) T) (hpc : S.pc p = .turn l) :
    T.res = (M.turn l S.res).after S.res := by
  cases hs with
  | go hpc' ht | wake hpc' ht | stop hpc' ht | fail hpc' ht _ | wait hpc' ht _ =>
    cases hpc.symm.trans hpc'
    rw [ht]
    rfl
  | acquire hpc' _ | wakeAcquire hpc' _ | wakeup hpc' | wakeRelease hpc' | sleepAcquire hpc' _ | sleepRelease hpc'
  | sleepState hpc' | wakened hpc' _ _ | resume hpc' | release hpc' => nomatch hpc.symm.trans hpc'

/-- **What every turn preserves holds of the resource.** -/
theorem Code.resource_invariant {C : St π L R ρ → Label π O → Prop} {I : R → Prop} (h0 : I M.first)
    (hturn : ∀ S p l, C S (.step p) → S.pc p = .turn l → I S.res → I ((M.turn l S.res).after S.res))
    (h : M.machine.Reachable C S) : I S.res := by
  refine Machine.invariant (I := fun S => I S.res) ?_ ?_ h
  · rintro S rfl
    exact h0
  · intro S a T hI hc hs
    rcases (Code.step_cases hs).res with hT | ⟨p, l, rfl, hpc, hT⟩
    · rw [hT]
      exact hI
    · rw [hT]
      exact hturn S p l hc hpc hI

/-! ## Killed processes -/

section Spared

variable {κ σ : Type} {falls sleeps sleeps' : π → Prop} {killed : π → Bool} {f : κ → Bool} {pc : π → κ} {k : κ} {p : π}
  {status : π → σ} {s x : σ}

/-- Who sleeps, or is on the way to it, has not been killed. -/
def Spared (falls sleeps : π → Prop) (killed : π → Bool) : Prop := ∀ p, falls p ∨ sleeps p → killed p = false

/-- Process `p` goes on: it is on the way to sleep only if it has not been killed, and sleeps only if it was on the
    way. -/
theorem Spared.move (h : Spared (fun q => f (pc q) = true) sleeps killed) (hk : f k = true → killed p = false)
    (hsleeps : ∀ q, sleeps' q → sleeps q ∨ q = p ∧ f (pc p) = true) :
    Spared (fun q => f (update pc p k q) = true) sleeps' killed := by
  rintro q (hq | hq)
  · by_cases hqp : q = p
    · subst hqp
      rw [update_self] at hq
      exact hk hq
    · rw [update_of_ne hqp] at hq
      exact h q (.inl hq)
  · rcases hsleeps q hq with hs | ⟨rfl, hf⟩
    · exact h q (.inr hs)
    · exact h q (.inl hf)

/-- Whose status is `x` when `p`'s is changed. -/
theorem status_update {P : Prop} {q : π} (hs : s = x → P) (h : update status p s q = x) : status q = x ∨ q = p ∧ P := by
  rcases eq_or_ne q p with rfl | hqp
  · rw [update_self] at h
    exact .inr ⟨rfl, hs h⟩
  · rw [update_of_ne hqp] at h
    exact .inl h

/-- Process `p` is killed, is awake then, and was not falling asleep. -/
theorem Spared.kill (h : Spared falls sleeps killed) (hfalls : ¬ falls p) (hawake : ¬ sleeps' p)
    (hothers : ∀ q, q ≠ p → sleeps' q → sleeps q) : Spared falls sleeps' (update killed p true) := by
  intro q hq
  have hqp : q ≠ p := by
    rintro rfl
    exact hq.elim hfalls hawake
  rw [update_of_ne hqp]
  exact h q (hq.imp_right (hothers q hqp))

end Spared

/-- Between the look at `killed` and SLEEPING. -/
def Pc.falling : Pc L ρ → Bool
  | .sleepAcquire _ | .sleepRelease _ | .sleepState _ => true
  | _ => false

/-- Nobody is killed while it is falling asleep. -/
def Patient (S : St π L R ρ) (a : Label π O) : Prop := ∀ p, a = .kill p → (S.pc p).falling = false

def Alert (S : St π L R ρ) : Prop :=
  Spared (fun p => (S.pc p).falling = true) (fun p => S.status p = .sleeping) S.killed

omit [DecidableEq π] in
theorem Alert.falling (h : Alert S) (hp : (S.pc p).falling = true) : S.killed p = false := h p (.inl hp)

theorem Alert.step (h : Alert S) (hc : Patient S a) (hs : M.Step S a T) : Alert T := by
  cases hs with
  | @kill p ht =>
    refine Spared.kill h (Bool.eq_false_iff.mp (hc p rfl)) ?_ fun q hq hs => ?_
    · simp only [St.kill, update_self]
      split
      · nofun
      · assumption
    · exact (update_of_ne hq _ _).symm.trans hs
  | wait _ _ hk => exact Spared.move h (fun _ => hk) fun _ => .inl
  | sleepAcquire hpc _ | sleepRelease hpc => exact Spared.move h (fun _ => h.falling (by rw [hpc]; rfl)) fun _ => .inl
  | sleepState hpc => exact Spared.move h nofun fun _ => status_update fun _ => by rw [hpc]; rfl
  | wakened _ _ _ => exact Spared.move h nofun fun _ => status_update nofun
  | wakeup _ =>
    refine Spared.move h nofun fun q hq => ?_
    simp only [St.goto, St.wake] at hq
    split at hq
    · cases hq
    · exact .inl hq
  | call _ | acquire _ _ | go _ _ | wake _ _ | stop _ _ | fail _ _ _ | wakeAcquire _ _ | wakeRelease _ | resume _
  | release _ => exact Spared.move h nofun fun _ => .inl

/-- **Nobody sleeps who has been killed**, if nobody is killed while falling asleep. -/
theorem alert_of_reachable (h : M.machine.Reachable Patient S) : Alert S := by
  refine Machine.invariant ?_ (fun _ _ _ hI hc hs => hI.step hc (Code.step_cases hs)) h
  rintro S rfl p -
  rfl

end Naps
