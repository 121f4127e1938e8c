/-
  WHO SLEEPS ON A SEMAPHORE.

  `sem_acquire` sleeps while `val < 1`.  `sem_release` raises `val` and calls `wakeup` before it gives the lock up,
  so it strands nobody.  `sem_init` sets `val` and calls no `wakeup`: a process that has called `sem_acquire` before
  the semaphore was initialised sleeps on, with `val` positive, until somebody calls `sem_release`.

  1. **`stranded_early`** — the run that shows it.
  2. **`no_waiter_stranded`** — in any run in which no `sem_init` makes `val` positive while somebody sleeps on the
     semaphore, or is about to (`NotLate`), nobody sleeps on a semaphore with `val ≥ 1` whose lock is free.
-/
import Xv6.Sem.Spoons

namespace Xv6.Sem

open Machines Monitors

variable {π : Type} [DecidableEq π] {S T : St (Fin 6) π Call Semaphore Int} {l : Label π Call} {i : Fin 6} {p : π}

/-- No `sem_init` makes `val` positive while somebody sleeps on the semaphore, or has given up its lock in order
    to. -/
def NotLate (S : St (Fin 6) π Call Semaphore Int) (l : Label π Call) : Prop :=
  ∀ p i v, l = .step p → S.pc p = .test (.semInit i v) → (S.res i).locked = 0 → 1 ≤ v →
    ∀ q o, Waits S spoons q o → o.sem ≠ i

omit [DecidableEq π] in
/-- Among the calls without `wakeup`, `sem_acquire` lowers `val`, and `sem_init` is excluded. -/
theorem NotLate.quiet (h : NotLate S l) : Quiet spoons S l := by
  intro p o hl hpc hw hguard q o' hwaits hon hfalse
  cases o' with
  | semInit j v | semRelease j => cases hfalse
  | semAcquire j =>
    cases o with
    | semRelease i => cases hw
    | semAcquire i =>
      -- the caller has found the semaphore open that the other waits for
      exact absurd (of_decide_eq_true hguard) (of_decide_eq_false hfalse)
    | semInit i v =>
      simp only [spoons, semInit]
      split
      · exact hfalse
      · rename_i hlocked
        refine decide_eq_false fun hv => ?_
        exact h p i v hl hpc (not_not.mp hlocked) hv q _ hwaits hon

theorem awake_of_reachable (h : spoons.machine.Reachable NotLate S) : Excl spoons S ∧ Awake spoons S := by
  refine Machine.invariant (I := fun S => Excl spoons S ∧ Awake spoons S) ?_ ?_ h
  · rintro _ rfl
    exact ⟨Excl.start, Awake.start⟩
  · rintro S l T ⟨he, ha⟩ hc hs
    have hs' := Monitor.step_cases hs
    exact ⟨he.step hs', ha.step he hc.quiet hs'⟩

/-- **No waiter is stranded**, if no `sem_init` comes late. -/
theorem no_waiter_stranded (h : spoons.machine.Reachable NotLate S) (i : Fin 6) (hfree : S.lock i = none)
    (hval : 1 ≤ (S.res i).val) (p : π) : S.status p ≠ .sleeping i := by
  intro hs
  obtain ⟨he, ha⟩ := awake_of_reachable h
  obtain ⟨o, -, rfl, hfalse⟩ := ha.unready he hfree hs
  cases o with
  | semInit j v | semRelease j => cases hfalse
  | semAcquire j => exact of_decide_eq_false hfalse hval

/-- A process that is in `sleep` and does not hold the semaphore's lock. -/
def dozes : Pc Call Int → Bool
  | .sleepState _ | .asleep _ => true
  | _ => false

/-- A stronger condition, for the run below: `sem_init` acts only while nobody is in `sleep`. -/
def Unhurried (S : St (Fin 6) (Fin 2) Call Semaphore Int) : Label (Fin 2) Call → Prop
  | .step p =>
    match S.pc p with
    | .test (.semInit _ _) => ∀ q, dozes (S.pc q) = false
    | _ => True
  | _ => True

instance (S : St (Fin 6) (Fin 2) Call Semaphore Int) (l : Label (Fin 2) Call) : Decidable (Unhurried S l) := by
  unfold Unhurried
  split
  · split <;> infer_instance
  · infer_instance

theorem Unhurried.notLate {S : St (Fin 6) (Fin 2) Call Semaphore Int} {l : Label (Fin 2) Call} (h : Unhurried S l) :
    NotLate S l := by
  rintro p i v rfl hpc - - q o hwaits -
  simp only [Unhurried, hpc] at h
  have hq := h q
  rcases hwaits with hs | ⟨hs, -⟩ <;> rw [hs] at hq <;> cases hq

/-- Process 0 initialises semaphore 0 with 1 and takes it; process 1 sleeps; process 0 releases. -/
def woken : List (Label (Fin 2) Call) :=
  [.call 0 (.semInit 0 1), .step 0, .step 0, .step 0, .call 0 (.semAcquire 0), .step 0, .step 0, .step 0,
    .call 1 (.semAcquire 0), .step 1, .step 1, .step 1, .step 1, .step 1, .call 0 (.semRelease 0)] ++
    List.replicate 6 (.step 0)

theorem no_waiter_stranded_woken : ∃ S : St (Fin 6) (Fin 2) Call Semaphore Int, spoons.machine.Reachable NotLate S ∧
    (S.lock 0 = none ∧ 1 ≤ (S.res 0).val ∧ S.pc 1 = .asleep (.semAcquire 0)) ∧ S.status 1 ≠ .sleeping 0 := by
  have hinit : (spoons (π := Fin 2)).machine.init spoons.start := rfl
  have hrun : ((spoons (π := Fin 2)).machine.runIf Unhurried spoons.start woken).any (fun S =>
      decide (S.lock 0 = none ∧ 1 ≤ (S.res 0).val ∧ S.pc 1 = .asleep (.semAcquire 0))) = true := by decide +kernel
  obtain ⟨S, hreach, hfree, hval, hpc⟩ := Machine.reachable_of_runIf hinit hrun
  have hlate : spoons.machine.Reachable NotLate S := hreach.mono fun _ _ hc => hc.notLate
  exact ⟨S, hlate, ⟨hfree, hval, hpc⟩, no_waiter_stranded hlate 0 hfree hval 1⟩

/-- Process 0 sleeps on semaphore 0, which nobody has initialised; process 1 initialises it with 1. -/
def earlyAcquire : List (Label (Fin 2) Call) :=
  [.call 0 (.semAcquire 0), .step 0, .step 0, .step 0, .step 0, .step 0, .call 1 (.semInit 0 1), .step 1, .step 1, .step 1]

theorem stranded_early : ∃ S : St (Fin 6) (Fin 2) Call Semaphore Int, spoons.machine.Reachable anyStep S ∧
    S.lock 0 = none ∧ 1 ≤ (S.res 0).val ∧ S.status 0 = .sleeping 0 := by
  have hinit : (spoons (π := Fin 2)).machine.init spoons.start := rfl
  have hrun : ((spoons (π := Fin 2)).machine.run spoons.start earlyAcquire).any
      (fun S => decide (S.lock 0 = none ∧ 1 ≤ (S.res 0).val ∧ S.status 0 = .sleeping 0)) = true := by decide +kernel
  exact Machine.reachable_of_run hinit hrun

end Xv6.Sem
