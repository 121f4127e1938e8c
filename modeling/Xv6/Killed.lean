/-
  KILLED PROCESSES AND SLEEP — what `kill` does to a process in a call that sleeps.

  `kill` sets `killed` and wakes the process if it is SLEEPING.  A process that is about to be SLEEPING is not: it has
  looked at `killed` before, and goes to sleep with the flag set.

  1. **`pipewrite`, `piperead`, `consoleread`, `sys_sleep`** look at `killed` each time before they sleep, under a lock that
     `kill` does not need.  So they keep the promise unless the `kill` falls between the look and the sleep.
  2. **`wait`** looks at `killed` under `ptable.lock`, which `kill` needs and `sleep` keeps: there is no such gap.
  3. **`sem_acquire`** does not look at all: a killed process that is woken and finds `val < 1` sleeps again.
  4. **`killed_not_asleep`** — the conditions under which nobody is left asleep; **`asleep_killed`** — two runs that break
     them.
-/
import Xv6.Console.Keys
import Xv6.Pipe.Steps
import Xv6.Sched.Reap
import Xv6.Sem.Spoons

namespace Xv6

open Machines
open Function (update update_self update_of_ne)
open Naps (Spared Code status_update)

/-! ## Pipes -/

namespace Pipe

variable {n : Nat} {S T : St n} {p : Fin n} {l : Label n}

/-- Between the look at `killed` and SLEEPING. -/
def Pc.dropping : Pc → Bool
  | .wakeFull .. | .sleepAcquire _ | .sleepRelease _ | .sleepState _ => true
  | _ => false

/-- Nobody is killed while it is falling asleep. -/
def Patient (S : St n) (l : Label n) : Prop := ∀ p, l = .kill p → (S.pc p).dropping = false

def Alert (S : St n) : Prop := Spared (fun p => (S.pc p).dropping = true) (fun p => ∃ c, S.status p = .sleeping c) S.killed

theorem Alert.dropping (h : Alert S) (hp : (S.pc p).dropping = true) : S.killed p = false := h p (.inl hp)

/-- The loops look at `killed` before they go on to sleep. -/
theorem alive_of_test {c : Call} (hpc : S.pc p = .test c) (hs : act S p = some T) (hd : (T.pc p).dropping = true) :
    S.killed p = false := by
  by_contra hk
  rw [Bool.not_eq_false] at hk
  cases c with
  | write id src i =>
    simp only [act, hpc, hk, or_true, if_true] at hs
    split at hs
    · cases hs
      simp only [St.setPc, update_self] at hd
      cases hd
    · split at hs <;> cases hs <;> simp only [St.setPc, update_self] at hd <;> cases hd
  | read id k =>
    simp only [act, hpc, hk, if_true] at hs
    split at hs <;> cases hs <;> simp only [St.setPc, update_self] at hd <;> cases hd

theorem sleeping_of_wakeup {c d : Chan} {q : Fin n} (h : (S.wakeup c).status q = .sleeping d) : S.status q = .sleeping d := by
  simp only [St.wakeup] at h
  split at h
  · cases h
  · exact h

theorem Alert.step (h : Alert S) (hc : Patient S l) (hs : step S l = some T) : Alert T := by
  cases step_cases hs with
  | @kill p _ =>
    refine Naps.Spared.kill h (Bool.eq_false_iff.mp (hc p rfl)) ?_ fun q hq ⟨c, hs⟩ => ⟨c, ?_⟩
    · rintro ⟨c, hs⟩
      simp only [St.kill, update_self] at hs
      cases hst : S.status p <;> rw [hst] at hs <;> cases hs
    · exact (update_of_ne hq _ _).symm.trans hs
  | writeFull hpc _ _ | readEmpty hpc _ _ =>
    refine Naps.Spared.move h (fun _ => alive_of_test (S := S) hpc hs ?_) fun _ => .inl
    simp only [St.setPc, update_self]
    rfl
  | wakeFull hpc _ =>
    exact Naps.Spared.move h (fun _ => h.dropping (by rw [hpc]; rfl)) fun _ ⟨c, hq⟩ => .inl ⟨c, sleeping_of_wakeup hq⟩
  | sleepAcquire hpc _ | sleepRelease hpc =>
    exact Naps.Spared.move h (fun _ => h.dropping (by rw [hpc]; rfl)) fun _ => .inl
  | sleepState hpc =>
    refine Naps.Spared.move h nofun fun _ ⟨d, hq⟩ => ?_
    exact (status_update (fun _ => by rw [hpc]; rfl) hq).imp_left fun hs => ⟨d, hs⟩
  | resume _ _ _ => exact Naps.Spared.move h nofun fun _ ⟨d, hq⟩ => (status_update nofun hq).imp_left fun hs => ⟨d, hs⟩
  | wakeEnd _ _ | closeWake _ _ => exact Naps.Spared.move h nofun fun _ ⟨c, hq⟩ => .inl ⟨c, sleeping_of_wakeup hq⟩
  | write _ _ | read _ _ | acquire _ _ | writeDone _ _ | writeFail _ _ _ _ | store _ _ _ | readFail _ _ _ _
  | readCopy _ | copy _ _ | copied _ | release _ | closeAcquire _ _ | closeFlag _ | closeEnd _ | close _ _ _ =>
    exact Naps.Spared.move h nofun fun _ => .inl

theorem alert_of_reachable (h : (machine n).Reachable Patient S) : Alert S := by
  refine Machine.invariant ?_ (fun _ _ _ hI hc hs => hI.step hc hs) h
  rintro S ⟨data, rfl⟩ p -
  rfl

end Pipe

/-! ## `sys_sleep` -/

namespace Clock

/-- `sys_sleep(n)`, the timer interrupt of CPU 0, and `sys_uptime` -/
inductive Call
  | sysSleep (n : BitVec 32)
  | timer
  | sysUptime

inductive Local
  /-- `ticks0`, once it has been read -/
  | sleep (n : BitVec 32) (ticks0 : Option (BitVec 32))
  /-- Before `ticks++`, and after `wakeup(&ticks)`. -/
  | timer (woken : Bool)
  | uptime

/-- `ticks`, under `tickslock` -/
def clock : Code Call Local (BitVec 32) (BitVec 32) where
  enter
    | .sysSleep n => .sleep n none
    | .timer => .timer false
    | .sysUptime => .uptime
  turn
    | .sleep n none, ticks => .go (.sleep n (some ticks)) ticks
    | .sleep n (some ticks0), ticks =>
      -- the comparison with the `int` is one of `uint`s
      if ticks - ticks0 < n then .wait (.sleep n (some ticks0)) else .stop ticks 0
    | .timer false, ticks => .wake (.timer true) (ticks + 1)
    | .timer true, ticks => .stop ticks 0
    | .uptime, ticks => .stop ticks ticks
  fail _ := -1
  first := 0

end Clock

/-! ## `wait` -/

namespace Sched

variable {nc : Nat} {S T : St nc} {p q : Slot} {l : Label nc}

/-- Who sleeps in `wait` has not been killed. -/
def Safe (t : Table) (p : Slot) : Pc → Prop
  | .sched (.wait _ _) | .resume (.wait _ _) => (t p).state = .sleeping → (t p).killed = false
  | _ => True

theorem Safe.move {t t' : Table} {n n' : Ids} {k k' : Pc} (hm : Move p t n k t' n' k') (h : Safe t p k) : Safe t' p k' := by
  cases hm with
  | hop hop =>
    cases hop with
    | switch r =>
      cases r with
      | wait cur q => exact h
      | _ => trivial
    | _ => trivial
  | waitSleep _ hk =>
    intro _
    rw [t.modify_self]
    exact hk
  | _ => trivial

/-- Who is killed in its sleep wakes. -/
theorem Change.killed_asleep {t t' : Table} {n n' : Ids} {k k' : Pc} (hm : Change q t n k t' n' k')
    (hs : (t' p).state = .sleeping) : (t' p).killed = (t p).killed := by
  cases hm with
  | same _ hkilled => exact hkilled p
  | alloc np _ _ ht | giveUp np _ ht | fill np _ ht | ready np _ ht =>
    rw [ht]
    exact Table.modify_field rfl p
  | exit _ ht =>
    rw [ht]
    exact (t.exit_exited q _).killed p
  | reap i b _ _ _ ht =>
    rw [ht] at hs ⊢
    rcases eq_or_ne p i with rfl | hpi
    · rw [t.modify_self] at hs
      cases hs
    · rw [t.modify_ne _ hpi]
  | kill pid _ ht =>
    rw [ht] at hs ⊢
    rcases t.kill_cases pid with ⟨hnone, -⟩ | ⟨r, -, -, hr⟩
    · rw [hnone]
    · rw [hr] at hs ⊢
      rcases eq_or_ne p r with rfl | hpr
      · rw [t.modify_self] at hs
        dsimp only at hs
        split at hs
        · cases hs
        · rename_i hne
          exact absurd hs hne
      · rw [t.modify_ne _ hpr]

/-- Somebody else does something. -/
theorem Safe.keep {t t' : Table} {k : Pc} (h : Safe t p k)
    (hsleep : (t' p).state = .sleeping → (t p).state = .sleeping ∧ (t' p).killed = (t p).killed) : Safe t' p k := by
  cases k with
  | sched r | resume r =>
    cases r with
    | wait cur s =>
      intro hs
      obtain ⟨hs', hk⟩ := hsleep hs
      rw [hk]
      exact h hs'
    | _ => trivial
  | _ => trivial

theorem Safe.step (h : ∀ p, Safe S.procs p (S.pc p)) (hI : Inv S) (hs : (machine nc).step S l = some T) (p : Slot) :
    Safe T.procs p (T.pc p) := by
  cases moves hI hs with
  | sched hx hm hpc _ =>
    rw [hpc]
    exact (h p).keep fun hs => ⟨((hm.apart p).2 hs).1, hm.killed p⟩
  | proc q hx hm ho =>
    rcases eq_or_ne p q with rfl | hpq
    · exact (h p).move hm
    · rcases ho p hpq with hpc | ⟨-, hpc⟩
      · rw [hpc]
        have hchange := hm.change fun j hj => hI.running_held hx (by rw [hj]; rfl)
        exact (h p).keep fun hs => ⟨((hm.apart hpq).2 hs).1, hchange.killed_asleep hs⟩
      · rw [hpc]
        trivial

theorem safe_reachable (h : (machine nc).Reachable anyStep S) : Inv S ∧ ∀ p, Safe S.procs p (S.pc p) := by
  refine Machine.invariant (I := fun S => Inv S ∧ ∀ p, Safe S.procs p (S.pc p)) ?_ ?_ h
  · rintro S ⟨kstack, pgdir, rfl⟩
    refine ⟨.init kstack pgdir, fun p => ?_⟩
    simp only [St.init]
    split <;> trivial
  · rintro S l T ⟨hI, hsafe⟩ - hs
    exact ⟨hI.step hs, Safe.step hsafe hI hs⟩

end Sched

/-! ## `sem_acquire` -/

namespace Sem

open Monitors

variable {π : Type} [DecidableEq π] {S T : St (Fin 6) π Call Semaphore Int} {l : Label π Call} {p : π}

/-- Between the test of `val` and SLEEPING. -/
def dropping : Pc Call Int → Bool
  | .sleepAcquire _ | .sleepRelease _ | .sleepState _ => true
  | _ => false

/-- Nobody is killed while it is falling asleep, and whoever has been killed finds the semaphore open. -/
structure Patient (S : St (Fin 6) π Call Semaphore Int) (l : Label π Call) : Prop where
  kill : ∀ p, l = .kill p → dropping (S.pc p) = false
  found : ∀ p i, l = .step p → S.pc p = .test (.semAcquire i) → S.killed p = true → 0 < (S.res i).val

def Alert (S : St (Fin 6) π Call Semaphore Int) : Prop :=
  Spared (fun p => dropping (S.pc p) = true) (fun p => ∃ i, S.status p = .sleeping i) S.killed

omit [DecidableEq π] in
theorem Alert.dropping (h : Alert S) (hp : dropping (S.pc p) = true) : S.killed p = false := h p (.inl hp)

theorem Alert.step (h : Alert S) (hc : Patient S l) (hs : spoons.Step S l T) : Alert T := by
  cases hs with
  | @kill p _ =>
    refine Naps.Spared.kill h (Bool.eq_false_iff.mp (hc.kill p rfl)) ?_ fun q hq ⟨i, hs⟩ => ⟨i, ?_⟩
    · rintro ⟨i, hs⟩
      simp only [St.kill, update_self] at hs
      cases hst : S.status p <;> rw [hst] at hs <;> cases hs
    · exact (update_of_ne hq _ _).symm.trans hs
  | @wait p o hpc hg =>
    refine Naps.Spared.move h (fun _ => ?_) fun _ => .inl
    cases o with
    | semInit i v | semRelease i => cases hg
    | semAcquire i =>
      by_contra hk
      exact of_decide_eq_false hg (hc.found p i rfl hpc (Bool.not_eq_false _ ▸ hk))
  | sleepAcquire hpc _ | sleepRelease hpc =>
    exact Naps.Spared.move h (fun _ => h.dropping (by rw [hpc]; rfl)) fun _ => .inl
  | sleepState hpc =>
    refine Naps.Spared.move h (by rintro ⟨⟩) fun _ hq => ?_
    obtain ⟨i, hq⟩ := hq
    exact (status_update (fun _ => by rw [hpc]; rfl) hq).imp_left fun hs => ⟨i, hs⟩
  | wakened _ _ _ =>
    refine Naps.Spared.move h (by rintro ⟨⟩) fun _ hq => ?_
    obtain ⟨i, hq⟩ := hq
    exact (status_update (by rintro ⟨⟩) hq).imp_left fun hs => ⟨i, hs⟩
  | wakeup _ =>
    refine Naps.Spared.move h (by rintro ⟨⟩) fun q hq => .inl ?_
    obtain ⟨i, hq⟩ := hq
    refine ⟨i, ?_⟩
    simp only [St.goto, St.wake] at hq
    split at hq
    · cases hq
    · exact hq
  | @act p o hpc _ =>
    refine Naps.Spared.move h (fun hk => ?_) fun _ => .inl
    unfold Monitor.after at hk
    split at hk <;> cases hk
  | call _ | acquire _ _ | resume _ | wakeAcquire _ _ | wakeRelease _ | release _ =>
    exact Naps.Spared.move h (by rintro ⟨⟩) fun _ => .inl

theorem alert_of_reachable (h : spoons.machine.Reachable Patient S) : Alert S := by
  refine Machine.invariant ?_ (fun _ _ _ hI hc hs => hI.step hc (Monitor.step_cases hs)) h
  rintro S rfl p -
  rfl

end Sem

/-! ## All of them -/

/-- **A killed process is not left asleep**: in `pipewrite`, `piperead`, `consoleread` and `sys_sleep`, if it is not killed
    between its look at `killed` and the point at which it is SLEEPING; in `wait`, always; in `sem_acquire`, if moreover
    it finds `val` positive when it has been killed. -/
theorem killed_not_asleep (n nc : Nat) (π : Type) [DecidableEq π] :
    (∀ S : Pipe.St n, (Pipe.machine n).Reachable Pipe.Patient S →
      ∀ p c, S.status p = .sleeping c → S.killed p = false) ∧
    (∀ (S : Naps.St π Console.Local Console.Input Console.Result),
      Console.console.machine.Reachable Naps.Patient S → ∀ p, S.status p = .sleeping → S.killed p = false) ∧
    (∀ (S : Naps.St π Clock.Local (BitVec 32) (BitVec 32)),
      Clock.clock.machine.Reachable Naps.Patient S → ∀ p, S.status p = .sleeping → S.killed p = false) ∧
    (∀ S : Sched.St nc, (Sched.machine nc).Reachable anyStep S →
      ∀ p cur q, S.pc p = .resume (.wait cur q) → (S.procs p).state = .sleeping → (S.procs p).killed = false) ∧
    (∀ (S : Monitors.St (Fin 6) π Sem.Call Sem.Semaphore Int),
      Sem.spoons.machine.Reachable Sem.Patient S → ∀ p i, S.status p = .sleeping i → S.killed p = false) := by
  refine ⟨fun S h p c hs => ?_, fun S h p hs => ?_, fun S h p hs => ?_, fun S h p cur q hpc hs => ?_,
    fun S h p i hs => ?_⟩
  · exact Pipe.alert_of_reachable h p (.inr ⟨c, hs⟩)
  · exact Naps.alert_of_reachable h p (.inr hs)
  · exact Naps.alert_of_reachable h p (.inr hs)
  · have hsafe := (Sched.safe_reachable h).2 p
    rw [hpc] at hsafe
    exact hsafe hs
  · exact Sem.alert_of_reachable h p (.inr ⟨i, hs⟩)

instance {n : Nat} (S : Pipe.St n) (l : Pipe.Label n) : Decidable (Pipe.Patient S l) :=
  match l with
  | .kill p => decidable_of_iff ((S.pc p).dropping = false) ⟨fun h q e => by cases e; exact h, fun h => h p rfl⟩
  | .write .. | .read .. | .close .. | .step _ => isTrue nofun

/-- Process 1 is killed; process 0 reads from the empty pipe. -/
def reads : List (Pipe.Label 2) := [.kill 1, .read 0 1, .step 0, .step 0, .step 0, .step 0, .step 0]

theorem killed_not_asleep_reads : ∃ S : Pipe.St 2, (Pipe.machine 2).Reachable Pipe.Patient S ∧
    S.status 0 = .sleeping .nread ∧ S.killed 1 = true ∧ S.killed 0 = false := by
  have hinit : (Pipe.machine 2).init (.init 2 fun _ => 0) := ⟨_, rfl⟩
  have hrun : ((Pipe.machine 2).runIf Pipe.Patient (.init 2 fun _ => 0) reads).any (fun S => decide
      (S.status 0 = .sleeping .nread ∧ S.killed 1 = true)) = true := by decide +kernel
  obtain ⟨S, hreach, hs, hk⟩ := Machine.reachable_of_runIf hinit hrun
  exact ⟨S, hreach, hs, hk, (killed_not_asleep 2 1 (Fin 2)).1 S hreach 0 .nread hs⟩

/-- A process sleeps in `sem_acquire` and is killed; it wakes, and finds the semaphore closed. -/
def sleepsAgain : List (Monitors.Label (Fin 1) Sem.Call) :=
  .call 0 (.semAcquire 0) :: List.replicate 5 (.step 0) ++ .kill 0 :: List.replicate 7 (.step 0)

/-- A process in `piperead` is killed just before it sleeps. -/
def killedTooSoon : List (Pipe.Label 1) := [.read 0 1, .step 0, .step 0, .kill 0, .step 0, .step 0, .step 0]

/-- Killed processes that sleep, with all the locks free. -/
theorem asleep_killed :
    (∃ S : Monitors.St (Fin 6) (Fin 1) Sem.Call Sem.Semaphore Int, Sem.spoons.machine.Reachable anyStep S ∧
      S.status 0 = .sleeping 0 ∧ S.killed 0 = true ∧ (∀ i, S.lock i = none) ∧ S.table = none) ∧
    ∃ S : Pipe.St 1, (Pipe.machine 1).Reachable anyStep S ∧
      S.status 0 = .sleeping .nread ∧ S.killed 0 = true ∧ S.lock = none ∧ S.ptlock = none := by
  have hsem : (Sem.spoons (π := Fin 1)).machine.init Sem.spoons.start := rfl
  have hpipe : (Pipe.machine 1).init (.init 1 fun _ => 0) := ⟨_, rfl⟩
  have hagain : ((Sem.spoons (π := Fin 1)).machine.run Sem.spoons.start sleepsAgain).any (fun S => decide
      (S.status 0 = .sleeping 0 ∧ S.killed 0 = true ∧ (∀ i, S.lock i = none) ∧ S.table = none)) = true := by
    decide +kernel
  have hsoon : ((Pipe.machine 1).run (.init 1 fun _ => 0) killedTooSoon).any (fun S => decide
      (S.status 0 = .sleeping .nread ∧ S.killed 0 = true ∧ S.lock = none ∧ S.ptlock = none)) = true := by
    decide +kernel
  exact ⟨Machine.reachable_of_run hsem hagain, Machine.reachable_of_run hpipe hsoon⟩

end Xv6
