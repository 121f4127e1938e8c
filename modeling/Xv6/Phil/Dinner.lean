/-
  THE DINING PHILOSOPHERS (philosophers.c, philosopher.c) on the kernel's semaphores.

  `philosophers` initialises the six semaphores with 1 and starts five processes.  Philosopher `id` takes two of the
  spoons 0..4, in an order that depends on the parity of `id`, eats, puts them back and thinks; semaphore 5 guards the
  printing.  The programs run on the semaphores as the kernel implements them: every step of a philosopher is a step
  of its program or a step of the kernel in the call that it has made.

  1. The kernel's part of a state is a state of the semaphores' own machine (`Inv.run`): the programs use
     them as they should.  So the counts are right, and nobody is left asleep.
  2. What a philosopher holds is read off from where it is (`Inv.held`).
  3. **`dinner_safe`** — a spoon has one holder, one process prints, and somebody is not blocked.  The last is philosopher 0,
     if nobody else: were all blocked, then none would hold semaphore 5, so each would wait for a spoon; nobody's
     first spoon is 1, so philosopher 0 would not have got beyond its first, spoon 0; and only 4 could have taken
     that, as its SECOND.
-/
import Mathlib
import Xv6.Sem.Waiters

namespace Xv6.Phil

open Machines Monitors Sem
open Function (update update_self update_apply update_of_ne)

/-- The process of `philosophers`, and the five that it starts. -/
inductive Proc
  | parent
  | phil (id : Fin 5)
  deriving DecidableEq, Fintype

/-- Where `philosophers` is: at `sem_init(i, 1)`, at the `fork` of philosopher `i`, or waiting. -/
inductive Main
  | semInit (i : Fin 6)
  | fork (i : Fin 5)
  | wait
  deriving DecidableEq

/-- Where a philosopher is in its program. -/
inductive Point
  /-- not yet started -/
  | unborn
  /-- `sem_acquire(5); printf(.. ready ..); sem_release(5);` -/
  | readyAcquire | readyPrint | readyRelease
  /-- the two `sem_acquire` of the spoons -/
  | first | second
  /-- `sleep(200); sem_acquire(5); printf(.. started eating ..); sem_release(5);` -/
  | eatSleep | eatAcquire | eatPrint | eatRelease
  /-- `sem_release((phil_id+1)%5); sem_release(phil_id);` -/
  | putRight | putLeft
  /-- `sleep(100); sem_acquire(5); printf(.. is thinking ..); sem_release(5);` -/
  | thinkSleep | thinkAcquire | thinkPrint | thinkRelease
  deriving DecidableEq

/-- `phil_id` -/
def left (id : Fin 5) : Fin 6 := id.castSucc

/-- `(phil_id+1)%5` -/
def right (id : Fin 5) : Fin 6 := ⟨(id.val + 1) % 5, by omega⟩

/-- The spoon taken first, and the one taken second: `if (phil_id % 2 == 0)`. -/
def firstSpoon (id : Fin 5) : Fin 6 := if id.val % 2 = 0 then left id else right id

def secondSpoon (id : Fin 5) : Fin 6 := if id.val % 2 = 0 then right id else left id

/-- The system call made at a point, if it is one of the semaphores'. -/
def Point.call (id : Fin 5) : Point → Option Call
  | .readyAcquire | .eatAcquire | .thinkAcquire => some (.semAcquire 5)
  | .readyRelease | .eatRelease | .thinkRelease => some (.semRelease 5)
  | .first => some (.semAcquire (firstSpoon id))
  | .second => some (.semAcquire (secondSpoon id))
  | .putRight => some (.semRelease (right id))
  | .putLeft => some (.semRelease (left id))
  | .unborn | .readyPrint | .eatSleep | .eatPrint | .thinkSleep | .thinkPrint => none

/-- The next point; `while (1)` leads back to the spoons. -/
def Point.next : Point → Point
  | .unborn => .unborn
  | .readyAcquire => .readyPrint
  | .readyPrint => .readyRelease
  | .readyRelease => .first
  | .first => .second
  | .second => .eatSleep
  | .eatSleep => .eatAcquire
  | .eatAcquire => .eatPrint
  | .eatPrint => .eatRelease
  | .eatRelease => .putRight
  | .putRight => .putLeft
  | .putLeft => .thinkSleep
  | .thinkSleep => .thinkAcquire
  | .thinkAcquire => .thinkPrint
  | .thinkPrint => .thinkRelease
  | .thinkRelease => .first

/-- The state of the semaphores and of everybody's calls. -/
abbrev Kernel := Monitors.St (Fin 6) Proc Call Semaphore Int

structure St where
  kernel : Kernel
  main : Main
  point : Fin 5 → Point

/-- A process at a call of `o`: it makes the call, or the kernel takes a step in it; on the return the program goes
    on. -/
def syscall (S : St) (p : Proc) (o : Call) (return_ : St → St) : Option St :=
  match S.kernel.pc p with
  | .idle => (spoons.machine.step S.kernel (.call p o)).map fun K => { S with kernel := K }
  | _ => (spoons.machine.step S.kernel (.step p)).map fun K =>
    if K.pc p = .idle then return_ { S with kernel := K } else { S with kernel := K }

def Main.next : Main → Main
  | .semInit i => if h : i.val + 1 < 6 then .semInit ⟨i + 1, h⟩ else .fork 0
  | .fork i => if h : i.val + 1 < 5 then .fork ⟨i + 1, h⟩ else .wait
  | .wait => .wait

def St.goto (S : St) (id : Fin 5) (k : Point) : St := { S with point := update S.point id k }

/-- What the program does when a call has returned. -/
def St.returned (S : St) : Proc → St
  | .parent => { S with main := S.main.next }
  | .phil id => S.goto id (S.point id).next

/-- Who takes the next step. -/
def step (S : St) : Proc → Option St
  | .parent =>
    match S.main with
    | .semInit i => syscall S .parent (.semInit i 1) (·.returned .parent)
    | .fork i => some ({ S with main := S.main.next }.goto i .readyAcquire)
    | .wait => none
  | .phil id =>
    match S.point id with
    | .unborn => none
    | k =>
      match k.call id with
      | some o => syscall S (.phil id) o (·.returned (.phil id))
      | none => some (S.goto id k.next)

/-- The semaphores have not been used, and `philosophers` starts. -/
def start : St where
  kernel := spoons.start
  main := .semInit 0
  point := fun _ => .unborn

def machine : Machine St Proc where
  init := fun S => S = start
  step := step

/-! ## What a step does -/

/-- Process `p` is at a call of `o`. -/
def Calling (S : St) : Proc → Call → Prop
  | .parent, o => ∃ i, S.main = .semInit i ∧ o = .semInit i 1
  | .phil id, o => (S.point id).call id = some o

/-- Everything a step can do. -/
inductive Step (S : St) : St → Prop
  | call {p : Proc} {o : Call} {K : Kernel} : Calling S p o → S.kernel.pc p = .idle →
      spoons.machine.step S.kernel (.call p o) = some K → Step S { S with kernel := K }
  | work {p : Proc} {K : Kernel} : S.kernel.pc p ≠ .idle → spoons.machine.step S.kernel (.step p) = some K →
      K.pc p ≠ .idle → Step S { S with kernel := K }
  | return_ {p : Proc} {K : Kernel} : S.kernel.pc p ≠ .idle → spoons.machine.step S.kernel (.step p) = some K →
      K.pc p = .idle → Step S (St.returned { S with kernel := K } p)
  | fork {i : Fin 5} : S.main = .fork i → Step S ({ S with main := S.main.next }.goto i .readyAcquire)
  | user {id : Fin 5} : S.point id ≠ .unborn → (S.point id).call id = none → Step S (S.goto id (S.point id).next)

variable {S T : St} {p : Proc} {o : Call} {id : Fin 5}

/-- Who makes a call has been started. -/
theorem Calling.born (h : Calling S (.phil id) o) : S.point id ≠ .unborn := by
  intro hu
  simp only [Calling, hu] at h
  cases h

theorem Calling.goto {q : Proc} {k : Point} (h : Calling S q o) (hq : q ≠ .phil id) : Calling (S.goto id k) q o := by
  cases q with
  | parent => exact h
  | phil id' =>
    have hne : id' ≠ id := fun heq => hq (by rw [heq])
    simpa only [St.goto, Calling, update_of_ne hne] using h

theorem syscall_cases (hc : Calling S p o) (h : syscall S p o (·.returned p) = some T) : Step S T := by
  unfold syscall at h
  split at h
  · rename_i hpc
    obtain ⟨K, hK, rfl⟩ := Option.map_eq_some_iff.mp h
    exact .call hc hpc hK
  · rename_i hpc
    obtain ⟨K, hK, rfl⟩ := Option.map_eq_some_iff.mp h
    split
    · rename_i hidle
      exact .return_ hpc hK hidle
    · rename_i hidle
      exact .work hpc hK hidle

theorem step_cases {l : Proc} (h : machine.step S l = some T) : Step S T := by
  replace h : step S l = some T := h
  cases l with
  | parent =>
    simp only [step] at h
    split at h
    · rename_i i hmain
      exact syscall_cases (p := .parent) ⟨i, hmain, rfl⟩ h
    · rename_i i hmain
      cases h
      exact .fork hmain
    · cases h
  | phil id =>
    simp only [step] at h
    split at h
    · cases h
    · rename_i hunborn
      split at h
      · rename_i o ho
        exact syscall_cases (p := .phil id) ho h
      · rename_i hnone
        cases h
        exact .user hunborn hnone

/-! ## What is held where -/

/-- The semaphores a philosopher holds at a point, before the call made there has returned. -/
def Point.carries (id : Fin 5) : Point → List (Fin 6)
  | .unborn | .readyAcquire | .first | .thinkSleep | .thinkAcquire => []
  | .readyPrint | .readyRelease | .thinkPrint | .thinkRelease => [5]
  | .second => [firstSpoon id]
  | .eatSleep | .eatAcquire | .putRight => [left id, right id]
  | .eatPrint | .eatRelease => [left id, right id, 5]
  | .putLeft => [left id]

def Point.carried (id : Fin 5) (k : Point) (j : Fin 6) : Int := ((k.carries id).count j : Nat)

/-- The calls of the program take and give what it carries from one point to the next. -/
theorem Point.carried_next (id : Fin 5) (k : Point) (j : Fin 6) :
    k.next.carried id j = k.carried id j + ((k.call id).map (gain j)).getD 0 := by
  cases k <;> revert id j <;> decide

/-- A philosopher releases only what it carries. -/
theorem Point.release_carried (id : Fin 5) (k : Point) (j : Fin 6) (h : k.call id = some (.semRelease j)) :
    0 < k.carried id j := by
  cases k <;> revert h <;> revert id j <;> decide

theorem Point.carried_nonneg (id : Fin 5) (k : Point) (j : Fin 6) : 0 ≤ k.carried id j := Int.natCast_nonneg _

/-- Philosophers make no `sem_init`. -/
theorem Point.call_ne_semInit (id : Fin 5) (k : Point) (i : Fin 6) (v : Int) : k.call id ≠ some (.semInit i v) := by
  cases k <;> rintro ⟨⟩

/-- What a process holds. -/
def St.carried (S : St) : Proc → Fin 6 → Int
  | .parent, _ => 0
  | .phil id, j => (S.point id).carried id j

/-- Has `sem_init(i, 1)` returned? -/
def Main.past : Main → Fin 6 → Bool
  | .semInit i, j => decide (j < i)
  | .fork _, _ | .wait, _ => true

/-- Has philosopher `id` been started? -/
def Main.started : Main → Fin 5 → Bool
  | .semInit _, _ => false
  | .fork i, id => decide (id < i)
  | .wait, _ => true

theorem Main.past_of_started {m : Main} {id : Fin 5} (h : m.started id = true) (i : Fin 6) : m.past i = true := by
  cases m with
  | semInit i => cases h
  | fork i | wait => rfl

theorem Main.past_next_semInit (i j : Fin 6) : (Main.semInit i).next.past j = (decide (j = i) || (Main.semInit i).past j) := by
  revert i j
  decide

theorem Main.past_next_fork (i : Fin 5) (j : Fin 6) : (Main.fork i).next.past j = true := by
  revert i j
  decide

theorem Main.started_next_fork (i id : Fin 5) :
    (Main.fork i).next.started id = (decide (id = i) || (Main.fork i).started id) := by
  revert i id
  decide

/-! ## The programs use the semaphores as they should -/

/-- What the programs promise of every step of the kernel. -/
def Allowed (K : Kernel) (l : Label Proc Call) : Prop := NotLate K l ∧ ∀ i, Proper i K l ∧ Owned i K l

structure Inv (S : St) : Prop where
  /-- The kernel's part is a run of the semaphores. -/
  run : spoons.machine.Reachable Allowed S.kernel
  calling : ∀ p o, (S.kernel.pc p).op = some o → Calling S p o
  held : ∀ p j, held j p S.kernel.done = S.carried p j
  inits : ∀ i, initial i S.kernel.done = if S.main.past i then some 1 else none
  unborn : ∀ id, S.main.started id = false → S.point id = .unborn

theorem Inv.start : Inv start :=
  ⟨.init rfl, nofun, fun p _ => by cases p <;> rfl, fun i => by revert i; decide, fun _ _ => rfl⟩

theorem Inv.counts (h : Inv S) (i : Fin 6) : Sem.Inv i S.kernel :=
  inv_of_reachable (h.run.mono fun _ _ hc => (hc.2 i).1)

/-- A philosopher that has a call to make has been started, after the semaphores were initialised. -/
theorem Inv.started (h : Inv S) (hp : S.point id ≠ .unborn) : S.main.started id = true := by
  by_contra hn
  exact hp (h.unborn id (Bool.eq_false_iff.mpr hn))

theorem Inv.initial (h : Inv S) (hp : S.point id ≠ .unborn) (i : Fin 6) : initial i S.kernel.done = some 1 := by
  rw [h.inits, Main.past_of_started (h.started hp), if_pos rfl]

theorem carried_sum_nonneg (S : St) (i : Fin 6) : 0 ≤ ∑ p, S.carried p i :=
  Finset.sum_nonneg fun p _ => by
    cases p with
    | parent => exact le_refl 0
    | phil id => exact Point.carried_nonneg id _ i

variable {i : Fin 6}

/-- What the completed calls have made of semaphore `i`: 1 less what is held. -/
theorem Inv.val (h : Inv S) {s : Semaphore} (hs : History spoons (Fits i) i S.kernel.done s)
    (hinit : Sem.initial i S.kernel.done = some 1) : s.val = 1 - ∑ p, S.carried p i := by
  have htotal := held_total i S.kernel.done
  simp only [h.held] at htotal
  rcases tally_of_history hs (h.counts i).started.past with ⟨hnone, -⟩ | ⟨v, hsome, -, hval⟩
  · rw [hnone] at hinit
    cases hinit
  · obtain rfl : v = 1 := Option.some.inj (hsome.symm.trans hinit)
    have := (hval (by decide) (by decide)).1
    omega

theorem Inv.allowed_call (h : Inv S) (hc : Calling S p o) : Allowed S.kernel (.call p o) := by
  refine ⟨(by rintro _ _ _ hl; nomatch hl), fun i => ?_⟩
  cases p with
  | parent =>
    obtain ⟨j, -, rfl⟩ := hc
    exact ⟨trivial, trivial⟩
  | phil id =>
    have hsome : (Sem.initial i S.kernel.done).isSome = true := by
      rw [h.initial hc.born]
      rfl
    cases o with
    | semInit j v => exact absurd hc (Point.call_ne_semInit id _ j v)
    | semAcquire j => exact ⟨fun _ => hsome, trivial⟩
    | semRelease j =>
      refine ⟨fun _ => hsome, ?_⟩
      rintro rfl
      rw [h.held]
      exact Point.release_carried id _ j hc

/-- Until the semaphores are initialised nobody else is in a call. -/
theorem Inv.idle_of_semInit (h : Inv S) (hmain : S.main = .semInit i) (id : Fin 5) (o : Call) :
    (S.kernel.pc (.phil id)).op ≠ some o := by
  intro hop
  exact (h.calling (.phil id) o hop).born (h.unborn id (by rw [hmain]; rfl))

variable {K : Kernel}

theorem op_of_waits {q : Proc} (hw : Waits K spoons q o) : (K.pc q).op = some o := by
  rcases hw with hpc | ⟨hpc, -⟩ <;> rw [hpc] <;> rfl

section

variable (h : Inv S)

include h

theorem Inv.notLate (p : Proc) : NotLate S.kernel (.step p) := by
  rintro p' i v hl hpc - - q o hw -
  cases hl
  have hcall := h.calling p (.semInit i v) (by rw [hpc]; rfl)
  cases p with
  | phil id => exact Point.call_ne_semInit id _ i v hcall
  | parent =>
    obtain ⟨j, hmain, -⟩ := hcall
    cases q with
    | phil id => exact h.idle_of_semInit hmain id o (op_of_waits hw)
    | parent => rcases hw with hpc' | ⟨hpc', -⟩ <;> nomatch hpc.symm.trans hpc'

theorem Inv.allowed_step (p : Proc) : Allowed S.kernel (.step p) := by
  refine ⟨h.notLate p, fun i => ⟨?_, trivial⟩⟩
  simp only [Proper]
  split
  · rename_i o hpc
    have hcall := h.calling p o (by rw [hpc]; rfl)
    cases o with
    | semInit j v | semAcquire j => trivial
    | semRelease j =>
      rintro rfl
      cases p with
      | parent =>
        obtain ⟨_, -, ho⟩ := hcall
        cases ho
      | phil id =>
        have hval := h.val ((h.counts j).linear.found (h.counts j).excl hpc) (h.initial hcall.born j)
        have hsum := carried_sum_nonneg S j
        have hlt : (S.kernel.res j).val < 2 ^ 31 - 1 := by
          rw [show (S.kernel.res j).val = _ from hval]
          omega
        exact hlt
  · trivial

/-- A step of the kernel in a call that has not returned. -/
theorem Inv.kernel {l : Label Proc Call} (hK : spoons.machine.step S.kernel l = some K)
    (hl : Allowed S.kernel l) (hcalling : ∀ q o, (K.pc q).op = some o → Calling S q o) (hdone : K.done = S.kernel.done) :
    Inv { S with kernel := K } := by
  refine ⟨h.run.step hl hK, hcalling, ?_, ?_, h.unborn⟩
  · rw [hdone]
    exact h.held
  · rw [hdone]
    exact h.inits

theorem Inv.call (hc : Calling S p o)
    (hK : spoons.machine.step S.kernel (.call p o) = some K) : Inv { S with kernel := K } := by
  cases Monitor.step_cases hK with
  | call _ =>
    refine h.kernel hK (h.allowed_call hc) (fun q o' hq => ?_) rfl
    simp only [Monitors.St.goto, update_apply] at hq
    split at hq
    · rename_i hqp
      cases hq
      rw [hqp]
      exact hc
    · exact h.calling q o' hq

/-- After a step that returns, those who are in a call are where they were. -/
theorem Inv.calling_others (hothers : ∀ q, q ≠ p → K.pc q = S.kernel.pc q)
    (hidle : K.pc p = .idle) {q : Proc} (hq : (K.pc q).op = some o) : q ≠ p ∧ Calling S q o := by
  have hqp : q ≠ p := by
    rintro rfl
    rw [hidle] at hq
    cases hq
  rw [hothers q hqp] at hq
  exact ⟨hqp, h.calling q o hq⟩

/-- `sem_init` returns. -/
theorem Inv.returned_parent {r : Int} (hmain : S.main = .semInit i)
    (hK : spoons.machine.step S.kernel (.step .parent) = some K)
    (hothers : ∀ q, q ≠ .parent → K.pc q = S.kernel.pc q) (hidle : K.pc .parent = .idle)
    (hdone : K.done = S.kernel.done ++ [⟨.parent, .semInit i 1, r⟩]) :
    Inv (St.returned { S with kernel := K } .parent) := by
  refine ⟨h.run.step (h.allowed_step _) hK, fun q o hq => ?_, fun q j => ?_, fun j => ?_,
    fun id _ => h.unborn id (by rw [hmain]; rfl)⟩
  · obtain ⟨hqp, hq'⟩ := h.calling_others hothers hidle hq
    cases q with
    | parent => exact absurd rfl hqp
    | phil id => exact hq'
  · simp only [St.returned, hdone, held_snoc, heldBy, gain, h.held]
    cases q <;> simp [St.carried]
  · simp only [St.returned, hdone, initial_snoc, initOf, h.inits, hmain, Main.past_next_semInit]
    rcases eq_or_ne j i with rfl | hj
    · cases (Main.semInit j).past j <;> simp
    · simp [hj, Ne.symm hj]

/-- A philosopher's call returns: it goes on, with what the call has taken or given. -/
theorem Inv.returned_phil {r : Int} (hcall : (S.point id).call id = some o)
    (hK : spoons.machine.step S.kernel (.step (.phil id)) = some K)
    (hothers : ∀ q, q ≠ .phil id → K.pc q = S.kernel.pc q) (hidle : K.pc (.phil id) = .idle)
    (hdone : K.done = S.kernel.done ++ [⟨.phil id, o, r⟩]) : Inv (St.returned { S with kernel := K } (.phil id)) := by
  have hunborn := Calling.born hcall
  refine ⟨h.run.step (h.allowed_step _) hK, fun q o' hq => ?_, fun q j => ?_, fun j => ?_, fun id' hs => ?_⟩
  · obtain ⟨hqp, hq'⟩ := h.calling_others hothers hidle hq
    exact Calling.goto hq' hqp
  · simp only [St.returned, St.goto, hdone, held_snoc, heldBy, h.held]
    cases q with
    | parent => simp [St.carried]
    | phil id' =>
      simp only [St.carried, update_apply, Proc.phil.injEq]
      rcases eq_or_ne id' id with rfl | hne
      · rw [if_pos rfl, if_pos rfl, Point.carried_next, hcall]
        rfl
      · rw [if_neg hne, if_neg (Ne.symm hne), add_zero]
  · have hpast := h.inits j
    rw [h.initial hunborn] at hpast
    simp only [St.returned, St.goto, hdone, initial_snoc, h.initial hunborn, Option.some_or]
    exact hpast
  · have hne : id' ≠ id := by
      rintro rfl
      rw [St.returned] at hs
      exact hunborn (h.unborn id' hs)
    simp only [St.returned, St.goto, update_of_ne hne]
    exact h.unborn id' hs

theorem Inv.fork {i : Fin 5} (hmain : S.main = .fork i) :
    Inv ({ S with main := S.main.next }.goto i .readyAcquire) := by
  have hunborn : S.point i = .unborn := h.unborn i (by rw [hmain]; simp [Main.started])
  refine ⟨h.run, fun q o hq => ?_, fun q j => ?_, fun j => ?_, fun id hs => ?_⟩
  · have hcall := h.calling q o hq
    cases q with
    | parent =>
      obtain ⟨_, hmain', -⟩ := hcall
      rw [hmain] at hmain'
      cases hmain'
    | phil id =>
      refine Calling.goto hcall ?_
      rintro ⟨⟩
      exact hcall.born hunborn
  · rw [St.goto, h.held]
    cases q with
    | parent => rfl
    | phil id =>
      simp only [St.carried]
      rcases eq_or_ne id i with rfl | hne
      · rw [update_self, hunborn]
        rfl
      · rw [update_of_ne hne]
  · simp only [St.goto, h.inits, hmain, Main.past_next_fork]
    rfl
  · simp only [St.goto, hmain, Main.started_next_fork, Bool.or_eq_false_iff, decide_eq_false_iff_not] at hs ⊢
    rw [update_of_ne hs.1]
    exact h.unborn id (by rw [hmain]; exact hs.2)

/-- A step of the program alone: `printf` and `sleep`. -/
theorem Inv.user (hp : S.point id ≠ .unborn) (hnone : (S.point id).call id = none) :
    Inv (S.goto id (S.point id).next) := by
  refine ⟨h.run, fun q o hq => ?_, fun q j => ?_, h.inits, fun id' hs => ?_⟩
  · have hcall := h.calling q o hq
    refine hcall.goto ?_
    rintro rfl
    nomatch hnone.symm.trans hcall
  · rw [St.goto, h.held]
    cases q with
    | parent => rfl
    | phil id' =>
      simp only [St.carried]
      rcases eq_or_ne id' id with rfl | hne
      · rw [update_self, Point.carried_next, hnone]
        exact (add_zero _).symm
      · rw [update_of_ne hne]
  · have hne : id' ≠ id := by
      rintro rfl
      exact hp (h.unborn id' hs)
    simp only [St.goto, update_of_ne hne]
    exact h.unborn id' hs

theorem Inv.step (hs : Step S T) : Inv T := by
  have hop : ∀ p, S.kernel.pc p ≠ .idle → ∃ o, (S.kernel.pc p).op = some o := by
    intro p hp
    cases hpc : S.kernel.pc p with
    | idle => exact absurd hpc hp
    | _ => exact ⟨_, rfl⟩
  cases hs with
  | call hc _ hK => exact h.call hc hK
  | @work p K hp hK hidle =>
    obtain ⟨o, ho⟩ := hop p hp
    obtain ⟨hothers, ⟨ho', hdone⟩ | ⟨hidle', -⟩⟩ := (Monitor.step_cases hK).own ho
    · refine h.kernel hK (h.allowed_step p) (fun q o' hq => ?_) hdone
      rcases eq_or_ne q p with rfl | hqp
      · exact h.calling q o' (by rw [ho, ← ho', hq])
      · exact h.calling q o' (by rw [← hothers q hqp, hq])
    · exact absurd hidle' hidle
  | @return_ p K hp hK hidle =>
    obtain ⟨o, ho⟩ := hop p hp
    obtain ⟨hothers, ⟨ho', -⟩ | ⟨-, r, hdone⟩⟩ := (Monitor.step_cases hK).own ho
    · rw [hidle] at ho'
      cases ho'
    · have hcall := h.calling p o ho
      cases p with
      | parent =>
        obtain ⟨i, hmain, rfl⟩ := hcall
        exact h.returned_parent hmain hK hothers hidle hdone
      | phil id => exact h.returned_phil hcall hK hothers hidle hdone
  | fork hmain => exact h.fork hmain
  | user hp hnone => exact h.user hp hnone

end

theorem inv_of_reachable (h : machine.Reachable anyStep S) : Inv S := by
  refine Machine.invariant ?_ (fun _ _ _ hi _ hs => hi.step (step_cases hs)) h
  rintro _ rfl
  exact Inv.start

/-! ## Dinner -/

/-- Philosopher `id` has got semaphore `j`, and not given it back. -/
def Holds (S : St) (id : Fin 5) (j : Fin 6) : Prop := 0 < held j (.phil id) S.kernel.done

/-- Eating: between the two `sem_acquire` and the first `sem_release`. -/
def Point.eats : Point → Bool
  | .eatSleep | .eatAcquire | .eatPrint | .eatRelease => true
  | _ => false

/-- Inside a print section: `sem_acquire(5)` has returned, and `sem_release(5)` has not. -/
def Point.prints : Point → Bool
  | .readyPrint | .readyRelease | .eatPrint | .eatRelease | .thinkPrint | .thinkRelease => true
  | _ => false

/-- The semaphore that a process in `sem_acquire` has not got yet. -/
def waitsFor : Pc Call Int → Option (Fin 6)
  | .acquire (.semAcquire i) | .test (.semAcquire i) | .sleepAcquire (.semAcquire i) | .sleepRelease (.semAcquire i)
  | .sleepState (.semAcquire i) | .asleep (.semAcquire i) | .resume (.semAcquire i) => some i
  | _ => none

/-- Blocked in `sem_acquire(i)`: asleep, or up against `val < 1`. -/
def Blocked (S : St) (id : Fin 5) : Prop :=
  ∃ i, waitsFor (S.kernel.pc (.phil id)) = some i ∧
    (S.kernel.status (.phil id) = .sleeping i ∨ (S.kernel.res i).val < 1)

/-- A semaphore that was initialised with 1 has one holder. -/
theorem Inv.holder_unique (h : Inv S) {id id' : Fin 5} {j : Fin 6} (hp : Holds S id j) (hq : Holds S id' j) :
    id = id' := by
  have hunborn : S.point id ≠ .unborn := by
    intro hu
    rw [Holds, h.held, St.carried, hu] at hp
    exact absurd hp (lt_irrefl 0)
  obtain ⟨s, hs, -⟩ := (h.counts j).linear.past j
  have howned := obeys_of_reachable (h.run.mono fun _ _ hc => (hc.2 j).2)
  by_contra hne
  have hcard := (tally_of_history hs (h.counts j).started.past).holders howned.past (h.initial hunborn j)
    (by decide) (by decide) {.phil id, .phil id'} (by
      intro p hp'
      rcases Finset.mem_insert.mp hp' with rfl | hp'
      · exact hp
      · rw [Finset.mem_singleton.mp hp']
        exact hq)
  rw [Finset.card_pair (fun e => hne (Proc.phil.inj e))] at hcard
  exact absurd hcard (by decide)

/-- Whoever eats has both spoons. -/
theorem Point.carried_of_eats (id : Fin 5) (k : Point) (h : k.eats = true) :
    0 < k.carried id (left id) ∧ 0 < k.carried id (right id) := by
  cases k <;> revert h <;> revert id <;> decide

theorem Point.carried_of_prints (id : Fin 5) (k : Point) (h : k.prints = true) : 0 < k.carried id 5 := by
  cases k <;> revert h <;> revert id <;> decide

/-! ### Somebody is not blocked -/

/-- What a philosopher at a `sem_acquire` carries: never semaphore 5. -/
theorem Point.carried_five (id : Fin 5) (k : Point) (i : Fin 6) (h : k.call id = some (.semAcquire i)) :
    k.carried id 5 = 0 := by
  cases k <;> revert h <;> revert id i <;> decide

/-- It takes one of the spoons, with its first one in the hand when it takes the second. -/
theorem Point.taking (id : Fin 5) (k : Point) (i : Fin 6) (h : k.call id = some (.semAcquire i)) (hi : i ≠ 5) :
    k = .first ∧ i = firstSpoon id ∨ k = .second ∧ i = secondSpoon id := by
  cases k with
  | first => exact .inl ⟨rfl, (Call.semAcquire.inj (Option.some.inj h)).symm⟩
  | second => exact .inr ⟨rfl, (Call.semAcquire.inj (Option.some.inj h)).symm⟩
  | readyAcquire | eatAcquire | thinkAcquire => exact absurd (Call.semAcquire.inj (Option.some.inj h)).symm hi
  | _ => cases h

theorem Point.carried_second (id : Fin 5) (i : Fin 6) (h : 0 < Point.second.carried id i) : firstSpoon id = i := by
  revert h
  revert id i
  decide

/-- Not everybody can be at a `sem_acquire` of something that somebody carries. -/
theorem no_cycle (point : Fin 5 → Point)
    (h : ∀ id, ∃ i, (point id).call id = some (.semAcquire i) ∧ ∃ id', 0 < (point id').carried id' i) : False := by
  -- nobody has semaphore 5, so nobody waits for it
  have hspoon : ∀ id i, (point id).call id = some (.semAcquire i) → (∃ id', 0 < (point id').carried id' i) → i ≠ 5 := by
    rintro id _ - ⟨id', hc⟩ rfl
    obtain ⟨i', hcall', -⟩ := h id'
    rw [Point.carried_five id' _ i' hcall'] at hc
    exact absurd hc (lt_irrefl 0)
  have hpoint : ∀ id, point id = .first ∨ point id = .second := by
    intro id
    obtain ⟨i, hcall, hc⟩ := h id
    exact (Point.taking id _ i hcall (hspoon id i hcall hc)).imp And.left And.left
  -- so whoever carries a spoon carries its first one
  have hfirst : ∀ id' i, 0 < (point id').carried id' i → point id' = .second ∧ firstSpoon id' = i := by
    intro id' i hc
    rcases hpoint id' with hk | hk
    · rw [hk] at hc
      exact absurd hc (lt_irrefl 0)
    · rw [hk] at hc
      exact ⟨hk, Point.carried_second id' i hc⟩
  obtain ⟨i, hcall, id', hc⟩ := h 0
  obtain ⟨hk', hi⟩ := hfirst id' i hc
  rcases Point.taking 0 _ i hcall (hspoon 0 i hcall ⟨id', hc⟩) with ⟨hk, rfl⟩ | ⟨-, rfl⟩
  · -- spoon 0 is nobody's first but philosopher 0's
    have hzero : ∀ id : Fin 5, firstSpoon id = firstSpoon 0 → id = 0 := by decide
    rw [hzero id' hi, hk] at hk'
    cases hk'
  · -- spoon 1 is nobody's first
    have hone : ∀ id : Fin 5, firstSpoon id ≠ secondSpoon 0 := by decide
    exact hone id' hi

variable {k : Pc Call Int}

theorem acted_of_waitsFor (h : waitsFor k = some i) : k.acted = none := by
  cases k with
  | wakeAcquire o r | wakeup o r | wakeRelease o r | release o r => cases h
  | _ => rfl

theorem op_of_waitsFor (h : waitsFor k = some i) : k.op = some (.semAcquire i) := by
  unfold waitsFor at h
  split at h <;> cases h <;> rfl

/-- If every philosopher is in a `sem_acquire`, every call that has taken effect has returned. -/
theorem Inv.settled (h : Inv S) (hall : ∀ id, ∃ i, waitsFor (S.kernel.pc (.phil id)) = some i) (q : Proc) :
    (S.kernel.pc q).acted = none := by
  cases q with
  | phil id =>
    obtain ⟨i, hi⟩ := hall id
    exact acted_of_waitsFor hi
  | parent =>
    rw [Option.eq_none_iff_forall_ne_some]
    rintro ⟨o, r⟩ ho
    obtain ⟨j, hmain, -⟩ := h.calling .parent o (Pc.op_of_acted ho)
    obtain ⟨i, hi⟩ := hall 0
    exact h.idle_of_semInit hmain 0 _ (op_of_waitsFor hi)

/-- A blocked philosopher is up against a semaphore that somebody carries. -/
theorem Inv.blocked (h : Inv S) (hall : ∀ id, Blocked S id) (id : Fin 5) :
    ∃ i, (S.point id).call id = some (.semAcquire i) ∧ ∃ id', 0 < (S.point id').carried id' i := by
  have hsettled := h.settled fun id => (hall id).imp fun _ hi => hi.1
  obtain ⟨i, hwaits, hblocked⟩ := hall id
  have hcall := h.calling (.phil id) _ (op_of_waitsFor hwaits)
  -- a sleeper that will be woken would be owed it by somebody who is about to return
  have hval : (S.kernel.res i).val < 1 := by
    rcases hblocked with hs | hval
    · obtain ⟨-, hawake⟩ := awake_of_reachable (h.run.mono fun _ _ hc => hc.1)
      obtain ⟨o, hpc, -⟩ := hawake.sleeping _ _ hs
      have hop := op_of_waitsFor hwaits
      rw [hpc] at hop
      cases hop
      rcases hawake.owed _ _ (.inr ⟨hpc, hs⟩) with hfalse | ⟨q, o', r, hq, -⟩
      · have hnot : ¬ 0 < (S.kernel.res i).val := of_decide_eq_false hfalse
        omega
      · have hacted := hsettled q
        rcases hq with hq | hq <;> rw [hq] at hacted <;> cases hacted
    · exact hval
  refine ⟨i, hcall, ?_⟩
  have hhist := (h.counts i).linear.settled i fun q o r hq => by rw [hsettled q] at hq; cases hq
  have hsum := h.val hhist (h.initial hcall.born i)
  by_contra hnone
  push Not at hnone
  have hle : ∑ p, S.carried p i ≤ 0 := Finset.sum_nonpos fun p _ => by
    cases p with
    | parent => exact le_refl 0
    | phil id' => exact hnone id'
  omega

/-- **The dinner.**  In every state that the five philosophers and the kernel can reach: a spoon is held by at most one
    philosopher, so that neighbours never eat together; at most one is inside a print section; and at least one is
    not blocked in `sem_acquire`. -/
theorem dinner_safe (h : machine.Reachable anyStep S) :
    (∀ j : Fin 6, ∀ id id', Holds S id j → Holds S id' j → id = id') ∧
    (∀ id : Fin 5, ¬ ((S.point id).eats = true ∧ (S.point (id + 1)).eats = true)) ∧
    (∀ id id', (S.point id).prints = true → (S.point id').prints = true → id = id') ∧ ∃ id, ¬ Blocked S id := by
  have hinv := inv_of_reachable h
  have hholds : ∀ id j, 0 < (S.point id).carried id j → Holds S id j := by
    intro id j hc
    rw [Holds, hinv.held]
    exact hc
  refine ⟨fun j id id' => hinv.holder_unique, ?_, ?_, ?_⟩
  · rintro id ⟨hp, hq⟩
    have hshared : ∀ id : Fin 5, right id = left (id + 1) := by decide
    have hright := hholds _ _ (Point.carried_of_eats id _ hp).2
    have hleft := hholds _ _ (Point.carried_of_eats (id + 1) _ hq).1
    rw [← hshared id] at hleft
    have hne : ∀ id : Fin 5, id ≠ id + 1 := by decide
    exact hne id (hinv.holder_unique hright hleft)
  · intro id id' hp hq
    exact hinv.holder_unique (hholds _ _ (Point.carried_of_prints id _ hp)) (hholds _ _ (Point.carried_of_prints id' _ hq))
  · by_contra hall
    push Not at hall
    exact no_cycle S.point (hinv.blocked hall)

/-- Philosopher 0 eats; 1 and 4 have one spoon each, and sleep for the other. -/
def oneEats : List Proc :=
  List.replicate 29 .parent ++ List.replicate 21 (.phil 0) ++ List.replicate 22 (.phil 1) ++ List.replicate 22 (.phil 4)

theorem dinner_safe_oneEats : ∃ S, machine.Reachable anyStep S ∧
    ((S.point 0).eats = true ∧ S.kernel.status (.phil 1) = .sleeping 1 ∧ S.kernel.status (.phil 4) = .sleeping 0) ∧
    (∀ id, Holds S 0 1 → Holds S id 1 → 0 = id) ∧ ∃ id, ¬ Blocked S id := by
  have hinit : machine.init start := rfl
  have hrun : (machine.run start oneEats).any (fun S => decide ((S.point 0).eats = true ∧
      S.kernel.status (.phil 1) = .sleeping 1 ∧ S.kernel.status (.phil 4) = .sleeping 0)) = true := by decide +kernel
  obtain ⟨S, hreach, hstate⟩ := Machine.reachable_of_run hinit hrun
  have hsafe := dinner_safe hreach
  exact ⟨S, hreach, hstate, hsafe.1 1 0, hsafe.2.2.2⟩

end Xv6.Phil
