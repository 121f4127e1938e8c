/-
  PIDS — `nextpid++`, where `nextpid` is an `int`, and `allocproc` does not look at the pids in use.

  A pid is what an `int` keeps of the number of the process (`Tree.pid`).  As long as the numbers fit into an `int` nothing is
  lost, and the pids of the processes are positive and distinct (`pids_distinct`).

  A `fork` that finds no memory for the stack has used up a pid, and leaves the table as it was (`Ready.run`).  So init alone
  gets to any value of `nextpid` (`reachable_tried`), and then to a child with a negative pid (`pids_wrap`).
-/
import Xv6.Sched.Tree

namespace Xv6.Sched

open Machines

variable {nc : Nat} {S T : St nc} {l : Label nc}

/-- Whoever is made has a number that an `int` holds. -/
def Event.fits : Event → Bool
  | .create _ child _ => child < 2 ^ 31
  | _ => true

/-- `allocproc` is not called for the `2 ^ 31`-th time. -/
def PidsLeft (S : St nc) (l : Label nc) : Prop := (observe S l).all Event.fits = true

instance (S : St nc) (l : Label nc) : Decidable (PidsLeft S l) := inferInstanceAs (Decidable (_ = true))

theorem ids_step (hI : Inv S) (hs : (machine nc).step S l = some T) :
    T.ids = S.ids ∨ T.ids = S.ids.next ∧ ∃ c, observe S l = some (.create c S.ids.births S.ids.nextpid) := by
  rcases moves_cases hI hs with ⟨p, -, hm, -, hev⟩ | ⟨-, -, -, hn, -⟩
  · cases hm with
    | alloc _ _ _ _ hn _ hcreate => exact .inr ⟨hn, _, hev.trans hcreate⟩
    | same _ _ hn | kill _ _ _ hn | giveUp _ _ _ hn | fill _ _ _ hn | ready _ _ _ hn | exit _ _ hn
    | reap _ _ _ _ _ _ hn => exact .inl hn
  · exact .inl hn

theorem births_le (h : (machine nc).Reachable PidsLeft S) :
    (Inv S ∧ Tree S.procs S.ids S.pc) ∧ S.ids.births ≤ 2 ^ 31 := by
  refine Machine.invariant (I := fun S : St nc => (Inv S ∧ Tree S.procs S.ids S.pc) ∧ S.ids.births ≤ 2 ^ 31) ?_ ?_ h
  · rintro S ⟨kstack, pgdir, rfl⟩
    exact ⟨⟨.init kstack pgdir, .boot kstack pgdir⟩, show 2 ≤ 2 ^ 31 by decide⟩
  · rintro S l T ⟨⟨hI, ht⟩, hle⟩ hleft hs
    refine ⟨⟨hI.step hs, ht.step hI hs⟩, ?_⟩
    rcases ids_step hI hs with hn | ⟨hn, c, hev⟩
    · rw [hn]
      exact hle
    · rw [PidsLeft, hev] at hleft
      rw [hn]
      exact of_decide_eq_true hleft

/-- Whoever is in the table has a positive pid, and nobody else has the same. -/
theorem pids_distinct (h : (machine nc).Reachable PidsLeft S) :
    (∀ p, (S.procs p).state ≠ .unused → 0 < (S.procs p).pid) ∧
      ∀ p q, (S.procs p).state ≠ .unused → (S.procs q).state ≠ .unused →
        (S.procs p).pid = (S.procs q).pid → p = q := by
  obtain ⟨⟨-, ht⟩, hle⟩ := births_le h
  have hpid : ∀ p, (S.procs p).state ≠ .unused → (S.procs p).pid = (S.procs p).born := by
    intro p hp
    have hlt := (ht.node p).lt
    rw [(ht.node p).pid hp]
    exact cInt_of_lt (by omega) (by omega)
  refine ⟨fun p hp => ?_, fun p q hp hq hpq => ?_⟩
  · rw [hpid p hp]
    rcases eq_or_ne p initproc with rfl | hne
    · rw [ht.init.2.1]
      decide
    · have hborn := (ht.node p).pos hne hp
      omega
  · rw [hpid p hp, hpid q hq, Int.natCast_inj] at hpq
    exact ht.inj p q hp hq hpq

/-! ## What init does alone -/

/-- The child's slot. -/
def second : Slot := 1

/-- init comes into user space. -/
def starts : List (Label 1) := List.replicate 4 (.step 0 none)

/-- `fork`, as far as the child is in the table. -/
def forks : List (Label 1) := .call 0 .fork :: List.replicate 3 (.step 0 none)

/-- init and its first child. -/
theorem pids_distinct_child : ∃ S : St 1, (machine 1).Reachable PidsLeft S ∧
    (S.procs initproc).pid ≠ (S.procs second).pid := by
  have hrun : ((machine 1).runIf PidsLeft (.init 1 0 0) (starts ++ forks)).any (fun S =>
      decide ((S.procs initproc).state = .running ∧ (S.procs second).state = .embryo)) = true := by decide
  obtain ⟨S, hS, hinit, hchild⟩ := Machine.reachable_of_runIf (M := machine 1) ⟨0, 0, rfl⟩ hrun
  refine ⟨S, hS, fun heq => absurd ((pids_distinct hS).2 initproc second ?_ ?_ heq) (by decide)⟩
  · rw [hinit]
    decide
  · rw [hchild]
    decide

/-- init is outside of the kernel, and the next `fork` takes the second slot, for process `n`. -/
structure Ready (S : St 1) (n : Nat) : Prop where
  cpu : (S.cpus 0).exec = some initproc ∧ (S.cpus 0).proc = some initproc
  pc : S.pc initproc = .base .out
  lock : S.lock = none
  used : (S.procs initproc).state = .running
  free : (S.procs second).state = .unused
  ids : S.ids = ⟨cInt n, n⟩

/-- `fork`, with no memory for the child's stack. -/
def tries : List (Label 1) := forks ++ List.replicate 3 (.step 0 none)

/-- What that leaves of process `n`. -/
def St.tried (S : St 1) (n : Nat) : St 1 :=
  { S with
    procs := S.procs.modify second fun x => { x with state := .unused, kstack := none, pid := cInt n, born := n }
    ids := ⟨cInt (n + 1 : Nat), n + 1⟩ }

variable {S : St 1} {n m : Nat}

theorem St.tried_tried (S : St 1) (n m : Nat) : (S.tried n).tried m = S.tried m := by
  simp [St.tried, Table.modify]

theorem Ready.tried (h : Ready S n) : Ready (S.tried n) (n + 1) where
  cpu := h.cpu
  pc := h.pc
  lock := h.lock
  used := by simpa [St.tried, Table.modify, second, initproc] using h.used
  free := by simp [St.tried, Table.modify]
  ids := rfl

theorem Ready.run (h : Ready S n) : (machine 1).run S tries = some (S.tried n) := by
  obtain ⟨⟨hx, hp⟩, hpc, hlock, hused, hfree, hn⟩ := h
  have hzero : (S.procs 0).state ≠ .unused := ne_of_eq_of_ne hused (by decide)
  have hone : (S.procs 1).state = .unused := hfree
  have hback : Function.update S.pc initproc (.base .out) = S.pc := by rw [← hpc, Function.update_eq_self]
  simp [Machine.run, machine, tries, forks, Sched.step, hx, hp, hpc, hlock, hn, enter, procStep, St.acquire, St.goto,
    heldStep, NPROC, hzero, hone, St.setProc, St.release, baseStep, St.tried, second, hback, Ids.next, Table.modify,
    cInt_succ, Proc.found]

/-- init in user space. -/
def user : St 1 := ((machine 1).run (.init 1 0 0) starts).getD (.init 1 0 0)

/-- However often init forks in vain, it can do so again. -/
theorem reachable_tried (hn : 2 ≤ n) : (machine 1).Reachable anyStep (user.tried n) := by
  have hready : Ready user 2 := ⟨⟨rfl, rfl⟩, rfl, rfl, rfl, rfl, rfl⟩
  have hall : (machine 1).Reachable anyStep (user.tried n) ∧ Ready (user.tried n) (n + 1) := by
    induction n, hn using Nat.le_induction with
    | base =>
      have hstart : (machine 1).run (.init 1 0 0) starts = some user := rfl
      exact ⟨⟨_, _, ⟨0, 0, rfl⟩, (Machine.run_iff.mpr hstart).append (Machine.run_iff.mpr hready.run)⟩, hready.tried⟩
    | succ n _ ih =>
      obtain ⟨⟨S₀, ls, h0, hls⟩, hS⟩ := ih
      rw [← user.tried_tried n (n + 1)]
      exact ⟨⟨S₀, _, h0, hls.append (Machine.run_iff.mpr hS.run)⟩, hS.tried⟩
  exact hall.1

/-- After `2 ^ 31 - 2` calls the child has the pid `- 2 ^ 31`. -/
theorem pids_wrap : ∃ S : St 1, (machine 1).Reachable anyStep S ∧ ∃ p, (S.procs p).state = .embryo ∧
    (S.procs p).pid = -2147483648 := by
  have hrun : ((machine 1).run (user.tried (2 ^ 31 - 1)) forks).any (fun S => decide (∃ p,
      (S.procs p).state = .embryo ∧ (S.procs p).pid = -2147483648)) = true := by decide +kernel
  exact (reachable_tried (by decide)).eval hrun

end Xv6.Sched
