/-
  `kill` — whom it hits.

  `kill` takes the FIRST slot with the pid, and does not look at its state.  An UNUSED slot has the pid 0, or the pid of
  a child whose `fork` has failed; `allocproc` leaves `killed` as it finds it.  So a `kill(0)` is stored in some slot, and
  hits whoever gets that slot next (`stray_kill`).

  1. **`Aimed`** — a `kill` whose pid no UNUSED slot has, and a `fork` that does not give up a child that was killed.
  2. **`Clean`** — the invariant: UNUSED slots are not killed, and who is killed was named after it was created.
  3. **`kill_names`** — `kill` hits the process it names, or nobody.
-/
import Xv6.Sched.Family

namespace Xv6.Sched

open Machines

variable {nc : Nat}

/-- `kill(pid)` was called after process `x` was created with that pid. -/
def Named (x : Nat) (pid : Int) (tr : List Event) : Prop :=
  ∃ tr₁ tr₂ creator ret, tr = tr₁ ++ .create creator x pid :: tr₂ ∧ .kill pid ret ∈ tr₂

variable {f : Proc → Proc} {pid : Int} {x : Nat}

theorem Named.append {tr : List Event} (h : Named x pid tr) (es : List Event) : Named x pid (tr ++ es) := by
  obtain ⟨tr₁, tr₂, creator, ret, rfl, hk⟩ := h
  exact ⟨tr₁, tr₂ ++ es, creator, ret, by simp, List.mem_append_left es hk⟩

theorem Named.of_kill {creator : Nat} {ret : Int} {tr : List Event} (hc : .create creator x pid ∈ tr) :
    Named x pid (tr ++ [.kill pid ret]) := by
  obtain ⟨tr₁, tr₂, rfl⟩ := List.append_of_mem hc
  exact ⟨tr₁, tr₂ ++ [.kill pid ret], creator, ret, by simp, List.mem_append_right _ (List.mem_singleton_self _)⟩

structure Clean (t : Table) (tr : List Event) : Prop where
  unused : ∀ p, (t p).state = .unused → (t p).killed = false
  named : ∀ p, p ≠ initproc → (t p).killed = true → Named (t p).born (t p).pid tr

/-- What the process on the CPU is about to do. -/
structure Aimed (t : Table) (k : Pc) : Prop where
  /-- `kill` is not called with the pid of an UNUSED slot. -/
  kill : ∀ pid, k = .held (.kill pid) → ∀ q, (t q).state = .unused → (t q).pid ≠ pid
  /-- A child that `fork` gives up has not been killed. -/
  giveUp : ∀ np, k = .base (.forkUnused np) → (t np).killed = false

instance (t : Table) (k : Pc) : Decidable (Aimed t k) :=
  match k with
  | .held (.kill pid) =>
    decidable_of_iff (∀ q, (t q).state = .unused → (t q).pid ≠ pid)
      ⟨fun h => ⟨fun _ e => by cases e; exact h, nofun⟩, fun h => h.kill pid rfl⟩
  | .base (.forkUnused np) =>
    decidable_of_iff ((t np).killed = false) ⟨fun h => ⟨nofun, fun _ e => by cases e; exact h⟩, fun h => h.giveUp np rfl⟩
  | .base .out | .base (.forkStack ..) | .base (.forkCopy ..) | .base (.forkDrop _) | .base (.forkFill ..)
  | .base (.forkReady _) | .held (.wakeup ..) | .held (.yield _) | .held (.sleep ..) | .held (.alloc ..)
  | .held (.ready _) | .held (.exit _) | .held (.wait ..) | .acquire _ | .unlock _ | .sched _ | .resume _ | .halted =>
    isTrue ⟨nofun, nofun⟩

section Steps

variable {t t' : Table} {tr : List Event}

theorem Clean.mono (h : Clean t tr) (es : List Event) (hkilled : ∀ q, (t' q).killed = (t q).killed)
    (hpid : ∀ q, (t' q).pid = (t q).pid) (hborn : ∀ q, (t' q).born = (t q).born)
    (hunused : ∀ q, (t' q).state = .unused → (t q).state = .unused) :
    Clean t' (tr ++ es) := by
  refine ⟨fun p hp => ?_, fun p hp hk => ?_⟩
  · rw [hkilled]
    exact h.unused p (hunused p hp)
  · rw [hkilled] at hk
    rw [hpid, hborn]
    exact (h.named p hp hk).append es

/-- A slot is changed that has not been killed, and is not afterwards. -/
theorem Clean.put (h : Clean t tr) (es : List Event) {i : Slot} (hf : (f (t i)).killed = false) :
    Clean (t.modify i f) (tr ++ es) := by
  refine ⟨fun p hp => ?_, fun p hp hk => ?_⟩
  · rcases eq_or_ne p i with rfl | hpi
    · rw [t.modify_self]
      exact hf
    · rw [t.modify_ne f hpi] at hp ⊢
      exact h.unused p hp
  · rcases eq_or_ne p i with rfl | hpi
    · rw [t.modify_self, hf] at hk
      cases hk
    · rw [t.modify_ne f hpi] at hk ⊢
      exact (h.named p hp hk).append es

/-- A slot in use is changed in other fields. -/
theorem Clean.keep (h : Clean t tr) (es : List Event) {i : Slot}
    (hkilled : (f (t i)).killed = (t i).killed) (hpid : (f (t i)).pid = (t i).pid)
    (hborn : (f (t i)).born = (t i).born) (hu : (f (t i)).state ≠ .unused) : Clean (t.modify i f) (tr ++ es) := by
  refine h.mono es (Table.modify_field hkilled) (Table.modify_field hpid) (Table.modify_field hborn) fun q hq => ?_
  rcases eq_or_ne q i with rfl | hqi
  · rw [t.modify_self] at hq
    exact absurd hq hu
  · rw [t.modify_ne f hqi] at hq
    exact hq

theorem Clean.kill (h : Clean t tr) {ret : Int} (haim : ∀ q, (t q).state = .unused → (t q).pid ≠ pid)
    (hcreated : ∀ p, p ≠ initproc → (t p).state ≠ .unused → ∃ c, .create c (t p).born (t p).pid ∈ tr) :
    Clean (t.kill pid) (tr ++ [.kill pid ret]) := by
  rcases t.kill_cases pid with ⟨ht, -⟩ | ⟨q, hq, -, ht⟩
  · rw [ht]
    exact h.mono _ (fun _ => rfl) (fun _ => rfl) (fun _ => rfl) fun _ hu => hu
  · have hused : (t q).state ≠ .unused := fun hu => haim q hu hq
    have hs := Same.kill t pid
    refine ⟨fun p hp => ?_, fun p hp hk => ?_⟩
    · have hpq : p ≠ q := by
        rintro rfl
        exact hused ((hs.unused_iff p).mp hp)
      rw [hs.unused_iff] at hp
      rw [ht, t.modify_ne _ hpq]
      exact h.unused p hp
    · rw [hs.pid, hs.born]
      rcases eq_or_ne p q with rfl | hpq
      · obtain ⟨c, hc⟩ := hcreated p hp hused
        rw [hq] at hc ⊢
        exact .of_kill hc
      · rw [ht, t.modify_ne _ hpq] at hk
        exact (h.named p hp hk).append _

end Steps

section Run

variable {S T : St nc} {l : Label nc} {tr : List Event}

theorem Clean.step (h : Clean S.procs tr) (hI : Inv S) (ho : Origin S.procs S.ids S.pc tr)
    (hc : ∀ p, (S.cpus l.cpu).exec = some p → Aimed S.procs (S.pc p)) (hs : (machine nc).step S l = some T) :
    Clean T.procs (tr ++ (observe S l).toList) := by
  rcases moves_cases hI hs with ⟨p, hx, hm, -, hev⟩ | ⟨hsame, hkilled, -, -, -⟩
  · have haim := hc p hx
    rw [hev]
    cases hm with
    | same hsame hkilled => exact h.mono _ hkilled hsame.pid hsame.born fun q hq => (hsame.unused_iff q).mp hq
    | kill pid hk ht =>
      rw [ht, hk]
      exact h.kill (haim.kill pid hk) ho.created
    | alloc np _ hu ht =>
      rw [ht]
      exact h.put _ (h.unused np hu)
    | giveUp np hk ht =>
      rw [ht]
      exact h.put _ (haim.giveUp np hk)
    | fill np hk ht =>
      have hembryo := (hI.busy.embryo p np false (by rw [hk]; rfl)).1
      rw [ht]
      exact h.keep _ rfl rfl rfl (by rw [hembryo]; decide)
    | ready np _ ht =>
      rw [ht]
      exact h.keep _ rfl rfl rfl nofun
    | exit hk ht =>
      have hrun := hI.running_held hx (by rw [hk]; rfl)
      have hexit := S.procs.exit_exited p ((S.procs p).parent.map .proc)
      rw [← ht] at hexit
      exact h.mono _ hexit.killed hexit.pid hexit.born fun q hq => (hexit.unused hrun q).mp hq
    | reap i b _ _ _ ht =>
      rw [ht]
      exact h.put _ rfl
  · exact h.mono _ hkilled hsame.pid hsame.born fun q hq => (hsame.unused_iff q).mp hq

/-- The step in which `kill` finds its process, or does not. -/
theorem kill_step (hI : Inv S) {p : Slot} (hx : (S.cpus l.cpu).exec = some p)
    (hpc : S.pc p = .held (.kill pid)) (hs : (machine nc).step S l = some T) :
    T.procs = S.procs.kill pid ∧ observe S l = some (.kill pid (S.procs.killReturn pid)) := by
  refine ⟨?_, by simp only [observe, hx, hpc, Pc.event, Held.event]⟩
  rcases moves_cases hI hs with ⟨q, hxq, hm, -⟩ | ⟨-, -, -, -, hev⟩
  · obtain rfl := Option.some.inj (hx.symm.trans hxq)
    rw [hpc] at hm
    cases hm with
    | kill pid' hk ht =>
      cases hk
      exact ht
    | same _ _ _ _ _ hev =>
      obtain ⟨x, hx⟩ := hev _ rfl
      cases hx
    | alloc _ _ _ _ _ _ hev => cases hev
    | giveUp _ hk | fill _ hk | ready _ hk | exit hk | reap _ _ hk => cases hk
  · simp only [observe, hx, hpc, Pc.event, Held.event, reduceCtorEq] at hev

end Run

/-! ## Runs -/

/-- `kill` is not called with a pid that an UNUSED slot has, and `fork` does not give up a child that has been
    killed. -/
def AimedStep (H : Hist nc) (l : HLabel nc) : Prop :=
  ∀ k p, l = .kernel k → (H.sched.cpus k.cpu).exec = some p → Aimed H.sched.procs (H.sched.pc p)

instance (H : Hist nc) (l : HLabel nc) : Decidable (AimedStep H l) :=
  match l with
  | .loadParent _ | .loadPid _ => isTrue nofun
  | .kernel k =>
    decidable_of_iff (∀ p, (H.sched.cpus k.cpu).exec = some p → Aimed H.sched.procs (H.sched.pc p))
      ⟨fun h _ p e => by cases e; exact h p, fun h p => h k p rfl⟩

theorem clean_reachable {H : Hist nc} (h : (family nc).Reachable AimedStep H) : Clean H.sched.procs H.trace := by
  have hall : HInv H ∧ Clean H.sched.procs H.trace := by
    refine Machine.invariant (I := fun H => HInv H ∧ Clean H.sched.procs H.trace) ?_ ?_ h
    · intro H h0
      refine ⟨hinv_reachable (C := anyStep) (.init h0), ?_⟩
      obtain ⟨⟨kstack, pgdir, hS⟩, -, htr⟩ := h0
      have hkilled : ∀ p, ((St.init nc kstack pgdir).procs p).killed = false := by
        intro p
        simp only [St.init]
        split <;> rfl
      rw [hS, htr]
      refine ⟨fun p _ => hkilled p, fun p _ hk => ?_⟩
      rw [hkilled] at hk
      cases hk
    · rintro H l H' ⟨hI, hclean⟩ hc hs
      refine ⟨hI.step (hstep_cases hs), ?_⟩
      cases hstep_cases hs with
      | @kernel k T _ hT => exact hclean.step hI.safe hI.origin (fun p => hc k p rfl) hT
      | loadParent => exact hclean
      | loadPid => exact hclean.mono _ (fun _ => rfl) (fun _ => rfl) (fun _ => rfl) fun _ hu => hu
  exact hall.2

/-- **`kill` hits only the process it names**, if it is never called with the pid of an UNUSED slot and `fork` never
    gives up a child that has been killed.  It returns 0 and changes one process, which has that pid; or there is none,
    it returns -1 and changes nothing.  And who is killed has been named since it was created. -/
theorem kill_names (nc : Nat) (H : Hist nc) (h : (family nc).Reachable AimedStep H) :
    (∀ k H' p pid, (H.sched.cpus k.cpu).exec = some p → H.sched.pc p = .held (.kill pid) → AimedStep H (.kernel k) →
      (family nc).step H (.kernel k) = some H' →
      (∃ q, (H.sched.procs q).state ≠ .unused ∧ (H.sched.procs q).pid = pid ∧ H'.trace = H.trace ++ [.kill pid 0] ∧
        (H'.sched.procs q).killed = true ∧ ∀ r, r ≠ q → H'.sched.procs r = H.sched.procs r) ∨
      (∀ q, (H.sched.procs q).state ≠ .unused → (H.sched.procs q).pid ≠ pid) ∧
        H'.trace = H.trace ++ [.kill pid (-1)] ∧ H'.sched.procs = H.sched.procs) ∧
    ∀ p, p ≠ initproc → (H.sched.procs p).killed = true →
      (H.sched.procs p).state ≠ .unused ∧ Named (H.sched.procs p).born (H.sched.procs p).pid H.trace := by
  have hI := hinv_reachable h
  have hclean := clean_reachable h
  refine ⟨fun k H' p pid hx hpc haim hs => ?_, fun p hp hk => ⟨fun hu => ?_, hclean.named p hp hk⟩⟩
  · cases hstep_cases hs with
    | kernel _ hT =>
      obtain ⟨ht, hev⟩ := kill_step hI.safe hx hpc hT
      simp only [ht, hev, Option.toList_some]
      rcases H.sched.procs.kill_cases pid with ⟨hnone, hret, hno⟩ | ⟨q, hq, hret, hmod⟩
      · rw [hnone, hret]
        exact .inr ⟨fun q _ => hno q, rfl, rfl⟩
      · rw [hmod, hret]
        refine .inl ⟨q, fun hu => (haim k p rfl hx).kill pid hpc q hu hq, hq, rfl, ?_, fun r hr => ?_⟩
        · rw [Table.modify_self]
        · rw [Table.modify_ne _ _ hr]
  · rw [hclean.unused p hu] at hk
    cases hk

/-- init, on CPU 0, has forked and calls `kill(pid)`; it has the lock. -/
def killsChild (pid : Int) : List (HLabel 1) :=
  steps 4 0 ++ [.kernel (.call 0 .fork)] ++ steps 11 0 ++ [.kernel (.call 0 (.kill pid))] ++ steps 1 0

/-- Whom a process in the loop of `kill` is looking for. -/
def Pc.target : Pc → Option Int
  | .held (.kill pid) => some pid
  | _ => none

theorem Pc.of_target {k : Pc} (h : k.target = some pid) : k = .held (.kill pid) := by
  unfold Pc.target at h
  split at h
  · rw [Option.some.inj h]
  · cases h

/-- `kill(2)`, with the child there. -/
theorem kill_names_child : ∃ H H' : Hist 1, (family 1).step H (.kernel (.step 0 none)) = some H' ∧
    (H.sched.procs 1).pid = 2 ∧
    ((∃ q, (H.sched.procs q).state ≠ .unused ∧ (H.sched.procs q).pid = 2 ∧ H'.trace = H.trace ++ [.kill 2 0] ∧
        (H'.sched.procs q).killed = true ∧ ∀ r, r ≠ q → H'.sched.procs r = H.sched.procs r) ∨
      (∀ q, (H.sched.procs q).state ≠ .unused → (H.sched.procs q).pid ≠ 2) ∧
        H'.trace = H.trace ++ [.kill 2 (-1)] ∧ H'.sched.procs = H.sched.procs) := by
  have hrun : ((family 1).runIf AimedStep (booted 1) (killsChild 2)).any (fun H => decide
      (((family 1).step H (.kernel (.step 0 none))).isSome = true ∧ AimedStep H (.kernel (.step 0 none)) ∧
        (H.sched.cpus 0).exec = some initproc ∧ (H.sched.pc initproc).target = some 2 ∧
        (H.sched.procs 1).pid = 2)) = true := by decide +kernel
  obtain ⟨H, hreach, hsome, haim, hx, hpc, hpid⟩ := Machine.reachable_of_runIf (booted_init 1) hrun
  obtain ⟨H', hs⟩ := Option.isSome_iff_exists.mp hsome
  have hk := Pc.of_target hpc
  exact ⟨H, H', hs, hpid, (kill_names 1 H hreach).1 (.step 0 none) H' initproc 2 hx hk haim hs⟩

/-- init calls `kill(0)` and forks. -/
def killsNobody : List (HLabel 1) :=
  steps 4 0 ++ [.kernel (.call 0 (.kill 0))] ++ steps 3 0 ++ [.kernel (.call 0 .fork)] ++ steps 11 0

/-- `kill(0)` returns 0 although nobody has that pid, and the child of the next `fork` is born killed. -/
theorem stray_kill : ∃ H : Hist 1, (family 1).Reachable anyStep H ∧ H.trace = [.kill 0 0, .create 1 2 2] ∧
    (∀ q, (H.sched.procs q).state ≠ .unused → (H.sched.procs q).pid ≠ 0) ∧
    (H.sched.procs 1).pid = 2 ∧ (H.sched.procs 1).state = .runnable ∧ (H.sched.procs 1).killed = true := by
  have hrun : ((family 1).run (booted 1) killsNobody).any (fun H => decide (H.trace = [.kill 0 0, .create 1 2 2] ∧
      (∀ q, (H.sched.procs q).state ≠ .unused → (H.sched.procs q).pid ≠ 0) ∧
      (H.sched.procs 1).pid = 2 ∧ (H.sched.procs 1).state = .runnable ∧ (H.sched.procs 1).killed = true)) = true := by
    decide +kernel
  exact Machine.reachable_of_run (booted_init 1) hrun

end Xv6.Sched
