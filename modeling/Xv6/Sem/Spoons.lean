/-
  THE SEMAPHORES (proc.c: `struct semaphore`, `sem_init`, `sem_acquire`, `sem_release`).

  The kernel has six semaphores, `spoons[6]`, each with a spin-lock, and each a monitor: `sem_acquire` sleeps until
  `val` is positive and takes one, `sem_release` gives one back and wakes whoever sleeps, `sem_init` sets `val` the
  first time it is called.  Any number of processes call them in any interleaving.

  1. **`Tally`** — by induction on the completed operations: `val = v + releases - acquires`, if nobody uses the
     semaphore before `sem_init` has returned (`Started`) and `val` stays an `int` (`Fits`).
  2. **`held_sum`** — if every process releases only what it has acquired (`OnlyAcquired`), the processes together
     hold no more than the difference of all acquires and releases.
  3. **`semaphore_counts`** — in every state of every run.
-/
import Mathlib
import Xv6.Lib.Monitor
import Xv6.Param

namespace Xv6.Sem

open Machines Monitors

/-- `struct semaphore`; its spin-lock `lock` is the monitor's. -/
structure Semaphore where
  val : Int
  owner : Int
  locked : Int
  deriving DecidableEq

inductive Call
  | semInit (i : Fin 6) (v : Int)
  | semAcquire (i : Fin 6)
  | semRelease (i : Fin 6)
  deriving DecidableEq

/-- The semaphore a call is about. -/
def Call.sem : Call → Fin 6
  | semInit i _ | semAcquire i | semRelease i => i

section Ops

variable {π : Type}

/-- `sem_init`: no `wakeup` after `val = v`. -/
def semInit (v : Int) : Op π Semaphore Int where
  guard := fun _ => true
  act := fun _ s => if s.locked ≠ 0 then s else { locked := 1, val := v, owner := -1 }
  ret := fun _ s => if s.locked ≠ 0 then -1 else 0
  wakes := false

/-- `sem_acquire`: the `if` before the `while` tests the same as the `while`, and both branches end alike. -/
def semAcquire (i : Fin 6) : Op π Semaphore Int where
  guard := fun s => 0 < s.val
  act := fun _ s => { s with owner := i.val, val := cInt (s.val - 1) }
  ret := fun _ _ => 0
  wakes := false

/-- `sem_release` -/
def semRelease : Op π Semaphore Int where
  guard := fun _ => true
  act := fun _ s => { s with owner := -1, val := cInt (s.val + 1) }
  ret := fun _ _ => 0
  wakes := true

/-- `struct semaphore spoons[6]` -/
def spoons : Monitor (Fin 6) π Call Semaphore Int where
  on := Call.sem
  op := fun
    | .semInit _ v => semInit v
    | .semAcquire i => semAcquire i
    | .semRelease _ => semRelease
  first := fun _ => { val := 0, owner := 0, locked := 0 }

end Ops

variable {π : Type}

/-- Completed calls of processes `π`. -/
abbrev Calls (π : Type) := List (Done π Call Int)

/-! ## The count -/

/-- The `v` of `sem_init(i, v)`, if `d` is one. -/
def initOf (i : Fin 6) (d : Done π Call Int) : Option Int :=
  match d.op with
  | .semInit j v => if j = i then some v else none
  | _ => none

/-- The `v` of the first completed `sem_init(i, v)`. -/
def initial (i : Fin 6) (ds : Calls π) : Option Int := ds.findSome? (initOf i)

/-- The number of completed `sem_acquire(i)`. -/
def acquires (i : Fin 6) (ds : Calls π) : Nat := ds.countP fun d => d.op = .semAcquire i

/-- The number of completed `sem_release(i)`. -/
def releases (i : Fin 6) (ds : Calls π) : Nat := ds.countP fun d => d.op = .semRelease i

/-- Semaphore `i` is used after a `sem_init(i, v)` has returned, not before. -/
def Started (i : Fin 6) (_ : π) : Call → Calls π → Prop
  | .semAcquire j, ds | .semRelease j, ds => j = i → (initial i ds).isSome = true
  | .semInit _ _, _ => True

/-- `val` does not leave the range of `int`. -/
def Fits (i : Fin 6) (_ : π) : Call → Semaphore → Prop
  | .semRelease j, s => j = i → s.val < 2 ^ 31 - 1
  | .semInit _ _, _ | .semAcquire _, _ => True

/-- The runs in which semaphore `i` counts. -/
def Proper (i : Fin 6) (S : St (Fin 6) π Call Semaphore Int) : Label π Call → Prop
  | .call p o => Started i p o S.done
  | .step p =>
    match S.pc p with
    | .test o => Fits i p o (S.res o.sem)
    | _ => True
  | .kill _ => True

@[simp] theorem initial_snoc (i : Fin 6) (ds : Calls π) (d : Done π Call Int) :
    initial i (ds ++ [d]) = (initial i ds).or (initOf i d) := by
  rw [initial, List.findSome?_append]
  cases h : initOf i d <;> simp [initial, h]

@[simp] theorem acquires_snoc (i : Fin 6) (ds : Calls π) (d : Done π Call Int) :
    acquires i (ds ++ [d]) = acquires i ds + if d.op = .semAcquire i then 1 else 0 := by
  simp [acquires, List.countP_append, List.countP_singleton]

@[simp] theorem releases_snoc (i : Fin 6) (ds : Calls π) (d : Done π Call Int) :
    releases i (ds ++ [d]) = releases i ds + if d.op = .semRelease i then 1 else 0 := by
  simp [releases, List.countP_append, List.countP_singleton]

theorem started_stable (i : Fin 6) (p : π) (o : Call) (ds : Calls π) (d : Done π Call Int) (_ : d.proc ≠ p)
    (h : Started i p o ds) : Started i p o (ds ++ [d]) := by
  have hsome : (initial i ds).isSome = true → (initial i (ds ++ [d])).isSome = true := by
    intro hs
    rw [initial_snoc, Option.isSome_or, hs, Bool.true_or]
  cases o with
  | semInit _ _ => trivial
  | semAcquire j | semRelease j => exact fun hj => hsome (h hj)

/-- What the completed calls have made of semaphore `i`: before the first `sem_init` nothing; after it, `val` counts. -/
def Tally (i : Fin 6) (ds : Calls π) (s : Semaphore) : Prop :=
  (initial i ds = none ∧ s.locked = 0 ∧ acquires i ds = 0 ∧ releases i ds = 0) ∨
    ∃ v, initial i ds = some v ∧ s.locked = 1 ∧
      (0 ≤ v → v < 2 ^ 31 → s.val = v + releases i ds - acquires i ds ∧ 0 ≤ s.val ∧ s.val < 2 ^ 31)

section Effects

variable {i : Fin 6} {ds : Calls π} {d : Done π Call Int} {s : Semaphore}

theorem Tally.locked (h : Tally i ds s) (hs : (initial i ds).isSome = true) : s.locked = 1 := by
  rcases h with ⟨hnone, -⟩ | ⟨v, -, hlocked, -⟩
  · rw [hnone] at hs
    cases hs
  · exact hlocked

/-- A completed call that is about another semaphore, or changes nothing. -/
theorem Tally.same (h : Tally i ds s) (hinit : initial i (ds ++ [d]) = initial i ds)
    (hacq : d.op ≠ .semAcquire i) (hrel : d.op ≠ .semRelease i) : Tally i (ds ++ [d]) s := by
  unfold Tally
  rw [hinit, acquires_snoc, releases_snoc, if_neg hacq, if_neg hrel]
  exact h

theorem Tally.init {v : Int} (h : Tally i ds s) (hop : d.op = .semInit i v) :
    Tally i (ds ++ [d]) (if s.locked ≠ 0 then s else { locked := 1, val := v, owner := -1 }) := by
  have hd : initOf i d = some v := by simp [initOf, hop]
  have hacq : d.op ≠ .semAcquire i := by rw [hop]; nofun
  have hrel : d.op ≠ .semRelease i := by rw [hop]; nofun
  rcases h with ⟨hnone, hlocked, ha, hr⟩ | ⟨v', hsome, hlocked, hval⟩
  · -- the first one
    rw [if_neg (not_not.mpr hlocked)]
    refine .inr ⟨v, by rw [initial_snoc, hnone, hd]; rfl, rfl, fun h0 hint => ?_⟩
    rw [acquires_snoc, releases_snoc, if_neg hacq, if_neg hrel, ha, hr]
    exact ⟨by simp, h0, hint⟩
  · -- a later one
    rw [if_pos (by rw [hlocked]; decide)]
    refine Tally.same (.inr ⟨v', hsome, hlocked, hval⟩) ?_ hacq hrel
    rw [initial_snoc, hsome]
    rfl

theorem Tally.acquire (h : Tally i ds s) (hop : d.op = .semAcquire i) (hstart : (initial i ds).isSome = true)
    (hguard : 0 < s.val) : Tally i (ds ++ [d]) { s with owner := i.val, val := cInt (s.val - 1) } := by
  have hrel : d.op ≠ .semRelease i := by rw [hop]; nofun
  rcases h with ⟨hnone, -⟩ | ⟨v, hsome, hlocked, hval⟩
  · rw [hnone] at hstart
    cases hstart
  · refine .inr ⟨v, by rw [initial_snoc, hsome]; rfl, hlocked, fun h0 hint => ?_⟩
    obtain ⟨heq, hnonneg, hlt⟩ := hval h0 hint
    rw [acquires_snoc, releases_snoc, if_pos hop, if_neg hrel]
    dsimp only
    rw [cInt_of_lt (by omega) (by omega)]
    omega

theorem Tally.release (h : Tally i ds s) (hop : d.op = .semRelease i) (hstart : (initial i ds).isSome = true)
    (hfits : s.val < 2 ^ 31 - 1) : Tally i (ds ++ [d]) { s with owner := -1, val := cInt (s.val + 1) } := by
  have hacq : d.op ≠ .semAcquire i := by rw [hop]; nofun
  rcases h with ⟨hnone, -⟩ | ⟨v, hsome, hlocked, hval⟩
  · rw [hnone] at hstart
    cases hstart
  · refine .inr ⟨v, by rw [initial_snoc, hsome]; rfl, hlocked, fun h0 hint => ?_⟩
    obtain ⟨heq, hnonneg, hlt⟩ := hval h0 hint
    rw [acquires_snoc, releases_snoc, if_neg hacq, if_pos hop]
    dsimp only
    rw [cInt_of_lt (by omega) (by omega)]
    omega

/-- **The count**, by induction on the completed calls. -/
theorem tally_of_history (h : History spoons (Fits i) i ds s) (hd : Disciplined (Started i) ds) : Tally i ds s := by
  induction h with
  | nil => exact .inl ⟨rfl, rfl, rfl, rfl⟩
  | @snoc ds d s w _ hon heff ih =>
    obtain ⟨hds, hstart⟩ := hd.last
    obtain ⟨⟨hguard, hfits⟩, -, rfl⟩ := heff
    have hsem : d.op.sem = i := hon
    cases hop : d.op with
    | semInit j v =>
      obtain rfl : j = i := by rw [← hsem, hop]; rfl
      exact (ih hds).init hop
    | semAcquire j =>
      obtain rfl : j = i := by rw [← hsem, hop]; rfl
      rw [hop] at hstart hguard
      exact (ih hds).acquire hop (hstart rfl) (of_decide_eq_true hguard)
    | semRelease j =>
      obtain rfl : j = i := by rw [← hsem, hop]; rfl
      rw [hop] at hstart hfits
      exact (ih hds).release hop (hstart rfl) (hfits rfl)
  | @other ds d s _ hne ih =>
    have hsem : d.op.sem ≠ i := hne
    have hnone : initOf i d = none := by
      unfold initOf
      split
      · rename_i j v hop
        rw [hop] at hsem
        exact if_neg hsem
      · rfl
    refine (ih hd.last.1).same ?_ ?_ ?_
    · rw [initial_snoc, hnone, Option.or_none]
    · intro e
      rw [e] at hsem
      exact hsem rfl
    · intro e
      rw [e] at hsem
      exact hsem rfl

end Effects

/-! ## Who holds how many -/

section Held

variable [DecidableEq π]

/-- What completing call `o` does to the number of `i` that the caller holds. -/
def gain (i : Fin 6) (o : Call) : Int := if o = .semAcquire i then 1 else if o = .semRelease i then -1 else 0

/-- What completing `d` does to the number of `i` that `p` holds. -/
def heldBy (i : Fin 6) (p : π) (d : Done π Call Int) : Int := if d.proc = p then gain i d.op else 0

/-- How many of semaphore `i` process `p` holds: what it has acquired and not released. -/
def held (i : Fin 6) (p : π) (ds : Calls π) : Int := (ds.map (heldBy i p)).sum

/-- A process releases only what it has acquired. -/
def OnlyAcquired (i : Fin 6) (p : π) : Call → Calls π → Prop
  | .semRelease j, ds => j = i → 0 < held i p ds
  | .semInit _ _, _ | .semAcquire _, _ => True

/-- The runs in which nobody releases what it has not acquired. -/
def Owned (i : Fin 6) (S : St (Fin 6) π Call Semaphore Int) : Label π Call → Prop
  | .call p o => OnlyAcquired i p o S.done
  | .step _ | .kill _ => True

@[simp] theorem held_snoc (i : Fin 6) (p : π) (ds : Calls π) (d : Done π Call Int) :
    held i p (ds ++ [d]) = held i p ds + heldBy i p d := by
  simp [held]

theorem onlyAcquired_stable (i : Fin 6) (p : π) (o : Call) (ds : Calls π) (d : Done π Call Int) (hd : d.proc ≠ p)
    (h : OnlyAcquired i p o ds) : OnlyAcquired i p o (ds ++ [d]) := by
  cases o with
  | semInit _ _ | semAcquire _ => trivial
  | semRelease j =>
    intro hj
    rw [held_snoc, heldBy, if_neg hd, add_zero]
    exact h hj

omit [DecidableEq π] in
theorem gain_count (i : Fin 6) (ds : Calls π) (d : Done π Call Int) :
    (acquires i (ds ++ [d]) : Int) - releases i (ds ++ [d]) = (acquires i ds - releases i ds) + gain i d.op := by
  rw [acquires_snoc, releases_snoc, gain]
  by_cases hacq : d.op = .semAcquire i
  · have hrel : d.op ≠ .semRelease i := by rw [hacq]; nofun
    rw [if_pos hacq, if_pos hacq, if_neg hrel]
    omega
  · rw [if_neg hacq, if_neg hacq]
    split <;> omega

/-- A caller that loses one has had one. -/
theorem gain_held {i : Fin 6} {p : π} {o : Call} {ds : Calls π} (hok : OnlyAcquired i p o ds) :
    0 ≤ gain i o ∨ gain i o = -1 ∧ 0 < held i p ds := by
  unfold gain
  split
  · exact .inl (by decide)
  · split
    · rename_i hrel
      subst hrel
      exact .inr ⟨rfl, hok rfl⟩
    · exact .inl (le_refl 0)

/-- The processes together hold no more than has been acquired and not released. -/
theorem held_sum {i : Fin 6} {ds : Calls π} (h : Disciplined (OnlyAcquired i) ds) :
    (∀ p, 0 ≤ held i p ds) ∧ ∀ ps : Finset π, ∑ p ∈ ps, held i p ds ≤ (acquires i ds : Int) - releases i ds := by
  induction h with
  | nil => exact ⟨fun _ => le_refl 0, fun ps => by simp [held, acquires, releases]⟩
  | @snoc ds d hds hok ih =>
    obtain ⟨hpos, hsum⟩ := ih
    have hgain := gain_held hok
    constructor
    · intro p
      have := hpos p
      rw [held_snoc, heldBy]
      split
      · rename_i hp
        subst hp
        omega
      · omega
    · intro ps
      simp only [held_snoc, Finset.sum_add_distrib, gain_count, heldBy, Finset.sum_ite_eq]
      by_cases hp : d.proc ∈ ps
      · rw [if_pos hp]
        exact Int.add_le_add_right (hsum ps) _
      · -- what the caller held is not in this sum, but in the one over it and `ps`
        have hinsert := hsum (insert d.proc ps)
        rw [Finset.sum_insert hp] at hinsert
        have := hpos d.proc
        rw [if_neg hp]
        omega

/-- All processes together hold exactly that. -/
theorem held_total [Fintype π] (i : Fin 6) (ds : Calls π) :
    ∑ p, held i p ds = (acquires i ds : Int) - releases i ds := by
  induction ds using List.reverseRecOn with
  | nil => simp [held, acquires, releases]
  | append_singleton ds d ih =>
    simp only [held_snoc, Finset.sum_add_distrib, gain_count, heldBy, Finset.sum_ite_eq, Finset.mem_univ, if_true, ih]

/-- Whoever holds one is one of at most `v`. -/
theorem Tally.holders {i : Fin 6} {ds : Calls π} {s : Semaphore} {v : Int} (h : Tally i ds s)
    (hd : Disciplined (OnlyAcquired i) ds) (hinit : initial i ds = some v) (h0 : 0 ≤ v) (hint : v < 2 ^ 31)
    (ps : Finset π) (hps : ∀ p ∈ ps, 0 < held i p ds) : (ps.card : Int) ≤ v := by
  obtain ⟨heq, hnonneg, -⟩ : s.val = v + releases i ds - acquires i ds ∧ 0 ≤ s.val ∧ s.val < 2 ^ 31 := by
    rcases h with ⟨hnone, -⟩ | ⟨v', hsome, -, hval⟩
    · rw [hnone] at hinit
      cases hinit
    · obtain rfl : v' = v := Option.some.inj (hsome.symm.trans hinit)
      exact hval h0 hint
  have hcard : (ps.card : Int) ≤ ∑ p ∈ ps, held i p ds := by
    calc (ps.card : Int) = ∑ _p ∈ ps, 1 := by simp
      _ ≤ ∑ p ∈ ps, held i p ds := Finset.sum_le_sum fun p hp => hps p hp
  have hsum := (held_sum hd).2 ps
  omega

end Held

/-! ## Every interleaving -/

section Runs

variable [DecidableEq π] {i : Fin 6} {S T : St (Fin 6) π Call Semaphore Int} {l : Label π Call}

structure Inv (i : Fin 6) (S : St (Fin 6) π Call Semaphore Int) : Prop where
  excl : Excl spoons S
  linear : Linear spoons (Fits i) S
  started : Obeys (Started i) S

theorem Inv.step (h : Inv i S) (hc : Proper i S l) (hs : spoons.machine.step S l = some T) : Inv i T := by
  have hs' := Monitor.step_cases hs
  refine ⟨h.excl.step hs', h.linear.step h.excl ?_ hs', h.started.step (started_stable i) ?_ hs'⟩
  · rintro p o rfl hpc -
    simp only [Proper, hpc] at hc
    exact hc
  · rintro p o rfl
    exact hc

theorem inv_of_reachable (h : spoons.machine.Reachable (Proper i) S) : Inv i S := by
  refine Machine.invariant ?_ (fun _ _ _ hi hc hs => hi.step hc hs) h
  rintro _ rfl
  exact ⟨Excl.start, Linear.start, ⟨.nil, nofun⟩⟩

theorem obeys_of_reachable (h : spoons.machine.Reachable (Owned i) S) : Obeys (OnlyAcquired i) S := by
  refine Machine.invariant ?_ (fun S l T hi hc hs => ?_) h
  · rintro _ rfl
    exact ⟨.nil, nofun⟩
  · refine hi.step (onlyAcquired_stable i) ?_ (Monitor.step_cases hs)
    rintro p o rfl
    exact hc

omit [DecidableEq π] in
/-- While the lock is free, `val` counts the completed calls. -/
theorem Inv.val (h : Inv i S) {v : Int} (hinit : initial i S.done = some v) (h0 : 0 ≤ v) (hint : v < 2 ^ 31)
    (hfree : S.lock i = none) : (S.res i).val = v + releases i S.done - acquires i S.done ∧ 0 ≤ (S.res i).val := by
  rcases tally_of_history (h.linear.history h.excl hfree) h.started.past with ⟨hnone, -⟩ | ⟨v', hsome, -, hval⟩
  · rw [hnone] at hinit
    cases hinit
  · obtain rfl : v' = v := Option.some.inj (hsome.symm.trans hinit)
    exact ⟨(hval h0 hint).1, (hval h0 hint).2.1⟩

omit [DecidableEq π] in
/-- Once `sem_init` has returned the semaphore stays initialised, also while another call is about to return. -/
theorem Inv.locked (h : Inv i S) (hinit : (initial i S.done).isSome = true) : (S.res i).locked = 1 := by
  obtain ⟨s, hs, hres⟩ := h.linear.past i
  have hlocked := (tally_of_history hs h.started.past).locked hinit
  rcases hres with hres | ⟨p, o, r, -, -, -, -, hact⟩
  · rw [hres]
    exact hlocked
  · rw [hact]
    cases o with
    | semInit j v =>
      simp only [spoons, semInit]
      rw [if_pos (by rw [hlocked]; decide)]
      exact hlocked
    | semAcquire j | semRelease j => exact hlocked

/-- **Semaphores count.**  Let a first `sem_init(i, v)` have returned, before anybody else used semaphore `i`.  Then:

    * while its lock is free, `val` is `v` plus the completed releases minus the completed acquires, and not negative;
    * any further `sem_init(i, v')` returns -1 and changes nothing;
    * no call, of whatever process, changes a semaphore it is not about;
    * if every process releases only what it has acquired, at most `v` processes hold semaphore `i` at once. -/
theorem semaphore_counts (i : Fin 6) (v : Int) (h0 : 0 ≤ v) (hint : v < 2 ^ 31) :
    (∀ S : St (Fin 6) π Call Semaphore Int, spoons.machine.Reachable (Proper i) S → initial i S.done = some v →
      (S.lock i = none → (S.res i).val = v + releases i S.done - acquires i S.done ∧ 0 ≤ (S.res i).val) ∧
      ∀ p v' T, S.pc p = .test (.semInit i v') → spoons.machine.step S (.step p) = some T →
        T.res = S.res ∧ T.pc p = .release (.semInit i v') (-1)) ∧
    (∀ (S T : St (Fin 6) π Call Semaphore Int) p o, (S.pc p).op = some o → spoons.machine.step S (.step p) = some T →
      ∀ j, j ≠ o.sem → T.res j = S.res j) ∧
    (∀ S : St (Fin 6) π Call Semaphore Int, spoons.machine.Reachable (fun S l => Proper i S l ∧ Owned i S l) S →
      initial i S.done = some v → ∀ ps : Finset π, (∀ p ∈ ps, 0 < held i p S.done) → (ps.card : Int) ≤ v) := by
  refine ⟨fun S hS hinit => ⟨?_, ?_⟩, ?_, fun S hS hinit ps hps => ?_⟩
  · exact (inv_of_reachable hS).val hinit h0 hint
  · intro p v' T hpc hs
    have hlocked := (inv_of_reachable hS).locked (by rw [hinit]; rfl)
    have hne : (S.res i).locked ≠ 0 := by rw [hlocked]; decide
    have hact : (semInit (π := π) v').act p (S.res i) = S.res i := if_pos hne
    have hret : (semInit (π := π) v').ret p (S.res i) = -1 := if_pos hne
    cases Monitor.step_cases hs with
    | act hpc' _ =>
      cases hpc.symm.trans hpc'
      exact ⟨(congrArg (Function.update S.res i) hact).trans (Function.update_eq_self i S.res),
        (Function.update_self p _ S.pc).trans (congrArg (spoons.after (.semInit i v')) hret)⟩
    | wait hpc' hfalse =>
      cases hpc.symm.trans hpc'
      cases hfalse
    | acquire hpc' _ | sleepAcquire hpc' _ | sleepRelease hpc' | sleepState hpc' | wakened hpc' _ _ | resume hpc'
    | wakeAcquire hpc' _ | wakeup hpc' | wakeRelease hpc' | release hpc' => nomatch hpc.symm.trans hpc'
  · intro S T p o ho hs j hj
    exact ((Monitor.step_cases hs).elsewhere ho hj).1
  · have hinv := inv_of_reachable (hS.mono fun _ _ hc => hc.1)
    have howned := obeys_of_reachable (hS.mono fun _ _ hc => hc.2)
    obtain ⟨s, hs, -⟩ := hinv.linear.past i
    exact (tally_of_history hs hinv.started.past).holders howned.past hinit h0 hint ps hps

instance (i : Fin 6) (p : π) (o : Call) (ds : Calls π) : Decidable (Started i p o ds) :=
  match o with
  | .semAcquire j | .semRelease j => inferInstanceAs (Decidable (j = i → (initial i ds).isSome = true))
  | .semInit _ _ => .isTrue trivial

instance (i : Fin 6) (p : π) (o : Call) (s : Semaphore) : Decidable (Fits i p o s) :=
  match o with
  | .semRelease j => inferInstanceAs (Decidable (j = i → s.val < 2 ^ 31 - 1))
  | .semInit _ _ | .semAcquire _ => .isTrue trivial

instance (i : Fin 6) (p : π) (o : Call) (ds : Calls π) : Decidable (OnlyAcquired i p o ds) :=
  match o with
  | .semRelease j => inferInstanceAs (Decidable (j = i → 0 < held i p ds))
  | .semInit _ _ | .semAcquire _ => .isTrue trivial

instance (i : Fin 6) (S : St (Fin 6) π Call Semaphore Int) (l : Label π Call) : Decidable (Owned i S l) :=
  match l with
  | .call p o => inferInstanceAs (Decidable (OnlyAcquired i p o S.done))
  | .step _ | .kill _ => .isTrue trivial

instance (i : Fin 6) (S : St (Fin 6) π Call Semaphore Int) (l : Label π Call) : Decidable (Proper i S l) := by
  unfold Proper
  split
  · infer_instance
  · split <;> infer_instance
  · infer_instance

end Runs

/-- Process 0 initialises semaphore 3 with 1 and takes it; process 1 waits for it, and is killed while it does. -/
def oneSpoon : List (Label (Fin 2) Call) :=
  [.call 0 (.semInit 3 1), .step 0, .step 0, .step 0, .call 0 (.semAcquire 3), .step 0, .step 0, .step 0,
    .call 1 (.semAcquire 3)] ++ List.replicate 5 (.step 1) ++ [.kill 1] ++ List.replicate 7 (.step 1)

theorem semaphore_counts_oneSpoon : ∃ S : St (Fin 6) (Fin 2) Call Semaphore Int,
    spoons.machine.Reachable (fun S l => Proper 3 S l ∧ Owned 3 S l) S ∧
      (initial 3 S.done = some 1 ∧ S.lock 3 = none ∧ S.status 1 = .sleeping 3 ∧ 0 < held 3 0 S.done) ∧
      ((S.res 3).val = 1 + releases 3 S.done - acquires 3 S.done ∧ 0 ≤ (S.res 3).val) ∧
      ∀ ps : Finset (Fin 2), (∀ p ∈ ps, 0 < held 3 p S.done) → (ps.card : Int) ≤ 1 := by
  have hinit : (spoons (π := Fin 2)).machine.init spoons.start := rfl
  have hrun : ((spoons (π := Fin 2)).machine.runIf (fun S l => Proper 3 S l ∧ Owned 3 S l) spoons.start oneSpoon).any
      (fun S => decide (initial 3 S.done = some 1 ∧ S.lock 3 = none ∧ S.status 1 = .sleeping 3 ∧
        0 < held 3 0 S.done)) = true := by decide +kernel
  obtain ⟨S, hreach, hstate⟩ := Machine.reachable_of_runIf hinit hrun
  have hcounts := semaphore_counts (π := Fin 2) 3 1 (by decide) (by decide)
  have hproper := hreach.mono fun _ _ hc => hc.1
  exact ⟨S, hreach, hstate, (hcounts.1 S hproper hstate.1).1 hstate.2.1, hcounts.2.2 S hreach hstate.1⟩

end Xv6.Sem
