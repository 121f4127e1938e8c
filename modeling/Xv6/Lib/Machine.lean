/-
  LABELLED MACHINES — runs, reachable states and the invariant rule.

  A concurrent component is modelled as a machine: a predicate saying where it may start and a
  step function `step s l`, where the label `l` says WHO moves and HOW.  `none` means that the
  step is not enabled (the mover is asleep, a lock is taken, the machine has halted).  All the
  nondeterminism of an interleaving sits in the list of labels, so a run is a list, a concrete
  run can be evaluated, and "any interleaving" is "for every list of labels".

  * `Run C s ls t`   — the labels `ls` lead from `s` to `t`, each step meeting `C`;
  * `Reachable C s`  — some run from a starting state, meeting `C` at every step, ends in `s`;
  * `invariant`      — the induction, done once: holds initially + kept by every step.

  The side condition `C` is how a result about well-behaved runs is stated ("each operation logs
  at most ten blocks"); `C := anyStep` gives plain reachability.
-/
import Mathlib

/-!
Runs are written down for a few threads, which are numerals.  Lean finds `NeZero` of these by itself, but
then makes a lemma of it for each definition; as constants they are one term wherever a numeral stands.
-/

instance neZero_one : NeZero (1 : Nat) := ⟨by decide⟩

instance neZero_two : NeZero (2 : Nat) := ⟨by decide⟩

instance neZero_three : NeZero (3 : Nat) := ⟨by decide⟩

instance neZero_six : NeZero (6 : Nat) := ⟨by decide⟩

namespace Machines

/-- A machine: where it may start, and what a labelled step does. -/
structure Machine (σ ι : Type) where
  init : σ → Prop
  step : σ → ι → Option σ

variable {σ ι : Type}

/-- The condition that every step meets. -/
def anyStep : σ → ι → Prop := fun _ _ => True

variable {P I : σ → Prop}

namespace Machine

variable (M : Machine σ ι)

/-- Evaluate a list of labels. -/
def run : σ → List ι → Option σ
  | s, [] => some s
  | s, l :: ls => (M.step s l).bind fun t => run t ls

/-- Evaluate a list of labels, giving up at a step that does not meet `C`. -/
def runIf (C : σ → ι → Prop) [∀ s l, Decidable (C s l)] : σ → List ι → Option σ
  | s, [] => some s
  | s, l :: ls => if C s l then (M.step s l).bind fun t => runIf C t ls else none

/-- The labels `ls` lead from `s` to `t`, and every step of the way meets `C` in the state it is
    taken from. -/
inductive Run (C : σ → ι → Prop) : σ → List ι → σ → Prop
  | nil (s : σ) : Run C s [] s
  | cons {s t u : σ} {l : ι} {ls : List ι} :
      C s l → M.step s l = some t → Run C t ls u → Run C s (l :: ls) u

/-- Some run from a starting state, meeting `C` throughout, ends here. -/
def Reachable (C : σ → ι → Prop) (s : σ) : Prop :=
  ∃ s₀ ls, M.init s₀ ∧ M.Run C s₀ ls s

variable {M} {C D : σ → ι → Prop} {s t u : σ} {ls ms : List ι}

theorem Run.append (h : M.Run C s ls t) (h' : M.Run C t ms u) : M.Run C s (ls ++ ms) u := by
  induction h with
  | nil s => exact h'
  | cons hc hs _ ih => exact .cons hc hs (ih h')

theorem Run.single {l : ι} (hc : C s l) (hs : M.step s l = some t) : M.Run C s [l] t :=
  .cons hc hs (.nil t)

theorem Run.mono (hCD : ∀ s l, C s l → D s l) (h : M.Run C s ls t) : M.Run D s ls t := by
  induction h with
  | nil s => exact .nil s
  | cons hc hs _ ih => exact .cons (hCD _ _ hc) hs ih

/-- A run without side condition is an evaluation. -/
theorem run_iff : M.Run anyStep s ls t ↔ M.run s ls = some t := by
  constructor
  · intro h
    induction h with
    | nil s => rfl
    | cons _ hs _ ih => simp only [run, hs, Option.bind_some]; exact ih
  · intro h
    induction ls generalizing s with
    | nil => obtain rfl : s = t := by simpa [run] using h
             exact .nil s
    | cons l ls ih =>
      simp only [run] at h
      obtain ⟨v, hv, hr⟩ := Option.bind_eq_some_iff.mp h
      exact .cons trivial hv (ih hr)

/-- An evaluation under a side condition is a run. -/
theorem run_of_runIf [∀ s l, Decidable (C s l)] (h : M.runIf C s ls = some t) : M.Run C s ls t := by
  induction ls generalizing s with
  | nil => obtain rfl : s = t := by simpa [runIf] using h
           exact .nil s
  | cons l ls ih =>
    simp only [runIf, Option.ite_none_right_eq_some] at h
    obtain ⟨hc, h⟩ := h
    obtain ⟨v, hv, hr⟩ := Option.bind_eq_some_iff.mp h
    exact .cons hc hv (ih hr)

theorem Reachable.init (h : M.init s) : M.Reachable C s := ⟨s, [], h, .nil s⟩

theorem Reachable.step {l : ι} (h : M.Reachable C s) (hc : C s l) (hs : M.step s l = some t) : M.Reachable C t := by
  obtain ⟨s₀, ls, h0, hr⟩ := h
  exact ⟨s₀, ls ++ [l], h0, hr.append (.single hc hs)⟩

theorem Reachable.mono (hCD : ∀ s l, C s l → D s l) (h : M.Reachable C s) : M.Reachable D s := by
  obtain ⟨s₀, ls, h0, hr⟩ := h
  exact ⟨s₀, ls, h0, hr.mono hCD⟩

/-- What an evaluation, under a side condition, ends in is reachable. -/
theorem reachable_of_runIf [∀ s l, Decidable (C s l)] [DecidablePred P] (h0 : M.init s)
    (h : (M.runIf C s ls).any (fun t => decide (P t)) = true) : ∃ t, M.Reachable C t ∧ P t := by
  obtain ⟨t, hrun, ht⟩ := (Option.any_eq_true _ _).mp h
  exact ⟨t, ⟨s, ls, h0, run_of_runIf hrun⟩, of_decide_eq_true ht⟩

/-- What an evaluation ends in is reachable from where it starts. -/
theorem Reachable.eval [DecidablePred P] (h0 : M.Reachable anyStep s)
    (h : (M.run s ls).any (fun t => decide (P t)) = true) : ∃ t, M.Reachable anyStep t ∧ P t := by
  obtain ⟨s₀, ks, h0, hks⟩ := h0
  obtain ⟨t, hrun, ht⟩ := (Option.any_eq_true _ _).mp h
  exact ⟨t, ⟨s₀, ks ++ ls, h0, hks.append (run_iff.mpr hrun)⟩, of_decide_eq_true ht⟩

theorem reachable_of_run [DecidablePred P] (h0 : M.init s)
    (h : (M.run s ls).any (fun t => decide (P t)) = true) : ∃ t, M.Reachable anyStep t ∧ P t :=
  (Reachable.init h0).eval h

/-- A property kept by every step is kept by every run. -/
theorem Run.keeps (hstep : ∀ s l t, I s → C s l → M.step s l = some t → I t) (h : M.Run C s ls t) (hs : I s) : I t := by
  induction h with
  | nil s => exact hs
  | cons hc hst _ ih => exact ih (hstep _ _ _ hs hc hst)

/-- **The invariant rule.**  What holds at the start and is kept by every step holds in every
    reachable state. -/
theorem invariant (hinit : ∀ s, M.init s → I s)
    (hstep : ∀ s l t, I s → C s l → M.step s l = some t → I t) (h : M.Reachable C s) : I s := by
  obtain ⟨s₀, ls, h0, hr⟩ := h
  exact hr.keeps hstep (hinit s₀ h0)

end Machine

end Machines
