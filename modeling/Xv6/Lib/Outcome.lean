/-
  PROGRAMS THAT CHANGE A STATE AND MAY STOP WITH AN ERROR, and what their outcomes satisfy.

  A `Prog σ ε α` takes a state to an error or to a result with the next state.  `Meets r Q E` says
  of ONE outcome `r`: if it is a return, `Q` holds of the result and the state reached; if it is an
  error, `E` holds of the error.  So one statement about a function covers both its normal return
  and the exact circumstances under which it stops:

  * `Meets.bind`     — the sequencing rule;
  * `Meets.mono`     — weakening;
  * `Meets.returns`  — no error is possible, so the program returns;
  * `Meets.forM`     — the loop rule: an invariant over what is left of the list.

  `Ends r Q` and `Returns r` are its two halves: what holds if the program returns, and that it does.  A
  function whose result is used where errors do not matter is specified with `Ends` alone.
-/
import Mathlib

namespace Outcome

/-- A program over the state `σ` with errors `ε`. -/
abbrev Prog (σ ε α : Type) := StateT σ (Except ε) α

variable {σ ε α β : Type}

/-- The outcome satisfies `Q` if it is a return and `E` if it is an error. -/
def Meets (r : Except ε (α × σ)) (Q : α → σ → Prop) (E : ε → Prop) : Prop :=
  match r with
  | .ok (a, t) => Q a t
  | .error e => E e

variable {Q Q' : α → σ → Prop} {R : β → σ → Prop} {E E' : ε → Prop} {r : Except ε (α × σ)} {s : σ}

@[simp] theorem meets_ok (a : α) (t : σ) : Meets (ε := ε) (.ok (a, t)) Q E ↔ Q a t := Iff.rfl

@[simp] theorem meets_error (e : ε) : Meets (.error e) Q E ↔ E e := Iff.rfl

@[simp] theorem meets_pure (a : α) : Meets ((pure a : Prog σ ε α) s) Q E ↔ Q a s := Iff.rfl

@[simp] theorem meets_throw (e : ε) : Meets ((throw e : Prog σ ε α) s) Q E ↔ E e := Iff.rfl

theorem Meets.mono (h : Meets r Q E) (hQ : ∀ a t, Q a t → Q' a t) (hE : ∀ e, E e → E' e) : Meets r Q' E' := by
  match r, h with
  | .ok (a, t), h => exact hQ a t h
  | .error e, h => exact hE e h

/-- **Sequencing.**  What follows starts from whatever the first program may return. -/
theorem Meets.bind {f : Prog σ ε α} {g : α → Prog σ ε β} (hf : Meets (f s) Q E)
    (hg : ∀ a t, Q a t → Meets (g a t) R E') (hE : ∀ e, E e → E' e) : Meets ((f >>= g) s) R E' := by
  show Meets (Except.bind (f s) fun p => g p.1 p.2) R E'
  match hr : f s, hf with
  | .ok (a, t), hf => exact hg a t hf
  | .error e, hf => exact hE e hf

/-- A step whose outcome is known is executed. -/
theorem bind_of_ok {f : Prog σ ε α} {g : α → Prog σ ε β} {a : α} {t : σ} (h : f s = .ok (a, t)) :
    (f >>= g) s = g a t := by
  show Except.bind (f s) (fun p => g p.1 p.2) = g a t
  rw [h]
  rfl

theorem bind_of_error {f : Prog σ ε α} {g : α → Prog σ ε β} {e : ε} (h : f s = .error e) : (f >>= g) s = .error e := by
  show Except.bind (f s) (fun p => g p.1 p.2) = .error e
  rw [h]
  rfl

theorem Meets.and (h : Meets r Q E) (h' : Meets r Q' E') :
    Meets r (fun a t => Q a t ∧ Q' a t) (fun e => E e ∧ E' e) := by
  match r, h, h' with
  | .ok (a, t), h, h' => exact ⟨h, h'⟩
  | .error e, h, h' => exact ⟨h, h'⟩

/-- When no error is possible, the program returns. -/
theorem Meets.returns (h : Meets r Q E) (hE : ∀ e, ¬ E e) : ∃ a t, r = .ok (a, t) ∧ Q a t := by
  match r, h with
  | .ok (a, t), h => exact ⟨a, t, rfl, h⟩
  | .error e, h => exact absurd h (hE e)

theorem Meets.of_ok {a : α} {t : σ} (h : Meets r Q E) (hr : r = .ok (a, t)) : Q a t := by
  rw [hr] at h
  exact h

theorem Meets.of_error {e : ε} (h : Meets r Q E) (hr : r = .error e) : E e := by
  rw [hr] at h
  exact h

/-- **The loop rule.**  `I xs` is the invariant when `xs` is still to be done. -/
theorem Meets.forM {γ : Type} {f : γ → Prog σ ε PUnit} {I : List γ → σ → Prop}
    (hstep : ∀ x xs s, I (x :: xs) s → Meets (f x s) (fun _ t => I xs t) E) :
    ∀ (xs : List γ) (s : σ), I xs s → Meets (xs.forM f s) (fun _ t => I [] t) E
  | [], _, h => h
  | x :: xs, s, h =>
      (hstep x xs s h).bind (fun _ t ht => Meets.forM hstep xs t ht) (fun _ he => he)

/-! ## Return and result apart -/

/-- If the outcome is a return, `Q` holds of it. -/
def Ends (r : Except ε (α × σ)) (Q : α → σ → Prop) : Prop := Meets r Q fun _ => True

/-- What holds if there is no error. -/
theorem Meets.ends (h : Meets r Q E) : Ends r Q := h.mono (fun _ _ hq => hq) fun _ _ => trivial

/-- The outcome is a return. -/
def Returns (r : Except ε (α × σ)) : Prop := ∃ a t, r = .ok (a, t)

section Ends

variable {f : Prog σ ε α} {g : α → Prog σ ε β}

theorem Ends.bind (hf : Ends (f s) Q) (hg : ∀ a t, Q a t → Ends (g a t) R) : Ends ((f >>= g) s) R :=
  Meets.bind hf hg fun _ _ => trivial

theorem Ends.mono (hf : Ends (f s) Q) (h : ∀ a t, Q a t → Q' a t) : Ends (f s) Q' :=
  Meets.mono hf h fun _ _ => trivial

theorem Ends.map {h : α → β} (hf : Ends (f s) fun a t => R (h a) t) : Ends ((h <$> f) s) R := by
  show Ends (Except.map (fun p => (h p.1, p.2)) (f s)) R
  unfold Ends at *
  match hr : f s, hf with
  | .ok (a, t), hf => exact hf
  | .error e, _ => trivial

theorem Ends.get {g : σ → Prog σ ε β} (h : Ends (g s s) R) : Ends ((get >>= g) s) R := h

theorem Ends.modify {u : σ → σ} {g : PUnit → Prog σ ε β} (h : Ends (g ⟨⟩ (u s)) R) : Ends ((modify u >>= g) s) R := h

/-- What follows returns from whatever state, and with whatever result, the first program ends in. -/
theorem Returns.bind (hf : Returns (f s)) (hs : Ends (f s) Q) (hg : ∀ a t, Q a t → Returns (g a t)) :
    Returns ((f >>= g) s) := by
  obtain ⟨a, t, hr⟩ := hf
  rw [bind_of_ok hr]
  exact hg a t (Meets.of_ok hs hr)

end Ends

end Outcome
