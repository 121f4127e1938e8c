/-
  THREADS — code made of atomic actions, its interleavings, and a thread-modular proof rule.

  The code of a call is a tree (`Code`): it ends with a value, or performs an action and goes on with
  the reply.  Everything a thread does to the state it shares with others is an action; what happens
  between two actions is private and takes no time.

  1. **Interleaving** (`Kernel.machine`) — any thread that is idle may enter a call, any thread that is
     in a call may perform its next action; a reply may also be "not now" (`blocked`), or halt the
     whole system.
  2. **One at a time** (`Code.run`) — the same code run to its end, as a program in the sense of
     `Outcome`, so that its rules apply.
  3. **The rule** (`Logic`, `Logic.sound`) — each busy thread gets a GHOST value, its private knowledge.
     An action needs `pre` of the ghost and moves it by `next`; `wp` runs the code on ghosts alone, so
     that a program is verified without looking at the others.  What the ghosts mean is said by one
     invariant over the shared state and all ghosts, and kept by every single action.
  4. **Any replies** (`Only`) — the rule without ghosts, for code of which only its own actions matter.
-/
import Mathlib
import Xv6.Lib.Machine
import Xv6.Lib.Outcome

namespace Threads

open Machines Outcome
open Function (update update_idem update_self update_of_ne)

/-- Code: a value, or an action and what to do with its reply. -/
inductive Code (A : Type) (R : A → Type) (α : Type) : Type
  | ret (x : α)
  | act (a : A) (k : R a → Code A R α)

/-- What the shared state answers to an action. -/
inductive Reply (σ ε ρ : Type)
  | ok (s : σ) (r : ρ)
  | blocked
  | halt (e : ε)

variable {A : Type} {R : A → Type} {α β σ ε π χ ρ : Type}

namespace Code

def bind : Code A R α → (α → Code A R β) → Code A R β
  | .ret x, f => f x
  | .act a k, f => .act a fun r => (k r).bind f

instance : Monad (Code A R) where
  pure := .ret
  bind := .bind

/-- The code that performs one action and returns the reply. -/
def perform (a : A) : Code A R (R a) := .act a .ret

theorem act_bind (a : A) (k : R a → Code A R α) (f : α → Code A R β) : (act a k >>= f) = act a fun r => k r >>= f := rfl

theorem bind_ret (c : Code A R α) : c >>= ret = c := by
  induction c with
  | ret x => rfl
  | act a k ih =>
    rw [act_bind]
    congr 1
    funext r
    exact ih r

theorem bind_assoc {γ : Type} (c : Code A R α) (f : α → Code A R β) (g : β → Code A R γ) :
    c >>= f >>= g = c >>= fun x => f x >>= g := by
  induction c with
  | ret x => rfl
  | act a k ih =>
    rw [act_bind, act_bind, act_bind]
    congr 1
    funext r
    exact ih r

/-- The code of a thread that has got this far: none, if there is nothing left to do. -/
def rest : Code A R α → Option (Code A R α)
  | .ret _ => none
  | .act a k => some (.act a k)

/-- Run the code to its end, with nobody else around.  The error `none` is an action that blocks. -/
def run (exec : σ → (a : A) → Reply σ ε (R a)) : Code A R α → Prog σ (Option ε) α
  | .ret x, s => .ok (x, s)
  | .act a k, s =>
    match exec s a with
    | .ok t r => run exec (k r) t
    | .blocked => .error none
    | .halt e => .error (some e)

variable {exec : σ → (a : A) → Reply σ ε (R a)}

theorem run_bind (c : Code A R α) (f : α → Code A R β) :
    run exec (c >>= f) = run exec c >>= fun x => run exec (f x) := by
  induction c with
  | ret x => rfl
  | act a k ih =>
    funext s
    show run exec (act a fun r => k r >>= f) s = Except.bind (run exec (act a k) s) _
    simp only [run]
    cases exec s a with
    | ok t r => exact congrFun (ih r) t
    | blocked => rfl
    | halt e => rfl

end Code

/-- A system of threads `π`: the actions, the calls `χ` with their code, and who may enter one. -/
structure Kernel (σ π A : Type) (R : A → Type) (ε χ ρ : Type) where
  exec : σ → π → (a : A) → Reply σ ε (R a)
  code : χ → Code A R ρ
  mayCall : σ → π → Bool
  init : σ → Prop

/-- The shared state, the code each thread still has to run (`none`: it is in no call), and why the
    system has halted, if it has.  A call is over as soon as its last action is done. -/
structure State (σ π A : Type) (R : A → Type) (ε ρ : Type) where
  shared : σ
  thr : π → Option (Code A R ρ)
  halted : Option ε

/-- Enter a call; perform the next action of a thread. -/
inductive Label (π χ : Type)
  | call (p : π) (c : χ)
  | step (p : π)

variable {S : State σ π A R ε ρ}

section Interleaving

variable [DecidableEq π]

def State.setThr (S : State σ π A R ε ρ) (p : π) (c : Option (Code A R ρ)) : State σ π A R ε ρ :=
  { S with thr := update S.thr p c }

variable (K : Kernel σ π A R ε χ ρ)

def Kernel.step (S : State σ π A R ε ρ) (l : Label π χ) : Option (State σ π A R ε ρ) :=
  match S.halted with
  | some _ => none
  | none =>
    match l with
    | .call p c =>
      match S.thr p with
      | some _ => none
      | none => if K.mayCall S.shared p then some (S.setThr p (K.code c).rest) else none
    | .step p =>
      match S.thr p with
      | none => none
      | some (.ret _) => none
      | some (.act a k) =>
        match K.exec S.shared p a with
        | .ok s r => some (State.setThr { S with shared := s } p (k r).rest)
        | .blocked => none
        | .halt e => some { S with halted := some e }

/-- The system under any interleaving. -/
def Kernel.machine : Machine (State σ π A R ε ρ) (Label π χ) where
  init := fun S => K.init S.shared ∧ (∀ p, S.thr p = none) ∧ S.halted = none
  step := K.step

/-- Everything a step can do. -/
inductive Kernel.Step (S : State σ π A R ε ρ) : Label π χ → State σ π A R ε ρ → Prop
  | call {p : π} {c : χ} : S.thr p = none → K.mayCall S.shared p = true →
      Step S (.call p c) (S.setThr p (K.code c).rest)
  | act {p : π} {a : A} {k : R a → Code A R ρ} {s : σ} {r : R a} :
      S.thr p = some (.act a k) → K.exec S.shared p a = .ok s r →
      Step S (.step p) (State.setThr { S with shared := s } p (k r).rest)
  | halt {p : π} {a : A} {k : R a → Code A R ρ} {e : ε} :
      S.thr p = some (.act a k) → K.exec S.shared p a = .halt e →
      Step S (.step p) { S with halted := some e }

variable {K}

theorem Kernel.step_cases {T : State σ π A R ε ρ} {l : Label π χ}
    (h : K.machine.step S l = some T) : S.halted = none ∧ K.Step S l T := by
  replace h : K.step S l = some T := h
  unfold Kernel.step at h
  cases hh : S.halted with
  | some e => rw [hh] at h; cases h
  | none =>
    rw [hh] at h
    refine ⟨rfl, ?_⟩
    cases l with
    | call p c =>
      cases ht : S.thr p with
      | some c' => simp only [ht] at h; cases h
      | none =>
        simp only [ht, Option.ite_none_right_eq_some] at h
        obtain ⟨hm, rfl⟩ : K.mayCall S.shared p = true ∧ S.setThr p (K.code c).rest = T := by
          simpa using h
        exact .call ht hm
    | step p =>
      cases ht : S.thr p with
      | none => simp only [ht] at h; cases h
      | some c =>
        cases c with
        | ret x => simp only [ht] at h; cases h
        | act a k =>
          cases he : K.exec S.shared p a with
          | ok s r =>
            simp only [ht, he, Option.some.injEq] at h
            have hact : K.Step S (.step p) _ := .act ht he
            rw [hh] at hact
            exact h ▸ hact
          | blocked => simp only [ht, he] at h; cases h
          | halt e =>
            simp only [ht, he, Option.some.injEq] at h
            exact h ▸ .halt ht he

end Interleaving

/-! ## The thread-modular rule -/

variable {K : Kernel σ π A R ε χ ρ} {f : α → Code A R β} {C : State σ π A R ε ρ → Label π χ → Prop}

section Rule

/-- Ghost values `Γ` for busy threads: what they mean together, what an action needs and does, and
    what has to be true of the ghost when a call ends. -/
structure Logic (K : Kernel σ π A R ε χ ρ) (Γ : Type) where
  inv : σ → (π → Option Γ) → Prop
  pre : A → Γ → Prop
  next : (a : A) → Γ → R a → Γ → Prop
  final : Γ → Prop

variable {Γ : Type}

/-- The code, started with this ghost, only performs actions whose `pre` it meets, and ends in `Q`. -/
def wp (pre : A → Γ → Prop) (next : (a : A) → Γ → R a → Γ → Prop) :
    Code A R α → (α → Γ → Prop) → Γ → Prop
  | .ret x, Q, g => Q x g
  | .act a k, Q, g => pre a g ∧ ∀ r g', next a g r g' → wp pre next (k r) Q g'

variable {pre : A → Γ → Prop} {next : (a : A) → Γ → R a → Γ → Prop}

theorem wp_mono {c : Code A R α} {Q Q' : α → Γ → Prop} {g : Γ} (h : wp pre next c Q g)
    (hQ : ∀ x g, Q x g → Q' x g) : wp pre next c Q' g := by
  induction c generalizing g with
  | ret x => exact hQ x g h
  | act a k ih => exact ⟨h.1, fun r g' hr => ih r (h.2 r g' hr)⟩

/-- **Sequencing.** -/
theorem wp_bind {c : Code A R α} {Q : α → Γ → Prop} {Q' : β → Γ → Prop} {g : Γ}
    (hc : wp pre next c Q g) (hf : ∀ x g, Q x g → wp pre next (f x) Q' g) : wp pre next (c >>= f) Q' g := by
  induction c generalizing g with
  | ret x => exact hf x g hc
  | act a k ih => exact ⟨hc.1, fun r g' hr => ih r (hc.2 r g' hr)⟩

/-- A single action. -/
theorem wp_perform {a : A} {f : R a → Code A R β} {Q : β → Γ → Prop} {g : Γ} (hp : pre a g)
    (hk : ∀ r g', next a g r g' → wp pre next (f r) Q g') : wp pre next (Code.perform a >>= f) Q g := ⟨hp, hk⟩

/-- **Change of ghosts.**  Code verified with small ghosts is verified with the ghosts of any rule that
    simulates theirs. -/
theorem wp_sim {Δ : Type} {pre' : A → Δ → Prop} {next' : (a : A) → Δ → R a → Δ → Prop} (rel : Γ → Δ → Prop)
    (hsim : ∀ a g d, rel g d → pre a g → pre' a d ∧ ∀ r d', next' a d r d' → ∃ g', next a g r g' ∧ rel g' d')
    {c : Code A R α} {Q : α → Γ → Prop} {g : Γ} {d : Δ} (hrel : rel g d) (h : wp pre next c Q g) :
    wp pre' next' c (fun x d' => ∃ g', Q x g' ∧ rel g' d') d := by
  induction c generalizing g d with
  | ret x => exact ⟨g, h, hrel⟩
  | act a k ih =>
    obtain ⟨hpre, hnext⟩ := hsim a g d hrel h.1
    refine ⟨hpre, fun r d' hd' => ?_⟩
    obtain ⟨g', hg', hrel'⟩ := hnext r d' hd'
    exact ih r hrel' (h.2 r g' hg')

/-- Thread `p` runs the code from `s` to `t` and gets `x`, while the others perform any actions they
    like in between. -/
inductive Runs (exec : σ → π → (a : A) → Reply σ ε (R a)) (p : π) : Code A R α → σ → α → σ → Prop
  | ret (x : α) (s : σ) : Runs exec p (.ret x) s x s
  | act {a : A} {k : R a → Code A R α} {s t u : σ} {r : R a} {x : α} :
      exec s p a = .ok t r → Runs exec p (k r) t x u → Runs exec p (.act a k) s x u
  | other {q : π} {b : A} {c : Code A R α} {s t u : σ} {r : R b} {x : α} :
      q ≠ p → exec s q b = .ok t r → Runs exec p c t x u → Runs exec p c s x u

section

variable {exec : σ → π → (a : A) → Reply σ ε (R a)} {p : π} {c : Code A R α} {s t : σ} {x : α} {g : Γ}
  {Q : α → Γ → Prop} (rel : σ → Γ → Prop)
  (hown : ∀ s a t r g, rel s g → pre a g → exec s p a = .ok t r → ∃ g', next a g r g' ∧ rel t g')
include hown

/-- Code verified with ghosts that describe a part of the state, run among others that leave this part
    alone. -/
theorem Runs.post (hother : ∀ s q b t r g, q ≠ p → rel s g → exec s q b = .ok t r → rel t g)
    (h : Runs exec p c s x t) (hs : rel s g) (hwp : wp pre next c Q g) : ∃ g', Q x g' ∧ rel t g' := by
  induction h generalizing g with
  | ret x s => exact ⟨g, hwp, hs⟩
  | act he _ ih =>
    obtain ⟨g', hn, ht⟩ := hown _ _ _ _ g hs hwp.1 he
    exact ih ht (hwp.2 _ g' hn)
  | other hq he _ ih => exact ih (hother _ _ _ _ _ g hq hs he) hwp

/-- The same, with nobody else around. -/
theorem wp_run (hs : rel s g) (hwp : wp pre next c Q g)
    (h : c.run (fun s a => exec s p a) s = .ok (x, t)) : ∃ g', Q x g' ∧ rel t g' := by
  induction c generalizing s g with
  | ret y =>
    cases h
    exact ⟨g, hwp, hs⟩
  | act a k ih =>
    simp only [Code.run] at h
    cases he : exec s p a with
    | ok u r =>
      rw [he] at h
      obtain ⟨g', hn, hu⟩ := hown s a u r g hs hwp.1 he
      exact ih r hu (hwp.2 r g' hn) h
    | blocked | halt e => rw [he] at h; cases h

end

/-! ### Code whose actions may be answered in any way

  When nothing is known about the replies, no ghost is needed: what is left of the rule is a condition
  on every action the code can perform, and on what it can return. -/

/-- The code performs the actions `as`, getting some reply to each, and has `d` left to run. -/
inductive Does : Code A R α → List A → Code A R α → Prop
  | nil (c : Code A R α) : Does c [] c
  | act {a : A} {k : R a → Code A R α} {as : List A} {d : Code A R α} (r : R a) :
      Does (k r) as d → Does (.act a k) (a :: as) d

/-- Whatever the replies, every action of the code meets `P` and its result meets `Q`. -/
def Only (P : A → Prop) (c : Code A R α) (Q : α → Prop) : Prop :=
  wp (fun a (_ : Unit) => P a) (fun _ _ _ _ => True) c (fun x _ => Q x) ()

namespace Only

variable {P : A → Prop} {Q : α → Prop} {Q₂ : β → Prop} {c : Code A R α}

@[simp] theorem ret_iff {x : α} : Only P (.ret x : Code A R α) Q ↔ Q x := Iff.rfl

@[simp] theorem pure_iff {x : α} : Only P (pure x : Code A R α) Q ↔ Q x := Iff.rfl

@[simp] theorem act_iff {a : A} {k : R a → Code A R α} : Only P (.act a k) Q ↔ P a ∧ ∀ r, Only P (k r) Q :=
  ⟨fun h => ⟨h.1, fun r => h.2 r () trivial⟩, fun h => ⟨h.1, fun r _ _ => h.2 r⟩⟩

@[simp] theorem perform_iff {a : A} {Q : R a → Prop} : Only P (Code.perform a) Q ↔ P a ∧ ∀ r, Q r := act_iff

@[simp] theorem ite_iff {p : Prop} [Decidable p] {c d : Code A R α} :
    Only P (if p then c else d) Q ↔ (p → Only P c Q) ∧ (¬ p → Only P d Q) := by
  split <;> simp [*]

@[simp] theorem bind_iff : Only P (c >>= f) Q₂ ↔ Only P c fun x => Only P (f x) Q₂ := by
  induction c with
  | ret x => rfl
  | act a k ih =>
    rw [Code.act_bind, act_iff, act_iff]
    simp only [ih]

theorem perform {a : A} {f : R a → Code A R β} (ha : P a) (hf : ∀ r, Only P (f r) Q₂) :
    Only P (Code.perform a >>= f) Q₂ := bind_iff.mpr (perform_iff.mpr ⟨ha, hf⟩)

/-- A result of which nothing is known meets what everything meets. -/
theorem any (h : Only P c fun _ => True) (hQ : ∀ x, Q x) : Only P c Q := by
  induction c with
  | ret x => exact hQ x
  | act a k ih => exact act_iff.mpr ⟨h.1, fun r => ih r (h.2 r () trivial)⟩

/-- The actions performed so far meet `P`, and the code that is left is as good. -/
theorem does {as : List A} {d : Code A R α} (hd : Does c as d) (h : Only P c Q) : (∀ a ∈ as, P a) ∧ Only P d Q := by
  induction hd with
  | nil c => exact ⟨nofun, h⟩
  | act r _ ih =>
    obtain ⟨has, hd⟩ := ih (h.2 r () trivial)
    exact ⟨List.forall_mem_cons.mpr ⟨h.1, has⟩, hd⟩

end Only

namespace Logic

variable {K : Kernel σ π A R ε χ ρ} (L : Logic K Γ)

/-- The ghost of a thread covers the code it still has to run; an idle thread has none. -/
def Follows : Option (Code A R ρ) → Option Γ → Prop
  | none, none => True
  | some (.act a k), some g => wp L.pre L.next (.act a k) (fun _ => L.final) g
  | _, _ => False

/-- The ghosts `G` cover the state `S`. -/
structure Covers (S : State σ π A R ε ρ) (G : π → Option Γ) : Prop where
  inv : L.inv S.shared G
  thr : ∀ p, L.Follows (S.thr p) (G p)

variable {L} in
theorem Follows.of_thr {c : Code A R ρ} {o : Option Γ} (h : L.Follows (some c) o) :
    ∃ g, o = some g ∧ wp L.pre L.next c (fun _ => L.final) g := by
  cases c with
  | ret x => exact h.elim
  | act a k =>
    cases o with
    | none => exact h.elim
    | some g => exact ⟨g, rfl, h⟩

variable {L} in
/-- A thread with a ghost is busy, and may perform its next action. -/
theorem Follows.of_ghost {o : Option (Code A R ρ)} {g : Γ} (h : L.Follows o (some g)) :
    ∃ a k, o = some (.act a k) ∧ L.pre a g := by
  cases o with
  | none => exact h.elim
  | some c =>
    cases c with
    | ret x => exact h.elim
    | act a k => exact ⟨a, k, rfl, h.1⟩

variable [DecidableEq π]

/-- What has to be proved, for runs whose steps meet `C`. -/
structure Sound (C : State σ π A R ε ρ → Label π χ → Prop) : Prop where
  init : ∀ s, K.init s → L.inv s fun _ => none
  call : ∀ S G p c, L.Covers S G → G p = none → K.mayCall S.shared p = true → C S (.call p c) →
    ∃ g, L.inv S.shared (update G p (some g)) ∧
      wp L.pre L.next (K.code c) (fun _ => L.final) g
  act : ∀ S G p a k g s r, L.Covers S G → C S (.step p) → S.thr p = some (.act a k) →
    G p = some g → L.pre a g → K.exec S.shared p a = .ok s r →
    ∃ g', L.next a g r g' ∧ L.inv s (update G p (some g'))
  leave : ∀ s G p g, L.inv s G → G p = some g → L.final g → L.inv s (update G p none)

variable {L}

/-- The thread goes on with the code `c`, or has come to its end. -/
theorem Covers.setThr (hL : L.Sound C) {G : π → Option Γ} (h : L.Covers S G) {p : π} {s : σ}
    {c : Code A R ρ} {g : Γ} (hinv : L.inv s (update G p (some g))) (hc : wp L.pre L.next c (fun _ => L.final) g) :
    ∃ H, L.Covers (State.setThr { S with shared := s } p c.rest) H := by
  have hthr : ∀ (d : Option (Code A R ρ)) (o : Option Γ), L.Follows d o →
      ∀ q, L.Follows (update S.thr p d q) (update G p o q) := by
    intro d o hd q
    rcases eq_or_ne q p with rfl | hq
    · rw [update_self, update_self]
      exact hd
    · rw [update_of_ne hq, update_of_ne hq]
      exact h.thr q
  cases c with
  | ret x =>
    have hleave := hL.leave _ _ p g hinv (update_self p (some g) G) hc
    rw [update_idem] at hleave
    exact ⟨_, hleave, hthr none none trivial⟩
  | act a k => exact ⟨_, hinv, hthr (some (.act a k)) (some g) hc⟩

/-- **The rule.**  Every reachable state is covered by some ghosts. -/
theorem sound (hL : L.Sound C) (h : K.machine.Reachable C S) : ∃ G, L.Covers S G := by
  refine Machine.invariant (I := fun S => ∃ G, L.Covers S G) ?_ ?_ h
  · rintro S ⟨hinit, hthr, -⟩
    refine ⟨fun _ => none, hL.init _ hinit, fun p => ?_⟩
    rw [hthr p]
    trivial
  · rintro S l T ⟨G, hG⟩ hC hstep
    obtain ⟨-, hstep⟩ := Kernel.step_cases hstep
    cases hstep with
    | @call p c ht hm =>
      have hp : G p = none := by
        have hf := hG.thr p
        rw [ht] at hf
        cases hg : G p with
        | none => rfl
        | some g => rw [hg] at hf; exact hf.elim
      obtain ⟨g, hinv, hwp⟩ := hL.call S G p c hG hp hm hC
      exact hG.setThr hL hinv hwp
    | @act p a k s r ht he =>
      have hf := hG.thr p
      rw [ht] at hf
      obtain ⟨g, hg, hpre, hk⟩ := hf.of_thr
      obtain ⟨g', hn, hinv⟩ := hL.act S G p a k g s r hG hC ht hg hpre he
      exact hG.setThr hL hinv (hk r g' hn)
    | @halt p a k e ht he => exact ⟨G, hG.inv, hG.thr⟩

end Logic

end Rule

end Threads
