/-
  ONE LOCK, AND WHO HOLDS IT.

  A lock is a variable with its holder, or none.  Code holds it between two points, so for every party
  there is a second account: is it AT a point where it holds the lock?  A development needs that the two
  agree, "the holder is at such a point, and nobody else is", and every move of one party keeps that:

  * `Handover p L b L' b'` — what party `p` may do: leave the lock as it is and stay inside or outside,
    take a lock that is free, or give it back;
  * `Handover.excl`        — the agreement is kept.
-/
import Mathlib

namespace Locks

variable {ι : Type} [DecidableEq ι]

/-- A move of party `p`: the lock and whether `p` is inside, before and after. -/
inductive Handover (p : ι) : Option ι → Bool → Option ι → Bool → Prop
  | keep (L : Option ι) (b : Bool) : Handover p L b L b
  | take : Handover p none false (some p) true
  | give (L : Option ι) : Handover p L true none false

/-- If the lock is held by whoever is inside, and by nobody else, then also after a move. -/
theorem Handover.excl {p : ι} {L L' : Option ι} {f : ι → Bool} {b : Bool}
    (hh : Handover p L (f p) L' b) (h : ∀ q, L = some q ↔ f q = true) (q : ι) :
    L' = some q ↔ Function.update f p b q = true := by
  rw [Function.update_apply]
  generalize hf : f p = a at hh
  cases hh with
  | keep =>
    split
    · rename_i hq
      rw [hq, h p, hf]
    · exact h q
  | take =>
    split
    · rename_i hq
      simp [hq]
    · rename_i hq
      have hnone : ¬ f q = true := fun hfq => nomatch (h q).mpr hfq
      simp [hnone, Ne.symm hq]
  | give =>
    have hL : L = some p := (h p).mpr hf
    split
    · simp
    · rename_i hq
      have hnone : ¬ f q = true := fun hfq => hq (Option.some.inj (((h q).mpr hfq).symm.trans hL))
      simp [hnone]

end Locks
