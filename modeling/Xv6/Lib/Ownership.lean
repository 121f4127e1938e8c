/-
  EXCLUSIVE OWNERSHIP of numbered resources.

  Slots (an index type `ι`) hold resources (`0` means that the slot is empty).  A set `used` records
  which resources are taken.  `Exclusive area own used` is the discipline an allocator is there to
  keep: whatever a slot holds lies in the area under management, no resource is held twice, and
  the taken ones are exactly those that some slot holds.  NOTHING IS SHARED AND NOTHING IS LOST.

  * `Exclusive.take` — a free resource is taken and stored in an empty slot;
  * `Exclusive.give` — a slot is emptied and its resource becomes free.
-/
import Mathlib

namespace Ownership

variable {ι : Type}

structure Exclusive (area : Nat → Prop) (own : ι → Nat) (used : Nat → Prop) : Prop where
  inArea : ∀ k, own k ≠ 0 → area (own k)
  inj : ∀ k l, own k ≠ 0 → own k = own l → k = l
  exact : ∀ b, area b → (used b ↔ ∃ k, own k = b)
  proper : ¬ area 0

variable {area : Nat → Prop} {own own' : ι → Nat} {used used' : Nat → Prop} {k : ι} {b : Nat}

namespace Exclusive

section

variable (h : Exclusive area own used)

include h

theorem used_own (hk : own k ≠ 0) : used (own k) :=
  (h.exact _ (h.inArea k hk)).mpr ⟨k, rfl⟩

/-- A free resource is in no slot. -/
theorem fresh (hb : area b) (hfree : ¬ used b) (k : ι) : own k ≠ b :=
  fun hk => hfree ((h.exact b hb).mpr ⟨k, hk⟩)

theorem congr (ho : ∀ k, own' k = own k) (hu : ∀ b, area b → (used' b ↔ used b)) : Exclusive area own' used' where
  inArea := fun k hk => by rw [ho k] at hk ⊢; exact h.inArea k hk
  inj := fun k l hk hkl => by rw [ho k] at hk hkl; rw [ho l] at hkl; exact h.inj k l hk hkl
  exact := fun b hb => by
    rw [hu b hb, h.exact b hb]
    simp only [ho]
  proper := h.proper

/-- **Take** a free resource and store it in an empty slot. -/
theorem take [DecidableEq ι] (hb : area b) (hfree : ¬ used b) (hk : own k = 0)
    (ho : ∀ l, own' l = if l = k then b else own l)
    (hu : ∀ c, area c → (used' c ↔ c = b ∨ used c)) : Exclusive area own' used' where
  inArea := fun l hl => by
    rw [ho l] at hl ⊢
    split at hl
    · rename_i e; rw [if_pos e]; exact hb
    · rename_i e; rw [if_neg e]; exact h.inArea l hl
  inj := fun l m hl hlm => by
    have hfresh := h.fresh hb hfree
    rw [ho l] at hl hlm
    rw [ho m] at hlm
    by_cases el : l = k <;> by_cases em : m = k
    · rw [el, em]
    · rw [if_pos el, if_neg em] at hlm
      exact absurd hlm.symm (hfresh m)
    · rw [if_neg el, if_pos em] at hlm
      exact absurd hlm (hfresh l)
    · rw [if_neg el] at hl hlm
      rw [if_neg em] at hlm
      exact h.inj l m hl hlm
  exact := fun c hc => by
    rw [hu c hc, h.exact c hc]
    constructor
    · rintro (rfl | ⟨l, rfl⟩)
      · exact ⟨k, by rw [ho k, if_pos rfl]⟩
      · refine ⟨l, ?_⟩
        rw [ho l, if_neg]
        -- the empty slot holds nothing of the area
        rintro rfl
        rw [hk] at hc
        exact h.proper hc
    · rintro ⟨l, rfl⟩
      rw [ho l]
      split
      · exact Or.inl rfl
      · exact Or.inr ⟨l, rfl⟩
  proper := h.proper

/-- **Give back** what a slot holds. -/
theorem give [DecidableEq ι] (hk : own k ≠ 0) (ho : ∀ l, own' l = if l = k then 0 else own l)
    (hu : ∀ c, area c → (used' c ↔ c ≠ own k ∧ used c)) : Exclusive area own' used' where
  inArea := fun l hl => by
    rw [ho l] at hl ⊢
    split at hl
    · exact absurd rfl hl
    · rename_i e; rw [if_neg e]; exact h.inArea l hl
  inj := fun l m hl hlm => by
    rw [ho l] at hl hlm
    rw [ho m] at hlm
    split at hl
    · exact absurd rfl hl
    · rename_i el
      rw [if_neg el] at hlm
      split at hlm
      · exact absurd hlm hl
      · exact h.inj l m hl hlm
  exact := fun c hc => by
    rw [hu c hc, h.exact c hc]
    constructor
    · rintro ⟨hne, l, rfl⟩
      refine ⟨l, ?_⟩
      rw [ho l, if_neg]
      rintro rfl
      exact hne rfl
    · rintro ⟨l, hl⟩
      rw [ho l] at hl
      split at hl
      · rw [← hl] at hc; exact absurd hc h.proper
      · rename_i e
        subst hl
        refine ⟨fun hlk => e ?_, l, rfl⟩
        exact h.inj l k (by rw [hlk]; exact hk) hlk
  proper := h.proper

end

end Exclusive

end Ownership
