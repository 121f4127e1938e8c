/-
  COUNTING over a finite table that changes in one place.

  A count of table entries with some property is a sum over the table; a change at entry `i` changes it
  by the difference at `i`, whatever the rest of the table holds.
-/
import Mathlib

namespace Counting

variable {ι : Type}

section

variable {M : Type} [DecidableEq ι] {f g : ι → M} {s : Finset ι} {i : ι}

/-- **One entry changed**, with no subtraction. -/
theorem sum_add_change [AddCommMonoid M] (hi : i ∈ s) (h : ∀ j, j ≠ i → g j = f j) :
    ∑ j ∈ s, g j + f i = ∑ j ∈ s, f j + g i := by
  have hrest : ∑ j ∈ s.erase i, g j = ∑ j ∈ s.erase i, f j :=
    Finset.sum_congr rfl fun j hj => h j (Finset.ne_of_mem_erase hj)
  rw [← Finset.add_sum_erase _ g hi, ← Finset.add_sum_erase _ f hi, hrest]
  abel

variable [AddCommGroup M]

/-- **One entry changed.** -/
theorem sum_change_mem (hi : i ∈ s) (h : ∀ j, j ≠ i → g j = f j) :
    ∑ j ∈ s, g j = (∑ j ∈ s, f j) - f i + g i := by
  rw [sub_add_eq_add_sub, eq_sub_iff_add_eq]
  exact sum_add_change hi h

theorem sum_change [Fintype ι] (i : ι) (h : ∀ j, j ≠ i → g j = f j) :
    ∑ j, g j = (∑ j, f j) - f i + g i :=
  sum_change_mem (Finset.mem_univ i) h

end

variable [Fintype ι] {f : ι → Int}

/-- A sum of counts is not below any one of them. -/
theorem le_sum (h : ∀ j, 0 ≤ f j) (i : ι) : f i ≤ ∑ j, f j :=
  Finset.single_le_sum (fun j _ => h j) (Finset.mem_univ i)

/-- A sum of counts is not below any two of them. -/
theorem add_le_sum [DecidableEq ι] (h : ∀ j, 0 ≤ f j) {i k : ι} (hik : i ≠ k) : f i + f k ≤ ∑ j, f j := by
  have hle : f k ≤ ∑ j ∈ Finset.univ.erase i, f j :=
    Finset.single_le_sum (fun j _ => h j) (Finset.mem_erase.mpr ⟨hik.symm, Finset.mem_univ k⟩)
  rw [← Finset.add_sum_erase _ f (Finset.mem_univ i)]
  omega

end Counting
