/-
  RING BUFFERS with free-running counters.

  `N` cells, and two counters of `w` bits that only ever count up and wrap around: `nwrite` values have
  been put in, `nread` taken out.  A value lives in cell `counter % N`, which is well defined across the
  wrap because `N` divides `2 ^ w`.

  The meaning of a ring is the LIST of what it holds (`contents`).  As long as it holds at most `N`
  values, "full" and "empty", which the code decides by comparing counters, say what they
  should (`full_iff`, `empty_iff`), putting a value in appends it (`contents_push`), and taking one out
  takes the head (`contents_pop`).
-/
import Mathlib

namespace Rings

/-- `N` cells and two counters. -/
structure Ring (w N : Nat) (α : Type) where
  data : Nat → α
  nread : BitVec w
  nwrite : BitVec w

namespace Ring

variable {w N : Nat} {α : Type} (r : Ring w N α)

/-- How many values the ring holds. -/
def count : Nat := (r.nwrite - r.nread).toNat

/-- What the ring holds, oldest first. -/
def contents : List α := (List.range r.count).map fun i => r.data ((r.nread.toNat + i) % N)

def isFull : Bool := r.nwrite == r.nread + BitVec.ofNat w N

def isEmpty : Bool := r.nread == r.nwrite

def push (x : α) : Ring w N α :=
  { r with data := Function.update r.data (r.nwrite.toNat % N) x, nwrite := r.nwrite + 1 }

/-- The next value to be taken out. -/
def front : α := r.data (r.nread.toNat % N)

def pop : Ring w N α := { r with nread := r.nread + 1 }

variable {r}

/-- Where the write counter is, seen from the read counter. -/
theorem nwrite_toNat : r.nwrite.toNat = (r.nread.toNat + r.count) % 2 ^ w := by
  have hr := r.nread.isLt
  have hw := r.nwrite.isLt
  rw [count, BitVec.toNat_sub]
  rcases Nat.lt_or_ge r.nwrite.toNat r.nread.toNat with h | h
  · rw [Nat.mod_eq_of_lt (show 2 ^ w - r.nread.toNat + r.nwrite.toNat < 2 ^ w by omega),
      show r.nread.toNat + (2 ^ w - r.nread.toNat + r.nwrite.toNat) = r.nwrite.toNat + 2 ^ w by omega,
      Nat.add_mod_right, Nat.mod_eq_of_lt hw]
  · rw [show 2 ^ w - r.nread.toNat + r.nwrite.toNat = r.nwrite.toNat - r.nread.toNat + 2 ^ w by omega,
      Nat.add_mod_right, Nat.mod_eq_of_lt (show r.nwrite.toNat - r.nread.toNat < 2 ^ w by omega),
      show r.nread.toNat + (r.nwrite.toNat - r.nread.toNat) = r.nwrite.toNat by omega, Nat.mod_eq_of_lt hw]

/-- Counters that are `k` apart hold `k` values. -/
theorem count_eq {k : Nat} (hk : k < 2 ^ w) (h : r.nwrite.toNat = (r.nread.toNat + k) % 2 ^ w) : r.count = k := by
  have hr := r.nread.isLt
  rw [count, BitVec.toNat_sub, h]
  rcases Nat.lt_or_ge (r.nread.toNat + k) (2 ^ w) with hlt | hge
  · rw [Nat.mod_eq_of_lt hlt, show 2 ^ w - r.nread.toNat + (r.nread.toNat + k) = k + 2 ^ w by omega,
      Nat.add_mod_right, Nat.mod_eq_of_lt hk]
  · have hmod : (r.nread.toNat + k) % 2 ^ w = r.nread.toNat + k - 2 ^ w := by
      rw [Nat.mod_eq_sub_mod hge, Nat.mod_eq_of_lt (by omega)]
    rw [hmod, show 2 ^ w - r.nread.toNat + (r.nread.toNat + k - 2 ^ w) = k by omega, Nat.mod_eq_of_lt hk]

/-! ## Full and empty -/

theorem empty_iff : r.isEmpty = true ↔ r.count = 0 := by
  rw [isEmpty, beq_iff_eq]
  constructor
  · intro h
    exact count_eq (Nat.two_pow_pos w) (by rw [h, add_zero, Nat.mod_eq_of_lt r.nwrite.isLt])
  · intro h
    apply BitVec.eq_of_toNat_eq
    rw [nwrite_toNat, h, add_zero, Nat.mod_eq_of_lt r.nread.isLt]

theorem full_iff (hlt : N < 2 ^ w) : r.isFull = true ↔ r.count = N := by
  have hsum : (r.nread + BitVec.ofNat w N).toNat = (r.nread.toNat + N) % 2 ^ w := by
    rw [BitVec.toNat_add, BitVec.toNat_ofNat, Nat.add_mod_mod]
  rw [isFull, beq_iff_eq]
  constructor
  · intro h
    exact count_eq hlt (by rw [h, hsum])
  · intro h
    apply BitVec.eq_of_toNat_eq
    rw [nwrite_toNat, h, hsum]

theorem contents_of_empty (h : r.count = 0) : r.contents = [] := by
  rw [contents, h]
  rfl

/-! ## In and out -/

/-- Cells at different distances from a counter are different. -/
theorem cell_ne {a i k : Nat} (hi : i < N) (hk : k < N) (hne : i ≠ k) : (a + i) % N ≠ (a + k) % N := by
  intro he
  have hmod : Nat.ModEq N i k := Nat.ModEq.add_left_cancel' a he
  exact hne (hmod.eq_of_lt_of_lt hi hk)

theorem length_contents : r.contents.length = r.count := by
  rw [contents, List.length_map, List.length_range]

section

variable (hdvd : N ∣ 2 ^ w) (hlt : N < 2 ^ w)
include hlt

theorem count_push (hb : r.count < N) (x : α) : (r.push x).count = r.count + 1 := by
  refine count_eq (by omega) ?_
  show (r.nwrite + 1).toNat = _
  rw [BitVec.toNat_add, nwrite_toNat]
  show ((r.nread.toNat + r.count) % 2 ^ w + 1 % 2 ^ w) % 2 ^ w = _
  rw [← Nat.add_mod]
  rfl

include hdvd

/-- **Putting a value in appends it.** -/
theorem contents_push (hb : r.count < N) (x : α) : (r.push x).contents = r.contents ++ [x] := by
  have hcell : r.nwrite.toNat % N = (r.nread.toNat + r.count) % N := by
    rw [nwrite_toNat, Nat.mod_mod_of_dvd _ hdvd]
  -- no value already there is in the cell that is overwritten
  have hother : ∀ i ∈ List.range r.count, (r.push x).data ((r.nread.toNat + i) % N) =
      r.data ((r.nread.toNat + i) % N) := by
    intro i hi
    rw [List.mem_range] at hi
    refine Function.update_of_ne ?_ _ _
    rw [hcell]
    exact cell_ne (by omega) hb (by omega)
  have hnew : (r.push x).data ((r.nread.toNat + r.count) % N) = x := by
    show Function.update r.data (r.nwrite.toNat % N) x _ = x
    rw [hcell, Function.update_self]
  rw [contents, count_push hlt hb, List.range_succ, List.map_append, List.map_singleton]
  show (List.range r.count).map (fun i => (r.push x).data ((r.nread.toNat + i) % N)) ++
    [(r.push x).data ((r.nread.toNat + r.count) % N)] = _
  rw [List.map_congr_left hother, hnew]
  rfl

omit hdvd hlt

theorem count_pop (hne : r.count ≠ 0) : r.pop.count = r.count - 1 := by
  have hc : r.count < 2 ^ w := (r.nwrite - r.nread).isLt
  refine count_eq (by omega) ?_
  show r.nwrite.toNat = ((r.nread + 1).toNat + (r.count - 1)) % 2 ^ w
  rw [nwrite_toNat, BitVec.toNat_add]
  show _ = ((r.nread.toNat + 1 % 2 ^ w) % 2 ^ w + (r.count - 1)) % 2 ^ w
  rw [Nat.add_mod_mod, Nat.mod_add_mod]
  congr 1
  omega

include hdvd

/-- **Taking a value out takes the head.** -/
theorem contents_pop (hne : r.count ≠ 0) : r.contents = r.front :: r.pop.contents := by
  have hcell : ∀ i, (r.pop.nread.toNat + i) % N = (r.nread.toNat + (i + 1)) % N := by
    intro i
    show ((r.nread + 1).toNat + i) % N = _
    rw [BitVec.toNat_add, Nat.add_mod, Nat.mod_mod_of_dvd _ hdvd, ← Nat.add_mod]
    show (r.nread.toNat + 1 % 2 ^ w + i) % N = _
    rw [show r.nread.toNat + 1 % 2 ^ w + i = r.nread.toNat + i + 1 % 2 ^ w by omega, Nat.add_mod,
      Nat.mod_mod_of_dvd _ hdvd, ← Nat.add_mod]
    rfl
  obtain ⟨k, hk⟩ : ∃ k, r.count = k + 1 := Nat.exists_eq_succ_of_ne_zero hne
  rw [contents, contents, count_pop hne, hk, List.range_succ_eq_map, List.map_cons, List.map_map]
  simp only [hcell]
  rfl

end

/-! ## Three counters -/

theorem contents_congr {s : Ring w N α} (hr : s.nread = r.nread) (hw : s.nwrite = r.nwrite)
    (hd : ∀ i < r.count, s.data ((r.nread.toNat + i) % N) = r.data ((r.nread.toNat + i) % N)) :
    s.contents = r.contents := by
  have hcount : s.count = r.count := by rw [count, count, hr, hw]
  rw [contents, contents, hcount, hr]
  exact List.map_congr_left fun i hi => hd i (List.mem_range.mp hi)

/-- A counter between the two divides what the ring holds. -/
theorem contents_split (hdvd : N ∣ 2 ^ w) {d : Nat → α} {a m b : BitVec w} (h : (m - a).toNat ≤ (b - a).toNat) :
    contents (⟨d, a, b⟩ : Ring w N α) =
      contents (⟨d, a, m⟩ : Ring w N α) ++ contents (⟨d, m, b⟩ : Ring w N α) := by
  have hm : m.toNat = (a.toNat + (m - a).toNat) % 2 ^ w := nwrite_toNat (r := (⟨d, a, m⟩ : Ring w N α))
  have hrest : (b - m).toNat = (b - a).toNat - (m - a).toNat := by
    rw [show b - m = b - a - (m - a) by
      rw [BitVec.sub_sub, BitVec.add_comm, BitVec.sub_add_cancel], BitVec.toNat_sub_of_le (BitVec.le_def.mpr h)]
  have hcell : ∀ i, (m.toNat + i) % N = (a.toNat + ((m - a).toNat + i)) % N := by
    intro i
    rw [hm, Nat.add_mod, Nat.mod_mod_of_dvd _ hdvd, ← Nat.add_mod, Nat.add_assoc]
  have hsum : (b - a).toNat = (m - a).toNat + (b - m).toNat := by omega
  simp only [contents, count, hsum, List.range_add, List.map_append, List.map_map, hcell]
  rfl

end Ring

end Rings
