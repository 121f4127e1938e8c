/-
  `memmove`, TWICE — in the kernel (`string.c`) and for user programs (`ulib.c`).

  The kernel's copies from the end if the destination begins inside of the source, and is right for every overlap
  (`memmove_moved`).  The other one only copies from the beginning, and its length is an `int`.  The two leave the
  same memory exactly if source and destination are the same, or the destination does not begin inside of the source
  and the length is not negative as an `int` (`memmove_agrees`).

  One lemma per loop: what it leaves, in terms of the memory before (`forward_eq`, `backward_eq`).
-/
import Mathlib

namespace Xv6.Memmove

open Function (update update_self update_of_ne)

abbrev Addr := BitVec 32

abbrev Memory := Addr → UInt8

/-- `while(n-- > 0) *d++ = *s++` -/
def forward (m : Memory) (d s : Addr) : Nat → Memory
  | 0 => m
  | n + 1 => forward (update m d (m s)) (d + 1) (s + 1) n

/-- `while(n-- > 0) *--d = *--s` -/
def backward (m : Memory) (d s : Addr) : Nat → Memory
  | 0 => m
  | n + 1 => backward (update m (d - 1) (m (s - 1))) (d - 1) (s - 1) n

/-- `memmove` of `string.c` -/
def memmove (m : Memory) (dst src : Addr) (n : BitVec 32) : Memory :=
  if src < dst ∧ src + n > dst then backward m (dst + n) (src + n) n.toNat else forward m dst src n.toNat

/-- `memmove` of `ulib.c`: `n` is an `int`. -/
def userMemmove (m : Memory) (dst src : Addr) (n : BitVec 32) : Memory := forward m dst src n.toInt.toNat

/-- The memory once `n` bytes have been moved. -/
def moved (m : Memory) (dst src : Addr) (n : Nat) : Memory := fun a =>
  if dst.toNat ≤ a.toNat ∧ a.toNat < dst.toNat + n then m (src + (a - dst)) else m a

variable {m : Memory} {dst src a : Addr} {n : Nat}

theorem moved_of_mem (h : dst.toNat ≤ a.toNat ∧ a.toNat < dst.toNat + n) : moved m dst src n a = m (src + (a - dst)) :=
  if_pos h

theorem moved_of_not_mem (h : ¬ (dst.toNat ≤ a.toNat ∧ a.toNat < dst.toNat + n)) : moved m dst src n a = m a :=
  if_neg h

/-- Where a byte of the destination comes from. -/
theorem toNat_source (hs : src.toNat + n ≤ 2 ^ 32) (h : dst.toNat ≤ a.toNat ∧ a.toNat < dst.toNat + n) :
    (src + (a - dst)).toNat = src.toNat + (a.toNat - dst.toNat) := by
  bv_omega

theorem forward_eq (hd : dst.toNat + n ≤ 2 ^ 32) (hs : src.toNat + n ≤ 2 ^ 32)
    (hin : ¬ (src.toNat < dst.toNat ∧ dst.toNat < src.toNat + n)) : forward m dst src n = moved m dst src n := by
  induction n generalizing m dst src with
  | zero =>
    funext a
    rw [moved_of_not_mem (by omega)]
    rfl
  | succ n ih =>
    rw [forward, ih (by bv_omega) (by bv_omega) (by bv_omega)]
    funext a
    by_cases had : a = dst
    · -- stored first, and not stored again
      subst had
      rw [moved_of_not_mem (by bv_omega), update_self, moved_of_mem (by omega), BitVec.sub_self, BitVec.add_zero]
    by_cases ha : dst.toNat ≤ a.toNat ∧ a.toNat < dst.toNat + (n + 1)
    · have hfrom := toNat_source hs ha
      rw [moved_of_mem ha, moved_of_mem (by bv_omega), show src + 1 + (a - (dst + 1)) = src + (a - dst) by bv_omega]
      -- the destination has not been read yet
      exact update_of_ne (by bv_omega) _ _
    · rw [moved_of_not_mem ha, moved_of_not_mem (by bv_omega), update_of_ne had]

theorem backward_eq (hd : dst.toNat + n ≤ 2 ^ 32) (hs : src.toNat + n ≤ 2 ^ 32) (hlt : src.toNat < dst.toNat) :
    backward m (dst + BitVec.ofNat 32 n) (src + BitVec.ofNat 32 n) n = moved m dst src n := by
  induction n generalizing m with
  | zero =>
    funext a
    rw [moved_of_not_mem (by omega)]
    rfl
  | succ n ih =>
    have hpred : ∀ x : Addr, x + BitVec.ofNat 32 (n + 1) - 1 = x + BitVec.ofNat 32 n := fun x => by bv_omega
    rw [backward, hpred, hpred, ih (by omega) (by omega)]
    funext a
    by_cases had : a = dst + BitVec.ofNat 32 n
    · subst had
      rw [moved_of_not_mem (by bv_omega), update_self, moved_of_mem (by bv_omega)]
      exact congrArg m (by bv_omega)
    by_cases ha : dst.toNat ≤ a.toNat ∧ a.toNat < dst.toNat + (n + 1)
    · have hfrom := toNat_source hs ha
      rw [moved_of_mem ha, moved_of_mem (by bv_omega)]
      exact update_of_ne (by bv_omega) _ _
    · rw [moved_of_not_mem ha, moved_of_not_mem (by omega), update_of_ne had]

variable {n : BitVec 32}

/-- The kernel's `memmove` is right for every overlap. -/
theorem memmove_moved (hd : dst.toNat + n.toNat ≤ 2 ^ 32) (hs : src.toNat + n.toNat ≤ 2 ^ 32) :
    memmove m dst src n = moved m dst src n.toNat := by
  unfold memmove
  split
  · rename_i h
    have := backward_eq (m := m) hd hs h.1
    rwa [BitVec.ofNat_toNat, BitVec.setWidth_eq] at this
  · exact forward_eq hd hs (by bv_omega)

/-- A byte below the destination is never stored to. -/
theorem forward_below {n : Nat} (hd : dst.toNat + n ≤ 2 ^ 32) (ha : a.toNat < dst.toNat) :
    forward m dst src n a = m a := by
  induction n generalizing m dst src with
  | zero => rfl
  | succ n ih =>
    by_cases hn : n = 0
    · subst hn
      exact update_of_ne (by bv_omega) _ _
    · rw [forward, ih (by bv_omega) (by bv_omega), update_of_ne (by bv_omega)]

theorem forward_first {n : Nat} (hd : dst.toNat + n ≤ 2 ^ 32) (hn : 0 < n) :
    forward m dst src n dst = m src := by
  obtain ⟨n, rfl⟩ : ∃ k, n = k + 1 := ⟨n - 1, by omega⟩
  by_cases hn : n = 0
  · subst hn
    exact update_self _ _ _
  · rw [forward, forward_below (by bv_omega) (by bv_omega), update_self]

theorem forward_add {p q : Nat} : forward m dst src (p + q) =
    forward (forward m dst src p) (dst + BitVec.ofNat 32 p) (src + BitVec.ofNat 32 p) q := by
  induction p generalizing m dst src with
  | zero => simp [forward]
  | succ p ih =>
    have hnext : ∀ x : Addr, x + 1 + BitVec.ofNat 32 p = x + BitVec.ofNat 32 (p + 1) := by
      intro x
      bv_omega
    rw [show p + 1 + q = (p + q) + 1 by omega, forward, ih, forward, hnext, hnext]

/-- With the destination inside of the source, the first byte is stored over one that is still to be read,
    and comes out a second time. -/
theorem forward_twice {n : Nat} (hd : dst.toNat + n ≤ 2 ^ 32) (hlt : src.toNat < dst.toNat)
    (hin : dst.toNat < src.toNat + n) : forward m dst src n (dst + (dst - src)) = m src := by
  obtain ⟨k, hk⟩ : ∃ k, dst.toNat = src.toNat + k := ⟨dst.toNat - src.toNat, by omega⟩
  have hsrc : src + BitVec.ofNat 32 k = dst := by bv_omega
  have hdst : dst + (dst - src) = dst + BitVec.ofNat 32 k := by bv_omega
  obtain ⟨q, rfl⟩ : ∃ q, n = k + q := ⟨n - k, by omega⟩
  rw [forward_add, hdst, hsrc, forward_first (by bv_omega) (by omega), forward_first (by omega) (by omega)]

theorem moved_same {n : Nat} : moved m dst dst n = m := by
  funext a
  unfold moved
  split
  · exact congrArg m (by bv_omega)
  · rfl

/-- The bytes at the destination are those that were at the source, and the others are as before. -/
theorem memmove_spec (hd : dst.toNat + n.toNat ≤ 2 ^ 32) (hs : src.toNat + n.toNat ≤ 2 ^ 32) :
    (∀ i < n.toNat, memmove m dst src n (dst + BitVec.ofNat 32 i) = m (src + BitVec.ofNat 32 i)) ∧
      ∀ a, (∀ i < n.toNat, a ≠ dst + BitVec.ofNat 32 i) → memmove m dst src n a = m a := by
  rw [memmove_moved hd hs]
  constructor
  · intro i hi
    rw [moved_of_mem (by bv_omega)]
    exact congrArg m (by bv_omega)
  · intro a ha
    exact moved_of_not_mem fun hmem => ha (a.toNat - dst.toNat) (by omega) (by bv_omega)

/-- When the two agree on every memory: nothing has to move, or nothing is overwritten before it is read and the
    length is not negative as an `int`. -/
theorem userMemmove_eq_iff (hd : dst.toNat + n.toNat ≤ 2 ^ 32) (hs : src.toNat + n.toNat ≤ 2 ^ 32) :
    (∀ m, userMemmove m dst src n = memmove m dst src n) ↔
      dst = src ∨ (¬ (src.toNat < dst.toNat ∧ dst.toNat < src.toNat + n.toNat) ∧ n.toNat < 2 ^ 31) := by
  have hint : n.toNat < 2 ^ 31 → n.toInt.toNat = n.toNat := by
    intro hn
    rw [BitVec.toInt_eq_toNat_of_lt (by omega), Int.toNat_natCast]
  constructor
  · intro hall
    by_contra hnot
    simp only [not_or] at hnot
    -- the one byte 1 in the memory is the first of the source
    have hm := congrFun (hall (update (fun _ => 0) src 1))
    simp only [memmove_moved hd hs, userMemmove] at hm
    by_cases hn : n.toNat < 2 ^ 31
    · obtain ⟨hlt, hin⟩ := not_not.1 fun h => hnot.2 ⟨h, hn⟩
      have htwice := hm (dst + (dst - src))
      rw [hint hn, forward_twice hd hlt hin, moved_of_mem (by bv_omega), update_self,
        update_of_ne (by bv_omega)] at htwice
      exact absurd htwice (by decide)
    · have hneg : n.toInt.toNat = 0 := by
        have := BitVec.toInt_eq_toNat_cond n
        split at this <;> omega
      have hfirst := hm dst
      rw [hneg, forward, moved_of_mem (by omega), BitVec.sub_self, BitVec.add_zero, update_self,
        update_of_ne hnot.1] at hfirst
      exact absurd hfirst (by decide)
  · rintro (rfl | ⟨hin, hn⟩) m
    · have hle : n.toInt.toNat ≤ n.toNat := by
        have := BitVec.toInt_eq_toNat_cond n
        split at this <;> omega
      rw [memmove_moved hd hs, userMemmove, forward_eq (by omega) (by omega) (by omega), moved_same, moved_same]
    · rw [memmove_moved hd hs, userMemmove, hint hn, forward_eq hd hs hin]

/-- The bytes at the destination are those that were at the source, and the others are as before; and the `memmove` of
    user programs does the same to every memory if and only if source and destination are the same, or it neither
    overwrites what it has yet to read nor takes the length for negative. -/
theorem memmove_agrees (hd : dst.toNat + n.toNat ≤ 2 ^ 32) (hs : src.toNat + n.toNat ≤ 2 ^ 32) :
    (∀ m, userMemmove m dst src n = memmove m dst src n ∧
        (∀ i < n.toNat, memmove m dst src n (dst + BitVec.ofNat 32 i) = m (src + BitVec.ofNat 32 i)) ∧
        ∀ a, (∀ i < n.toNat, a ≠ dst + BitVec.ofNat 32 i) → memmove m dst src n a = m a) ↔
      dst = src ∨ (¬ (src.toNat < dst.toNat ∧ dst.toNat < src.toNat + n.toNat) ∧ n.toNat < 2 ^ 31) := by
  rw [← userMemmove_eq_iff hd hs]
  exact ⟨fun h m => (h m).1, fun h m => ⟨h m, memmove_spec hd hs⟩⟩

/-- Three bytes are moved down by one. -/
theorem memmove_agrees_down : userMemmove (fun a => if a = 2 then 7 else 0) 0 1 3 1 = 7 := by
  rw [((memmove_agrees (by decide) (by decide)).2 (by decide) _).1]
  decide

/-- Two bytes are moved up by one. -/
theorem memmove_differs : memmove (fun a => if a = 1 then 7 else 0) 1 0 2 2 = 7 ∧
    userMemmove (fun a => if a = 1 then 7 else 0) 1 0 2 2 = 0 := by
  decide

end Xv6.Memmove
