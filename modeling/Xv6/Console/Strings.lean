/-
  THE CONSOLE'S STRINGS — what the loops of `console.c` over arrays of `char` do to the strings in them.

  `cstring` is the string that an array holds.  One lemma per loop: `copyString` and the inner loop of `save_command` give
  the row the string of the other (`cstring_copyString`, `cstring_shiftString`; the latter only if there is something to
  copy, since the end is stored with the last character), and `search` looks for the commands that begin with a string
  (`begins_iff`, `search_of_only`).
-/
import Mathlib
import Xv6.Console.Keys

namespace Xv6.Console

open Function (update update_self update_of_ne)

/-- The string in an array. -/
def cstring (a : Chars) : List UInt8 := (List.range (strlen a)).map a

variable {a b dst src : Chars} {n : Nat}

/-! ## `strlen` -/

theorem strlen_le (a : Chars) : strlen a ≤ INPUT_BUF := by
  unfold strlen
  cases h : (List.range INPUT_BUF).find? fun i => decide (a i = 0) with
  | none => exact le_refl _
  | some i => exact (List.mem_range.mp (List.mem_of_find?_eq_some h)).le

theorem strlen_ne_zero {i : Nat} (hi : i < strlen a) : a i ≠ 0 := by
  unfold strlen at hi
  cases h : (List.range INPUT_BUF).find? fun i => decide (a i = 0) with
  | none =>
    rw [h] at hi
    have hall := List.find?_eq_none.mp h i (List.mem_range.mpr hi)
    simpa using hall
  | some n =>
    rw [h] at hi
    have hbefore := (List.find?_range_eq_some.mp h).2.2 i hi
    simpa using hbefore

theorem strlen_end (h : strlen a < INPUT_BUF) : a (strlen a) = 0 := by
  unfold strlen at h ⊢
  cases hfind : (List.range INPUT_BUF).find? fun i => decide (a i = 0) with
  | none =>
    rw [hfind] at h
    exact absurd h (Nat.lt_irrefl _)
  | some n =>
    have hzero := List.find?_some hfind
    simpa using hzero

theorem strlen_eq (hn : n ≤ INPUT_BUF) (hne : ∀ i < n, a i ≠ 0) (hend : n < INPUT_BUF → a n = 0) : strlen a = n := by
  rcases Nat.lt_trichotomy (strlen a) n with hlt | heq | hgt
  · exact absurd (strlen_end (hlt.trans_le hn)) (hne _ hlt)
  · exact heq
  · exact absurd (hend (hgt.trans_le (strlen_le a))) (strlen_ne_zero hgt)

/-- What an array holds whose first `n` chars are those of `b`. -/
theorem cstring_eq (hn : n ≤ INPUT_BUF) (hab : ∀ i < n, a i = b i) (hne : ∀ i < n, b i ≠ 0)
    (hend : n < INPUT_BUF → a n = 0) : cstring a = (List.range n).map b := by
  have hlen : strlen a = n := strlen_eq hn (fun i hi => by rw [hab i hi]; exact hne i hi) hend
  rw [cstring, hlen]
  exact List.map_congr_left fun i hi => hab i (List.mem_range.mp hi)

/-- The string ends at the first NUL. -/
theorem cstring_takeWhile (hn : n < INPUT_BUF) (hend : a n = 0) :
    cstring a = ((List.range n).map a).takeWhile (· ≠ 0) := by
  have hle : strlen a ≤ n := by
    by_contra hlt
    exact strlen_ne_zero (Nat.lt_of_not_le hlt) hend
  obtain ⟨d, rfl⟩ := Nat.exists_eq_add_of_le hle
  have hbefore : ∀ b ∈ (List.range (strlen a)).map a, decide (b ≠ 0) = true := by
    intro b hb
    obtain ⟨i, hi, rfl⟩ := List.mem_map.mp hb
    exact decide_eq_true (strlen_ne_zero (List.mem_range.mp hi))
  rw [List.range_add, List.map_append, List.takeWhile_append_of_pos hbefore, cstring]
  cases d with
  | zero => simp
  | succ d =>
    have hzero : a (strlen a) = 0 := strlen_end (by omega)
    rw [List.range_succ_eq_map]
    simp [hzero]

@[simp] theorem length_cstring (a : Chars) : (cstring a).length = strlen a := by
  rw [cstring, List.length_map, List.length_range]

/-! ## The loops -/

/-- `d[i] = f(i)` for all `i < n` -/
theorem foldl_update (f : Nat → UInt8) (d : Chars) (n j : Nat) :
    (List.range n).foldl (fun d i => update d i (f i)) d j = if j < n then f j else d j := by
  induction n with
  | zero => simp
  | succ n ih =>
    rw [List.range_succ, List.foldl_append, List.foldl_cons, List.foldl_nil]
    rcases Nat.lt_trichotomy j n with hlt | rfl | hgt
    · rw [update_of_ne hlt.ne, ih, if_pos hlt, if_pos (by omega)]
    · rw [update_self, if_pos (Nat.lt_succ_self j)]
    · rw [update_of_ne hgt.ne', ih, if_neg (by omega), if_neg (by omega)]

theorem cstring_copyString (dst src : Chars) : cstring (copyString dst src) = cstring src := by
  refine cstring_eq (strlen_le src) (fun i hi => ?_) (fun i hi => strlen_ne_zero hi) fun _ => ?_
  · rw [copyString, update_of_ne hi.ne, foldl_update, if_pos hi]
  · rw [copyString, update_self]

/-- An empty string is not copied. -/
theorem shiftString_empty (h : strlen src = 0) : shiftString dst src = dst := by
  rw [shiftString, h]
  rfl

/-- As far as before its last character, the loop only copies. -/
theorem shiftString_copies (dst src : Chars) {m : Nat} (hm : m < strlen src) : (List.range m).foldl (fun d j =>
      let d' := update d j (src j)
      if j = strlen src - 1 then update d' (j + 1) 0 else d') dst =
    (List.range m).foldl (fun d i => update d i (src i)) dst := by
  refine List.foldl_ext _ _ _ fun d j hj => if_neg ?_
  have := List.mem_range.mp hj
  omega

theorem cstring_shiftString (dst : Chars) (h : strlen src ≠ 0) : cstring (shiftString dst src) = cstring src := by
  obtain ⟨m, hm⟩ := Nat.exists_eq_succ_of_ne_zero h
  have hcopy : shiftString dst src = update (update
      ((List.range m).foldl (fun d i => update d i (src i)) dst) m (src m)) (m + 1) 0 := by
    rw [← shiftString_copies dst src (m := m) (by omega), shiftString]
    conv_lhs => rw [hm, List.range_succ, List.foldl_append, List.foldl_cons, List.foldl_nil]
    simp only [hm, Nat.succ_eq_add_one, Nat.add_sub_cancel, if_true]
  refine cstring_eq (strlen_le src) (fun i hi => ?_) (fun i hi => strlen_ne_zero hi) fun _ => ?_
  · rw [hcopy, update_of_ne (by omega)]
    rcases Nat.lt_or_ge i m with hlt | hge
    · rw [update_of_ne hlt.ne, foldl_update, if_pos hlt]
    · rw [show i = m by omega, update_self]
  · rw [hcopy, hm, update_self]

/-! ## `search` -/

theorem begins_iff (result command : Chars) : begins result command = true ↔ cstring result <+: cstring command := by
  simp only [begins, List.all_eq_true, List.mem_range, Bool.and_eq_true, decide_eq_true_eq, List.prefix_iff_getElem,
    length_cstring]
  constructor
  · intro h
    have hle : strlen result ≤ strlen command := by
      by_contra hlt
      have := (h (strlen command) (by omega)).1
      omega
    refine ⟨hle, fun i hi => ?_⟩
    simp only [cstring, List.getElem_map, List.getElem_range]
    exact (h i hi).2
  · rintro ⟨hle, h⟩ j hj
    have heq := h j hj
    simp only [cstring, List.getElem_map, List.getElem_range] at heq
    exact ⟨by omega, heq⟩

/-- What is to be completed once the first `n` rows have been looked at. -/
def searchRows (history : Nat → Chars) (result : Chars) (n : Nat) : Chars :=
  (List.range n).foldl (fun res i => if begins res (history i) then copyString res (history i) else res) result

variable (history : Nat → Chars) (result : Chars)

theorem search_eq : search history result = searchRows history result 15 := rfl

theorem searchRows_succ (n : Nat) : searchRows history result (n + 1) =
    if begins (searchRows history result n) (history n) then copyString (searchRows history result n) (history n)
    else searchRows history result n := by
  rw [searchRows, List.range_succ, List.foldl_append]
  rfl

/-- Row `k` is the last that has replaced the text, which it extends. -/
def LastHit (n k : Nat) : Prop :=
  k < n ∧ cstring (searchRows history result n) = cstring (history k) ∧
    cstring result <+: cstring (searchRows history result n) ∧
    ∀ i, k < i → i < n → ¬ cstring (searchRows history result n) <+: cstring (history i)

theorem searchRows_cases (n : Nat) :
    (searchRows history result n = result ∧ ∀ i < n, ¬ cstring result <+: cstring (history i)) ∨
      ∃ k, LastHit history result n k := by
  induction n with
  | zero => exact .inl ⟨rfl, fun i hi => absurd hi (Nat.not_lt_zero i)⟩
  | succ n ih =>
    have hsplit : ∀ {i}, i < n + 1 → i < n ∨ i = n := fun hi => Nat.lt_succ_iff_lt_or_eq.mp hi
    by_cases hb : begins (searchRows history result n) (history n) = true
    · -- the text so far is a prefix of this row, and what was typed is a prefix of the text so far
      have hpre := (begins_iff _ _).mp hb
      have htyped : cstring result <+: cstring (searchRows history result n) := by
        rcases ih with ⟨hres, -⟩ | ⟨k, hk⟩
        · rw [hres]
        · exact hk.2.2.1
      refine .inr ⟨n, Nat.lt_succ_self n, ?_, ?_, fun i hn hi => absurd hi (by omega)⟩
      · rw [searchRows_succ, if_pos hb, cstring_copyString]
      · rw [searchRows_succ, if_pos hb, cstring_copyString]
        exact htyped.trans hpre
    · have hsame : searchRows history result (n + 1) = searchRows history result n := by
        rw [searchRows_succ, if_neg hb]
      have hno := fun h => hb ((begins_iff _ _).mpr h)
      rcases ih with ⟨hres, hall⟩ | ⟨k, hk, heq, htyped, hlater⟩
      · refine .inl ⟨hsame.trans hres, fun i hi => ?_⟩
        rcases hsplit hi with hlt | rfl
        · exact hall i hlt
        · rwa [hres] at hno
      · rw [← hsame] at heq htyped hlater hno
        refine .inr ⟨k, by omega, heq, htyped, fun i hki hi => ?_⟩
        rcases hsplit hi with hlt | rfl
        · exact hlater i hki hlt
        · exact hno

/-- The indices at which `search` reads and writes the arrays: `strlen` goes as far as the end of a string, and the
    loops as far as `strlen`. -/
def searchIndices : List Nat :=
  (List.range 15).flatMap fun i => List.range (strlen (searchRows history result i) + 1) ++
    List.range (strlen (history i) + 1)

/-- If no saved command goes on after what is to be completed, it stays as it is. -/
theorem search_of_only (h : ∀ i < 15, cstring result <+: cstring (history i) → cstring (history i) = cstring result) :
    cstring (search history result) = cstring result := by
  rcases searchRows_cases history result 15 with ⟨hres, -⟩ | ⟨k, hk, heq, htyped, -⟩
  · exact congrArg cstring hres
  · exact heq.trans (h k hk (heq ▸ htyped))

theorem strlen_searchRows_lt (hrows : ∀ i < 15, strlen (history i) < INPUT_BUF) (hresult : strlen result < INPUT_BUF)
    {n : Nat} (hn : n ≤ 15) : strlen (searchRows history result n) < INPUT_BUF := by
  rcases searchRows_cases history result n with ⟨hres, -⟩ | ⟨k, hk, heq, -, -⟩
  · rwa [hres]
  · rw [← length_cstring, heq, length_cstring]
    exact hrows k (hk.trans_le hn)

/-- What is typed is only ever extended to a saved command, and the last one that extends it. -/
theorem search_extends (hrows : ∀ i < 15, strlen (history i) < INPUT_BUF) (hresult : strlen result < INPUT_BUF) :
    ((∀ i < 15, ¬ cstring result <+: cstring (history i)) → search history result = result) ∧
    ((∃ i < 15, cstring result <+: cstring (history i)) →
      ∃ k < 15, cstring (search history result) = cstring (history k) ∧
        cstring result <+: cstring (search history result) ∧
        ∀ i, k < i → i < 15 → cstring (search history result) <+: cstring (history i) →
          cstring (history i) = cstring (search history result)) ∧
    ∀ i ∈ searchIndices history result, i < INPUT_BUF := by
  refine ⟨fun hnone => ?_, fun ⟨i, hi, hpre⟩ => ?_, fun j hj => ?_⟩
  · rcases searchRows_cases history result 15 with ⟨hres, -⟩ | ⟨k, hk, heq, htyped, -⟩
    · exact hres
    · exact absurd (heq ▸ htyped) (hnone k hk)
  · rcases searchRows_cases history result 15 with ⟨-, hnone⟩ | ⟨k, hk, heq, htyped, hlater⟩
    · exact absurd hpre (hnone i hi)
    · exact ⟨k, hk, heq, htyped, fun i hki hi hext => absurd hext (hlater i hki hi)⟩
  · simp only [searchIndices, List.mem_flatMap, List.mem_append, List.mem_range] at hj
    obtain ⟨i, hi, hlt | hlt⟩ := hj
    · have := strlen_searchRows_lt history result hrows hresult hi.le
      omega
    · have := hrows i hi
      omega

/-- `l` is typed, and `ls` is saved. -/
theorem search_extends_ls : let row (s : List UInt8) : Chars := fun i => s.getD i 0
    let history : Nat → Chars := fun i => if i = 1 then row [108, 115] else row []
    ∃ k < 15, cstring (search history (row [108])) = cstring (history k) := by
  intro row history
  have hrows : ∀ i < 15, strlen (history i) < INPUT_BUF := by decide
  obtain ⟨k, hk, heq, -⟩ := (search_extends history (row [108]) hrows (by decide)).2.1 ⟨1, by decide, by decide⟩
  exact ⟨k, hk, heq⟩

end Xv6.Console
