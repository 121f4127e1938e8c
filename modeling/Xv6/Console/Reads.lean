/-
  READING THE CONSOLE — one `consoleread` after the other, whatever their sizes.

  A call takes bytes until it has as many as it was asked for, or a newline.  `^D` ends it too: without a byte in hand the
  call takes the `^D` and returns 0, otherwise it puts the `^D` back (`input.r--`) for the next call.  A call that finds the
  ring empty before that has to wait (`none`).

  1. **`readStream`** — the same on a list of bytes.  `consoleread_unread`: a call does to the unread bytes what
     `readStream` does.
  2. **`readStream_spec`** — by the recursion of the call, over what it has in hand.
  3. **`reads_cut`** — a sequence of calls: the results are the stream, cut up.
-/
import Mathlib
import Xv6.Console.Buffer

namespace Xv6.Console

open Naps Rings

namespace Input

/-- A call of `consoleread`, alone. -/
def consoleread (s : Input) (n : Int) : Option (Input × Result) :=
  console.alone (n.toNat + 1) (console.enter (.consoleread n)) s

/-- One call after the other. -/
def reads : List Int → Input → Option (Input × List Result)
  | [], s => some (s, [])
  | n :: ns, s =>
    match s.consoleread n with
    | none => none
    | some (t, v) => (reads ns t).map fun x => (x.1, v :: x.2)

end Input

/-- Reading from a list of bytes, with `dst` in hand. -/
def readStream : Nat → List UInt8 → List UInt8 → Option (List UInt8 × List UInt8)
  | 0, dst, bs => some (dst, bs)
  | _ + 1, _, [] => none
  | n + 1, dst, b :: bs =>
    if b = C 'D' then (if dst = [] then some ([], bs) else some (dst, b :: bs))
    else if b = newline then some (dst ++ [b], bs)
    else readStream n (dst ++ [b]) bs

/-! ## A call reads the unread bytes -/

variable {s : Input}

theorem unread_nil (h : s.r = s.w) : s.unread = [] := by
  rw [← List.length_eq_zero_iff, Input.unread, Ring.length_contents, h]
  show (s.w - s.w).toNat = 0
  rw [BitVec.sub_self]
  rfl

/-- The loop, with `dst` in hand. -/
theorem alone_read (n fuel : Nat) (hfuel : n < fuel) (target : Int) (dst : List UInt8)
    (hdst : (dst.length : Int) + n = target) (s : Input) :
    (console.alone fuel (.read target n dst) s).map (fun x => (x.1.unread, x.2)) =
      (readStream n dst s.unread).map fun x => (x.2, Result.read x.1.length x.1) := by
  induction n generalizing fuel dst s with
  | zero =>
    obtain ⟨fuel, rfl⟩ : ∃ m, fuel = m + 1 := ⟨fuel - 1, by omega⟩
    have hret : target - ((0 : Nat) : Int) = dst.length := by omega
    simp only [Code.alone, console, readTurn]
    rw [if_neg (by omega)]
    simp only [readStream, Option.map_some, hret]
  | succ n ih =>
    obtain ⟨fuel, rfl⟩ : ∃ m, fuel = m + 1 := ⟨fuel - 1, by omega⟩
    simp only [Code.alone, console, readTurn]
    rw [if_pos (by omega)]
    by_cases hempty : s.r = s.w
    · rw [if_pos hempty, unread_nil hempty]
      rfl
    rw [if_neg hempty, Input.unread_read hempty, readStream]
    generalize hb : s.byteAt s.r = b
    by_cases hD : b = C 'D'
    · rw [if_pos hD, if_pos hD]
      -- the `^D` is put back if something is in hand
      by_cases hnil : dst = []
      · have hall : ¬ ((n + 1 : Nat) : Int) < target := by
          rw [hnil] at hdst
          simp only [List.length_nil] at hdst
          omega
        have hret : target - ((n + 1 : Nat) : Int) = 0 := by
          rw [hnil] at hdst
          simp only [List.length_nil] at hdst
          omega
        rw [if_neg hall, if_pos hnil]
        simp only [Option.map_some, hret, hnil, List.length_nil, Int.natCast_zero]
      · have hlen := List.length_pos_iff.mpr hnil
        have hret : target - ((n + 1 : Nat) : Int) = dst.length := by omega
        rw [if_pos (by omega), if_neg hnil]
        simp only [Option.map_some, hret, Input.unread_read hempty, hb]
    · rw [if_neg hD, if_neg hD]
      have hcount : ((n + 1 : Nat) : Int) - 1 = (n : Int) := by omega
      by_cases hnl : b = newline
      · have hret : target - (((n + 1 : Nat) : Int) - 1) = (dst ++ [b]).length := by
          rw [List.length_append, List.length_singleton]
          omega
        rw [if_pos hnl, if_pos hnl]
        simp only [Option.map_some, hret]
      · rw [if_neg hnl, if_neg hnl]
        simp only [hcount]
        refine ih fuel (by omega) (dst ++ [b]) ?_ _
        rw [List.length_append, List.length_singleton]
        omega

/-- **A call reads the unread bytes as a list is read**, and returns how many it has copied. -/
theorem consoleread_unread (s : Input) (n : Nat) : (s.consoleread n).map (fun x => (x.1.unread, x.2)) =
    (readStream n [] s.unread).map fun x => (x.2, Result.read x.1.length x.1) :=
  alone_read n (n + 1) (Nat.lt_succ_self n) n [] (by simp) s

/-! ## What a call takes -/

/-- What a result has taken from the stream. -/
def taken (r : List UInt8) : List UInt8 := if r = [] then [C 'D'] else r

variable {r : List UInt8}

theorem taken_of_ne (h : r ≠ []) : taken r = r := if_neg h

/-- A result holds no `^D`, and a newline only at its end. -/
structure Cut (r : List UInt8) : Prop where
  eof : C 'D' ∉ r
  newline : newline ∉ r.dropLast

theorem Cut.filter_taken (h : Cut r) : (taken r).filter (· ≠ C 'D') = r := by
  by_cases hr : r = []
  · rw [hr]
    decide
  · rw [taken_of_ne hr, List.filter_eq_self]
    intro b hb
    exact decide_eq_true fun heq => h.eof (heq ▸ hb)

theorem Cut.count_taken (h : Cut r) : (taken r).count (C 'D') = [r].count [] := by
  by_cases hr : r = []
  · rw [hr]
    decide
  · rw [taken_of_ne hr, List.count_eq_zero.mpr h.eof, List.count_singleton, if_neg (by simpa using hr)]

theorem readStream_spec (n : Nat) (dst bs r rest : List UInt8) (hn : 0 < n ∨ dst ≠ []) (heof : C 'D' ∉ dst)
    (hnl : newline ∉ dst) (h : readStream n dst bs = some (r, rest)) :
    dst ++ bs = taken r ++ rest ∧ Cut r ∧ r.length ≤ dst.length + n := by
  induction n generalizing dst bs with
  | zero =>
    obtain ⟨rfl, rfl⟩ : dst = r ∧ bs = rest := by simpa [readStream] using h
    refine ⟨?_, ⟨heof, fun hmem => hnl (List.mem_of_mem_dropLast hmem)⟩, Nat.le_refl _⟩
    rw [taken_of_ne (hn.resolve_left (Nat.lt_irrefl 0))]
  | succ n ih =>
    cases bs with
    | nil => cases h
    | cons b bs =>
      rw [readStream] at h
      split at h
      · rename_i hb
        split at h
        · rename_i hnil
          cases h
          rw [hnil, hb]
          exact ⟨rfl, ⟨List.not_mem_nil, List.not_mem_nil⟩, Nat.zero_le _⟩
        · rename_i hne
          cases h
          refine ⟨?_, ⟨heof, fun hmem => hnl (List.mem_of_mem_dropLast hmem)⟩, Nat.le_add_right _ _⟩
          rw [taken_of_ne hne]
      rename_i hb
      have heof' : C 'D' ∉ dst ++ [b] := by
        rw [List.mem_append, List.mem_singleton]
        exact not_or.mpr ⟨heof, fun heq => hb heq.symm⟩
      have hne : dst ++ [b] ≠ [] := List.append_ne_nil_of_right_ne_nil _ (List.cons_ne_nil _ _)
      split at h
      · cases h
        refine ⟨?_, ⟨heof', ?_⟩, ?_⟩
        · rw [taken_of_ne hne, List.append_assoc, List.singleton_append]
        · rw [List.dropLast_concat]
          exact hnl
        · rw [List.length_append, List.length_singleton]
          omega
      · rename_i hb'
        have hnl' : newline ∉ dst ++ [b] := by
          rw [List.mem_append, List.mem_singleton]
          exact not_or.mpr ⟨hnl, fun heq => hb' heq.symm⟩
        obtain ⟨hcut, hr, hlen⟩ := ih (dst ++ [b]) bs (.inr hne) heof' hnl' h
        refine ⟨?_, hr, ?_⟩
        · rw [← hcut, List.append_assoc, List.singleton_append]
        · rw [List.length_append, List.length_singleton] at hlen
          omega

/-- A call has to wait if it finds less than it was asked for, and nothing that ends it. -/
theorem readStream_none (n : Nat) (dst bs : List UInt8) :
    readStream n dst bs = none ↔ bs.length < n ∧ C 'D' ∉ bs ∧ newline ∉ bs := by
  induction n generalizing dst bs with
  | zero => simp [readStream]
  | succ n ih =>
    cases bs with
    | nil => simp [readStream]
    | cons b bs =>
      rw [readStream, List.mem_cons, List.mem_cons, List.length_cons]
      split
      · rename_i hb
        refine ⟨fun h => ?_, fun h => absurd (.inl hb.symm) h.2.1⟩
        split at h <;> cases h
      · rename_i hb
        split
        · rename_i hb'
          exact ⟨fun h => absurd h (Option.some_ne_none _), fun h => absurd (.inl hb'.symm) h.2.2⟩
        · rename_i hb'
          rw [ih, Nat.add_lt_add_iff_right, not_or, not_or]
          exact ⟨fun h => ⟨h.1, ⟨fun heq => hb heq.symm, h.2.1⟩, fun heq => hb' heq.symm, h.2.2⟩,
            fun h => ⟨h.1, h.2.1.2, h.2.2.2⟩⟩

theorem consoleread_spec {t : Input} {n : Int} (hn : 0 < n) {v : Result} (h : s.consoleread n = some (t, v)) :
    ∃ r, v = .read r.length r ∧ s.unread = taken r ++ t.unread ∧ Cut r ∧ (r.length : Int) ≤ n := by
  obtain ⟨n, rfl⟩ := Int.eq_ofNat_of_zero_le hn.le
  have hread := consoleread_unread s n
  rw [h] at hread
  rcases hstream : readStream n [] s.unread with _ | ⟨r, rest⟩
  · rw [hstream] at hread
    cases hread
  · rw [hstream] at hread
    obtain ⟨hrest, hv⟩ : t.unread = rest ∧ v = .read r.length r := by simpa using hread
    obtain ⟨hcut, hr, hlen⟩ := readStream_spec n [] s.unread r rest (.inl (by omega)) List.not_mem_nil
      List.not_mem_nil hstream
    refine ⟨r, hv, ?_, hr, ?_⟩
    · rw [hrest, ← hcut, List.nil_append]
    · rw [List.length_nil, Nat.zero_add] at hlen
      omega

theorem consoleread_none {n : Int} (hn : 0 < n) :
    s.consoleread n = none ↔ (s.unread.length : Int) < n ∧ C 'D' ∉ s.unread ∧ newline ∉ s.unread := by
  obtain ⟨n, rfl⟩ := Int.eq_ofNat_of_zero_le hn.le
  have hread := consoleread_unread s n
  have hnone := readStream_none n [] s.unread
  rw [← Option.map_eq_none_iff, hread, Option.map_eq_none_iff, hnone, Int.ofNat_lt]

/-! ## A sequence of calls -/

/-- The stream is what the results have taken, and what is left. -/
theorem reads_spec (ns : List Int) (hns : ∀ n ∈ ns, 0 < n) (s t : Input) (vs : List Result)
    (h : Input.reads ns s = some (t, vs)) : ∃ rs : List (List UInt8), vs = rs.map (fun r => .read r.length r) ∧
      List.Forall₂ (fun n r => (r.length : Int) ≤ n) ns rs ∧ s.unread = (rs.map taken).flatten ++ t.unread ∧
      ∀ r ∈ rs, Cut r := by
  induction ns generalizing s vs with
  | nil =>
    cases h
    exact ⟨[], rfl, .nil, rfl, fun r hr => absurd hr List.not_mem_nil⟩
  | cons n ns ih =>
    rw [Input.reads] at h
    rcases hread : s.consoleread n with _ | ⟨u, v⟩
    · rw [hread] at h
      cases h
    rw [hread] at h
    obtain ⟨⟨t', vs'⟩, hrest, hx⟩ := Option.map_eq_some_iff.mp h
    cases hx
    obtain ⟨r, rfl, hcut, hr, hlen⟩ := consoleread_spec (hns n (List.mem_cons_self ..)) hread
    obtain ⟨rs, rfl, hlens, hcuts, hrs⟩ := ih (fun m hm => hns m (List.mem_cons_of_mem _ hm)) u vs' hrest
    refine ⟨r :: rs, rfl, .cons hlen hlens, ?_, ?_⟩
    · rw [hcut, hcuts, List.map_cons, List.flatten_cons, List.append_assoc]
    · intro q hq
      rcases List.mem_cons.mp hq with rfl | hq
      · exact hr
      · exact hrs q hq

theorem filter_results {rs : List (List UInt8)} (h : ∀ r ∈ rs, Cut r) :
    ((rs.map taken).flatten).filter (· ≠ C 'D') = rs.flatten ∧
    ((rs.map taken).flatten).count (C 'D') = rs.count [] := by
  induction rs with
  | nil => exact ⟨rfl, rfl⟩
  | cons r rs ih =>
    have hr := h r (List.mem_cons_self ..)
    obtain ⟨hfilter, hcount⟩ := ih fun q hq => h q (List.mem_cons_of_mem _ hq)
    constructor
    · rw [List.map_cons, List.flatten_cons, List.filter_append, hr.filter_taken, hfilter, List.flatten_cons]
    · rw [List.map_cons, List.flatten_cons, List.count_append, hr.count_taken, hcount, ← List.count_append,
        List.singleton_append]

/-- **Reads do not depend on their sizes.**  For whatever is unread and any calls with positive sizes that return, the
    bytes returned, followed by those that are left, are the stream without its `^D`s; there are as many results of
    length 0 as `^D`s have been taken; no result holds a `^D`, or a newline other than as its last byte, and each has
    been taken from the stream in one piece.  A call has to wait only if what is left is less than its size and holds
    neither a newline nor a `^D`. -/
theorem reads_cut (s : Input) (ns : List Int) (hns : ∀ n ∈ ns, 0 < n) :
    (∀ t vs, Input.reads ns s = some (t, vs) → ∃ rs : List (List UInt8), vs = rs.map (fun r => .read r.length r) ∧
      List.Forall₂ (fun n r => (r.length : Int) ≤ n) ns rs ∧
      rs.flatten ++ t.unread.filter (· ≠ C 'D') = s.unread.filter (· ≠ C 'D') ∧
      rs.count [] + t.unread.count (C 'D') = s.unread.count (C 'D') ∧
      s.unread = (rs.map taken).flatten ++ t.unread ∧
      ∀ r ∈ rs, C 'D' ∉ r ∧ newline ∉ r.dropLast) ∧
    ∀ n : Int, 0 < n → (s.consoleread n = none ↔
      (s.unread.length : Int) < n ∧ C 'D' ∉ s.unread ∧ newline ∉ s.unread) := by
  refine ⟨fun t vs h => ?_, fun n hn => consoleread_none hn⟩
  obtain ⟨rs, hvs, hlens, hcut, hrs⟩ := reads_spec ns hns s t vs h
  obtain ⟨hfilter, hcount⟩ := filter_results hrs
  refine ⟨rs, hvs, hlens, ?_, ?_, hcut, fun r hr => ⟨(hrs r hr).eof, (hrs r hr).newline⟩⟩
  · rw [hcut, List.filter_append, hfilter]
  · rw [hcut, List.count_append, hcount]

/-- `a`, `b`, `^D` and a newline are unread. -/
def fourUnread : Input :=
  ⟨fun i => [97, 98, C 'D', newline].getD i 0, 0, 4, 4, fun _ _ => 0, fun _ => 0, [], []⟩

theorem reads_cut_four : ∃ t vs, Input.reads [1, 5, 5, 5] fourUnread = some (t, vs) ∧
    ∃ rs : List (List UInt8), vs = rs.map (fun r => .read r.length r) ∧
      rs.flatten ++ t.unread.filter (· ≠ C 'D') = [97, 98, newline] := by
  have hsome : (Input.reads [1, 5, 5, 5] fourUnread).isSome = true := by decide +kernel
  obtain ⟨⟨t, vs⟩, hreads⟩ := Option.isSome_iff_exists.mp hsome
  obtain ⟨rs, hvs, -, hflat, -⟩ := (reads_cut fourUnread [1, 5, 5, 5] (by decide)).1 t vs hreads
  exact ⟨t, vs, hreads, rs, hvs, hflat⟩

end Xv6.Console
