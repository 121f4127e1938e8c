/-
  THE CONSOLE'S RING: what is committed is what is read.

  1. **`Kept`** — a key that moves `e` and stores behind `w` leaves what has been committed, as long as `e` does not go
     further than `INPUT_BUF` from `r`.  The loops: `erase` goes back to `w` or stops at a newline (`eraseLoop_spec`),
     `retype` stores behind `w` (`retype_spec`).
  2. **`Sound`** — the invariant: the indices are in order, and what has been consumed, followed by what is unread, is
     what has been committed.
  3. **`console_ring`** — under which keystrokes it holds (`Tidy`).  `^T`, `^E` and TAB count `e` up without a look at `r`
     (`overrun`), and `^N` and `^R` retype a whole line even if `erase` has stopped in the middle of it.
-/
import Mathlib
import Xv6.Console.Strings

namespace Xv6.Console

open Machines Naps Rings
open Function (update update_self update_of_ne)

namespace Input

variable {s t u : Input}

theorem buf_dvd : INPUT_BUF ∣ 2 ^ 32 := ⟨2 ^ 25, by decide⟩

/-- Counting up, seen from another index. -/
theorem distance_add {a b : BitVec 32} {n : Nat} (h : (a - b).toNat + n ≤ INPUT_BUF) :
    (a + BitVec.ofNat 32 n - b).toNat = (a - b).toNat + n := by
  replace h : (a - b).toNat + n ≤ 128 := h
  bv_omega

/-- From `s` to `t` nothing that was committed has changed, and `e` is where it may be. -/
structure Kept (s t : Input) : Prop where
  r : t.r = s.r
  w : t.w = s.w
  low : (t.w - t.r).toNat ≤ (t.e - t.r).toNat
  high : (t.e - t.r).toNat ≤ INPUT_BUF
  data : ∀ i < (s.w - s.r).toNat, t.buf ((s.r.toNat + i) % INPUT_BUF) = s.buf ((s.r.toNat + i) % INPUT_BUF)
  committed : t.committed = s.committed
  consumed : t.consumed = s.consumed

theorem Kept.unread (h : Kept s t) : t.unread = s.unread :=
  Ring.contents_congr h.r h.w h.data

/-- Only `e`, and what the ring does not hold, changes. -/
theorem Kept.edit (hbuf : t.buf = s.buf) (hr : t.r = s.r) (hw : t.w = s.w) (hc : t.committed = s.committed)
    (hd : t.consumed = s.consumed) (hlow : (s.w - s.r).toNat ≤ (t.e - s.r).toNat)
    (hhigh : (t.e - s.r).toNat ≤ INPUT_BUF) : Kept s t where
  r := hr
  w := hw
  low := by rw [hw, hr]; exact hlow
  high := by rw [hr]; exact hhigh
  data _ _ := by rw [hbuf]
  committed := hc
  consumed := hd

/-! ## The loops -/

/-- The loop goes back, but not beyond `w`. -/
theorem eraseLoop_spec (buf : Chars) (r w : BitVec 32) (n : Nat) (e : BitVec 32) (h : (w - r).toNat ≤ (e - r).toNat) :
    (w - r).toNat ≤ (eraseLoop buf w n e - r).toNat ∧ (eraseLoop buf w n e - r).toNat ≤ (e - r).toNat := by
  induction n generalizing e with
  | zero => exact ⟨h, le_refl _⟩
  | succ n ih =>
    unfold eraseLoop
    split
    · rename_i hne
      have hback : (w - r).toNat ≤ (e - 1 - r).toNat ∧ (e - 1 - r).toNat ≤ (e - r).toNat := by
        have := hne.1
        bv_omega
      obtain ⟨hlow, hhigh⟩ := ih (e - 1) hback.1
      exact ⟨hlow, hhigh.trans hback.2⟩
    · exact ⟨h, le_refl _⟩

/-- The last of the `n + 1` characters from `w` to `e`. -/
theorem last_cell {w e : BitVec 32} {n : Nat} (hn : (e - w).toNat = n + 1) :
    e ≠ w ∧ (e - 1 - w).toNat = n ∧ (e - 1).toNat % INPUT_BUF = (w.toNat + n) % INPUT_BUF := by
  have hpos : (e - 1).toNat = (w.toNat + n) % 2 ^ 32 := by bv_omega
  refine ⟨?_, by bv_omega, by rw [hpos, Nat.mod_mod_of_dvd _ buf_dvd]⟩
  rintro rfl
  simp at hn

/-- It goes back to `w` if there is no newline on the way. -/
theorem eraseLoop_eq (buf : Chars) (w : BitVec 32) (n : Nat) (e : BitVec 32) (hn : (e - w).toNat = n)
    (hline : ∀ i < n, buf ((w.toNat + i) % INPUT_BUF) ≠ newline) : eraseLoop buf w n e = w := by
  induction n generalizing e with
  | zero =>
    unfold eraseLoop
    bv_omega
  | succ n ih =>
    obtain ⟨hne, hback, hcell⟩ := last_cell hn
    unfold eraseLoop
    rw [if_pos ⟨hne, by rw [hcell]; exact hline n (Nat.lt_succ_self n)⟩]
    exact ih (e - 1) hback fun i hi => hline i (Nat.lt_succ_of_lt hi)

theorem takeLoop_e (buf : Chars) (w : BitVec 32) (n : Nat) (x : Nat × BitVec 32 × Chars) :
    (takeLoop buf w n x).2.1 = eraseLoop buf w n x.2.1 := by
  induction n generalizing x with
  | zero => rfl
  | succ n ih =>
    obtain ⟨index, e, result⟩ := x
    unfold takeLoop eraseLoop
    dsimp only
    split
    · exact ih _
    · rfl

theorem retype_succ (s : Input) (newBuf : Chars) (idx : Nat) : s.retype newBuf (idx + 1) = { s.retype newBuf idx with
      e := (s.retype newBuf idx).e + 1
      buf := Function.update (s.retype newBuf idx).buf
        (((s.retype newBuf idx).w + BitVec.ofNat 32 idx).toNat % INPUT_BUF) (newBuf idx) } := by
  simp only [retype, List.range_succ, List.foldl_append, List.foldl_cons, List.foldl_nil]

@[simp] theorem retype_w (s : Input) (newBuf : Chars) (idx : Nat) : (s.retype newBuf idx).w = s.w := by
  induction idx with
  | zero => rfl
  | succ idx ih => rw [retype_succ]; exact ih

theorem retype_e (s : Input) (newBuf : Chars) (idx : Nat) : (s.retype newBuf idx).e = s.e + BitVec.ofNat 32 idx := by
  induction idx with
  | zero =>
    show s.e = s.e + 0#32
    rw [BitVec.add_zero]
  | succ idx ih =>
    rw [retype_succ]
    show (s.retype newBuf idx).e + 1 = _
    rw [ih]
    bv_omega

/-- `retype` stores behind `w`, and counts. -/
theorem retype_spec (s : Input) (newBuf : Chars) (idx : Nat) (hroom : (s.w - s.r).toNat + idx ≤ INPUT_BUF) :
    (s.retype newBuf idx).r = s.r ∧ (s.retype newBuf idx).committed = s.committed ∧
    (s.retype newBuf idx).consumed = s.consumed ∧
    ∀ i < (s.w - s.r).toNat, (s.retype newBuf idx).buf ((s.r.toNat + i) % INPUT_BUF) =
      s.buf ((s.r.toNat + i) % INPUT_BUF) := by
  induction idx with
  | zero => exact ⟨rfl, rfl, rfl, fun _ _ => rfl⟩
  | succ idx ih =>
    obtain ⟨hr, hc, hd, hbuf⟩ := ih (by omega)
    have hcell : (s.w + BitVec.ofNat 32 idx).toNat % INPUT_BUF =
        (s.r.toNat + ((s.w - s.r).toNat + idx)) % INPUT_BUF := by
      have hpos : (s.w + BitVec.ofNat 32 idx).toNat = (s.r.toNat + ((s.w - s.r).toNat + idx)) % 2 ^ 32 := by
        bv_omega
      rw [hpos, Nat.mod_mod_of_dvd _ buf_dvd]
    rw [retype_succ]
    refine ⟨hr, hc, hd, fun i hi => ?_⟩
    show Function.update _ _ _ _ = _
    rw [retype_w, hcell, Function.update_of_ne (Ring.cell_ne (by omega) (by omega) (by omega))]
    exact hbuf i hi

theorem foldl_count_le {f : Chars × Nat → BitVec 32 → Chars × Nat} (hf : ∀ x i, (f x i).2 ≤ x.2 + 1)
    (is : List (BitVec 32)) (x : Chars × Nat) : (is.foldl f x).2 ≤ x.2 + is.length := by
  induction is generalizing x with
  | nil => exact le_refl _
  | cons i is ih =>
    rw [List.foldl_cons, List.length_cons]
    have hrest := ih (f x i)
    have hone := hf x i
    omega

/-- No more is retyped than was there. -/
theorem nonDigits_le (s : Input) (m : Memory) : (s.nonDigits m).2 ≤ (s.e - s.w).toNat := by
  have hcount : (s.nonDigits m).2 ≤ 0 + (s.upTo s.e).length := by
    refine foldl_count_le (fun x i => ?_) _ _
    split
    · exact le_refl _
    · exact Nat.le_succ _
  rw [upTo, List.length_map, List.length_range] at hcount
  bv_omega

theorem reversed_le (s : Input) (m : Memory) : (s.reversed m).2 ≤ (s.e - s.w).toNat := by
  have hcount : (s.reversed m).2 ≤ 0 + s.downFrom.length := foldl_count_le (fun _ _ => le_refl _) _ _
  rw [downFrom, List.length_map, List.length_range] at hcount
  bv_omega

/-! ## The line -/

theorem line_eq (s : Input) :
    s.line = (List.range (s.e - s.w).toNat).map fun i => s.buf ((s.w.toNat + i) % INPUT_BUF) := rfl

theorem length_line (s : Input) : s.line.length = (s.e - s.w).toNat := Ring.length_contents

/-- The loop of TAB, on a line without a newline: it takes all of it. -/
theorem takeLoop_eq (buf : Chars) (w : BitVec 32) (n index : Nat) (e : BitVec 32) (result : Chars)
    (hn : (e - w).toNat = n) (hline : ∀ i < n, buf ((w.toNat + i) % INPUT_BUF) ≠ newline) :
    takeLoop buf w n (index, e, result) = (index + n, w, (List.range n).foldl (fun d i => update d (index + i)
      (buf ((w.toNat + (index + i)) % INPUT_BUF))) result) := by
  induction n generalizing index e result with
  | zero =>
    have he : e = w := by bv_omega
    rw [takeLoop, he]
    rfl
  | succ n ih =>
    obtain ⟨hne, hback, hlast⟩ := last_cell hn
    have hcell : (w + BitVec.ofNat 32 index).toNat % INPUT_BUF = (w.toNat + index) % INPUT_BUF := by
      rw [BitVec.toNat_add, BitVec.toNat_ofNat, Nat.add_mod_mod, Nat.mod_mod_of_dvd _ buf_dvd]
    rw [takeLoop, if_pos ⟨hne, by rw [hlast]; exact hline n (Nat.lt_succ_self n)⟩,
      ih _ _ _ hback fun i hi => hline i (Nat.lt_succ_of_lt hi), hcell, List.range_succ_eq_map, List.foldl_cons,
      List.foldl_map]
    simp only [Nat.add_zero, Nat.succ_eq_add_one, Nat.add_assoc, Nat.add_comm 1]

theorem mem_line {i : Nat} (hi : i < (s.e - s.w).toNat) : s.buf ((s.w.toNat + i) % INPUT_BUF) ∈ s.line :=
  List.mem_map.mpr ⟨i, List.mem_range.mpr hi, rfl⟩

/-- The line up to its first NUL. -/
def text (s : Input) : List UInt8 := s.line.takeWhile (· ≠ 0)

/-- The line is copied to an array. -/
theorem cstring_taken (s : Input) (d : Chars) (hlen : (s.e - s.w).toNat < INPUT_BUF) :
    cstring (update ((List.range (s.e - s.w).toNat).foldl (fun d i =>
      update d i (s.buf ((s.w.toNat + i) % INPUT_BUF))) d) (s.e - s.w).toNat 0) = s.text := by
  rw [cstring_takeWhile hlen (update_self ..), text, line_eq]
  congr 1
  refine List.map_congr_left fun i hi => ?_
  have hlt := List.mem_range.mp hi
  rw [update_of_ne hlt.ne, foldl_update, if_pos hlt]

/-- TAB, on a line without a newline. -/
theorem complete_eq (hline : newline ∉ s.line) (hlen : (s.e - s.w).toNat < INPUT_BUF) : ∃ a,
    s.complete = { s with e := s.w, completeResult := search s.cmdHistory a } ∧
      cstring a = s.text := by
  have htake := takeLoop_eq s.buf s.w (s.e - s.w).toNat 0 s.e s.completeResult rfl fun i hi heq => by
    rw [← heq] at hline
    exact hline (mem_line hi)
  simp only [Nat.zero_add] at htake
  refine ⟨_, ?_, cstring_taken s s.completeResult hlen⟩
  rw [complete, htake]

/-! ## The keys -/

/-- When a key is struck in its place. -/
structure Tidy (s : Input) (k : Key) : Prop where
  /-- `^N`, `^R`: the line holds no newline -/
  retyped : k.c = C 'N' ∨ k.c = C 'R' → newline ∉ s.line
  /-- `^T`, `^E`: there is room -/
  counted : k.c = C 'T' ∨ k.c = C 'E' → (s.e - s.r).toNat < INPUT_BUF
  /-- TAB: the line holds no newline and fits in `complete_result`, and there is room for each saved command that
      begins with it, up to its first NUL -/
  completed : k.c = tab → newline ∉ s.line ∧ (s.e - s.w).toNat < INPUT_BUF ∧ ∀ i < 15,
    s.text <+: cstring (s.cmdHistory i) →
      (s.w - s.r).toNat + strlen (s.cmdHistory i) ≤ INPUT_BUF

/-- A line without a newline is killed as a whole. -/
theorem erase_e (hline : newline ∉ s.line) : s.erase.e = s.w := by
  refine eraseLoop_eq s.buf s.w _ s.e rfl fun i hi hn => hline ?_
  exact List.mem_map.mpr ⟨i, List.mem_range.mpr hi, hn⟩

section Keys

variable (hlow : (s.w - s.r).toNat ≤ (s.e - s.r).toNat) (hhigh : (s.e - s.r).toNat ≤ INPUT_BUF)
include hlow hhigh

theorem kept_erase : Kept s s.erase := by
  obtain ⟨hl, hh⟩ := eraseLoop_spec s.buf s.r s.w (s.e - s.w).toNat s.e hlow
  exact .edit rfl rfl rfl rfl rfl hl (hh.trans hhigh)

/-- `^N` and `^R`: the line is killed, and no more than its length is typed in again. -/
theorem kept_retype (hline : newline ∉ s.line) (newBuf : Chars) {idx : Nat} (hidx : idx ≤ (s.e - s.w).toNat) :
    Kept s (s.erase.retype newBuf idx) := by
  have he := erase_e hline
  have hroom : (s.w - s.r).toNat + idx ≤ INPUT_BUF := by
    have hline : (s.w - s.r).toNat + idx ≤ (s.e - s.r).toNat := by bv_omega
    exact hline.trans hhigh
  have hw : (s.erase.retype newBuf idx).w = s.w := retype_w s.erase newBuf idx
  have he' := retype_e s.erase newBuf idx
  obtain ⟨hr, hc, hd, hbuf⟩ := retype_spec s.erase newBuf idx hroom
  have hdist := distance_add hroom
  rw [he] at he'
  refine ⟨hr, hw, ?_, ?_, hbuf, hc, hd⟩
  · rw [hw, hr, he']
    show (s.w - s.r).toNat ≤ (s.w + BitVec.ofNat 32 idx - s.r).toNat
    omega
  · rw [hr, he']
    show (s.w + BitVec.ofNat 32 idx - s.r).toNat ≤ INPUT_BUF
    omega

/-- A line is completed to a saved command that begins with it, or stays. -/
theorem complete_fits (hline : newline ∉ s.line) (hlen : (s.e - s.w).toNat < INPUT_BUF)
    (hrows : ∀ i < 15, s.text <+: cstring (s.cmdHistory i) →
      (s.w - s.r).toNat + strlen (s.cmdHistory i) ≤ INPUT_BUF) :
    (s.complete.e - s.r).toNat + strlen s.complete.completeResult ≤ INPUT_BUF := by
  obtain ⟨a, hcomplete, ha⟩ := complete_eq hline hlen
  rw [hcomplete]
  dsimp only
  rw [search_eq, ← length_cstring]
  rcases searchRows_cases s.cmdHistory a 15 with ⟨hsame, -⟩ | ⟨k, hk, heq, htyped, -⟩
  · rw [hsame, ha]
    have hle : s.text.length ≤ (s.e - s.w).toNat :=
      length_line s ▸ (List.takeWhile_prefix _).length_le
    refine le_trans (Nat.add_le_add_left hle _) (le_trans (le_of_eq ?_) hhigh)
    bv_omega
  · rw [heq, length_cstring]
    exact hrows k hk (by rw [← ha, ← heq]; exact htyped)

omit hhigh in
theorem kept_complete (hfits : (s.complete.e - s.r).toNat + strlen s.complete.completeResult ≤ INPUT_BUF) :
    Kept s { s.complete with e := s.complete.e + BitVec.ofNat 32 (strlen s.complete.completeResult) } := by
  have hback := (eraseLoop_spec s.buf s.r s.w (s.e - s.w).toNat s.e hlow).1
  have he : s.complete.e = s.erase.e := takeLoop_e s.buf s.w (s.e - s.w).toNat (0, s.e, s.completeResult)
  have hlow' : (s.w - s.r).toNat ≤ (s.complete.e - s.r).toNat := by
    rw [he]
    exact hback
  have hdist := distance_add hfits
  refine .edit rfl rfl rfl rfl rfl ?_ ?_
  · show _ ≤ (s.complete.e + BitVec.ofNat 32 (strlen s.complete.completeResult) - s.r).toNat
    omega
  · show (s.complete.e + BitVec.ofNat 32 (strlen s.complete.completeResult) - s.r).toNat ≤ _
    omega

omit hhigh in
theorem kept_store (c : UInt8) (hroom : (s.e - s.r).toNat < INPUT_BUF) : Kept s (s.store c) := by
  have hdist : (s.e + 1 - s.r).toNat = (s.e - s.r).toNat + 1 := distance_add hroom
  have hcell : s.e.toNat % INPUT_BUF = (s.r.toNat + (s.e - s.r).toNat) % INPUT_BUF := by
    have hpos : s.e.toNat = (s.r.toNat + (s.e - s.r).toNat) % 2 ^ 32 := by bv_omega
    rw [← Nat.mod_mod_of_dvd (s.r.toNat + (s.e - s.r).toNat) buf_dvd, ← hpos]
  refine ⟨rfl, rfl, ?_, ?_, fun i hi => ?_, rfl, rfl⟩
  · show (s.w - s.r).toNat ≤ (s.e + 1 - s.r).toNat
    omega
  · show (s.e + 1 - s.r).toNat ≤ _
    omega
  · show Function.update s.buf (s.e.toNat % INPUT_BUF) c _ = _
    rw [hcell, Function.update_of_ne (Ring.cell_ne (by omega) hroom (by omega))]

/-- **What a key does**: it edits the line, and commits it or does not. -/
theorem key_cases {k : Key} (htidy : Tidy s k) :
    ∃ u, Kept s u ∧ (s.key k = (u, false) ∨ s.key k = (u.commit, true)) := by
  have hsame : Kept s s := .edit rfl rfl rfl rfl rfl hlow hhigh
  unfold key
  by_cases hN : k.c = C 'N'
  · rw [if_pos hN]
    exact ⟨_, kept_retype hlow hhigh (htidy.retyped (.inl hN)) _ (s.nonDigits_le k.mem), .inl rfl⟩
  rw [if_neg hN]
  by_cases hR : k.c = C 'R'
  · rw [if_pos hR]
    exact ⟨_, kept_retype hlow hhigh (htidy.retyped (.inr hR)) _ (s.reversed_le k.mem), .inl rfl⟩
  rw [if_neg hR]
  by_cases hTE : k.c = C 'T' ∨ k.c = C 'E'
  · rw [if_pos hTE]
    have hdist : (s.e + 1 - s.r).toNat = (s.e - s.r).toNat + 1 := distance_add (htidy.counted hTE)
    refine ⟨{ s with e := s.e + 1 }, .edit rfl rfl rfl rfl rfl ?_ ?_, .inl rfl⟩
    · show _ ≤ (s.e + 1 - s.r).toNat
      omega
    · show (s.e + 1 - s.r).toNat ≤ _
      rw [hdist]
      exact htidy.counted hTE
  rw [if_neg hTE]
  by_cases hP : k.c = C 'P'
  · rw [if_pos hP]
    exact ⟨s, hsame, .inl rfl⟩
  rw [if_neg hP]
  by_cases hU : k.c = C 'U'
  · rw [if_pos hU]
    exact ⟨_, kept_erase hlow hhigh, .inl rfl⟩
  rw [if_neg hU]
  by_cases hH : k.c = C 'H' ∨ k.c = del
  · rw [if_pos hH]
    refine ⟨_, ?_, .inl rfl⟩
    split
    · rename_i hne
      have hback : (s.w - s.r).toNat ≤ (s.e - 1 - s.r).toNat ∧ (s.e - 1 - s.r).toNat ≤ (s.e - s.r).toNat := by
        bv_omega
      exact .edit rfl rfl rfl rfl rfl hback.1 (hback.2.trans hhigh)
    · exact hsame
  rw [if_neg hH]
  by_cases ht : k.c = tab
  · rw [if_pos ht]
    obtain ⟨hline, hlen, hrows⟩ := htidy.completed ht
    exact ⟨_, kept_complete hlow (complete_fits hlow hhigh hline hlen hrows), .inl rfl⟩
  rw [if_neg ht]
  by_cases hroom : k.c ≠ 0 ∧ (s.e - s.r).toNat < INPUT_BUF
  · rw [if_pos hroom]
    dsimp only
    generalize (if k.c = carriageReturn then newline else k.c) = c
    have hstore := kept_store hlow c hroom.2
    split
    · refine ⟨_, ?_, .inr rfl⟩
      split
      · exact ⟨hstore.r, hstore.w, hstore.low, hstore.high, hstore.data, hstore.committed, hstore.consumed⟩
      · exact hstore
    · exact ⟨_, hstore, .inl rfl⟩
  · rw [if_neg hroom]
    exact ⟨s, hsame, .inl rfl⟩

end Keys

/-! ## The invariant -/

structure Sound (s : Input) : Prop where
  low : (s.w - s.r).toNat ≤ (s.e - s.r).toNat
  high : (s.e - s.r).toNat ≤ INPUT_BUF
  fifo : s.consumed ++ s.unread = s.committed

theorem Sound.kept (h : Sound s) (hk : Kept s t) : Sound t where
  low := hk.low
  high := hk.high
  fifo := by rw [hk.consumed, hk.unread, hk.committed, h.fifo]

/-- `input.w = input.e` -/
theorem unread_commit (hlow : (s.w - s.r).toNat ≤ (s.e - s.r).toNat) : s.commit.unread = s.unread ++ s.line :=
  Ring.contents_split buf_dvd hlow

theorem Sound.commit (h : Sound s) : Sound s.commit where
  low := le_refl _
  high := h.high
  fifo := by
    rw [unread_commit h.low]
    show s.consumed ++ (s.unread ++ s.line) = s.committed ++ s.line
    rw [← List.append_assoc, h.fifo]

/-- `consoleread` takes the first of the unread bytes. -/
theorem unread_read (hne : s.r ≠ s.w) : s.unread = s.byteAt s.r ::
    unread { s with r := s.r + 1, consumed := s.consumed ++ [s.byteAt s.r] } := by
  refine Ring.contents_pop (r := (⟨s.buf, s.r, s.w⟩ : Ring 32 INPUT_BUF UInt8)) buf_dvd fun h0 => hne ?_
  have hempty := Ring.empty_iff.mpr h0
  exact eq_of_beq hempty

theorem Sound.read (h : Sound s) (hne : s.r ≠ s.w) :
    Sound { s with r := s.r + 1, consumed := s.consumed ++ [s.byteAt s.r] } := by
  have hlow := h.low
  have hhigh := h.high
  refine ⟨?_, ?_, ?_⟩
  · show (s.w - (s.r + 1)).toNat ≤ (s.e - (s.r + 1)).toNat
    bv_omega
  · show (s.e - (s.r + 1)).toNat ≤ INPUT_BUF
    bv_omega
  · show s.consumed ++ [s.byteAt s.r] ++ _ = s.committed
    rw [List.append_assoc, List.singleton_append, ← unread_read hne, h.fifo]

end Input

/-! ## Runs -/

section Runs

variable {π : Type} [DecidableEq π]

/-- The next key of an interrupt is struck in its place. -/
def TidyStep (S : St π Local Input Result) (a : Label π Call) : Prop :=
  ∀ p k keys dump, a = .step p → S.pc p = .turn (.intr (k :: keys) dump) → S.res.Tidy k

theorem sound_turn {s : Input} {l : Local} (h : s.Sound) (htidy : ∀ k keys dump, l = .intr (k :: keys) dump → s.Tidy k) :
    ((console.turn l s).after s).Sound := by
  cases l with
  | intr keys dump =>
    cases keys with
    | nil => exact h
    | cons k keys =>
      obtain ⟨u, hu, hkey | hkey⟩ := Input.key_cases h.low h.high (htidy k keys dump rfl)
      · simp only [console, hkey, Turn.after]
        exact h.kept hu
      · simp only [console, hkey, Turn.after]
        exact (h.kept hu).commit
  | read target n dst =>
    simp only [console, readTurn]
    split
    · split
      · exact h
      · rename_i hne
        split
        · split
          · exact h
          · exact h.read hne
        · split <;> exact h.read hne
    · exact h

theorem sound_reachable {S : St π Local Input Result} (h : console.machine.Reachable TidyStep S) : S.res.Sound := by
  refine Code.resource_invariant ⟨by decide, by decide, rfl⟩ (fun S p l hc hpc hI => ?_) h
  exact sound_turn hI fun k keys dump hl => hc p k keys dump rfl (hl ▸ hpc)

/-- A key leaves `r` and the bytes that are committed where they are, and may commit some more. -/
theorem unread_key {S T : St π Local Input Result} {p : π} {k : Key} {keys : List Key} {dump : Bool}
    (hS : S.res.Sound) (htidy : S.res.Tidy k) (hpc : S.pc p = .turn (.intr (k :: keys) dump))
    (hs : console.machine.step S (.step p) = some T) : T.res.r = S.res.r ∧ S.res.unread <+: T.res.unread := by
  have hT : T.res = (S.res.key k).1 := by
    rw [(Code.step_cases hs).res_turn hpc]
    simp only [console]
    split <;> rename_i hkey <;> rw [hkey] <;> rfl
  obtain ⟨u, hu, hkey | hkey⟩ := Input.key_cases hS.low hS.high htidy
  · rw [hT, hkey]
    exact ⟨hu.r, hu.unread ▸ List.prefix_rfl⟩
  · rw [hT, hkey]
    refine ⟨hu.r, ?_⟩
    rw [Input.unread_commit hu.low, hu.unread]
    exact List.prefix_append _ _

/-- **The console's ring.**  For any interleaving of interrupts and reads, if `^N` and `^R` are struck only on lines
    without a newline, `^T` and `^E` only if there is room, and TAB only on such a line and if there is room for what it
    may be completed to: the indices stay in order and at most `INPUT_BUF` apart; the bytes consumed, followed by those that are committed and unread, are
    those that were committed, in order; and no key alters what is unread. -/
theorem console_ring (S : St π Local Input Result) (h : console.machine.Reachable TidyStep S) :
    (S.res.w - S.res.r).toNat ≤ (S.res.e - S.res.r).toNat ∧ (S.res.e - S.res.r).toNat ≤ INPUT_BUF ∧
    S.res.consumed ++ S.res.unread = S.res.committed ∧
    ∀ p k keys dump T, S.pc p = .turn (.intr (k :: keys) dump) → TidyStep S (.step p) →
      console.machine.step S (.step p) = some T → T.res.r = S.res.r ∧ S.res.unread <+: T.res.unread := by
  have hS := sound_reachable h
  refine ⟨hS.low, hS.high, hS.fifo, fun p k keys dump T hpc htidy hs => ?_⟩
  exact unread_key hS (htidy p k keys dump rfl hpc) hpc hs

end Runs

/-! ## A line that is read, and an overrun -/

instance (s : Input) (k : Key) : Decidable (s.Tidy k) :=
  decidable_of_iff ((k.c = C 'N' ∨ k.c = C 'R' → newline ∉ s.line) ∧
      (k.c = C 'T' ∨ k.c = C 'E' → (s.e - s.r).toNat < INPUT_BUF) ∧
      (k.c = tab → newline ∉ s.line ∧ (s.e - s.w).toNat < INPUT_BUF ∧ ∀ i < 15,
        s.text <+: cstring (s.cmdHistory i) →
          (s.w - s.r).toNat + strlen (s.cmdHistory i) ≤ INPUT_BUF))
    ⟨fun h => ⟨h.1, h.2.1, h.2.2⟩, fun h => ⟨h.retyped, h.counted, h.completed⟩⟩

/-- Whether the next key of an interrupt meets a condition. -/
instance decidableAtKey {π R : Type} (P : Key → Prop) [DecidablePred P] (S : St π Local R Result) (a : Label π Call) :
    Decidable (∀ p k keys dump, a = .step p → S.pc p = .turn (.intr (k :: keys) dump) → P k) :=
  match a with
  | .call _ _ | .kill _ => isTrue nofun
  | .step p =>
    match hpc : S.pc p with
    | .turn (.intr (k :: keys) dump) =>
      decidable_of_iff (P k)
        ⟨fun h q k' keys' dump' hq hpc' => by cases hq; cases hpc.symm.trans hpc'; exact h, fun h => h p k keys dump rfl hpc⟩
    | .turn (.intr [] _) | .turn (.read ..) | .idle | .acquire _ | .wakeAcquire _ | .wakeup _ | .wakeRelease _
    | .sleepAcquire _ | .sleepRelease _ | .sleepState _ | .asleep _ | .resume _ | .release _ =>
      isTrue fun q k' keys' dump' hq hpc' => by cases hq; nomatch hpc.symm.trans hpc'

instance {π : Type} (S : St π Local Input Result) (a : Label π Call) : Decidable (TidyStep S a) :=
  decidableAtKey S.res.Tidy S a

/-- A key, with nothing in the memory around. -/
def blank (c : UInt8) : Key := ⟨c, ⟨fun _ => 0, fun _ => 0, fun _ => 0⟩⟩

def typed (cs : List UInt8) : List Key := cs.map blank

/-- `a`, `b`, `^R` and Enter are typed; then a process reads two bytes. -/
def typing : List (Label (Fin 2) Call) :=
  .call 0 (.consoleintr (typed [97, 98, C 'R', 13])) :: List.replicate 10 (.step 0) ++
    .call 1 (.consoleread 2) :: List.replicate 4 (.step 1)

theorem console_ring_typing : ∃ S : St (Fin 2) Local Input Result, S.res.consumed = [98, 97] ∧ S.res.unread = [10] ∧
    S.res.consumed ++ S.res.unread = S.res.committed ∧ (S.res.e - S.res.r).toNat ≤ INPUT_BUF := by
  have hinit : (console.machine (π := Fin 2)).init console.start := rfl
  have hrun : (console.machine.runIf TidyStep (console.start (π := Fin 2)) typing).any (fun S => decide
      (S.res.consumed = [98, 97] ∧ S.res.unread = [10])) = true := by decide +kernel
  obtain ⟨S, hreach, hconsumed, hunread⟩ := Machine.reachable_of_runIf hinit hrun
  obtain ⟨-, hhigh, hfifo, -⟩ := console_ring S hreach
  exact ⟨S, hconsumed, hunread, hfifo, hhigh⟩

/-- `^T` is struck 129 times. -/
def tooMany : List (Label (Fin 1) Call) :=
  .call 0 (.consoleintr (typed (List.replicate 129 (C 'T')))) :: List.replicate 130 (.step 0)

theorem overrun : ∃ S : St (Fin 1) Local Input Result, console.machine.Reachable anyStep S ∧
    (S.res.e - S.res.r).toNat = 129 ∧ INPUT_BUF < 129 := by
  have hinit : (console.machine (π := Fin 1)).init console.start := rfl
  have hrun : (console.machine.run (console.start (π := Fin 1)) tooMany).any (fun S => decide
      ((S.res.e - S.res.r).toNat = 129 ∧ INPUT_BUF < 129)) = true := by decide +kernel
  exact Machine.reachable_of_run hinit hrun

end Xv6.Console
