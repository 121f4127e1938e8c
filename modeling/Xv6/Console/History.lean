/-
  THE SAVED COMMANDS — which of the lines that were entered `cmd_history` holds.

  `save_command` moves every row on by one, from the last to the first, and puts the new line in row 0.

  1. **`shifted_row`** — the loop goes down, so that each row takes the one before it as it was.
  2. **`cstring_moved`** — a row takes the string of the one before it, unless that is empty (the end of a string is stored
     with its last character, and there is none) or begins with a space (such rows are skipped): then it stays.
  3. **`history_lists_lines`** — row `k` is the `k`-th last line, if each of the last lines that is empty or begins with a
     space came after one like it (`Recorded`).  After `a`, an empty line and `b`, row 1 still holds `a` (`a_stays`).
-/
import Mathlib
import Xv6.Console.Screen

namespace Xv6.Console

open Machines Naps

/-! ## `save_command` -/

/-- Row `i + 1`, after the turn of the loop for row `i`. -/
def moved (history : Nat → Chars) (i : Nat) : Chars :=
  if history i 0 ≠ space then shiftString (history (i + 1)) (history i) else history (i + 1)

/-- The loop of `save_command`, over the rows below `n`. -/
def shifted (n : Nat) (history : Nat → Chars) : Nat → Chars :=
  (List.range n).reverse.foldl (fun (h : Nat → Chars) i =>
    if h i 0 ≠ space then Function.update h (i + 1) (shiftString (h (i + 1)) (h i)) else h) history

/-- The last row comes first. -/
theorem shifted_succ (n : Nat) (history : Nat → Chars) :
    shifted (n + 1) history = shifted n (Function.update history (n + 1) (moved history n)) := by
  rw [shifted, List.range_succ, List.reverse_append, List.reverse_singleton, List.singleton_append, List.foldl_cons]
  unfold moved
  split
  · rfl
  · rw [Function.update_eq_self]
    rfl

/-- Rows that the loop does not come to. -/
theorem shifted_other (n : Nat) (history : Nat → Chars) {j : Nat} (hj : j = 0 ∨ n < j) :
    shifted n history j = history j := by
  induction n generalizing history with
  | zero => rfl
  | succ n ih =>
    rw [shifted_succ, ih _ (by omega), Function.update_of_ne (by omega)]

theorem shifted_row (n : Nat) (history : Nat → Chars) {i : Nat} (hi : i < n) :
    shifted n history (i + 1) = moved history i := by
  induction n generalizing history with
  | zero => exact absurd hi (Nat.not_lt_zero i)
  | succ n ih =>
    rw [shifted_succ]
    rcases Nat.lt_or_ge i n with hlt | hge
    · -- rows `i` and `i + 1` have not been touched yet
      rw [ih _ hlt, moved, Function.update_of_ne (by omega), Function.update_of_ne (by omega)]
      rfl
    · rw [shifted_other n _ (by omega), show i = n by omega, Function.update_self]

/-- Is a string moved on to the next row? -/
def Moves (l : List UInt8) : Prop := l ≠ [] ∧ l.head? ≠ some space

theorem moves_cstring (a : Chars) : Moves (cstring a) ↔ strlen a ≠ 0 ∧ a 0 ≠ space := by
  by_cases hlen : strlen a = 0
  · have hnil : cstring a = [] := List.length_eq_zero_iff.mp (by rw [length_cstring, hlen])
    simp [Moves, hnil, hlen]
  · obtain ⟨n, hn⟩ := Nat.exists_eq_succ_of_ne_zero hlen
    have hcons : cstring a = a 0 :: (List.range n).map fun i => a (i + 1) := by
      rw [cstring, hn, List.range_succ_eq_map, List.map_cons, List.map_map]
      rfl
    simp [Moves, hcons, hlen]

theorem cstring_moved (history : Nat → Chars) (i : Nat) :
    (Moves (cstring (history i)) → cstring (moved history i) = cstring (history i)) ∧
    (¬ Moves (cstring (history i)) → cstring (moved history i) = cstring (history (i + 1))) := by
  rw [moves_cstring, moved]
  by_cases hspace : history i 0 ≠ space
  · rw [if_pos hspace]
    refine ⟨fun h => cstring_shiftString _ h.1, fun h => ?_⟩
    have hempty : strlen (history i) = 0 := by
      by_contra hne
      exact h ⟨hne, hspace⟩
    rw [shiftString_empty hempty]
  · rw [if_neg hspace]
    exact ⟨fun h => absurd h.2 hspace, fun _ => rfl⟩

theorem saveCommand_row (history : Nat → Chars) (buffer : Chars) {i : Nat} (hi : i < 14) :
    saveCommand history buffer (i + 1) = moved history i := by
  rw [saveCommand, Function.update_of_ne (Nat.succ_ne_zero i)]
  exact shifted_row 14 history hi

/-! ## The keys -/

namespace Input

variable {s : Input} {k : Key}

theorem retype_cmdHistory (s : Input) (newBuf : Chars) (idx : Nat) :
    (s.retype newBuf idx).cmdHistory = s.cmdHistory := by
  induction idx with
  | zero => rfl
  | succ idx ih => rw [retype_succ]; exact ih

/-- Only Enter saves a command. -/
theorem key_other (h : ¬ (k.isEnter = true ∧ (s.e - s.r).toNat < INPUT_BUF)) :
    (s.key k).1.cmdHistory = s.cmdHistory ∧ ((s.key k).2 = true → k.isEnter = false) := by
  unfold Input.key
  by_cases hN : k.c = C 'N'
  · rw [if_pos hN]
    exact ⟨retype_cmdHistory _ _ _, fun hwake => by cases hwake⟩
  rw [if_neg hN]
  by_cases hR : k.c = C 'R'
  · rw [if_pos hR]
    exact ⟨retype_cmdHistory _ _ _, fun hwake => by cases hwake⟩
  rw [if_neg hR]
  by_cases hTE : k.c = C 'T' ∨ k.c = C 'E'
  · rw [if_pos hTE]
    exact ⟨rfl, fun hwake => by cases hwake⟩
  rw [if_neg hTE]
  by_cases hP : k.c = C 'P'
  · rw [if_pos hP]
    exact ⟨rfl, fun hwake => by cases hwake⟩
  rw [if_neg hP]
  by_cases hU : k.c = C 'U'
  · rw [if_pos hU]
    exact ⟨rfl, fun hwake => by cases hwake⟩
  rw [if_neg hU]
  by_cases hH : k.c = C 'H' ∨ k.c = del
  · rw [if_pos hH]
    refine ⟨?_, fun hwake => by cases hwake⟩
    show (if s.e ≠ s.w then _ else s).cmdHistory = _
    split <;> rfl
  rw [if_neg hH]
  by_cases ht : k.c = tab
  · rw [if_pos ht]
    exact ⟨rfl, fun hwake => by cases hwake⟩
  rw [if_neg ht]
  by_cases hroom : k.c ≠ 0 ∧ (s.e - s.r).toNat < INPUT_BUF
  · rw [if_pos hroom]
    have henter : k.isEnter = false := by
      by_contra hne
      exact h ⟨by simpa using hne, hroom.2⟩
    have hc : k.c ≠ newline ∧ k.c ≠ carriageReturn := by simpa [Key.isEnter] using henter
    simp only [if_neg hc.2, if_neg hc.1]
    split
    · exact ⟨rfl, fun _ => henter⟩
    · exact ⟨rfl, fun hwake => by cases hwake⟩
  · rw [if_neg hroom]
    exact ⟨rfl, fun hwake => by cases hwake⟩

end Input

namespace Screen

variable {s : Screen} {k : Key}

/-- Is a line entered? -/
def Enters (s : Screen) (k : Key) : Prop := k.isEnter = true ∧ (s.input.e - s.input.r).toNat < INPUT_BUF

instance (s : Screen) (k : Key) : Decidable (s.Enters k) := inferInstanceAs (Decidable (_ ∧ _))

/-- When Enter saves the line and moves the lines before it on. -/
structure Recorded (s : Screen) (k : Key) : Prop where
  /-- The line is within `buffer`, and at indices that are not negative -/
  line : s.Enters k → s.input.Indexed ∧ s.input.line.length < INPUT_BUF ∧ 0 ∉ s.input.line
  /-- A line that is empty or begins with a space came after one like it -/
  lines : s.Enters k → ∀ i < 14, ¬ Moves (s.lines.getD i []) → s.lines.getD (i + 1) [] = s.lines.getD i []

/-- The rows hold the last lines. -/
def Listed (s : Screen) : Prop := ∀ i < 15, cstring (s.input.cmdHistory i) = s.lines.getD i []

theorem Listed.key (h : Listed s) (hk : s.Recorded k) : Listed (s.key k).1 := by
  by_cases henters : s.Enters k
  · obtain ⟨hindexed, hlen, hnul⟩ := hk.line henters
    obtain ⟨-, hkey⟩ := Input.key_enter henters.1 henters.2
    simp only [Screen.key, hkey, henters.1, if_true]
    intro i hi
    show cstring (saveCommand s.input.cmdHistory ((s.input.store newline).command k.mem) i) =
      (s.input.line :: s.lines).getD i []
    cases i with
    | zero =>
      rw [cstring_saveCommand, Input.command_line hindexed hnul hlen, List.getD_cons_zero]
    | succ i =>
      rw [saveCommand_row _ _ (by omega), List.getD_cons_succ]
      obtain ⟨hmoves, hstays⟩ := cstring_moved s.input.cmdHistory i
      rw [h i (by omega)] at hmoves hstays
      rw [h (i + 1) hi] at hstays
      by_cases hm : Moves (s.lines.getD i [])
      · exact hmoves hm
      · rw [hstays hm, hk.lines henters i (by omega) hm]
  · obtain ⟨hhistory, hwake⟩ := Input.key_other henters
    unfold Screen.key
    split <;> rename_i t hkey <;> rw [hkey] at hhistory hwake <;> dsimp only at hhistory hwake ⊢
    · rw [hwake rfl, Listed, hhistory]
      exact h
    · rw [Listed, hhistory]
      exact h

end Screen

/-! ## Runs -/

/-- **The history is the list of the last lines.**  For any keys and any interleaving with `consoleread`, if each line that
    is entered is within the buffer, has no NUL and is at indices that are not negative `int`s, and each of the lines
    before it that is empty or begins with a space came after one like it: `cmd_history[i]` is the `i`-th last line, and
    empty if there is none. -/
theorem history_lists_lines {π : Type} [DecidableEq π] (S : St π Local Screen Result)
    (h : terminal.machine.Reachable (AtKey Screen.Recorded) S) (i : Nat) (hi : i < 15) :
    cstring (S.res.input.cmdHistory i) = S.res.lines.getD i [] := by
  refine terminal_invariant (I := Screen.Listed) (fun i _ => ?_) (fun s k hk hs => hs.key hk) (fun s _ hs => hs) h i hi
  rfl

instance (l : List UInt8) : Decidable (Moves l) := inferInstanceAs (Decidable (_ ∧ _))

instance (s : Screen) (k : Key) : Decidable (s.Recorded k) :=
  decidable_of_iff ((s.Enters k → s.input.Indexed ∧
      s.input.line.length < INPUT_BUF ∧ 0 ∉ s.input.line) ∧
      (s.Enters k → ∀ i < 14, ¬ Moves (s.lines.getD i []) → s.lines.getD (i + 1) [] = s.lines.getD i []))
    ⟨fun h => ⟨h.1, h.2⟩, fun h => ⟨h.line, h.lines⟩⟩

/-- `a` and `b` are entered. -/
theorem history_lists_lines_two : ∃ S : St (Fin 1) Local Screen Result, S.res.lines = [[98], [97]] ∧
    cstring (S.res.input.cmdHistory 1) = [97] := by
  have hinit : (terminal.machine (π := Fin 1)).init terminal.start := rfl
  have hrun : (terminal.machine.runIf (AtKey Screen.Recorded) (terminal.start (π := Fin 1))
      (.call 0 (.consoleintr (typed [97, 13, 98, 13])) :: List.replicate 9 (.step 0))).any
      (fun S => decide (S.res.lines = [[98], [97]])) = true := by decide +kernel
  obtain ⟨S, hreach, hlines⟩ := Machine.reachable_of_runIf hinit hrun
  refine ⟨S, hlines, ?_⟩
  rw [history_lists_lines S hreach 1 (by decide), hlines]
  rfl

/-- `a`, an empty line and `b` are entered: the line before the last is empty, and row 1 holds `a`. -/
theorem a_stays : ∃ S : St (Fin 1) Local Screen Result, terminal.machine.Reachable anyStep S ∧
    S.res.lines = [[98], [], [97]] ∧ cstring (S.res.input.cmdHistory 1) = [97] := by
  have hinit : (terminal.machine (π := Fin 1)).init terminal.start := rfl
  have hrun : (terminal.machine.run (terminal.start (π := Fin 1))
      (.call 0 (.consoleintr (typed [97, 13, 13, 98, 13])) :: List.replicate 14 (.step 0))).any (fun S => decide
      (S.res.lines = [[98], [], [97]] ∧ cstring (S.res.input.cmdHistory 1) = [97])) = true := by decide +kernel
  exact Machine.reachable_of_run hinit hrun

end Xv6.Console
