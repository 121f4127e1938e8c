/-
  THE SCREEN — what `consoleintr` shows of the line that is being edited.

  Each case of `consoleintr` edits `input` and calls `consputc` for what it has edited, by separate statements.  `echo` is
  the list of the arguments of those calls, key by key; `shown` is the line as it is on the screen since the last commit,
  from which a `BACKSPACE` takes the last character.  What others write to the screen (`consolewrite`, `cprintf`) is left
  out, and so is the cursor of `cgaputc`.

  1. **What a key does to the line** — `^N` leaves the characters that are no digits (`nonDigits_line`), `^R` reverses the
     line (`reversed_line`), and TAB keeps it if no saved command goes on after it (`complete_line`).
  2. **`Mirrored`** — the invariant: the line on the screen is the line in the buffer, which holds no newline and no NUL.
  3. **`screen_shows_line`** — under which keystrokes it holds (`Legible`).  `^T` and `^E` show a character and store none
     (`shown_not_stored`), and TAB shows the command it has found and does not store it.
-/
import Mathlib
import Xv6.Console.Buffer
import Xv6.Console.Strings

namespace Xv6.Console

open Machines Naps Rings
open Function (update update_self update_of_ne)

def BACKSPACE : BitVec 32 := 0x100

/-- A `char` that is passed as an `int`. -/
def ofChar (b : UInt8) : BitVec 32 := b.toBitVec.signExtend 32

/-- `consputc`: what is shown of an `int` is its low byte. -/
def consputc (shown : List UInt8) (c : BitVec 32) : List UInt8 :=
  if c = BACKSPACE then shown.dropLast else shown ++ [UInt8.ofBitVec (c.setWidth 8)]

namespace Input

variable (s : Input)

/-- The loop that kills the line calls `consputc(BACKSPACE)` each time that it counts `e` down. -/
def backspaces : List (BitVec 32) := List.replicate (s.e - s.erase.e).toNat BACKSPACE

/-- `consputc(a[i])` for all `i < n` -/
def puts (a : Chars) (n : Nat) : List (BitVec 32) := (List.range n).map fun i => ofChar (a i)

/-- What `consputc` is called with, for one key. -/
def echo (k : Key) : List (BitVec 32) :=
  if k.c = C 'N' then s.backspaces ++ puts (s.nonDigits k.mem).1 (s.nonDigits k.mem).2
  else if k.c = C 'R' then s.backspaces ++ puts (s.reversed k.mem).1 (s.reversed k.mem).2
  else if k.c = C 'T' then [97 + s.w]
  else if k.c = C 'E' then [97 + (s.e + 1)]
  else if k.c = C 'P' then []
  else if k.c = C 'U' then s.backspaces
  else if k.c = C 'H' ∨ k.c = del then (if s.e ≠ s.w then [BACKSPACE] else [])
  else if k.c = tab then s.backspaces ++ puts s.complete.completeResult (strlen s.complete.completeResult)
  else if k.c ≠ 0 ∧ (s.e - s.r).toNat < INPUT_BUF then
    [(if k.c = carriageReturn then newline else k.c).toBitVec.setWidth 32]
  else []

end Input

/-- Is Enter pressed? -/
def Key.isEnter (k : Key) : Bool := k.c = newline || k.c = carriageReturn

/-- The console's input, and what is on the screen. -/
structure Screen where
  input : Input
  /-- The line as it is displayed -/
  shown : List UInt8
  /-- History: the lines, as they were displayed when they were committed -/
  entered : List (List UInt8)
  /-- History: what was in the buffer when Enter was pressed, the newest first -/
  lines : List (List UInt8)

namespace Screen

/-- One key, and whether it commits the line. -/
def key (s : Screen) (k : Key) : Screen × Bool :=
  let shown := (s.input.echo k).foldl consputc s.shown
  match s.input.key k with
  | (t, true) => (⟨t, [], s.entered ++ [shown], if k.isEnter then s.input.line :: s.lines else s.lines⟩, true)
  | (t, false) => (⟨t, shown, s.entered, s.lines⟩, false)

end Screen

/-- `consoleintr` and `consoleread`, with the screen. -/
def terminal : Code Call Local Screen Result where
  enter := console.enter
  turn
    | .intr [] dump, s => .stop s (.intr dump)
    | .intr (k :: keys) dump, s =>
      match s.key k with
      | (t, true) => .wake (.intr keys (dump || k.c = C 'P')) t
      | (t, false) => .go (.intr keys (dump || k.c = C 'P')) t
    | .read target n dst, s => (readTurn target n dst s.input).map fun t => { s with input := t }
  fail := console.fail
  first := ⟨console.first, [], [], []⟩

/-! ## What is shown -/

theorem ofChar_ne (b : UInt8) : ofChar b ≠ BACKSPACE := by
  obtain ⟨b⟩ := b
  revert b
  decide

theorem low_ofChar (b : UInt8) : UInt8.ofBitVec ((ofChar b).setWidth 8) = b := by
  obtain ⟨b⟩ := b
  revert b
  decide

/-- What `getc` has returned is shown. -/
theorem consputc_key (l : List UInt8) (c : UInt8) : consputc l (c.toBitVec.setWidth 32) = l ++ [c] := by
  have hkey : c.toBitVec.setWidth 32 ≠ BACKSPACE ∧ UInt8.ofBitVec ((c.toBitVec.setWidth 32).setWidth 8) = c := by
    obtain ⟨c⟩ := c
    revert c
    decide
  rw [consputc, if_neg hkey.1, hkey.2]

theorem foldl_backspaces (n : Nat) (l : List UInt8) :
    (List.replicate n BACKSPACE).foldl consputc l = l.take (l.length - n) := by
  induction n generalizing l with
  | zero => simp
  | succ n ih =>
    rw [List.replicate_succ, List.foldl_cons, ih, consputc, if_pos rfl, List.length_dropLast, List.dropLast_eq_take,
      List.take_take]
    congr 1
    omega

namespace Input

variable {s : Input}

theorem foldl_puts (a : Chars) (n : Nat) (l : List UInt8) :
    (puts a n).foldl consputc l = l ++ (List.range n).map a := by
  induction n with
  | zero => simp [puts]
  | succ n ih =>
    have hlast : puts a (n + 1) = puts a n ++ [ofChar (a n)] := by
      rw [puts, puts, List.range_succ, List.map_append, List.map_singleton]
    rw [hlast, List.foldl_append, ih, List.foldl_cons, List.foldl_nil, consputc, if_neg (ofChar_ne _), low_ofChar,
      List.range_succ, List.map_append, List.map_singleton, List.append_assoc]

/-! ## What a key does to the line -/

theorem line_of_eq (h : s.e = s.w) : s.line = [] := by
  rw [← List.length_eq_zero_iff, length_line, h, BitVec.sub_self]
  rfl

theorem line_congr {t : Input} (hbuf : t.buf = s.buf) (hw : t.w = s.w) (he : t.e = s.e) : t.line = s.line := by
  rw [line_eq, line_eq, hbuf, hw, he]

/-- The line is killed, and with it what is shown. -/
theorem foldl_kill (hline : newline ∉ s.line) : s.backspaces.foldl consputc s.line = [] := by
  rw [backspaces, foldl_backspaces, erase_e hline, length_line, Nat.sub_self, List.take_zero]

theorem retype_buf (s : Input) (newBuf : Chars) {idx : Nat} (hidx : idx ≤ INPUT_BUF) :
    ∀ i < idx, (s.retype newBuf idx).buf ((s.w.toNat + i) % INPUT_BUF) = newBuf i := by
  induction idx with
  | zero => exact fun i hi => absurd hi (Nat.not_lt_zero i)
  | succ idx ih =>
    intro i hi
    have hw : (s.retype newBuf idx).w = s.w := retype_w s newBuf idx
    have hcell : (s.w + BitVec.ofNat 32 idx).toNat % INPUT_BUF = (s.w.toNat + idx) % INPUT_BUF := by
      rw [BitVec.toNat_add, BitVec.toNat_ofNat, Nat.add_mod_mod, Nat.mod_mod_of_dvd _ buf_dvd]
    rw [retype_succ]
    show update _ _ _ _ = _
    rw [hw, hcell]
    rcases Nat.lt_or_ge i idx with hlt | hge
    · rw [update_of_ne (Ring.cell_ne (by omega) (by omega) hlt.ne)]
      exact ih (by omega) i hlt
    · rw [show i = idx by omega, update_self]

/-- `^N` and `^R`: what is typed in again is the line. -/
theorem retype_line (hline : newline ∉ s.line) (newBuf : Chars) {idx : Nat} (hidx : idx ≤ INPUT_BUF) :
    (s.erase.retype newBuf idx).line = (List.range idx).map newBuf := by
  have hw : (s.erase.retype newBuf idx).w = s.w := retype_w s.erase newBuf idx
  have he : (s.erase.retype newBuf idx).e = s.w + BitVec.ofNat 32 idx := by
    rw [retype_e, erase_e hline]
  have hcount : ((s.erase.retype newBuf idx).e - (s.erase.retype newBuf idx).w).toNat = idx := by
    rw [hw, he]
    replace hidx : idx ≤ 128 := hidx
    bv_omega
  rw [line_eq, hcount, hw]
  refine List.map_congr_left fun i hi => ?_
  exact retype_buf s.erase newBuf hidx i (List.mem_range.mp hi)

/-- The bytes that are collected are appended, as long as there is room. -/
theorem foldl_collect (bs : List UInt8) (x : Chars × Nat) (h : x.2 + bs.length ≤ INPUT_BUF) :
    (List.range (bs.foldl collect x).2).map (bs.foldl collect x).1 = (List.range x.2).map x.1 ++ bs := by
  induction bs generalizing x with
  | nil => simp
  | cons b bs ih =>
    rw [List.length_cons] at h
    have hone : (List.range (collect x b).2).map (collect x b).1 = (List.range x.2).map x.1 ++ [b] := by
      rw [collect, Nat.mod_eq_of_lt (by omega), List.range_succ, List.map_append, List.map_singleton]
      dsimp only
      rw [update_self]
      congr 1
      exact List.map_congr_left fun i hi => update_of_ne (List.mem_range.mp hi).ne _ _
    rw [List.foldl_cons, ih _ (by simp only [collect]; omega), hone, List.append_assoc, List.singleton_append]

/-- The indices of the line are not negative as `int`s: the line does not go over the end of the `uint`s, and lies below
    `2 ^ 31`, or has one character, in cell 0. -/
def Indexed (s : Input) : Prop :=
  s.w.toNat ≤ s.e.toNat ∧
    (s.e.toNat ≤ 2 ^ 31 + 1 ∨ s.e = s.w ∨ (s.e.toNat = s.w.toNat + 1 ∧ s.w.toNat % INPUT_BUF = 0))

theorem ofInt_cases (i : BitVec 32) : (i.toNat < 2 ^ 31 ∧ ofInt i = (i.toNat % 128 : Nat)) ∨
    (2 ^ 31 ≤ i.toNat ∧ ofInt i = -((2 ^ 32 - i.toNat) % 128 : Nat)) := by
  have hint := i.toInt_eq_toNat_cond
  have hlt := i.isLt
  by_cases h : i.toNat < 2 ^ 31
  · rw [if_pos (by omega)] at hint
    refine .inl ⟨h, ?_⟩
    rw [ofInt, hint, Int.tmod_eq_emod_of_nonneg (by omega)]
    rfl
  · rw [if_neg (by omega)] at hint
    refine .inr ⟨Nat.le_of_not_lt h, ?_⟩
    rw [ofInt, hint, show (i.toNat : Int) - (2 ^ 32 : Nat) = -((2 ^ 32 - i.toNat : Nat) : Int) by omega, Int.neg_tmod,
      Int.tmod_eq_emod_of_nonneg (by omega)]
    rfl

theorem ofInt_nonneg_iff {i : BitVec 32} : 0 ≤ ofInt i ↔ i.toNat ≤ 2 ^ 31 ∨ i.toNat % 128 = 0 := by
  have := ofInt_cases i
  have := i.isLt
  omega

theorem ofInt_eq {i : BitVec 32} (h : 0 ≤ ofInt i) : ofInt i = (i.toNat % INPUT_BUF : Nat) := by
  show ofInt i = (i.toNat % 128 : Nat)
  have := ofInt_cases i
  have := i.isLt
  omega

theorem atInt_eq (s : Input) (m : Memory) {i : BitVec 32} (h : 0 ≤ ofInt i) :
    s.atInt m i = s.buf (i.toNat % INPUT_BUF) := by
  rw [atInt, if_pos h, ofInt_eq h, Int.toNat_natCast]

theorem toNat_upTo {k : Nat} (hle : s.w.toNat ≤ s.e.toNat) (hk : k < s.e.toNat - s.w.toNat) :
    (s.w + BitVec.ofNat 32 k).toNat = s.w.toNat + k := by
  bv_omega

/-- That is what has to be asked for. -/
theorem indexed_iff : s.Indexed ↔ s.w.toNat ≤ s.e.toNat ∧ ∀ i ∈ s.upTo s.e, 0 ≤ ofInt i := by
  refine and_congr_right fun hle => ?_
  have hall : (∀ i ∈ s.upTo s.e, 0 ≤ ofInt i) ↔ ∀ k < s.e.toNat - s.w.toNat,
      s.w.toNat + k ≤ 2 ^ 31 ∨ (s.w.toNat + k) % 128 = 0 := by
    simp only [upTo, List.mem_map, List.mem_range, forall_exists_index, and_imp, forall_apply_eq_imp_iff₂,
      ofInt_nonneg_iff]
    exact forall₂_congr fun k hk => by rw [toNat_upTo hle hk]
  rw [hall]
  constructor
  · rintro (hhigh | heq | ⟨hone, hcell⟩) k hk
    · omega
    · rw [heq] at hk
      omega
    · replace hcell : s.w.toNat % 128 = 0 := hcell
      omega
  · -- the last two characters cannot both be in cell 0
    intro h
    by_contra hnot
    simp only [not_or, not_and] at hnot
    have hcell : s.e.toNat = s.w.toNat + 1 → ¬ s.w.toNat % 128 = 0 := hnot.2.2
    have hne : s.e.toNat ≠ s.w.toNat := fun heq => hnot.2.1 (BitVec.eq_of_toNat_eq heq)
    have hlast := h (s.e.toNat - s.w.toNat - 1) (by omega)
    have hbefore := h (s.e.toNat - s.w.toNat - 2)
    omega

theorem Indexed.distance (h : s.Indexed) : (s.e - s.w).toNat = s.e.toNat - s.w.toNat := by
  have hle := h.1
  bv_omega

theorem upTo_line (h : s.Indexed) (m : Memory) : (s.upTo s.e).map (s.atInt m) = s.line := by
  obtain ⟨hle, hall⟩ := indexed_iff.mp h
  rw [line_eq, upTo, List.map_map, h.distance]
  refine List.map_congr_left fun k hk => ?_
  rw [Function.comp_apply, atInt_eq s m (hall _ (List.mem_map.mpr ⟨k, hk, rfl⟩)), toNat_upTo hle (List.mem_range.mp hk)]

/-- `^R` goes over the line from its end. -/
theorem downFrom_eq (hle : s.w.toNat ≤ s.e.toNat) : s.downFrom = (s.upTo s.e).reverse := by
  refine List.ext_getElem (by simp [Input.downFrom, Input.upTo]) fun k hk hk' => ?_
  have hlt : k < s.e.toNat - s.w.toNat := by simpa [Input.downFrom] using hk
  simp only [Input.downFrom, Input.upTo, List.getElem_reverse, List.getElem_map, List.getElem_range, List.length_map,
    List.length_range]
  bv_omega

theorem downFrom_line (h : s.Indexed) (m : Memory) : s.downFrom.map (s.atInt m) = s.line.reverse := by
  rw [downFrom_eq h.1, List.map_reverse, upTo_line h]

/-- `^N`: what is left of a line -/
def isNoDigit (b : UInt8) : Bool := b > 57 || b < 48

/-- **`^N` leaves what is no digit.** -/
theorem nonDigits_line (h : s.Indexed) (hlen : s.line.length ≤ INPUT_BUF) (m : Memory) :
    (List.range (s.nonDigits m).2).map (s.nonDigits m).1 = s.line.filter isNoDigit := by
  have hfold : s.nonDigits m = (s.line.filter isNoDigit).foldl collect (m.newBuf, 0) := by
    rw [← upTo_line h m, List.foldl_filter, List.foldl_map, nonDigits]
    simp only [isNoDigit, Bool.or_eq_true, decide_eq_true_eq]
  have hle : (s.line.filter isNoDigit).length ≤ s.line.length := List.length_filter_le _ _
  rw [hfold, foldl_collect _ _ (by omega)]
  rfl

/-- **`^R` reverses the line.** -/
theorem reversed_line (h : s.Indexed) (hlen : s.line.length ≤ INPUT_BUF) (m : Memory) :
    (List.range (s.reversed m).2).map (s.reversed m).1 = s.line.reverse := by
  have hfold : s.reversed m = s.line.reverse.foldl collect (m.newBuf, 0) := by
    rw [← downFrom_line h m, List.foldl_map, reversed]
  rw [hfold, foldl_collect _ _ (by rw [List.length_reverse]; omega)]
  rfl

theorem text_eq (hnul : 0 ∉ s.line) : s.text = s.line := by
  refine List.takeWhile_eq_self_iff.mpr fun b hb => decide_eq_true ?_
  rintro rfl
  exact hnul hb

/-- **TAB keeps the line if no saved command goes on after it.** -/
theorem complete_line (hline : newline ∉ s.line) (hnul : 0 ∉ s.line) (hlen : s.line.length < INPUT_BUF)
    (honly : ∀ i < 15, s.line <+: cstring (s.cmdHistory i) → cstring (s.cmdHistory i) = s.line) :
    s.complete.e = s.w ∧ cstring s.complete.completeResult = s.line := by
  rw [length_line] at hlen
  obtain ⟨a, hcomplete, ha⟩ := complete_eq hline hlen
  rw [text_eq hnul] at ha
  rw [hcomplete]
  dsimp only
  exact ⟨rfl, (search_of_only _ _ (by rw [ha]; exact honly)).trans ha⟩

/-- A character is stored at the end of the line. -/
theorem store_line (c : UInt8) (hlen : s.line.length < INPUT_BUF) : (s.store c).line = s.line ++ [c] := by
  rw [length_line] at hlen
  exact Ring.contents_push (r := (⟨s.buf, s.w, s.e⟩ : Ring 32 INPUT_BUF UInt8)) buf_dvd (by decide) hlen c

/-- `^H`: the last character is gone. -/
theorem line_back (h : s.e ≠ s.w) : line { s with e := s.e - 1 } = s.line.dropLast := by
  have hcount : (s.e - 1 - s.w).toNat + 1 = (s.e - s.w).toNat := by bv_omega
  rw [line_eq s, ← hcount, List.range_succ, List.map_append, List.map_singleton, List.dropLast_concat]
  rfl

/-- **The command that is saved is the line.** -/
theorem command_line (h : s.Indexed) (hnul : 0 ∉ s.line) (hlen : s.line.length < INPUT_BUF) (c : UInt8) (m : Memory) :
    cstring ((s.store c).command m) = s.line := by
  rw [length_line] at hlen
  have hend : ((s.e + 1 - s.w - 1).toNat % INPUT_BUF) = (s.e - s.w).toNat := by
    rw [show s.e + 1 - s.w - 1 = s.e - s.w by bv_omega, Nat.mod_eq_of_lt hlen]
  have hfold : ((s.store c).upTo ((s.store c).e - 1)).foldl (fun b i => update b (i - (s.store c).w).toNat
      ((s.store c).atInt m i)) m.buffer = (List.range (s.e - s.w).toNat).foldl (fun b k => update b k
      (s.buf ((s.w.toNat + k) % INPUT_BUF))) m.buffer := by
    show ((List.range ((s.e + 1 - 1).toNat - s.w.toNat)).map fun k => s.w + BitVec.ofNat 32 k).foldl _ _ = _
    rw [List.foldl_map, show s.e + 1 - 1 = s.e by bv_omega, h.distance]
    refine List.foldl_ext _ _ _ fun b k hk => ?_
    have hk' := List.mem_range.mp hk
    obtain ⟨hle, hall⟩ := indexed_iff.mp h
    have hidx : (s.w + BitVec.ofNat 32 k - (s.store c).w).toNat = k := by
      show (s.w + BitVec.ofNat 32 k - s.w).toNat = k
      bv_omega
    have hne : (s.w.toNat + k) % INPUT_BUF ≠ s.e.toNat % INPUT_BUF := by
      rw [show s.e.toNat = s.w.toNat + (s.e - s.w).toNat by rw [h.distance]; omega]
      exact Ring.cell_ne (by rw [h.distance] at hlen; omega) hlen (by rw [h.distance]; omega)
    rw [hidx, atInt_eq _ m (hall _ (List.mem_map.mpr ⟨k, hk, rfl⟩)), toNat_upTo hle hk']
    congr 1
    exact update_of_ne hne _ _
  rw [command, hfold]
  show cstring (update _ ((s.e + 1 - s.w - 1).toNat % INPUT_BUF) 0) = _
  rw [hend]
  rw [cstring_taken s m.buffer hlen, text_eq hnul]

/-! ## The keys -/

/-- When a key leaves the line as it is shown. -/
structure Legible (s : Input) (k : Key) : Prop where
  /-- `^T` and `^E` are not struck -/
  counted : k.c ≠ C 'T' ∧ k.c ≠ C 'E'
  /-- TAB: no saved command goes on after the line -/
  completed : k.c = tab → ∀ i < 15, s.line <+: cstring (s.cmdHistory i) → cstring (s.cmdHistory i) = s.line
  /-- `^N`, `^R`, Enter: the indices have not become negative -/
  indexed : k.c = C 'N' ∨ k.c = C 'R' ∨ k.isEnter = true → s.Indexed

/-- A line that is being edited. -/
structure Pending (s : Input) : Prop where
  sound : s.Sound
  newline : newline ∉ s.line
  nul : 0 ∉ s.line
  /-- The line that fills the buffer has been committed. -/
  room : s.e ≠ s.w → (s.e - s.r).toNat < INPUT_BUF

variable {t u : Input} {k : Key}

theorem Pending.length_lt (h : Pending s) : s.line.length < INPUT_BUF := by
  rw [length_line]
  by_cases he : s.e = s.w
  · rw [he, BitVec.sub_self]
    decide
  · have hlow := h.sound.low
    have hroom := h.room he
    replace hroom : (s.e - s.r).toNat < 128 := hroom
    show _ < 128
    bv_omega

/-- An edit that makes the line no longer. -/
theorem Pending.edit (h : Pending s) (hk : Kept s u) (hle : u.line.length ≤ s.line.length)
    (hmem : ∀ b ∈ u.line, b ∈ s.line) : Pending u where
  sound := h.sound.kept hk
  newline hu := h.newline (hmem _ hu)
  nul hu := h.nul (hmem _ hu)
  room hne := by
    rw [length_line, length_line] at hle
    have hw := hk.w
    have hr := hk.r
    have hlow := h.sound.low
    have hlow' := hk.low
    rw [hw, hr] at hlow'
    rw [hw] at hle hne
    rw [hr]
    have he : s.e ≠ s.w := by
      rintro he
      rw [he, BitVec.sub_self] at hle
      bv_omega
    have hroom := h.room he
    refine lt_of_le_of_lt ?_ hroom
    bv_omega

theorem Pending.commit (h : Sound u) : Pending u.commit where
  sound := h.commit
  newline := by rw [line_of_eq rfl]; exact List.not_mem_nil
  nul := by rw [line_of_eq rfl]; exact List.not_mem_nil
  room hne := absurd rfl hne

/-- `^N` and `^R`: the line is killed and typed in again, on the screen as in the buffer. -/
theorem Pending.retyped (h : Pending s) {newBuf : Chars} {idx : Nat} (hidx : idx ≤ (s.e - s.w).toNat)
    (hmem : ∀ b ∈ (List.range idx).map newBuf, b ∈ s.line) :
    ∃ u, Kept s u ∧ (s.backspaces ++ puts newBuf idx).foldl consputc s.line = u.line ∧ Pending u ∧
      s.erase.retype newBuf idx = u := by
  have hlen := h.length_lt
  have hkept := kept_retype h.sound.low h.sound.high h.newline newBuf hidx
  rw [length_line] at hlen
  have hline := retype_line h.newline newBuf (hidx.trans hlen.le)
  refine ⟨_, hkept, ?_, h.edit hkept ?_ ?_, rfl⟩
  · rw [List.foldl_append, foldl_kill h.newline, foldl_puts, List.nil_append, hline]
  · rw [hline, List.length_map, List.length_range, length_line]
    exact hidx
  · rw [hline]
    exact hmem

/-- TAB: what is shown, and counted, is the line that was there. -/
theorem Pending.completed (h : Pending s)
    (honly : ∀ i < 15, s.line <+: cstring (s.cmdHistory i) → cstring (s.cmdHistory i) = s.line) :
    ∃ u, Kept s u ∧ (s.backspaces ++ puts s.complete.completeResult (strlen s.complete.completeResult)).foldl
      consputc s.line = u.line ∧ Pending u ∧
      { s.complete with e := s.complete.e + BitVec.ofNat 32 (strlen s.complete.completeResult) } = u := by
  obtain ⟨he, hstring⟩ := complete_line h.newline h.nul h.length_lt honly
  have hlen : strlen s.complete.completeResult = (s.e - s.w).toNat := by
    rw [← length_cstring, hstring, length_line]
  have hback : s.complete.e + BitVec.ofNat 32 (strlen s.complete.completeResult) = s.e := by
    rw [he, hlen, BitVec.ofNat_toNat, BitVec.setWidth_eq, BitVec.add_comm, BitVec.sub_add_cancel]
  have hfits : (s.complete.e - s.r).toNat + strlen s.complete.completeResult ≤ INPUT_BUF := by
    rw [he, hlen]
    have hlow := h.sound.low
    refine le_trans (le_of_eq ?_) h.sound.high
    bv_omega
  have hkept := kept_complete h.sound.low hfits
  have hline := line_congr (t := { s.complete with
    e := s.complete.e + BitVec.ofNat 32 (strlen s.complete.completeResult) }) (s := s) rfl rfl hback
  refine ⟨_, hkept, ?_, h.edit hkept (by rw [hline]) fun b hb => by rwa [hline] at hb, rfl⟩
  rw [List.foldl_append, foldl_kill h.newline, foldl_puts, List.nil_append, hline]
  exact hstring

/-- `^H` -/
theorem Pending.back (h : Pending s) (hne : s.e ≠ s.w) :
    Kept s { s with e := s.e - 1 } ∧ Pending { s with e := s.e - 1 } := by
  have hlow := h.sound.low
  have hback : (s.w - s.r).toNat ≤ (s.e - 1 - s.r).toNat ∧ (s.e - 1 - s.r).toNat ≤ (s.e - s.r).toNat := by bv_omega
  have hkept : Kept s { s with e := s.e - 1 } := .edit rfl rfl rfl rfl rfl hback.1 (hback.2.trans h.sound.high)
  refine ⟨hkept, h.edit hkept ?_ ?_⟩
  · rw [line_back hne, List.length_dropLast]
    exact Nat.sub_le _ _
  · rw [line_back hne]
    exact fun b hb => List.mem_of_mem_dropLast hb

/-- **What a key does to the line, it shows**, and it commits the line or does not. -/
theorem Pending.key (h : Pending s) (hk : Legible s k) : ∃ u, Kept s u ∧ (s.echo k).foldl consputc s.line = u.line ∧
      (s.key k = (u, false) ∧ Pending u ∨ s.key k = (u.commit, true)) := by
  have hsame : Kept s s := .edit rfl rfl rfl rfl rfl h.sound.low h.sound.high
  have hlen := h.length_lt
  unfold Input.key echo
  by_cases hN : k.c = C 'N'
  · rw [if_pos hN, if_pos hN]
    have hline := nonDigits_line (hk.indexed (.inl hN)) hlen.le k.mem
    obtain ⟨u, hkept, hshow, hu, rfl⟩ := h.retyped (s.nonDigits_le k.mem)
      (by rw [hline]; exact fun b hb => (List.mem_filter.mp hb).1)
    exact ⟨_, hkept, hshow, .inl ⟨rfl, hu⟩⟩
  rw [if_neg hN, if_neg hN]
  by_cases hR : k.c = C 'R'
  · rw [if_pos hR, if_pos hR]
    have hline := reversed_line (hk.indexed (.inr (.inl hR))) hlen.le k.mem
    obtain ⟨u, hkept, hshow, hu, rfl⟩ := h.retyped (s.reversed_le k.mem)
      (by rw [hline]; exact fun b hb => List.mem_reverse.mp hb)
    exact ⟨_, hkept, hshow, .inl ⟨rfl, hu⟩⟩
  rw [if_neg hR, if_neg hR, if_neg (not_or.mpr hk.counted), if_neg hk.counted.1, if_neg hk.counted.2]
  by_cases hP : k.c = C 'P'
  · rw [if_pos hP, if_pos hP]
    exact ⟨s, hsame, rfl, .inl ⟨rfl, h⟩⟩
  rw [if_neg hP, if_neg hP]
  by_cases hU : k.c = C 'U'
  · rw [if_pos hU, if_pos hU]
    have hkept := kept_erase h.sound.low h.sound.high
    have hline : s.erase.line = [] := line_of_eq (erase_e h.newline)
    refine ⟨_, hkept, ?_, .inl ⟨rfl, h.edit hkept ?_ ?_⟩⟩
    · rw [foldl_kill h.newline, hline]
    · rw [hline]
      exact Nat.zero_le _
    · rw [hline]
      exact fun b hb => absurd hb List.not_mem_nil
  rw [if_neg hU, if_neg hU]
  by_cases hH : k.c = C 'H' ∨ k.c = del
  · rw [if_pos hH, if_pos hH]
    by_cases hne : s.e ≠ s.w
    · rw [if_pos hne, if_pos hne]
      obtain ⟨hkept, hu⟩ := h.back hne
      exact ⟨_, hkept, (line_back hne).symm, .inl ⟨rfl, hu⟩⟩
    · rw [if_neg hne, if_neg hne]
      exact ⟨s, hsame, rfl, .inl ⟨rfl, h⟩⟩
  rw [if_neg hH, if_neg hH]
  by_cases ht : k.c = tab
  · rw [if_pos ht, if_pos ht]
    obtain ⟨u, hkept, hshow, hu, rfl⟩ := h.completed (hk.completed ht)
    exact ⟨_, hkept, hshow, .inl ⟨rfl, hu⟩⟩
  rw [if_neg ht, if_neg ht]
  by_cases hroom : k.c ≠ 0 ∧ (s.e - s.r).toNat < INPUT_BUF
  · rw [if_pos hroom, if_pos hroom]
    dsimp only
    have hc : (if k.c = carriageReturn then Xv6.Console.newline else k.c) ≠ 0 := by
      split
      · decide
      · exact hroom.1
    generalize (if k.c = carriageReturn then Xv6.Console.newline else k.c) = c at hc ⊢
    have hstore := kept_store h.sound.low c hroom.2
    have hline := store_line c hlen
    have hshow : [c.toBitVec.setWidth 32].foldl consputc s.line = (s.store c).line := by
      rw [List.foldl_cons, List.foldl_nil, consputc_key, hline]
    split
    · rename_i hcommit
      by_cases hn : c = Xv6.Console.newline
      · rw [if_pos hn]
        refine ⟨{ s.store c with cmdHistory := saveCommand (s.store c).cmdHistory ((s.store c).command k.mem) },
          ⟨hstore.r, hstore.w, hstore.low, hstore.high, hstore.data, hstore.committed, hstore.consumed⟩, ?_, .inr rfl⟩
        rw [hshow]
        exact line_congr rfl rfl rfl
      · rw [if_neg hn]
        exact ⟨_, hstore, hshow, .inr rfl⟩
    · rename_i hopen
      rw [not_or, not_or] at hopen
      refine ⟨_, hstore, hshow, .inl ⟨rfl, h.sound.kept hstore, ?_, ?_, fun _ => ?_⟩⟩
      · rw [hline, List.mem_append, List.mem_singleton]
        exact not_or.mpr ⟨h.newline, fun heq => hopen.1 heq.symm⟩
      · rw [hline, List.mem_append, List.mem_singleton]
        exact not_or.mpr ⟨h.nul, fun heq => hc heq.symm⟩
      · refine lt_of_le_of_ne hstore.high fun hfull => hopen.2.2 ?_
        have hfull' : ((s.store c).e - (s.store c).r).toNat = 128 := hfull
        show (s.store c).e = (s.store c).r + 128#32
        bv_omega
  · rw [if_neg hroom, if_neg hroom]
    exact ⟨s, hsame, rfl, .inl ⟨rfl, h⟩⟩

/-- Enter, if there is room. -/
theorem key_enter (henter : k.isEnter = true) (hroom : (s.e - s.r).toNat < INPUT_BUF) :
    s.echo k = [newline.toBitVec.setWidth 32] ∧ s.key k = (commit { s.store newline with
      cmdHistory := saveCommand s.cmdHistory ((s.store newline).command k.mem) }, true) := by
  have hc : k.c = newline ∨ k.c = carriageReturn := by simpa [Key.isEnter] using henter
  unfold Input.key echo
  rcases hc with hc | hc <;> rw [hc] <;> simp +decide only [hroom, if_true, if_false, true_or, true_and]
  · rfl
  · rfl

end Input

theorem cstring_saveCommand (history : Nat → Chars) (buffer : Chars) :
    cstring (saveCommand history buffer 0) = cstring buffer := by
  rw [saveCommand, update_self, cstring_copyString]

/-! ## The invariant -/

namespace Screen

variable {s : Screen} {k : Key}

/-- What is on the screen is what is in the buffer. -/
structure Mirrored (s : Screen) : Prop where
  pending : s.input.Pending
  shown : s.shown = s.input.line
  entered : s.entered.flatten = s.input.committed

theorem Mirrored.key (h : Mirrored s) (hk : s.input.Legible k) : Mirrored (s.key k).1 := by
  obtain ⟨u, hkept, hshow, ⟨hkey, hu⟩ | hkey⟩ := h.pending.key hk
  · simp only [Screen.key, hkey]
    refine ⟨hu, ?_, ?_⟩
    · rw [h.shown]
      exact hshow
    · rw [hkept.committed]
      exact h.entered
  · simp only [Screen.key, hkey]
    refine ⟨.commit (h.pending.sound.kept hkept), (Input.line_of_eq rfl).symm, ?_⟩
    show (s.entered ++ [_]).flatten = u.committed ++ u.line
    rw [List.flatten_append, List.flatten_singleton, h.entered, h.shown, hshow, hkept.committed]

theorem Mirrored.read (h : Mirrored s) (hne : s.input.r ≠ s.input.w) : Mirrored { s with input := { s.input with
    r := s.input.r + 1, consumed := s.input.consumed ++ [s.input.byteAt s.input.r] } } where
  pending := {
    sound := h.pending.sound.read hne
    newline := h.pending.newline
    nul := h.pending.nul
    room hopen := by
      have hroom := h.pending.room hopen
      have hlow := h.pending.sound.low
      refine lt_trans ?_ hroom
      show (s.input.e - (s.input.r + 1)).toNat < _
      bv_omega }
  shown := h.shown
  entered := h.entered

/-- Enter commits the line that is shown, and saves it. -/
theorem Mirrored.enter (h : Mirrored s) (hk : s.input.Legible k) (henter : k.isEnter = true)
    (hroom : (s.input.e - s.input.r).toNat < INPUT_BUF) :
    (s.key k).1.entered = s.entered ++ [s.shown ++ [newline]] ∧ cstring ((s.key k).1.input.cmdHistory 0) = s.shown := by
  obtain ⟨hecho, hkey⟩ := Input.key_enter (s := s.input) henter hroom
  simp only [Screen.key, hkey, hecho]
  refine ⟨?_, ?_⟩
  · rw [List.foldl_cons, List.foldl_nil, consputc_key]
  · show cstring (saveCommand _ _ 0) = s.shown
    rw [cstring_saveCommand, h.shown]
    exact Input.command_line (hk.indexed (.inr (.inr henter))) h.pending.nul h.pending.length_lt newline k.mem

end Screen

/-! ## Runs -/

/-- The next key of an interrupt meets a condition. -/
def AtKey {π : Type} (P : Screen → Key → Prop) (S : St π Local Screen Result) (a : Label π Call) : Prop :=
  ∀ p k keys dump, a = .step p → S.pc p = .turn (.intr (k :: keys) dump) → P S.res k

section Runs

variable {π : Type} [DecidableEq π] {P : Screen → Key → Prop} {S T : St π Local Screen Result}

/-- What every key and every byte that is read preserves holds in every state. -/
theorem terminal_invariant {I : Screen → Prop} (h0 : I terminal.first) (hkey : ∀ s k, P s k → I s → I (s.key k).1)
    (hread : ∀ s, s.input.r ≠ s.input.w → I s → I { s with input := { s.input with
      r := s.input.r + 1, consumed := s.input.consumed ++ [s.input.byteAt s.input.r] } })
    (h : terminal.machine.Reachable (AtKey P) S) : I S.res := by
  refine Code.resource_invariant h0 (fun S p l hc hpc hI => ?_) h
  cases l with
  | intr keys dump =>
    cases keys with
    | nil => exact hI
    | cons k keys =>
      have hk := hkey _ _ (hc p k keys dump rfl hpc) hI
      simp only [terminal]
      split
      · rename_i t ht
        rw [ht] at hk
        exact hk
      · rename_i t ht
        rw [ht] at hk
        exact hk
  | read target n dst =>
    simp only [terminal, readTurn]
    split
    · split
      · exact hI
      · rename_i hne
        split
        · split
          · exact hI
          · exact hread _ hne hI
        · split <;> exact hread _ hne hI
    · exact hI

theorem terminal_key {p : π} {k : Key} {keys : List Key} {dump : Bool} (hpc : S.pc p = .turn (.intr (k :: keys) dump))
    (hs : terminal.machine.step S (.step p) = some T) : T.res = (S.res.key k).1 := by
  rw [(Code.step_cases hs).res_turn hpc]
  simp only [terminal]
  split <;> rename_i hkey <;> rw [hkey] <;> rfl

theorem mirrored_reachable (h : terminal.machine.Reachable (AtKey fun s k => s.input.Legible k) S) :
    S.res.Mirrored := by
  refine terminal_invariant ⟨⟨⟨by decide, by decide, rfl⟩, ?_, ?_, ?_⟩, rfl, rfl⟩ (fun s k hk hs => hs.key hk)
    (fun s hne hs => hs.read hne) h
  · exact List.not_mem_nil
  · exact List.not_mem_nil
  · exact fun hne => absurd rfl hne

/-- **What is shown is what is submitted.**  For any keys and any interleaving with `consoleread`, if `^T` and `^E` are
    not struck, TAB only if no saved command goes on after the line, and `^N`, `^R` and Enter only as long as the indices
    are not negative `int`s: the line on the screen is the line in the buffer; what has been committed, and is consumed
    in that order, are the lines as they were on the screen; and Enter commits the line that is shown and saves it. -/
theorem screen_shows_line (S : St π Local Screen Result)
    (h : terminal.machine.Reachable (AtKey fun s k => s.input.Legible k) S) :
    S.res.shown = S.res.input.line ∧ S.res.entered.flatten = S.res.input.committed ∧
    S.res.input.consumed ++ S.res.input.unread = S.res.input.committed ∧
    ∀ p k keys dump T, S.pc p = .turn (.intr (k :: keys) dump) → k.isEnter = true →
      (S.res.input.e - S.res.input.r).toNat < INPUT_BUF → S.res.input.Legible k →
      terminal.machine.step S (.step p) = some T →
      T.res.entered = S.res.entered ++ [S.res.shown ++ [newline]] ∧
      cstring (T.res.input.cmdHistory 0) = S.res.shown := by
  have hS := mirrored_reachable h
  refine ⟨hS.shown, hS.entered, hS.pending.sound.fifo, fun p k keys dump T hpc henter hroom hk hs => ?_⟩
  rw [terminal_key hpc hs]
  exact hS.enter hk henter hroom

end Runs

/-! ## A line that is edited, and a character that is only shown -/

instance (s : Input) : Decidable s.Indexed := inferInstanceAs (Decidable (_ ∧ (_ ∨ _ ∨ (_ ∧ _))))

instance (s : Input) (k : Key) : Decidable (s.Legible k) :=
  decidable_of_iff ((k.c ≠ C 'T' ∧ k.c ≠ C 'E') ∧
      (k.c = tab → ∀ i < 15, s.line <+: cstring (s.cmdHistory i) → cstring (s.cmdHistory i) = s.line) ∧
      (k.c = C 'N' ∨ k.c = C 'R' ∨ k.isEnter = true → s.Indexed))
    ⟨fun h => ⟨h.1, h.2.1, h.2.2⟩, fun h => ⟨h.counted, h.completed, h.indexed⟩⟩

instance {π : Type} (P : Screen → Key → Prop) [∀ s k, Decidable (P s k)] (S : St π Local Screen Result)
    (a : Label π Call) : Decidable (AtKey P S a) := decidableAtKey (P S.res) S a

/-- `a`, `1`, `b`, `^N` and `^R` are typed. -/
def editing : List (Label (Fin 1) Call) :=
  .call 0 (.consoleintr (typed [97, 49, 98, C 'N', C 'R'])) :: List.replicate 6 (.step 0)

theorem screen_shows_line_editing : ∃ S : St (Fin 1) Local Screen Result, S.res.shown = [98, 97] ∧
    S.res.input.line = [98, 97] := by
  have hinit : (terminal.machine (π := Fin 1)).init terminal.start := rfl
  have hrun : (terminal.machine.runIf (AtKey fun s k => s.input.Legible k) (terminal.start (π := Fin 1)) editing).any
      (fun S => decide (S.res.shown = [98, 97])) = true := by decide +kernel
  obtain ⟨S, hreach, hshown⟩ := Machine.reachable_of_runIf hinit hrun
  exact ⟨S, hshown, (screen_shows_line S hreach).1 ▸ hshown⟩

/-- `^T` is struck: an `a` is shown, and the line is a NUL. -/
theorem shown_not_stored : ∃ S : St (Fin 1) Local Screen Result, terminal.machine.Reachable anyStep S ∧
    S.res.shown = [97] ∧ S.res.input.line = [0] := by
  have hinit : (terminal.machine (π := Fin 1)).init terminal.start := rfl
  have hrun : (terminal.machine.run (terminal.start (π := Fin 1))
      [.call 0 (.consoleintr (typed [C 'T'])), .step 0, .step 0]).any (fun S => decide
      (S.res.shown = [97] ∧ S.res.input.line = [0])) = true := by decide +kernel
  exact Machine.reachable_of_run hinit hrun

end Xv6.Console
