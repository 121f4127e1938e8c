/-
  EDITING A LINE — `^N` and `^R`, and the indices they and Enter compute.

  `^N` and `^R` copy the line out of the ring to `newBuf`, kill it as `^U` does, and type `newBuf` in again from `w` on.  The
  copy goes by an `int i`, the rest by `uint`s.

  1. **`Retyped`** — a key turns the line into another one, in the ring and on the screen, and touches nothing else.
     `Pending.nonDigits` and `Pending.reversed` say which one.
  2. **`line_transformations`** — for every state that is reached by keys that edit or enter a line, and by reads.
  3. **`indices_within`** — the indices themselves.  From `2 ^ 31` on, `i % INPUT_BUF` is negative, and a line that goes over
     the end of the `uint`s is not visited at all (`indices_outside`).
-/
import Mathlib
import Xv6.Console.Screen

namespace Xv6.Console

open Machines Naps Rings

variable {idx : Nat}

namespace Input

variable {s t u : Input} {k : Key} {l l' : List UInt8}

/-! ## The line is typed in again -/

/-- Key `k` turns the line into `l`, wherever on the screen it is shown. -/
structure Retyped (s : Input) (k : Key) (l : List UInt8) : Prop where
  /-- What is committed stays, and nothing is committed -/
  kept : Kept s (s.key k).1
  silent : (s.key k).2 = false
  pending : Pending (s.key k).1
  line : (s.key k).1.line = l
  shown : ∀ before, (s.echo k).foldl consputc (before ++ s.line) = before ++ l

/-- The line is killed, and what is shown before it stays. -/
theorem foldl_kill_after (hline : newline ∉ s.line) (before : List UInt8) :
    s.backspaces.foldl consputc (before ++ s.line) = before := by
  have hcount : (s.e - s.erase.e).toNat = s.line.length := by rw [erase_e hline, length_line]
  rw [backspaces, foldl_backspaces, hcount, List.length_append, Nat.add_sub_cancel, List.take_left]

/-- What `^N` and `^R` have in common: `newBuf` holds some of the characters of the line. -/
theorem Pending.retype (h : Pending s) {newBuf : Chars} (hidx : idx ≤ (s.e - s.w).toNat)
    (hmem : ∀ b ∈ (List.range idx).map newBuf, b ∈ s.line) (hkey : s.key k = (s.erase.retype newBuf idx, false))
    (hecho : s.echo k = s.backspaces ++ puts newBuf idx) : Retyped s k ((List.range idx).map newBuf) := by
  obtain ⟨u, hkept, -, hu, rfl⟩ := h.retyped hidx hmem
  have hlen := h.length_lt
  rw [length_line] at hlen
  refine ⟨?_, ?_, ?_, ?_, fun before => ?_⟩
  · rw [hkey]
    exact hkept
  · rw [hkey]
  · rw [hkey]
    exact hu
  · rw [hkey]
    exact retype_line h.newline newBuf (hidx.trans hlen.le)
  · rw [hecho, List.foldl_append, foldl_kill_after h.newline, foldl_puts]

/-- **`^N`** -/
theorem Pending.nonDigits (h : Pending s) (hi : s.Indexed) (hk : k.c = C 'N') :
    Retyped s k (s.line.filter isNoDigit) := by
  have hline := nonDigits_line hi h.length_lt.le k.mem
  rw [← hline]
  refine h.retype (s.nonDigits_le k.mem) ?_ ?_ ?_
  · rw [hline]
    exact fun b hb => (List.mem_filter.mp hb).1
  · rw [Input.key, if_pos hk]
  · rw [echo, if_pos hk]

/-- **`^R`** -/
theorem Pending.reversed (h : Pending s) (hi : s.Indexed) (hk : k.c = C 'R') : Retyped s k s.line.reverse := by
  have hline := reversed_line hi h.length_lt.le k.mem
  have hN : k.c ≠ C 'N' := by
    rw [hk]
    decide
  rw [← hline]
  refine h.retype (s.reversed_le k.mem) ?_ ?_ ?_
  · rw [hline]
    exact fun b hb => List.mem_reverse.mp hb
  · rw [Input.key, if_neg hN, if_pos hk]
  · rw [echo, if_neg hN, if_pos hk]

/-- A line that is no longer than before is where its indices are not negative. -/
theorem Retyped.indexed (h : Retyped s k l) (hi : s.Indexed) (hle : l.length ≤ s.line.length) :
    (s.key k).1.Indexed := by
  have hcount : ((s.key k).1.e - (s.key k).1.w).toNat ≤ (s.e - s.w).toNat := by
    rw [← length_line, ← length_line, h.line]
    exact hle
  rw [h.kept.w] at hcount
  obtain ⟨hlow, hhigh⟩ := hi
  rw [Indexed, h.kept.w]
  bv_omega

/-! ## Two keys, one after the other -/

section Twice

variable (h : Pending s) (hi : s.Indexed) {k₁ k₂ : Key}
include h hi

theorem Pending.reversed_nonDigits (h₁ : k₁.c = C 'N') (h₂ : k₂.c = C 'R') :
    ((s.key k₁).1.key k₂).1.line = (s.line.filter isNoDigit).reverse := by
  have hN := h.nonDigits hi h₁
  rw [(hN.pending.reversed (hN.indexed hi (List.length_filter_le _ _)) h₂).line, hN.line]

theorem Pending.nonDigits_reversed (h₁ : k₁.c = C 'R') (h₂ : k₂.c = C 'N') :
    ((s.key k₁).1.key k₂).1.line = s.line.reverse.filter isNoDigit := by
  have hR := h.reversed hi h₁
  rw [(hR.pending.nonDigits (hR.indexed hi (by rw [List.length_reverse])) h₂).line, hR.line]

theorem Pending.reversed_reversed (h₁ : k₁.c = C 'R') (h₂ : k₂.c = C 'R') : ((s.key k₁).1.key k₂).1.line = s.line := by
  have hR := h.reversed hi h₁
  rw [(hR.pending.reversed (hR.indexed hi (by rw [List.length_reverse])) h₂).line, hR.line, List.reverse_reverse]

theorem Pending.nonDigits_nonDigits (h₁ : k₁.c = C 'N') (h₂ : k₂.c = C 'N') :
    ((s.key k₁).1.key k₂).1.line = s.line.filter isNoDigit := by
  have hN := h.nonDigits hi h₁
  rw [(hN.pending.nonDigits (hN.indexed hi (List.length_filter_le _ _)) h₂).line, hN.line, List.filter_filter]
  simp only [Bool.and_self]

end Twice

/-- The counters are below `2 ^ 31`. -/
def Below (s : Input) : Prop := s.r.toNat < 2 ^ 31 ∧ s.w.toNat < 2 ^ 31 ∧ s.e.toNat < 2 ^ 31

theorem Sound.indexed (h : Sound s) (hb : s.Below) : s.Indexed := by
  obtain ⟨hr, hw, he⟩ := hb
  have hlow := h.low
  have hhigh : (s.e - s.r).toNat ≤ 128 := h.high
  refine ⟨?_, .inl (by omega)⟩
  bv_omega

end Input

/-! ## Runs -/

/-- Printable characters, backspace, `^U`, `^N`, `^R` and Enter -/
def Key.isPlain (k : Key) : Bool :=
  (32 ≤ k.c && k.c ≤ 126) || k.c = C 'H' || k.c = del || k.c = C 'U' || k.c = C 'N' || k.c = C 'R' || k.isEnter

/-- The key edits or enters the line, and where it takes the counters for `int`s they are below `2 ^ 31`. -/
def Ordinary (s : Screen) (k : Key) : Prop :=
  k.isPlain = true ∧ (k.c = C 'N' ∨ k.c = C 'R' ∨ k.isEnter = true → s.input.Below)

theorem Key.isPlain_ne {k : Key} (h : k.isPlain = true) : k.c ≠ C 'T' ∧ k.c ≠ C 'E' ∧ k.c ≠ tab := by
  rw [Key.isPlain, Key.isEnter] at h
  refine ⟨?_, ?_, ?_⟩
  · rintro hc
    rw [hc] at h
    revert h
    decide
  · rintro hc
    rw [hc] at h
    revert h
    decide
  · rintro hc
    rw [hc] at h
    revert h
    decide

theorem Ordinary.legible {s : Screen} {k : Key} (h : Ordinary s k) (hs : s.input.Sound) : s.input.Legible k where
  counted := ⟨(Key.isPlain_ne h.1).1, (Key.isPlain_ne h.1).2.1⟩
  completed ht := absurd ht (Key.isPlain_ne h.1).2.2
  indexed hk := hs.indexed (h.2 hk)

section Runs

variable {π : Type} [DecidableEq π] {S : St π Local Screen Result}

theorem mirrored_of_ordinary (h : terminal.machine.Reachable (AtKey Ordinary) S) : S.res.Mirrored := by
  refine terminal_invariant ⟨⟨⟨by decide, by decide, rfl⟩, ?_, ?_, ?_⟩, rfl, rfl⟩
    (fun s k hk hs => hs.key (hk.legible hs.pending.sound)) (fun s hne hs => hs.read hne) h
  · exact List.not_mem_nil
  · exact List.not_mem_nil
  · exact fun hne => absurd rfl hne

/-- **The transformations of a line.**  In every state that is reached by keys that edit or enter a line and by reads, with
    the counters below `2 ^ 31`: `^N` leaves of the line what is no digit and `^R` reverses it; both leave `r`, `w` and the
    bytes between them, keep the bound of the buffer, and what they send to the screen turns the line as it is displayed,
    after anything, into the new one.  So `^R` twice is the line, `^N` twice is `^N`, and the order of the two is
    indifferent. -/
theorem line_transformations (S : St π Local Screen Result) (h : terminal.machine.Reachable (AtKey Ordinary) S)
    (hb : S.res.input.Below) :
    (∀ k, k.c = C 'N' → (S.res.key k).1.input.line = S.res.input.line.filter Input.isNoDigit) ∧
    (∀ k, k.c = C 'R' → (S.res.key k).1.input.line = S.res.input.line.reverse) ∧ (∀ k, k.c = C 'N' ∨ k.c = C 'R' →
      (S.res.key k).1.input.r = S.res.input.r ∧ (S.res.key k).1.input.w = S.res.input.w ∧
      (S.res.key k).1.input.unread = S.res.input.unread ∧
      ((S.res.key k).1.input.e - (S.res.key k).1.input.r).toNat ≤ INPUT_BUF ∧
      S.res.shown = S.res.input.line ∧ (S.res.key k).1.shown = (S.res.key k).1.input.line ∧
      ∀ before, (S.res.input.echo k).foldl consputc (before ++ S.res.input.line) =
        before ++ (S.res.key k).1.input.line) ∧
    (∀ k₁ k₂, k₁.c = C 'R' → k₂.c = C 'R' → ((S.res.input.key k₁).1.key k₂).1.line = S.res.input.line) ∧
    (∀ k₁ k₂, k₁.c = C 'N' → k₂.c = C 'N' →
      ((S.res.input.key k₁).1.key k₂).1.line = (S.res.input.key k₁).1.line) ∧
    (∀ k₁ k₂, k₁.c = C 'N' → k₂.c = C 'R' →
      ((S.res.input.key k₁).1.key k₂).1.line = ((S.res.input.key k₂).1.key k₁).1.line) := by
  have hS := mirrored_of_ordinary h
  have hp := hS.pending
  have hi := hp.sound.indexed hb
  have hkey : ∀ {k l}, S.res.input.Retyped k l → (S.res.key k).1.input = (S.res.input.key k).1 ∧
      (S.res.key k).1.shown = (S.res.input.echo k).foldl consputc S.res.shown := by
    intro k l hk
    have hsilent := hk.silent
    rw [Screen.key]
    generalize S.res.input.key k = x at hsilent ⊢
    obtain ⟨t, b⟩ := x
    cases hsilent
    exact ⟨rfl, rfl⟩
  have hboth : ∀ {k l}, S.res.input.Retyped k l →
      (S.res.key k).1.input.r = S.res.input.r ∧ (S.res.key k).1.input.w = S.res.input.w ∧
      (S.res.key k).1.input.unread = S.res.input.unread ∧
      ((S.res.key k).1.input.e - (S.res.key k).1.input.r).toNat ≤ INPUT_BUF ∧
      S.res.shown = S.res.input.line ∧ (S.res.key k).1.shown = (S.res.key k).1.input.line ∧
      ∀ before, (S.res.input.echo k).foldl consputc (before ++ S.res.input.line) =
        before ++ (S.res.key k).1.input.line := by
    intro k l hk
    rw [(hkey hk).1, (hkey hk).2, hk.line]
    refine ⟨hk.kept.r, hk.kept.w, hk.kept.unread, hk.kept.high, hS.shown, ?_, hk.shown⟩
    rw [hS.shown]
    exact hk.shown []
  refine ⟨fun k hk => ?_, fun k hk => ?_, fun k hk => ?_, fun k₁ k₂ h₁ h₂ => hp.reversed_reversed hi h₁ h₂,
    fun k₁ k₂ h₁ h₂ => ?_, fun k₁ k₂ h₁ h₂ => ?_⟩
  · have hN := hp.nonDigits hi hk
    rw [(hkey hN).1, hN.line]
  · have hR := hp.reversed hi hk
    rw [(hkey hR).1, hR.line]
  · rcases hk with hk | hk
    · exact hboth (hp.nonDigits hi hk)
    · exact hboth (hp.reversed hi hk)
  · rw [hp.nonDigits_nonDigits hi h₁ h₂, (hp.nonDigits hi h₁).line]
  · rw [hp.reversed_nonDigits hi h₁ h₂, hp.nonDigits_reversed hi h₂ h₁, List.filter_reverse]

end Runs

instance (s : Screen) (k : Key) : Decidable (Ordinary s k) :=
  inferInstanceAs (Decidable (_ ∧ (_ → _ ∧ _ ∧ _)))

/-- `a`, `1` and `b` are typed: `^N` leaves `ab`. -/
theorem line_transformations_typed : ∃ S : St (Fin 1) Local Screen Result, S.res.input.line = [97, 49, 98] ∧
    ∀ k, k.c = C 'N' → (S.res.key k).1.input.line = [97, 98] := by
  have hinit : (terminal.machine (π := Fin 1)).init terminal.start := rfl
  have hrun : (terminal.machine.runIf (AtKey Ordinary) (terminal.start (π := Fin 1))
      (.call 0 (.consoleintr (typed [97, 49, 98])) :: List.replicate 4 (.step 0))).any (fun S => decide
      (S.res.input.line = [97, 49, 98] ∧
        S.res.input.r.toNat < 2 ^ 31 ∧ S.res.input.w.toNat < 2 ^ 31 ∧ S.res.input.e.toNat < 2 ^ 31)) = true := by
    decide +kernel
  obtain ⟨S, hreach, hline, hbelow⟩ := Machine.reachable_of_runIf hinit hrun
  refine ⟨S, hline, fun k hk => ?_⟩
  rw [(line_transformations S hreach hbelow).1 k hk, hline]
  decide

/-! ## The indices -/

/-- The arrays -/
inductive Arr
  | buf
  | newBuf
  | buffer
  deriving DecidableEq

/-- `i % INPUT_BUF`, for a `uint` -/
def ofUint (i : BitVec 32) : Int := (i.toNat % INPUT_BUF : Nat)

variable {i : BitVec 32}

namespace Input

variable (s : Input)

/-- The loop that kills the line looks at its last character, as long as there is one. -/
def eraseIndices (buf : Chars) (w : BitVec 32) : Nat → BitVec 32 → List Int
  | 0, _ => []
  | n + 1, e =>
    if e ≠ w then
      ofUint (e - 1) ::
        (if buf ((e - 1).toNat % INPUT_BUF) ≠ newline then eraseIndices buf w n (e - 1) else [])
    else []

/-- `^N` and `^R`, after the line has been copied: the line is killed, and `idx` characters are typed in again. -/
def retypeIndices (idx : Nat) : List (Arr × Int) :=
  (eraseIndices s.buf s.w (s.e - s.w).toNat s.e).map (fun i => (Arr.buf, i)) ++
    (List.range idx).flatMap fun i : Nat => [(Arr.buf, ofUint (s.w + BitVec.ofNat 32 i)), (Arr.newBuf, (i : Int))]

/-- The values of `i` in the loop that copies the line. -/
def copied (k : Key) : List (BitVec 32) :=
  if k.c = C 'N' then s.upTo s.e
  else if k.c = C 'R' then s.downFrom
  else if k.isEnter = true ∧ (s.e - s.r).toNat < INPUT_BUF then (s.store newline).upTo ((s.store newline).e - 1)
  else []

/-- The loop that copies the line to `newBuf`. -/
def copyIndices (k : Key) (idx : Nat) : List (Arr × Int) :=
  (s.copied k).map (fun i => (Arr.buf, ofInt i)) ++
    (List.range idx).map fun j : Nat => (Arr.newBuf, (j : Int).tmod INPUT_BUF)

/-- Enter: the newline is stored, the line is copied to `buffer`, and ended. -/
def enterIndices (k : Key) : List (Arr × Int) :=
  (Arr.buf, ofUint s.e) ::
    (s.copied k).flatMap (fun i => [(Arr.buffer, ((i - s.w).toNat : Int)), (Arr.buf, ofInt i)]) ++
    [(Arr.buffer, ofUint ((s.store newline).e - s.w - 1))]

/-- Every index that is computed for `^N`, `^R` and Enter. -/
def indices (k : Key) : List (Arr × Int) :=
  if k.c = C 'N' then s.copyIndices k (s.nonDigits k.mem).2 ++ s.retypeIndices (s.nonDigits k.mem).2
  else if k.c = C 'R' then s.copyIndices k (s.reversed k.mem).2 ++ s.retypeIndices (s.reversed k.mem).2
  else if k.isEnter = true ∧ (s.e - s.r).toNat < INPUT_BUF then s.enterIndices k
  else []

/-- Where the characters of the line are in the ring. -/
def cells : List Int := (List.range (s.e - s.w).toNat).map fun j => ((s.w.toNat + j) % INPUT_BUF : Nat)

variable {s} {k : Key}

theorem ofUint_within (i : BitVec 32) : 0 ≤ ofUint i ∧ ofUint i < INPUT_BUF := by
  have hlt : i.toNat % INPUT_BUF < INPUT_BUF := Nat.mod_lt _ (by decide)
  rw [ofUint]
  omega

theorem ofInt_lt (h : 0 ≤ ofInt i) : ofInt i < INPUT_BUF := by
  have hlt : i.toNat % INPUT_BUF < INPUT_BUF := Nat.mod_lt _ (by decide)
  rw [ofInt_eq h]
  omega

theorem eraseIndices_within (buf : Chars) (w : BitVec 32) (n : Nat) (e : BitVec 32) :
    ∀ x ∈ eraseIndices buf w n e, 0 ≤ x ∧ x < INPUT_BUF := by
  induction n generalizing e with
  | zero => exact fun x hx => absurd hx List.not_mem_nil
  | succ n ih =>
    intro x hx
    rw [eraseIndices] at hx
    split at hx
    · rcases List.mem_cons.mp hx with rfl | hx
      · exact ofUint_within _
      · split at hx
        · exact ih (e - 1) x hx
        · exact absurd hx List.not_mem_nil
    · exact absurd hx List.not_mem_nil

theorem retypeIndices_within (hidx : idx ≤ INPUT_BUF) : ∀ x ∈ s.retypeIndices idx, 0 ≤ x.2 ∧ x.2 < INPUT_BUF := by
  intro x hx
  rcases List.mem_append.mp hx with hx | hx
  · obtain ⟨i, hi, rfl⟩ := List.mem_map.mp hx
    exact eraseIndices_within _ _ _ _ i hi
  · obtain ⟨i, hi, hx⟩ := List.mem_flatMap.mp hx
    have hlt := List.mem_range.mp hi
    simp only [List.mem_cons, List.not_mem_nil, or_false] at hx
    rcases hx with rfl | rfl
    · exact ofUint_within _
    · dsimp only
      omega

/-! ### The loop that copies the line -/

/-- The key copies the line; an Enter for which there is no room is ignored. -/
def Copies (s : Input) (k : Key) : Prop :=
  k.c = C 'N' ∨ k.c = C 'R' ∨ k.isEnter = true ∧ (s.e - s.r).toNat < INPUT_BUF

theorem Copies.room (h : s.Copies k) (henter : k.isEnter = true) : (s.e - s.r).toNat < INPUT_BUF := by
  rcases h with hc | hc | h
  · rw [Key.isEnter, hc] at henter
    exact absurd henter (by decide)
  · rw [Key.isEnter, hc] at henter
    exact absurd henter (by decide)
  · exact h.2

theorem store_upTo (s : Input) (c : UInt8) : (s.store c).upTo ((s.store c).e - 1) = s.upTo s.e := by
  have hback : s.e + 1 - 1 = s.e := by bv_omega
  show s.upTo (s.e + 1 - 1) = _
  rw [hback]

theorem Copies.copied (h : s.Copies k) : s.copied k = s.upTo s.e ∨ s.copied k = s.downFrom := by
  rw [Input.copied]
  split
  · exact .inl rfl
  split
  · exact .inr rfl
  · rename_i hN hR
    rw [if_pos ((h.resolve_left hN).resolve_left hR), store_upTo]
    exact .inl rfl

theorem Copies.length (h : s.Copies k) : (s.copied k).length = s.e.toNat - s.w.toNat := by
  rcases h.copied with heq | heq
  · rw [heq, upTo, List.length_map, List.length_range]
  · rw [heq, downFrom, List.length_map, List.length_range]

theorem Copies.perm (h : s.Copies k) (hle : s.w.toNat ≤ s.e.toNat) : (s.copied k).Perm (s.upTo s.e) := by
  rcases h.copied with heq | heq
  · rw [heq]
  · rw [heq, downFrom_eq hle]
    exact List.reverse_perm _

/-- The index is `w + j`, for a `j` below the length of the line. -/
theorem Copies.distance (h : s.Copies k) (hi : i ∈ s.copied k) : (i - s.w).toNat < (s.e - s.w).toNat := by
  have hle : s.w.toNat ≤ s.e.toNat := by
    have hpos := List.length_pos_of_mem hi
    rw [h.length] at hpos
    omega
  obtain ⟨j, hj, rfl⟩ := List.mem_map.mp ((h.perm hle).mem_iff.mp hi)
  have hlt := List.mem_range.mp hj
  bv_omega

theorem length_cells (s : Input) : s.cells.length = (s.e - s.w).toNat := by
  rw [cells, List.length_map, List.length_range]

theorem cells_nodup (h : (s.e - s.w).toNat ≤ INPUT_BUF) : s.cells.Nodup := by
  refine List.Nodup.map_on (fun i hi j hj heq => ?_) List.nodup_range
  have hi' := List.mem_range.mp hi
  have hj' := List.mem_range.mp hj
  by_contra hne
  exact Ring.cell_ne (by omega) (by omega) hne (Int.natCast_inj.mp heq)

theorem Indexed.cells (h : s.Indexed) : (s.upTo s.e).map ofInt = s.cells := by
  obtain ⟨hle, hall⟩ := indexed_iff.mp h
  rw [Input.cells, Input.upTo, List.map_map, h.distance]
  refine List.map_congr_left fun k hk => ?_
  rw [Function.comp_apply, ofInt_eq (hall _ (List.mem_map.mpr ⟨k, hk, rfl⟩)), toNat_upTo hle (List.mem_range.mp hk)]

/-- The loop visits each character of the line once, at indices that are not negative, if and only if the line is
    where they are not. -/
theorem Copies.visits_iff (h : s.Copies k) :
    ((∀ i ∈ s.copied k, 0 ≤ ofInt i) ∧ ((s.copied k).map ofInt).Perm s.cells) ↔ s.Indexed := by
  constructor
  · rintro ⟨hall, hperm⟩
    have hle : s.w.toNat ≤ s.e.toNat := by
      have hlen := hperm.length_eq
      rw [List.length_map, h.length, length_cells] at hlen
      bv_omega
    exact indexed_iff.mpr ⟨hle, fun i hi => hall i ((h.perm hle).mem_iff.mpr hi)⟩
  · intro hi
    obtain ⟨hle, hall⟩ := indexed_iff.mp hi
    have hperm := h.perm hle
    exact ⟨fun i hmem => hall i (hperm.mem_iff.mp hmem), hi.cells ▸ hperm.map ofInt⟩

/-! ### All indices -/

section Within

variable (hline : (s.e - s.w).toNat ≤ INPUT_BUF)
include hline

theorem copyIndices_within (hall : ∀ i ∈ s.copied k, 0 ≤ ofInt i) (hidx : idx ≤ (s.e - s.w).toNat) :
    ∀ x ∈ s.copyIndices k idx ++ s.retypeIndices idx, 0 ≤ x.2 ∧ x.2 < INPUT_BUF := by
  intro x hx
  rcases List.mem_append.mp hx with hx | hx
  · rcases List.mem_append.mp hx with hx | hx
    · obtain ⟨i, hi, rfl⟩ := List.mem_map.mp hx
      exact ⟨hall i hi, ofInt_lt (hall i hi)⟩
    · obtain ⟨j, hj, rfl⟩ := List.mem_map.mp hx
      have hlt := List.mem_range.mp hj
      dsimp only
      rw [Int.tmod_eq_of_lt (by omega) (by omega)]
      omega
  · exact retypeIndices_within (hidx.trans hline) x hx

theorem Copies.enterIndices (h : s.Copies k) (hall : ∀ i ∈ s.copied k, 0 ≤ ofInt i) :
    ∀ x ∈ s.enterIndices k, 0 ≤ x.2 ∧ x.2 < INPUT_BUF := by
  intro x hx
  rw [Input.enterIndices, List.mem_append, List.mem_cons, List.mem_singleton] at hx
  rcases hx with (rfl | hx) | rfl
  · exact ofUint_within _
  · obtain ⟨i, hi, hx⟩ := List.mem_flatMap.mp hx
    have hlt := h.distance hi
    simp only [List.mem_cons, List.not_mem_nil, or_false] at hx
    rcases hx with rfl | rfl
    · dsimp only
      omega
    · exact ⟨hall i hi, ofInt_lt (hall i hi)⟩
  · exact ofUint_within _

/-- Those of the copied line are the ones that have to be looked at. -/
theorem Copies.within_iff (h : s.Copies k) :
    (∀ x ∈ s.indices k, 0 ≤ x.2 ∧ x.2 < INPUT_BUF) ↔ ∀ i ∈ s.copied k, 0 ≤ ofInt i := by
  constructor
  · intro hall i hi
    refine (hall (.buf, ofInt i) ?_).1
    have hcopied : (Arr.buf, ofInt i) ∈ (s.copied k).map fun i => (Arr.buf, ofInt i) := List.mem_map.mpr ⟨i, hi, rfl⟩
    rw [Input.indices]
    split
    · exact List.mem_append_left _ (List.mem_append_left _ hcopied)
    split
    · exact List.mem_append_left _ (List.mem_append_left _ hcopied)
    · rename_i hN hR
      rw [if_pos ((h.resolve_left hN).resolve_left hR)]
      exact List.mem_append_left _ (List.mem_cons_of_mem _ (List.mem_flatMap.mpr ⟨i, hi, by simp⟩))
  · intro hall x hx
    rw [Input.indices] at hx
    split at hx
    · exact copyIndices_within hline hall (s.nonDigits_le k.mem) x hx
    split at hx
    · exact copyIndices_within hline hall (s.reversed_le k.mem) x hx
    split at hx
    · exact h.enterIndices hline hall x hx
    · exact absurd hx List.not_mem_nil

/-- Enter saves the line, if `buffer` has room for it and it has no NUL, and only then. -/
theorem Indexed.saved_iff (h : s.Indexed) (henter : k.isEnter = true) (hroom : (s.e - s.r).toNat < INPUT_BUF) :
    cstring ((s.key k).1.cmdHistory 0) = s.line ↔ (s.e - s.w).toNat < INPUT_BUF ∧ 0 ∉ s.line := by
  rw [(key_enter henter hroom).2]
  show cstring (saveCommand _ _ 0) = s.line ↔ _
  rw [cstring_saveCommand]
  constructor
  · intro heq
    constructor
    · by_contra hfull
      -- the end of the string is stored at its beginning
      have hindex : ((s.store newline).e - (s.store newline).w - 1).toNat % INPUT_BUF = 0 := by
        show (s.e + 1 - s.w - 1).toNat % 128 = 0
        replace hline : (s.e - s.w).toNat ≤ 128 := hline
        replace hfull : ¬ (s.e - s.w).toNat < 128 := hfull
        bv_omega
      have hzero : (s.store newline).command k.mem 0 = 0 := by
        rw [command, hindex, Function.update_self]
      have hlen := congrArg List.length heq
      rw [length_cstring, length_line, strlen_eq (Nat.zero_le _) (fun i hi => absurd hi (Nat.not_lt_zero i)) fun _ => hzero]
        at hlen
      rw [← hlen] at hfull
      exact hfull (by decide)
    · rw [← heq]
      intro hmem
      obtain ⟨i, hi, hi0⟩ := List.mem_map.mp hmem
      exact strlen_ne_zero (List.mem_range.mp hi) hi0
  · rintro ⟨hlen, hnul⟩
    exact command_line h hnul (by rw [length_line]; exact hlen) newline k.mem

end Within

/-- **The indices of the console.**  For all `r`, `w` and `e` with `e - w` at most `INPUT_BUF`, and a key that copies the
    line: every index into `input.buf`, `newBuf` and `buffer` that is computed for `^N`, `^R` or Enter is within the array,
    every character of the line is visited exactly once, and Enter saves the line, if and only if the line does not go
    over the end of the `uint`s nor beyond `2 ^ 31` (where only index 0 is not negative), and for Enter `buffer` has
    room for the line, which has no NUL. -/
theorem indices_within (s : Input) (k : Key) (hline : (s.e - s.w).toNat ≤ INPUT_BUF) (hk : s.Copies k) :
    ((∀ x ∈ s.indices k, 0 ≤ x.2 ∧ x.2 < INPUT_BUF) ∧ (((s.copied k).map ofInt).Perm s.cells ∧ s.cells.Nodup) ∧
      (k.isEnter = true → cstring ((s.key k).1.cmdHistory 0) = s.line)) ↔
    s.Indexed ∧ (k.isEnter = true → (s.e - s.w).toNat < INPUT_BUF ∧ 0 ∉ s.line) := by
  rw [hk.within_iff hline]
  constructor
  · rintro ⟨hall, ⟨hperm, -⟩, hsaved⟩
    have hi := hk.visits_iff.mp ⟨hall, hperm⟩
    exact ⟨hi, fun henter => (hi.saved_iff hline henter (hk.room henter)).mp (hsaved henter)⟩
  · rintro ⟨hi, henters⟩
    obtain ⟨hall, hperm⟩ := hk.visits_iff.mpr hi
    exact ⟨hall, ⟨hperm, cells_nodup hline⟩,
      fun henter => (hi.saved_iff hline henter (hk.room henter)).mpr (henters henter)⟩

/-- A line of two characters, from `w` on. -/
def lineAt (w : BitVec 32) : Input := ⟨fun _ => 97, w, w, w + 2, fun _ _ => 0, fun _ => 0, [], []⟩

theorem indices_within_line : ((lineAt 127).copied (blank newline)).map ofInt = [127, 0] ∧
    ((lineAt 127).cells = [127, 0] ∧ ∀ x ∈ (lineAt 127).indices (blank newline), 0 ≤ x.2 ∧ x.2 < INPUT_BUF) ∧
    cstring (((lineAt 127).key (blank newline)).1.cmdHistory 0) = [97, 97] := by
  obtain ⟨hwithin, -, hsaved⟩ := (indices_within (lineAt 127) (blank newline) (by decide)
    (.inr (.inr (by constructor <;> decide)))).2 ⟨by decide, fun _ => by decide⟩
  exact ⟨by decide, ⟨by decide, hwithin⟩, hsaved (by decide)⟩

/-- At `2 ^ 31` the second character is looked for at index `-127`, and what is saved is what is there; a line that goes
    over the end of the `uint`s is not visited. -/
theorem indices_outside : ((lineAt 0x80000000).e - (lineAt 0x80000000).w).toNat ≤ INPUT_BUF ∧
    ((lineAt 0x80000000).e - (lineAt 0x80000000).r).toNat ≤ INPUT_BUF ∧
    (.buf, -127) ∈ (lineAt 0x80000000).indices (blank (C 'N')) ∧
    (.buf, -127) ∈ (lineAt 0x80000000).indices (blank (C 'R')) ∧
    (.buf, -127) ∈ (lineAt 0x80000000).indices (blank newline) ∧
    cstring (((lineAt 0x80000000).key (blank newline)).1.cmdHistory 0) = [97] ∧ (lineAt 0x80000000).line = [97, 97] ∧
    ((lineAt 0xffffffff).e - (lineAt 0xffffffff).w).toNat = 2 ∧
    (lineAt 0xffffffff).copied (blank (C 'N')) = [] ∧ (lineAt 0xffffffff).copied (blank (C 'R')) = [] := by
  decide +kernel

end Input

end Xv6.Console
