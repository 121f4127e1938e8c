/-
  `grep` — the matcher, and the loop that cuts the input into lines.

  1. A pattern is a sequence of items (`items`): a character or `.`, with a `*` after it or not.  Its language is a product
     of languages of single characters and of their stars, in the sense of Mathlib.  `matchhere` decides by looking one
     character ahead; `matchhere_iff` is by induction along its own recursion, with `matchstar_iff` for the loop that
     tries every number of repetitions.  `match_iff` is the whole matcher.
  2. The buffer keeps a line that has not ended for the next `read` — but only if some line HAS ended
     (`if(p == buf) m = 0`): a piece without a newline is thrown away.  The output is that of the lines, for every
     pattern, exactly if no newline comes after such a piece (`grep_lines`); the empty pattern shows what is lost.
-/
import Mathlib

namespace Xv6.Grep

/-! ## The matcher -/

abbrev dot : UInt8 := 46

abbrev star : UInt8 := 42

abbrev dollar : UInt8 := 36

abbrev caret : UInt8 := 94

/-- `matchstar`; `here` is `matchhere(re, ·)` -/
def matchstar (c : UInt8) (here : List UInt8 → Bool) : List UInt8 → Bool
  | [] => here []
  | t :: text => here (t :: text) || (t = c || c = dot) && matchstar c here text

/-- `*text!='\0' && (re[0]=='.' || re[0]==*text)`, and then `rest` -/
def matchone (c : UInt8) (rest : List UInt8 → Bool) : List UInt8 → Bool
  | [] => false
  | t :: text => (c = dot || c = t) && rest text

/-- `matchhere` -/
def matchhere : List UInt8 → List UInt8 → Bool
  | [], _ => true
  | [c], text => if c = dollar then text.isEmpty else matchone c (matchhere []) text
  | c :: d :: re, text => if d = star then matchstar c (matchhere re) text else matchone c (matchhere (d :: re)) text

/-- `match`, the loop -/
def matchfrom (re : List UInt8) : List UInt8 → Bool
  | [] => matchhere re []
  | t :: text => matchhere re (t :: text) || matchfrom re text

/-- `match` -/
def matchText (re text : List UInt8) : Bool :=
  if re.head? = some caret then matchhere re.tail text else matchfrom re text

/-! ## The language of a pattern -/

inductive Item
  | one (c : UInt8)
  | many (c : UInt8)

/-- The items of a pattern without its `^`, and whether it ends in `$`. -/
def items : List UInt8 → List Item × Bool
  | [] => ([], false)
  | [c] => if c = dollar then ([], true) else ([.one c], false)
  | c :: d :: re =>
    if d = star then (.many c :: (items re).1, (items re).2) else (.one c :: (items (d :: re)).1, (items (d :: re)).2)

/-- What a character of a pattern stands for. -/
def chars (c : UInt8) : Language UInt8 := {w | ∃ t, w = [t] ∧ (c = dot ∨ c = t)}

open scoped Computability in
def Item.language : Item → Language UInt8
  | .one c => chars c
  | .many c => (chars c)∗

/-- The language of a sequence of items. -/
def language (is : List Item) : Language UInt8 := (is.map Item.language).prod

/-- The text begins with a word of `L`, and `rest` holds of what follows. -/
def Begins (L : Language UInt8) (rest : List UInt8 → Prop) (text : List UInt8) : Prop :=
  ∃ w v, text = w ++ v ∧ w ∈ L ∧ rest v

section Begins

variable {L M : Language UInt8} {rest : List UInt8 → Prop} {text : List UInt8} {c : UInt8}

theorem begins_one : Begins 1 rest text ↔ rest text := by
  constructor
  · rintro ⟨w, v, rfl, rfl, hv⟩
    exact hv
  · exact fun h => ⟨[], text, rfl, rfl, h⟩

theorem begins_mul : Begins (L * M) rest text ↔ Begins L (Begins M rest) text := by
  constructor
  · rintro ⟨w, v, rfl, hw, hv⟩
    obtain ⟨x, hx, y, hy, rfl⟩ := Language.mem_mul.mp hw
    exact ⟨x, y ++ v, List.append_assoc x y v, hx, y, v, rfl, hy, hv⟩
  · rintro ⟨x, _, rfl, hx, y, v, rfl, hy, hv⟩
    exact ⟨x ++ y, v, (List.append_assoc x y v).symm, Language.append_mem_mul hx hy, hv⟩

theorem begins_add : Begins (L + M) rest text ↔ Begins L rest text ∨ Begins M rest text := by
  simp only [Begins, Language.mem_add]
  grind

theorem begins_chars : Begins (chars c) rest text ↔ ∃ t v, text = t :: v ∧ (c = dot ∨ c = t) ∧ rest v := by
  constructor
  · rintro ⟨w, v, rfl, ⟨t, rfl, ht⟩, hv⟩
    exact ⟨t, v, rfl, ht, hv⟩
  · rintro ⟨t, v, rfl, ht, hv⟩
    exact ⟨[t], v, rfl, ⟨t, rfl, ht⟩, hv⟩

open scoped Computability in
theorem begins_kstar : Begins L∗ rest text ↔ rest text ∨ Begins L (Begins L∗ rest) text := by
  conv_lhs => rw [← Language.one_add_self_mul_kstar_eq_kstar]
  rw [begins_add, begins_one, begins_mul]

end Begins

theorem matchone_iff {c : UInt8} {here : List UInt8 → Bool} {rest : List UInt8 → Prop} (h : ∀ v, here v = true ↔ rest v)
    (text : List UInt8) : matchone c here text = true ↔ Begins (chars c) rest text := by
  rw [begins_chars]
  cases text with
  | nil => simp [matchone]
  | cons t text => simp [matchone, h]

open scoped Computability in
theorem matchstar_iff {c : UInt8} {here : List UInt8 → Bool} {rest : List UInt8 → Prop} (h : ∀ v, here v = true ↔ rest v)
    (text : List UInt8) : matchstar c here text = true ↔ Begins (chars c)∗ rest text := by
  induction text with
  | nil =>
    rw [begins_kstar, begins_chars]
    simp [matchstar, h]
  | cons t text ih =>
    rw [begins_kstar, begins_chars]
    simp only [matchstar, Bool.or_eq_true, Bool.and_eq_true, h, ih, decide_eq_true_eq, List.cons.injEq]
    grind

/-- What has to hold of the text after the items. -/
def AtEnd (ended : Bool) (v : List UInt8) : Prop := ended = true → v = []

theorem matchhere_iff : ∀ re text : List UInt8,
    matchhere re text = true ↔ Begins (language (items re).1) (AtEnd (items re).2) text
  | [], text => by simp [matchhere, items, language, begins_one, AtEnd]
  | [c], text => by
    rw [matchhere, items]
    split
    · simp [language, begins_one, AtEnd]
    · rw [matchone_iff (show ∀ v, matchhere [] v = true ↔ AtEnd false v by simp [matchhere, AtEnd])]
      simp [language, Item.language]
  | c :: d :: re, text => by
    rw [matchhere, items]
    split
    · rw [matchstar_iff (matchhere_iff re)]
      exact begins_mul.symm
    · rw [matchone_iff (matchhere_iff (d :: re))]
      exact begins_mul.symm

theorem matchfrom_iff (re text : List UInt8) :
    matchfrom re text = true ↔ ∃ u v, text = u ++ v ∧ matchhere re v = true := by
  induction text with
  | nil => simp [matchfrom]
  | cons t text ih =>
    rw [matchfrom, Bool.or_eq_true, ih]
    constructor
    · rintro (h | ⟨u, v, rfl, h⟩)
      · exact ⟨[], _, rfl, h⟩
      · exact ⟨t :: u, v, rfl, h⟩
    · rintro ⟨_ | ⟨x, u⟩, v, heq, h⟩
      · exact .inl (heq ▸ h)
      · exact .inr ⟨u, v, (List.cons.inj heq).2, h⟩

/-- The pattern without its `^` -/
def body (re : List UInt8) : List UInt8 := if re.head? = some caret then re.tail else re

/-- `match` finds a part of the text that is in the language of the items, at the beginning if the pattern begins with `^`,
    and at the end if it ends in `$`. -/
theorem match_iff (re text : List UInt8) : matchText re text = true ↔
    ∃ u w v, text = u ++ w ++ v ∧ w ∈ language (items (body re)).1 ∧ (re.head? = some caret → u = []) ∧
      ((items (body re)).2 = true → v = []) := by
  rw [matchText, body]
  split
  · rename_i hcaret
    rw [matchhere_iff]
    simp only [Begins, AtEnd, hcaret, true_imp_iff]
    constructor
    · rintro ⟨w, v, rfl, hw, hv⟩
      exact ⟨[], w, v, rfl, hw, rfl, hv⟩
    · rintro ⟨_, w, v, rfl, hw, rfl, hv⟩
      exact ⟨w, v, rfl, hw, hv⟩
  · rename_i hcaret
    simp only [matchfrom_iff, matchhere_iff, Begins, AtEnd]
    constructor
    · rintro ⟨u, _, rfl, w, v, rfl, hw, hv⟩
      exact ⟨u, w, v, (List.append_assoc u w v).symm, hw, fun h => absurd h hcaret, hv⟩
    · rintro ⟨u, w, v, rfl, hw, -, hv⟩
      exact ⟨u, w ++ v, List.append_assoc u w v, w, v, rfl, hw, hv⟩

/-! ## The lines -/

abbrev newline : UInt8 := 10

/-- `while((q = strchr(p, '\n')) != 0)`: what is written, and the rest of the buffer from `p` on; `line` is what `strchr` has
    passed.  It stops at a zero. -/
def scan (re : List UInt8) : List UInt8 → List UInt8 → List UInt8 × List UInt8
  | line, [] => ([], line)
  | line, b :: bs =>
    if b = 0 then ([], line ++ b :: bs)
    else if b = newline then ((if matchText re line then line ++ [newline] else []) ++ (scan re [] bs).1, (scan re [] bs).2)
    else scan re (line ++ [b]) bs

/-- `grep`, with what the calls of `read` return and what is in the buffer; no call returns more than there is room for. -/
def grep (re : List UInt8) : List UInt8 → List (List UInt8) → Option (List UInt8)
  | _, [] => some []
  | kept, piece :: pieces =>
    if piece.length ≤ 1024 - kept.length - 1 then
      let (out, rest) := scan re [] (kept ++ piece)
      -- `if(p == buf) m = 0`
      (grep re (if rest.length = (kept ++ piece).length then [] else rest) pieces).map (out ++ ·)
    else none

/-- The lines that match, with their ends. -/
def matching (re : List UInt8) (lines : List (List UInt8)) : List UInt8 :=
  (lines.filter (matchText re)).flatMap (· ++ [newline])

/-- The lines of a text that goes on after `line`, and what is left after the last of them. -/
def splitLines : List UInt8 → List UInt8 → List (List UInt8) × List UInt8
  | line, [] => ([], line)
  | line, b :: bs =>
    if b = newline then (line :: (splitLines [] bs).1, (splitLines [] bs).2) else splitLines (line ++ [b]) bs

variable {re : List UInt8}

theorem scan_eq (line bs : List UInt8) (h0 : 0 ∉ bs) :
    scan re line bs = (matching re (splitLines line bs).1, (splitLines line bs).2) := by
  induction bs generalizing line with
  | nil => rfl
  | cons b bs ih =>
    rw [List.mem_cons, not_or] at h0
    rw [scan, if_neg (Ne.symm h0.1), splitLines]
    split
    · rw [ih [] h0.2]
      by_cases hm : matchText re line = true <;> simp [matching, hm]
    · exact ih _ h0.2

theorem splitLines_append (line x y : List UInt8) : splitLines line (x ++ y) =
    ((splitLines line x).1 ++ (splitLines (splitLines line x).2 y).1, (splitLines (splitLines line x).2 y).2) := by
  induction x generalizing line with
  | nil => rfl
  | cons b x ih =>
    rw [List.cons_append, splitLines, splitLines]
    split
    · rw [ih]
      rfl
    · exact ih _

theorem splitLines_of_not_mem {x : List UInt8} (hx : newline ∉ x) (line : List UInt8) : splitLines line x = ([], line ++ x) := by
  induction x generalizing line with
  | nil => rw [List.append_nil]; rfl
  | cons b x ih =>
    rw [List.mem_cons, not_or] at hx
    rw [splitLines, if_neg (Ne.symm hx.1), ih hx.2, List.append_assoc]
    rfl

/-- The rest has no newline, and is shorter if there is one in the text. -/
theorem splitLines_rest {line : List UInt8} (x : List UInt8) (hline : newline ∉ line) :
    newline ∉ (splitLines line x).2 ∧ (newline ∈ x → (splitLines line x).2.length < line.length + x.length) ∧
      (splitLines line x).2.length ≤ line.length + x.length ∧ (splitLines line x).2 ⊆ line ++ x := by
  induction x generalizing line with
  | nil => simpa [splitLines] using hline
  | cons b x ih =>
    rw [splitLines]
    split
    · have := ih (List.not_mem_nil (a := newline))
      simp only [List.length_cons, List.nil_append, List.length_nil] at this ⊢
      refine ⟨this.1, fun _ => by omega, by omega, fun c hc => ?_⟩
      exact List.mem_append_right _ (List.mem_cons_of_mem _ (this.2.2.2 hc))
    · rename_i hb
      have := ih (show newline ∉ line ++ [b] by simp [hline, Ne.symm hb])
      simp only [List.length_append, List.length_singleton, List.append_assoc, List.singleton_append] at this
      simp only [List.length_cons, List.mem_cons, Ne.symm hb, false_or]
      exact ⟨this.1, fun h => by have := this.2.1 h; omega, by omega, this.2.2.2⟩

/-- A piece is looked at together with what was kept. -/
theorem scan_kept {kept piece : List UInt8} (hkept : newline ∉ kept) (h0 : 0 ∉ kept ++ piece) :
    scan re [] (kept ++ piece) = (matching re (splitLines kept piece).1, (splitLines kept piece).2) := by
  rw [scan_eq _ _ h0, splitLines_append, splitLines_of_not_mem hkept]
  rfl

/-- No newline comes after a piece without one. -/
def Whole (pieces : List (List UInt8)) : Prop := pieces.Pairwise fun p q => newline ∈ q → newline ∈ p

instance (pieces : List (List UInt8)) : Decidable (Whole pieces) := inferInstanceAs (Decidable (List.Pairwise _ _))

section

variable {kept piece : List UInt8} {pieces : List (List UInt8)}

/-- One `read`. -/
theorem grep_cons {out : List UInt8} (hkept : newline ∉ kept) (h0 : 0 ∉ kept ++ (piece :: pieces).flatten)
    (h : grep re kept (piece :: pieces) = some out) :
    ∃ out', out = matching re (splitLines kept piece).1 ++ out' ∧
      grep re (if newline ∈ piece then (splitLines kept piece).2 else []) pieces = some out' ∧
      newline ∉ (splitLines kept piece).2 ∧ 0 ∉ (splitLines kept piece).2 ++ pieces.flatten := by
  rw [List.flatten_cons, ← List.append_assoc, List.mem_append, not_or] at h0
  rw [grep, scan_kept hkept h0.1] at h
  obtain ⟨-, h⟩ := Option.ite_none_right_eq_some.mp h
  obtain ⟨out', hout, rfl⟩ := Option.map_eq_some_iff.mp h
  obtain ⟨hrest, hshort, -, hsub⟩ := splitLines_rest piece hkept
  refine ⟨out', rfl, ?_, hrest, ?_⟩
  · -- the rest is kept if a line has ended
    by_cases hend : newline ∈ piece
    · have hlt := hshort hend
      rw [if_neg (by rw [List.length_append]; omega)] at hout
      rwa [if_pos hend]
    · rw [splitLines_of_not_mem hend, if_pos rfl] at hout
      rwa [if_neg hend]
  · rw [List.mem_append, not_or]
    exact ⟨fun hc => h0.1 (hsub hc), h0.2⟩

theorem grep_whole {out : List UInt8} (hw : Whole pieces) (hkept : newline ∉ kept)
    (h0 : 0 ∉ kept ++ pieces.flatten) (h : grep re kept pieces = some out) :
    out = matching re (splitLines kept pieces.flatten).1 := by
  induction pieces generalizing kept out with
  | nil => exact (Option.some.inj h).symm
  | cons piece pieces ih =>
    obtain ⟨out', rfl, hout, hrest, h0'⟩ := grep_cons hkept h0 h
    obtain ⟨hhead, htail⟩ := List.pairwise_cons.mp hw
    rw [List.flatten_cons, splitLines_append]
    by_cases hend : newline ∈ piece
    · rw [if_pos hend] at hout
      rw [ih htail hrest h0' hout]
      simp only [matching, List.filter_append, List.flatMap_append]
    · -- what is thrown away is not part of a line that ends
      have hno : newline ∉ pieces.flatten := by
        intro hc
        obtain ⟨q, hq, hc⟩ := List.mem_flatten.mp hc
        exact hend (hhead q hq hc)
      rw [if_neg hend] at hout
      rw [ih htail List.not_mem_nil (fun hc => h0' (List.mem_append_right _ hc)) hout, splitLines_of_not_mem hno,
        splitLines_of_not_mem hend, splitLines_of_not_mem hno]
      rfl

/-! ### The empty pattern -/

/-- It matches every line: what is written is all that is not left. -/
theorem length_matching_nil (line x : List UInt8) :
    (matching [] (splitLines line x).1).length + (splitLines line x).2.length = line.length + x.length := by
  have hall : ∀ text, matchText [] text = true := by
    intro text
    cases text <;> rfl
  induction x generalizing line with
  | nil => simp [splitLines, matching]
  | cons b x ih =>
    rw [splitLines]
    split
    · have := ih []
      simp only [matching, List.filter_cons, hall, if_true, List.flatMap_cons, List.length_append,
        List.length_cons, List.length_nil] at this ⊢
      omega
    · rw [ih]
      simp only [List.length_append, List.length_cons, List.length_nil]
      omega

/-- What is left after a newline does not depend on what was before it. -/
theorem splitLines_same {x : List UInt8} (h : newline ∈ x) (line line' : List UInt8) :
    (splitLines line x).2 = (splitLines line' x).2 := by
  induction x generalizing line line' with
  | nil => cases h
  | cons b x ih =>
    rw [splitLines, splitLines]
    split
    · rfl
    · rename_i hb
      exact ih ((List.mem_cons.mp h).resolve_left (Ne.symm hb)) _ _

/-- With the empty pattern, bytes are lost unless no newline comes after a piece without one. -/
theorem whole_of_grep {out : List UInt8} (hne : [] ∉ pieces) (hkept : newline ∉ kept)
    (h0 : 0 ∉ kept ++ pieces.flatten) (h : grep [] kept pieces = some out) :
    out.length ≤ (matching [] (splitLines kept pieces.flatten).1).length ∧
      (out.length = (matching [] (splitLines kept pieces.flatten).1).length → Whole pieces) := by
  induction pieces generalizing kept out with
  | nil =>
    obtain rfl := Option.some.inj h
    exact ⟨Nat.zero_le _, fun _ => .nil⟩
  | cons piece pieces ih =>
    obtain ⟨out', rfl, hout, hrest, h0'⟩ := grep_cons hkept h0 h
    rw [List.mem_cons, not_or] at hne
    rw [List.flatten_cons, splitLines_append]
    by_cases hend : newline ∈ piece
    · rw [if_pos hend] at hout
      obtain ⟨hle, heq⟩ := ih hne.2 hrest h0' hout
      have hsum : ∀ ls ls', (matching [] (ls ++ ls')).length = (matching [] ls).length + (matching [] ls').length := by
        intro ls ls'
        simp only [matching, List.filter_append, List.flatMap_append, List.length_append]
      rw [hsum, List.length_append]
      exact ⟨by omega, fun h => List.pairwise_cons.mpr ⟨fun _ _ _ => hend, heq (by omega)⟩⟩
    · rw [if_neg hend] at hout
      obtain ⟨hle, -⟩ := ih hne.2 List.not_mem_nil (fun hc => h0' (List.mem_append_right _ hc)) hout
      rw [splitLines_of_not_mem hend]
      show (out'.length ≤ (matching [] (splitLines (kept ++ piece) pieces.flatten).1).length) ∧
        (out'.length = (matching [] (splitLines (kept ++ piece) pieces.flatten).1).length → _)
      have hlen := length_matching_nil (kept ++ piece) pieces.flatten
      have hlen₀ := length_matching_nil [] pieces.flatten
      have hpos := List.length_pos_iff.mpr (Ne.symm hne.1)
      rw [List.length_append] at hlen
      by_cases hlater : newline ∈ pieces.flatten
      · rw [splitLines_same hlater (kept ++ piece) []] at hlen
        rw [List.length_nil] at hlen₀
        exact ⟨by omega, fun h => by omega⟩
      · rw [splitLines_of_not_mem hlater] at hle ⊢
        have hnone : ∀ q ∈ pieces, newline ∉ q := fun q hq hc => hlater (List.mem_flatten.mpr ⟨q, hq, hc⟩)
        refine ⟨hle, fun _ => List.pairwise_cons.mpr ⟨fun q hq hc => absurd hc (hnone q hq), ?_⟩⟩
        exact List.pairwise_of_forall_mem_list fun p _ q hq hc => absurd hc (hnone q hq)

/-- Whether there is room for what is read does not depend on the pattern. -/
theorem grep_isSome (re re' : List UInt8) : (grep re kept pieces).isSome = (grep re' kept pieces).isSome := by
  have hscan : ∀ bs line : List UInt8, (scan re line bs).2 = (scan re' line bs).2 := by
    intro bs
    induction bs with
    | nil => exact fun _ => rfl
    | cons b bs ih =>
      intro line
      simp only [scan, ih, apply_ite Prod.snd]
  induction pieces generalizing kept with
  | nil => rfl
  | cons piece pieces ih =>
    rw [grep, grep]
    split
    · simp only [Option.isSome_map, hscan]
      exact ih
    · rfl

end

theorem splitLines_lines {lines : List (List UInt8)} (hlines : ∀ l ∈ lines, newline ∉ l) {last : List UInt8}
    (hlast : newline ∉ last) : splitLines [] ((lines.map (· ++ [newline])).flatten ++ last) = (lines, last) := by
  induction lines with
  | nil => exact splitLines_of_not_mem hlast []
  | cons l lines ih =>
    rw [List.map_cons, List.flatten_cons, List.append_assoc, List.append_assoc, splitLines_append,
      splitLines_of_not_mem (hlines l List.mem_cons_self)]
    simp only [List.singleton_append, splitLines, if_true, ih fun k hk => hlines k (List.mem_cons_of_mem l hk)]
    rfl

variable {lines pieces : List (List UInt8)} {last : List UInt8}

/-- `grep` writes the lines that match, whatever the pattern, if and only if no newline comes after a piece without
    one. -/
theorem grep_lines (hlines : ∀ l ∈ lines, newline ∉ l) (hlast : newline ∉ last) (h0 : 0 ∉ pieces.flatten)
    (hinput : pieces.flatten = (lines.map (· ++ [newline])).flatten ++ last) (hne : [] ∉ pieces)
    (hread : (grep [] [] pieces).isSome = true) :
    (∀ re, grep re [] pieces = some (matching re lines)) ↔ Whole pieces := by
  have hsplit : (splitLines [] pieces.flatten).1 = lines := by rw [hinput, splitLines_lines hlines hlast]
  constructor
  · intro hall
    refine (whole_of_grep hne List.not_mem_nil h0 (hall [])).2 ?_
    rw [hsplit]
  · intro hw re
    obtain ⟨out, hout⟩ := Option.isSome_iff_exists.mp ((grep_isSome re []).trans hread)
    rw [hout, grep_whole hw List.not_mem_nil h0 hout, hsplit]

/-- `a\nb` and `c\n` are read; the pattern is `b`. -/
theorem grep_lines_two : grep [98] [] [[97, 10, 98], [99, 10]] = some [98, 99, 10] := by
  have hlines : ∀ l ∈ [[97], [98, 99]], newline ∉ l := by decide
  have h0 : 0 ∉ [[97, 10, 98], [99, (10 : UInt8)]].flatten := by decide
  exact (grep_lines hlines (List.not_mem_nil (a := newline)) h0 (by decide) (by decide) (by decide)).2 (by decide) [98]

/-- `ab\n`, read as a whole and as `a` and `b\n` -/
theorem grep_cut : grep [97, 98] [] [[97, 98, 10]] = some [97, 98, 10] ∧ grep [97, 98] [] [[97], [98, 10]] = some [] := by
  decide

end Xv6.Grep
