/-
  NUMBERS — the largest prime factor (`flpf`), numbers as text, and the file of primes (`prime_numbers`).

  * `flpf` divides `num` by `i` as often as it can before it goes on to `i + 1`; so every prime factor that is left is at
    least `i`, and an `i` that divides is prime (`flpfLoop_spec`).  An overflow of `i`, which would be the end of that,
    is an error of the loop here, and is shown not to happen.
  * The two `printint` print the numeral of a number, and `atoi` reads it (`printint_numeral`).
  * `prime_numbers` finds no divisor of 0 and 1, and writes them down; and it opens its file without truncating it.
    The file has the primes and nothing else exactly if the range begins at 2 or later, and the list fits into a file
    and is not shorter than the file was before (`prime_numbers_lists`).
-/
import Mathlib
import Xv6.Param

namespace Xv6.User

/-! ## `flpf` -/

/-- The loop of `flpf`, `fuel` times at most; there is no result if `i` overflows. -/
def flpfLoop : Nat → Nat → Nat → Option Nat
  | 0, _, _ => none
  | fuel + 1, num, i =>
    if num > 1 then
      if num % i = 0 then flpfLoop fuel (num / i) i
      else if i + 1 < 2 ^ 31 then flpfLoop fuel num (i + 1) else none
    else some i

/-- `p` is the largest prime factor of `n`. -/
def IsLargestFactor (n p : Nat) : Prop := p.Prime ∧ p ∣ n ∧ ∀ q, q.Prime → q ∣ n → q ≤ p

/-- The smallest number that divides, from `2` on, is prime. -/
theorem prime_of_dvd {num i : Nat} (hi : 2 ≤ i) (hfrom : ∀ q, q.Prime → q ∣ num → i ≤ q) (hdvd : i ∣ num) : i.Prime := by
  have hle := hfrom i.minFac (Nat.minFac_prime (by omega)) ((Nat.minFac_dvd i).trans hdvd)
  have heq : i.minFac = i := le_antisymm (Nat.minFac_le (by omega)) hle
  exact heq ▸ Nat.minFac_prime (by omega)

theorem flpfLoop_spec {fuel num i : Nat} (hi : 2 ≤ i) (hnum : 2 ≤ num) (hint : num < 2 ^ 31)
    (hfrom : ∀ q, q.Prime → q ∣ num → i ≤ q) (hfuel : 2 * num < fuel + i) :
    ∃ p, flpfLoop fuel num i = some p ∧ IsLargestFactor num p := by
  have hle : i ≤ num := (hfrom _ (Nat.minFac_prime (by omega)) (Nat.minFac_dvd num)).trans (Nat.minFac_le (by omega))
  induction fuel generalizing num i with
  | zero => omega
  | succ fuel ih =>
    rw [flpfLoop, if_pos (by omega)]
    by_cases hdvd : i ∣ num
    · rw [if_pos (Nat.mod_eq_zero_of_dvd hdvd)]
      have hprime := prime_of_dvd hi hfrom hdvd
      obtain ⟨k, rfl⟩ := hdvd
      have hk : 0 < k := Nat.pos_of_ne_zero (by rintro rfl; omega)
      have h2k : 2 * k ≤ i * k := Nat.mul_le_mul_right k hi
      rw [Nat.mul_div_cancel_left k (by omega)]
      rcases Nat.lt_or_ge 1 k with hgt | hone
      · have hfrom' : ∀ q, q.Prime → q ∣ k → i ≤ q := fun q hq hqk => hfrom q hq (hqk.mul_left i)
        have hik := (hfrom' _ (Nat.minFac_prime (by omega)) (Nat.minFac_dvd k)).trans (Nat.minFac_le (by omega))
        obtain ⟨p, hp, hpp, hpk, hmax⟩ := ih hi hgt (by omega) hfrom' (by omega) hik
        refine ⟨p, hp, hpp, hpk.mul_left i, fun q hq hqd => ?_⟩
        rcases hq.dvd_mul.mp hqd with hqi | hqk
        · exact (Nat.le_of_dvd (by omega) hqi).trans (hfrom p hpp (hpk.mul_left i))
        · exact hmax q hq hqk
      · -- the last factor
        obtain rfl : k = 1 := by omega
        obtain ⟨fuel, rfl⟩ : ∃ f, fuel = f + 1 := ⟨fuel - 1, by omega⟩
        refine ⟨i, rfl, hprime, dvd_mul_right i 1, fun q _ hq => Nat.le_of_dvd (by omega) ?_⟩
        rwa [Nat.mul_one] at hq
    · have hlt : i < num := lt_of_le_of_ne hle fun h => hdvd (h ▸ dvd_refl i)
      rw [if_neg fun h => hdvd (Nat.dvd_of_mod_eq_zero h), if_pos (by omega)]
      refine ih (by omega) hnum hint (fun q hq hqd => ?_) (by omega) hlt
      exact lt_of_le_of_ne (hfrom q hq hqd) fun h => hdvd (h ▸ hqd)

/-- `flpf` -/
def flpf (num : Int) : Option Nat := flpfLoop (2 * num.toNat + 1) num.toNat 2

/-- `flpf` returns the largest prime factor, and `i` does not overflow. -/
theorem flpf_largest (num : Int) (hnum : 2 ≤ num) (hint : num < 2 ^ 31) :
    ∃ p, flpf num = some p ∧ IsLargestFactor num.toNat p :=
  flpfLoop_spec (le_refl 2) (by omega) (by omega) (fun _ hq _ => hq.two_le) (by omega)

theorem flpf_largest_of_84 : ∃ p, flpf 84 = some p ∧ IsLargestFactor 84 p := flpf_largest 84 (by decide) (by decide)

/-! ## `atoi` and `printint` -/

/-- `'0' <= c && c <= '9'` -/
def isDigit (c : UInt8) : Bool := decide (48 ≤ c ∧ c ≤ 57)

/-- The number that a string of digits stands for, after the number `n`. -/
def decimal (n : Nat) (s : List UInt8) : Nat := s.foldl (fun n c => 10 * n + (c.toNat - 48)) n

/-- `atoi`, in 32 bits -/
def atoi (s : List UInt8) : Int :=
  (s.takeWhile isDigit).foldl (fun n c => cInt (n * 10 + (c.toNat - 48 : Int))) 0

/-- `digits[d]` -/
def digit (d : Nat) : UInt8 := if d < 10 then UInt8.ofNat (48 + d) else UInt8.ofNat (55 + d)

/-- `do buf[i++] = digits[x % base]; while((x /= base) != 0)`; a `uint` has no more than 32 digits. -/
def digitLoop (digits : Nat → UInt8) (base : Nat) : Nat → Nat → List UInt8
  | 0, _ => []
  | fuel + 1, x =>
    digits (x % base) :: if x / base ≠ 0 then digitLoop digits base fuel (x / base) else []

/-- `printint`: what it writes -/
def printint (xx : Int) (base : Nat) (sgn : Bool) : List UInt8 :=
  let neg := sgn && decide (xx < 0)
  let x := ((if neg then -xx else xx) % 2 ^ 32).toNat
  (digitLoop digit base 32 x ++ if neg then [45] else []).reverse

theorem atoi_decimal {s : List UInt8} (hs : s.all isDigit = true) (hint : decimal 0 s < 2 ^ 31) :
    atoi s = decimal 0 s := by
  have hloop : ∀ (s : List UInt8) (n : Nat), (∀ c ∈ s, isDigit c = true) → decimal n s < 2 ^ 31 →
      s.foldl (fun n c => cInt (n * 10 + (c.toNat - 48 : Int))) (n : Int) = decimal n s := by
    intro s
    induction s with
    | nil => exact fun n _ _ => rfl
    | cons c s ih =>
      intro n hs hint
      have hc : 48 ≤ c.toNat := (of_decide_eq_true (hs c List.mem_cons_self)).1
      have hmono : ∀ (s : List UInt8) (m : Nat), m ≤ decimal m s := by
        intro s
        induction s with
        | nil => exact fun m => le_refl m
        | cons c s ih => exact fun m => le_trans (show m ≤ 10 * m + (c.toNat - 48) by omega) (ih _)
      have hle := hmono s (10 * n + (c.toNat - 48))
      have hint' : decimal (10 * n + (c.toNat - 48)) s < 2 ^ 31 := hint
      rw [List.foldl_cons, cInt_of_lt (by omega) (by omega)]
      have hcast : (n : Int) * 10 + (c.toNat - 48) = ((10 * n + (c.toNat - 48) : Nat) : Int) := by omega
      rw [hcast, ih _ (fun d hd => hs d (List.mem_cons_of_mem c hd)) hint']
      rfl
  rw [atoi, List.takeWhile_eq_self_iff.mpr (List.all_eq_true.mp hs)]
  exact hloop s 0 (List.all_eq_true.mp hs) hint

variable {base : Nat}

theorem digitLoop_eq (hb : 1 < base) {fuel x : Nat} (hx : x ≠ 0) (hfuel : x < base ^ fuel) :
    digitLoop digit base fuel x = (Nat.digits base x).map digit := by
  induction fuel generalizing x with
  | zero => exact absurd (Nat.lt_one_iff.mp hfuel) hx
  | succ fuel ih =>
    rw [digitLoop, Nat.digits_def' hb (Nat.pos_of_ne_zero hx), List.map_cons]
    split
    · rename_i hne
      rw [ih hne (Nat.div_lt_of_lt_mul (by rwa [← pow_succ']))]
    · rename_i hzero
      rw [not_ne_iff.mp hzero, Nat.digits_zero, List.map_nil]

/-- The numeral of `n`: its digits, the most significant one first, and a single `0` for zero. -/
def numeral (base n : Nat) : List UInt8 := if n = 0 then [digit 0] else ((Nat.digits base n).map digit).reverse

/-- With the sign. -/
def signed (xx : Int) : List UInt8 := (if xx < 0 then [45] else []) ++ numeral 10 xx.natAbs

/-- `digits[d]` in the kernel -/
def consDigit (d : Nat) : UInt8 := if d < 10 then UInt8.ofNat (48 + d) else UInt8.ofNat (87 + d)

/-- `printint` of the kernel: what it gives to `consputc`.  The test of `sign` also assigns it. -/
def consPrintint (xx : Int) (base : Nat) (sign : Bool) : List UInt8 :=
  let sign := if sign then decide (xx < 0) else false
  let x := ((if sign then -xx else xx) % 2 ^ 32).toNat
  (digitLoop consDigit base 32 x ++ if sign then [45] else []).reverse

/-- An upper-case letter in lower case. -/
def lower (c : UInt8) : UInt8 := if 65 ≤ c ∧ c ≤ 90 then c + 32 else c

theorem digitLoop_numeral (hb : 1 < base) {fuel x : Nat} (hx : x < base ^ (fuel + 1)) :
    (digitLoop digit base (fuel + 1) x).reverse = numeral base x := by
  unfold numeral
  split
  · rename_i h0
    rw [h0, digitLoop, Nat.zero_mod, Nat.zero_div]
    rfl
  · rename_i h0
    rw [digitLoop_eq hb h0 hx]

theorem numeral_length (hb : 1 < base) {n k : Nat} (hk : 0 < k) (hn : n < base ^ k) : (numeral base n).length ≤ k := by
  unfold numeral
  split
  · exact hk
  · rw [List.length_reverse, List.length_map]
    exact (Nat.digits_length_le_iff hb n).mpr hn

theorem numeral_all (n : Nat) : (numeral 10 n).all isDigit = true := by
  have hdigit : ∀ d < 10, isDigit (digit d) = true := by decide
  unfold numeral
  split
  · decide
  · rw [List.all_reverse, List.all_map, List.all_eq_true]
    exact fun d hd => hdigit d (Nat.digits_lt_base (by decide) hd)

/-- The numeral stands for its number. -/
theorem decimal_numeral (n : Nat) : decimal 0 (numeral 10 n) = n := by
  have hval : ∀ d < 10, (digit d).toNat - 48 = d := by decide
  have hloop : ∀ l : List Nat, (∀ d ∈ l, d < 10) → decimal 0 (l.map digit).reverse = Nat.ofDigits 10 l := by
    intro l hl
    induction l with
    | nil => rfl
    | cons d l ih =>
      rw [List.map_cons, List.reverse_cons, decimal, List.foldl_append]
      show 10 * decimal 0 (l.map digit).reverse + ((digit d).toNat - 48) = _
      rw [ih fun e he => hl e (List.mem_cons_of_mem d he), hval d (hl d List.mem_cons_self), Nat.ofDigits_cons,
        Nat.add_comm]
  unfold numeral
  split
  · rename_i h0
    rw [h0]
    rfl
  · rw [hloop _ fun d hd => Nat.digits_lt_base (by decide) hd, Nat.ofDigits_digits]

theorem digitLoop_lower (hb : 0 < base) (hle : base ≤ 16) (fuel x : Nat) :
    digitLoop consDigit base fuel x = (digitLoop digit base fuel x).map lower := by
  have hdigit : ∀ d < 16, consDigit d = lower (digit d) := by decide
  induction fuel generalizing x with
  | zero => rfl
  | succ fuel ih =>
    rw [digitLoop, digitLoop, List.map_cons, hdigit _ ((Nat.mod_lt x hb).trans_le hle), ih]
    split <;> rfl

/-- The two functions differ in the case of the letters. -/
theorem consPrintint_eq (hb : 0 < base) (hle : base ≤ 16) (xx : Int) (sign : Bool) :
    consPrintint xx base sign = (printint xx base sign).map lower := by
  have hsign : (if sign then decide (xx < 0) else false) = (sign && decide (xx < 0)) := by cases sign <;> rfl
  simp only [consPrintint, printint, hsign, digitLoop_lower hb hle, List.map_reverse, List.map_append]
  split <;> rfl

theorem printint_signed {xx : Int} (hlow : -2 ^ 31 ≤ xx) (hhigh : xx < 2 ^ 31) :
    printint xx 10 true = signed xx := by
  have hx : ((if xx < 0 then -xx else xx) % 2 ^ 32).toNat = xx.natAbs := by
    split <;> omega
  simp only [printint, signed, Bool.true_and, decide_eq_true_eq, List.reverse_append, hx]
  rw [digitLoop_numeral (by decide) (by omega)]
  split <;> rfl

/-- **Numbers are printed as numerals**, by both functions, in no more than 16 bytes of `buf`, which is what they print in
    reverse; and `atoi` reads back what is not negative. -/
theorem printint_numeral (xx : BitVec 32) :
    printint xx.toInt 10 true = signed xx.toInt ∧ printint xx.toInt 16 false = numeral 16 xx.toNat ∧
    (printint xx.toInt 10 true).length ≤ 16 ∧ (printint xx.toInt 16 false).length ≤ 16 ∧
    consPrintint xx.toInt 10 true = (printint xx.toInt 10 true).map lower ∧
    consPrintint xx.toInt 16 false = (printint xx.toInt 16 false).map lower ∧
    (0 ≤ xx.toInt → atoi (printint xx.toInt 10 true) = xx.toInt) := by
  have hint := xx.toInt_eq_toNat_cond
  have hlt := xx.isLt
  have hdec : printint xx.toInt 10 true = signed xx.toInt :=
    printint_signed (by split at hint <;> omega) (by split at hint <;> omega)
  have hhex : printint xx.toInt 16 false = numeral 16 xx.toNat := by
    have hx : (xx.toInt % 2 ^ 32).toNat = xx.toNat := by split at hint <;> omega
    simp only [printint, Bool.false_and, Bool.false_eq_true, if_false, List.append_nil, hx]
    exact digitLoop_numeral (by decide) (by omega)
  have hlen : (numeral 10 xx.toInt.natAbs).length ≤ 10 := numeral_length (by decide) (by decide) (by omega)
  refine ⟨hdec, hhex, ?_, ?_, consPrintint_eq (by decide) (by decide) _ _,
    consPrintint_eq (by decide) (by decide) _ _, fun h0 => ?_⟩
  · rw [hdec, signed, List.length_append]
    split
    all_goals
      simp only [List.length_singleton, List.length_nil]
      omega
  · rw [hhex]
    exact numeral_length (by decide) (by decide) (by omega)
  · rw [hdec, signed, if_neg (by omega), List.nil_append]
    rw [atoi_decimal (numeral_all _) (by rw [decimal_numeral]; omega), decimal_numeral]
    omega

/-! ## `prime_numbers` -/

/-- An open file: what is in it, and `f->off`. -/
structure File where
  content : List UInt8
  off : Nat

/-- `open(FILE_NAME, O_CREATE | O_WRONLY)`, of a file with this content: it is not truncated. -/
def openFile (old : List UInt8) : File := ⟨old, 0⟩

/-- `write(fd, &c, 1)`: a file does not get longer than `MAXFILE` blocks. -/
def File.write (f : File) (c : UInt8) : File :=
  if f.off + 1 > MAXFILE * BSIZE then f
  else ⟨f.content.take f.off ++ c :: f.content.drop (f.off + 1), f.off + 1⟩

/-- The inner loop: `flag` -/
def hasDivisor (i : Int) : Bool := (List.range' 2 (i - 2).toNat).any fun j => decide (i % j = 0)

/-- The numbers that are written, from `a` to `b`. -/
def printed (a b : Int) : List Int :=
  ((List.range (b + 1 - a).toNat).map fun k : Nat => a + k).filter fun i => !hasDivisor i

/-- `printf(fd, "%d\n", i)` -/
def printLine (i : Int) : List UInt8 := printint i 10 true ++ [10]

/-- `prime_numbers`: the content of the file after it is closed, if it was `old` before. -/
def primeNumbers (argv₁ argv₂ old : List UInt8) : List UInt8 :=
  (((printed (atoi argv₁) (atoi argv₂)).flatMap printLine).foldl File.write (openFile old)).content

/-- The line of a number. -/
def line (n : Nat) : List UInt8 := numeral 10 n ++ [10]

theorem printLine_eq {i : Nat} (h : i < 2 ^ 31) : printLine i = line i := by
  rw [printLine, printint_signed (by omega) (by omega), signed, if_neg (by omega), Int.natAbs_natCast]
  rfl

theorem hasDivisor_eq {i : Nat} (h : 2 ≤ i) : (!hasDivisor i) = decide i.Prime := by
  have hmem : ∀ j, j ∈ List.range' 2 ((i : Int) - 2).toNat ↔ 2 ≤ j ∧ j < i := by
    intro j
    rw [List.mem_range'_1]
    omega
  rw [Bool.eq_iff_iff, Bool.not_eq_true', decide_eq_true_iff, hasDivisor, List.any_eq_false, Nat.prime_def_lt']
  constructor
  · intro hno
    refine ⟨h, fun j h2 hj hdvd => hno j ((hmem j).mpr ⟨h2, hj⟩) (decide_eq_true ?_)⟩
    exact Int.emod_eq_zero_of_dvd (Int.natCast_dvd_natCast.mpr hdvd)
  · intro hp j hj hdvd
    obtain ⟨h2, hlt⟩ := (hmem j).mp hj
    exact hp.2 j h2 hlt (Int.natCast_dvd_natCast.mp (Int.dvd_of_emod_eq_zero (of_decide_eq_true hdvd)))

/-- From 2 on, the primes are written. -/
theorem printed_primes {m n : Nat} (h2 : 2 ≤ m) (hn : n < 2 ^ 31) : (printed m n).flatMap printLine =
    ((List.range' m (n + 1 - m)).filter fun p => p.Prime).flatMap line := by
  have hrange : (List.range ((n : Int) + 1 - m).toNat).map (fun k : Nat => (m : Int) + k) =
      (List.range' m (n + 1 - m)).map Nat.cast := by
    rw [List.range'_eq_map_range, List.map_map, show ((n : Int) + 1 - m).toNat = n + 1 - m by omega]
    exact List.map_congr_left fun k _ => (Nat.cast_add m k).symm
  have hmem : ∀ p ∈ List.range' m (n + 1 - m), 2 ≤ p ∧ p < 2 ^ 31 := by
    intro p hp
    rw [List.mem_range'_1] at hp
    omega
  have hfilter : (List.range' m (n + 1 - m)).filter ((fun i : Int => !hasDivisor i) ∘ Nat.cast) =
      (List.range' m (n + 1 - m)).filter fun p => p.Prime :=
    List.filter_congr fun p hp => hasDivisor_eq (hmem p hp).1
  rw [printed, hrange, List.filter_map, List.flatMap_map, hfilter]
  exact List.flatMap_congr fun p hp => printLine_eq (hmem p (List.mem_filter.mp hp).1).2

/-- The numbers 0 and 1 are written down, too. -/
theorem printed_first {m n : Nat} (h2 : m < 2) (hle : m ≤ n) :
    ((printed m n).flatMap printLine).head? = some (digit m) := by
  have hcons : List.range ((n : Int) + 1 - m).toNat = 0 :: (List.range (n - m)).map Nat.succ := by
    rw [show ((n : Int) + 1 - m).toNat = (n - m) + 1 by omega, List.range_succ_eq_map]
  have hno : hasDivisor ((m : Int) + (0 : Nat)) = false := by
    interval_cases m <;> rfl
  rw [printed, hcons, List.map_cons, List.filter_cons, hno, Bool.not_false, if_pos rfl, List.flatMap_cons]
  interval_cases m <;> rfl

/-- The list of the primes begins with 2. -/
theorem primes_first {m n : Nat} (h2 : m < 2) :
    (((List.range' m (n + 1 - m)).filter fun p => p.Prime).flatMap line).head? ≠ some (digit m) := by
  rcases Nat.lt_or_ge n 2 with hn | hn
  · have hnil : (List.range' m (n + 1 - m)).filter (fun p => p.Prime) = [] := by
      rw [List.filter_eq_nil_iff]
      intro p hp hprime
      rw [List.mem_range'_1] at hp
      have := (of_decide_eq_true hprime).two_le
      omega
    rw [hnil]
    intro h
    cases h
  · obtain ⟨k, rfl⟩ : ∃ k, n = k + 2 := ⟨n - 2, by omega⟩
    have hline : ∀ l, (line 2 ++ l).head? = some 50 := by
      intro l
      rw [show line 2 = [50, 10] by decide]
      rfl
    interval_cases m
    · rw [show k + 2 + 1 - 0 = (k + 1 + 1) + 1 by omega, List.range'_succ, List.range'_succ, List.range'_succ,
        List.filter_cons_of_neg (by decide), List.filter_cons_of_neg (by decide),
        List.filter_cons_of_pos (by decide), List.flatMap_cons, hline]
      decide
    · rw [show k + 2 + 1 - 1 = (k + 1) + 1 by omega, List.range'_succ, List.range'_succ,
        List.filter_cons_of_neg (by decide), List.filter_cons_of_pos (by decide), List.flatMap_cons, hline]
      decide

/-- What is written replaces what was there, up to the size of the largest file, and what was there after it stays. -/
theorem foldl_write (text : List UInt8) (done rest : List UInt8) {room : Nat}
    (hmax : done.length + room = MAXFILE * BSIZE) :
    (text.foldl File.write ⟨done ++ rest, done.length⟩).content =
      done ++ text.take room ++ rest.drop (min text.length room) := by
  induction text generalizing done rest room with
  | nil => simp
  | cons c text ih =>
    rw [List.foldl_cons, File.write]
    cases room with
    | zero =>
      rw [if_pos (by simp only; omega), ih done rest hmax]
      simp
    | succ room =>
      have hwrite : (⟨(done ++ rest).take done.length ++ c :: (done ++ rest).drop (done.length + 1),
          done.length + 1⟩ : File) = ⟨(done ++ [c]) ++ rest.drop 1, (done ++ [c]).length⟩ := by
        simp
      have hroom : (done ++ [c]).length + room = MAXFILE * BSIZE := by
        rw [List.length_append, List.length_singleton]
        omega
      rw [if_neg (by simp only; omega), hwrite, ih _ _ hroom]
      simp

variable {a b : List UInt8} (old : List UInt8)

/-- The file lists the primes of the range if and only if the range begins at 2 or later, and the list fits into a file
    and covers what was there. -/
theorem prime_numbers_lists (ha : a.all isDigit = true) (hb : b.all isDigit = true)
    (hab : decimal 0 a ≤ decimal 0 b) (hint : decimal 0 b < 2 ^ 31 - 1) (hfile : old.length ≤ MAXFILE * BSIZE) :
    let primes := (List.range' (decimal 0 a) (decimal 0 b + 1 - decimal 0 a)).filter fun p => p.Prime
    (primeNumbers a b old = primes.flatMap line ↔ 2 ≤ decimal 0 a ∧
      (primes.flatMap line).length ≤ MAXFILE * BSIZE ∧ old.length ≤ (primes.flatMap line).length) ∧
    primes.Pairwise (· < ·) ∧ ∀ p, p ∈ primes ↔ p.Prime ∧ decimal 0 a ≤ p ∧ p ≤ decimal 0 b := by
  intro primes
  have hcontent : ∀ text : List UInt8, (text.foldl File.write (openFile old)).content =
      text.take (MAXFILE * BSIZE) ++ old.drop (min text.length (MAXFILE * BSIZE)) :=
    fun text => foldl_write text [] old (by simp)
  refine ⟨?_, (List.pairwise_lt_range' _ Nat.one_pos).filter _, fun p => ?_⟩
  · rw [primeNumbers, atoi_decimal ha (by omega), atoi_decimal hb (by omega), hcontent]
    rcases Nat.lt_or_ge (decimal 0 a) 2 with h2 | h2
    · -- the first byte is that of 0 or 1
      refine ⟨fun heq => absurd ?_ (primes_first (n := decimal 0 b) h2), fun h => by omega⟩
      rw [show ((List.range' (decimal 0 a) (decimal 0 b + 1 - decimal 0 a)).filter fun p => p.Prime).flatMap line = _
        from heq.symm]
      have hfirst := printed_first h2 hab
      cases htext : (printed (decimal 0 a) (decimal 0 b)).flatMap printLine with
      | nil =>
        rw [htext] at hfirst
        cases hfirst
      | cons c text =>
        rw [htext] at hfirst
        exact hfirst
    · rw [printed_primes h2 (by omega)]
      constructor
      · intro heq
        have hlen := congrArg List.length heq
        rw [List.length_append, List.length_take, List.length_drop] at hlen
        refine ⟨h2, ?_, ?_⟩ <;> omega
      · rintro ⟨-, hmax, hold⟩
        rw [List.take_of_length_le hmax, Nat.min_eq_left hmax, List.drop_eq_nil_of_le hold, List.append_nil]
  · rw [List.mem_filter, List.mem_range'_1, decide_eq_true_iff]
    constructor
    · rintro ⟨hp, hprime⟩
      exact ⟨hprime, hp.1, by omega⟩
    · rintro ⟨hprime, hlow, hhigh⟩
      exact ⟨⟨hlow, by omega⟩, hprime⟩

/-- From 2 to 3, over a file with one line. -/
theorem prime_numbers_lists_two_three : primeNumbers [50] [51] [57, 10] = [50, 10, 51, 10] :=
  (prime_numbers_lists [57, 10] (by decide) (by decide) (by decide) (by decide) (by decide)).1.2 (by decide)

/-- 0 and 1 are written down, and the end of a longer file stays. -/
theorem prime_numbers_differs : primeNumbers [48] [49] [] = [48, 10, 49, 10] ∧
    primeNumbers [50] [50] [57, 10, 57, 10] = [50, 10, 57, 10] := by
  decide

end Xv6.User
