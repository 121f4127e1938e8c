/-
  BYTE BUFFERS WITH LITTLE-ENDIAN FIELDS.

  A buffer of `n` bytes is a function `Fin n → UInt8`.  A C program reads and writes such a buffer
  through casts: a 16- or 32-bit field at a byte offset, or a run of bytes copied in.  This file
  has the accessors and their read-over-write laws, which are all that a proof about such a
  program needs:

  * `get b i`, `set b i v`      — one byte;
  * `getLE k b off`, `setLE k b off v` — a little-endian field of `k` bytes at `off`;
  * `putWords b off ws`         — an array of 32-bit words stored from `off` on;
  * `testBit b i`, `setBit b i`, `clearBit b i` — bit `i % 8` of byte `i / 8`, through a mask;
  * `blit b off m src`          — `memmove(b + off, src, m)`.

  Offsets are natural numbers; every law asks for the bound it needs, so that `omega` settles the
  side conditions of a concrete layout.
-/
import Mathlib

namespace ByteBuf

/-- A buffer of `n` bytes. -/
abbrev Buf (n : Nat) := Fin n → UInt8

variable {n : Nat}

/-- The byte at index `i` (`0` outside the buffer). -/
def get (b : Buf n) (i : Nat) : UInt8 := if h : i < n then b ⟨i, h⟩ else 0

/-- Overwrite the byte at index `i` (no effect outside the buffer). -/
def set (b : Buf n) (i : Nat) (v : UInt8) : Buf n := fun j => if j.val = i then v else b j

variable {i : Nat}

theorem get_of_lt (b : Buf n) (h : i < n) : get b i = b ⟨i, h⟩ := by
  rw [get, dif_pos h]

theorem get_set_same (b : Buf n) (v : UInt8) (h : i < n) : get (set b i v) i = v := by
  rw [get_of_lt _ h, set, if_pos rfl]

theorem get_set_ne (b : Buf n) {j : Nat} (v : UInt8) (h : j ≠ i) : get (set b i v) j = get b j := by
  unfold get
  split
  · rw [set, if_neg h]
  · rfl

/-! ## Little-endian fields -/

/-- The `k`-byte little-endian number at byte offset `off`. -/
def getLE : Nat → Buf n → Nat → Nat
  | 0, _, _ => 0
  | k + 1, b, off => (get b off).toNat + 256 * getLE k b (off + 1)

/-- Store `v` as a `k`-byte little-endian number at byte offset `off`. -/
def setLE : Nat → Buf n → Nat → Nat → Buf n
  | 0, b, _, _ => b
  | k + 1, b, off, v => setLE k (set b off (UInt8.ofNat v)) (off + 1) (v / 256)

/-- A field depends on its own bytes only. -/
theorem getLE_congr : ∀ (k : Nat) {a b : Buf n} {off : Nat},
    (∀ j, off ≤ j → j < off + k → get a j = get b j) → getLE k a off = getLE k b off
  | 0, _, _, _, _ => rfl
  | k + 1, a, b, off, h => by
      simp only [getLE]
      rw [h off (Nat.le_refl _) (by omega), getLE_congr k (fun j h1 h2 => h j (by omega) (by omega))]

/-- A field of zero bytes is zero. -/
theorem getLE_zero : ∀ (k : Nat) {b : Buf n} {off : Nat},
    (∀ j, off ≤ j → j < off + k → get b j = 0) → getLE k b off = 0
  | 0, _, _, _ => rfl
  | k + 1, b, off, h => by
      rw [getLE, h off (Nat.le_refl _) (by omega), getLE_zero k (fun j h1 h2 => h j (by omega) (by omega))]
      rfl

/-- Storing a field leaves every byte outside it alone. -/
theorem get_setLE_out : ∀ (k : Nat) (b : Buf n) (off v j : Nat), j < off ∨ off + k ≤ j →
    get (setLE k b off v) j = get b j
  | 0, _, _, _, _, _ => rfl
  | k + 1, b, off, v, j, h => by
      rw [setLE, get_setLE_out k _ _ _ j (by omega), get_set_ne _ _ (by omega)]

/-- **Read what was written**, truncated to the width of the field. -/
theorem getLE_setLE_same : ∀ (k : Nat) (b : Buf n) (off v : Nat), off + k ≤ n →
    getLE k (setLE k b off v) off = v % 256 ^ k
  | 0, _, _, _, _ => by simp [getLE, Nat.mod_one]
  | k + 1, b, off, v, h => by
      rw [getLE, setLE, getLE_setLE_same k _ _ _ (by omega), get_setLE_out k _ _ _ _ (by omega),
        get_set_same _ _ (by omega), Nat.pow_succ']
      have hmod := Nat.mod_mul (a := 256) (b := 256 ^ k) (x := v)
      rw [hmod, UInt8.toNat_ofNat']

variable {k off v : Nat} {b : Buf n}

/-- A field that fits is read back exactly. -/
theorem getLE_setLE_of_lt (h : off + k ≤ n) (hv : v < 256 ^ k) : getLE k (setLE k b off v) off = v := by
  rw [getLE_setLE_same k b off v h, Nat.mod_eq_of_lt hv]

/-- Storing one field leaves a disjoint field alone. -/
theorem getLE_setLE_disjoint {l : Nat} {off' : Nat}
    (h : off' + l ≤ off ∨ off + k ≤ off') : getLE l (setLE k b off v) off' = getLE l b off' :=
  getLE_congr l fun j h1 h2 => get_setLE_out k b off v j (by omega)

/-! ## Arrays of words -/

/-- Store the words `ws` one after the other, from byte offset `off` on. -/
def putWords (b : Buf n) : Nat → List Nat → Buf n
  | _, [] => b
  | off, w :: ws => putWords (setLE 4 b off w) (off + 4) ws

theorem get_putWords_out : ∀ (ws : List Nat) (b : Buf n) (off j : Nat),
    j < off ∨ off + 4 * ws.length ≤ j → get (putWords b off ws) j = get b j
  | [], _, _, _, _ => rfl
  | w :: ws, b, off, j, h => by
      rw [List.length_cons] at h
      rw [putWords, get_putWords_out ws _ _ j (by omega), get_setLE_out 4 b off w j (by omega)]

theorem getLE_putWords : ∀ (ws : List Nat) (b : Buf n) (off i : Nat) (hi : i < ws.length),
    off + 4 * ws.length ≤ n → ws[i] < 2 ^ 32 → getLE 4 (putWords b off ws) (off + 4 * i) = ws[i]
  | w :: ws, b, off, 0, _, hn, hw => by
      rw [List.length_cons] at hn
      have hkeep : getLE 4 (putWords (setLE 4 b off w) (off + 4) ws) off =
          getLE 4 (setLE 4 b off w) off :=
        getLE_congr 4 fun j _ h2 => get_putWords_out ws _ _ j (by omega)
      show getLE 4 (putWords (setLE 4 b off w) (off + 4) ws) off = w
      rw [hkeep]
      exact getLE_setLE_of_lt (by omega) hw
  | w :: ws, b, off, i + 1, hi, hn, hw => by
      rw [List.length_cons] at hi hn
      have ih := getLE_putWords ws (setLE 4 b off w) (off + 4) i (by omega) (by omega) hw
      rw [putWords, show off + 4 * (i + 1) = off + 4 + 4 * i by omega, ih]
      rfl

/-- Storing an array of words leaves a disjoint field alone. -/
theorem getLE_putWords_disjoint {ws : List Nat} {off' : Nat} (h : off' + k ≤ off ∨ off + 4 * ws.length ≤ off') :
    getLE k (putWords b off ws) off' = getLE k b off' :=
  getLE_congr k fun j h1 h2 => get_putWords_out ws b off j (by omega)

/-! ## Bits -/

/-- The mask of bit `i` in its byte. -/
def bitMask (i : Nat) : UInt8 := 1 <<< UInt8.ofNat (i % 8)

/-- Is bit `i` set? -/
def testBit (b : Buf n) (i : Nat) : Bool := (get b (i / 8) &&& bitMask i) != 0

def setBit (b : Buf n) (i : Nat) : Buf n := set b (i / 8) (get b (i / 8) ||| bitMask i)

def clearBit (b : Buf n) (i : Nat) : Buf n := set b (i / 8) (get b (i / 8) &&& ~~~ bitMask i)

theorem and_bitMask (x : UInt8) (i : Nat) : ((x &&& bitMask i) != 0) = x.toNat.testBit (i % 8) := by
  have hall : ∀ (k : Fin 8) (m : Fin 256), ((UInt8.ofNat m.val &&& 1 <<< UInt8.ofNat k.val) != 0) =
      (UInt8.ofNat m.val).toNat.testBit k.val := by decide +kernel
  have h := hall ⟨i % 8, Nat.mod_lt i (by decide)⟩ ⟨x.toNat, x.toNat_lt⟩
  simpa [bitMask] using h

theorem bitMask_testBit (i j : Nat) : (bitMask i).toNat.testBit (j % 8) = decide (i % 8 = j % 8) := by
  have hall : ∀ k l : Fin 8,
      ((1 : UInt8) <<< UInt8.ofNat k.val).toNat.testBit l.val = decide (k.val = l.val) := by decide
  exact hall ⟨i % 8, Nat.mod_lt i (by decide)⟩ ⟨j % 8, Nat.mod_lt j (by decide)⟩

theorem not_bitMask_testBit (i j : Nat) : (~~~ bitMask i).toNat.testBit (j % 8) = !decide (i % 8 = j % 8) := by
  have hall : ∀ k l : Fin 8, (~~~ ((1 : UInt8) <<< UInt8.ofNat k.val)).toNat.testBit l.val =
      !decide (k.val = l.val) := by decide
  exact hall ⟨i % 8, Nat.mod_lt i (by decide)⟩ ⟨j % 8, Nat.mod_lt j (by decide)⟩

/-- Setting a bit sets that bit and no other. -/
theorem testBit_setBit (b : Buf n) (j : Nat) (hi : i / 8 < n) :
    testBit (setBit b i) j = (testBit b j || decide (i = j)) := by
  unfold testBit setBit
  by_cases hb : j / 8 = i / 8
  · rw [hb, get_set_same _ _ hi, and_bitMask, and_bitMask, UInt8.toNat_or, Nat.testBit_or, bitMask_testBit]
    congr 1
    exact decide_eq_decide.mpr (by omega)
  · rw [get_set_ne _ _ hb, decide_eq_false (by omega : ¬ i = j), Bool.or_false]

/-- Clearing a bit clears that bit and no other. -/
theorem testBit_clearBit (b : Buf n) (j : Nat) (hi : i / 8 < n) :
    testBit (clearBit b i) j = (testBit b j && !decide (i = j)) := by
  unfold testBit clearBit
  by_cases hb : j / 8 = i / 8
  · rw [hb, get_set_same _ _ hi, and_bitMask, and_bitMask, UInt8.toNat_and, Nat.testBit_and, not_bitMask_testBit]
    congr 2
    exact decide_eq_decide.mpr (by omega)
  · rw [get_set_ne _ _ hb, decide_eq_false (by omega : ¬ i = j), Bool.not_false, Bool.and_true]

/-! ## Copying a run of bytes into a buffer -/

/-- `memmove(b + off, src, m)`. -/
def blit (b : Buf n) (off m : Nat) (src : Nat → UInt8) : Buf n :=
  fun j => if off ≤ j.val ∧ j.val < off + m then src (j.val - off) else b j

theorem get_blit_in (b : Buf n) {m j : Nat} (src : Nat → UInt8) (hj : j < n) (h : off ≤ j)
    (h' : j < off + m) : get (blit b off m src) j = src (j - off) := by
  rw [get_of_lt _ hj, blit, if_pos ⟨h, h'⟩]

theorem get_blit_out (b : Buf n) {m j : Nat} (src : Nat → UInt8) (h : j < off ∨ off + m ≤ j) :
    get (blit b off m src) j = get b j := by
  unfold get
  split
  · rw [blit, if_neg (by simp only; omega)]
  · rfl

end ByteBuf
