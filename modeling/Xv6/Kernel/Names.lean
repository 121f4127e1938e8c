/-
  Names, paths and directory entries.

  1. **Names** — `namecmp` compares `DIRSIZ` bytes or up to the first NUL, so a name buffer counts as
     the string it holds: a `Name` is at most `DIRSIZ` bytes, none of them NUL.
  2. **Paths** — `skipelem` as in the source; `pathElems` lists what successive calls of it deliver, and
     this is what `namex` walks along.
  3. **Directories** — a directory is the byte string of its file, read and written through
     `struct dirent`s of 16 bytes (`direntAt`); writing one entry changes that entry and no other.
-/
import Mathlib
import Xv6.Param

namespace Xv6.Kernel

/-! ## Names -/

/-- A file name as `namecmp` sees it. -/
def Name := { l : List UInt8 // l.length ≤ DIRSIZ ∧ 0 ∉ l }

instance : DecidableEq Name := inferInstanceAs (DecidableEq { _l : List UInt8 // _ })

/-- The name in a buffer: up to the first NUL, and `DIRSIZ` bytes at most. -/
def Name.ofBytes (l : List UInt8) : Name :=
  ⟨(l.take DIRSIZ).takeWhile (· ≠ 0), by
    refine ⟨(List.takeWhile_prefix _).length_le.trans (List.length_take_le _ _), fun h => ?_⟩
    simpa using List.mem_takeWhile_imp h⟩

theorem Name.ofBytes_val (n : Name) (pad : List UInt8) : Name.ofBytes (n.val ++ 0 :: pad) = n := by
  obtain ⟨l, hlen, h0⟩ := n
  refine Subtype.ext ?_
  show ((l ++ 0 :: pad).take DIRSIZ).takeWhile (· ≠ 0) = l
  have hall : ∀ b ∈ l, decide (b ≠ 0) = true := fun b hb => decide_eq_true fun e => h0 (e ▸ hb)
  rw [List.take_append, List.take_of_length_le hlen, List.takeWhile_append_of_pos hall]
  cases DIRSIZ - l.length with
  | zero => simp
  | succ m => simp

theorem Name.ofBytes_full {n : Name} (h : n.val.length = DIRSIZ) : Name.ofBytes n.val = n := by
  obtain ⟨l, hlen, h0⟩ := n
  refine Subtype.ext ?_
  show (l.take DIRSIZ).takeWhile (· ≠ 0) = l
  rw [List.take_of_length_le hlen]
  exact List.takeWhile_eq_self_iff.mpr fun b hb => decide_eq_true fun e => h0 (e ▸ hb)

/-- `"."` -/
def dot : Name := ⟨[46], by decide⟩
/-- `".."` -/
def dotdot : Name := ⟨[46, 46], by decide⟩

/-! ## Paths -/

/-- `'/'` -/
abbrev slash : UInt8 := 47

/-- Copy the next path element from `path` into `name`; what is left has no leading slashes.
    `none` if there is no name to remove. -/
def skipelem (path : List UInt8) : Option (Name × List UInt8) :=
  match path.dropWhile (· == slash) with
  | [] => none
  | b :: s =>
    some (.ofBytes ((b :: s).takeWhile (· != slash)),
      ((b :: s).dropWhile (· != slash)).dropWhile (· == slash))

/-- The elements delivered by at most `n` calls of `skipelem`. -/
def elems : Nat → List UInt8 → List Name
  | 0, _ => []
  | n + 1, path =>
    match skipelem path with
    | none => []
    | some (name, rest) => name :: elems n rest

/-- The elements of a path. -/
def pathElems (path : List UInt8) : List Name := elems path.length path

variable {path rest : List UInt8} {name : Name}

theorem skipelem_lt (h : skipelem path = some (name, rest)) : rest.length < path.length := by
  unfold skipelem at h
  cases hs : path.dropWhile (· == slash) with
  | nil => rw [hs] at h; cases h
  | cons b s =>
    have hb : (b == slash) = false := by
      have := List.head?_dropWhile_not (· == slash) path
      rw [hs] at this
      simpa using this
    have hlen := (List.dropWhile_suffix (l := path) (· == slash)).length_le
    rw [hs] at h hlen
    obtain ⟨-, rfl⟩ := Prod.mk.inj (Option.some.inj h)
    have hdrop : (b :: s).dropWhile (· != slash) = s.dropWhile (· != slash) := by
      rw [List.dropWhile_cons_of_pos]
      simp [bne, hb]
    have h1 := (List.dropWhile_suffix (l := s.dropWhile (· != slash)) (· == slash)).length_le
    have h2 := (List.dropWhile_suffix (l := s) (· != slash)).length_le
    rw [hdrop]
    simp only [List.length_cons] at hlen
    omega

/-- More calls than the path has bytes deliver nothing more. -/
theorem elems_enough : ∀ (n m : Nat) (path : List UInt8), path.length ≤ n → path.length ≤ m →
    elems n path = elems m path
  | 0, 0, _, _, _ => rfl
  | 0, m + 1, path, hn, _ => by
    obtain rfl := List.length_eq_zero_iff.mp (Nat.le_zero.mp hn)
    rfl
  | n + 1, 0, path, _, hm => by
    obtain rfl := List.length_eq_zero_iff.mp (Nat.le_zero.mp hm)
    rfl
  | n + 1, m + 1, path, hn, hm => by
    simp only [elems]
    cases hs : skipelem path with
    | none => rfl
    | some r =>
      obtain ⟨name, rest⟩ := r
      have hlt := skipelem_lt hs
      show name :: elems n rest = name :: elems m rest
      rw [elems_enough n m rest (by omega) (by omega)]

/-- **The loop of `namex`**: one call of `skipelem` for each element. -/
theorem pathElems_eq (path : List UInt8) : pathElems path =
    match skipelem path with
    | none => []
    | some (name, rest) => name :: pathElems rest := by
  cases path with
  | nil => rfl
  | cons b s =>
    show elems (s.length + 1) (b :: s) = _
    simp only [elems]
    cases hs : skipelem (b :: s) with
    | none => rfl
    | some r =>
      obtain ⟨name, rest⟩ := r
      have hlt := skipelem_lt hs
      show name :: elems s.length rest = name :: elems rest.length rest
      rw [List.length_cons] at hlt
      rw [elems_enough s.length rest.length rest (by omega) (Nat.le_refl _)]

/-- The test `*path == '\0'` after `skipelem` asks whether that was the last element. -/
theorem rest_eq_nil_iff (h : skipelem path = some (name, rest)) : rest = [] ↔ pathElems rest = [] := by
  constructor
  · rintro rfl
    rfl
  · intro hnil
    rw [pathElems_eq] at hnil
    unfold skipelem at h
    cases hs : path.dropWhile (· == slash) with
    | nil => rw [hs] at h; cases h
    | cons b s =>
      rw [hs] at h
      obtain ⟨-, hrest⟩ := Prod.mk.inj (Option.some.inj h)
      -- what is left starts with something other than a slash, if at all
      have hsame : rest.dropWhile (· == slash) = rest := by
        rw [← hrest, List.dropWhile_idempotent]
      cases hr : rest with
      | nil => rfl
      | cons c l =>
        rw [hr] at hnil hsame
        rw [skipelem, hsame] at hnil
        cases hnil

/-! ## The bytes of a file -/

/-- `n` bytes from `off` on, or as many as there are. -/
def slice (data : List UInt8) (off n : Nat) : List UInt8 := (data.drop off).take n

/-- The bytes `src` written at `off`. -/
def splice (data : List UInt8) (off : Nat) (src : List UInt8) : List UInt8 :=
  data.take off ++ src ++ data.drop (off + src.length)

theorem length_splice {data src : List UInt8} {off : Nat} (h : off ≤ data.length) :
    (splice data off src).length = max data.length (off + src.length) := by
  simp only [splice, List.length_append, List.length_take, List.length_drop]
  omega

/-! ## Directory entries -/

/-- `struct dirent`. -/
structure Dirent where
  inum : Nat
  name : Name
  deriving DecidableEq

/-- `sizeof(struct dirent)` -/
abbrev DESIZE : Nat := 16

/-- The 16 bytes of an entry; `strncpy` pads the name with NULs. -/
def Dirent.encode (de : Dirent) : List UInt8 :=
  UInt8.ofNat de.inum :: UInt8.ofNat (de.inum / 256) ::
    (de.name.val ++ List.replicate (DIRSIZ - de.name.val.length) 0)

/-- Bytes read as an entry. -/
def Dirent.decode : List UInt8 → Dirent
  | lo :: hi :: name => ⟨lo.toNat + 256 * hi.toNat, .ofBytes name⟩
  | _ => ⟨0, .ofBytes []⟩

theorem Dirent.length_encode (de : Dirent) : de.encode.length = DESIZE := by
  have := de.name.property.1
  simp only [encode, List.length_cons, List.length_append, List.length_replicate, DIRSIZ, DESIZE] at *
  omega

theorem Dirent.decode_encode {de : Dirent} (h : de.inum < 2 ^ 16) : decode de.encode = de := by
  obtain ⟨inum, name⟩ := de
  have hinum : (UInt8.ofNat inum).toNat + 256 * (UInt8.ofNat (inum / 256)).toNat = inum := by
    simp only [UInt8.toNat_ofNat']
    simp only at h
    omega
  have hname : Name.ofBytes (name.val ++ List.replicate (DIRSIZ - name.val.length) 0) = name := by
    cases hn : DIRSIZ - name.val.length with
    | zero =>
      have := name.property.1
      rw [List.replicate_zero, List.append_nil]
      exact Name.ofBytes_full (by omega)
    | succ m =>
      rw [List.replicate_succ]
      exact Name.ofBytes_val name _
  show Dirent.mk _ _ = _
  rw [hinum, hname]

/-- Entry `k` of a directory. -/
def direntAt (data : List UInt8) (k : Nat) : Dirent := .decode (slice data (DESIZE * k) DESIZE)

/-- The number of entries of a directory, those not in use included. -/
def ndirents (data : List UInt8) : Nat := data.length / DESIZE

end Xv6.Kernel
