/-
  WHAT THE ARGUMENT CHECKS LET THROUGH — `fetchint`, `argptr`, `fetchstr`, `argstr`, and the loop of `sys_exec`.

  The checks compute in `uint`, where `addr + 4` and `i + size` can wrap around.  In a process that ends below
  `KERNBASE` neither does: each check is the comparison of integers it stands for.
-/
import Xv6.Syscall.Bounds
import Xv6.Vm.Paging

namespace Xv6.Syscall

open Vm (KERNBASE)

namespace Caller

variable (U : Caller)

/-- The byte `k` after `addr` belongs to the process, and is NUL. -/
def NulAt (addr : BitVec 32) (k : Nat) : Prop :=
  addr.toNat + k < U.sz.toNat ∧ U.mem (addr + BitVec.ofNat 32 k) = 0

/-- The string at `addr`: the bytes before the first NUL. -/
def StringAt (addr : BitVec 32) (s : List UInt8) : Prop :=
  s = U.bytes addr s.length ∧ IsLeast {k | U.NulAt addr k} s.length

/-- The list at `uargv`: pointers to strings, and a null pointer after the last. -/
def ArgvAt : BitVec 32 → List (List UInt8) → Prop
  | uargv, [] => U.fetchint uargv = some 0
  | uargv, arg :: rest => ∃ p, U.fetchint uargv = some p ∧ p ≠ 0 ∧ U.StringAt p arg ∧ ArgvAt (uargv + 4) rest

/-- What `sys_exec` is asked to run. -/
def Execs (path : List UInt8) (argv : List (List UInt8)) : Prop :=
  U.argstr 0 = some path ∧ ∃ uargv, U.argint 1 = some uargv ∧ U.ArgvAt uargv argv ∧ argv.length ≤ MAXARG - 1

variable {U}

theorem strlenBelow_eq (k : Nat) (a : BitVec 32) : U.strlenBelow k a =
    ((List.range k).find? fun j => U.mem (a + BitVec.ofNat 32 j) == 0).map (U.bytes a) := by
  induction k generalizing a with
  | zero => rfl
  | succ k ih =>
    have hshift : ∀ j, a + BitVec.ofNat 32 (j + 1) = a + 1 + BitVec.ofNat 32 j := by
      intro j
      bv_omega
    rw [strlenBelow, List.range_succ_eq_map, List.find?_cons, BitVec.add_zero]
    split
    · next hnul =>
      rw [hnul]
      rfl
    · next hbyte =>
      rw [beq_eq_false_iff_ne.mpr hbyte, ih, List.find?_map, Option.map_map, Option.map_map]
      simp only [Function.comp_def, Nat.succ_eq_add_one, hshift]
      congr 1
      funext j
      rw [bytes, bytes, List.range_succ_eq_map, List.map_cons, List.map_map, BitVec.add_zero]
      simp only [Function.comp_def, Nat.succ_eq_add_one, hshift]

theorem fetchstr_iff {addr : BitVec 32} {s : List UInt8} : U.fetchstr addr = some s ↔ U.StringAt addr s := by
  have heq : U.fetchstr addr = U.strlenBelow (U.sz.toNat - addr.toNat) addr := by
    unfold fetchstr
    split
    · next hend => rw [Nat.sub_eq_zero_of_le hend, strlenBelow]
    · next hin => rw [BitVec.toNat_sub_of_le (by bv_omega)]
  rw [heq, strlenBelow_eq, Option.map_eq_some_iff]
  constructor
  · rintro ⟨k, hk, rfl⟩
    obtain ⟨hnul, hlt, hmin⟩ := List.find?_range_eq_some.mp hk
    rw [List.mem_range] at hlt
    rw [StringAt, bytes, List.length_map, List.length_range]
    refine ⟨rfl, ⟨by omega, eq_of_beq hnul⟩, fun j hj => ?_⟩
    by_contra hjk
    have hbyte := hmin j (by omega)
    rw [hj.2] at hbyte
    cases hbyte
  · rintro ⟨hs, hnul, hmin⟩
    refine ⟨s.length, List.find?_range_eq_some.mpr ⟨beq_iff_eq.mpr hnul.2, ?_, fun j hj => ?_⟩, hs.symm⟩
    · rw [List.mem_range]
      have := hnul.1
      omega
    · rw [Bool.not_eq_true', beq_eq_false_iff_ne]
      intro hzero
      have := hmin ⟨Nat.lt_trans (Nat.add_lt_add_left hj _) hnul.1, hzero⟩
      omega

/-- There is a string where there is a NUL. -/
theorem exists_stringAt {addr : BitVec 32} : (∃ s, U.StringAt addr s) ↔ ∃ k, U.NulAt addr k := by
  classical
  constructor
  · rintro ⟨s, -, hnul, -⟩
    exact ⟨_, hnul⟩
  · intro h
    refine ⟨U.bytes addr (Nat.find h), ?_⟩
    rw [StringAt, bytes, List.length_map, List.length_range]
    exact ⟨rfl, Nat.find_spec h, fun j hj => Nat.find_min' h hj⟩

theorem argvLoop_iff (k : Nat) (uargv : BitVec 32) (argv : List (List UInt8)) :
    argvLoop U k uargv = some argv ↔ U.ArgvAt uargv argv ∧ argv.length < k := by
  induction k generalizing uargv argv with
  | zero => exact iff_of_false nofun fun h => absurd h.2 (Nat.not_lt_zero _)
  | succ k ih =>
    rw [argvLoop]
    split
    · next hword => cases argv <;> simp [ArgvAt, hword]
    · next uarg hword =>
      split
      · next hzero => cases argv <;> simp [ArgvAt, hword, hzero]
      · next hne =>
        replace hne : uarg ≠ 0#32 := hne
        split
        · next hstr => cases argv <;> simp [ArgvAt, hword, hne, ← fetchstr_iff, hstr]
        · next hstr =>
          cases argv <;> simp [ArgvAt, hword, hne, ← fetchstr_iff, hstr, ih, and_comm, and_left_comm]

section

variable (hsz : U.sz.toNat < 2 ^ 31)

include hsz

theorem fetchint_eq (addr : BitVec 32) :
    U.fetchint addr = if addr.toNat + 4 ≤ U.sz.toNat then some (U.word addr) else none := by
  unfold fetchint
  split <;> split
  · bv_omega
  · rfl
  · rfl
  · bv_omega

theorem argptr_iff {n : Nat} {size p : BitVec 32} : U.argptr n size.toInt = some p ↔ U.argint n = some p ∧
    0 ≤ size.toInt ∧ p.toNat < U.sz.toNat ∧ p.toNat + size.toInt ≤ U.sz.toNat := by
  unfold argptr
  rw [BitVec.ofInt_toInt]
  cases U.argint n with
  | none => exact iff_of_false nofun nofun
  | some i =>
    have hint := BitVec.toInt_eq_toNat_cond size
    have hlt := size.isLt
    show (if _ then none else some i) = _ ↔ some i = _ ∧ _
    split
    · next hbad =>
      refine iff_of_false nofun ?_
      rintro ⟨hi, hpos, hin, hend⟩
      cases hi
      split at hint <;> bv_omega
    · next hok =>
      constructor
      · intro hi
        cases hi
        refine ⟨rfl, ?_⟩
        split at hint <;> bv_omega
      · exact fun h => h.1

end

end Caller

open Caller

/-- **The argument checks are exact.**  An int is fetched if its four bytes are below `sz`; a block is let through if
    the argument can be fetched and the block, as a range of integers, is below `sz`; a string is fetched if there is a
    NUL in `[addr, sz)`, up to the first one; and `sys_exec` runs the list of at most `MAXARG - 1` such strings that
    ends in a null pointer, or returns -1. -/
theorem args_exact (U : Caller) (hsz : U.sz.toNat < KERNBASE) :
    (∀ addr, U.fetchint addr = if addr.toNat + 4 ≤ U.sz.toNat then some (U.word addr) else none) ∧
    (∀ n (size p : BitVec 32), U.argptr n size.toInt = some p ↔ U.argint n = some p ∧
      0 ≤ size.toInt ∧ p.toNat < U.sz.toNat ∧ p.toNat + size.toInt ≤ U.sz.toNat) ∧
    (∀ addr, (∃ s, U.fetchstr addr = some s) ↔ ∃ k, U.NulAt addr k) ∧
    (∀ addr s, U.fetchstr addr = some s ↔ U.StringAt addr s) ∧
    (∀ n s, U.argstr n = some s ↔ ∃ addr, U.argint n = some addr ∧ U.StringAt addr s) ∧
    (∀ path argv, U.Execs path argv → sysExec U = exec path argv) ∧
    ((∀ path argv, ¬ U.Execs path argv) → sysExec U = return -1) := by
  refine ⟨fetchint_eq hsz, fun n size p => argptr_iff hsz, fun addr => ?_, fun addr s => fetchstr_iff, fun n s => ?_, ?_, ?_⟩
  · simp only [fetchstr_iff, exists_stringAt]
  · simp only [← fetchstr_iff]
    exact Option.bind_eq_some_iff
  · rintro path argv ⟨hpath, uargv, hword, hargv, hlen⟩
    have hloop := (argvLoop_iff MAXARG uargv argv).mpr ⟨hargv, Nat.lt_succ_of_le hlen⟩
    simp only [sysExec, hpath, hword, hloop]
  · intro hno
    unfold sysExec
    split
    · next path uargv hpath hword =>
      split
      · rfl
      · next argv hargv =>
        obtain ⟨hat, hlen⟩ := (argvLoop_iff MAXARG uargv argv).mp hargv
        exact absurd ⟨hpath, uargv, hword, hat, Nat.le_of_lt_succ hlen⟩ (hno path argv)
    · rfl

theorem args_exact_acquires : (acquires 5).fetchstr 4 = some [5] ∧ (acquires 5).StringAt 4 [5] := by
  have hstr : (acquires 5).fetchstr 4 = some [5] := by decide
  exact ⟨hstr, ((args_exact (acquires 5) (by decide)).2.2.2.1 4 [5]).mp hstr⟩

end Xv6.Syscall
