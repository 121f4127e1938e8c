/-
  `copyout` — which bytes it writes, and when it uses a null pointer.

  `walkpgdir` returns a null pointer for an address without a page table, and `uva2ka` reads through it.  `exec` takes the
  length of a string off the stack pointer without a look at it, so a string that is longer than the new image puts the
  pointer below 0: into the hole between physical memory and the devices (`null_used`).

  Exactly where there is a page table for every page that `copyout` comes to (`Walkable`), it copies up to the first page
  that is not there or not the user's (`copyout_writes`).  An address space may have a page at several addresses, so the byte that
  is found at a place is the last one that was copied there (`Written`).
-/
import Mathlib
import Xv6.Exec.Image
import Xv6.Vm.Tables

namespace Xv6.Exec

open Outcome Vm

/-- Where the byte of a user address is; none if its page is not there or not the user's. -/
def place (A : Pgdir) (va : Nat) : Option (Page × Nat) :=
  match A.pte va with
  | none => none
  | some e => if e.perm.user = false then none else some (e.page, va % PGSIZE)

/-- `p` has been copied to `[va, va + k)`. -/
structure Written (A : Pgdir) (va : Nat) (p : Nat → UInt8) (k : Nat) (b b' : Page → Nat → UInt8) : Prop where
  there : ∀ i < k, ∀ v o, place A ((va + i) % 2 ^ 32) = some (v, o) →
    (∀ j, i < j → j < k → place A ((va + j) % 2 ^ 32) ≠ some (v, o)) → b' v o = p i
  elsewhere : ∀ v o, (∀ i < k, place A ((va + i) % 2 ^ 32) ≠ some (v, o)) → b' v o = b v o

/-- There is a page table for every page up to the first that is not the user's. -/
def Walkable (A : Pgdir) (va len : Nat) : Prop :=
  ∀ i < len, (∀ j < i, (place A ((va + j) % 2 ^ 32)).isSome = true) → (A.pde (pdx ((va + i) % 2 ^ 32))).isSome = true

variable {A : Pgdir} {va k n : Nat} {p : Nat → UInt8} {b b' : Page → Nat → UInt8}

theorem written_zero (A : Pgdir) (va : Nat) (p : Nat → UInt8) (b : Page → Nat → UInt8) : Written A va p 0 b b where
  there i hi := absurd hi (Nat.not_lt_zero i)
  elsewhere _ _ _ := rfl

/-- `n` more bytes, in one page. -/
theorem Written.chunk (h : Written A va p k b b') {v : Page} {off : Nat}
    (hplace : ∀ i < n, place A ((va + (k + i)) % 2 ^ 32) = some (v, off + i)) :
    Written A va p (k + n) b (Function.update b' v fun i =>
      if off ≤ i ∧ i < off + n then p (k + (i - off)) else b' v i) := by
  -- a place that none of the new bytes has stays
  have hout : ∀ w o, (∀ i < n, place A ((va + (k + i)) % 2 ^ 32) ≠ some (w, o)) →
      Function.update b' v (fun i => if off ≤ i ∧ i < off + n then p (k + (i - off)) else b' v i) w o = b' w o := by
    intro w o hno
    rcases eq_or_ne w v with rfl | hne
    · rw [Function.update_self, if_neg]
      rintro ⟨hlo, hhi⟩
      refine hno (o - off) (by omega) ?_
      rw [hplace (o - off) (by omega), show off + (o - off) = o by omega]
    · rw [Function.update_of_ne hne]
  constructor
  · intro i hi w o hw hlast
    rcases Nat.lt_or_ge i k with hlt | hge
    · rw [hout w o fun j hj => hlast (k + j) (by omega) (by omega)]
      exact h.there i hlt w o hw fun j hij hjk => hlast j hij (by omega)
    · have hnew := hplace (i - k) (by omega)
      rw [show k + (i - k) = i by omega, hw] at hnew
      cases hnew
      rw [Function.update_self, if_pos (by omega), show k + (off + (i - k) - off) = i by omega]
  · intro w o hno
    rw [hout w o fun i hi => hno (k + i) (by omega)]
    exact h.elsewhere w o fun i hi => hno i (by omega)

/-- Addresses of one page have one entry. -/
theorem pte_page {a c : Nat} (ha : a < 2 ^ 32) (hc : c < 2 ^ 32) (h : a / PGSIZE = c / PGSIZE) :
    A.pte a = A.pte c ∧ A.pde (pdx a) = A.pde (pdx c) := by
  obtain ⟨hd, hx⟩ := (index_eq_iff ha hc).mpr h
  exact ⟨by rw [Pgdir.pte, Pgdir.pte, hd, hx], by rw [hd]⟩

/-- What is at a place. -/
theorem pte_of_place {v o : Nat} (h : place A va = some (v, o)) : ∃ e, A.pte va = some e ∧ e.page = v ∧ va % PGSIZE = o := by
  unfold place at h
  cases he : A.pte va with
  | none =>
    rw [he] at h
    cases h
  | some e =>
    rw [he] at h
    dsimp only at h
    split at h
    · cases h
    · cases h
      exact ⟨e, rfl, rfl, rfl⟩

/-- Where all pages are the user's, there is a page table for each. -/
theorem walkable_of_user (h : ∀ i < k, (place A ((va + i) % 2 ^ 32)).isSome = true) : Walkable A va k := by
  intro i hi _
  obtain ⟨⟨v, o⟩, hvo⟩ := Option.isSome_iff_exists.mp (h i hi)
  obtain ⟨e, he, -, -⟩ := pte_of_place hvo
  obtain ⟨t, ht, -⟩ := Option.bind_eq_some_iff.mp he
  rw [ht]
  rfl

/-- `uva2ka`: a page, or none, or a null pointer is used. -/
theorem uva2ka_spec {a : Nat} (ha : a < 2 ^ 32) (r : Ram) :
    Meets (uva2ka A (pgrounddown a) r)
      (fun v r' => r' = r ∧ v = (place A a).map Prod.fst ∧ (A.pde (pdx a)).isSome = true) fun e => e = .trap ∧ A.pde (pdx a) = none := by
  have hround : pgrounddown a < 2 ^ 32 ∧ pgrounddown a / PGSIZE = a / PGSIZE := by
    simp only [pgrounddown, PGSIZE]
    omega
  obtain ⟨hpte, hdir⟩ := pte_page (A := A) hround.1 ha hround.2
  rw [uva2ka, hdir, hpte, place]
  cases hpde : A.pde (pdx a) with
  | none => exact ⟨rfl, rfl⟩
  | some t =>
    cases A.pte a with
    | none => exact ⟨rfl, rfl, rfl⟩
    | some e =>
      dsimp only
      split <;> exact ⟨rfl, rfl, rfl⟩

/-- The bytes of a chunk are in one page. -/
theorem place_chunk {a len i v o : Nat} (ha : a < 2 ^ 32) (hp : place A a = some (v, o)) (hi : i < chunk a len) :
    a + i < 2 ^ 32 ∧ o = a - pgrounddown a ∧ place A (a + i) = some (v, o + i) := by
  have hle : chunk a len ≤ PGSIZE - (a - pgrounddown a) := by
    unfold chunk
    split <;> omega
  have hpage : a + i < 2 ^ 32 ∧ (a + i) / PGSIZE = a / PGSIZE ∧ (a + i) % PGSIZE = a % PGSIZE + i ∧
      a % PGSIZE = a - pgrounddown a := by
    simp only [pgrounddown, PGSIZE] at hle ⊢
    omega
  have hpte := (pte_page (A := A) hpage.1 ha hpage.2.1).1
  unfold place at hp ⊢
  rw [hpte]
  cases hA : A.pte a with
  | none =>
    rw [hA] at hp
    cases hp
  | some e =>
    rw [hA] at hp
    dsimp only at hp ⊢
    split at hp
    · cases hp
    · rename_i huser
      cases hp
      rw [if_neg huser, hpage.2.2.1]
      exact ⟨hpage.1, hpage.2.2.2, rfl⟩

/-- What `copyout` returns, and what it has copied by then: all, or what is before the first page that is not the user's. -/
def Copied (A : Pgdir) (va : Nat) (p : Nat → UInt8) (len : Nat) (b b' : Page → Nat → UInt8) (ret : Int) : Prop :=
  (ret = 0 ∧ (∀ i < len, (place A ((va + i) % 2 ^ 32)).isSome = true) ∧ Written A va p len b b') ∨
  (ret = -1 ∧ ∃ k < len, (∀ i < k, (place A ((va + i) % 2 ^ 32)).isSome = true) ∧
    place A ((va + k) % 2 ^ 32) = none ∧ Written A va p k b b')

theorem copyoutLoop_zero (A : Pgdir) (p : Nat → UInt8) (a buf : Nat) (r : Ram) :
    copyoutLoop A p a 0 buf r = .ok (0, r) := by
  rw [copyoutLoop, if_neg (Nat.lt_irrefl 0)]
  rfl

/-- The loop, when `k` bytes have been copied. -/
theorem copyoutLoop_spec (len k : Nat) (r : Ram) (hgood : ∀ i < k, (place A ((va + i) % 2 ^ 32)).isSome = true)
    (hb : Written A va p k b r.bytes) : Meets (copyoutLoop A p ((va + k) % 2 ^ 32) len k r)
      (fun ret r' => r'.mem = r.mem ∧ Copied A va p (k + len) b r'.bytes ret ∧ Walkable A va (k + len))
      fun e => e = .trap ∧ ¬ Walkable A va (k + len) := by
  induction len using Nat.strong_induction_on generalizing k r with
  | _ len ih =>
    rcases Nat.eq_zero_or_pos len with rfl | hpos
    · rw [copyoutLoop_zero]
      exact ⟨rfl, .inl ⟨rfl, hgood, hb⟩, walkable_of_user hgood⟩
    rw [copyoutLoop, if_pos hpos]
    have ha : (va + k) % 2 ^ 32 < 2 ^ 32 := Nat.mod_lt _ (by decide)
    have hpde : Walkable A va (k + len) → (A.pde (pdx ((va + k) % 2 ^ 32))).isSome = true :=
      fun hwalk => hwalk k (by omega) hgood
    generalize hadef : (va + k) % 2 ^ 32 = a at ha hpde ⊢
    refine (uva2ka_spec ha r).bind ?_ fun e he => ⟨he.1, fun hwalk => by rw [he.2] at hpde; cases hpde hwalk⟩
    rintro v r ⟨rfl, rfl, hthere⟩
    cases hplace : place A a with
    | none =>
      refine ⟨rfl, .inr ⟨rfl, k, by omega, hgood, by rw [hadef]; exact hplace, hb⟩, fun i hi hbefore => ?_⟩
      rcases Nat.lt_trichotomy i k with hlt | rfl | hgt
      · exact walkable_of_user hgood i hlt fun j hj => hgood j (by omega)
      · rw [hadef]
        exact hthere
      · -- the first page that is not the user's is page `k`
        have hk := hbefore k hgt
        rw [hadef, hplace] at hk
        cases hk
    | some vo =>
      obtain ⟨v, o⟩ := vo
      have hn := chunk_pos a hpos
      have ho := (place_chunk ha hplace hn).2.1
      have hin : ∀ i < chunk a len, place A ((va + (k + i)) % 2 ^ 32) = some (v, o + i) := by
        intro i hi
        obtain ⟨hlt, -, hat⟩ := place_chunk ha hplace hi
        rw [show (va + (k + i)) % 2 ^ 32 = a + i by omega]
        exact hat
      have hgood' : ∀ i < k + chunk a len, (place A ((va + i) % 2 ^ 32)).isSome = true := by
        intro i hi
        rcases Nat.lt_or_ge i k with hlt | hge
        · exact hgood i hlt
        · have hi' := hin (i - k) (by omega)
          rw [show k + (i - k) = i by omega] at hi'
          rw [hi']
          rfl
      have hb' := hb.chunk hin
      rw [ho] at hb'
      -- `memmove`
      dsimp only [Option.map_some]
      rw [bind_of_ok (show memmove v (a - pgrounddown a) (fun i => p (k + i)) (chunk a len) _ = .ok ((), _) from rfl)]
      have hchunk : chunk a len ≤ len ∧ (chunk a len = len ∨
          (pgrounddown a + PGSIZE) % 2 ^ 32 = (va + (k + chunk a len)) % 2 ^ 32) := by
        unfold chunk
        split
        · omega
        · refine ⟨by omega, .inr ?_⟩
          simp only [pgrounddown, PGSIZE]
          omega
      rcases hchunk.2 with hlast | hnext
      · rw [hlast, Nat.sub_self, copyoutLoop_zero]
        rw [hlast] at hgood' hb'
        exact ⟨rfl, .inl ⟨rfl, hgood', hb'⟩, walkable_of_user hgood'⟩
      · rw [hnext]
        have hrest := ih (len - chunk a len) (by omega) (k + chunk a len) { r with bytes := _ } hgood' hb'
        rw [show k + chunk a len + (len - chunk a len) = k + len by omega] at hrest
        exact hrest

/-- `copyout` returns with what it has copied, or uses a null pointer. -/
theorem copyout_spec (hva : va < 2 ^ 32) (len : Nat) (r : Ram) :
    Meets (copyout A va p len r)
      (fun ret r' => r'.mem = r.mem ∧ Copied A va p len r.bytes r'.bytes ret ∧ Walkable A va len) fun e => e = .trap ∧ ¬ Walkable A va len := by
  have hspec := copyoutLoop_spec len 0 r (fun i hi => absurd hi (Nat.not_lt_zero i)) (written_zero A va p r.bytes)
  rw [Nat.add_zero, Nat.mod_eq_of_lt hva, Nat.zero_add] at hspec
  exact hspec

/-- A null pointer is used exactly if the walk comes to an address without a page table. -/
theorem copyout_trap_iff (hva : va < 2 ^ 32) (len : Nat) (r : Ram) :
    copyout A va p len r = .error .trap ↔ ¬ Walkable A va len := by
  have hspec := copyout_spec (A := A) (p := p) hva len r
  constructor
  · intro htrap
    exact (hspec.of_error htrap).2
  · intro hwalk
    cases hrun : copyout A va p len r with
    | ok z => exact absurd (hspec.of_ok hrun).2.2 hwalk
    | error e => rw [(hspec.of_error hrun).1]

/-- **`copyout`** returns 0 if all pages of `[va, va + len)` are the user's, and has copied everything; or -1, and has
    copied what is before the first page that is not; and nothing else is written: if and only if there is a page table
    for every page up to the first that is not there or not the user's. -/
theorem copyout_writes (A : Pgdir) (va : Nat) (hva : va < 2 ^ 32) (p : Nat → UInt8) (len : Nat) (r : Ram) :
    (∃ ret b', copyout A va p len r = .ok (ret, { r with bytes := b' }) ∧ Copied A va p len r.bytes b' ret) ↔
      Walkable A va len := by
  constructor
  · rintro ⟨ret, b', hrun, -⟩
    by_contra hwalk
    rw [(copyout_trap_iff hva len r).2 hwalk] at hrun
    cases hrun
  · intro hwalk
    obtain ⟨ret, ⟨m, b'⟩, hrun, rfl, hcopied, -⟩ := (copyout_spec hva len r).returns fun e he => he.2 hwalk
    exact ⟨ret, b', hrun, hcopied⟩

/-! ## A copy, and a null pointer -/

/-- An address space as `exec` makes them: a page of program, the guard page and the stack, and the kernel's tables. -/
def smallSpace : Pgdir where
  page := 1
  pde i :=
    if i = 0 then some ⟨2, fun j =>
      if j = 0 then some ⟨5, ⟨true, true⟩⟩ else if j = 1 then some ⟨6, ⟨true, false⟩⟩
      else if j = 2 then some ⟨7, ⟨true, true⟩⟩ else none⟩
    else if 512 ≤ i.val ∧ i.val < 568 ∨ 1016 ≤ i.val then some ⟨3, fun _ => some ⟨0, ⟨true, false⟩⟩⟩
    else none

/-- Two bytes are copied to the stack. -/
theorem copyout_writes_two : ∃ b', copyout smallSpace 0x2ffe (fun _ => 7) 2 ⟨⟨[], []⟩, fun _ _ => 0⟩ =
    .ok (0, ⟨⟨[], []⟩, b'⟩) ∧ b' 7 0xfff = 7 ∧ b' 7 0xffd = 0 := by
  have hgood : ∀ i < 2, place smallSpace ((0x2ffe + i) % 2 ^ 32) = some (7, 0xffe + i) := by
    intro i hi
    interval_cases i <;> rfl
  have hwalk : Walkable smallSpace 0x2ffe 2 := by
    intro i hi _
    interval_cases i <;> rfl
  obtain ⟨ret, b', hrun, ⟨rfl, -, hb⟩ | ⟨-, k, hk, -, hnone, -⟩⟩ := (copyout_writes smallSpace 0x2ffe (by decide)
    (fun _ => 7) 2 ⟨⟨[], []⟩, fun _ _ => 0⟩).2 hwalk
  · refine ⟨b', hrun, ?_, ?_⟩
    · refine hb.there 1 (by decide) 7 0xfff (hgood 1 (by decide)) fun j hj hj2 => by omega
    · refine hb.elsewhere 7 0xffd fun i hi hplace => ?_
      rw [hgood i hi, Option.some.injEq, Prod.mk.injEq] at hplace
      omega
  · rw [hgood k hk] at hnone
    cases hnone

/-- A string of 48 megabytes: the stack pointer wraps, and there is no page table for it. -/
theorem pushArgs_long {s : List UInt8} (hlen : s.length = 0x3000000) (r : Ram) :
    pushArgs smallSpace [s] 0x3000 r = .error .trap := by
  have hsp : (0x3000 + 2 ^ 32 - (s.length + 1)) % 2 ^ 32 / 4 * 4 = 0xfd002ffc := by omega
  have hcopy : copyout smallSpace 0xfd002ffc (cstr s) (s.length + 1) r = .error .trap := by
    rw [copyout, copyoutLoop, if_pos (Nat.succ_pos _)]
    exact bind_of_error rfl
  have hpush : pushStrings smallSpace [s] 0x3000 [] r = .error .trap := by
    rw [pushStrings, if_neg (by decide), hsp]
    exact bind_of_error hcopy
  exact bind_of_error hpush

theorem null_used : pushArgs smallSpace [List.replicate 0x3000000 97] 0x3000 ⟨⟨[], []⟩, fun _ _ => 0⟩ = .error .trap :=
  pushArgs_long List.length_replicate _

end Xv6.Exec
