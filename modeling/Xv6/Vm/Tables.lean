/-
  WHO OWNS A PAGE, and which pages are mapped: one account for every function of `vm.c`.

  `Mem.owns m x` counts how often page `x` is on the free list, `Pgdir.owns A x` how often an address space
  has it: as its directory, as a page table, or mapped below `KERNBASE`.  Every function moves pages between
  the two, so each specification is an EQUATION between the counts before and after; nothing in it depends
  on the page being owned only once.

  The same specifications say which user pages are mapped afterwards (`Pgdir.pte`), on success and on every
  failure, and from what a panic may come: a page that `kfree` does not take (`Within`), or an entry that is in
  use.

  `Pgdir.entry` reads the two levels as one map from page numbers to pages and permissions.  `mappages` goes up
  through a range and sets one entry after the other, with page tables made on the way; it stops where there is no
  page for a page table, so what it has set is always a PREFIX of the range (`mapLoop_spec`).  `setupkvm` comes to no
  entry that is in use, since the four ranges of `kmap` do not overlap; of the page tables it needs at most all that
  are still `missing`, and all its entries are the kernel's alone (`KernelOnly`).
-/
import Mathlib
import Xv6.Lib.Counting
import Xv6.Vm.Paging

namespace Xv6.Vm

open Outcome

/-! ## Counts -/

/-- One, if this is the page. -/
def ofPage (v x : Page) : Int := if v = x then 1 else 0

def ofOption (v : Option Page) (x : Page) : Int := if v = some x then 1 else 0

def Mem.owns (m : Mem) (x : Page) : Int := m.free.count x

namespace Pgdir

variable (A : Pgdir)

def tables (x : Page) : Int := ∑ i, ofOption ((A.pde i).map Pgtab.page) x

/-- User pages, by their number. -/
abbrev UserPage := Fin (KERNBASE / PGSIZE)

def users (x : Page) : Int := ∑ n : UserPage, ofOption ((A.pte (n * PGSIZE)).map Pte.page) x

def owns (x : Page) : Int := ofPage A.page x + A.tables x + A.users x

end Pgdir

theorem ofOption_none (x : Page) : ofOption none x = 0 := rfl

theorem ofOption_some (v x : Page) : ofOption (some v) x = ofPage v x := by
  unfold ofOption ofPage
  simp only [Option.some.injEq]

theorem ofPage_nonneg (v x : Page) : 0 ≤ ofPage v x := by
  unfold ofPage
  split <;> omega

theorem ofOption_nonneg (v : Option Page) (x : Page) : 0 ≤ ofOption v x := by
  unfold ofOption
  split <;> omega

theorem Mem.owns_nonneg (m : Mem) (x : Page) : 0 ≤ m.owns x := by
  unfold Mem.owns
  omega

section Nonneg

variable (A : Pgdir) (x : Page)

theorem Pgdir.tables_nonneg : 0 ≤ A.tables x := Finset.sum_nonneg fun _ _ => ofOption_nonneg _ x

theorem Pgdir.users_nonneg : 0 ≤ A.users x := Finset.sum_nonneg fun _ _ => ofOption_nonneg _ x

theorem Pgdir.owns_nonneg : 0 ≤ A.owns x := by
  have h1 := A.tables_nonneg x
  have h2 := A.users_nonneg x
  have h3 := ofPage_nonneg A.page x
  unfold Pgdir.owns
  omega

end Nonneg

/-! ## One entry -/

theorem div_pgsize (a : Nat) : a / 2 ^ 12 = a / PGSIZE ∧ a / 2 ^ 22 = a / PGSIZE / 1024 :=
  ⟨rfl, (Nat.div_div_eq_div_mul a PGSIZE 1024).symm⟩

/-- An entry is that of a page number. -/
theorem index_eq_iff {a b : Nat} (ha : a < 2 ^ 32) (hb : b < 2 ^ 32) :
    pdx a = pdx b ∧ ptx a = ptx b ↔ a / PGSIZE = b / PGSIZE := by
  simp only [pdx, ptx, Fin.ext_iff, Fin.val_ofNat, (div_pgsize _).1, (div_pgsize _).2, NPDENTRIES, NPTENTRIES]
  have ha' : a / PGSIZE < 2 ^ 20 := by simp only [PGSIZE]; omega
  have hb' : b / PGSIZE < 2 ^ 20 := by simp only [PGSIZE]; omega
  generalize a / PGSIZE = m at ha'
  generalize b / PGSIZE = n at hb'
  constructor
  · rintro ⟨h1, h2⟩
    omega
  · rintro rfl
    exact ⟨rfl, rfl⟩

namespace Pgdir

/-- The entry of a page, by its number. -/
def entry (A : Pgdir) (n : Nat) : Option Pte := A.pte (n * PGSIZE)

variable {A : Pgdir} {va a : Nat} {v : Page} {e : Option Pte}

theorem entry_page (ha : a < 2 ^ 32) : A.entry (a / PGSIZE) = A.pte a := by
  have hself : a / PGSIZE * PGSIZE < 2 ^ 32 ∧ a / PGSIZE * PGSIZE / PGSIZE = a / PGSIZE := by
    simp only [PGSIZE]
    omega
  obtain ⟨hd, hx⟩ := (index_eq_iff hself.1 ha).mpr hself.2
  unfold entry pte
  rw [hd, hx]

theorem pte_addTable (h : A.pde (pdx va) = none) : (A.addTable va v).pte a = A.pte a := by
  unfold pte addTable
  dsimp only
  rw [Function.update_apply]
  split
  · rename_i heq
    rw [heq, h]
    rfl
  · rfl

theorem pde_addTable : ((A.addTable va v).pde (pdx va)).isSome = true := by
  simp only [addTable, Function.update_self, Option.isSome_some]

theorem tables_addTable (h : A.pde (pdx va) = none) (x : Page) :
    (A.addTable va v).tables x = A.tables x + ofPage v x := by
  unfold tables
  rw [Counting.sum_change (f := fun i => ofOption ((A.pde i).map Pgtab.page) x) (pdx va)]
  · simp only [addTable, Function.update_self, h, Option.map_none, ofOption_none, Option.map_some, ofOption_some]
    omega
  · intro j hj
    simp only [addTable, Function.update_of_ne hj]

theorem owns_addTable (h : A.pde (pdx va) = none) (x : Page) : (A.addTable va v).owns x = A.owns x + ofPage v x := by
  have hu : (A.addTable va v).users x = A.users x := by
    unfold users
    simp only [pte_addTable h]
  have ht := tables_addTable (v := v) h x
  unfold owns
  rw [hu, ht, show (A.addTable va v).page = A.page from rfl]
  omega

theorem pte_setPte (h : (A.pde (pdx va)).isSome = true) (hva : va < 2 ^ 32) (ha : a < 2 ^ 32) :
    (A.setPte va e).pte a = if a / PGSIZE = va / PGSIZE then e else A.pte a := by
  obtain ⟨t, ht⟩ := Option.isSome_iff_exists.mp h
  unfold setPte pte
  rw [ht]
  dsimp only
  rw [Function.update_apply]
  rcases eq_or_ne (pdx a) (pdx va) with hd | hd
  · rw [if_pos hd, hd, ht]
    simp only [Option.bind_some, Function.update_apply]
    rcases eq_or_ne (ptx a) (ptx va) with hx | hx
    · rw [if_pos hx, if_pos ((index_eq_iff ha hva).mp ⟨hd, hx⟩)]
    · rw [if_neg hx, if_neg fun heq => hx ((index_eq_iff ha hva).mpr heq).2]
  · rw [if_neg hd, if_neg fun heq => hd ((index_eq_iff ha hva).mpr heq).1]

theorem pde_setPte (i : Fin NPDENTRIES) : ((A.setPte va e).pde i).map Pgtab.page = (A.pde i).map Pgtab.page := by
  unfold setPte
  split
  · rfl
  · rename_i t ht
    dsimp only
    rw [Function.update_apply]
    split
    · rename_i hi
      rw [hi, ht]
      rfl
    · rfl

theorem tables_setPte (x : Page) : (A.setPte va e).tables x = A.tables x := by
  unfold tables
  simp only [pde_setPte]

theorem page_setPte : (A.setPte va e).page = A.page := by
  unfold setPte
  split <;> rfl

/-- An entry of the kernel's part owns nothing. -/
theorem owns_setPte_kernel (h : (A.pde (pdx va)).isSome = true) (hva : va < 2 ^ 32) (hk : KERNBASE ≤ va)
    (x : Page) : (A.setPte va e).owns x = A.owns x := by
  have hu : (A.setPte va e).users x = A.users x := by
    unfold users
    refine Finset.sum_congr rfl fun n _ => ?_
    have hn := n.isLt
    simp only [KERNBASE, PGSIZE] at hn hk
    rw [pte_setPte h hva (by simp only [PGSIZE]; omega), if_neg]
    simp only [PGSIZE]
    omega
  unfold owns
  rw [tables_setPte, hu, page_setPte]

/-- A user entry owns the page it maps. -/
theorem owns_setPte (h : (A.pde (pdx va)).isSome = true) (hva : va < KERNBASE) (x : Page) : (A.setPte va e).owns x =
      A.owns x - ofOption ((A.pte va).map Pte.page) x + ofOption (e.map Pte.page) x := by
  have hlt : va / PGSIZE < KERNBASE / PGSIZE := by
    simp only [KERNBASE, PGSIZE] at hva ⊢
    omega
  have h32 : va < 2 ^ 32 := by
    simp only [KERNBASE] at hva
    omega
  have hself : va / PGSIZE * PGSIZE < 2 ^ 32 ∧ va / PGSIZE * PGSIZE / PGSIZE = va / PGSIZE := by
    simp only [PGSIZE]
    omega
  have hold : A.pte (va / PGSIZE * PGSIZE) = A.pte va := entry_page h32
  have hu : (A.setPte va e).users x =
      A.users x - ofOption ((A.pte va).map Pte.page) x + ofOption (e.map Pte.page) x := by
    unfold users
    rw [Counting.sum_change (f := fun n : UserPage => ofOption ((A.pte (n * PGSIZE)).map Pte.page) x)
      ⟨va / PGSIZE, hlt⟩]
    · dsimp only
      rw [hold, pte_setPte h h32 hself.1, if_pos hself.2]
    · intro n hn
      have hn' := n.isLt
      have hne : (n : Nat) ≠ va / PGSIZE := fun heq => hn (Fin.ext heq)
      simp only [KERNBASE, PGSIZE] at hn' hne
      rw [pte_setPte h h32 (by simp only [PGSIZE]; omega), if_neg]
      simp only [PGSIZE]
      omega
  unfold owns
  rw [tables_setPte, hu, page_setPte]
  omega

end Pgdir

/-! ## Specifications -/

theorem Pgdir.entry_setPte {A : Pgdir} {va n : Nat} {e : Option Pte} (h : (A.pde (pdx va)).isSome = true)
    (hva : va < 2 ^ 32) (hn : n < 2 ^ 20) : (A.setPte va e).entry n = if n = va / PGSIZE then e else A.entry n := by
  have hmul : n * PGSIZE < 2 ^ 32 ∧ n * PGSIZE / PGSIZE = n := by
    simp only [PGSIZE]
    omega
  unfold Pgdir.entry
  rw [Pgdir.pte_setPte h hva hmul.1, hmul.2]

/-- The entry of an aligned address. -/
theorem Pgdir.entry_div {A : Pgdir} {a : Nat} (ha : a % PGSIZE = 0) : A.entry (a / PGSIZE) = A.pte a := by
  unfold Pgdir.entry
  rw [pgrounddown_eq ha]

/-- The pages of an address space, and those on the free list, are the same afterwards. -/
def Keeps (m : Mem) (A : Pgdir) (m' : Mem) (B : Pgdir) : Prop := ∀ x, m'.owns x + B.owns x = m.owns x + A.owns x

/-- `kfree` takes the page. -/
def InRange (L : Layout) (x : Page) : Prop := L.kend ≤ x * PGSIZE ∧ x * PGSIZE < PHYSTOP

/-- The pages of an address space, and those on the free list, may all be freed. -/
def Within (L : Layout) (A : Pgdir) (m : Mem) : Prop := ∀ x, 0 < m.owns x + A.owns x → InRange L x

theorem Within.of_le {B : Pgdir} {m' : Mem} (h : Within L A m)
    (hle : ∀ x, m'.owns x + B.owns x ≤ m.owns x + A.owns x) : Within L B m' := by
  intro x hx
  have := hle x
  exact h x (by omega)

theorem kalloc_spec (m : Mem) :
    Meets (kalloc m) (fun r m' => ∀ x, m.owns x = m'.owns x + ofOption r x) fun _ => False := by
  have hnone : ∀ m' : Mem, m'.free = m.free → ∀ x, m.owns x = m'.owns x + ofOption none x := by
    intro m' hm x
    rw [ofOption_none, Mem.owns, Mem.owns, hm]
    omega
  unfold kalloc
  split
  · exact hnone _ rfl
  · cases hfree : m.free with
    | nil => exact hnone _ hfree.symm
    | cons r rest =>
      intro x
      rw [ofOption_some]
      unfold Mem.owns ofPage
      rw [hfree, List.count_cons]
      by_cases hr : r = x <;> simp [hr]

theorem kfree_spec (L : Layout) (v : Page) (m : Mem) :
    Meets (kfree L v m) (fun _ m' => ∀ x, m'.owns x = m.owns x + ofPage v x) fun _ => ¬ InRange L v := by
  unfold kfree
  split
  · rename_i hout
    exact fun h => hout.elim (Nat.not_lt.mpr h.1) (Nat.not_le.mpr h.2)
  · intro x
    unfold Mem.owns ofPage
    dsimp only
    rw [List.count_cons]
    by_cases hv : v = x <;> simp [hv]

/-! ## Mappings -/

section Room

variable {A : Pgdir} {m : Mem} {va k : Nat}

/-- How many page tables there could still be. -/
def Pgdir.missing (A : Pgdir) : Int := ∑ i, if (A.pde i).isNone then 1 else 0

theorem Pgdir.missing_addTable {v : Page} (h : A.pde (pdx va) = none) : (A.addTable va v).missing = A.missing - 1 := by
  unfold Pgdir.missing
  rw [Counting.sum_change (f := fun i => if (A.pde i).isNone then (1 : Int) else 0) (pdx va)]
  · simp only [Pgdir.addTable, Function.update_self, h, Option.isNone_none, Option.isNone_some, if_true,
      Bool.false_eq_true, if_false]
    omega
  · intro i hi
    simp only [Pgdir.addTable, Function.update_of_ne hi]

theorem Pgdir.missing_setPte {e : Option Pte} : (A.setPte va e).missing = A.missing := by
  have hnone : ∀ i, ((A.setPte va e).pde i).isNone = (A.pde i).isNone := by
    intro i
    have hmap : ((A.setPte va e).pde i).map Pgtab.page = (A.pde i).map Pgtab.page := Pgdir.pde_setPte i
    cases h : A.pde i <;> cases h' : (A.setPte va e).pde i <;> simp [h, h'] at hmap ⊢
  unfold Pgdir.missing
  simp only [hnone]

theorem Pgdir.missing_new (v : Page) : Pgdir.missing ⟨v, fun _ => none⟩ = 1024 := by
  unfold Pgdir.missing
  simp only [Option.isNone_none, if_true, Finset.sum_const, Finset.card_univ, Fintype.card_fin]
  rfl

/-- Enough pages for every page table, and `k` more; and no `kalloc` fails. -/
structure Room (k : Nat) (A : Pgdir) (m : Mem) : Prop where
  tape : m.tape = []
  pages : A.missing + k ≤ m.free.length

theorem Room.setPte {e : Option Pte} (h : Room k A m) : Room k (A.setPte va e) m :=
  ⟨h.tape, by rw [Pgdir.missing_setPte]; exact h.pages⟩

theorem kalloc_ok (htape : m.tape = []) (hfree : 0 < m.free.length) :
    ∃ v m', kalloc m = .ok (some v, m') ∧ m'.tape = [] ∧ m'.free.length + 1 = m.free.length := by
  obtain ⟨free, tape⟩ := m
  obtain rfl : tape = [] := htape
  cases free with
  | nil => exact absurd hfree (Nat.lt_irrefl 0)
  | cons v rest => exact ⟨v, ⟨rest, []⟩, rfl, rfl, rfl⟩

theorem Pgdir.missing_pos (h : A.pde (pdx va) = none) : 1 ≤ A.missing := by
  have hle := Counting.le_sum (f := fun i => if (A.pde i).isNone then (1 : Int) else 0)
    (fun i => by split <;> omega) (pdx va)
  unfold Pgdir.missing
  simpa only [h, Option.isNone_none, if_true] using hle

end Room

theorem walkpgdir_spec (A : Pgdir) (va : Nat) (m : Mem) :
    Meets (walkpgdir A va true m) (fun r m' =>
      match r with
      | none => (∀ x, m'.owns x = m.owns x) ∧ ∀ k, ¬ Room k A m
      | some B => (B.pde (pdx va)).isSome = true ∧ (∀ a, B.pte a = A.pte a) ∧ Keeps m A m' B ∧
          ∀ k, Room k A m → Room k B m') fun _ => False := by
  unfold walkpgdir
  cases hpde : A.pde (pdx va) with
  | some t => exact ⟨by rw [hpde]; rfl, fun _ => rfl, fun _ => rfl, fun k h => h⟩
  | none =>
    obtain ⟨r, m', hk, hr⟩ := (kalloc_spec m).returns fun _ he => he
    -- with room for the page tables that are missing, there is one for this one
    have hroom : ∀ k, Room k A m → ∃ v, r = some v ∧ Room k (A.addTable va v) m' := by
      intro k h
      have hpages := h.pages
      have hpos := Pgdir.missing_pos hpde
      obtain ⟨v, m'', hk', htape, hlen⟩ := kalloc_ok h.tape (by omega)
      cases hk.symm.trans hk'
      refine ⟨v, rfl, htape, ?_⟩
      rw [Pgdir.missing_addTable hpde]
      omega
    show Meets ((kalloc >>= _) m) _ _
    rw [bind_of_ok hk]
    cases r with
    | none =>
      refine ⟨fun x => ?_, fun k h => ?_⟩
      · have hx := hr x
        rw [ofOption_none] at hx
        omega
      · obtain ⟨v, hv, -⟩ := hroom k h
        cases hv
    | some v =>
      refine ⟨Pgdir.pde_addTable, fun a => Pgdir.pte_addTable hpde, fun x => ?_, fun k h => ?_⟩
      · have hx := hr x
        rw [ofOption_some] at hx
        rw [Pgdir.owns_addTable hpde]
        omega
      · obtain ⟨v', hv, h'⟩ := hroom k h
        cases hv
        exact h'

/-- **`mappages` of a range of absent entries** maps a prefix of it: all of it if it returns 0, which it does if there is
room for the page tables.  Mappings of the kernel own only these. -/
theorem mapLoop_spec {last : Nat} (perm : Perm) (hlast : last < 2 ^ 32) (hl : last % PGSIZE = 0) (fuel : Nat)
    (A : Pgdir) (a : Nat) (pa : Page) (m : Mem) (ha : a % PGSIZE = 0) (hle : a ≤ last) (hfuel : last < a + fuel * PGSIZE)
    (habs : ∀ n, a ≤ n * PGSIZE → n * PGSIZE ≤ last → A.entry n = none) :
    Meets (mapLoop last perm fuel A a pa m) (fun r m' => (∃ k, a + k * PGSIZE ≤ last + PGSIZE ∧
      (r.2 = true ↔ a + k * PGSIZE = last + PGSIZE) ∧ ∀ n, n < 2 ^ 20 → r.1.entry n =
        if a / PGSIZE ≤ n ∧ n < a / PGSIZE + k then some ⟨pa + (n - a / PGSIZE), perm⟩ else A.entry n) ∧
      (KERNBASE ≤ a → Keeps m A m' r.1) ∧
      ∀ k, Room k A m → r.2 = true ∧ Room k r.1 m')
      fun _ => False := by
  induction fuel generalizing A a pa m with
  | zero => omega
  | succ fuel ih =>
    have hself := pgrounddown_eq ha
    unfold mapLoop
    refine (walkpgdir_spec A a m).bind (fun r m₁ hr => ?_) fun _ he => he
    cases r with
    | none =>
      refine ⟨⟨0, by omega, ⟨fun h => absurd h Bool.false_ne_true, fun h => by simp only [PGSIZE] at *; omega⟩, fun n _ => ?_⟩,
        fun _ x => by rw [hr.1 x], fun k h => absurd h (hr.2 k)⟩
      rw [if_neg (by omega)]
    | some B =>
      obtain ⟨hpde, hent, hown, hroom⟩ := hr
      have hnone : B.pte a = none := by
        rw [hent, ← Pgdir.entry_div ha]
        exact habs _ (by omega) (by omega)
      have hset : ∀ n, n < 2 ^ 20 → (B.setPte a (some ⟨pa, perm⟩)).entry n =
          if n = a / PGSIZE then some ⟨pa, perm⟩ else A.entry n := by
        intro n hn
        rw [Pgdir.entry_setPte hpde (by omega) hn]
        unfold Pgdir.entry
        rw [hent]
      have hkern : KERNBASE ≤ a → Keeps m A m₁ (B.setPte a (some ⟨pa, perm⟩)) := by
        intro hk x
        rw [Pgdir.owns_setPte_kernel hpde (by omega) hk]
        exact hown x
      have hstep : ∀ k, Room k A m → Room k (B.setPte a (some ⟨pa, perm⟩)) m₁ := fun k h => (hroom k h).setPte
      dsimp only
      rw [hnone, Option.isSome_none, if_neg Bool.false_ne_true]
      split
      · rename_i heq
        refine ⟨⟨1, by omega, ⟨fun _ => by omega, fun _ => rfl⟩, fun n hn => ?_⟩, hkern, fun k h => ⟨rfl, hstep k h⟩⟩
        rw [hset n hn]
        rcases eq_or_ne n (a / PGSIZE) with rfl | hne
        · rw [if_pos rfl, if_pos (by omega), Nat.sub_self, Nat.add_zero]
        · rw [if_neg hne, if_neg (by omega)]
      · rename_i hne
        have hnext : (a + PGSIZE) % 2 ^ 32 = a + PGSIZE ∧ a + PGSIZE ≤ last ∧ (a + PGSIZE) % PGSIZE = 0 ∧
            last < a + PGSIZE + fuel * PGSIZE ∧ (a + PGSIZE) / PGSIZE = a / PGSIZE + 1 := by
          simp only [PGSIZE] at *
          omega
        rw [hnext.1]
        refine (ih _ _ (pa + 1) m₁ hnext.2.2.1 hnext.2.1 hnext.2.2.2.1 fun n hn hn' => ?_).mono ?_ fun _ he => he
        · rw [hset n (by simp only [PGSIZE] at *; omega), if_neg (by simp only [PGSIZE] at *; omega)]
          exact habs n (by simp only [PGSIZE] at *; omega) hn'
        · rintro r m₂ ⟨⟨k, hk, hok, hall⟩, hown', hroom'⟩
          refine ⟨⟨k + 1, by simp only [PGSIZE] at *; omega, hok.trans (by simp only [PGSIZE]; omega), fun n hn => ?_⟩,
            fun hk x => (hown' (by omega) x).trans (hkern hk x), fun k h => hroom' k (hstep k h)⟩
          have hpa : ∀ j : Nat, 1 ≤ j → pa + 1 + (j - 1) = pa + j := fun j hj => by rw [Nat.add_assoc, Nat.add_sub_cancel' hj]
          rw [hall n hn, hnext.2.2.2.2, hset n hn, ← Nat.sub_sub]
          rcases eq_or_ne n (a / PGSIZE) with rfl | hna
          · rw [if_neg (by omega), if_pos rfl, if_pos (by omega), Nat.sub_self, Nat.add_zero]
          · rw [if_neg hna]
            by_cases hin : a / PGSIZE + 1 ≤ n ∧ n < a / PGSIZE + 1 + k
            · rw [if_pos hin, if_pos (by omega), hpa (n - a / PGSIZE) (by omega)]
            · rw [if_neg hin, if_neg fun hin' => hin ⟨by omega, by omega⟩]

/-- One user page. -/
theorem mappages_user (A : Pgdir) (va : Nat) (pa : Page) (perm : Perm) (m : Mem) (hva : va < KERNBASE)
    (ha : va % PGSIZE = 0) : Meets (mappages A va PGSIZE pa perm m) (fun r m' =>
      (if r.2 then
        A.pte va = none ∧ (∀ x, m'.owns x + r.1.owns x = m.owns x + A.owns x + ofPage pa x) ∧
        ∀ n, n < 2 ^ 20 → r.1.entry n = if n = va / PGSIZE then some ⟨pa, perm⟩ else A.entry n
      else Keeps m A m' r.1 ∧ ∀ n, r.1.entry n = A.entry n) ∧
      ∀ k, Room k A m → r.2 = true ∧ Room k r.1 m') fun _ => A.pte va ≠ none := by
  have hround : pgrounddown va = va ∧ pgrounddown ((va + PGSIZE + (2 ^ 32 - 1)) % 2 ^ 32) = va := by
    simp only [pgrounddown, PGSIZE, KERNBASE] at *
    omega
  unfold mappages
  rw [hround.1, hround.2, show (2 : Nat) ^ 20 = (2 ^ 20 - 1) + 1 from rfl, mapLoop]
  refine (walkpgdir_spec A va m).bind (fun r m' hr => ?_) fun _ he => he.elim
  cases r with
  | none => exact ⟨⟨fun x => by rw [hr.1 x], fun _ => rfl⟩, fun k h => absurd h (hr.2 k)⟩
  | some B =>
    obtain ⟨hpde, hpte, howns, hroom⟩ := hr
    dsimp only
    split
    · rename_i hsome
      rw [hpte] at hsome
      exact Option.isSome_iff_ne_none.mp hsome
    · rename_i hnone
      rw [Option.not_isSome_iff_eq_none] at hnone
      rw [if_pos rfl]
      refine ⟨⟨(hpte va).symm.trans hnone, fun x => ?_, fun n hn => ?_⟩, fun k h => ⟨rfl, (hroom k h).setPte⟩⟩
      · rw [Pgdir.owns_setPte hpde hva, hnone, Option.map_none, ofOption_none, Option.map_some, ofOption_some]
        have := howns x
        dsimp only
        omega
      · rw [Pgdir.entry_setPte hpde (by simp only [KERNBASE] at hva; omega) hn]
        split
        · rfl
        · exact hpte _

/-! ## User memory -/

/-- No page is mapped where there is no page table. -/
theorem Pgdir.entry_of_noTable {A : Pgdir} {a n : Nat} (h : A.pde (pdx a) = none) (hle : a ≤ n * PGSIZE)
    (hlt : n * PGSIZE < (a / 2 ^ 22 + 1) * 2 ^ 22) : A.entry n = none := by
  have hd : n * PGSIZE / 2 ^ 22 = a / 2 ^ 22 := by
    simp only [PGSIZE] at *
    omega
  unfold Pgdir.entry Pgdir.pte pdx
  rw [hd]
  exact (congrArg (Option.bind · _) h).trans rfl

variable {oldsz : Nat}

/-- A mapped user page is one of the pages of its address space. -/
theorem owns_pos {A : Pgdir} {a : Nat} {e : Pte} (ha : a < KERNBASE) (hal : a % PGSIZE = 0) (he : A.pte a = some e) :
    0 < A.owns e.page := by
  have hn : a / PGSIZE < KERNBASE / PGSIZE := by
    simp only [KERNBASE, PGSIZE] at ha ⊢
    omega
  have hmul := pgrounddown_eq hal
  have husers := Counting.le_sum (f := fun n : Pgdir.UserPage => ofOption ((A.pte (n * PGSIZE)).map Pte.page) e.page)
    (fun n => ofOption_nonneg _ _) ⟨a / PGSIZE, hn⟩
  dsimp only at husers
  rw [hmul, he, Option.map_some, ofOption_some, ofPage, if_pos rfl] at husers
  have htables := A.tables_nonneg e.page
  have hpage := ofPage_nonneg A.page e.page
  unfold Pgdir.owns Pgdir.users
  omega

theorem deallocLoop_spec (L : Layout) (ho : oldsz ≤ KERNBASE) (A : Pgdir) (a : Nat) (m : Mem) (ha : a % PGSIZE = 0) :
    Meets (deallocLoop L oldsz A a m) (fun B m' =>
      Keeps m A m' B ∧
      ∀ n, n < 2 ^ 20 →
        B.entry n = if a ≤ n * PGSIZE ∧ n * PGSIZE < oldsz then none else A.entry n) fun _ => ¬ Within L A m := by
  induction hk : oldsz - a using Nat.strong_induction_on generalizing A a m with
  | _ k ih =>
    rw [deallocLoop]
    split
    · rename_i hlt
      have ha' : a < KERNBASE := by omega
      cases hpde : A.pde (pdx a) with
      | none =>
        refine (ih _ (by omega) A _ m (by simp only [PGSIZE]; omega) rfl).mono ?_ fun _ he => he
        rintro B t ⟨hown, hent⟩
        refine ⟨hown, fun n hn => ?_⟩
        rw [hent n hn]
        rcases Nat.lt_or_ge (n * PGSIZE) a with hna | hna
        · rw [if_neg (by omega), if_neg (by omega)]
        · rcases Nat.lt_or_ge (n * PGSIZE) ((a / 2 ^ 22 + 1) * 2 ^ 22) with hnn | hnn
          · rw [Pgdir.entry_of_noTable hpde hna hnn]
            split <;> split <;> rfl
          · exact if_congr (by omega) rfl rfl
      | some t =>
        have hsome : (A.pde (pdx a)).isSome = true := by rw [hpde]; rfl
        have hself := pgrounddown_eq ha
        have hnext : oldsz - (a + PGSIZE) < k ∧ (a + PGSIZE) % PGSIZE = 0 := by
          simp only [PGSIZE] at *
          omega
        -- the pages after this one
        have hrest : ∀ n, n ≠ a / PGSIZE →
            (a + PGSIZE ≤ n * PGSIZE ∧ n * PGSIZE < oldsz ↔ a ≤ n * PGSIZE ∧ n * PGSIZE < oldsz) := by
          intro n hn
          simp only [PGSIZE] at *
          omega
        cases hpte : A.pte a with
        | none =>
          refine (ih _ hnext.1 A _ m hnext.2 rfl).mono ?_ fun _ he => he
          rintro B t ⟨hown, hent⟩
          refine ⟨hown, fun n hn => ?_⟩
          rw [hent n hn]
          rcases eq_or_ne n (a / PGSIZE) with rfl | hna
          · rw [Pgdir.entry_div ha, hpte]
            split <;> split <;> rfl
          · exact if_congr (hrest n hna) rfl rfl
        | some e =>
          have hrange : Within L A m → InRange L e.page := by
            intro h
            refine h e.page ?_
            have := owns_pos ha' ha hpte
            unfold Mem.owns
            omega
          dsimp only
          split
          · rename_i hz
            intro h
            have hkend := (hrange h).1
            rw [hz, Nat.zero_mul] at hkend
            have := L.data_lt
            omega
          refine (kfree_spec L e.page m).bind (fun _ m' hm' => ?_) fun _ he h => he (hrange h)
          have hset : Keeps m A m' (A.setPte a none) := by
            intro x
            rw [hm' x, Pgdir.owns_setPte hsome ha', hpte, Option.map_some, ofOption_some, Option.map_none, ofOption_none]
            omega
          refine (ih _ hnext.1 (A.setPte a none) _ m' hnext.2 rfl).mono ?_ fun _ he h => he (h.of_le fun x => (hset x).le)
          rintro B t ⟨hown, hent⟩
          refine ⟨fun x => (hown x).trans (hset x), fun n hn => ?_⟩
          rw [hent n hn, Pgdir.entry_setPte hsome (by simp only [KERNBASE] at ha'; omega) hn]
          rcases eq_or_ne n (a / PGSIZE) with rfl | hna
          · rw [if_pos rfl, hself, if_pos (show a ≤ a ∧ a < oldsz from ⟨Nat.le_refl a, hlt⟩)]
            split <;> rfl
          · rw [if_neg hna]
            exact if_congr (hrest n hna) rfl rfl
    · rename_i hge
      refine ⟨fun _ => rfl, fun n _ => ?_⟩
      rw [if_neg (by omega)]

theorem pgroundup_mod (a : Nat) : pgroundup a % PGSIZE = 0 := Nat.mul_mod_left _ _

variable {newsz : Nat}

/-- `deallocuvm` with a new size below the old one. -/
theorem deallocuvm_spec (L : Layout) (ho : oldsz ≤ KERNBASE) (hlt : newsz < oldsz) (A : Pgdir) (m : Mem) :
    Meets (deallocuvm L A oldsz newsz m) (fun r m' =>
      r.2 = newsz ∧ Keeps m A m' r.1 ∧
      ∀ n, n < 2 ^ 20 →
        r.1.entry n = if pgroundup newsz ≤ n * PGSIZE ∧ n * PGSIZE < oldsz then none else A.entry n)
      fun _ => ¬ Within L A m := by
  unfold deallocuvm
  rw [if_neg (by omega)]
  refine (deallocLoop_spec L ho A _ m (pgroundup_mod newsz)).bind ?_ fun _ he => he
  rintro B m' ⟨hown, hent⟩
  exact ⟨rfl, hown, hent⟩

/-- `deallocuvm`, whatever the sizes: it only moves pages to the free list. -/
theorem deallocuvm_owns (L : Layout) (ho : oldsz ≤ KERNBASE) (A : Pgdir) (m : Mem) :
    Meets (deallocuvm L A oldsz newsz m) (fun r m' =>
      Keeps m A m' r.1) fun _ => ¬ Within L A m := by
  rcases Nat.lt_or_ge newsz oldsz with hlt | hge
  · exact (deallocuvm_spec L ho hlt A m).mono (fun r m' hr => hr.2.1) fun _ he => he
  · unfold deallocuvm
    rw [if_pos hge]
    exact fun x => rfl

theorem le_pgroundup (a : Nat) : a ≤ pgroundup a := by
  simp only [pgroundup, PGSIZE]
  omega

theorem allocLoop_spec (L : Layout) (hn : newsz < KERNBASE) (A : Pgdir) (a : Nat) (m : Mem)
    (ha : a % PGSIZE = 0) (hold : pgroundup oldsz ≤ a) : Meets (allocLoop L oldsz newsz A a m) (fun r m' =>
      Keeps m A m' r.1 ∧
      (r.2 = newsz ∧ (∀ n, n < 2 ^ 20 → a ≤ n * PGSIZE → n * PGSIZE < newsz → (r.1.entry n).isSome = true) ∧
          (∀ n, n < 2 ^ 20 → ¬ (a ≤ n * PGSIZE ∧ n * PGSIZE < newsz) → r.1.entry n = A.entry n) ∨
        r.2 = 0 ∧ ∀ n, n < 2 ^ 20 →
          r.1.entry n = if pgroundup oldsz ≤ n * PGSIZE ∧ n * PGSIZE < newsz then none else A.entry n))
      fun _ => ¬ (Within L A m ∧ ∀ n, a ≤ n * PGSIZE → n * PGSIZE < newsz → A.entry n = none) := by
  have hup := le_pgroundup oldsz
  induction hk : newsz - a using Nat.strong_induction_on generalizing A a m with
  | _ k ih =>
    rw [allocLoop]
    split
    · rename_i hlt
      refine (kalloc_spec m).bind (fun r m₁ hm₁ => ?_) fun _ he => he.elim
      cases r with
      | none =>
        have hbal : Keeps m A m₁ A := fun x => by rw [hm₁ x, ofOption_none, Int.add_zero]
        refine (deallocuvm_spec L (Nat.le_of_lt hn) (by omega) A m₁).bind ?_ fun _ he h =>
          he (h.1.of_le fun x => (hbal x).le)
        rintro ⟨B, s⟩ m₂ ⟨-, hown, hent⟩
        exact ⟨fun x => (hown x).trans (hbal x), .inr ⟨rfl, hent⟩⟩
      | some mem =>
        have hv : ∀ x, m.owns x = m₁.owns x + ofPage mem x := fun x => by rw [hm₁ x, ofOption_some]
        refine (mappages_user A a mem ⟨true, true⟩ m₁ (by omega) ha).bind ?_ fun _ he h => he ?_
        swap
        · rw [← Pgdir.entry_div ha]
          have hself := pgrounddown_eq ha
          exact h.2 _ (by omega) (by omega)
        rintro ⟨B, ok⟩ m₂ ⟨hr, -⟩
        cases ok with
        | true =>
          rw [if_pos rfl] at hr
          obtain ⟨-, hown, hent⟩ := hr
          dsimp only at hown hent ⊢
          rw [if_pos rfl]
          have hnext : newsz - (a + PGSIZE) < k ∧ (a + PGSIZE) % PGSIZE = 0 ∧ pgroundup oldsz ≤ a + PGSIZE := by
            simp only [PGSIZE] at *
            omega
          have hbal : Keeps m A m₂ B := by
            intro x
            have := hown x
            have := hv x
            omega
          refine (ih _ hnext.1 B _ m₂ hnext.2.1 hnext.2.2 rfl).mono ?_ fun _ he h =>
            he ⟨h.1.of_le fun x => (hbal x).le, fun n hn' hlt' => ?_⟩
          swap
          · rw [hent n (by simp only [PGSIZE, KERNBASE] at *; omega), if_neg (by simp only [PGSIZE] at *; omega)]
            exact h.2 n (by omega) hlt'
          rintro r m₃ ⟨hown', hr⟩
          refine ⟨fun x => (hown' x).trans (hbal x), hr.imp ?_ ?_⟩
          · rintro ⟨hsz, hin, hout⟩
            refine ⟨hsz, fun n hn' h1 h2 => ?_, fun n hn' hno => ?_⟩
            · rcases eq_or_ne n (a / PGSIZE) with hna | hna
              · rw [hout n hn' (by simp only [PGSIZE] at *; omega), hent n hn', if_pos hna]
                rfl
              · exact hin n hn' (by simp only [PGSIZE] at *; omega) h2
            · rw [hout n hn' (by simp only [PGSIZE] at *; omega), hent n hn',
                if_neg (by simp only [PGSIZE] at *; omega)]
          · rintro ⟨hsz, hall⟩
            refine ⟨hsz, fun n hn' => ?_⟩
            rw [hall n hn', hent n hn']
            rcases eq_or_ne n (a / PGSIZE) with hna | hna
            · -- the page just mapped is among those that are freed
              rw [if_pos hna, if_pos (by simp only [PGSIZE] at *; omega), if_pos (by simp only [PGSIZE] at *; omega)]
            · rw [if_neg hna]
        | false =>
          rw [if_neg (by nofun)] at hr
          obtain ⟨hown, hent⟩ := hr
          dsimp only at hown hent ⊢
          rw [if_neg (by nofun)]
          refine (deallocuvm_spec L (Nat.le_of_lt hn) (by omega) B m₂).bind ?_ fun _ he h => he (h.1.of_le fun x => ?_)
          swap
          · have := hown x
            have := hv x
            have := ofPage_nonneg mem x
            omega
          rintro ⟨B', s⟩ m₃ ⟨-, hown', hent'⟩
          refine (kfree_spec L mem m₃).bind (fun _ m₄ hm₄ => ⟨fun x => ?_, .inr ⟨rfl, fun n hn' => ?_⟩⟩) fun _ he h =>
            he (h.1 mem ?_)
          · have h2 := hown x
            have h3 := hown' x
            have h4 := hm₄ x
            have := hv x
            dsimp only at h3 ⊢
            omega
          · rw [hent' n hn', hent n]
          · have := hv mem
            have : ofPage mem mem = 1 := if_pos rfl
            have := A.owns_nonneg mem
            unfold Mem.owns at *
            omega
    · rename_i hge
      exact ⟨fun _ => rfl, .inl ⟨rfl, fun n _ h1 h2 => absurd h2 (by omega), fun _ _ _ => rfl⟩⟩

/-- The user pages that are mapped are those of `[0, sz)`. -/
def Pgdir.Holds (A : Pgdir) (sz : Nat) : Prop :=
  ∀ n, n < KERNBASE / PGSIZE → ((A.entry n).isSome = true ↔ n * PGSIZE < sz)

/-- The user pages of two directories are the same. -/
def Pgdir.SameUser (A B : Pgdir) : Prop := ∀ n, n < KERNBASE / PGSIZE → B.entry n = A.entry n

theorem user_lt {n : Nat} (hn : n < KERNBASE / PGSIZE) : n < 2 ^ 20 := by
  simp only [KERNBASE, PGSIZE] at hn
  omega

theorem mul_lt_iff_pgroundup (n sz : Nat) : n * PGSIZE < sz ↔ n * PGSIZE < pgroundup sz := by
  simp only [pgroundup, PGSIZE]
  omega

theorem Pgdir.Holds.none {A : Pgdir} {n sz : Nat} (h : A.Holds sz) (hn : n < KERNBASE / PGSIZE) (hle : sz ≤ n * PGSIZE) :
    A.entry n = none := by
  rw [← Option.not_isSome_iff_eq_none, h n hn]
  omega

/-- `allocuvm`: the pages it takes are in the address space; if it fails, no user page has changed. -/
theorem allocuvm_spec (L : Layout) (A : Pgdir) (oldsz newsz : Nat) (m : Mem) :
    Meets (allocuvm L A oldsz newsz m) (fun r m' =>
      Keeps m A m' r.1 ∧
      (r.2 ≠ 0 → r.2 = newsz ∧ newsz < KERNBASE ∨ newsz < oldsz ∧ r.2 = oldsz) ∧
      (A.Holds oldsz → (r.2 ≠ 0 → r.1.Holds r.2) ∧ (r.2 = 0 → A.SameUser r.1)))
      fun _ => ¬ (Within L A m ∧ A.Holds oldsz) := by
  unfold allocuvm
  split
  · exact ⟨fun _ => rfl, fun h => absurd rfl h, fun _ => ⟨fun h => absurd rfl h, fun _ _ _ => rfl⟩⟩
  · rename_i hk
    split
    · rename_i hlt
      exact ⟨fun _ => rfl, fun _ => .inr ⟨hlt, rfl⟩, fun h => ⟨fun _ => h, fun _ _ _ => rfl⟩⟩
    · rename_i hle
      have hup := le_pgroundup oldsz
      refine (allocLoop_spec L (by omega) A _ m (pgroundup_mod oldsz) (Nat.le_refl _)).mono ?_ fun _ he h =>
        he ⟨h.1, fun n hn hlt => h.2.none (by simp only [KERNBASE, PGSIZE] at *; omega) (by omega)⟩
      rintro ⟨B, s⟩ m' ⟨hown, hr⟩
      rcases hr with ⟨rfl, hin, hout⟩ | ⟨rfl, hall⟩
      · refine ⟨hown, fun _ => .inl ⟨rfl, by omega⟩, fun hA => ?_⟩
        have hB : B.Holds s := by
          intro n hn
          have hiff := hA n hn
          have hup := mul_lt_iff_pgroundup n oldsz
          by_cases hnew : pgroundup oldsz ≤ n * PGSIZE ∧ n * PGSIZE < s
          · have := hin n (user_lt hn) hnew.1 hnew.2
            exact ⟨fun _ => hnew.2, fun _ => this⟩
          · rw [hout n (user_lt hn) hnew, hiff]
            omega
        refine ⟨fun _ => hB, fun hzero n hn => ?_⟩
        -- of size 0, and no page was there before
        dsimp only at hzero
        exact hout n (user_lt hn) (by omega)
      · refine ⟨hown, fun h => absurd rfl h, fun hA => ⟨fun h => absurd rfl h, fun _ n hn => ?_⟩⟩
        rw [hall n (user_lt hn)]
        split
        · rename_i hin
          exact (hA.none hn (by omega)).symm
        · rfl

/-! ## Whole address spaces -/

theorem freeTables_spec (L : Layout) (A : Pgdir) (is : List (Fin NPDENTRIES)) (m : Mem) :
    Meets (freeTables L A is m) (fun _ m' =>
      ∀ x, m'.owns x = m.owns x + (is.map fun i => ofOption ((A.pde i).map Pgtab.page) x).sum)
      fun _ => ¬ ∀ i t, A.pde i = some t → InRange L t.page := by
  induction is generalizing m with
  | nil => exact fun x => (Int.add_zero _).symm
  | cons i is ih =>
    unfold freeTables
    cases hpde : A.pde i with
    | none =>
      refine (ih m).mono (fun _ m' hm' x => ?_) fun _ he => he
      rw [hm' x, List.map_cons, List.sum_cons, hpde, Option.map_none, ofOption_none, Int.zero_add]
    | some t =>
      refine (kfree_spec L t.page m).bind (fun _ m₁ hm₁ => ?_) fun _ he h => he (h i t hpde)
      refine (ih m₁).mono (fun _ m' hm' x => ?_) fun _ he => he
      rw [hm' x, hm₁ x, List.map_cons, List.sum_cons, hpde, Option.map_some, ofOption_some, Int.add_assoc]

theorem Pgdir.tables_eq_sum (A : Pgdir) (x : Page) :
    A.tables x = ((List.finRange NPDENTRIES).map fun i => ofOption ((A.pde i).map Pgtab.page) x).sum :=
  Fin.sum_univ_def _

/-- A page table is one of the pages of its address space. -/
theorem owns_table {A : Pgdir} {i : Fin NPDENTRIES} {t : Pgtab} (h : A.pde i = some t) : 0 < A.owns t.page := by
  have htables := Counting.le_sum (f := fun i => ofOption ((A.pde i).map Pgtab.page) t.page)
    (fun i => ofOption_nonneg _ _) i
  rw [h, Option.map_some, ofOption_some, ofPage, if_pos rfl] at htables
  have husers := A.users_nonneg t.page
  have hpage := ofPage_nonneg A.page t.page
  unfold Pgdir.owns Pgdir.tables
  omega

theorem owns_page (A : Pgdir) : 0 < A.owns A.page := by
  have htables := A.tables_nonneg A.page
  have husers := A.users_nonneg A.page
  unfold Pgdir.owns
  rw [ofPage, if_pos rfl]
  omega

/-- `freevm` frees everything that the address space has. -/
theorem freevm_spec (L : Layout) (A : Pgdir) (m : Mem) :
    Meets (freevm L A m) (fun _ m' => ∀ x, m'.owns x = m.owns x + A.owns x) fun _ => ¬ Within L A m := by
  have htables := Pgdir.tables_eq_sum
  unfold freevm
  generalize List.finRange NPDENTRIES = l at htables ⊢
  have hpos : 0 < KERNBASE := by
    simp only [KERNBASE]
    omega
  refine (deallocuvm_spec L (Nat.le_refl KERNBASE) hpos A m).bind ?_ fun _ he => he
  rintro ⟨B, s⟩ m₁ ⟨-, hown, hent⟩
  have hrange : Within L A m → ∀ x, 0 < B.owns x → InRange L x := by
    intro h x hx
    refine h x ?_
    have := hown x
    have := m₁.owns_nonneg x
    dsimp only at *
    omega
  refine (freeTables_spec L B l m₁).bind (fun _ m₂ hm₂ => ?_) fun _ he h =>
    he fun i t ht => hrange h _ (owns_table ht)
  refine (kfree_spec L B.page m₂).mono (fun _ m₃ hm₃ x => ?_) fun _ he h => he (hrange h _ (owns_page B))
  -- no user page is left
  have husers : B.users x = 0 := by
    refine Finset.sum_eq_zero fun n _ => ?_
    have hn := n.isLt
    have hnone : B.entry n = none := by
      rw [hent n (user_lt hn), if_pos]
      simp only [KERNBASE, PGSIZE, pgroundup] at *
      omega
    rw [show B.pte (n * PGSIZE) = none from hnone]
    rfl
  have h1 := hown x
  have h2 := hm₂ x
  have h3 := hm₃ x
  rw [← htables] at h2
  unfold Pgdir.owns at h1 ⊢
  dsimp only at h1
  omega

/-- The last page of a range, as `mappages` computes it. -/
def Kmap.last (k : Kmap) : Nat :=
  pgrounddown ((k.virt + (k.physEnd + 2 ^ 32 - k.physStart) % 2 ^ 32 + (2 ^ 32 - 1)) % 2 ^ 32)

/-- An entry of `kmap` is in the kernel's part. -/
structure Kmap.Ok (k : Kmap) : Prop where
  aligned : k.virt % PGSIZE = 0
  kernel : KERNBASE ≤ k.virt
  le_last : k.virt ≤ k.last

theorem kmap_ok (L : Layout) : ∀ k ∈ kmap L, k.Ok := by
  have h1 := L.aligned
  have h2 := L.text
  have h3 := L.data_lt
  have h4 := L.kend_le
  intro k hk
  simp only [kmap, List.mem_cons, List.not_mem_nil, or_false] at hk
  rcases hk with rfl | rfl | rfl | rfl <;> constructor <;>
    simp only [Kmap.last, PGSIZE, KERNBASE, KERNLINK, EXTMEM, PHYSTOP, DEVSPACE, pgrounddown] at * <;> omega

theorem Kmap.last_lt (k : Kmap) : k.last < 2 ^ 32 ∧ k.last % PGSIZE = 0 := by
  have h : ∀ a, pgrounddown (a % 2 ^ 32) < 2 ^ 32 ∧ pgrounddown (a % 2 ^ 32) % PGSIZE = 0 := by
    intro a
    simp only [pgrounddown, PGSIZE]
    omega
  exact h _

/-- The ranges are in order and do not overlap. -/
theorem kmap_disjoint (L : Layout) : (kmap L).Pairwise fun k k' => k.last < k'.virt := by
  have h1 := L.aligned
  have h2 := L.text
  have h3 := L.data_lt
  have h4 := L.kend_le
  simp only [PGSIZE, EXTMEM] at h1 h2
  simp only [kmap, List.pairwise_cons, List.mem_cons, List.not_mem_nil, or_false, forall_eq_or_imp, forall_eq,
    Kmap.last, pgrounddown, KERNBASE, KERNLINK, EXTMEM, PHYSTOP, DEVSPACE, PGSIZE]
  refine ⟨⟨?_, ?_, ?_⟩, ⟨?_, ?_⟩, ?_, fun _ hk => hk.elim, List.Pairwise.nil⟩ <;> omega

/-- The pages that the user may use are below `KERNBASE`. -/
def Pgdir.KernelOnly (A : Pgdir) : Prop :=
  ∀ n, n < 2 ^ 20 → KERNBASE ≤ n * PGSIZE → ∀ e, A.entry n = some e → e.perm.user = false

theorem kmap_perm (L : Layout) : ∀ k ∈ kmap L, k.perm.user = false := by
  intro k hk
  simp only [kmap, List.mem_cons, List.not_mem_nil, or_false] at hk
  rcases hk with rfl | rfl | rfl | rfl <;> rfl

theorem kmapLoop_spec (ks : List Kmap) (hks : ∀ k ∈ ks, k.Ok) (hperm : ∀ k ∈ ks, k.perm.user = false)
    (hdisj : ks.Pairwise fun k k' => k.last < k'.virt) (A : Pgdir) (m : Mem)
    (habs : ∀ k ∈ ks, ∀ n, k.virt ≤ n * PGSIZE → n * PGSIZE ≤ k.last → A.entry n = none) :
    Meets (kmapLoop A ks m) (fun r m' => Keeps m A m' r.1 ∧ A.SameUser r.1 ∧
      (A.KernelOnly → r.1.KernelOnly) ∧ ∀ j, Room j A m → r.2 = true ∧ Room j r.1 m') fun _ => False := by
  induction ks generalizing A m with
  | nil => exact ⟨fun _ => rfl, fun _ _ => rfl, fun h => h, fun _ h => ⟨rfl, h⟩⟩
  | cons k ks ih =>
    obtain ⟨hal, hkern, hle⟩ := hks k List.mem_cons_self
    obtain ⟨hk, hdisj⟩ := List.pairwise_cons.mp hdisj
    have hdown : pgrounddown k.virt = k.virt := pgrounddown_eq hal
    have hlast := k.last_lt
    unfold kmapLoop mappages
    rw [hdown]
    refine (mapLoop_spec k.perm hlast.1 hlast.2 (2 ^ 20) A k.virt _ m hal hle (by simp only [PGSIZE]; omega)
      (habs k List.mem_cons_self)).bind ?_ fun _ he => he
    rintro ⟨B, ok⟩ m₁ ⟨⟨j, hj, -, hent⟩, hown, hroom⟩
    dsimp only at hent hown hroom ⊢
    have hB : A.KernelOnly → B.KernelOnly := by
      intro hA n hn hk e he
      rw [hent n hn] at he
      split at he
      · cases he
        exact hperm k List.mem_cons_self
      · exact hA n hn hk e he
    have hsame : A.SameUser B := by
      intro n hn
      rw [hent n (user_lt hn), if_neg]
      simp only [KERNBASE, PGSIZE] at *
      omega
    cases ok with
    | false => exact ⟨hown hkern, hsame, hB, hroom⟩
    | true =>
      refine (ih (fun k' hk' => hks k' (List.mem_cons_of_mem k hk')) (fun k' hk' => hperm k' (List.mem_cons_of_mem k hk'))
        hdisj B m₁ fun k' hk' n hn hn' => ?_).mono ?_ fun _ he => he
      · have hlt := hk k' hk'
        have hlast' := k'.last_lt
        rw [hent n (by simp only [PGSIZE] at *; omega), if_neg (by simp only [PGSIZE] at *; omega)]
        exact habs k' (List.mem_cons_of_mem k hk') n hn hn'
      · rintro r m₂ ⟨hown', hsame', hkern', hroom'⟩
        exact ⟨fun x => (hown' x).trans (hown hkern x), fun n hn => (hsame' n hn).trans (hsame n hn), fun h => hkern' (hB h),
          fun j h => hroom' j (hroom j h).2⟩

/-- A directory without page tables. -/
theorem Pgdir.owns_new (v x : Page) : Pgdir.owns ⟨v, fun _ => none⟩ x = ofPage v x := by
  have ht : Pgdir.tables ⟨v, fun _ => none⟩ x = 0 := Finset.sum_eq_zero fun i _ => rfl
  have hu : Pgdir.users ⟨v, fun _ => none⟩ x = 0 := Finset.sum_eq_zero fun n _ => rfl
  rw [Pgdir.owns, ht, hu, Int.add_zero, Int.add_zero]

/-- **`setupkvm`**: an address space without user pages, or nothing; an address space if there is room for its page
tables. -/
theorem setupkvm_spec (L : Layout) (m : Mem) :
    Meets (setupkvm L m) (fun r m' =>
      (match r with
      | none => ∀ x, m'.owns x = m.owns x
      | some A => (∀ x, m'.owns x + A.owns x = m.owns x) ∧ A.Holds 0 ∧ A.KernelOnly) ∧
      ∀ k, m.tape = [] → 1025 + k ≤ m.free.length → ∃ A, r = some A ∧ Room k A m')
      fun _ => (¬ ∀ x, 0 < m.owns x → InRange L x) ∧ ¬ (m.tape = [] ∧ 1025 ≤ m.free.length) := by
  obtain ⟨r, m₁, hk, hm₁⟩ := (kalloc_spec m).returns fun _ he => he
  have hroom : ∀ k, m.tape = [] → 1025 + k ≤ m.free.length → ∃ v, r = some v ∧ Room k ⟨v, fun _ => none⟩ m₁ := by
    intro k htape hfree
    obtain ⟨v, m', hk', htape', hlen⟩ := kalloc_ok htape (by omega)
    cases hk.symm.trans hk'
    exact ⟨v, rfl, htape', by rw [Pgdir.missing_new]; omega⟩
  unfold setupkvm
  rw [bind_of_ok hk]
  cases r with
  | none =>
    refine ⟨fun x => ?_, fun k htape hfree => ?_⟩
    · have := hm₁ x
      rw [ofOption_none] at this
      omega
    · obtain ⟨v, hv, -⟩ := hroom k htape hfree
      cases hv
  | some v =>
    refine (kmapLoop_spec (kmap L) (kmap_ok L) (kmap_perm L) (kmap_disjoint L) ⟨v, fun _ => none⟩ m₁
      fun _ _ _ _ _ => rfl).bind ?_ fun _ he => he.elim
    rintro ⟨A, ok⟩ m₂ ⟨hown, hsame, hkern, hroom'⟩
    have hbal : ∀ x, m₂.owns x + A.owns x = m.owns x := by
      intro x
      have h1 := hm₁ x
      have h2 := hown x
      rw [ofOption_some] at h1
      rw [Pgdir.owns_new] at h2
      dsimp only at h2
      omega
    have hok : ∀ k, m.tape = [] → 1025 + k ≤ m.free.length → ok = true ∧ Room k A m₂ := by
      intro k htape hfree
      obtain ⟨v', hv, h⟩ := hroom k htape hfree
      cases hv
      exact hroom' k h
    cases ok with
    | true =>
      refine ⟨⟨hbal, fun n hn => ?_, hkern fun n _ _ e he => by cases he⟩, fun k htape hfree => ⟨A, rfl, (hok k htape hfree).2⟩⟩
      rw [hsame n hn]
      simp [Pgdir.entry, Pgdir.pte]
    | false =>
      refine (freevm_spec L A m₂).bind (fun _ m₃ hm₃ => ⟨fun x => ?_, fun k htape hfree => ?_⟩) fun _ he => ⟨fun h => ?_, fun h => ?_⟩
      · rw [hm₃ x, hbal x]
      · cases (hok k htape hfree).1
      · exact he fun x hx => h x (by rw [← hbal x]; exact hx)
      · cases (hok 0 h.1 h.2).1

theorem copyLoop_spec (L : Layout) (A : Pgdir) {sz : Nat} (hsz : sz ≤ KERNBASE) (d : Pgdir) (i : Nat) (m : Mem)
    (hi : i % PGSIZE = 0) :
    Ends (copyLoop L A sz d i m) fun r m' =>
      match r with
      | none => ∀ x, m'.owns x = m.owns x + d.owns x
      | some d' => Keeps m d m' d' ∧ (d.Holds i → d'.Holds (max i sz)) := by
  induction hk : sz - i using Nat.strong_induction_on generalizing d i m with
  | _ k ih =>
    rw [copyLoop]
    split
    · rename_i hlt
      cases hpde : A.pde (pdx i) with
      | none => trivial
      | some t =>
        cases hpte : A.pte i with
        | none => trivial
        | some e =>
          refine (kalloc_spec m).ends.bind fun r m₁ hm₁ => ?_
          cases r with
          | none =>
            refine (freevm_spec L d m₁).ends.bind fun _ m₂ hm₂ x => ?_
            have h1 := hm₁ x
            have h2 := hm₂ x
            rw [ofOption_none] at h1
            omega
          | some mem =>
            refine (mappages_user d i mem e.perm m₁ (by omega) hi).ends.bind ?_
            rintro ⟨d₁, ok⟩ m₂ ⟨hr, -⟩
            cases ok with
            | true =>
              rw [if_pos rfl] at hr
              obtain ⟨-, hown, hent⟩ := hr
              dsimp only at hown hent ⊢
              rw [if_pos rfl]
              have hnext : sz - (i + PGSIZE) < k ∧ (i + PGSIZE) % PGSIZE = 0 := by
                simp only [PGSIZE] at *
                omega
              refine (ih _ hnext.1 d₁ _ m₂ hnext.2 rfl).mono fun r m₃ hr => ?_
              have hbal : Keeps m d m₂ d₁ := by
                intro x
                have h1 := hm₁ x
                have h2 := hown x
                rw [ofOption_some] at h1
                omega
              cases r with
              | none => exact fun x => by rw [hr x, hbal x]
              | some d' =>
                refine ⟨fun x => (hr.1 x).trans (hbal x), fun hd => ?_⟩
                have hd₁ : d₁.Holds (i + PGSIZE) := by
                  intro n hn
                  have hiff := hd n hn
                  rw [hent n (user_lt hn)]
                  split
                  · rename_i hni
                    simp only [PGSIZE, Option.isSome_some, true_iff] at *
                    omega
                  · rename_i hni
                    rw [hiff]
                    simp only [PGSIZE] at *
                    omega
                -- the last page may reach beyond the size
                intro n hn
                rw [hr.2 hd₁ n hn]
                simp only [PGSIZE] at *
                omega
            | false =>
              rw [if_neg (by nofun)] at hr
              obtain ⟨hown, hent⟩ := hr
              dsimp only at hown ⊢
              rw [if_neg (by nofun)]
              refine (kfree_spec L mem m₂).ends.bind fun _ m₃ hm₃ => ?_
              refine (freevm_spec L d₁ m₃).ends.bind fun _ m₄ hm₄ x => ?_
              have h1 := hm₁ x
              have h2 := hown x
              have h3 := hm₃ x
              have h4 := hm₄ x
              rw [ofOption_some] at h1
              omega
    · rename_i hge
      refine ⟨fun _ => rfl, fun hd => ?_⟩
      rw [Nat.max_eq_left (by omega)]
      exact hd

/-- `copyuvm`: a copy with the same pages, or nothing. -/
theorem copyuvm_spec (L : Layout) (A : Pgdir) {sz : Nat} (hsz : sz ≤ KERNBASE) (m : Mem) :
    Ends (copyuvm L A sz m) fun r m' =>
      match r with
      | none => ∀ x, m'.owns x = m.owns x
      | some d => (∀ x, m'.owns x + d.owns x = m.owns x) ∧ d.Holds sz := by
  unfold copyuvm
  refine (setupkvm_spec L m).ends.bind fun r m₁ ⟨hr, _⟩ => ?_
  cases r with
  | none => exact hr
  | some d =>
    refine (copyLoop_spec L A hsz d 0 m₁ rfl).mono fun r m₂ hr' => ?_
    cases r with
    | none => exact fun x => (hr' x).trans (hr.1 x)
    | some d' =>
      refine ⟨fun x => (hr'.1 x).trans (hr.1 x), ?_⟩
      have hd' := hr'.2 hr.2.1
      rw [Nat.max_eq_right (Nat.zero_le sz)] at hd'
      exact hd'

/-! ## `exec` -/

theorem loadLoop_spec (A : Pgdir) (addr sz pages k : Nat) (m : Mem) :
    Ends (loadLoop A addr sz pages k m) fun _ m' => m' = m := by
  induction hk : sz - k * PGSIZE using Nat.strong_induction_on generalizing k with
  | _ j ih =>
    rw [loadLoop]
    split
    · cases A.pde (pdx (addr + k * PGSIZE)) with
      | none => trivial
      | some t =>
        dsimp only
        split
        · rfl
        · exact ih _ (by simp only [PGSIZE] at *; omega) (k + 1) rfl
    · rfl

theorem loaduvm_spec (A : Pgdir) (addr sz pages : Nat) (m : Mem) :
    Ends (loaduvm A addr sz pages m) fun _ m' => m' = m := by
  unfold loaduvm
  split
  · trivial
  · exact loadLoop_spec A addr sz pages 0 m

theorem execLoad_spec (L : Layout) (ss : List Seg) (A : Pgdir) (sz : Nat) (m : Mem) :
    Ends (execLoad L A sz ss m) fun r m' =>
      Keeps m A m' r.1 ∧
      (A.Holds sz → sz < KERNBASE → ∀ sz', r.2 = some sz' → r.1.Holds sz' ∧ sz' < KERNBASE) := by
  have hbad : ∀ (B : Pgdir) (m' : Mem), Keeps m A m' B →
      Ends ((pure (B, none) : VmProg (Pgdir × Option Nat)) m') fun r m' =>
        Keeps m A m' r.1 ∧
        (A.Holds sz → sz < KERNBASE → ∀ sz', r.2 = some sz' → r.1.Holds sz' ∧ sz' < KERNBASE) :=
    fun B m' hB => ⟨hB, fun _ _ sz' hs => nomatch hs⟩
  induction ss generalizing A sz m with
  | nil => exact ⟨fun _ => rfl, fun hA hlt sz' hs => by cases hs; exact ⟨hA, hlt⟩⟩
  | cons s ss ih =>
    unfold execLoad
    split
    · exact hbad A m fun _ => rfl
    split
    · exact ih A sz m hbad
    split
    · exact hbad A m fun _ => rfl
    split
    · exact hbad A m fun _ => rfl
    refine (allocuvm_spec L A sz _ m).ends.bind ?_
    rintro ⟨B, sz₁⟩ m₁ ⟨hown, hsz, hholds⟩
    dsimp only at hown hsz hholds ⊢
    split
    · exact hbad B m₁ hown
    rename_i hne
    split
    · exact hbad B m₁ hown
    refine (loaduvm_spec B _ _ _ m₁).bind ?_
    rintro ok m₂ rfl
    cases ok with
    | false => exact hbad B m₂ hown
    | true =>
      refine (ih B sz₁ m₂ fun C m' hC => ⟨hC, fun _ _ sz' hs => nomatch hs⟩).mono ?_
      rintro r m₃ ⟨hown', hr⟩
      refine ⟨fun x => (hown' x).trans (hown x), fun hA hlt sz' hs => ?_⟩
      have hle := hsz hne
      exact hr ((hholds hA).1 hne) (by omega) sz' hs

theorem clearpteu_spec (A : Pgdir) (uva : Nat) (hu : uva < KERNBASE) (m : Mem) :
    Ends (clearpteu A uva m) fun B m' => m' = m ∧ (∀ x, B.owns x = A.owns x) ∧
      ∀ n, n < KERNBASE / PGSIZE → (B.entry n).isSome = (A.entry n).isSome := by
  unfold clearpteu
  cases hpde : A.pde (pdx uva) with
  | none => trivial
  | some t =>
    have hsome : (A.pde (pdx uva)).isSome = true := by rw [hpde]; rfl
    have h32 : uva < 2 ^ 32 := by
      simp only [KERNBASE] at hu
      omega
    refine ⟨rfl, fun x => ?_, fun n hn => ?_⟩
    · rw [Pgdir.owns_setPte hsome hu, Option.map_map]
      have hpage : (Pte.page ∘ fun e : Pte => { e with perm := { e.perm with user := false } }) = Pte.page := rfl
      rw [hpage]
      omega
    · rw [Pgdir.entry_setPte hsome h32 (user_lt hn)]
      split
      · rename_i hn'
        rw [← Pgdir.entry_page h32, ← hn', Option.isSome_map]
      · rfl

/-- **`clearpteu`** clears the user's permission of one page. -/
theorem clearpteu_flat {A : Pgdir} {uva : Nat} {e : Pte} (hu : uva < 2 ^ 32) (he : A.entry (uva / PGSIZE) = some e) (m : Mem) :
    ∃ B, clearpteu A uva m = .ok (B, m) ∧ ∀ n, n < 2 ^ 20 → B.entry n =
      if n = uva / PGSIZE then some { e with perm := { e.perm with user := false } } else A.entry n := by
  have hpte : A.pte uva = some e := by rw [← Pgdir.entry_page hu, he]
  cases hpde : A.pde (pdx uva) with
  | none =>
    rw [Pgdir.pte, hpde] at hpte
    cases hpte
  | some t =>
    refine ⟨A.setPte uva (some { e with perm := { e.perm with user := false } }), ?_, fun n hn => ?_⟩
    · rw [clearpteu, hpde, hpte]
      rfl
    · rw [Pgdir.entry_setPte (by rw [hpde]; rfl) hu hn]

/-- `exec` up to the commit: a new address space of the size it says, or nothing. -/
theorem execImage_spec (L : Layout) (segs : Option (List Seg)) (args : Bool) (m : Mem) :
    Ends (execImage L segs args m) fun r m' =>
      match r with
      | none => ∀ x, m'.owns x = m.owns x
      | some (A, sz) => (∀ x, m'.owns x + A.owns x = m.owns x) ∧ A.Holds sz ∧ 0 < sz ∧ sz < KERNBASE := by
  unfold execImage
  cases segs with
  | none => exact fun _ => rfl
  | some segs =>
    refine (setupkvm_spec L m).ends.bind fun r m₁ ⟨hr, _⟩ => ?_
    cases r with
    | none => exact hr
    | some A =>
      refine (execLoad_spec L segs A 0 m₁).bind ?_
      rintro ⟨B, r⟩ m₂ ⟨hown, hload⟩
      dsimp only at hown hload ⊢
      -- `goto bad`
      have hbad : ∀ (C : Pgdir) (m' : Mem), (∀ x, m'.owns x + C.owns x = m.owns x) →
          Ends ((freevm L C >>= fun _ => pure (none : Option (Pgdir × Nat))) m') fun r m'' =>
            match r with
            | none => ∀ x, m''.owns x = m.owns x
            | some (A, sz) =>
              (∀ x, m''.owns x + A.owns x = m.owns x) ∧ A.Holds sz ∧ 0 < sz ∧ sz < KERNBASE := by
        intro C m' hC
        exact (freevm_spec L C m').ends.bind fun _ m'' hm'' x => by rw [hm'' x, hC x]
      have hB : ∀ x, m₂.owns x + B.owns x = m.owns x := fun x => (hown x).trans (hr.1 x)
      cases r with
      | none => exact hbad B m₂ hB
      | some sz =>
        have hBsz := (hload hr.2.1 (by simp only [KERNBASE]; omega) sz rfl).1
        have hBup : B.Holds (pgroundup sz) := fun n hn => by rw [hBsz n hn, mul_lt_iff_pgroundup]
        refine (allocuvm_spec L B _ _ m₂).ends.bind ?_
        rintro ⟨C, sz₁⟩ m₃ ⟨hown', hsz, hholds⟩
        dsimp only at hown' hsz hholds ⊢
        have hC : ∀ x, m₃.owns x + C.owns x = m.owns x := fun x => (hown' x).trans (hB x)
        split
        · exact hbad C m₃ hC
        rename_i hne
        have hCsz := (hholds hBup).1 hne
        have hszlt : sz₁ < KERNBASE := by
          have := hsz hne
          omega
        refine (clearpteu_spec C _ (by omega) m₃).bind ?_
        rintro D m₄ ⟨rfl, hDo, hDe⟩
        have hD : ∀ x, m₄.owns x + D.owns x = m.owns x := fun x => by rw [hDo x, hC x]
        split
        · exact ⟨hD, fun n hn => by rw [hDe n hn, hCsz n hn], by omega, hszlt⟩
        · exact hbad D m₄ hD

end Xv6.Vm
