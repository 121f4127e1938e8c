/-
  TWO LEVELS REFINE A FLAT MAP — what `mappages`, `deallocuvm` and `clearpteu` do to an address space, seen page by page.

  1. **Masks** — the shifts and masks of `mmu.h` as divisions and remainders: the two indexes of an address are its page number
     (`index_iff`), and an entry is a page and its flags (`entry_or`).
  2. **`Tables`** — no page of the two levels is used twice, and none is free.  So a write to an entry is seen at one page only
     (`Tables.set`), a new page table at none (`Tables.add`), and a page that is freed at none either (`Tables.free`).
  3. The loops, one step and then by induction on the rounds: `mapLoop_spec`, `deallocLoop_spec`.  The jump of `deallocuvm`
     over an absent page table goes to the first address of the next one (`toNat_PGADDR`), so nothing is missed
     (`lookup_noTable`).
  4. **`flat_refined`**.

  A range has at least one page.  (With `size` 0, `last` is the page before `va`, and `mappages` would go once around.)
-/
import Mathlib
import Xv6.Vm.Words
import Xv6.Vm.Size

namespace Xv6.Words

open Outcome Vm
open Function (update_self update_of_ne)

/-! ## Masks -/

/-- What a mask takes and what it leaves add up. -/
theorem mask_add (x m : Word) : (x &&& ~~~m).toNat + (x &&& m).toNat = x.toNat := by
  have hzero : (x &&& ~~~m) &&& (x &&& m) = 0#32 := by
    ext i
    simp only [BitVec.getElem_and, BitVec.getElem_not, BitVec.getElem_zero]
    cases x[i] <;> cases m[i] <;> rfl
  have hor : (x &&& ~~~m) ||| (x &&& m) = x := by
    ext i
    simp only [BitVec.getElem_or, BitVec.getElem_and, BitVec.getElem_not]
    cases x[i] <;> cases m[i] <;> rfl
  have hadd := BitVec.toNat_add_of_and_eq_zero hzero
  rw [BitVec.add_eq_or_of_and_eq_zero _ _ hzero, hor] at hadd
  exact hadd.symm

theorem low_toNat (x : Word) : (x &&& 0xFFF).toNat = x.toNat % PGSIZE := by
  rw [BitVec.toNat_and, show (0xFFF : Word).toNat = 2 ^ 12 - 1 from rfl, Nat.and_two_pow_sub_one_eq_mod]

theorem high_toNat (x : Word) : (x &&& ~~~0xFFF).toNat = pgrounddown x.toNat := by
  have hadd := mask_add x 0xFFF
  rw [low_toNat] at hadd
  simp only [pgrounddown, PGSIZE] at hadd ⊢
  omega

@[simp] theorem toNat_PGROUNDDOWN (a : Word) : (PGROUNDDOWN a).toNat = pgrounddown a.toNat := high_toNat a

@[simp] theorem toNat_PTE_ADDR (w : Word) : (PTE_ADDR w).toNat = pgrounddown w.toNat := high_toNat w

@[simp] theorem toNat_PTE_FLAGS (w : Word) : (PTE_FLAGS w).toNat = w.toNat % PGSIZE := low_toNat w

theorem frame_PTE_ADDR (w : Word) : frame (PTE_ADDR w) = w.toNat / PGSIZE := by
  rw [frame, toNat_PTE_ADDR, pgrounddown, Nat.mul_div_cancel _ (by decide)]

theorem PDX_val (va : Word) : (PDX va).val = va.toNat / 2 ^ 22 := by
  have hlt := va.isLt
  show ((va >>> 22) &&& 0x3FF).toNat = va.toNat / 2 ^ 22
  rw [BitVec.toNat_and, BitVec.toNat_ushiftRight, Nat.shiftRight_eq_div_pow, show (0x3FF : Word).toNat = 2 ^ 10 - 1 from rfl,
    Nat.and_two_pow_sub_one_eq_mod]
  omega

theorem PTX_val (va : Word) : (PTX va).val = va.toNat / PGSIZE % 1024 := by
  show ((va >>> 12) &&& 0x3FF).toNat = va.toNat / PGSIZE % 1024
  rw [BitVec.toNat_and, BitVec.toNat_ushiftRight, Nat.shiftRight_eq_div_pow, show (0x3FF : Word).toNat = 2 ^ 10 - 1 from rfl,
    Nat.and_two_pow_sub_one_eq_mod]

/-- Two indexes say which page. -/
theorem index_iff (va vb : Word) : PDX va = PDX vb ∧ PTX va = PTX vb ↔ va.toNat / PGSIZE = vb.toNat / PGSIZE := by
  rw [Fin.ext_iff, Fin.ext_iff, PDX_val, PDX_val, PTX_val, PTX_val]
  simp only [PGSIZE]
  omega

theorem toNat_PGROUNDUP (sz : Word) (h : sz.toNat < KERNBASE) : (PGROUNDUP sz).toNat = pgroundup sz.toNat := by
  have hsum : (sz + 4096 - 1).toNat = sz.toNat + 4095 := by
    simp only [KERNBASE] at h
    bv_omega
  rw [PGROUNDUP, show (4096 - 1 : Word) = 0xFFF from rfl, high_toNat, hsum, pgrounddown, pgroundup]
  simp only [PGSIZE]
  omega

variable {a : Word}

/-- The first address of the next page table. -/
theorem toNat_PGADDR (h : a.toNat < KERNBASE) :
    (PGADDR (BitVec.ofNat 32 (PDX a) + 1) 0 0 - 4096 + 4096).toNat = (a.toNat / 2 ^ 22 + 1) * 2 ^ 22 := by
  have hidx : (BitVec.ofNat 32 (PDX a) + 1 : Word).toNat = a.toNat / 2 ^ 22 + 1 := by
    have hval := PDX_val a
    rw [BitVec.toNat_add, BitVec.toNat_ofNat, hval]
    simp only [KERNBASE] at h
    simp
    omega
  rw [BitVec.sub_add_cancel]
  show ((BitVec.ofNat 32 (PDX a) + 1) <<< 22 ||| 0#32 <<< 12 ||| 0#32).toNat = _
  rw [BitVec.zero_shiftLeft, BitVec.or_zero, BitVec.or_zero, BitVec.toNat_shiftLeft, hidx, Nat.shiftLeft_eq]
  simp only [KERNBASE] at h
  omega

/-! ## Entries -/

theorem present_or (x : Word) : (x ||| PTE_P) &&& PTE_P ≠ 0 := by
  intro h
  have hbit := congrArg (fun w => w.getLsbD 0) h
  simp at hbit

variable {pa : Word}

/-- A page-aligned address and flags. -/
theorem toNat_or {q : Word} (hpa : pa.toNat % PGSIZE = 0) (hq : q.toNat < PGSIZE) : (pa ||| q).toNat = pa.toNat + q.toNat := by
  rw [BitVec.toNat_or, show pa.toNat = 2 ^ 12 * (pa.toNat / PGSIZE) by simp only [PGSIZE] at *; omega,
    Nat.two_pow_add_eq_or_of_lt hq]

variable {perm : Word}

theorem entry_or (hpa : pa.toNat % PGSIZE = 0) (hperm : perm.toNat < PGSIZE) :
    entry (pa ||| perm ||| PTE_P) = some (frame pa, perm ||| PTE_P) := by
  have hq : (perm ||| PTE_P).toNat < PGSIZE := by
    rw [BitVec.toNat_or]
    exact Nat.or_lt_two_pow (n := 12) hperm (by decide)
  rw [entry, if_pos (present_or _), frame_PTE_ADDR, BitVec.or_assoc]
  generalize perm ||| PTE_P = q at hq ⊢
  have hsum := toNat_or hpa hq
  rw [hsum, frame]
  refine congrArg some (Prod.ext ?_ (BitVec.eq_of_toNat_eq ?_))
  · show (pa.toNat + q.toNat) / 4096 = pa.toNat / 4096
    simp only [PGSIZE] at hpa hq
    omega
  · rw [toNat_PTE_FLAGS, hsum]
    simp only [PGSIZE] at hpa hq ⊢
    omega

theorem entry_zero : entry 0 = none := rfl

/-- Without `PTE_U`, an entry is what it was. -/
theorem entry_clear (w : Word) : entry (w &&& ~~~PTE_U) = (entry w).map fun e => (e.1, e.2 &&& ~~~PTE_U) := by
  have hpres : w &&& ~~~PTE_U &&& PTE_P = w &&& PTE_P := by
    rw [BitVec.and_assoc]
    rfl
  have haddr : PTE_ADDR (w &&& ~~~PTE_U) = PTE_ADDR w := by
    rw [PTE_ADDR, PTE_ADDR, BitVec.and_assoc]
    rfl
  have hflags : PTE_FLAGS (w &&& ~~~PTE_U) = PTE_FLAGS w &&& ~~~PTE_U := by
    rw [PTE_FLAGS, PTE_FLAGS, BitVec.and_assoc, BitVec.and_assoc, BitVec.and_comm (~~~PTE_U)]
  rw [entry, entry, hpres, haddr, hflags]
  split <;> rfl

variable {v : Page}

theorem addr_toNat (hv : v < 2 ^ 20) : (addr v).toNat = v * PGSIZE := by
  have hlt : v * PGSIZE < 2 ^ 32 := by
    simp only [PGSIZE, Page] at hv ⊢
    omega
  rw [addr, BitVec.toNat_ofNat, Nat.mod_eq_of_lt hlt]

/-- What `walkpgdir` puts into the directory. -/
theorem entry_table (hv : v < 2 ^ 20) : entry (addr v ||| PTE_P ||| PTE_W ||| PTE_U) = some (v, 7) := by
  have haddr := addr_toNat hv
  have hor : addr v ||| PTE_P ||| PTE_W ||| PTE_U = addr v ||| 6 ||| PTE_P := by
    rw [BitVec.or_assoc, BitVec.or_assoc, BitVec.or_assoc]
    rfl
  rw [hor, entry_or (by rw [haddr]; exact Nat.mul_mod_left _ _) (by decide), frame, haddr, Nat.mul_div_cancel _ (by decide)]
  rfl

/-! ## The two levels -/

/-- The page table for an entry of the directory. -/
def table (s : Phys) (d : Page) (i : Fin 1024) : Option Page := (entry (s.words d i)).map Prod.fst

variable {L : Layout} {d t : Page} {s s' : Phys} {va vb : Word}

theorem walkpgdir_false (d : Page) (va : Word) (s : Phys) :
    walkpgdir d va false s = .ok ((table s d (PDX va)).map fun t => (t, PTX va), s) := by
  unfold walkpgdir
  rw [bind_of_ok (show read (d, PDX va) s = .ok (s.words d (PDX va), s) from rfl), table, entry]
  by_cases h : s.words d (PDX va) &&& PTE_P ≠ 0
  · rw [if_pos h, if_pos h]
    rfl
  · rw [if_neg h, if_neg h]
    rfl

theorem lookup_eq (s : Phys) (d : Page) (va : Word) :
    lookup s d va = (table s d (PDX va)).bind fun t => entry (s.words t (PTX va)) := by
  rw [lookup, walkpgdir_false]
  cases table s d (PDX va) <;> rfl

/-- No page of the two levels is used twice, and none of them is free. -/
structure Tables (d : Page) (s : Phys) : Prop where
  nodup : s.free.Nodup
  lt : ∀ v ∈ s.free, v < 2 ^ 20
  dir_free : d ∉ s.free
  table_free : ∀ i t, table s d i = some t → t ∉ s.free
  dir : ∀ i t, table s d i = some t → t ≠ d
  inj : ∀ i j t, table s d i = some t → table s d j = some t → i = j

/-- Memory with the same directory and page tables. -/
theorem Tables.of_table (h : Tables d s) (htable : ∀ i, table s' d i = table s d i) (hnodup : s'.free.Nodup)
    (hlt : ∀ v ∈ s'.free, v < 2 ^ 20) (hdir : d ∉ s'.free) (hfree : ∀ i t, table s d i = some t → t ∉ s'.free) :
    Tables d s' := by
  refine ⟨hnodup, hlt, hdir, ?_, ?_, ?_⟩
  · intro i t ht
    rw [htable] at ht
    exact hfree i t ht
  · intro i t ht
    rw [htable] at ht
    exact h.dir i t ht
  · intro i j t hi hj
    rw [htable] at hi hj
    exact h.inj i j t hi hj

/-- **A write to an entry** changes what is found for one page. -/
theorem Tables.set (h : Tables d s) (ht : table s d (PDX va) = some t) (w : Word) :
    Tables d (s.set (t, PTX va) w) ∧ (∀ i, table (s.set (t, PTX va) w) d i = table s d i) ∧
    ∀ vb, lookup (s.set (t, PTX va) w) d vb = if vb.toNat / PGSIZE = va.toNat / PGSIZE then entry w else lookup s d vb := by
  have hdir : d ≠ t := (h.dir _ t ht).symm
  have htable : ∀ i, table (s.set (t, PTX va) w) d i = table s d i := by
    intro i
    unfold table Phys.set
    dsimp only
    rw [update_of_ne hdir]
  refine ⟨h.of_table htable h.nodup h.lt h.dir_free h.table_free, htable, fun vb => ?_⟩
  rw [lookup_eq, lookup_eq, htable]
  by_cases hpage : vb.toNat / PGSIZE = va.toNat / PGSIZE
  · obtain ⟨hd, hx⟩ := (index_iff vb va).mpr hpage
    rw [if_pos hpage, hd, hx, ht, Option.bind_some]
    simp only [Phys.set, update_self]
  · rw [if_neg hpage]
    cases hb : table s d (PDX vb) with
    | none => rfl
    | some t' =>
      rw [Option.bind_some, Option.bind_some]
      -- another table, or another entry of the same
      by_cases htt : t' = t
      · subst htt
        have hidx : PTX vb ≠ PTX va := fun hx => hpage ((index_iff vb va).mp ⟨h.inj _ _ _ hb ht, hx⟩)
        simp only [Phys.set, update_self, update_of_ne hidx]
      · simp only [Phys.set, update_of_ne htt]

/-- Filling a page that is none of the two levels changes nothing that is found. -/
theorem fill_eq (hd : v ≠ d) (ht : ∀ i, table s d i ≠ some v) (f : Fin 1024 → Word) :
    (∀ i, table (s.fill v f) d i = table s d i) ∧ ∀ vb, lookup (s.fill v f) d vb = lookup s d vb := by
  have htable : ∀ i, table (s.fill v f) d i = table s d i := by
    intro i
    simp only [table, Phys.fill, update_of_ne hd.symm]
  refine ⟨htable, fun vb => ?_⟩
  rw [lookup_eq, lookup_eq, htable]
  cases hb : table s d (PDX vb) with
  | none => rfl
  | some t =>
    have hne : t ≠ v := by
      rintro rfl
      exact ht _ hb
    simp only [Option.bind_some, Phys.fill, update_of_ne hne]

/-- What a new page table changes. -/
theorem Tables.add {rest : List Page} (h : Tables d s) (hfree : s.free = v :: rest)
    (hnone : table s d (PDX va) = none) :
    let s' := (Phys.fill { s with free := rest } v fun _ => 0).set (d, PDX va) (addr v ||| PTE_P ||| PTE_W ||| PTE_U)
    Tables d s' ∧ (∀ i, table s' d i = if i = PDX va then some v else table s d i) ∧
      ∀ vb, lookup s' d vb = lookup s d vb := by
  intro s'
  have hmem : v ∈ s.free := by
    rw [hfree]
    exact List.mem_cons_self
  have hnodup := h.nodup
  rw [hfree, List.nodup_cons] at hnodup
  have hvd : v ≠ d := fun hv => h.dir_free (hv ▸ hmem)
  have hvt : ∀ i, table s d i ≠ some v := fun i hi => h.table_free i v hi hmem
  have hrest : ∀ x ∈ rest, x ∈ s.free := fun x hx => by rw [hfree]; exact List.mem_cons_of_mem v hx
  have htable : ∀ i, table s' d i = if i = PDX va then some v else table s d i := by
    intro i
    by_cases hi : i = PDX va
    · subst hi
      rw [if_pos rfl]
      simp only [table, s', Phys.set, update_self]
      rw [entry_table (h.lt v hmem)]
      rfl
    · rw [if_neg hi]
      simp only [table, s', Phys.set, Phys.fill, update_self, update_of_ne hi, update_of_ne hvd.symm]
  refine ⟨⟨hnodup.2, fun x hx => h.lt x (hrest x hx), fun hd => h.dir_free (hrest d hd), ?_, ?_, ?_⟩, htable, fun vb => ?_⟩
  · intro i t hi hfr
    rw [htable] at hi
    split at hi
    · cases hi
      exact hnodup.1 hfr
    · exact h.table_free i t hi (hrest t hfr)
  · intro i t hi
    rw [htable] at hi
    split at hi
    · cases hi
      exact hvd
    · exact h.dir i t hi
  · intro i j t hi hj
    rw [htable] at hi hj
    split at hi <;> split at hj
    · rename_i hi' hj'
      rw [hi', hj']
    · cases hi
      exact absurd hj (hvt j)
    · cases hj
      exact absurd hi (hvt i)
    · exact h.inj i j t hi hj
  · rw [lookup_eq, lookup_eq, htable]
    split
    · rename_i hi
      rw [hi, hnone, Option.bind_some, Option.bind_none]
      simp only [s', Phys.set, Phys.fill, update_of_ne hvd, update_self]
      rfl
    · cases hb : table s d (PDX vb) with
      | none => rfl
      | some t =>
        have htd : t ≠ d := h.dir _ t hb
        have htv : t ≠ v := fun heq => hvt _ (heq ▸ hb)
        simp only [Option.bind_some, s', Phys.set, Phys.fill, update_of_ne htd, update_of_ne htv]

/-- Pages of the free list have become page tables. -/
structure Grown (d : Page) (s s' : Phys) : Prop where
  tables : Tables d s'
  free : ∀ x ∈ s'.free, x ∈ s.free
  table : ∀ i t, table s' d i = some t → table s d i = some t ∨ t ∈ s.free ∧ t ∉ s'.free

theorem Grown.refl (h : Tables d s) : Grown d s s := ⟨h, fun _ hx => hx, fun _ _ ht => .inl ht⟩

theorem Grown.trans {s'' : Phys} (h : Grown d s s') (h' : Grown d s' s'') : Grown d s s'' where
  tables := h'.tables
  free x hx := h.free x (h'.free x hx)
  table i t ht := by
    rcases h'.table i t ht with ht' | ⟨hin, hout⟩
    · rcases h.table i t ht' with ht'' | ⟨hin, hout⟩
      · exact .inl ht''
      · exact .inr ⟨hin, fun hx => hout (h'.free t hx)⟩
    · exact .inr ⟨h.free t hin, hout⟩

/-- **`walkpgdir` with `alloc`**: what is found stays; the entry exists then, or there was no page for the table. -/
theorem walkpgdir_true (h : Tables d s) (va : Word) :
    Meets (walkpgdir d va true s) (fun r s' => Grown d s s' ∧ (∀ vb, lookup s' d vb = lookup s d vb) ∧
      ∀ p, r = some p → p.2 = PTX va ∧ table s' d (PDX va) = some p.1) fun _ => False := by
  unfold walkpgdir
  rw [bind_of_ok (show read (d, PDX va) s = .ok (s.words d (PDX va), s) from rfl)]
  by_cases hp : s.words d (PDX va) &&& PTE_P ≠ 0
  · rw [if_pos hp]
    refine ⟨.refl h, fun _ => rfl, fun p hr => ?_⟩
    cases hr
    refine ⟨rfl, ?_⟩
    rw [table, entry, if_pos hp]
    rfl
  rw [if_neg hp, if_neg (by decide)]
  have hnone : table s d (PDX va) = none := by
    rw [table, entry, if_neg hp]
    rfl
  cases hfree : s.free with
  | nil =>
    rw [bind_of_ok (show kalloc s = .ok (none, s) by rw [kalloc, hfree])]
    exact ⟨.refl h, fun _ => rfl, fun p hr => by cases hr⟩
  | cons v rest =>
    rw [bind_of_ok (show kalloc s = .ok (some v, { s with free := rest }) by rw [kalloc, hfree])]
    obtain ⟨htables, htable, hlookup⟩ := h.add hfree hnone
    have hnodup := h.nodup
    rw [hfree, List.nodup_cons] at hnodup
    refine ⟨⟨htables, fun x hx => ?_, fun i t ht => ?_⟩, hlookup, fun p hr => ?_⟩
    · rw [hfree]
      exact List.mem_cons_of_mem v hx
    · rw [htable] at ht
      split at ht
      · cases ht
        refine .inr ⟨?_, hnodup.1⟩
        rw [hfree]
        exact List.mem_cons_self
      · exact .inl ht
    · cases hr
      exact ⟨rfl, by rw [htable, if_pos rfl]⟩

/-! ## `mappages` -/

/-- The pages from `a` on, `k` of them, are mapped to those from `pa` on; nothing was there before, and nothing else is new. -/
structure Mapped (d : Page) (a pa perm : Word) (k : Nat) (s s' : Phys) : Prop where
  absent : ∀ vb : Word, a.toNat ≤ vb.toNat → vb.toNat < a.toNat + k * PGSIZE → lookup s d vb = none
  view : ∀ vb : Word, lookup s' d vb = if a.toNat ≤ vb.toNat ∧ vb.toNat < a.toNat + k * PGSIZE then
    some ((frame pa + (vb.toNat / PGSIZE - a.toNat / PGSIZE)) % 2 ^ 20, perm ||| PTE_P) else lookup s d vb

theorem mapped_zero (hview : ∀ vb, lookup s' d vb = lookup s d vb) : Mapped d a pa perm 0 s s' where
  absent vb hlo hhi := by omega
  view vb := by rw [hview, if_neg (by omega)]

variable {s₁ : Phys}

/-- One entry. -/
theorem mapped_one (ha : a.toNat % PGSIZE = 0) (hnone : lookup s d a = none)
    (hview : ∀ vb, lookup s₁ d vb = if vb.toNat / PGSIZE = a.toNat / PGSIZE then some (frame pa, perm ||| PTE_P)
      else lookup s d vb) : Mapped d a pa perm 1 s s₁ := by
  have hpage : ∀ vb : Word, vb.toNat / PGSIZE = a.toNat / PGSIZE ↔ a.toNat ≤ vb.toNat ∧ vb.toNat < a.toNat + 1 * PGSIZE := by
    intro vb
    simp only [PGSIZE] at ha ⊢
    omega
  constructor
  · intro vb hlo hhi
    have hidx := (index_iff vb a).mpr ((hpage vb).mpr ⟨hlo, hhi⟩)
    rw [lookup_eq] at hnone ⊢
    rw [hidx.1, hidx.2]
    exact hnone
  · intro vb
    rw [hview]
    by_cases hin : vb.toNat / PGSIZE = a.toNat / PGSIZE
    · have hlt : frame pa < 2 ^ 20 := Nat.div_lt_of_lt_mul (by have := pa.isLt; simp only [PGSIZE]; omega)
      rw [if_pos hin, if_pos ((hpage vb).mp hin), hin, Nat.sub_self, Nat.add_zero, Nat.mod_eq_of_lt hlt]
    · rw [if_neg hin, if_neg (mt (hpage vb).mpr hin)]

/-- One entry, and then the rest. -/
theorem Mapped.cons {k : Nat} (hlt : a.toNat + PGSIZE < 2 ^ 32) (h₁ : Mapped d a pa perm 1 s s₁)
    (h : Mapped d (a + 4096) (pa + 4096) perm k s₁ s') : Mapped d a pa perm (k + 1) s s' := by
  have hnext : (a + 4096).toNat = a.toNat + PGSIZE := by
    simp only [PGSIZE] at hlt ⊢
    bv_omega
  have hframe : frame (pa + 4096) = (frame pa + 1) % 2 ^ 20 := by
    have hwrap : ∀ x : Nat, x < 2 ^ 32 → (x + 4096) % 2 ^ 32 / PGSIZE = (x / PGSIZE + 1) % 2 ^ 20 := by
      intro x hx
      simp only [PGSIZE]
      omega
    unfold frame
    rw [BitVec.toNat_add]
    exact hwrap _ pa.isLt
  have hmul : (k + 1) * PGSIZE = k * PGSIZE + PGSIZE := Nat.succ_mul k PGSIZE
  constructor
  · intro vb hlo hhi
    by_cases hfirst : vb.toNat < a.toNat + PGSIZE
    · exact h₁.absent vb hlo (by omega)
    · have habs := h.absent vb (by omega) (by omega)
      rw [h₁.view, if_neg (by omega)] at habs
      exact habs
  · intro vb
    rw [h.view, h₁.view, hnext, hframe, Nat.one_mul]
    by_cases hrest : a.toNat + PGSIZE ≤ vb.toNat ∧ vb.toNat < a.toNat + PGSIZE + k * PGSIZE
    · have hshift : (a.toNat + PGSIZE) / PGSIZE = a.toNat / PGSIZE + 1 := Nat.add_div_right _ (by decide)
      have hle : a.toNat / PGSIZE + 1 ≤ vb.toNat / PGSIZE := by
        rw [← hshift]
        exact Nat.div_le_div_right hrest.1
      have hsum : ∀ f x y : Nat, y + 1 ≤ x → ((f + 1) % 2 ^ 20 + (x - (y + 1))) % 2 ^ 20 = (f + (x - y)) % 2 ^ 20 := by
        intro f x y hxy
        omega
      rw [if_pos hrest, if_pos (by omega), hshift, hsum _ _ _ hle]
    · rw [if_neg hrest]
      by_cases hfirst : a.toNat ≤ vb.toNat ∧ vb.toNat < a.toNat + PGSIZE
      · rw [if_pos hfirst, if_pos (by omega)]
      · rw [if_neg hfirst, if_neg (by omega)]

/-- **The loop of `mappages`** maps a prefix of the range: all of it if it returns 0; or there is a page that is mapped. -/
theorem mapLoop_spec {last : Word} (hl : last.toNat % PGSIZE = 0)
    (hperm : perm.toNat < PGSIZE) (fuel : Nat) (a pa : Word) (s : Phys) (h : Tables d s) (ha : a.toNat % PGSIZE = 0)
    (hpa : pa.toNat % PGSIZE = 0) (hle : a.toNat ≤ last.toNat) (hfuel : last.toNat < a.toNat + fuel * PGSIZE) :
    Meets (mapLoop d last perm fuel a pa s) (fun ret s' => Grown d s s' ∧ ∃ k, Mapped d a pa perm k s s' ∧
        (ret = 0 ∧ a.toNat + k * PGSIZE = last.toNat + PGSIZE ∨ ret = -1 ∧ a.toNat + k * PGSIZE ≤ last.toNat))
      fun e => e = .remap ∧ ∃ vb : Word, a.toNat ≤ vb.toNat ∧ vb.toNat ≤ last.toNat ∧ (lookup s d vb).isSome = true := by
  induction fuel generalizing a pa s with
  | zero => omega
  | succ fuel ih =>
    unfold mapLoop
    refine (walkpgdir_true h a).bind (fun r s₁ hr => ?_) fun _ he => he.elim
    obtain ⟨hgrown, hview, hptr⟩ := hr
    cases r with
    | none => exact ⟨hgrown, 0, mapped_zero hview, .inr ⟨rfl, by omega⟩⟩
    | some p =>
      obtain ⟨t, x⟩ := p
      obtain ⟨hx, ht⟩ := hptr _ rfl
      dsimp only at hx ht ⊢
      subst hx
      have hentry : lookup s d a = entry (s₁.words t (PTX a)) := by rw [← hview, lookup_eq, ht, Option.bind_some]
      rw [bind_of_ok (show read (t, PTX a) s₁ = .ok (s₁.words t (PTX a), s₁) from rfl)]
      by_cases hp : s₁.words t (PTX a) &&& PTE_P ≠ 0
      · rw [if_pos hp]
        refine ⟨rfl, a, Nat.le_refl _, hle, ?_⟩
        rw [hentry, entry, if_pos hp]
        rfl
      have hnone : lookup s d a = none := by rw [hentry, entry, if_neg hp]
      rw [if_neg hp, bind_of_ok (show write (t, PTX a) (pa ||| perm ||| PTE_P) s₁ = .ok ((), _) from rfl)]
      obtain ⟨htables, htable, hset⟩ := hgrown.tables.set ht (pa ||| perm ||| PTE_P)
      have hgrown₂ : Grown d s (s₁.set (t, PTX a) (pa ||| perm ||| PTE_P)) :=
        hgrown.trans ⟨htables, fun _ hx => hx, fun i t' ht' => .inl (by rwa [htable] at ht')⟩
      have hone : Mapped d a pa perm 1 s (s₁.set (t, PTX a) (pa ||| perm ||| PTE_P)) :=
        mapped_one ha hnone fun vb => by rw [hset, entry_or hpa hperm, hview]
      by_cases heq : a = last
      · rw [if_pos heq]
        exact ⟨hgrown₂, 1, hone, .inl ⟨rfl, by rw [heq, Nat.one_mul]⟩⟩
      rw [if_neg heq]
      have hnext : (a + 4096).toNat = a.toNat + PGSIZE ∧ a.toNat + PGSIZE ≤ last.toNat ∧ (a.toNat + PGSIZE) % PGSIZE = 0 ∧
          last.toNat < a.toNat + PGSIZE + fuel * PGSIZE := by
        simp only [PGSIZE] at *
        bv_omega
      have hpa' : (pa + 4096).toNat % PGSIZE = 0 := by
        simp only [PGSIZE] at *
        bv_omega
      refine (ih (a + 4096) (pa + 4096) _ htables (by rw [hnext.1]; exact hnext.2.2.1) hpa' (by omega) (by omega)).mono
        (fun ret s' hr => ?_) fun e he => ?_
      · obtain ⟨hgrown₃, k, hmapped, hret⟩ := hr
        refine ⟨hgrown₂.trans hgrown₃, k + 1, hone.cons (by have := last.isLt; omega) hmapped, ?_⟩
        rw [hnext.1] at hret
        rw [Nat.succ_mul]
        omega
      · obtain ⟨rfl, vb, hlo, hhi, hsome⟩ := he
        rw [hone.view, if_neg (by omega)] at hsome
        exact ⟨rfl, vb, by omega, hhi, hsome⟩

/-! ## `deallocuvm` -/

/-- A well-formed address space: the pages that the user has are pages that `kfree` takes; they are neither free nor page
    tables, and no page is mapped twice. -/
structure WellFormed (L : Layout) (d : Page) (s : Phys) : Prop where
  tables : Tables d s
  user : ∀ (va : Word) v fl, va.toNat < KERNBASE → lookup s d va = some (v, fl) →
    InRange L v ∧ v ≠ d ∧ v ∉ s.free ∧ ∀ i, table s d i ≠ some v
  once : ∀ (va vb : Word) v fl fl', va.toNat < KERNBASE → vb.toNat < KERNBASE → lookup s d va = some (v, fl) →
    lookup s d vb = some (v, fl') → va.toNat / PGSIZE = vb.toNat / PGSIZE

theorem lookup_page (h : va.toNat / PGSIZE = vb.toNat / PGSIZE) : lookup s d va = lookup s d vb := by
  obtain ⟨hd, hx⟩ := (index_iff va vb).mpr h
  rw [lookup_eq, lookup_eq, hd, hx]

theorem InRange.lt (h : InRange L v) : v < 2 ^ 20 ∧ 0 < v := by
  obtain ⟨hlo, hhi⟩ := h
  have htext := L.text
  have hdata := L.data_lt
  have hpage : ∀ v : Nat, L.kend ≤ v * PGSIZE → v * PGSIZE < PHYSTOP → v < 2 ^ 20 ∧ 0 < v := by
    intro v hlo hhi
    simp only [PGSIZE, PHYSTOP] at *
    omega
  exact hpage v hlo hhi

/-- A page that is freed: what is found stays. -/
theorem Tables.free (h : Tables d s) (hlt : v < 2 ^ 20) (hd : v ≠ d) (hfree : v ∉ s.free)
    (ht : ∀ i, table s d i ≠ some v) (f : Fin 1024 → Word) : let s' := { s.fill v f with free := v :: s.free }
    Tables d s' ∧ (∀ i, table s' d i = table s d i) ∧ ∀ vb, lookup s' d vb = lookup s d vb := by
  intro s'
  obtain ⟨htable, hview⟩ := fill_eq hd ht f
  refine ⟨h.of_table htable (List.nodup_cons.mpr ⟨hfree, h.nodup⟩) (fun x hx => ?_) (fun hx => ?_) fun i t hi hx => ?_,
    htable, fun vb => ?_⟩
  · rcases List.mem_cons.mp hx with rfl | hx
    · exact hlt
    · exact h.lt x hx
  · rcases List.mem_cons.mp hx with rfl | hx
    · exact hd rfl
    · exact h.dir_free hx
  · rcases List.mem_cons.mp hx with rfl | hx
    · exact ht i hi
    · exact h.table_free i t hi hx
  · rw [← hview, lookup_eq, lookup_eq]
    rfl

/-- **One round of `deallocuvm`**: the page is not there any more. -/
theorem deallocPte_spec (h : WellFormed L d s) (hva : va.toNat < KERNBASE) (ht : table s d (PDX va) = some t) :
    ∃ s', deallocPte L (t, PTX va) s = .ok ((), s') ∧ WellFormed L d s' ∧ (∀ i, table s' d i = table s d i) ∧
      ∀ vb, lookup s' d vb = if vb.toNat / PGSIZE = va.toNat / PGSIZE then none else lookup s d vb := by
  have hentry : lookup s d va = entry (s.words t (PTX va)) := by rw [lookup_eq, ht, Option.bind_some]
  unfold deallocPte
  rw [bind_of_ok (show read (t, PTX va) s = .ok (s.words t (PTX va), s) from rfl)]
  by_cases hp : s.words t (PTX va) &&& PTE_P = 0
  · rw [if_pos hp]
    refine ⟨s, rfl, h, fun _ => rfl, fun vb => ?_⟩
    split
    · rename_i hpage
      rw [lookup_page hpage, hentry, entry, if_neg (not_not.mpr hp)]
    · rfl
  rw [if_neg hp]
  rw [entry, if_pos hp] at hentry
  obtain ⟨hrange, hd, hfree, htab⟩ := h.user va _ _ hva hentry
  have hlt := InRange.lt hrange
  have haddr : PTE_ADDR (s.words t (PTX va)) ≠ 0 := by
    intro hzero
    rw [hzero] at hlt
    exact absurd hlt.2 (Nat.lt_irrefl 0)
  generalize hv : frame (PTE_ADDR (s.words t (PTX va))) = v at *
  have hkfree : kfree L v s = .ok ((), { s.fill v fun i => if i = 0 then link s.free else 0x01010101 with
      free := v :: s.free }) := by
    rw [kfree, if_neg (not_or.mpr ⟨Nat.not_lt.mpr hrange.1, Nat.not_le.mpr hrange.2⟩)]
    rfl
  obtain ⟨htables, htable, hview⟩ := h.tables.free hlt.1 hd hfree htab fun i => if i = 0 then link s.free else 0x01010101
  obtain ⟨htables₂, htable₂, hset⟩ := htables.set ((htable _).trans ht) 0
  rw [if_neg haddr, bind_of_ok hkfree]
  have hview₂ := fun vb => (hset vb).trans (by rw [hview, entry_zero])
  refine ⟨_, rfl, ⟨htables₂, fun vb w fl hvb hlook => ?_, fun vb vc w fl fl' hvb hvc hb hc => ?_⟩,
    fun i => (htable₂ i).trans (htable i), hview₂⟩
  · rw [hview₂] at hlook
    split at hlook
    · cases hlook
    · rename_i hpage
      obtain ⟨hrange', hd', hfree', htab'⟩ := h.user vb w fl hvb hlook
      refine ⟨hrange', hd', fun hx => ?_, fun i hi => htab' i ?_⟩
      · rcases List.mem_cons.mp hx with rfl | hx
        · exact hpage (h.once vb va _ _ _ hvb hva hlook hentry)
        · exact hfree' hx
      · rw [htable₂, htable] at hi
        exact hi
  · rw [hview₂] at hb hc
    split at hb
    · cases hb
    · split at hc
      · cases hc
      · exact h.once vb vc w fl fl' hvb hvc hb hc

/-- Nothing is mapped through a page table that is not there. -/
theorem lookup_noTable {vb : Word} (h : table s d (PDX a) = none) (hle : a.toNat ≤ vb.toNat)
    (hlt : vb.toNat < (a.toNat / 2 ^ 22 + 1) * 2 ^ 22) : lookup s d vb = none := by
  have hidx : PDX vb = PDX a := by
    rw [Fin.ext_iff, PDX_val, PDX_val]
    omega
  rw [lookup_eq, hidx, h, Option.bind_none]

variable {oldsz : Word}

/-- **The loop of `deallocuvm`** comes to its end, and has removed the pages from `a` on. -/
theorem deallocLoop_spec (ho : oldsz.toNat ≤ KERNBASE) (fuel : Nat) (a : Word) (s : Phys)
    (h : WellFormed L d s) (ha : a.toNat % PGSIZE = 0) (hfuel : oldsz.toNat ≤ a.toNat + fuel * PGSIZE) :
    ∃ s', deallocLoop L d oldsz (fuel + 1) a s = .ok (true, s') ∧ WellFormed L d s' ∧ (∀ i, table s' d i = table s d i) ∧
      ∀ vb, lookup s' d vb =
        if a.toNat ≤ vb.toNat ∧ pgrounddown vb.toNat < oldsz.toNat then none else lookup s d vb := by
  induction fuel generalizing a s with
  | zero =>
    have hend : ¬ a < oldsz := by
      rw [BitVec.lt_def]
      omega
    refine ⟨s, by rw [deallocLoop, if_neg hend]; rfl, h, fun _ => rfl, fun vb => ?_⟩
    rw [if_neg]
    simp only [pgrounddown, PGSIZE] at *
    omega
  | succ fuel ih =>
    rw [deallocLoop]
    by_cases hlt : a < oldsz
    · rw [if_pos hlt]
      rw [BitVec.lt_def] at hlt
      rw [bind_of_ok (walkpgdir_false d a s)]
      cases ht : table s d (PDX a) with
      | none =>
        -- the whole page table is skipped
        rw [Option.map_none]
        have hnext := toNat_PGADDR (a := a) (by omega)
        have hskip : (a.toNat / 2 ^ 22 + 1) * 2 ^ 22 % PGSIZE = 0 ∧ a.toNat + PGSIZE ≤ (a.toNat / 2 ^ 22 + 1) * 2 ^ 22 := by
          simp only [PGSIZE] at *
          omega
        obtain ⟨s', hrun, hwf, htab, hview⟩ := ih _ s h (by rw [hnext]; exact hskip.1) (by rw [hnext]; rw [Nat.succ_mul] at hfuel; omega)
        refine ⟨s', hrun, hwf, htab, fun vb => ?_⟩
        rw [hview, hnext]
        by_cases hin : a.toNat ≤ vb.toNat ∧ vb.toNat < (a.toNat / 2 ^ 22 + 1) * 2 ^ 22
        · rw [lookup_noTable ht hin.1 hin.2, ite_self, ite_self]
        · by_cases hout : a.toNat ≤ vb.toNat ∧ pgrounddown vb.toNat < oldsz.toNat
          · rw [if_pos hout, if_pos ⟨by omega, hout.2⟩]
          · rw [if_neg hout, if_neg fun hc => hout ⟨by omega, hc.2⟩]
      | some t =>
        rw [Option.map_some]
        obtain ⟨s₁, hrun₁, hwf₁, htab₁, hview₁⟩ := deallocPte_spec h (by omega) ht
        have hnext : (a + 4096).toNat = a.toNat + PGSIZE := by
          simp only [PGSIZE, KERNBASE] at *
          bv_omega
        dsimp only
        rw [bind_of_ok hrun₁]
        obtain ⟨s', hrun, hwf, htab, hview⟩ := ih (a + 4096) s₁ hwf₁ (by rw [hnext]; simp only [PGSIZE] at *; omega)
          (by rw [hnext]; rw [Nat.succ_mul] at hfuel; omega)
        refine ⟨s', hrun, hwf, fun i => (htab i).trans (htab₁ i), fun vb => ?_⟩
        rw [hview, hview₁, hnext]
        by_cases hpage : vb.toNat / PGSIZE = a.toNat / PGSIZE
        · rw [if_pos hpage, ite_self, if_pos]
          simp only [pgrounddown, PGSIZE] at *
          omega
        · rw [if_neg hpage]
          by_cases hout : a.toNat ≤ vb.toNat ∧ pgrounddown vb.toNat < oldsz.toNat
          · rw [if_pos hout, if_pos ⟨by simp only [PGSIZE] at *; omega, hout.2⟩]
          · rw [if_neg hout, if_neg fun hc => hout ⟨by omega, hc.2⟩]
    · rw [if_neg hlt]
      rw [BitVec.lt_def] at hlt
      refine ⟨s, rfl, h, fun _ => rfl, fun vb => ?_⟩
      rw [if_neg]
      simp only [pgrounddown, PGSIZE] at *
      omega

theorem deallocuvm_spec (h : WellFormed L d s) (newsz : Word) (ho : oldsz.toNat ≤ KERNBASE) :
    ∃ s', deallocuvm L d oldsz newsz s = .ok (some (if oldsz ≤ newsz then oldsz else newsz), s') ∧ WellFormed L d s' ∧
      (∀ i, table s' d i = table s d i) ∧ ∀ vb, lookup s' d vb =
        if pgroundup newsz.toNat ≤ pgrounddown vb.toNat ∧ pgrounddown vb.toNat < oldsz.toNat then none
        else lookup s d vb := by
  unfold deallocuvm
  by_cases hle : oldsz ≤ newsz
  · rw [if_pos hle, if_pos hle]
    rw [BitVec.le_def] at hle
    refine ⟨s, rfl, h, fun _ => rfl, fun vb => ?_⟩
    rw [if_neg]
    have := le_pgroundup newsz.toNat
    omega
  · rw [if_neg hle, if_neg hle]
    rw [BitVec.le_def] at hle
    have hup := toNat_PGROUNDUP newsz (by omega)
    obtain ⟨s', hrun, hwf, htab, hview⟩ := deallocLoop_spec (L := L) ho (2 ^ 20 - 1) (PGROUNDUP newsz) s h
      (by rw [hup]; exact pgroundup_mod _) (by simp only [PGSIZE, KERNBASE] at *; omega)
    rw [show 2 ^ 20 - 1 + 1 = 2 ^ 20 from rfl] at hrun
    refine ⟨s', by rw [bind_of_ok hrun]; rfl, hwf, htab, fun vb => ?_⟩
    rw [hview, hup]
    have hmod := pgroundup_mod newsz.toNat
    have hiff : pgroundup newsz.toNat ≤ vb.toNat ↔ pgroundup newsz.toNat ≤ pgrounddown vb.toNat := by
      simp only [pgrounddown, PGSIZE] at *
      omega
    simp only [hiff]

/-- **`clearpteu`**, of a page whose table exists. -/
theorem clearpteu_spec (h : Tables d s) (ht : table s d (PDX va) = some t) :
    ∃ s', clearpteu d va s = .ok ((), s') ∧ ∀ vb, lookup s' d vb =
      if vb.toNat / PGSIZE = va.toNat / PGSIZE then (lookup s d vb).map fun e => (e.1, e.2 &&& ~~~PTE_U)
      else lookup s d vb := by
  obtain ⟨-, -, hset⟩ := h.set ht (s.words t (PTX va) &&& ~~~PTE_U)
  refine ⟨s.set (t, PTX va) (s.words t (PTX va) &&& ~~~PTE_U), ?_, fun vb => ?_⟩
  · unfold clearpteu
    rw [bind_of_ok (walkpgdir_false d va s), ht]
    rfl
  · rw [hset]
    split
    · rename_i hpage
      rw [lookup_page hpage, lookup_eq, ht, Option.bind_some, entry_clear]
    · rfl

/-- **Two levels refine a flat map.**  In a well-formed address space:

    1. `mappages` of a page-aligned user range that succeeds has mapped its pages to consecutive pages with the given flags
       (and `PTE_P`); one that fails, a prefix of them; and no other address has changed.  It panics only at an address that
       is mapped.
    2. `deallocuvm` returns, and has removed the pages of `[PGROUNDUP(newsz), oldsz)`, and no other.
    3. `clearpteu` clears the user flag of one page, or panics because there is no page table for it. -/
theorem flat_refined (L : Layout) (d : Page) (s : Phys) (h : WellFormed L d s) :
    (∀ va size pa perm : Word, va.toNat % PGSIZE = 0 → size.toNat % PGSIZE = 0 → 0 < size.toNat →
      va.toNat + size.toNat ≤ KERNBASE → pa.toNat % PGSIZE = 0 → perm.toNat < PGSIZE →
      Meets (mappages d va size pa perm s) (fun ret s' => Tables d s' ∧ ∃ k, Mapped d va pa perm k s s' ∧
          (ret = 0 ∧ k * PGSIZE = size.toNat ∨ ret = -1 ∧ k * PGSIZE < size.toNat))
        fun e => e = .remap ∧ ∃ vb : Word, va.toNat ≤ vb.toNat ∧ vb.toNat < va.toNat + size.toNat ∧
          (lookup s d vb).isSome = true) ∧
    (∀ oldsz newsz : Word, oldsz.toNat ≤ KERNBASE →
      ∃ s', deallocuvm L d oldsz newsz s = .ok (some (if oldsz ≤ newsz then oldsz else newsz), s') ∧ WellFormed L d s' ∧
        ∀ vb, lookup s' d vb =
          if pgroundup newsz.toNat ≤ pgrounddown vb.toNat ∧ pgrounddown vb.toNat < oldsz.toNat then none
          else lookup s d vb) ∧
    ∀ uva : Word, Meets (clearpteu d uva s) (fun _ s' => ∀ vb, lookup s' d vb =
        if vb.toNat / PGSIZE = uva.toNat / PGSIZE then (lookup s d vb).map fun e => (e.1, e.2 &&& ~~~PTE_U)
        else lookup s d vb) fun e => e = .clearpteu ∧ lookup s d uva = none := by
  refine ⟨fun va size pa perm hva hsize hpos hle hpa hperm => ?_, fun oldsz newsz ho => ?_, fun uva => ?_⟩
  · have hdown : PGROUNDDOWN va = va := by
      apply BitVec.eq_of_toNat_eq
      rw [toNat_PGROUNDDOWN, pgrounddown]
      exact pgrounddown_eq hva
    have hlast : (PGROUNDDOWN (va + size - 1)).toNat = va.toNat + size.toNat - PGSIZE := by
      have hsum : (va + size - 1).toNat = va.toNat + size.toNat - 1 := by
        simp only [KERNBASE] at hle
        bv_omega
      rw [toNat_PGROUNDDOWN, hsum, pgrounddown]
      simp only [PGSIZE] at *
      omega
    have hbounds : va.toNat + size.toNat < 2 ^ 32 ∧ PGSIZE ≤ size.toNat ∧ (va.toNat + size.toNat - PGSIZE) % PGSIZE = 0 := by
      simp only [PGSIZE, KERNBASE] at *
      omega
    unfold mappages
    rw [hdown]
    refine (mapLoop_spec (by rw [hlast]; exact hbounds.2.2) hperm (2 ^ 20) va pa s h.tables hva hpa (by omega)
      (by simp only [PGSIZE] at *; omega)).mono (fun ret s' hr => ?_) fun e he => ?_
    · obtain ⟨hgrown, k, hmapped, hret⟩ := hr
      refine ⟨hgrown.tables, k, hmapped, ?_⟩
      simp only [PGSIZE] at *
      omega
    · obtain ⟨rfl, vb, hlo, hhi, hsome⟩ := he
      refine ⟨rfl, vb, hlo, ?_, hsome⟩
      simp only [PGSIZE] at *
      omega
  · obtain ⟨s', hrun, hwf, -, hview⟩ := deallocuvm_spec h newsz ho
    exact ⟨s', hrun, hwf, hview⟩
  · cases ht : table s d (PDX uva) with
    | none =>
      have hrun : clearpteu d uva s = .error .clearpteu := by
        unfold clearpteu
        rw [bind_of_ok (walkpgdir_false d uva s), ht]
        rfl
      rw [hrun]
      exact ⟨rfl, by rw [lookup_eq, ht, Option.bind_none]⟩
    | some t =>
      obtain ⟨s', hrun, hview⟩ := clearpteu_spec h.tables ht
      rw [hrun]
      exact hview

/-! ## An address space of one page -/

/-- A directory with one table, in which one page is mapped at 0. -/
def onePage : Phys where
  words v i := if v = 2000 ∧ i = 0 then addr 2001 ||| 7 else if v = 2001 ∧ i = 0 then addr 2002 ||| 7 else 0
  free := [2003]

theorem onePage_table (i : Fin 1024) : table onePage 2000 i = if i = 0 then some 2001 else none := by
  unfold table onePage
  dsimp only
  by_cases hi : i = 0
  · rw [if_pos ⟨rfl, hi⟩, if_pos hi]
    rfl
  · rw [if_neg fun h => hi h.2, if_neg fun h => hi h.2, if_neg hi]
    rfl

theorem onePage_lookup (va : Word) :
    lookup onePage 2000 va = if va.toNat / PGSIZE = 0 then some (2002, 7) else none := by
  have hidx := index_iff va 0
  rw [show (0 : Word).toNat / PGSIZE = 0 from rfl, show PDX 0 = 0 from rfl, show PTX 0 = 0 from rfl] at hidx
  rw [lookup_eq, onePage_table]
  by_cases hd : PDX va = 0
  · rw [if_pos hd, Option.bind_some]
    by_cases hx : PTX va = 0
    · rw [if_pos (hidx.mp ⟨hd, hx⟩), hx]
      rfl
    · rw [if_neg fun h => hx (hidx.mpr h).2]
      simp only [onePage, hx, and_false, if_false]
      rfl
  · rw [if_neg hd, if_neg fun h => hd (hidx.mpr h).1, Option.bind_none]

theorem onePage_wellFormed : WellFormed smallKernel 2000 onePage := by
  have htable : ∀ i t, table onePage 2000 i = some t → i = 0 ∧ t = 2001 := by
    intro i t ht
    rw [onePage_table] at ht
    split at ht
    · cases ht
      exact ⟨by assumption, rfl⟩
    · cases ht
  have hlookup : ∀ va v fl, lookup onePage 2000 va = some (v, fl) → va.toNat / PGSIZE = 0 ∧ v = 2002 := by
    intro va v fl hlook
    rw [onePage_lookup] at hlook
    split at hlook
    · cases hlook
      exact ⟨by assumption, rfl⟩
    · cases hlook
  refine ⟨⟨by decide, by decide, by decide, ?_, ?_, ?_⟩, ?_, ?_⟩
  · intro i t ht
    rw [(htable i t ht).2]
    decide
  · intro i t ht
    rw [(htable i t ht).2]
    decide
  · intro i j t hi hj
    rw [(htable i t hi).1, (htable j t hj).1]
  · intro va v fl _ hlook
    rw [(hlookup va v fl hlook).2]
    refine ⟨⟨by decide, by decide⟩, by decide, by decide, fun i hi => ?_⟩
    exact absurd (htable i _ hi).2 (by decide)
  · intro va vb v fl fl' _ _ ha hb
    rw [(hlookup va v fl ha).1, (hlookup vb v fl' hb).1]

/-- Its page is removed. -/
theorem flat_refined_one : WellFormed smallKernel 2000 onePage ∧ lookup onePage 2000 0 = some (2002, 7) ∧
    ∃ s', deallocuvm smallKernel 2000 4096 0 onePage = .ok (some 0, s') ∧ lookup s' 2000 0 = none := by
  obtain ⟨s', hrun, -, hview⟩ := (flat_refined smallKernel 2000 onePage onePage_wellFormed).2.1 4096 0 (by decide)
  rw [if_neg (by decide)] at hrun
  refine ⟨onePage_wellFormed, onePage_lookup 0, s', hrun, ?_⟩
  rw [hview, if_pos (by decide)]

end Xv6.Words
