/-
  THE FIRST PROCESS COMES UP, if there is memory and no `kalloc` fails.

  The page table of a process maps all of physical memory, so `setupkvm` goes through some 60 000 entries.  It
  does not fail: every entry that it sets is absent before (the four ranges of `kmap` do not overlap), and of
  the page tables it needs at most all that are still `missing`.

  `booted`: the state after `kinit2` and `userinit`.
-/
import Mathlib
import Xv6.Vm.Calls
import Xv6.Vm.Tables

namespace Xv6.Vm

open Machines Outcome

variable {A : Pgdir} {m : Mem}

theorem inituvm_ok (h : Room 1 A m) (hA : A.Holds 0) : ∃ B m', inituvm A m = .ok (B, m') ∧ (B.pte 0).isSome = true := by
  have hpages := h.pages
  have hnonneg : 0 ≤ A.missing := Finset.sum_nonneg fun i _ => by split <;> omega
  obtain ⟨v, m₁, hk, htape, hlen⟩ := kalloc_ok h.tape (by omega)
  have hroom : Room 0 A m₁ := ⟨htape, by omega⟩
  have hnone : A.entry 0 = none := hA.none (by decide) (Nat.zero_le _)
  obtain ⟨⟨B, ok⟩, m₂, hmap, hr, hok⟩ := (mappages_user A 0 v ⟨true, true⟩ m₁ (by decide) rfl).returns fun _ he => he hnone
  obtain ⟨rfl, -⟩ := hok 0 hroom
  refine ⟨B, m₂, ?_, ?_⟩
  · unfold inituvm
    rw [bind_of_ok hk]
    dsimp only
    rw [bind_of_ok hmap]
    rfl
  · obtain ⟨-, -, hent⟩ := hr
    rw [show B.pte 0 = _ from hent 0 (by decide)]
    rfl

/-! ## `main` -/

theorem inMem_ok {α : Type} {f : VmProg α} {S : St} {a : α} {m : Mem} (h : f S.mem = .ok (a, m)) :
    inMem f S = .ok (a, { S with mem := m }) := by
  unfold inMem
  rw [h]

/-- `freerange` of pages between the kernel and `PHYSTOP`. -/
theorem freerange_ok (L : Layout) (v k : Nat) (m : Mem) (hlo : L.kend ≤ v * PGSIZE) (hhi : (v + k) * PGSIZE ≤ PHYSTOP) :
    ∃ m', freerange L v k m = .ok ((), m') ∧ m'.tape = m.tape ∧ m'.free.length = m.free.length + k := by
  induction k generalizing v m with
  | zero => exact ⟨m, rfl, rfl, rfl⟩
  | succ k ih =>
    have hnext : v * PGSIZE < PHYSTOP ∧ L.kend ≤ (v + 1) * PGSIZE ∧ (v + 1 + k) * PGSIZE ≤ PHYSTOP := by
      simp only [PGSIZE, PHYSTOP] at hlo hhi ⊢
      omega
    have hfree : kfree L v m = .ok ((), { m with free := v :: m.free }) :=
      if_neg fun h => h.elim (Nat.not_lt.mpr hlo) (Nat.not_le.mpr hnext.1)
    obtain ⟨m', hm', htape, hlen⟩ := ih (v + 1) { m with free := v :: m.free } hnext.2.1 hnext.2.2
    refine ⟨m', ?_, htape, ?_⟩
    · unfold freerange
      rw [bind_of_ok hfree]
      exact hm'
    · rw [hlen, List.length_cons]
      omega

theorem Layout.first_spec (L : Layout) : L.first ≤ 1024 ∧ L.kend ≤ L.first * PGSIZE := by
  have := L.kend_le
  simp only [Layout.first, pgroundup, PGSIZE]
  omega

/-- There is a start. -/
theorem start_ok (L : Layout) : ∃ m, (machine L).init (.start m) ∧ m.tape = [] := by
  obtain ⟨hle, hlo⟩ := L.first_spec
  obtain ⟨m, hm, htape, _⟩ := freerange_ok L L.first (1024 - L.first) ⟨[], []⟩ hlo
    (by simp only [PGSIZE, PHYSTOP]; omega)
  exact ⟨m, ⟨m, hm, rfl⟩, htape⟩

theorem kinit2_ok (L : Layout) {S : St} (htape : S.mem.tape = []) (htop : S.top = 1024) :
    ∃ m', step L S .kinit2 = some { S with mem := m', top := PHYSTOP / PGSIZE } ∧ m'.tape = [] ∧
      50000 ≤ m'.free.length := by
  have hend : (1024 + (PHYSTOP / PGSIZE - 1024)) * PGSIZE ≤ PHYSTOP ∧ 50000 ≤ PHYSTOP / PGSIZE - 1024 := by decide
  obtain ⟨m', hm', htape', hlen⟩ := freerange_ok L 1024 (PHYSTOP / PGSIZE - 1024) S.mem
    (by have := L.kend_le; simp only [PGSIZE]; omega) hend.1
  refine ⟨m', ?_, htape'.trans htape, by omega⟩
  have hrun : kinit2 L S = .ok ((), { S with mem := m', top := PHYSTOP / PGSIZE }) := by
    unfold kinit2
    rw [bind_of_ok (inMem_ok hm')]
    rfl
  simp only [step, htop, if_true, after, hrun]

/-- **`userinit`**, when nothing has failed so far. -/
theorem userinit_ok (L : Layout) {S : St} (hprocs : ∀ p, (S.procs p).state = .unused) (htape : S.mem.tape = [])
    (hfree : 50000 ≤ S.mem.free.length) :
    ∃ T, step L S .userinit = some T ∧ (T.procs initproc).state = .alive ∧ (T.procs initproc).sz = PGSIZE := by
  have hfind : (List.finRange NPROC).find? (fun p => (S.procs p).state = .unused) = some initproc := by
    simp only [hprocs, decide_true]
    rfl
  have hall : (List.finRange NPROC).all (fun p => (S.procs p).state = .unused) = true := by
    simp [hprocs]
  -- `allocproc`
  obtain ⟨v, m₁, hk, htape₁, hlen₁⟩ := kalloc_ok htape (by omega)
  have halloc : ∃ T₁ : St, allocproc S = .ok (some initproc, T₁) ∧ T₁.mem = m₁ := by
    refine ⟨({ S.setProc initproc fun x => { x with state := .embryo } with mem := m₁ }).setProc initproc fun x =>
      { x with kstack := some v }, ?_, rfl⟩
    unfold allocproc
    rw [bind_of_ok (a := S) (t := S) rfl]
    dsimp only
    rw [hfind]
    dsimp only
    rw [bind_of_ok (a := ⟨⟩) (t := S.setProc initproc fun x => { x with state := .embryo }) rfl,
      bind_of_ok (inMem_ok (S := S.setProc initproc fun x => { x with state := .embryo }) hk)]
    rfl
  obtain ⟨T₁, halloc, hmem₁⟩ := halloc
  subst hmem₁
  obtain ⟨r, m₂, hset, hr, hok⟩ := (setupkvm_spec L T₁.mem).returns fun _ he => he.2 ⟨htape₁, by omega⟩
  obtain ⟨A, rfl, hroom⟩ := hok 1 htape₁ (by omega)
  obtain ⟨-, hA, -⟩ := hr
  obtain ⟨B, m₃, hinit, hsome⟩ := inituvm_ok hroom hA
  have hrun : userinit L S = .ok ((), { T₁ with mem := m₃ }.setProc initproc fun x =>
      { x with pgdir := some B, sz := PGSIZE, state := .alive }) := by
    unfold userinit
    rw [bind_of_ok halloc]
    dsimp only
    rw [bind_of_ok (inMem_ok hset)]
    dsimp only
    rw [bind_of_ok (inMem_ok (S := { T₁ with mem := m₂ }) hinit)]
    rw [if_neg (by simpa [Option.isSome_iff_ne_none] using hsome)]
    rfl
  refine ⟨{ T₁ with mem := m₃ }.setProc initproc fun x =>
    { x with pgdir := some B, sz := PGSIZE, state := .alive }, ?_, ?_, ?_⟩
  · simp only [step, hall, if_true, after, hrun]
  · simp only [St.setProc, Function.update_self]
  · simp only [St.setProc, Function.update_self]

/-- **The first process.** -/
theorem booted (L : Layout) {C : St → Label → Prop} (hC : ∀ S, C S .kinit2 ∧ C S .userinit) :
    ∃ S, (machine L).Reachable C S ∧ (S.procs initproc).state = .alive ∧ (S.procs initproc).sz = PGSIZE := by
  obtain ⟨m, hinit, htape⟩ := start_ok L
  obtain ⟨m', hkinit2, htape', hlen⟩ := kinit2_ok L (S := .start m) htape rfl
  generalize hS₁ : ({ St.start m with mem := m', top := PHYSTOP / PGSIZE } : St) = S₁ at hkinit2
  obtain ⟨T, huser, halive, hsz⟩ := userinit_ok L (S := S₁) (fun _ => by rw [← hS₁]; rfl) (by rw [← hS₁]; exact htape')
    (by rw [← hS₁]; exact hlen)
  have h₁ : (machine L).Reachable C S₁ := (Machine.Reachable.init hinit).step (hC _).1 hkinit2
  exact ⟨T, h₁.step (hC S₁).2 huser, halive, hsz⟩

end Xv6.Vm
