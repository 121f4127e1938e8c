/-
  PROCESS SIZE AND PAGE TABLE.

  `growproc` takes 0 for a failure of `deallocuvm`, but 0 is also the size that `sbrk(-sz)` asks for: all pages
  are gone, -1 is returned, and `sz` stays as it was (`emptied`).  And when `-n` is more than `sz`, the sum
  wraps and `deallocuvm` does nothing, which `growproc` reports as a success.

  As long as a process keeps some memory (`keepsSome`), its pages are those below its size in every state
  reached, and `growproc` does what was asked for or nothing at all (`size_agrees`).  That it RETURNS is part
  of it: no page that it frees is outside the range of `kfree`, and no entry that it sets is in use.
-/
import Xv6.Vm.Owners

namespace Xv6.Vm

open Machines Outcome

variable {L : Layout} {A : Pgdir} {S : St} {p : Slot}

/-! ## `growproc` -/

variable {exact : Prop}

/-- What `freerange` has given to the allocator, `kfree` takes. -/
theorem Inv.managed_range {x : Page} (h : Inv L exact S) (hpos : 0 < managed L S.top x) : InRange L x := by
  unfold managed at hpos
  split at hpos
  · rename_i hx
    obtain ⟨hlo, hhi⟩ := hx
    have htop : S.top * PGSIZE ≤ PHYSTOP := by
      rcases h.top with ht | ht
      · rw [ht]
        decide
      · rw [ht]
        decide
    have hfirst := L.first_spec.2
    constructor
    · exact hfirst.trans (Nat.mul_le_mul_right _ hlo)
    · exact Nat.lt_of_lt_of_le (Nat.mul_lt_mul_of_pos_right hhi (by decide)) htop
  · omega

theorem pipeOwns_nonneg (pipes : Page → Option Pipe) (x : Page) : 0 ≤ pipeOwns pipes x := by
  unfold pipeOwns
  split <;> omega

/-- The pages of an address space are among those of the machine. -/
theorem Inv.within (h : Inv L exact S) (hp : (S.procs p).state = .alive)
    (hA : (S.procs p).pgdir = some A) : Within L A S.mem := by
  intro x hx
  have hpages := h.acct.pages x
  have hproc : A.owns x ≤ ∑ q, (S.procs q).owns x := by
    have hle := Counting.le_sum (f := fun q => (S.procs q).owns x) (fun q => (S.procs q).owns_nonneg x) p
    have hkstack := ofOption_nonneg (S.procs p).kstack x
    have howns : (S.procs p).owns x = ofOption (S.procs p).kstack x + A.owns x := by
      simp only [Proc.owns, hp, hA, dirOwns]
    omega
  have hkern := dirOwns_nonneg S.kpgdir x
  have hpipe := pipeOwns_nonneg S.pipes x
  refine h.managed_range ?_
  unfold St.owners at hpages
  omega

theorem inMem_returns {α : Type} {f : VmProg α} {Q : α → Mem → Prop} {E : Panic → Prop} (h : Meets (f S.mem) Q E)
    (hE : ∀ e, ¬ E e) : Returns (inMem f S) := by
  obtain ⟨a, m, hf, -⟩ := h.returns hE
  exact ⟨a, _, inMem_ok hf⟩

/-- **`growproc` returns.** -/
theorem growproc_returns (h : Inv L True S) (hp : (S.procs p).state = .alive) (n : Int) :
    Returns (growproc L p n S) := by
  cases hA : (S.procs p).pgdir with
  | none => exact absurd hA ((h.procs p).space hp)
  | some A =>
    have hwithin := h.within hp hA
    have hsz := Nat.le_of_lt (h.procs p).size
    have hholds := (h.procs p).holds trivial (by rw [hp]; nofun) A hA
    have htail : ∀ (B : Pgdir) (sz : Nat) (T : St), Returns ((do
        modify fun S => S.setProc p fun y => { y with pgdir := some B }
        if sz = 0 then pure (-1)
        else
          modify fun S => S.setProc p fun y => { y with sz := sz }
          pure 0 : SysProg Int) T) := by
      intro B sz T
      refine Returns.bind (Q := fun _ _ => True) ⟨_, _, rfl⟩ trivial fun _ U _ => ?_
      split
      · exact ⟨_, _, rfl⟩
      · exact ⟨_, _, rfl⟩
    unfold growproc
    refine Returns.bind (f := get) (Q := fun U V => U = S ∧ V = S) ⟨_, _, rfl⟩ ⟨rfl, rfl⟩ ?_
    rintro _ _ ⟨rfl, rfl⟩
    dsimp only
    rw [hA]
    dsimp only
    split
    · exact Returns.bind (inMem_returns (allocuvm_spec L A _ _ _) fun _ he => he ⟨hwithin, hholds⟩)
        (inMem_spec (allocuvm_spec L A _ _ _)) fun r T _ => htail r.1 r.2 T
    · split
      · exact Returns.bind (inMem_returns (deallocuvm_owns L hsz A _) fun _ he => he hwithin)
          (inMem_spec (deallocuvm_owns L hsz A _)) fun r T _ => htail r.1 r.2 T
      · exact ⟨_, _, rfl⟩

/-! ## Every run -/

/-- **Size and page table agree**, in every run in which no process gives up all of its memory.  The user pages
    present are those of `[0, PGROUNDUP(sz))`; and `growproc(n)`, if it leaves something, returns 0 with the
    new size, or -1 with size and mappings unchanged. -/
theorem size_agrees (L : Layout) (h : (machine L).Reachable keepsSome S) :
    (∀ p A, (S.procs p).state = .alive ∨ (S.procs p).state = .zombie → (S.procs p).pgdir = some A →
      ∀ n, n < KERNBASE / PGSIZE → ((A.pte (n * PGSIZE)).isSome = true ↔ n * PGSIZE < pgroundup (S.procs p).sz)) ∧
    ∀ p (n : Int) tape, (S.procs p).state = .alive → -2 ^ 31 ≤ n ∧ n < 2 ^ 31 →
      (n < 0 → 0 < ((S.procs p).sz : Int) + n) →
      ∃ r T, growproc L p n { S with mem := { S.mem with tape := tape } } = .ok (r, T) ∧ Grown p n r S T := by
  have hinv : Inv L True S := Inv.of_reachable (fun _ _ _ hC => hC) h
  constructor
  · intro p A hp hA n hn
    rw [← mul_lt_iff_pgroundup]
    refine (hinv.procs p).holds trivial (fun hc => ?_) A hA n hn
    rw [hc] at hp
    rcases hp with hp | hp <;> cases hp
  · intro p n tape hp hn hle
    have htape := hinv.setTape tape
    obtain ⟨r, T, hr⟩ := growproc_returns htape hp n
    have hspec := growproc_spec htape.acct htape.procs hp L hn fun _ => hle
    exact ⟨r, T, hr, (Meets.of_ok hspec hr).2.2 trivial⟩

/-- The first process grows by a page, or is told that it cannot. -/
theorem size_agrees_booted : ∃ S, (machine smallKernel).Reachable keepsSome S ∧ (S.procs initproc).sz = PGSIZE ∧
    ∃ r T, growproc smallKernel initproc 4096 { S with mem := { S.mem with tape := [] } } = .ok (r, T) ∧
      Grown initproc 4096 r S T := by
  obtain ⟨S, hS, halive, hsz⟩ := booted smallKernel (C := keepsSome) fun _ => ⟨trivial, trivial⟩
  exact ⟨S, hS, hsz, (size_agrees smallKernel hS).2 initproc 4096 [] halive (by decide) (fun hneg => by omega)⟩

/-- **`growproc(-sz)`**: no page is left, -1 is returned, and the size is what it was. -/
theorem growproc_all (h : Inv L True S) (hp : (S.procs p).state = .alive) (hpos : 0 < (S.procs p).sz) :
    ∃ T B, growproc L p (-(S.procs p).sz) S = .ok (-1, T) ∧ (T.procs p).sz = (S.procs p).sz ∧
      (T.procs p).pgdir = some B ∧ B.Holds 0 := by
  cases hA : (S.procs p).pgdir with
  | none => exact absurd hA ((h.procs p).space hp)
  | some A =>
    have hsz := Nat.le_of_lt (h.procs p).size
    have hholds := (h.procs p).holds trivial (by rw [hp]; nofun) A hA
    obtain ⟨⟨B, s⟩, m, hrun, hs, -, hent⟩ := (deallocuvm_spec L hsz hpos A S.mem).returns fun _ he => he (h.within hp hA)
    dsimp only at hs hent
    subst hs
    have hnew : (((S.procs p).sz + -((S.procs p).sz : Int)) % 2 ^ 32).toNat = 0 := by
      rw [Int.add_right_neg]
      rfl
    refine ⟨{ S with mem := m }.setProc p fun y => { y with pgdir := some B }, B, ?_, ?_, ?_, fun n hn => ?_⟩
    · unfold growproc
      rw [bind_of_ok (a := S) (t := S) rfl]
      dsimp only
      rw [hA]
      dsimp only
      rw [if_neg (by omega), if_pos (by omega), hnew, bind_of_ok (inMem_ok hrun)]
      rfl
    · simp only [procs_setProc, Function.update_self]
    · simp only [procs_setProc, Function.update_self]
    · have hiff := hholds n hn
      rw [hent n (user_lt hn)]
      split
      · simp only [Option.isSome_none, Bool.false_eq_true, Nat.not_lt_zero]
      · rename_i hout
        have hzero : pgroundup 0 = 0 := rfl
        rw [hiff]
        omega

/-- The first process gives up its only page: the size says that it is still there. -/
theorem emptied : ∃ S T A, (machine smallKernel).Reachable anyStep S ∧
    growproc smallKernel initproc (-4096) { S with mem := { S.mem with tape := [] } } = .ok (-1, T) ∧
    step smallKernel S (.call initproc (.sbrk (-4096)) []) = some { T with mem := { T.mem with tape := [] } } ∧
    (S.procs initproc).sz = 4096 ∧ (T.procs initproc).sz = 4096 ∧
    (T.procs initproc).pgdir = some A ∧ A.pte 0 = none := by
  obtain ⟨S, hS, halive, hsz⟩ := booted smallKernel (C := keepsSome) fun _ => ⟨trivial, trivial⟩
  have hinv : Inv smallKernel True S := Inv.of_reachable (fun _ _ _ hC => hC) hS
  obtain ⟨T, B, hrun, hT, hpgdir, hB⟩ := growproc_all (p := initproc) (hinv.setTape []) halive
    (by dsimp only; rw [hsz]; exact Nat.succ_pos _)
  dsimp only at hrun hT
  rw [hsz] at hrun hT
  refine ⟨S, T, B, hS.mono fun _ _ _ => trivial, hrun, ?_, hsz, hT, hpgdir, ?_⟩
  · have hcall : (Call.sbrk (-4096)).run smallKernel initproc { S with mem := { S.mem with tape := [] } } =
        .ok (some (-1), T) := by
      show Except.map _ _ = _
      rw [show growproc smallKernel initproc (-4096) { S with mem := { S.mem with tape := [] } } = _ from hrun]
      rfl
    simp only [step, halive, true_and, Call.valid]
    rw [hcall]
    rfl
  · have hnone := hB 0 (by decide)
    rw [Nat.zero_mul] at hnone
    cases hent : B.entry 0 with
    | none => exact hent
    | some e =>
      rw [hent] at hnone
      simp at hnone

end Xv6.Vm
