/-
  PHYSICAL PAGES AND PAGE TABLES — `kalloc.c` and `vm.c`.

  Memory is seen page by page: a page is on the free list, or the code has it in some variable or table.

  * A page directory is a VALUE: its page, and for each of its entries the page of the page table and the
    entries of that.  Functions that change it in place take it and return it; `walkpgdir`, which returns a
    pointer to an entry, returns the directory in which the entry now exists.
  * Any call of `kalloc` may return 0, also when there are free pages: the `tape` says which ones do.
  * Addresses are numbers; where the code computes with `uint` and it matters, there is a `% 2 ^ 32`.
  * What a page holds (besides page tables) is not modelled, nor are the pointers that make up the list.

  The pages below `KERNBASE` are USER pages: they belong to their directory.  The rest of a page table maps
  all of physical memory, for the kernel; those entries own nothing.
-/
import Mathlib
import Xv6.Lib.Outcome

namespace Xv6.Vm

open Outcome

/-! ## `mmu.h`, `memlayout.h` -/

/-- A page of physical memory, by its number. -/
abbrev Page := Nat

abbrev PGSIZE : Nat := 4096
abbrev NPDENTRIES : Nat := 1024
abbrev NPTENTRIES : Nat := 1024
abbrev EXTMEM : Nat := 0x100000
abbrev PHYSTOP : Nat := 0xE000000
abbrev DEVSPACE : Nat := 0xFE000000
abbrev KERNBASE : Nat := 0x80000000
abbrev KERNLINK : Nat := KERNBASE + EXTMEM

instance neZero_NPDENTRIES : NeZero NPDENTRIES := ⟨by decide⟩

def pgroundup (sz : Nat) : Nat := (sz + PGSIZE - 1) / PGSIZE * PGSIZE

def pgrounddown (a : Nat) : Nat := a / PGSIZE * PGSIZE

theorem pgrounddown_eq {a : Nat} (h : a % PGSIZE = 0) : a / PGSIZE * PGSIZE = a :=
  Nat.div_mul_cancel (Nat.dvd_of_mod_eq_zero h)

def pdx (va : Nat) : Fin NPDENTRIES := Fin.ofNat NPDENTRIES (va / 2 ^ 22)

def ptx (va : Nat) : Fin NPTENTRIES := Fin.ofNat NPTENTRIES (va / 2 ^ 12)

/-- The symbols that the linker defines, as physical addresses: `V2P(data)` and `V2P(end)`.  The linker
    script puts `data` on a page boundary; `kinit1` assumes that `end` is in the first four megabytes. -/
structure Layout where
  data : Nat
  kend : Nat
  aligned : data % PGSIZE = 0
  text : EXTMEM < data
  data_lt : data < kend
  kend_le : kend ≤ 0x400000

inductive Panic
  | kfree
  | remap
  | freevmNoPgdir
  | loaduvmAlign
  | loaduvmExist
  | clearpteu
  | copyuvmExist
  | copyuvmPresent
  | inituvm
  | userinit
  | initExiting
  | filedup
  | fileclose
  /-- A null pointer is dereferenced. -/
  | trap
  deriving DecidableEq

/-! ## `kalloc.c` -/

structure Mem where
  /-- `kmem.freelist` -/
  free : List Page
  /-- Which of the next calls of `kalloc` return 0. -/
  tape : List Bool

abbrev VmProg := Prog Mem Panic

/-- Allocate one page of physical memory. -/
def kalloc : VmProg (Option Page) := fun m =>
  if m.tape.head? = some true then .ok (none, { m with tape := m.tape.tail })
  else
    match m.free with
    | [] => .ok (none, { m with tape := m.tape.tail })
    | r :: rest => .ok (some r, ⟨rest, m.tape.tail⟩)

/-- Free a page of physical memory. -/
def kfree (L : Layout) (v : Page) : VmProg Unit := fun m =>
  if v * PGSIZE < L.kend ∨ PHYSTOP ≤ v * PGSIZE then .error .kfree
  else .ok ((), { m with free := v :: m.free })

/-- The loop of `freerange`, from page `v`, over `k` pages. -/
def freerange (L : Layout) (v : Page) : Nat → VmProg Unit
  | 0 => pure ()
  | k + 1 => do
    kfree L v
    freerange L (v + 1) k

/-! ## Page tables -/

structure Perm where
  writable : Bool
  user : Bool
  deriving DecidableEq

/-- A page table entry with `PTE_P`. -/
structure Pte where
  page : Page
  perm : Perm
  deriving DecidableEq

structure Pgtab where
  page : Page
  pte : Fin NPTENTRIES → Option Pte

structure Pgdir where
  page : Page
  pde : Fin NPDENTRIES → Option Pgtab

namespace Pgdir

variable (A : Pgdir)

/-- The entry for `va`, if it exists and is present. -/
def pte (va : Nat) : Option Pte := (A.pde (pdx va)).bind fun t => t.pte (ptx va)

/-- Overwrite the entry for `va`, which exists. -/
def setPte (va : Nat) (e : Option Pte) : Pgdir :=
  match A.pde (pdx va) with
  | none => A
  | some t => { A with
      pde := Function.update A.pde (pdx va) (some { t with pte := Function.update t.pte (ptx va) e }) }

/-- A new page table for `va`. -/
def addTable (va : Nat) (v : Page) : Pgdir :=
  { A with pde := Function.update A.pde (pdx va) (some ⟨v, fun _ => none⟩) }

end Pgdir

/-- Make sure that the entry for `va` exists; none if it does not. -/
def walkpgdir (A : Pgdir) (va : Nat) (alloc : Bool) : VmProg (Option Pgdir) :=
  match A.pde (pdx va) with
  | some _ => pure (some A)
  | none =>
    if alloc = false then pure none
    else do
      match ← kalloc with
      | none => pure none
      | some v => pure (some (A.addTable va v))

/-- The loop of `mappages`; `fuel` is how many pages there are at all, after which the loop would come to
    an entry that it has set itself. -/
def mapLoop (last : Nat) (perm : Perm) : Nat → Pgdir → Nat → Page → VmProg (Pgdir × Bool)
  | 0, _, _, _ => throw .remap
  | fuel + 1, A, a, pa => do
    match ← walkpgdir A a true with
    | none => pure (A, false)
    | some A =>
      if (A.pte a).isSome then throw .remap
      else if a = last then pure (A.setPte a (some ⟨pa, perm⟩), true)
      else mapLoop last perm fuel (A.setPte a (some ⟨pa, perm⟩)) ((a + PGSIZE) % 2 ^ 32) (pa + 1)

/-- Create entries for virtual addresses starting at `va` that refer to pages starting at `pa`; false
    for -1. -/
def mappages (A : Pgdir) (va size : Nat) (pa : Page) (perm : Perm) : VmProg (Pgdir × Bool) :=
  mapLoop (pgrounddown ((va + size + (2 ^ 32 - 1)) % 2 ^ 32)) perm (2 ^ 20) A (pgrounddown va) pa

/-! ## User memory -/

/-- The loop of `deallocuvm`. -/
def deallocLoop (L : Layout) (oldsz : Nat) (A : Pgdir) (a : Nat) : VmProg Pgdir :=
  if a < oldsz then
    match A.pde (pdx a), A.pte a with
    | none, _ => deallocLoop L oldsz A ((a / 2 ^ 22 + 1) * 2 ^ 22)
    | some _, none => deallocLoop L oldsz A (a + PGSIZE)
    | some _, some e => do
      if e.page = 0 then throw .kfree
      kfree L e.page
      deallocLoop L oldsz (A.setPte a none) (a + PGSIZE)
  else pure A
  termination_by oldsz - a
  decreasing_by
    · omega
    · simp only [PGSIZE]; omega
    · simp only [PGSIZE]; omega

/-- Deallocate user pages to bring the process size from `oldsz` to `newsz`. -/
def deallocuvm (L : Layout) (A : Pgdir) (oldsz newsz : Nat) : VmProg (Pgdir × Nat) :=
  if oldsz ≤ newsz then pure (A, oldsz)
  else do
    let A ← deallocLoop L oldsz A (pgroundup newsz)
    pure (A, newsz)

/-- The loop of `allocuvm`. -/
def allocLoop (L : Layout) (oldsz newsz : Nat) (A : Pgdir) (a : Nat) : VmProg (Pgdir × Nat) :=
  if a < newsz then do
    match ← kalloc with
    | none =>
      let (A, _) ← deallocuvm L A newsz oldsz
      pure (A, 0)
    | some mem =>
      let (A, ok) ← mappages A a PGSIZE mem ⟨true, true⟩
      if ok then allocLoop L oldsz newsz A (a + PGSIZE)
      else
        let (A, _) ← deallocuvm L A newsz oldsz
        kfree L mem
        pure (A, 0)
  else pure (A, newsz)
  termination_by newsz - a
  decreasing_by simp only [PGSIZE]; omega

/-- Allocate page tables and physical memory to grow a process; the new size, or 0. -/
def allocuvm (L : Layout) (A : Pgdir) (oldsz newsz : Nat) : VmProg (Pgdir × Nat) :=
  if KERNBASE ≤ newsz then pure (A, 0)
  else if newsz < oldsz then pure (A, oldsz)
  else allocLoop L oldsz newsz A (pgroundup oldsz)

/-- `freevm`: the page tables, from entry `i`. -/
def freeTables (L : Layout) (A : Pgdir) : List (Fin NPDENTRIES) → VmProg Unit
  | [] => pure ()
  | i :: is => do
    match A.pde i with
    | none => pure ()
    | some t => kfree L t.page
    freeTables L A is

/-- Free a page table and all the physical memory pages in the user part. -/
def freevm (L : Layout) (A : Pgdir) : VmProg Unit := do
  let (A, _) ← deallocuvm L A KERNBASE 0
  freeTables L A (List.finRange NPDENTRIES)
  kfree L A.page

/-! ## The kernel's mappings -/

structure Kmap where
  virt : Nat
  physStart : Nat
  physEnd : Nat
  perm : Perm

def kmap (L : Layout) : List Kmap :=
  [⟨KERNBASE, 0, EXTMEM, ⟨true, false⟩⟩,
    ⟨KERNLINK, EXTMEM, L.data, ⟨false, false⟩⟩,
    ⟨KERNBASE + L.data, L.data, PHYSTOP, ⟨true, false⟩⟩,
    ⟨DEVSPACE, DEVSPACE, 0, ⟨true, false⟩⟩]

/-- The loop of `setupkvm`. -/
def kmapLoop (A : Pgdir) : List Kmap → VmProg (Pgdir × Bool)
  | [] => pure (A, true)
  | k :: ks => do
    let (A, ok) ← mappages A k.virt ((k.physEnd + 2 ^ 32 - k.physStart) % 2 ^ 32) (k.physStart / PGSIZE) k.perm
    if ok then kmapLoop A ks else pure (A, false)

/-- Set up the kernel part of a page table. -/
def setupkvm (L : Layout) : VmProg (Option Pgdir) := do
  match ← kalloc with
  | none => pure none
  | some v =>
    let (A, ok) ← kmapLoop ⟨v, fun _ => none⟩ (kmap L)
    if ok then pure (some A)
    else
      freevm L A
      pure none

/-- Load the initcode into address 0. -/
def inituvm (A : Pgdir) : VmProg Pgdir := do
  match ← kalloc with
  | none => throw .trap
  | some mem =>
    let (A, _) ← mappages A 0 PGSIZE mem ⟨true, true⟩
    pure A

/-- The loop of `copyuvm`. -/
def copyLoop (L : Layout) (A : Pgdir) (sz : Nat) (d : Pgdir) (i : Nat) : VmProg (Option Pgdir) :=
  if i < sz then
    match A.pde (pdx i), A.pte i with
    | none, _ => throw .copyuvmExist
    | some _, none => throw .copyuvmPresent
    | some _, some e => do
      match ← kalloc with
      | none =>
        freevm L d
        pure none
      | some mem =>
        let (d, ok) ← mappages d i PGSIZE mem e.perm
        if ok then copyLoop L A sz d (i + PGSIZE)
        else
          kfree L mem
          freevm L d
          pure none
  else pure (some d)
  termination_by sz - i
  decreasing_by simp only [PGSIZE]; omega

/-- Given a parent process's page table, create a copy of it for a child. -/
def copyuvm (L : Layout) (A : Pgdir) (sz : Nat) : VmProg (Option Pgdir) := do
  match ← setupkvm L with
  | none => pure none
  | some d => copyLoop L A sz d 0

/-! ## `exec` -/

/-- A program header, and how far the reading of it and of its segment comes. -/
structure Seg where
  /-- `readi` returns all of the header. -/
  header : Bool
  /-- `ph.type == ELF_PROG_LOAD` -/
  load : Bool
  vaddr : UInt32
  memsz : UInt32
  filesz : UInt32
  /-- How many pages of the segment `readi` delivers. -/
  pages : Nat

/-- The loop of `loaduvm`, at page `k` of the segment; false for -1. -/
def loadLoop (A : Pgdir) (addr sz pages : Nat) (k : Nat) : VmProg Bool :=
  if k * PGSIZE < sz then
    match A.pde (pdx (addr + k * PGSIZE)) with
    | none => throw .loaduvmExist
    | some _ => if pages ≤ k then pure false else loadLoop A addr sz pages (k + 1)
  else pure true
  termination_by sz - k * PGSIZE
  decreasing_by simp only [PGSIZE] at *; omega

/-- Load a program segment. -/
def loaduvm (A : Pgdir) (addr sz pages : Nat) : VmProg Bool :=
  if addr % PGSIZE ≠ 0 then throw .loaduvmAlign
  else loadLoop A addr sz pages 0

/-- `exec`: load the program; none for `goto bad`. -/
def execLoad (L : Layout) (A : Pgdir) (sz : Nat) : List Seg → VmProg (Pgdir × Option Nat)
  | [] => pure (A, some sz)
  | s :: ss => do
    if s.header = false then pure (A, none)
    else if s.load = false then execLoad L A sz ss
    else if s.memsz < s.filesz then pure (A, none)
    else if s.vaddr + s.memsz < s.vaddr then pure (A, none)
    else
      let (A, sz) ← allocuvm L A sz (s.vaddr + s.memsz).toNat
      if sz = 0 then pure (A, none)
      else if s.vaddr.toNat % PGSIZE ≠ 0 then pure (A, none)
      else if ← loaduvm A s.vaddr.toNat s.filesz.toNat s.pages then execLoad L A sz ss
      else pure (A, none)

/-- Clear `PTE_U` on a page. -/
def clearpteu (A : Pgdir) (uva : Nat) : VmProg Pgdir :=
  match A.pde (pdx uva) with
  | none => throw .clearpteu
  | some _ => pure (A.setPte uva ((A.pte uva).map fun e => { e with perm := { e.perm with user := false } }))

/-- `exec` up to the commit: the new page table and size.  `segs` is none if there is no such program;
    `args` says whether the arguments fit on the stack. -/
def execImage (L : Layout) (segs : Option (List Seg)) (args : Bool) : VmProg (Option (Pgdir × Nat)) :=
  match segs with
  | none => pure none
  | some segs => do
    match ← setupkvm L with
    | none => pure none
    | some A =>
      let (A, r) ← execLoad L A 0 segs
      match r with
      | none =>
        freevm L A
        pure none
      | some sz =>
        let (A, sz) ← allocuvm L A (pgroundup sz) (pgroundup sz + 2 * PGSIZE)
        if sz = 0 then
          freevm L A
          pure none
        else
          let A ← clearpteu A (sz - 2 * PGSIZE)
          if args then pure (some (A, sz))
          else
            freevm L A
            pure none

end Xv6.Vm
