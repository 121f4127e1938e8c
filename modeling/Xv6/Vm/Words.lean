/-
  PAGE TABLES IN MEMORY — `vm.c` as it is: entries are words of 32 bits in physical pages.

  `Vm.Paging` has page directories as values.  Here they are in memory, among everything else: a page is 1024 words, a
  directory is a page whose words point to other pages, and `walkpgdir` returns a pointer, which is a page and an index.

  * Addresses and entries are `uint`, with the shifts and masks of `mmu.h`.  `P2V` and `V2P` only say which page is meant.
  * `kalloc` takes the first page of the free list; what it holds stays.  `kfree` fills the page with junk, and the pointer to
    the next free page goes into its first word.
  * The loop of `mappages` is over after 2^20 rounds at the latest: then it comes to an entry that it has set itself.
  * The loop of `deallocuvm` need not end at the top of memory, where `PGADDR` wraps: it returns none if it has not ended
    after 2^20 rounds.

  The FLAT VIEW of an address space (`lookup`) is what `walkpgdir(pgdir, va, 0)` finds: page and flags of a present entry.
-/
import Mathlib
import Xv6.Vm.Paging

namespace Xv6.Words

open Outcome Vm

abbrev Word := BitVec 32

/-! ## `mmu.h` -/

abbrev PTE_P : Word := 0x001
abbrev PTE_W : Word := 0x002
abbrev PTE_U : Word := 0x004

theorem low_lt (x : Word) : (x &&& 0x3FF).toNat < 1024 := by
  rw [BitVec.toNat_and]
  exact Nat.lt_of_le_of_lt Nat.and_le_right (by decide)

/-- page directory index -/
def PDX (va : Word) : Fin 1024 := ⟨((va >>> 22) &&& 0x3FF).toNat, low_lt _⟩

/-- page table index -/
def PTX (va : Word) : Fin 1024 := ⟨((va >>> 12) &&& 0x3FF).toNat, low_lt _⟩

/-- construct virtual address from indexes and offset -/
def PGADDR (d t o : Word) : Word := (d <<< 22) ||| (t <<< 12) ||| o

def PGROUNDUP (sz : Word) : Word := (sz + 4096 - 1) &&& ~~~(4096 - 1)

def PGROUNDDOWN (a : Word) : Word := a &&& ~~~(4096 - 1)

def PTE_ADDR (pte : Word) : Word := pte &&& ~~~0xFFF

def PTE_FLAGS (pte : Word) : Word := pte &&& 0xFFF

/-- The page that an address is in. -/
def frame (pa : Word) : Page := pa.toNat / PGSIZE

/-- The physical address of a page. -/
def addr (v : Page) : Word := BitVec.ofNat 32 (v * PGSIZE)

/-! ## Memory -/

structure Phys where
  words : Page → Fin 1024 → Word
  /-- `kmem.freelist` -/
  free : List Page

abbrev PhysProg := Prog Phys Panic

/-- A pointer to a word of a page. -/
abbrev Ptr := Page × Fin 1024

def Phys.set (s : Phys) (p : Ptr) (w : Word) : Phys :=
  { s with words := Function.update s.words p.1 (Function.update (s.words p.1) p.2 w) }

/-- All words of a page. -/
def Phys.fill (s : Phys) (v : Page) (f : Fin 1024 → Word) : Phys := { s with words := Function.update s.words v f }

/-- `*p` -/
def read (p : Ptr) : PhysProg Word := fun s => .ok (s.words p.1 p.2, s)

/-- `*p = w` -/
def write (p : Ptr) (w : Word) : PhysProg Unit := fun s => .ok ((), s.set p w)

def kalloc : PhysProg (Option Page) := fun s =>
  match s.free with
  | [] => .ok (none, s)
  | v :: rest => .ok (some v, { s with free := rest })

/-- The address of the first free page, for the kernel. -/
def link : List Page → Word
  | [] => 0
  | v :: _ => addr v + BitVec.ofNat 32 KERNBASE

def kfree (L : Layout) (v : Page) : PhysProg Unit := fun s =>
  if v * PGSIZE < L.kend ∨ PHYSTOP ≤ v * PGSIZE then .error .kfree
  else
    -- Fill with junk to catch dangling refs; r->next = kmem.freelist
    let s := s.fill v fun i => if i = 0 then link s.free else 0x01010101
    .ok ((), { s with free := v :: s.free })

/-! ## `vm.c` -/

def walkpgdir (pgdir : Page) (va : Word) (alloc : Bool) : PhysProg (Option Ptr) := do
  let pde ← read (pgdir, PDX va)
  if pde &&& PTE_P ≠ 0 then pure (some (frame (PTE_ADDR pde), PTX va))
  else if alloc = false then pure none
  else
    match ← kalloc with
    | none => pure none
    | some pgtab => do
      -- Make sure all those PTE_P bits are zero.
      modify fun s => s.fill pgtab fun _ => 0
      write (pgdir, PDX va) (addr pgtab ||| PTE_P ||| PTE_W ||| PTE_U)
      pure (some (pgtab, PTX va))

/-- The loop of `mappages`. -/
def mapLoop (pgdir : Page) (last : Word) (perm : Word) : Nat → Word → Word → PhysProg Int
  | 0, _, _ => throw .remap
  | fuel + 1, a, pa => do
    match ← walkpgdir pgdir a true with
    | none => pure (-1)
    | some pte =>
      if (← read pte) &&& PTE_P ≠ 0 then throw .remap
      else
        write pte (pa ||| perm ||| PTE_P)
        if a = last then pure 0
        else mapLoop pgdir last perm fuel (a + 4096) (pa + 4096)

def mappages (pgdir : Page) (va size pa perm : Word) : PhysProg Int :=
  mapLoop pgdir (PGROUNDDOWN (va + size - 1)) perm (2 ^ 20) (PGROUNDDOWN va) pa

/-- The body of the loop of `deallocuvm`, for an entry that exists. -/
def deallocPte (L : Layout) (pte : Ptr) : PhysProg Unit := do
  let w ← read pte
  if w &&& PTE_P = 0 then pure ()
  else if PTE_ADDR w = 0 then throw .kfree
  else
    kfree L (frame (PTE_ADDR w))
    write pte 0

/-- The loop of `deallocuvm`; false if it has not come to its end. -/
def deallocLoop (L : Layout) (pgdir : Page) (oldsz : Word) : Nat → Word → PhysProg Bool
  | 0, _ => pure false
  | fuel + 1, a => do
    if a < oldsz then
      match ← walkpgdir pgdir a false with
      | none => deallocLoop L pgdir oldsz fuel (PGADDR (BitVec.ofNat 32 (PDX a) + 1) 0 0 - 4096 + 4096)
      | some pte =>
        deallocPte L pte
        deallocLoop L pgdir oldsz fuel (a + 4096)
    else pure true

def deallocuvm (L : Layout) (pgdir : Page) (oldsz newsz : Word) : PhysProg (Option Word) :=
  if oldsz ≤ newsz then pure (some oldsz)
  else do
    if ← deallocLoop L pgdir oldsz (2 ^ 20) (PGROUNDUP newsz) then pure (some newsz) else pure none

def clearpteu (pgdir : Page) (uva : Word) : PhysProg Unit := do
  match ← walkpgdir pgdir uva false with
  | none => throw .clearpteu
  | some pte =>
    let w ← read pte
    write pte (w &&& ~~~PTE_U)

/-! ## The flat view -/

/-- What an entry says: nothing, or page and flags. -/
def entry (w : Word) : Option (Page × Word) :=
  if w &&& PTE_P ≠ 0 then some (frame (PTE_ADDR w), PTE_FLAGS w) else none

/-- The page and the flags of an address, as `walkpgdir(pgdir, va, 0)` finds them. -/
def lookup (s : Phys) (pgdir : Page) (va : Word) : Option (Page × Word) :=
  match walkpgdir pgdir va false s with
  | .ok (some pte, s) => entry (s.words pte.1 pte.2)
  | _ => none

end Xv6.Words
