/-
  WHAT THE PAGES HOLD — `exec.c`, and the functions of `vm.c` that copy to user memory.

  The page tables and the free pages are those of `Vm`; to them comes what every page of physical memory holds.

  * A function of `vm.c` that only moves pages around is taken over (`onPages`).  `allocuvm` clears the pages that it maps,
    `loaduvm` copies from the file, `copyout` from the kernel; these have their memory accesses here.
  * An executable is a file of arbitrary bytes; `readi` is the one of a file that is no device.  Where the code computes with
    `uint` and it matters, there is a `% 2 ^ 32`.
  * `walkpgdir` returns a null pointer if there is no page table for an address.  `uva2ka` uses the pointer without a look
    at it: that is a `trap`.
  * An entry that is not present is a word of zeros, so that `PTE_ADDR` of it is page 0.

  What `kfree` fills a page with is not modelled: whoever takes a page from the free list writes to it first.
-/
import Mathlib
import Xv6.Vm.Paging

namespace Xv6.Exec

open Outcome Vm

/-- The free pages, and what the pages hold. -/
structure Ram where
  mem : Mem
  bytes : Page → Nat → UInt8

abbrev RamProg := Prog Ram Panic

/-- A function that does not look at what the pages hold. -/
def onPages {α : Type} (f : VmProg α) : RamProg α := fun r =>
  match f r.mem with
  | .ok (a, m) => .ok (a, { r with mem := m })
  | .error e => .error e

/-- `memmove(P2V(v) + off, src, n)` -/
def memmove (v : Page) (off : Nat) (src : Nat → UInt8) (n : Nat) : RamProg Unit := fun r =>
  .ok ((), { r with bytes := Function.update r.bytes v fun i =>
    if off ≤ i ∧ i < off + n then src (i - off) else r.bytes v i })

/-- `memset(P2V(v), c, PGSIZE)` -/
def memset (v : Page) (c : UInt8) : RamProg Unit := memmove v 0 (fun _ => c) PGSIZE

/-! ## `vm.c` -/

/-- The loop of `allocuvm`. -/
def allocLoop (L : Layout) (oldsz newsz : Nat) (A : Pgdir) (a : Nat) : RamProg (Pgdir × Nat) :=
  if a < newsz then do
    match ← onPages kalloc with
    | none =>
      let (A, _) ← onPages (deallocuvm L A newsz oldsz)
      pure (A, 0)
    | some mem =>
      memset mem 0
      let (A, ok) ← onPages (mappages A a PGSIZE mem ⟨true, true⟩)
      if ok then allocLoop L oldsz newsz A (a + PGSIZE)
      else
        let (A, _) ← onPages (deallocuvm L A newsz oldsz)
        onPages (kfree L mem)
        pure (A, 0)
  else pure (A, newsz)
  termination_by newsz - a
  decreasing_by simp only [PGSIZE]; omega

/-- Allocate page tables and physical memory to grow a process; the new size, or 0. -/
def allocuvm (L : Layout) (A : Pgdir) (oldsz newsz : Nat) : RamProg (Pgdir × Nat) :=
  if KERNBASE ≤ newsz then pure (A, 0)
  else if newsz < oldsz then pure (A, oldsz)
  else allocLoop L oldsz newsz A (pgroundup oldsz)

/-- A file. -/
structure Inode where
  size : Nat
  data : Nat → UInt8
  size_lt : size < 2 ^ 32

/-- `readi`: how many bytes are read; none for -1. -/
def readi (ip : Inode) (off n : Nat) : Option Nat :=
  if ip.size < off ∨ (off + n) % 2 ^ 32 < off then none
  else if ip.size < (off + n) % 2 ^ 32 then some (ip.size - off)
  else some n

/-- The loop of `loaduvm`; false for -1. -/
def loadLoop (A : Pgdir) (addr : Nat) (ip : Inode) (offset sz i : Nat) : RamProg Bool :=
  if i < sz then
    match A.pde (pdx (addr + i)) with
    | none => throw .loaduvmExist
    | some _ =>
      let pa := ((A.pte (addr + i)).map Pte.page).getD 0
      let n := if sz - i < PGSIZE then sz - i else PGSIZE
      match readi ip ((offset + i) % 2 ^ 32) n with
      | none => pure false
      | some k => do
        memmove pa 0 (fun j => ip.data ((offset + i) % 2 ^ 32 + j)) k
        if k ≠ n then pure false else loadLoop A addr ip offset sz (i + PGSIZE)
  else pure true
  termination_by sz - i
  decreasing_by simp only [PGSIZE]; omega

/-- Load a program segment. -/
def loaduvm (A : Pgdir) (addr : Nat) (ip : Inode) (offset sz : Nat) : RamProg Bool :=
  if addr % PGSIZE ≠ 0 then throw .loaduvmAlign
  else loadLoop A addr ip offset sz 0

/-- Map user virtual address to kernel address. -/
def uva2ka (A : Pgdir) (uva : Nat) : RamProg (Option Page) :=
  match A.pde (pdx uva) with
  | none => throw .trap
  | some _ =>
    match A.pte uva with
    | none => pure none
    | some e => if e.perm.user = false then pure none else pure (some e.page)

/-- `n = PGSIZE - (va - va0); if(n > len) n = len` -/
def chunk (va len : Nat) : Nat :=
  if len < PGSIZE - (va - pgrounddown va) then len else PGSIZE - (va - pgrounddown va)

theorem chunk_pos (va : Nat) {len : Nat} (h : 0 < len) : 0 < chunk va len := by
  unfold chunk
  split
  · exact h
  · simp only [pgrounddown, PGSIZE]
    omega

/-- The loop of `copyout`: `len` bytes are left, from `p + buf` on. -/
def copyoutLoop (A : Pgdir) (p : Nat → UInt8) (va len buf : Nat) : RamProg Int :=
  if 0 < len then do
    let va0 := pgrounddown va
    match ← uva2ka A va0 with
    | none => pure (-1)
    | some pa0 =>
      memmove pa0 (va - va0) (fun i => p (buf + i)) (chunk va len)
      copyoutLoop A p ((va0 + PGSIZE) % 2 ^ 32) (len - chunk va len) (buf + chunk va len)
  else pure 0
  termination_by len
  decreasing_by
    have hlen : 0 < len := by assumption
    have := chunk_pos va hlen
    omega

/-- Copy `len` bytes from `p` to user address `va`. -/
def copyout (A : Pgdir) (va : Nat) (p : Nat → UInt8) (len : Nat) : RamProg Int := copyoutLoop A p va len 0

/-! ## `elf.h` -/

abbrev ELF_MAGIC : Nat := 0x464C457F
abbrev ELF_PROG_LOAD : Nat := 1

/-- A little-endian field of `k` bytes. -/
def le (f : Nat → UInt8) : Nat → Nat → Nat
  | 0, _ => 0
  | k + 1, off => (f off).toNat + 256 * le f k (off + 1)

structure Elfhdr where
  magic : Nat
  entry : Nat
  phoff : Nat
  phnum : Nat

abbrev sizeofElfhdr : Nat := 52

def elfhdr (f : Nat → UInt8) : Elfhdr := ⟨le f 4 0, le f 4 24, le f 4 28, le f 2 44⟩

structure Proghdr where
  type : Nat
  off : Nat
  vaddr : Nat
  filesz : Nat
  memsz : Nat

abbrev sizeofProghdr : Nat := 32

def proghdr (f : Nat → UInt8) (off : Nat) : Proghdr :=
  ⟨le f 4 off, le f 4 (off + 4), le f 4 (off + 8), le f 4 (off + 16), le f 4 (off + 20)⟩

/-! ## `exec` -/

/-- Load program into memory: `n` headers are left, from `off` on; none for `goto bad`. -/
def loadSegments (L : Layout) (ip : Inode) : Nat → Nat → Pgdir → Nat → RamProg (Pgdir × Option Nat)
  | 0, _, A, sz => pure (A, some sz)
  | n + 1, off, A, sz =>
    if readi ip off sizeofProghdr ≠ some sizeofProghdr then pure (A, none)
    else
      let ph := proghdr ip.data off
      if ph.type ≠ ELF_PROG_LOAD then loadSegments L ip n ((off + sizeofProghdr) % 2 ^ 32) A sz
      else if ph.memsz < ph.filesz then pure (A, none)
      else if (ph.vaddr + ph.memsz) % 2 ^ 32 < ph.vaddr then pure (A, none)
      else do
        let (A, sz) ← allocuvm L A sz ((ph.vaddr + ph.memsz) % 2 ^ 32)
        if sz = 0 then pure (A, none)
        else if ph.vaddr % PGSIZE ≠ 0 then pure (A, none)
        else if ← loaduvm A ph.vaddr ip ph.off ph.filesz then
          loadSegments L ip n ((off + sizeofProghdr) % 2 ^ 32) A sz
        else pure (A, none)

/-- `goto bad` -/
def bad {α : Type} (L : Layout) (A : Pgdir) : RamProg (Option α) := do
  onPages (freevm L A)
  pure none

/-- `exec`, up to the stack: the new page table, and the size. -/
def loadImage (L : Layout) (ip : Inode) : RamProg (Option (Pgdir × Nat)) :=
  if readi ip 0 sizeofElfhdr ≠ some sizeofElfhdr then pure none
  else if (elfhdr ip.data).magic ≠ ELF_MAGIC then pure none
  else do
    match ← onPages (setupkvm L) with
    | none => pure none
    | some A =>
      let (A, r) ← loadSegments L ip (elfhdr ip.data).phnum (elfhdr ip.data).phoff A 0
      match r with
      | none => bad L A
      | some sz =>
        -- two pages at the next page boundary: the first is made inaccessible, the second is the stack
        let (A, sz) ← allocuvm L A (pgroundup sz) (pgroundup sz + 2 * PGSIZE)
        if sz = 0 then bad L A
        else
          let A ← onPages (clearpteu A (sz - 2 * PGSIZE))
          pure (some (A, sz))

abbrev MAXARG : Nat := 32

/-- The bytes of a string with its NUL. -/
def cstr (s : List UInt8) : Nat → UInt8 := fun i => s.getD i 0

/-- Push argument strings: the stack pointer, and the pointers to the strings; none for `goto bad`. -/
def pushStrings (A : Pgdir) : List (List UInt8) → Nat → List Nat → RamProg (Option (Nat × List Nat))
  | [], sp, ptrs => pure (some (sp, ptrs))
  | s :: argv, sp, ptrs =>
    if MAXARG ≤ ptrs.length then pure none
    else do
      let sp := (sp + 2 ^ 32 - (s.length + 1)) % 2 ^ 32 / 4 * 4
      if (← copyout A sp (cstr s) (s.length + 1)) < 0 then pure none
      else pushStrings A argv sp (ptrs ++ [sp])

/-- The bytes of an array of words. -/
def wordBytes (ws : List Nat) : Nat → UInt8 := fun i => UInt8.ofNat (ws.getD (i / 4) 0 / 256 ^ (i % 4))

/-- `ustack`: fake return PC, argc, argv pointer, the pointers and a 0 -/
def ustack (sp : Nat) (ptrs : List Nat) : List Nat :=
  [0xffffffff, ptrs.length, (sp + 2 ^ 32 - (ptrs.length + 1) * 4) % 2 ^ 32] ++ ptrs ++ [0]

/-- The arguments, and the rest of the stack. -/
def pushArgs (A : Pgdir) (argv : List (List UInt8)) (sz : Nat) : RamProg (Option (Nat × List Nat)) := do
  match ← pushStrings A argv sz [] with
  | none => pure none
  | some (sp, ptrs) =>
    let sp' := (sp + 2 ^ 32 - (3 + ptrs.length + 1) * 4) % 2 ^ 32
    if (← copyout A sp' (wordBytes (ustack sp ptrs)) ((3 + ptrs.length + 1) * 4)) < 0 then pure none
    else pure (some (sp', ptrs))

/-- What `exec` commits to: page table, size, `eip` and `esp`; and where the arguments are. -/
structure Image where
  pgdir : Pgdir
  sz : Nat
  eip : Nat
  esp : Nat
  args : List Nat

/-- `exec`; none for -1. -/
def exec (L : Layout) (ip : Inode) (argv : List (List UInt8)) : RamProg (Option Image) := do
  match ← loadImage L ip with
  | none => pure none
  | some (A, sz) =>
    match ← pushArgs A argv sz with
    | none => bad L A
    | some (sp, ptrs) => pure (some ⟨A, sz, (elfhdr ip.data).entry, sp, ptrs⟩)

end Xv6.Exec
