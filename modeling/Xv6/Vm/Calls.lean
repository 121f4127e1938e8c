/-
  THE CALLS THAT TAKE AND GIVE PAGES — `fork`, `exec`, `exit`, `wait`, `sbrk`, `pipe`, `close`.

  Calls run one after the other, each to its end, and any `kalloc` in them may fail.  A process holds a
  kernel stack and an address space; a pipe holds the page of its `struct pipe`, from `pipealloc` until both
  ends are closed, and files stand for its ends.  Files that are no pipe's end hold no page, but they take
  up slots of the file table and descriptors.

  `main` is part of the machine: `kinit1` has run; `kvmalloc`, `startothers`, `kinit2` and `userinit` are
  steps.  A machine that has no memory for its first process does not come up.
-/
import Mathlib
import Xv6.Lib.Machine
import Xv6.Param
import Xv6.Vm.Paging

namespace Xv6.Vm

open Machines Outcome
open Function (update)

/-- `&ptable.proc[i]` -/
abbrev Slot := Fin NPROC
abbrev Fd := Fin NOFILE
abbrev FileId := Fin NFILE

def initproc : Slot := 0

/-- `p->state`; what is not UNUSED, EMBRYO or ZOMBIE is alive. -/
inductive State
  | unused
  | embryo
  | alive
  | zombie
  deriving DecidableEq

structure Proc where
  state : State
  kstack : Option Page
  pgdir : Option Pgdir
  sz : Nat
  parent : Option Slot
  ofile : Fd → Option FileId

/-- A `struct file`: how many references, and which end of which pipe it is, if any. -/
structure File where
  ref : Nat
  pipe : Option (Page × Bool)
  deriving DecidableEq

/-- The flags of a `struct pipe`. -/
structure Pipe where
  readopen : Bool
  writeopen : Bool
  deriving DecidableEq

structure St where
  mem : Mem
  procs : Slot → Proc
  files : FileId → File
  /-- The pages that hold a `struct pipe`. -/
  pipes : Page → Option Pipe
  kpgdir : Option Pgdir
  /-- The stacks of the other CPUs. -/
  cpus : List Page
  /-- The end of the pages given to the allocator. -/
  top : Page

abbrev SysProg := Prog St Panic

/-- Code of `vm.c` and `kalloc.c`, in a call. -/
def inMem {α : Type} (f : VmProg α) : SysProg α := fun S =>
  match f S.mem with
  | .ok (a, m) => .ok (a, { S with mem := m })
  | .error e => .error e

namespace St

variable (S : St)

def setProc (p : Slot) (f : Proc → Proc) : St := { S with procs := update S.procs p (f (S.procs p)) }

def setFile (f : FileId) (x : File) : St := { S with files := update S.files f x }

def setOfile (p : Slot) (fd : Fd) (f : Option FileId) : St :=
  S.setProc p fun x => { x with ofile := update x.ofile fd f }

end St

/-! ## `file.c`, `pipe.c` -/

/-- Allocate a file structure. -/
def filealloc : SysProg (Option FileId) := fun S =>
  match (List.finRange NFILE).find? fun f => (S.files f).ref = 0 with
  | none => .ok (none, S)
  | some f => .ok (some f, S.setFile f { S.files f with ref := 1 })

/-- Increment the reference count of a file. -/
def filedup (f : FileId) : SysProg Unit := fun S =>
  if (S.files f).ref < 1 then .error .filedup
  else .ok ((), S.setFile f { S.files f with ref := (S.files f).ref + 1 })

/-- Close one end of a pipe; free it when both are closed. -/
def pipeclose (L : Layout) (v : Page) (writable : Bool) : SysProg Unit := fun S =>
  match S.pipes v with
  | none => .error .trap
  | some x =>
    let y := if writable then { x with writeopen := false } else { x with readopen := false }
    if y.readopen = false ∧ y.writeopen = false then
      inMem (kfree L v) { S with pipes := update S.pipes v none }
    else .ok ((), { S with pipes := update S.pipes v (some y) })

/-- Close a file. -/
def fileclose (L : Layout) (f : FileId) : SysProg Unit := fun S =>
  if (S.files f).ref < 1 then .error .fileclose
  else if 1 < (S.files f).ref then
    .ok ((), S.setFile f { S.files f with ref := (S.files f).ref - 1 })
  else
    match (S.files f).pipe with
    | none => .ok ((), S.setFile f ⟨0, none⟩)
    | some (v, writable) => pipeclose L v writable (S.setFile f ⟨0, none⟩)

/-- Allocate a descriptor for a file. -/
def fdalloc (p : Slot) (f : FileId) : SysProg (Option Fd) := fun S =>
  match (List.finRange NOFILE).find? fun fd => (S.procs p).ofile fd = none with
  | none => .ok (none, S)
  | some fd => .ok (some fd, S.setOfile p fd (some f))

/-- Make a pipe of two files. -/
def pipeInit (f0 f1 : FileId) (v : Page) : SysProg Unit := fun S =>
  .ok ((), { (S.setFile f0 { S.files f0 with pipe := some (v, false) }).setFile f1
    { S.files f1 with pipe := some (v, true) } with pipes := update S.pipes v (some ⟨true, true⟩) })

/-- Allocate the two files of a pipe, and the pipe. -/
def pipealloc (L : Layout) : SysProg (Option (FileId × FileId)) := do
  match ← filealloc with
  | none => pure none
  | some f0 =>
    match ← filealloc with
    | none =>
      fileclose L f0
      pure none
    | some f1 =>
      match ← inMem kalloc with
      | none =>
        fileclose L f0
        fileclose L f1
        pure none
      | some v =>
        pipeInit f0 f1 v
        pure (some (f0, f1))

def sysPipe (L : Layout) (p : Slot) : SysProg Int := do
  match ← pipealloc L with
  | none => pure (-1)
  | some (rf, wf) =>
    match ← fdalloc p rf with
    | none =>
      fileclose L rf
      fileclose L wf
      pure (-1)
    | some fd0 =>
      match ← fdalloc p wf with
      | none =>
        modify fun S => S.setOfile p fd0 none
        fileclose L rf
        fileclose L wf
        pure (-1)
      | some _ => pure 0

def sysClose (L : Layout) (p : Slot) (fd : Fd) : SysProg Int := do
  match ((← get).procs p).ofile fd with
  | none => pure (-1)
  | some f =>
    modify fun S => S.setOfile p fd none
    fileclose L f
    pure 0

def sysDup (p : Slot) (fd : Fd) : SysProg Int := do
  match ((← get).procs p).ofile fd with
  | none => pure (-1)
  | some f =>
    match ← fdalloc p f with
    | none => pure (-1)
    | some fd' =>
      filedup f
      pure fd'

/-- `sys_open` of a file that is found: a file and a descriptor. -/
def sysOpen (L : Layout) (p : Slot) : SysProg Int := do
  match ← filealloc with
  | none => pure (-1)
  | some f =>
    match ← fdalloc p f with
    | none =>
      fileclose L f
      pure (-1)
    | some fd => pure fd

/-! ## `proc.c` -/

/-- Look in the process table for an UNUSED proc, and give it a kernel stack. -/
def allocproc : SysProg (Option Slot) := do
  let S ← get
  match (List.finRange NPROC).find? fun p => (S.procs p).state = .unused with
  | none => pure none
  | some p =>
    modify fun S => S.setProc p fun x => { x with state := .embryo }
    match ← inMem kalloc with
    | none =>
      modify fun S => S.setProc p fun x => { x with kstack := none, state := .unused }
      pure none
    | some v =>
      modify fun S => S.setProc p fun x => { x with kstack := some v }
      pure (some p)

/-- `fork`: the open files, from this descriptor on. -/
def dupFiles (p np : Slot) : List Fd → SysProg Unit
  | [] => pure ()
  | fd :: fds => do
    match ((← get).procs p).ofile fd with
    | none => pure ()
    | some f =>
      filedup f
      modify fun S => S.setOfile np fd (some f)
    dupFiles p np fds

def fork (L : Layout) (p : Slot) : SysProg Int := do
  match ← allocproc with
  | none => pure (-1)
  | some np =>
    let x := (← get).procs p
    match x.pgdir with
    | none => throw .trap
    | some A =>
      match ← inMem (copyuvm L A x.sz) with
      | none =>
        match ((← get).procs np).kstack with
        | none => throw .trap
        | some v => inMem (kfree L v)
        modify fun S => S.setProc np fun y => { y with pgdir := none, kstack := none, state := .unused }
        pure (-1)
      | some d =>
        modify fun S => S.setProc np fun y => { y with pgdir := some d, sz := x.sz, parent := some p }
        dupFiles p np (List.finRange NOFILE)
        modify fun S => S.setProc np fun y => { y with state := .alive }
        pure 0

/-- `exit`: close all open files, from this descriptor on. -/
def closeFiles (L : Layout) (p : Slot) : List Fd → SysProg Unit
  | [] => pure ()
  | fd :: fds => do
    match ((← get).procs p).ofile fd with
    | none => pure ()
    | some f =>
      fileclose L f
      modify fun S => S.setOfile p fd none
    closeFiles L p fds

def exit (L : Layout) (p : Slot) : SysProg Unit :=
  if p = initproc then throw .initExiting
  else do
    closeFiles L p (List.finRange NOFILE)
    modify fun S => { S with procs := fun q =>
      if (S.procs q).parent = some p then { S.procs q with parent := some initproc } else S.procs q }
    modify fun S => S.setProc p fun x => { x with state := .zombie }

/-- `wait`: none if it goes to sleep. -/
def wait (L : Layout) (p : Slot) : SysProg (Option Int) := do
  let S ← get
  match (List.finRange NPROC).find? fun q => (S.procs q).parent = some p ∧ (S.procs q).state = .zombie with
  | some q =>
    match (S.procs q).kstack with
    | none => throw .kfree
    | some v => inMem (kfree L v)
    match (S.procs q).pgdir with
    | none => throw .freevmNoPgdir
    | some A => inMem (freevm L A)
    modify fun S => S.setProc q fun x => { x with kstack := none, parent := none, state := .unused }
    pure (some 0)
  | none =>
    if (List.finRange NPROC).any fun q => (S.procs q).parent = some p then pure none
    else pure (some (-1))

/-- Grow current process's memory by `n` bytes; `sz + n` is a `uint`. -/
def growproc (L : Layout) (p : Slot) (n : Int) : SysProg Int := do
  let x := (← get).procs p
  match x.pgdir with
  | none => throw .trap
  | some A =>
    let newsz := ((x.sz + n) % 2 ^ 32).toNat
    if 0 < n then
      let (A, sz) ← inMem (allocuvm L A x.sz newsz)
      modify fun S => S.setProc p fun y => { y with pgdir := some A }
      if sz = 0 then pure (-1)
      else
        modify fun S => S.setProc p fun y => { y with sz := sz }
        pure 0
    else if n < 0 then
      let (A, sz) ← inMem (deallocuvm L A x.sz newsz)
      modify fun S => S.setProc p fun y => { y with pgdir := some A }
      if sz = 0 then pure (-1)
      else
        modify fun S => S.setProc p fun y => { y with sz := sz }
        pure 0
    else pure 0

def exec (L : Layout) (p : Slot) (segs : Option (List Seg)) (args : Bool) : SysProg Int := do
  match ← inMem (execImage L segs args) with
  | none => pure (-1)
  | some (A, sz) =>
    match ((← get).procs p).pgdir with
    | none => throw .freevmNoPgdir
    | some old =>
      modify fun S => S.setProc p fun x => { x with pgdir := some A, sz := sz }
      inMem (freevm L old)
      pure 0

/-! ## `main` -/

def kvmalloc (L : Layout) : SysProg Unit := do
  match ← inMem (setupkvm L) with
  | none => throw .trap
  | some A => modify fun S => { S with kpgdir := some A }

/-- `startothers`, for one CPU. -/
def startCpu : SysProg Unit := do
  match ← inMem kalloc with
  | none => throw .trap
  | some v => modify fun S => { S with cpus := v :: S.cpus }

def kinit2 (L : Layout) : SysProg Unit := do
  inMem (freerange L 1024 (PHYSTOP / PGSIZE - 1024))
  modify fun S => { S with top := PHYSTOP / PGSIZE }

def userinit (L : Layout) : SysProg Unit := do
  match ← allocproc with
  | none => throw .trap
  | some p =>
    match ← inMem (setupkvm L) with
    | none => throw .userinit
    | some A =>
      let A ← inMem (inituvm A)
      -- without this page there is no first process
      if (A.pte 0).isNone then throw .inituvm
      modify fun S => S.setProc p fun x => { x with pgdir := some A, sz := PGSIZE, state := .alive }

/-! ## The machine -/

inductive Call
  | fork
  | exec (segs : Option (List Seg)) (args : Bool)
  | exit
  | wait
  | sbrk (n : Int)
  | pipe
  | close (fd : Fd)
  | dup (fd : Fd)
  | open

inductive Label
  | kvmalloc
  | startCpu
  | kinit2
  | userinit
  /-- A call of process `p`, with the failures of `kalloc` in it. -/
  | call (p : Slot) (c : Call) (tape : List Bool)

/-- What a call returns; none if it goes to sleep. -/
def Call.run (L : Layout) (p : Slot) : Call → SysProg (Option Int)
  | .fork => some <$> Vm.fork L p
  | .exec segs args => some <$> Vm.exec L p segs args
  | .exit => do
    Vm.exit L p
    pure (some 0)
  | .wait => Vm.wait L p
  | .sbrk n => some <$> growproc L p n
  | .pipe => some <$> sysPipe L p
  | .close fd => some <$> sysClose L p fd
  | .dup fd => some <$> sysDup p fd
  | .open => some <$> sysOpen L p

/-- The state after code that does not panic. -/
def after {α : Type} (f : SysProg α) (S : St) : Option St :=
  match f S with
  | .ok (_, T) => some T
  | .error _ => none

/-- The arguments of a call are what `argint` and `argfd` let through: a C `int`. -/
def Call.valid : Call → Bool
  | .sbrk n => -2 ^ 31 ≤ n ∧ n < 2 ^ 31
  | _ => true

def step (L : Layout) (S : St) : Label → Option St
  | .kvmalloc => if S.kpgdir.isNone then after (kvmalloc L) S else none
  | .startCpu => after startCpu S
  | .kinit2 => if S.top = 1024 then after (kinit2 L) S else none
  | .userinit =>
    if (List.finRange NPROC).all (fun p => (S.procs p).state = .unused) then after (userinit L) S else none
  | .call p c tape =>
    if (S.procs p).state = .alive ∧ c.valid = true then
      match c.run L p { S with mem := { S.mem with tape := tape } } with
      | .ok (some _, T) => some { T with mem := { T.mem with tape := [] } }
      | _ => none
    else none

/-- The first page that `freerange` takes. -/
def Layout.first (L : Layout) : Nat := pgroundup L.kend / PGSIZE

/-- Before the first process. -/
def St.start (m : Mem) : St where
  mem := m
  procs := fun _ => ⟨.unused, none, none, 0, none, fun _ => none⟩
  files := fun _ => ⟨0, none⟩
  pipes := fun _ => none
  kpgdir := none
  cpus := []
  top := 1024

/-- `kinit1(end, P2V(4*1024*1024))` has run. -/
def machine (L : Layout) : Machine St Label where
  init := fun S => ∃ m, freerange L L.first (1024 - L.first) ⟨[], []⟩ = .ok ((), m) ∧ S = .start m
  step := step L

end Xv6.Vm
