/-
  OPEN FILES AND PIPES, step by step — `file.c`, and the calls of `sysfile.c`, `pipe.c` and `proc.c` that
  make, copy and drop references to files.

  Any number of processes are in these calls at once.  A step is one critical section of `ftable.lock` or
  `p->lock`, or a store to something that only its process looks at: its own `ofile`, that of the child it is
  making, a file that nobody else has yet.

  * What a call does besides (looking up a path, `iput`, copying memory) does not touch files; where it can
    fail, the label of the step says whether it does.
  * A pipe has a number of its own; its page comes from `kalloc`, which may fail.  `freed` counts how often
    that page was given to `kfree`.
  * A file is the end of a pipe from the store of `f->pipe` in `pipealloc` to `f->type = FD_NONE` in
    `fileclose`.
-/
import Mathlib
import Xv6.Lib.Machine
import Xv6.Param

namespace Xv6.Ftable

open Machines
open Function (update)

abbrev Pid := Fin NPROC
/-- A pointer into `ftable.file`. -/
abbrev FileId := Fin NFILE
abbrev Fd := Fin NOFILE
abbrev PipeId := Nat

def initproc : Pid := 0

/-! ## State -/

/-- `struct file`: how many references, and which end of which pipe it is, if any. -/
structure File where
  ref : Nat
  pipe : Option (PipeId × Bool)
  deriving DecidableEq

structure Pipe where
  readopen : Bool
  writeopen : Bool
  freed : Nat
  deriving DecidableEq

/-- `p->state`; what is not UNUSED, EMBRYO or ZOMBIE is alive. -/
inductive PState
  | unused
  | embryo
  | alive
  | zombie
  deriving DecidableEq

structure Proc where
  state : PState
  parent : Option Pid
  ofile : Fd → Option FileId

/-- What comes after a `fileclose`. -/
inductive Cont
  | ret
  /-- `fileclose` of the pipe's other file, then return. -/
  | other (f : FileId)
  /-- `exit`, which has closed `ofile[fd]`, with the descriptors still to come. -/
  | exit (fd : Fd) (f : FileId) (rest : List Fd)

/-- Where a process is. -/
inductive Pc
  | idle
  /-- `sys_open`, up to the inode. -/
  | openPath
  | openAlloc
  | openFd (f : FileId)
  /-- `f->type = FD_INODE; ...` -/
  | openSet (fd : Fd) (f : FileId)
  | dupArg (fd : Fd)
  | dupFd (fd : Fd) (f : FileId)
  /-- `filedup(f)`, with `f` in two descriptors. -/
  | dupRef (fd fd' : Fd) (f : FileId)
  | closeArg (fd : Fd)
  /-- `myproc()->ofile[fd] = 0` -/
  | closeSlot (fd : Fd) (f : FileId)
  /-- `fileclose`, under `ftable.lock`. -/
  | fileclose (f : FileId) (k : Cont)
  /-- `pipeclose`, under `p->lock`. -/
  | pipeclose (v : PipeId) (writable : Bool) (k : Cont)
  /-- `kfree((char*)p)` -/
  | kfree (v : PipeId) (k : Cont)
  /-- `exit`: `curproc->ofile[fd] = 0` -/
  | clear (fd : Fd) (f : FileId) (rest : List Fd)
  | pipeAlloc0
  | pipeAlloc1 (f0 : FileId)
  /-- `kalloc`, and the fields of the new pipe. -/
  | pipeMem (f0 f1 : FileId)
  /-- `(*f0)->type = FD_PIPE; ...` -/
  | pipeFile0 (f0 f1 : FileId) (v : PipeId)
  /-- `(*f1)->type = FD_PIPE; ...` -/
  | pipeFile1 (f0 f1 : FileId) (v : PipeId)
  | pipeFd0 (f0 f1 : FileId)
  | pipeFd1 (f0 f1 : FileId) (fd0 : Fd)
  /-- `myproc()->ofile[fd0] = 0` -/
  | pipeClear (f0 f1 : FileId) (fd0 : Fd)
  | forkAlloc
  /-- `kalloc` and `copyuvm`. -/
  | forkMem (np : Pid)
  | forkFd (np : Pid) (fds : List Fd)
  | forkDup (np : Pid) (fd : Fd) (f : FileId) (rest : List Fd)
  /-- `np->ofile[i] = f` -/
  | forkSet (np : Pid) (fd : Fd) (f : FileId) (rest : List Fd)
  /-- `np->state = RUNNABLE` -/
  | forkStart (np : Pid)
  | exitFd (fds : List Fd)
  | wait

def Cont.pc : Cont → Pc
  | .ret => .idle
  | .other f => .fileclose f .ret
  | .exit fd f rest => .clear fd f rest

inductive Panic
  | filedup
  | fileclose
  | initExiting
  deriving DecidableEq

structure St where
  procs : Pid → Proc
  files : FileId → File
  pipes : PipeId → Pipe
  /-- The number of the next pipe. -/
  next : PipeId
  pc : Pid → Pc
  panic : Option Panic

/-! ## Steps -/

namespace St

variable (S : St)

def setPc (p : Pid) (c : Pc) : St := { S with pc := update S.pc p c }

def setFile (f : FileId) (x : File) : St := { S with files := update S.files f x }

def setProc (p : Pid) (x : Proc) : St := { S with procs := update S.procs p x }

def setOfile (p : Pid) (fd : Fd) (o : Option FileId) : St :=
  S.setProc p { S.procs p with ofile := update (S.procs p).ofile fd o }

def setPipe (v : PipeId) (x : Pipe) : St := { S with pipes := update S.pipes v x }

/-- The loop of `filealloc`. -/
def freeFile : Option FileId := (List.finRange NFILE).find? fun f => (S.files f).ref = 0

/-- The loop of `fdalloc`. -/
def freeFd (p : Pid) : Option Fd := (List.finRange NOFILE).find? fun fd => (S.procs p).ofile fd = none

/-- The loop of `allocproc`. -/
def freeProc : Option Pid := (List.finRange NPROC).find? fun q => (S.procs q).state = .unused

/-- The loop of `wait`. -/
def deadChild (p : Pid) : Option Pid :=
  (List.finRange NPROC).find? fun q => (S.procs q).parent = some p ∧ (S.procs q).state = .zombie

/-- The end of `exit`: children of `p` go to `initproc`, and `p` becomes a zombie. -/
def exited (p q : Pid) : Proc :=
  let x := if (S.procs q).parent = some p then { S.procs q with parent := some initproc } else S.procs q
  if q = p then { x with state := .zombie } else x

end St

/-- A pipe with one end closed. -/
def Pipe.close (x : Pipe) (writable : Bool) : Pipe :=
  if writable then { x with writeopen := false } else { x with readopen := false }

inductive Call
  | open
  | dup (fd : Fd)
  | close (fd : Fd)
  | pipe
  | fork
  | exit
  | wait

/-- Where a call starts. -/
def Call.pc : Call → Pc
  | .open => .openPath
  | .dup fd => .dupArg fd
  | .close fd => .closeArg fd
  | .pipe => .pipeAlloc0
  | .fork => .forkAlloc
  | .exit => .exitFd (List.finRange NOFILE)
  | .wait => .wait

/-- The next step of process `p`; `b` says whether what can fail (a path, `kalloc`, `copyuvm`) succeeds. -/
def next (S : St) (p : Pid) (b : Bool) : Pc → St
  | .idle => S
  | .openPath => S.setPc p (if b then .openAlloc else .idle)
  | .openAlloc =>
    match S.freeFile with
    | none => S.setPc p .idle
    | some f => (S.setFile f { S.files f with ref := 1 }).setPc p (.openFd f)
  | .openFd f =>
    match S.freeFd p with
    | none => S.setPc p (.fileclose f .ret)
    | some fd => (S.setOfile p fd (some f)).setPc p (.openSet fd f)
  | .openSet _ f => (S.setFile f { S.files f with pipe := none }).setPc p .idle
  | .dupArg fd =>
    match (S.procs p).ofile fd with
    | none => S.setPc p .idle
    | some f => S.setPc p (.dupFd fd f)
  | .dupFd fd f =>
    match S.freeFd p with
    | none => S.setPc p .idle
    | some fd' => (S.setOfile p fd' (some f)).setPc p (.dupRef fd fd' f)
  | .dupRef _ _ f =>
    if (S.files f).ref < 1 then { S with panic := some .filedup }
    else (S.setFile f { S.files f with ref := (S.files f).ref + 1 }).setPc p .idle
  | .closeArg fd =>
    match (S.procs p).ofile fd with
    | none => S.setPc p .idle
    | some f => S.setPc p (.closeSlot fd f)
  | .closeSlot fd f => (S.setOfile p fd none).setPc p (.fileclose f .ret)
  | .fileclose f k =>
    if (S.files f).ref < 1 then { S with panic := some .fileclose }
    else if 1 < (S.files f).ref then
      (S.setFile f { S.files f with ref := (S.files f).ref - 1 }).setPc p k.pc
    else
      match (S.files f).pipe with
      | none => (S.setFile f ⟨0, none⟩).setPc p k.pc
      | some (v, writable) => (S.setFile f ⟨0, none⟩).setPc p (.pipeclose v writable k)
  | .pipeclose v writable k =>
    let x := (S.pipes v).close writable
    (S.setPipe v x).setPc p (if x.readopen = false ∧ x.writeopen = false then .kfree v k else k.pc)
  | .kfree v k => (S.setPipe v { S.pipes v with freed := (S.pipes v).freed + 1 }).setPc p k.pc
  | .clear fd _ rest => (S.setOfile p fd none).setPc p (.exitFd rest)
  | .pipeAlloc0 =>
    match S.freeFile with
    | none => S.setPc p .idle
    | some f0 => (S.setFile f0 { S.files f0 with ref := 1 }).setPc p (.pipeAlloc1 f0)
  | .pipeAlloc1 f0 =>
    match S.freeFile with
    | none => S.setPc p (.fileclose f0 .ret)
    | some f1 => (S.setFile f1 { S.files f1 with ref := 1 }).setPc p (.pipeMem f0 f1)
  | .pipeMem f0 f1 =>
    if b then
      { S.setPipe S.next ⟨true, true, 0⟩ with next := S.next + 1 }.setPc p (.pipeFile0 f0 f1 S.next)
    else S.setPc p (.fileclose f0 (.other f1))
  | .pipeFile0 f0 f1 v =>
    (S.setFile f0 { S.files f0 with pipe := some (v, false) }).setPc p (.pipeFile1 f0 f1 v)
  | .pipeFile1 f0 f1 v => (S.setFile f1 { S.files f1 with pipe := some (v, true) }).setPc p (.pipeFd0 f0 f1)
  | .pipeFd0 f0 f1 =>
    match S.freeFd p with
    | none => S.setPc p (.fileclose f0 (.other f1))
    | some fd0 => (S.setOfile p fd0 (some f0)).setPc p (.pipeFd1 f0 f1 fd0)
  | .pipeFd1 f0 f1 fd0 =>
    match S.freeFd p with
    | none => S.setPc p (.pipeClear f0 f1 fd0)
    | some fd1 => (S.setOfile p fd1 (some f1)).setPc p .idle
  | .pipeClear f0 f1 fd0 => (S.setOfile p fd0 none).setPc p (.fileclose f0 (.other f1))
  | .forkAlloc =>
    match S.freeProc with
    | none => S.setPc p .idle
    | some np => (S.setProc np { S.procs np with state := .embryo }).setPc p (.forkMem np)
  | .forkMem np =>
    if b then (S.setProc np { S.procs np with parent := some p }).setPc p (.forkFd np (List.finRange NOFILE))
    else (S.setProc np { S.procs np with state := .unused }).setPc p .idle
  | .forkFd np [] => S.setPc p (.forkStart np)
  | .forkFd np (fd :: rest) =>
    match (S.procs p).ofile fd with
    | none => S.setPc p (.forkFd np rest)
    | some f => S.setPc p (.forkDup np fd f rest)
  | .forkDup np fd f rest =>
    if (S.files f).ref < 1 then { S with panic := some .filedup }
    else (S.setFile f { S.files f with ref := (S.files f).ref + 1 }).setPc p (.forkSet np fd f rest)
  | .forkSet np fd f rest => (S.setOfile np fd (some f)).setPc p (.forkFd np rest)
  | .forkStart np => (S.setProc np { S.procs np with state := .alive }).setPc p .idle
  | .exitFd [] => { S with procs := S.exited p }.setPc p .idle
  | .exitFd (fd :: rest) =>
    match (S.procs p).ofile fd with
    | none => S.setPc p (.exitFd rest)
    | some f => S.setPc p (.fileclose f (.exit fd f rest))
  | .wait =>
    match S.deadChild p with
    | none => S.setPc p .idle
    | some q => (S.setProc q { S.procs q with parent := none, state := .unused }).setPc p .idle

inductive Label
  | call (p : Pid) (c : Call)
  | step (p : Pid) (b : Bool)

/-- Is the process between two calls? -/
def Pc.isIdle : Pc → Bool
  | .idle => true
  | _ => false

/-- `exit` by the first process. -/
def Call.isExit : Call → Bool
  | .exit => true
  | _ => false

def step (S : St) : Label → Option St
  | .call p c =>
    if S.panic = none ∧ (S.procs p).state = .alive ∧ (S.pc p).isIdle = true then
      some (if p = initproc ∧ c.isExit = true then { S with panic := some .initExiting } else S.setPc p c.pc)
    else none
  | .step p b => if S.panic = none ∧ (S.pc p).isIdle = false then some (next S p b (S.pc p)) else none

/-- Only the first process is alive, and nothing is open. -/
def boot : St where
  procs := fun p => ⟨if p = initproc then .alive else .unused, none, fun _ => none⟩
  files := fun _ => ⟨0, none⟩
  pipes := fun _ => ⟨false, false, 0⟩
  next := 0
  pc := fun _ => .idle
  panic := none

def machine : Machine St Label where
  init := fun S => S = boot
  step := step

end Xv6.Ftable
