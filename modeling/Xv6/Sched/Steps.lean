/-
  THE SCHEDULER — the process table of `proc.c`, on any number of CPUs.

  Every CPU executes either its own `scheduler()` or the kernel thread of one process.  Which of the two
  it is, is a fact about the stack it is on (`exec`); `c->proc` is a variable that the scheduler sets, and
  that `myproc()` reads.  That the two agree is one of the things to be proved.

  * `ptable.lock` is taken in one thread and given back in ANOTHER: `sched()` switches to the scheduler
    with the lock held, and the scheduler switches to a process with the lock held.
  * Where a process goes on when it is scheduled again (its saved `context`) is a `Resume`.
  * `fork` works on its child WITHOUT the lock, and gives it up without the lock when memory runs out; and
    it can be preempted in the middle, as any process can at a point where interrupts are on (`Base`).
  * `kalloc` and `copyuvm` return what the label says, 0 included.
  * Interrupts wake processes on a CPU that is idle, too.

  `nextpid` is an `int`, and goes around.  So that processes can be told apart whatever their pids are, each has
  a number that is never used again (`born`); no step reads it.

  A thread that panics stops (`halted`), and the message is kept in `panicked`; the other CPUs go on.
  The depth of `pushcli` and the interrupt flag are not modelled, nor what a process does outside of the
  functions of `proc.c` (`Base.out`) except that `exec` changes its page directory.
-/
import Xv6.Lib.Machine
import Xv6.Param

namespace Xv6.Sched

open Machines

/-- `&ptable.proc[i]` -/
abbrev Slot := Fin NPROC

def initproc : Slot := 0

inductive State
  | unused
  | embryo
  | sleeping
  | runnable
  | running
  | zombie
  deriving DecidableEq

/-- What processes sleep on: a `struct proc` (in `wait`), or any other address. -/
inductive Chan
  | proc (p : Slot)
  | addr (a : Nat)
  deriving DecidableEq

/-- `struct proc`, as far as the table is concerned. -/
structure Proc where
  state : State
  kstack : Option Nat
  pgdir : Option Nat
  pid : Int
  /-- Which process of all there have been: not in the source. -/
  born : Nat
  parent : Option Slot
  chan : Option Chan
  killed : Bool

abbrev Table := Slot → Proc

inductive Panic
  | acquire
  | release
  | switchuvmNoProc
  | switchuvmNoKstack
  | switchuvmNoPgdir
  | schedLock
  | schedRunning
  | sleep
  | zombieExit
  | initExiting
  /-- A null `myproc()` is dereferenced. -/
  | trap
  deriving DecidableEq

/-! ## Where a thread is -/

/-- The points at which interrupts are on, and a process can be preempted.  `cur` is the local variable
    `curproc`, `np` the child. -/
inductive Base
  /-- Anywhere else: in user space, or in the rest of the kernel. -/
  | out
  /-- `allocproc`: `p->kstack = kalloc()` -/
  | forkStack (cur np : Slot)
  /-- `fork`: `np->pgdir = copyuvm(..)` -/
  | forkCopy (cur np : Slot)
  /-- `fork`, failing: `kfree(np->kstack); np->kstack = 0` -/
  | forkDrop (np : Slot)
  /-- `allocproc` or `fork`, failing: `np->state = UNUSED` -/
  | forkUnused (np : Slot)
  /-- `np->parent = curproc`, and what follows -/
  | forkFill (cur np : Slot)
  /-- Before the `acquire` for `np->state = RUNNABLE`. -/
  | forkReady (np : Slot)

/-- What is done with `ptable.lock` held. -/
inductive Held
  /-- `wakeup1(chan)`, in a call or in an interrupt at `b` -/
  | wakeup (ch : Option Chan) (b : Base)
  /-- `yield`, in a timer interrupt at `b` -/
  | yield (b : Base)
  /-- `sleep`, whose local variable is `p` -/
  | sleep (p : Slot) (ch : Chan)
  | kill (pid : Int)
  /-- `allocproc`'s loop, at slot `i` -/
  | alloc (cur : Slot) (i : Nat)
  /-- `np->state = RUNNABLE` -/
  | ready (np : Slot)
  | exit (cur : Slot)
  /-- `wait`'s inner loop, at slot `i` -/
  | wait (cur : Slot) (i : Nat) (havekids : Bool)

/-- Where a process goes on after `swtch`. -/
inductive Resume
  | forkret
  | yield (b : Base)
  | sleep (p : Slot)
  /-- The `sleep` of `wait`: it keeps the lock. -/
  | wait (cur p : Slot)
  | exit

inductive Pc
  | base (b : Base)
  | acquire (k : Held)
  | held (k : Held)
  /-- `release(&ptable.lock)`, then `b` -/
  | unlock (b : Base)
  /-- In `sched()`, before `swtch`. -/
  | sched (r : Resume)
  /-- After `swtch`. -/
  | resume (r : Resume)
  | halted

/-- Where `scheduler()` is. -/
inductive SchedPc
  /-- After `sti()`. -/
  | idle
  /-- An interrupt that calls `wakeup(chan)`. -/
  | irqAcquire (ch : Option Chan)
  | irqHeld (ch : Option Chan)
  | irqRelease
  /-- The loop, at slot `i`. -/
  | scan (i : Nat)
  /-- `switchuvm(p); p->state = RUNNING; swtch(..)` -/
  | switch (p : Slot)
  /-- `switchkvm(); c->proc = 0` -/
  | back (p : Slot)
  | halted

structure Cpu where
  /-- `c->proc` -/
  proc : Option Slot
  /-- The process whose kernel stack the CPU is on; none: it is in `scheduler()`. -/
  exec : Option Slot
  /-- Where `scheduler()` is, or goes on after `swtch` (`c->scheduler`). -/
  sched : SchedPc

/-- `nextpid`, and beside it the number of the next process, which the source does not have. -/
structure Ids where
  nextpid : Int
  births : Nat

/-- `nextpid++` -/
def Ids.next (n : Ids) : Ids := ⟨cInt (n.nextpid + 1), n.births + 1⟩

/-- `found:` of `allocproc`; the ids are those before. -/
def Proc.found (n : Ids) (x : Proc) : Proc := { x with state := .embryo, pid := n.nextpid, born := n.births }

/-- What `wait` leaves of a child. -/
def Proc.freed (x : Proc) : Proc :=
  { x with kstack := none, pid := 0, parent := none, killed := false, state := .unused }

structure St (nc : Nat) where
  procs : Table
  pc : Slot → Pc
  cpus : Fin nc → Cpu
  /-- The CPU that holds `ptable.lock`. -/
  lock : Option (Fin nc)
  ids : Ids
  panicked : List Panic

/-! ## The table -/

namespace Table

variable (t : Table)

/-- Change one slot. -/
def modify (p : Slot) (f : Proc → Proc) : Table := Function.update t p (f (t p))

/-- `wakeup1` -/
def wakeup1 (ch : Option Chan) : Table := fun p =>
  if (t p).state = .sleeping ∧ (t p).chan = ch then { t p with state := .runnable } else t p

/-- `kill`: the first slot with this pid, if any. -/
def kill (pid : Int) : Table :=
  match (List.finRange NPROC).find? fun p => (t p).pid = pid with
  | none => t
  | some p => modify t p fun x =>
      { x with killed := true, state := if x.state = .sleeping then .runnable else x.state }

/-- `exit`'s loop, at one slot. -/
def abandonOne (cur : Slot) (p : Slot) : Table :=
  if (t p).parent = some cur then
    let t' := modify t p fun x => { x with parent := some initproc }
    if (t' p).state = .zombie then wakeup1 t' (some (.proc initproc)) else t'
  else t

/-- `exit`: pass abandoned children to init. -/
def abandon (cur : Slot) : Table := (List.finRange NPROC).foldl (fun t p => abandonOne t cur p) t

end Table

namespace St

variable {nc : Nat} (S : St nc)

def setProc (p : Slot) (f : Proc → Proc) : St nc := { S with procs := S.procs.modify p f }

def goto (p : Slot) (k : Pc) : St nc := { S with pc := Function.update S.pc p k }

def setCpu (c : Fin nc) (x : Cpu) : St nc := { S with cpus := Function.update S.cpus c x }

def setSched (c : Fin nc) (k : SchedPc) : St nc := S.setCpu c { S.cpus c with sched := k }

/-- `panic`: the thread that this CPU executes stops. -/
def halt (c : Fin nc) (m : Panic) : St nc :=
  match (S.cpus c).exec with
  | none => { S with panicked := S.panicked ++ [m] }.setSched c .halted
  | some p => { S with panicked := S.panicked ++ [m] }.goto p .halted

/-- `acquire(&ptable.lock)`, then `k` -/
def acquire (c : Fin nc) (k : St nc → St nc) : Option (St nc) :=
  match S.lock with
  | none => some (k { S with lock := some c })
  | some d => if d = c then some (S.halt c .acquire) else none

/-- `release(&ptable.lock)`, then `k` -/
def release (c : Fin nc) (k : St nc → St nc) : Option (St nc) :=
  if S.lock = some c then some (k { S with lock := none }) else some (S.halt c .release)

/-- `switchuvm`: does it panic? -/
def switchuvm : Option Slot → Option Panic
  | none => some .switchuvmNoProc
  | some p =>
    if (S.procs p).kstack = none then some .switchuvmNoKstack
    else if (S.procs p).pgdir = none then some .switchuvmNoPgdir
    else none

end St

/-! ## The threads -/

variable {nc : Nat}

/-- `scheduler()` on CPU `c`. -/
def schedStep (S : St nc) (c : Fin nc) : Option (St nc) :=
  match (S.cpus c).sched with
  | .idle => S.acquire c fun T => T.setSched c (.scan 0)
  | .irqAcquire ch => S.acquire c fun T => T.setSched c (.irqHeld ch)
  | .irqHeld ch => some ({ S with procs := S.procs.wakeup1 ch }.setSched c .irqRelease)
  | .irqRelease => S.release c fun T => T.setSched c .idle
  | .scan i =>
    if hi : i < NPROC then
      if (S.procs ⟨i, hi⟩).state ≠ .runnable then some (S.setSched c (.scan (i + 1)))
      else some (S.setCpu c ⟨some ⟨i, hi⟩, none, .switch ⟨i, hi⟩⟩)
    else S.release c fun T => T.setSched c .idle
  | .switch p =>
    match S.switchuvm (some p) with
    | some m => some (S.halt c m)
    | none => some ((S.setProc p fun x => { x with state := .running }).setCpu c
        ⟨(S.cpus c).proc, some p, .back p⟩)
  | .back p => some (S.setCpu c ⟨none, none, .scan (p + 1)⟩)
  | .halted => none

/-- What thread `p` does at a point where it can be preempted; `mem` is what the allocation returns. -/
def baseStep (S : St nc) (p : Slot) (mem : Option Nat) : Base → Option (St nc)
  | .out => none
  | .forkStack cur np =>
    match mem with
    | none => some ((S.setProc np fun x => { x with kstack := none }).goto p (.base (.forkUnused np)))
    | some a =>
      -- `p->context->eip = forkret`
      some (((S.setProc np fun x => { x with kstack := some a }).goto np (.resume .forkret)).goto p
        (.base (.forkCopy cur np)))
  | .forkCopy cur np =>
    match mem with
    | none => some ((S.setProc np fun x => { x with pgdir := none }).goto p (.base (.forkDrop np)))
    | some a => some ((S.setProc np fun x => { x with pgdir := some a }).goto p (.base (.forkFill cur np)))
  | .forkDrop np => some ((S.setProc np fun x => { x with kstack := none }).goto p (.base (.forkUnused np)))
  | .forkUnused np => some ((S.setProc np fun x => { x with state := .unused }).goto p (.base .out))
  | .forkFill cur np => some ((S.setProc np fun x => { x with parent := some cur }).goto p (.base (.forkReady np)))
  | .forkReady np => some (S.goto p (.acquire (.ready np)))

/-- What thread `p` does with the lock held, on CPU `c`. -/
def heldStep (S : St nc) (c : Fin nc) (p : Slot) : Held → Option (St nc)
  | .wakeup ch b => some ({ S with procs := S.procs.wakeup1 ch }.goto p (.unlock b))
  | .yield b =>
    match (S.cpus c).proc with
    | none => some (S.halt c .trap)
    | some q => some ((S.setProc q fun x => { x with state := .runnable }).goto p (.sched (.yield b)))
  | .sleep q ch => some ((S.setProc q fun x =>
      { x with chan := some ch, state := .sleeping }).goto p (.sched (.sleep q)))
  | .kill pid => some ({ S with procs := S.procs.kill pid }.goto p (.unlock .out))
  | .alloc cur i =>
    if hi : i < NPROC then
      if (S.procs ⟨i, hi⟩).state = .unused then
        some ((St.setProc { S with ids := S.ids.next } ⟨i, hi⟩ (.found S.ids)).goto p
          (.unlock (.forkStack cur ⟨i, hi⟩)))
      else some (S.goto p (.held (.alloc cur (i + 1))))
    else some (S.goto p (.unlock .out))
  | .ready np => some ((S.setProc np fun x => { x with state := .runnable }).goto p (.unlock .out))
  | .exit cur =>
    let t := (S.procs.wakeup1 ((S.procs cur).parent.map .proc)).abandon cur
    some (({ S with procs := t }.setProc cur fun x => { x with state := .zombie }).goto p (.sched .exit))
  | .wait cur i havekids =>
    if hi : i < NPROC then
      if (S.procs ⟨i, hi⟩).parent ≠ some cur then some (S.goto p (.held (.wait cur (i + 1) havekids)))
      else if (S.procs ⟨i, hi⟩).state = .zombie then
        some ((S.setProc ⟨i, hi⟩ .freed).goto p (.unlock .out))
      else some (S.goto p (.held (.wait cur (i + 1) true)))
    else if havekids = false ∨ (S.procs cur).killed then some (S.goto p (.unlock .out))
    else
      -- `sleep(curproc, &ptable.lock)`
      match (S.cpus c).proc with
      | none => some (S.halt c .sleep)
      | some q => some ((S.setProc q fun x =>
          { x with chan := some (.proc cur), state := .sleeping }).goto p (.sched (.wait cur q)))

/-- `sched()`: the context of `myproc()` is saved, and the CPU goes on in its scheduler. -/
def sched (S : St nc) (c : Fin nc) (r : Resume) : St nc :=
  match (S.cpus c).proc with
  | none => S.halt c .trap
  | some q =>
    if S.lock ≠ some c then S.halt c .schedLock
    else if (S.procs q).state = .running then S.halt c .schedRunning
    else (S.goto q (.resume r)).setCpu c { S.cpus c with exec := none }

/-- Thread `p`, on CPU `c`. -/
def procStep (S : St nc) (c : Fin nc) (p : Slot) (mem : Option Nat) : Option (St nc) :=
  match S.pc p with
  | .base b => baseStep S p mem b
  | .acquire k => S.acquire c fun T => T.goto p (.held k)
  | .held k => heldStep S c p k
  | .unlock b => S.release c fun T => T.goto p (.base b)
  | .sched r => some (sched S c r)
  | .resume .forkret => S.release c fun T => T.goto p (.base .out)
  | .resume (.yield b) => S.release c fun T => T.goto p (.base b)
  | .resume (.sleep q) =>
    (S.setProc q fun x => { x with chan := none }).release c fun T => T.goto p (.base .out)
  | .resume (.wait cur q) =>
    some ((S.setProc q fun x => { x with chan := none }).goto p (.held (.wait cur 0 false)))
  | .resume .exit => some (S.halt c .zombieExit)
  | .halted => none

/-! ## The machine -/

/-- What a process calls. -/
inductive Call
  | sleep (ch : Chan)
  | kill (pid : Int)
  | fork
  | exit
  | wait
  /-- The end of `exec`, with the new page directory. -/
  | exec (pgdir : Nat)
  /-- The end of `growproc`. -/
  | grow

inductive Label (nc : Nat)
  /-- The next step of what CPU `c` executes. -/
  | step (c : Fin nc) (mem : Option Nat)
  /-- `wakeup(chan)`, called or in an interrupt. -/
  | wakeup (c : Fin nc) (ch : Option Chan)
  /-- A timer interrupt. -/
  | yield (c : Fin nc)
  | call (c : Fin nc) (f : Call)

/-- Thread `p` on CPU `c`, outside of all this, calls a function; `myproc()` is `q`. -/
def enter (S : St nc) (c : Fin nc) (p q : Slot) : Call → St nc
  | .sleep ch => S.goto p (.acquire (.sleep q ch))
  | .kill pid => S.goto p (.acquire (.kill pid))
  | .fork => S.goto p (.acquire (.alloc q 0))
  | .exit => if q = initproc then S.halt c .initExiting else S.goto p (.acquire (.exit q))
  | .wait => S.goto p (.acquire (.wait q 0 false))
  | .exec a =>
    let T := S.setProc q fun x => { x with pgdir := some a }
    match T.switchuvm (some q) with
    | none => T
    | some m => T.halt c m
  | .grow =>
    match S.switchuvm (some q) with
    | none => S
    | some m => S.halt c m

/-- What `myproc()` being null does to a call. -/
def Call.noProc : Call → Panic
  | .sleep _ => .sleep
  | _ => .trap

def step (S : St nc) : Label nc → Option (St nc)
  | .step c mem =>
    match (S.cpus c).exec with
    | none => schedStep S c
    | some p => procStep S c p mem
  | .wakeup c ch =>
    match (S.cpus c).exec with
    | none =>
      match (S.cpus c).sched with
      | .idle => some (S.setSched c (.irqAcquire ch))
      | _ => none
    | some p =>
      match S.pc p with
      | .base b => some (S.goto p (.acquire (.wakeup ch b)))
      | _ => none
  | .yield c =>
    match (S.cpus c).exec, (S.cpus c).proc with
    | some p, some q =>
      match S.pc p with
      | .base b => if (S.procs q).state = .running then some (S.goto p (.acquire (.yield b))) else none
      | _ => none
    | _, _ => none
  | .call c f =>
    match (S.cpus c).exec with
    | none => none
    | some p =>
      match S.pc p with
      | .base .out =>
        match (S.cpus c).proc with
        | none => some (S.halt c f.noProc)
        | some q => some (enter S c p q f)
      | _ => none

/-- After `userinit`, with every CPU in its scheduler. -/
def St.init (nc : Nat) (kstack pgdir : Nat) : St nc where
  procs := fun p =>
    if p = initproc then ⟨.runnable, some kstack, some pgdir, 1, 1, none, none, false⟩
    else ⟨.unused, none, none, 0, 0, none, none, false⟩
  pc := fun p => if p = initproc then .resume .forkret else .halted
  cpus := fun _ => ⟨none, none, .idle⟩
  lock := none
  ids := ⟨2, 2⟩
  panicked := []

def machine (nc : Nat) : Machine (St nc) (Label nc) where
  init := fun S => ∃ kstack pgdir, S = .init nc kstack pgdir
  step := step

end Xv6.Sched
