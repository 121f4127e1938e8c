/-
  PIPES — `pipe.c`, with the sleeping and waking of `proc.c`.

  Any number of processes call `pipewrite` and `piperead` on one pipe, close its ends, and are killed.
  Every step is one thing a process does between two points where another one can interfere: a test and
  a store under `p->lock`, a `wakeup`, each of the stages of `sleep`.

  * `sleep(chan, &p->lock)` takes `ptable.lock` BEFORE it releases `p->lock`, and becomes SLEEPING before
    it gives `ptable.lock` up; `wakeup` and `kill` need `ptable.lock`.  So there are states in which the
    pipe is unlocked and a process is about to sleep, but no wakeup can fall into them.
  * An end is closed by the last file that refers to it, so nobody is in a call on that end at the time
    (a process in a call keeps its file open); afterwards nobody enters one.
  * `written`, `readout` and `finished` are HISTORY: the bytes stored and taken out, in the order in which
    it happened, each with the number of its call; and what the calls returned.

  `Step` says once what a step can do; `Excl`, that the locks are held where the code holds them.
-/
import Xv6.Lib.Machine
import Xv6.Lib.Locks
import Xv6.Lib.Ring

namespace Xv6

open Machines Rings Locks
open Function (update update_apply)

/-- The bytes that a pipe holds at most. -/
abbrev Pipe.PIPESIZE : Nat := 512

/-- `struct pipe`, its lock apart. -/
structure Pipe where
  ring : Ring 32 Pipe.PIPESIZE UInt8
  readopen : Bool
  writeopen : Bool

namespace Pipe

/-- What processes sleep on: `&p->nread` (readers), `&p->nwrite` (writers). -/
inductive Chan
  | nread
  | nwrite
  deriving DecidableEq

/-- `p->state` and `p->chan`. -/
inductive Status
  | running
  | sleeping (c : Chan)
  | runnable
  deriving DecidableEq

/-- Of a process that is killed. -/
def Status.awoken : Status → Status
  | .sleeping _ => .runnable
  | v => v

/-- A call that may sleep: `pipewrite` at `addr[i]`, or `piperead` of `n` bytes; with its number. -/
inductive Call
  | write (id : Nat) (src : List UInt8) (i : Nat)
  | read (id n : Nat)

/-- The channel that a call sleeps on. -/
def Call.chan : Call → Chan
  | .write .. => .nwrite
  | .read .. => .nread

/-- How a call ended: `pipewrite`, after `i` bytes, with the value it returns; `piperead`, with the bytes
    it returns, or none for -1. -/
inductive Result
  | write (id : Nat) (src : List UInt8) (i : Nat) (ret : Int)
  | read (id : Nat) (bytes : Option (List UInt8))

/-- Where a process is. -/
inductive Pc
  /-- In no call on this pipe. -/
  | idle
  /-- `acquire(&p->lock)`, on entry or at the end of `sleep`. -/
  | acquire (c : Call)
  /-- The conditions of the loops. -/
  | test (c : Call)
  /-- `pipewrite`, full: `wakeup(&p->nread)` -/
  | wakeFull (id : Nat) (src : List UInt8) (i : Nat)
  /-- `sleep`: `acquire(&ptable.lock)` -/
  | sleepAcquire (c : Call)
  /-- `sleep`: `release(lk)` -/
  | sleepRelease (c : Call)
  /-- `sleep`: `p->chan = chan; p->state = SLEEPING; sched()` -/
  | sleepState (c : Call)
  /-- In `sched()`. -/
  | asleep (c : Call)
  /-- `piperead`'s `for` loop, with the bytes copied so far. -/
  | copy (id n : Nat) (got : List UInt8)
  /-- The `wakeup` at the end. -/
  | wakeEnd (r : Result)
  /-- `release(&p->lock)`, and return. -/
  | release (r : Result)
  | closeAcquire (writable : Bool)
  | closeFlag (writable : Bool)
  | closeWake (writable : Bool)
  | closeEnd

/-- The pipe, the processes and the history. -/
structure St (n : Nat) where
  pipe : Pipe
  /-- Who holds `p->lock`. -/
  lock : Option (Fin n)
  /-- Who holds `ptable.lock`. -/
  ptlock : Option (Fin n)
  status : Fin n → Status
  killed : Fin n → Bool
  pc : Fin n → Pc
  /-- Is there still a file for the read end, the write end? -/
  readEnd : Bool
  writeEnd : Bool
  freed : Bool
  ncalls : Nat
  written : List (Nat × UInt8)
  readout : List (Nat × UInt8)
  finished : List Result

/-- Is the call one on the write end? -/
def Call.onWrite : Call → Bool
  | .write .. => true
  | .read .. => false

def Result.onWrite : Result → Bool
  | .write .. => true
  | .read .. => false

/-- The end that a process at this point uses: the write end, the read end, or none. -/
def Pc.usesEnd (writable : Bool) : Pc → Bool
  | .acquire c | .test c | .sleepAcquire c | .sleepRelease c | .sleepState c | .asleep c =>
    c.onWrite == writable
  | .wakeFull .. => writable
  | .copy .. => !writable
  | .wakeEnd r | .release r => r.onWrite == writable
  | _ => false

/-- Who does what: enters a call, closes an end, kills somebody, or goes on. -/
inductive Label (n : Nat)
  | write (p : Fin n) (src : List UInt8)
  | read (p : Fin n) (k : Nat)
  | close (p : Fin n) (writable : Bool)
  | kill (p : Fin n)
  | step (p : Fin n)

namespace St

variable {n : Nat} (S : St n)

/-- Process `p` goes to another point. -/
def setPc (p : Fin n) (c : Pc) : St n := { S with pc := update S.pc p c }

/-- `wakeup1(chan)` -/
def wakeup (c : Chan) : St n :=
  { S with status := fun q => if S.status q = .sleeping c then .runnable else S.status q }

/-- `p->data[p->nwrite++ % PIPESIZE] = addr[i]` -/
def store (id : Nat) (b : UInt8) : St n := { S with
  pipe := { S.pipe with ring := S.pipe.ring.push b }
  written := S.written ++ [(id, b)] }

/-- `addr[i] = p->data[p->nread++ % PIPESIZE]` -/
def take (id : Nat) : St n := { S with
  pipe := { S.pipe with ring := S.pipe.ring.pop }
  readout := S.readout ++ [(id, S.pipe.ring.front)] }

/-- `release(&p->lock)`, and the call returns. -/
def leave (r : Result) : St n := { S with lock := none, finished := S.finished ++ [r] }

/-- `kill` -/
def kill (p : Fin n) : St n := { S with
  killed := update S.killed p true
  status := update S.status p (S.status p).awoken }

/-- The last file for an end is closed. -/
def closeFile (writable : Bool) : St n := { S with
  writeEnd := if writable then false else S.writeEnd
  readEnd := if writable then S.readEnd else false }

/-- `p->writeopen = 0`, or `p->readopen = 0` -/
def clearFlag (writable : Bool) : St n := { S with
  pipe := if writable then { S.pipe with writeopen := false } else { S.pipe with readopen := false } }

end St

/-- The channel of the last `wakeup` of a call. -/
def Result.wakes : Result → Chan
  | .write .. => .nread
  | .read .. => .nwrite

variable {n : Nat}

/-- What process `p` does next. -/
def act (S : St n) (p : Fin n) : Option (St n) :=
  match S.pc p with
  | .idle => none
  | .acquire c => if S.lock = none then some ({ S with lock := some p }.setPc p (.test c)) else none
  | .test (.write id src i) =>
    match src[i]? with
    | none => some (S.setPc p (.wakeEnd (.write id src i src.length)))
    | some b =>
      if S.pipe.ring.isFull then
        if S.pipe.readopen = false ∨ S.killed p then some (S.setPc p (.release (.write id src i (-1))))
        else some (S.setPc p (.wakeFull id src i))
      else some ((S.store id b).setPc p (.test (.write id src (i + 1))))
  | .test (.read id k) =>
    if S.pipe.ring.isEmpty ∧ S.pipe.writeopen then
      if S.killed p then some (S.setPc p (.release (.read id none)))
      else some (S.setPc p (.sleepAcquire (.read id k)))
    else some (S.setPc p (.copy id k []))
  | .wakeFull id src i =>
    if S.ptlock = none then some ((S.wakeup .nread).setPc p (.sleepAcquire (.write id src i))) else none
  | .sleepAcquire c =>
    if S.ptlock = none then some ({ S with ptlock := some p }.setPc p (.sleepRelease c)) else none
  | .sleepRelease c => some ({ S with lock := none }.setPc p (.sleepState c))
  | .sleepState c => some (St.setPc { S with
      ptlock := none
      status := update S.status p (.sleeping c.chan) } p (.asleep c))
  | .asleep c =>
    -- the scheduler has picked the process: `p->chan = 0; release(&ptable.lock)`
    if S.status p = .runnable ∧ S.ptlock = none then
      some (St.setPc { S with status := update S.status p .running } p (.acquire c))
    else none
  | .copy id k got =>
    if got.length < k ∧ S.pipe.ring.isEmpty = false then
      some ((S.take id).setPc p (.copy id k (got ++ [S.pipe.ring.front])))
    else some (S.setPc p (.wakeEnd (.read id (some got))))
  | .wakeEnd r => if S.ptlock = none then some ((S.wakeup r.wakes).setPc p (.release r)) else none
  | .release r => some ((S.leave r).setPc p .idle)
  | .closeAcquire w =>
    if S.lock = none then some ({ S with lock := some p }.setPc p (.closeFlag w)) else none
  | .closeFlag w => some ((S.clearFlag w).setPc p (.closeWake w))
  | .closeWake w =>
    if S.ptlock = none then
      some ((S.wakeup (if w then .nread else .nwrite)).setPc p .closeEnd)
    else none
  | .closeEnd =>
    -- `kfree` if both ends are closed
    some (St.setPc { S with
      lock := none
      freed := S.freed || (!S.pipe.readopen && !S.pipe.writeopen) } p .idle)

/-- One step. -/
def step (S : St n) : Label n → Option (St n)
  | .write p src =>
    match S.pc p with
    | .idle =>
      if S.writeEnd then
        some (St.setPc { S with ncalls := S.ncalls + 1 } p (.acquire (.write S.ncalls src 0)))
      else none
    | _ => none
  | .read p k =>
    match S.pc p with
    | .idle =>
      if S.readEnd then
        some (St.setPc { S with ncalls := S.ncalls + 1 } p (.acquire (.read S.ncalls k)))
      else none
    | _ => none
  | .close p w =>
    match S.pc p with
    | .idle =>
      if (if w then S.writeEnd else S.readEnd) ∧ ∀ q, (S.pc q).usesEnd w = false then
        some ((S.closeFile w).setPc p (.closeAcquire w))
      else none
    | _ => none
  | .kill p => if S.ptlock = none then some (S.kill p) else none
  | .step p => act S p

/-- After `pipealloc`. -/
def St.init (n : Nat) (data : Nat → UInt8) : St n where
  pipe := ⟨⟨data, 0, 0⟩, true, true⟩
  lock := none
  ptlock := none
  status := fun _ => .running
  killed := fun _ => false
  pc := fun _ => .idle
  readEnd := true
  writeEnd := true
  freed := false
  ncalls := 0
  written := []
  readout := []
  finished := []

/-- The pipe and `n` processes. -/
def machine (n : Nat) : Machine (St n) (Label n) where
  init := fun S => ∃ data, S = .init n data
  step := step

/-! ## What a step can do -/

/-- Everything a step can do. -/
inductive Step (S : St n) : Label n → St n → Prop
  | write {p : Fin n} {src : List UInt8} : S.pc p = .idle → S.writeEnd = true →
      Step S (.write p src)
        (St.setPc { S with ncalls := S.ncalls + 1 } p (.acquire (.write S.ncalls src 0)))
  | read {p : Fin n} {k : Nat} : S.pc p = .idle → S.readEnd = true →
      Step S (.read p k) (St.setPc { S with ncalls := S.ncalls + 1 } p (.acquire (.read S.ncalls k)))
  | close {p : Fin n} {w : Bool} : S.pc p = .idle → (if w then S.writeEnd else S.readEnd) = true →
      (∀ q, (S.pc q).usesEnd w = false) →
      Step S (.close p w) ((S.closeFile w).setPc p (.closeAcquire w))
  | kill {p : Fin n} : S.ptlock = none → Step S (.kill p) (S.kill p)
  | acquire {p : Fin n} {c : Call} : S.pc p = .acquire c → S.lock = none →
      Step S (.step p) ({ S with lock := some p }.setPc p (.test c))
  | writeDone {p : Fin n} {id : Nat} {src : List UInt8} {i : Nat} : S.pc p = .test (.write id src i) →
      src.length ≤ i → Step S (.step p) (S.setPc p (.wakeEnd (.write id src i src.length)))
  | writeFail {p : Fin n} {id : Nat} {src : List UInt8} {i : Nat} : S.pc p = .test (.write id src i) →
      i < src.length → S.pipe.ring.isFull = true → S.pipe.readopen = false ∨ S.killed p = true →
      Step S (.step p) (S.setPc p (.release (.write id src i (-1))))
  | writeFull {p : Fin n} {id : Nat} {src : List UInt8} {i : Nat} : S.pc p = .test (.write id src i) →
      S.pipe.ring.isFull = true → S.pipe.readopen = true →
      Step S (.step p) (S.setPc p (.wakeFull id src i))
  | store {p : Fin n} {id : Nat} {src : List UInt8} {i : Nat} {b : UInt8} :
      S.pc p = .test (.write id src i) → src[i]? = some b → S.pipe.ring.isFull = false →
      Step S (.step p) ((S.store id b).setPc p (.test (.write id src (i + 1))))
  | readFail {p : Fin n} {id k : Nat} : S.pc p = .test (.read id k) → S.pipe.ring.isEmpty = true →
      S.pipe.writeopen = true → S.killed p = true →
      Step S (.step p) (S.setPc p (.release (.read id none)))
  | readEmpty {p : Fin n} {id k : Nat} : S.pc p = .test (.read id k) → S.pipe.ring.isEmpty = true →
      S.pipe.writeopen = true → Step S (.step p) (S.setPc p (.sleepAcquire (.read id k)))
  | readCopy {p : Fin n} {id k : Nat} : S.pc p = .test (.read id k) →
      Step S (.step p) (S.setPc p (.copy id k []))
  | wakeFull {p : Fin n} {id : Nat} {src : List UInt8} {i : Nat} : S.pc p = .wakeFull id src i →
      S.ptlock = none → Step S (.step p) ((S.wakeup .nread).setPc p (.sleepAcquire (.write id src i)))
  | sleepAcquire {p : Fin n} {c : Call} : S.pc p = .sleepAcquire c → S.ptlock = none →
      Step S (.step p) ({ S with ptlock := some p }.setPc p (.sleepRelease c))
  | sleepRelease {p : Fin n} {c : Call} : S.pc p = .sleepRelease c →
      Step S (.step p) ({ S with lock := none }.setPc p (.sleepState c))
  | sleepState {p : Fin n} {c : Call} : S.pc p = .sleepState c →
      Step S (.step p) (St.setPc { S with
        ptlock := none
        status := update S.status p (.sleeping c.chan) } p (.asleep c))
  | resume {p : Fin n} {c : Call} : S.pc p = .asleep c → S.status p = .runnable → S.ptlock = none →
      Step S (.step p)
        (St.setPc { S with status := update S.status p .running } p (.acquire c))
  | copy {p : Fin n} {id k : Nat} {got : List UInt8} : S.pc p = .copy id k got →
      S.pipe.ring.isEmpty = false →
      Step S (.step p) ((S.take id).setPc p (.copy id k (got ++ [S.pipe.ring.front])))
  | copied {p : Fin n} {id k : Nat} {got : List UInt8} : S.pc p = .copy id k got →
      Step S (.step p) (S.setPc p (.wakeEnd (.read id (some got))))
  | wakeEnd {p : Fin n} {r : Result} : S.pc p = .wakeEnd r → S.ptlock = none →
      Step S (.step p) ((S.wakeup r.wakes).setPc p (.release r))
  | release {p : Fin n} {r : Result} : S.pc p = .release r →
      Step S (.step p) ((S.leave r).setPc p .idle)
  | closeAcquire {p : Fin n} {w : Bool} : S.pc p = .closeAcquire w → S.lock = none →
      Step S (.step p) ({ S with lock := some p }.setPc p (.closeFlag w))
  | closeFlag {p : Fin n} {w : Bool} : S.pc p = .closeFlag w →
      Step S (.step p) ((S.clearFlag w).setPc p (.closeWake w))
  | closeWake {p : Fin n} {w : Bool} : S.pc p = .closeWake w → S.ptlock = none →
      Step S (.step p) ((S.wakeup (if w then .nread else .nwrite)).setPc p .closeEnd)
  | closeEnd {p : Fin n} : S.pc p = .closeEnd →
      Step S (.step p) (St.setPc { S with
        lock := none
        freed := S.freed || (!S.pipe.readopen && !S.pipe.writeopen) } p .idle)

variable {S T : St n} {p : Fin n}

theorem act_cases (h : act S p = some T) : Step S (.step p) T := by
  unfold act at h
  cases hpc : S.pc p with
  | idle => rw [hpc] at h; cases h
  | test c =>
    cases c with
    | write id src i =>
      simp only [hpc] at h
      split at h
      · rename_i hi
        cases h
        exact .writeDone hpc (List.getElem?_eq_none_iff.mp hi)
      · rename_i b hb
        split at h
        · rename_i hfull
          split at h
          · rename_i hfail
            cases h
            exact .writeFail hpc (List.getElem?_eq_some_iff.mp hb).1 hfull hfail
          · rename_i hfail
            cases h
            refine .writeFull hpc hfull ?_
            cases hr : S.pipe.readopen with
            | true => rfl
            | false => exact absurd (Or.inl hr) hfail
        · rename_i hfull
          cases h
          exact .store hpc hb (Bool.not_eq_true _ ▸ hfull)
    | read id k =>
      simp only [hpc] at h
      split at h
      · rename_i hempty
        split at h
        · rename_i hk
          cases h
          exact .readFail hpc hempty.1 hempty.2 hk
        · cases h
          exact .readEmpty hpc hempty.1 hempty.2
      · cases h
        exact .readCopy hpc
  | asleep c =>
    simp only [hpc, Option.ite_none_right_eq_some] at h
    obtain ⟨⟨hr, hl⟩, ⟨⟩⟩ := h
    exact .resume hpc hr hl
  | copy id k got =>
    simp only [hpc] at h
    split at h
    · rename_i hc
      cases h
      exact .copy hpc hc.2
    · cases h
      exact .copied hpc
  -- with a lock to take
  | acquire _ | wakeFull _ _ _ | sleepAcquire _ | wakeEnd _ | closeAcquire _ | closeWake _ =>
    simp only [hpc, Option.ite_none_right_eq_some] at h
    obtain ⟨hl, ⟨⟩⟩ := h
    constructor <;> assumption
  -- and without
  | sleepRelease _ | sleepState _ | release _ | closeFlag _ | closeEnd =>
    simp only [hpc, Option.some.injEq] at h
    subst h
    constructor
    exact hpc

theorem step_cases {l : Label n} (h : step S l = some T) : Step S l T := by
  cases l with
  | step p => exact act_cases h
  | kill p =>
    simp only [step, Option.ite_none_right_eq_some] at h
    obtain ⟨hl, ⟨⟩⟩ := h
    exact .kill hl
  | write p src =>
    cases hpc : S.pc p <;> simp only [step, hpc, reduceCtorEq] at h
    simp only [Option.ite_none_right_eq_some] at h
    obtain ⟨he, ⟨⟩⟩ := h
    exact .write hpc he
  | read p k =>
    cases hpc : S.pc p <;> simp only [step, hpc, reduceCtorEq] at h
    simp only [Option.ite_none_right_eq_some] at h
    obtain ⟨he, ⟨⟩⟩ := h
    exact .read hpc he
  | close p w =>
    cases hpc : S.pc p <;> simp only [step, hpc, reduceCtorEq] at h
    simp only [Option.ite_none_right_eq_some] at h
    obtain ⟨he, ⟨⟩⟩ := h
    exact .close hpc he.1 he.2

/-! ## Who holds the locks -/

/-- The points between `acquire(&p->lock)` and `release(&p->lock)`. -/
def Pc.locked : Pc → Bool
  | .test _ | .wakeFull .. | .sleepAcquire _ | .sleepRelease _ | .copy .. | .wakeEnd _ | .release _
  | .closeFlag _ | .closeWake _ | .closeEnd => true
  | _ => false

/-- The points of `sleep` at which `ptable.lock` is held. -/
def Pc.tabled : Pc → Bool
  | .sleepRelease _ | .sleepState _ => true
  | _ => false

/-- The locks are held by the processes at the points where they are. -/
structure Excl (S : St n) : Prop where
  lock : ∀ p, S.lock = some p ↔ (S.pc p).locked = true
  ptlock : ∀ p, S.ptlock = some p ↔ (S.pc p).tabled = true

theorem Excl.move {c : Pc} (h : Excl S) (hpc : T.pc = update S.pc p c)
    (hl : Handover p S.lock (S.pc p).locked T.lock c.locked)
    (ht : Handover p S.ptlock (S.pc p).tabled T.ptlock c.tabled) : Excl T where
  lock q := by
    have hq := Handover.excl (f := fun q => (S.pc q).locked) hl h.lock q
    rw [hq, hpc, update_apply, update_apply]
    split <;> rfl
  ptlock q := by
    have hq := Handover.excl (f := fun q => (S.pc q).tabled) ht h.ptlock q
    rw [hq, hpc, update_apply, update_apply]
    split <;> rfl

theorem Excl.step {l : Label n} (h : Excl S) (hs : Step S l T) : Excl T := by
  cases hs with
  | kill _ => exact ⟨h.lock, h.ptlock⟩
  | write hpc _ | read hpc _ | writeDone hpc _ | writeFail hpc _ _ _ | writeFull hpc _ _ | store hpc _ _
  | readFail hpc _ _ _ | readEmpty hpc _ _ | readCopy hpc | wakeFull hpc _ | resume hpc _ _ | copy hpc _
  | copied hpc | wakeEnd hpc _ | closeFlag hpc | closeWake hpc _ | close hpc _ _ =>
    exact h.move rfl (by rw [hpc]; exact .keep _ _) (by rw [hpc]; exact .keep _ _)
  | acquire hpc hl | closeAcquire hpc hl =>
    exact h.move rfl (by rw [hpc, hl]; exact .take) (by rw [hpc]; exact .keep _ _)
  | release hpc | closeEnd hpc | sleepRelease hpc =>
    exact h.move rfl (by rw [hpc]; exact .give _) (by rw [hpc]; exact .keep _ _)
  | sleepAcquire hpc hl =>
    exact h.move rfl (by rw [hpc]; exact .keep _ _) (by rw [hpc, hl]; exact .take)
  | sleepState hpc =>
    exact h.move rfl (by rw [hpc]; exact .keep _ _) (by rw [hpc]; exact .give _)

end Pipe

end Xv6
