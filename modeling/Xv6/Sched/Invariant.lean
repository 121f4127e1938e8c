/-
  WHAT HOLDS OF THE SCHEDULER.

  1. **What a thread's position says** — whether its CPU holds `ptable.lock` (`locked`), which state its process
     must be in (`expects`: RUNNING, except between the change of state and the `swtch` in `sched`), and which
     child it is building (`child`), however deep in an interrupt it is.
  2. **The invariant** (`Inv`) — per CPU, per slot, and per child.
  3. **In one state** — what follows from it before anything moves: who has the lock, who is executed, and that
     neither `acquire` nor `release` nor `switchuvm` panics.

  The states of a process that is about to leave its CPU (still `c->proc`, no more RUNNING) exist only with the
  lock held, by that very CPU; this is where the lock handed across `swtch` is used.
-/
import Xv6.Sched.Steps

namespace Xv6.Sched

variable {nc : Nat} {S T : St nc} {c d : Fin nc} {p q np : Slot} {k : Pc}

/-! ## What a position says -/

/-- Does a thread hold the lock here? -/
def Pc.locked : Pc → Bool
  | .held _ | .unlock _ | .sched _ | .resume _ => true
  | _ => false

/-- Does `scheduler()` hold it here? -/
def SchedPc.locked : SchedPc → Bool
  | .irqHeld _ | .irqRelease | .scan _ | .switch _ | .back _ => true
  | _ => false

/-- Is the CPU at a point where it holds the lock? -/
def St.inside (S : St nc) (c : Fin nc) : Bool :=
  match (S.cpus c).exec with
  | none => (S.cpus c).sched.locked
  | some p => (S.pc p).locked

/-- The state in which a process enters `sched`. -/
def Resume.parked : Resume → State
  | .forkret | .yield _ => .runnable
  | .sleep _ | .wait .. => .sleeping
  | .exit => .zombie

/-- The state of a process that is executed at this point. -/
def Pc.expects : Pc → State
  | .sched r => r.parked
  | _ => .running

/-- What a child of `fork` has. -/
inductive Stage
  | bare
  | stacked
  | paged
  deriving DecidableEq

/-- The child that is being built. -/
def Base.child : Base → Option (Slot × Stage)
  | .out => none
  | .forkStack _ np | .forkUnused np => some (np, .bare)
  | .forkCopy _ np | .forkDrop np => some (np, .stacked)
  | .forkFill _ np | .forkReady np => some (np, .paged)

def Held.child : Held → Option (Slot × Stage)
  | .wakeup _ b | .yield b => b.child
  | .ready np => some (np, .paged)
  | _ => none

def Resume.child : Resume → Option (Slot × Stage)
  | .yield b => b.child
  | _ => none

def Pc.child : Pc → Option (Slot × Stage)
  | .base b | .unlock b => b.child
  | .acquire k | .held k => k.child
  | .sched r | .resume r => r.child
  | .halted => none

/-- What the thread has in its variables as the current process. -/
def Base.cur : Base → List Slot
  | .forkStack cur _ | .forkCopy cur _ | .forkFill cur _ => [cur]
  | _ => []

def Held.cur : Held → List Slot
  | .wakeup _ b | .yield b => b.cur
  | .sleep p _ => [p]
  | .alloc cur _ | .exit cur | .wait cur _ _ => [cur]
  | _ => []

def Resume.cur : Resume → List Slot
  | .yield b => b.cur
  | .sleep p => [p]
  | .wait cur p => [cur, p]
  | _ => []

def Pc.cur : Pc → List Slot
  | .base b | .unlock b => b.cur
  | .acquire k | .held k => k.cur
  | .sched r | .resume r => r.cur
  | .halted => []

/-! ## The invariant -/

/-- Some CPU is on the kernel stack of `p`. -/
def St.Executing (S : St nc) (p : Slot) : Prop := ∃ c, (S.cpus c).exec = some p

/-- A slot, the position of its thread, and whether it is executed. -/
structure SlotOk (x : Prop) (a : Proc) (k : Pc) : Prop where
  active : x → a.state = k.expects
  parked : ¬ x → a.state ≠ .running
  ready : ¬ x → a.state = .runnable ∨ a.state = .sleeping → ∃ r, k = .resume r ∧ r ≠ .exit
  idle : ¬ x → a.state ≠ .runnable → a.state ≠ .sleeping → k.child = none
  made : a.state ≠ .unused → a.state ≠ .embryo → a.kstack ≠ none ∧ a.pgdir ≠ none

/-- A slot that is some `fork`'s child. -/
structure ChildOk (s : Stage) (a : Proc) (k : Pc) : Prop where
  embryo : a.state = .embryo
  stack : s ≠ .bare → a.kstack ≠ none ∧ k = .resume .forkret
  pages : s = .paged → a.pgdir ≠ none

/-- A CPU: what `c->proc` is. -/
def CpuOk (t : Table) (x : Cpu) : Prop :=
  match x.exec, x.sched with
  | some p, s => x.proc = some p ∧ ∃ i, s = .back i
  | none, .switch p => x.proc = some p ∧ (t p).state = .runnable
  | none, .back _ => True
  | none, _ => x.proc = none

theorem CpuOk.mono {t t' : Table} {x : Cpu} (h : CpuOk t x) (ht : ∀ p, x.exec = none →
    x.sched = .switch p → (t p).state = .runnable → (t' p).state = .runnable) : CpuOk t' x := by
  obtain ⟨pr, _ | r, s⟩ := x
  · cases s with
    | switch i => exact ⟨h.1, ht i rfl rfl h.2⟩
    | _ => exact h
  · exact h

/-- **The invariant.** -/
structure Inv (S : St nc) : Prop where
  /-- The holder of the lock is at a point where it has it, and nobody else is. -/
  lock : ∀ c, S.lock = some c ↔ S.inside c = true
  cpu : ∀ c, CpuOk S.procs (S.cpus c)
  alone : ∀ c d p, (S.cpus c).exec = some p → (S.cpus d).exec = some p → c = d
  slot : ∀ p, SlotOk (S.Executing p) (S.procs p) (S.pc p)
  /-- Nobody comes back from the `sched` of `exit`. -/
  alive : ∀ p, S.Executing p → S.pc p ≠ .resume .exit
  child : ∀ p m, (S.pc p).child = some m → ChildOk m.2 (S.procs m.1) (S.pc m.1)
  /-- No two threads build the same child. -/
  sole : ∀ p q n s s', (S.pc p).child = some (n, s) → (S.pc q).child = some (n, s') → p = q
  /-- The current process, in the variables of a thread, is its own. -/
  cur : ∀ p q, q ∈ (S.pc p).cur → q = p
  panics : ∀ m ∈ S.panicked, m = .initExiting

/-! ## In one state -/

theorem Pc.expects_ne_embryo (k : Pc) : k.expects ≠ .embryo := by
  rcases k with _ | _ | _ | _ | (_ | _ | _ | _ | _) | _ | _ <;> nofun

theorem Pc.expects_ne_unused (k : Pc) : k.expects ≠ .unused := by
  rcases k with _ | _ | _ | _ | (_ | _ | _ | _ | _) | _ | _ <;> nofun

/-- Only the holder of the lock executes a process that is not RUNNING. -/
theorem Pc.locked_of_expects (h : k.expects ≠ .running) : k.locked = true := by
  cases k with
  | sched r => rfl
  | _ => exact absurd rfl h

namespace Inv

variable (h : Inv S)

include h

/-- A process that has its stack and pages passes `switchuvm`. -/
theorem switchuvm (hu : (S.procs p).state ≠ .unused) (he : (S.procs p).state ≠ .embryo) :
    S.switchuvm (some p) = none := by
  obtain ⟨hk, hp⟩ := (h.slot p).made hu he
  simp only [St.switchuvm, hk, hp, if_false]

theorem embryo_idle (hs : (S.procs q).state = .embryo) : ¬ S.Executing q := by
  rintro ⟨c, hc⟩
  exact Pc.expects_ne_embryo _ (((h.slot q).active ⟨c, hc⟩).symm.trans hs)

/-- A slot that is no embryo is nobody's child. -/
theorem no_parent (hs : (S.procs np).state ≠ .embryo) (q : Slot) (s : Stage) : (S.pc q).child ≠ some (np, s) :=
  fun hq => hs (h.child q _ hq).embryo

theorem inside_sched (hx : (S.cpus c).exec = none) : S.lock = some c ↔ (S.cpus c).sched.locked = true := by
  rw [h.lock c, St.inside, hx]

section Executed

variable (hx : (S.cpus c).exec = some p)

include hx

theorem active : (S.procs p).state = (S.pc p).expects := (h.slot p).active ⟨c, hx⟩

theorem proc : (S.cpus c).proc = some p := by
  have hc := h.cpu c
  rw [CpuOk, hx] at hc
  exact hc.1

theorem inside_exec : S.lock = some c ↔ (S.pc p).locked = true := by rw [h.lock c, St.inside, hx]

theorem made_self : (S.procs p).kstack ≠ none ∧ (S.procs p).pgdir ≠ none :=
  (h.slot p).made (by rw [h.active hx]; exact Pc.expects_ne_unused _)
    (by rw [h.active hx]; exact Pc.expects_ne_embryo _)

/-- With the lock held by one CPU, what the others execute is RUNNING. -/
theorem running (hl : S.lock = some d) (hne : c ≠ d) : (S.procs p).state = .running := by
  rw [h.active hx]
  by_contra hr
  have hc := (h.inside_exec hx).mpr (Pc.locked_of_expects hr)
  exact hne (Option.some.inj (hc.symm.trans hl))

end Executed

/-- With the lock held by a CPU, a process that this CPU is not on and that is not RUNNING is not executed. -/
theorem not_executing (hl : S.lock = some c) (hc : (S.cpus c).exec ≠ some q)
    (hs : (S.procs q).state ≠ .running) : ¬ S.Executing q := by
  rintro ⟨d, hd⟩
  have hne : d ≠ c := by
    rintro rfl
    exact hc hd
  exact hs (h.running hd hl hne)

end Inv

theorem acquire_eq {f : St nc → St nc} (hl : S.lock ≠ some c) (hs : S.acquire c f = some T) :
    S.lock = none ∧ T = f { S with lock := some c } := by
  unfold St.acquire at hs
  split at hs
  · rename_i hnone
    exact ⟨hnone, (Option.some.inj hs).symm⟩
  · rename_i d hd
    split at hs
    · rename_i heq
      exact absurd (heq ▸ hd) hl
    · cases hs

theorem release_eq {f : St nc → St nc} (hl : S.lock = some c) (hs : S.release c f = some T) :
    T = f { S with lock := none } := by
  unfold St.release at hs
  rw [if_pos hl] at hs
  exact (Option.some.inj hs).symm

end Xv6.Sched
