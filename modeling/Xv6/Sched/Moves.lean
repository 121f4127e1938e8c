/-
  WHAT A STEP DOES.

  The invariant (`Inv`) says that the local variables of a thread are its own process, that no check of the kernel
  fails, and that `fork` works on a slot nobody else touches.  So a step of the scheduler's machine is one of few
  things:

  1. **`Hop`** — a process goes from one point of its code to the next and leaves the table alone;
  2. **`Move`** — it changes the table: one constructor for each place of `proc.c` that stores into it;
  3. **`SchedMove`** — a CPU in `scheduler()` wakes or runs somebody;
  4. **`OnCpu`, `OnSched`** — what becomes of the lock and of the CPU meanwhile;
  5. **`moves`** — there is nothing else.  That the invariant is kept, and every fact about the table over whole
     runs, is derived from this.

  `Event` is what the callers see: who was created by whom, who exited, whom `wait` returned, what `kill` returned.
-/
import Xv6.Lib.Locks
import Xv6.Sched.Invariant
import Xv6.Sched.Table

namespace Xv6.Sched

open Machines Locks
open Function (update update_self update_of_ne update_eq_self)

/-- What is seen from outside.  Processes are told apart by their numbers (`born`); what they see of each other are
    pids. -/
inductive Event
  /-- `allocproc`, called by `fork` of `parent`, has found a slot for `child`, which gets `pid`. -/
  | create (parent child : Nat) (pid : Int)
  | exit (who : Nat)
  /-- `wait` of `parent` frees `child`, and returns `ret`. -/
  | reap (parent child : Nat) (ret : Int)
  /-- `wait` finds nobody to wait for, and returns -1. -/
  | waitFail (who : Nat)
  /-- `kill(pid)` returns `ret`. -/
  | kill (pid ret : Int)
  /-- `get_parent_pid` of `who` returns `ret`. -/
  | parentPid (who : Nat) (ret : Int)
  deriving DecidableEq

/-- What is seen of a step with the lock held. -/
def Held.event (t : Table) (n : Ids) : Held → Option Event
  | .alloc cur i =>
    if hi : i < NPROC then
      if (t ⟨i, hi⟩).state = .unused then some (.create (t cur).born n.births n.nextpid) else none
    else none
  | .exit cur => some (.exit (t cur).born)
  | .kill pid => some (.kill pid (t.killReturn pid))
  | .wait cur i havekids =>
    if hi : i < NPROC then
      if (t ⟨i, hi⟩).parent = some cur ∧ (t ⟨i, hi⟩).state = .zombie then
        some (.reap (t cur).born (t ⟨i, hi⟩).born (t ⟨i, hi⟩).pid)
      else none
    else if havekids = false ∨ (t cur).killed then some (.waitFail (t cur).born) else none
  | _ => none

def Pc.event (t : Table) (n : Ids) : Pc → Option Event
  | .held k => k.event t n
  | _ => none

/-- The CPU that a label is about. -/
def Label.cpu {nc : Nat} : Label nc → Fin nc
  | .step c _ | .wakeup c _ | .yield c | .call c _ => c

/-- What is seen of a step. -/
def observe {nc : Nat} (S : St nc) (l : Label nc) : Option Event :=
  match (S.cpus l.cpu).exec with
  | none => none
  | some p => (S.pc p).event S.procs S.ids

/-! ## Steps of a process -/

/-- The functions of `proc.c` that process `p` calls. -/
inductive Called (p : Slot) : Held → Prop
  | sleep (ch : Chan) : Called p (.sleep p ch)
  | kill (pid : Int) : Called p (.kill pid)
  | alloc : Called p (.alloc p 0)
  | exit : p ≠ initproc → Called p (.exit p)
  | wait : Called p (.wait p 0 false)

/-- Process `p` goes on, and the table `t` stays as it is. -/
inductive Hop (p : Slot) (t : Table) : Pc → Pc → Prop
  | wakeup (ch : Option Chan) (b : Base) : Hop p t (.base b) (.acquire (.wakeup ch b))
  | yield (b : Base) : Hop p t (.base b) (.acquire (.yield b))
  | call {k : Held} : Called p k → Hop p t (.base .out) (.acquire k)
  | stay : Hop p t (.base .out) (.base .out)
  | initExits : Hop p t (.base .out) .halted
  | ready (np : Slot) : Hop p t (.base (.forkReady np)) (.acquire (.ready np))
  | acquire (k : Held) : Hop p t (.acquire k) (.held k)
  | unlock (b : Base) : Hop p t (.unlock b) (.base b)
  | switch (r : Resume) : Hop p t (.sched r) (.resume r)
  | forkret : Hop p t (.resume .forkret) (.base .out)
  | yielded (b : Base) : Hop p t (.resume (.yield b)) (.base b)
  | allocNext {i : Nat} (hi : i < NPROC) : (t ⟨i, hi⟩).state ≠ .unused →
      Hop p t (.held (.alloc p i)) (.held (.alloc p (i + 1)))
  | allocFail {i : Nat} : ¬ i < NPROC → Hop p t (.held (.alloc p i)) (.unlock .out)
  | waitSkip {i : Nat} {b : Bool} (hi : i < NPROC) : (t ⟨i, hi⟩).parent ≠ some p →
      Hop p t (.held (.wait p i b)) (.held (.wait p (i + 1) b))
  | waitKid {i : Nat} {b : Bool} (hi : i < NPROC) : (t ⟨i, hi⟩).parent = some p → (t ⟨i, hi⟩).state ≠ .zombie →
      Hop p t (.held (.wait p i b)) (.held (.wait p (i + 1) true))
  | waitFail {i : Nat} {b : Bool} : ¬ i < NPROC → b = false ∨ (t p).killed = true →
      Hop p t (.held (.wait p i b)) (.unlock .out)

/-- Process `p` goes on and changes the table, and `nextpid`. -/
inductive Move (p : Slot) (t : Table) (n : Ids) : Pc → Table → Ids → Pc → Prop
  | hop {k k' : Pc} : Hop p t k k' → Move p t n k t n k'
  | wake (ch : Option Chan) (b : Base) : Move p t n (.held (.wakeup ch b)) (t.wakeup1 ch) n (.unlock b)
  | yield (b : Base) :
      Move p t n (.held (.yield b)) (t.modify p fun x => { x with state := .runnable }) n (.sched (.yield b))
  | sleep (ch : Chan) : Move p t n (.held (.sleep p ch))
      (t.modify p fun x => { x with chan := some ch, state := .sleeping }) n (.sched (.sleep p))
  | kill (pid : Int) : Move p t n (.held (.kill pid)) (t.kill pid) n (.unlock .out)
  | alloc {i : Nat} (hi : i < NPROC) : (t ⟨i, hi⟩).state = .unused → Move p t n (.held (.alloc p i))
      (t.modify ⟨i, hi⟩ (.found n)) n.next (.unlock (.forkStack p ⟨i, hi⟩))
  | noStack (np : Slot) : Move p t n (.base (.forkStack p np))
      (t.modify np fun x => { x with kstack := none }) n (.base (.forkUnused np))
  | stack (np : Slot) (a : Nat) : Move p t n (.base (.forkStack p np))
      (t.modify np fun x => { x with kstack := some a }) n (.base (.forkCopy p np))
  | noPages (np : Slot) : Move p t n (.base (.forkCopy p np))
      (t.modify np fun x => { x with pgdir := none }) n (.base (.forkDrop np))
  | pages (np : Slot) (a : Nat) : Move p t n (.base (.forkCopy p np))
      (t.modify np fun x => { x with pgdir := some a }) n (.base (.forkFill p np))
  | drop (np : Slot) : Move p t n (.base (.forkDrop np))
      (t.modify np fun x => { x with kstack := none }) n (.base (.forkUnused np))
  | giveUp (np : Slot) : Move p t n (.base (.forkUnused np))
      (t.modify np fun x => { x with state := .unused }) n (.base .out)
  | fill (np : Slot) : Move p t n (.base (.forkFill p np))
      (t.modify np fun x => { x with parent := some p }) n (.base (.forkReady np))
  | ready (np : Slot) : Move p t n (.held (.ready np))
      (t.modify np fun x => { x with state := .runnable }) n (.unlock .out)
  | exit : Move p t n (.held (.exit p))
      (((t.wakeup1 ((t p).parent.map .proc)).abandon p).modify p fun x => { x with state := .zombie }) n (.sched .exit)
  | reap {i : Nat} {b : Bool} (hi : i < NPROC) : (t ⟨i, hi⟩).parent = some p → (t ⟨i, hi⟩).state = .zombie →
      Move p t n (.held (.wait p i b)) (t.modify ⟨i, hi⟩ .freed) n (.unlock .out)
  | waitSleep {i : Nat} : ¬ i < NPROC → (t p).killed = false → Move p t n (.held (.wait p i true))
      (t.modify p fun x => { x with chan := some (.proc p), state := .sleeping }) n (.sched (.wait p p))
  | slept : Move p t n (.resume (.sleep p)) (t.modify p fun x => { x with chan := none }) n (.base .out)
  | waited : Move p t n (.resume (.wait p p)) (t.modify p fun x => { x with chan := none }) n (.held (.wait p 0 false))
  | exec (a : Nat) : Move p t n (.base .out) (t.modify p fun x => { x with pgdir := some a }) n (.base .out)

/-- A CPU in `scheduler()`. -/
inductive SchedMove (t : Table) : Table → Prop
  | stay : SchedMove t t
  | wake (ch : Option Chan) : SchedMove t (t.wakeup1 ch)
  | run (p : Slot) : (t p).state = .runnable → SchedMove t (t.modify p fun x => { x with state := .running })

variable {nc : Nat} {S T : St nc} {p : Slot} {l : Label nc}

/-- What becomes of CPU `c` and of the lock when process `p` moves. -/
inductive OnCpu (c : Fin nc) (p : Slot) (S T : St nc) : Prop
  /-- The process goes on; it may take the lock or give it back.  `allocproc` ends with a thread at `forkret`. -/
  | stay : T.cpus = S.cpus → Handover c S.lock (S.pc p).locked T.lock (T.pc p).locked →
      (∀ m ∈ T.panicked, m ∈ S.panicked ∨ m = .initExiting) → (∀ r, T.pc p ≠ .resume r) →
      (∀ np, S.pc p = .base (.forkStack p np) → T.pc p = .base (.forkCopy p np) → T.pc np = .resume .forkret) →
      OnCpu c p S T
  /-- `swtch(&p->context, mycpu()->scheduler)` -/
  | leave (r : Resume) : S.pc p = .sched r →
      T = (S.goto p (.resume r)).setCpu c { S.cpus c with exec := none } → OnCpu c p S T

/-- What becomes of CPU `c` and of the lock when its scheduler moves. -/
inductive OnSched (c : Fin nc) (S T : St nc) : Prop
  | stay (x : Cpu) : T.cpus = update S.cpus c x → x.exec = none → CpuOk T.procs x →
      Handover c S.lock (S.cpus c).sched.locked T.lock x.sched.locked → T.panicked = S.panicked →
      (T.procs = S.procs ∨ S.lock = some c ∧ ∃ ch, T.procs = S.procs.wakeup1 ch) → OnSched c S T
  /-- `swtch(&(c->scheduler), p->context)` -/
  | run (p : Slot) : (S.cpus c).sched = .switch p →
      T = (S.setProc p fun x => { x with state := .running }).setCpu c ⟨(S.cpus c).proc, some p, .back p⟩ →
      OnSched c S T

/-- A step of the machine: of a process on a CPU, which may point a new thread at `forkret`, or of a scheduler. -/
inductive Moves (S : St nc) (l : Label nc) (T : St nc) : Prop
  | proc (p : Slot) : (S.cpus l.cpu).exec = some p →
      Move p S.procs S.ids (S.pc p) T.procs T.ids (T.pc p) →
      (∀ q, q ≠ p → T.pc q = S.pc q ∨ (S.procs q).state = .embryo ∧ T.pc q = .resume .forkret) →
      OnCpu l.cpu p S T → Moves S l T
  | sched : (S.cpus l.cpu).exec = none → SchedMove S.procs T.procs → T.pc = S.pc → T.ids = S.ids →
      OnSched l.cpu S T → Moves S l T

/-! ## Steps of the scheduler -/

/-- Points of `scheduler()` with no process in `c->proc`. -/
def SchedPc.free : SchedPc → Bool
  | .switch _ | .back _ => false
  | _ => true

section Scheduler

variable (h : Inv S) (hx : (S.cpus l.cpu).exec = none)
include hx

/-- The scheduler goes to another position, with the table as it is. -/
theorem Moves.turn {L : Option (Fin nc)} {s : SchedPc} (hT : T = { S with lock := L }.setSched l.cpu s)
    (hproc : (S.cpus l.cpu).proc = none) (hs : s.free = true)
    (hlock : Handover l.cpu S.lock (S.cpus l.cpu).sched.locked L s.locked) : Moves S l T := by
  subst hT
  refine .sched hx .stay rfl rfl (.stay _ rfl hx ?_ hlock rfl (.inl rfl))
  simp only [CpuOk, hx]
  cases s with
  | switch | back => cases hs
  | _ => exact hproc

include h

theorem schedStep_moves (hs : schedStep S l.cpu = some T) : Moves S l T := by
  have hl := h.inside_sched hx
  have hcpu := h.cpu l.cpu
  rw [CpuOk, hx] at hcpu
  unfold schedStep at hs
  cases hsc : (S.cpus l.cpu).sched with
  | idle | irqAcquire ch =>
    rw [hsc] at hs hl hcpu
    obtain ⟨hnone, rfl⟩ := acquire_eq (fun hlc => Bool.false_ne_true (hl.mp hlc)) hs
    refine .turn hx rfl hcpu rfl ?_
    rw [hsc, hnone]
    exact .take
  | irqHeld ch =>
    rw [hsc] at hs hl hcpu
    cases hs
    refine .sched hx (.wake ch) rfl rfl (.stay _ rfl hx ?_ ?_ rfl (.inr ⟨hl.mpr rfl, ch, rfl⟩))
    · simpa only [CpuOk, hx] using hcpu
    · rw [hsc]
      exact .keep _ _
  | irqRelease =>
    rw [hsc] at hs hl hcpu
    obtain rfl := release_eq (hl.mpr rfl) hs
    refine .turn hx rfl hcpu rfl ?_
    rw [hsc]
    exact .give _
  | scan i =>
    rw [hsc] at hs hl hcpu
    dsimp only at hs
    split at hs
    · split at hs
      · cases hs
        refine .turn hx rfl hcpu rfl ?_
        rw [hsc]
        exact .keep _ _
      · rename_i hrun
        cases hs
        refine .sched hx .stay rfl rfl (.stay _ rfl rfl ⟨rfl, not_not.mp hrun⟩ ?_ rfl (.inl rfl))
        rw [hsc]
        exact .keep _ _
    · obtain rfl := release_eq (hl.mpr rfl) hs
      refine .turn hx rfl hcpu rfl ?_
      rw [hsc]
      exact .give _
  | switch p =>
    rw [hsc] at hs hcpu
    have hok := h.switchuvm (p := p) (by rw [hcpu.2]; decide) (by rw [hcpu.2]; decide)
    simp only [hok] at hs
    cases hs
    exact .sched hx (.run p hcpu.2) rfl rfl (.run p hsc rfl)
  | back p =>
    rw [hsc] at hs
    cases hs
    refine .sched hx .stay rfl rfl (.stay _ rfl rfl rfl ?_ rfl (.inl rfl))
    rw [hsc]
    exact .keep _ _
  | halted =>
    rw [hsc] at hs
    cases hs

end Scheduler

/-! ## Steps of a process -/

/-- A step that neither leaves the CPU nor makes a thread. -/
def Pc.plain : Pc → Pc → Bool
  | .base (.forkStack ..), .base (.forkCopy ..) | _, .resume _ => false
  | _, _ => true

section Goes

variable {t : Table} {n : Ids} {k k' : Pc}

/-- A process goes from `k` to `k'`, and the other threads stay where they are. -/
theorem Moves.goto {L : Option (Fin nc)} (hx : (S.cpus l.cpu).exec = some p) (hk : S.pc p = k)
    (hm : Move p S.procs S.ids k t n k') (hplain : k.plain k' = true)
    (hlock : Handover l.cpu S.lock k.locked L k'.locked) :
    Moves S l { S with procs := t, ids := n, pc := update S.pc p k', lock := L } := by
  subst hk
  refine .proc p hx ?_ (fun q hq => .inl (update_of_ne hq ..)) (.stay rfl ?_ (fun m hm => .inl hm) ?_ ?_) <;>
    dsimp only <;> rw [update_self]
  · exact hm
  · exact hlock
  · rintro r rfl
    rw [Pc.plain] at hplain
    cases hplain
  · intro np hk hk'
    rw [hk, hk'] at hplain
    cases hplain

/-- It goes on and does not touch the lock. -/
theorem Moves.keep (hx : (S.cpus l.cpu).exec = some p) (hk : S.pc p = k)
    (hm : Move p S.procs S.ids k t n k') (hplain : k.plain k' = true) (hl : k'.locked = k.locked) :
    Moves S l { S with procs := t, ids := n, pc := update S.pc p k' } := by
  refine .goto hx hk hm hplain ?_
  rw [hl]
  exact .keep _ _

end Goes

section Process

variable {mem : Option Nat} (h : Inv S) (hx : (S.cpus l.cpu).exec = some p)
include h hx

theorem baseStep_moves {b : Base} (hpc : S.pc p = .base b) (hs : baseStep S p mem b = some T) : Moves S l T := by
  have hown : ∀ q, q ∈ b.cur → q = p := fun q hq => h.cur p q (by rw [hpc]; exact hq)
  cases b with
  | out => cases hs
  | forkStack cur np =>
    obtain rfl := hown cur (List.mem_singleton_self cur)
    cases mem with
    | none =>
      cases hs
      exact .keep hx hpc (.noStack np) rfl rfl
    | some a =>
      cases hs
      have hchild : (S.procs np).state = .embryo := (h.child cur (np, .bare) (by rw [hpc]; rfl)).embryo
      have hne : np ≠ cur := fun heq => h.embryo_idle hchild ⟨_, heq ▸ hx⟩
      refine .proc cur hx ?_ (fun q hq => ?_) (.stay rfl ?_ (fun m hm => .inl hm) ?_ ?_) <;>
        simp only [St.goto, update_self]
      · rw [hpc]
        exact .stack np a
      · rw [update_of_ne hq]
        rcases eq_or_ne q np with rfl | hqn
        · exact .inr ⟨hchild, update_self ..⟩
        · exact .inl (update_of_ne hqn ..)
      · rw [hpc]
        exact .keep _ _
      · intro r hr
        cases hr
      · intro np' hk hk'
        cases hk'
        rw [update_of_ne hne, update_self]
  | forkCopy cur np =>
    obtain rfl := hown cur (List.mem_singleton_self cur)
    cases mem with
    | none =>
      cases hs
      exact .keep hx hpc (.noPages np) rfl rfl
    | some a =>
      cases hs
      exact .keep hx hpc (.pages np a) rfl rfl
  | forkDrop np =>
    cases hs
    exact .keep hx hpc (.drop np) rfl rfl
  | forkUnused np =>
    cases hs
    exact .keep hx hpc (.giveUp np) rfl rfl
  | forkFill cur np =>
    obtain rfl := hown cur (List.mem_singleton_self cur)
    cases hs
    exact .keep hx hpc (.fill np) rfl rfl
  | forkReady np =>
    cases hs
    exact .keep hx hpc (.hop (.ready np)) rfl rfl

theorem heldStep_moves {k : Held} (hpc : S.pc p = .held k) (hs : heldStep S l.cpu p k = some T) : Moves S l T := by
  have hown : ∀ q, q ∈ k.cur → q = p := fun q hq => h.cur p q (by rw [hpc]; exact hq)
  have hproc := h.proc hx
  cases k with
  | wakeup ch b =>
    cases hs
    exact .keep hx hpc (.wake ch b) rfl rfl
  | yield b =>
    simp only [heldStep, hproc] at hs
    cases hs
    exact .keep hx hpc (.yield b) rfl rfl
  | sleep q ch =>
    obtain rfl := hown q (List.mem_singleton_self q)
    cases hs
    exact .keep hx hpc (.sleep ch) rfl rfl
  | kill pid =>
    cases hs
    exact .keep hx hpc (.kill pid) rfl rfl
  | alloc cur i =>
    obtain rfl := hown cur (List.mem_singleton_self cur)
    unfold heldStep at hs
    dsimp only at hs
    split at hs
    · rename_i hi
      split at hs
      · rename_i hu
        cases hs
        exact .keep hx hpc (.alloc hi hu) rfl rfl
      · rename_i hu
        cases hs
        exact .keep hx hpc (.hop (.allocNext hi hu)) rfl rfl
    · rename_i hi
      cases hs
      exact .keep hx hpc (.hop (.allocFail hi)) rfl rfl
  | ready np =>
    cases hs
    exact .keep hx hpc (.ready np) rfl rfl
  | exit cur =>
    obtain rfl := hown cur (List.mem_singleton_self cur)
    cases hs
    refine .keep hx hpc ?_ rfl rfl
    simp only [St.setProc]
    exact .exit
  | wait cur i havekids =>
    obtain rfl := hown cur (List.mem_singleton_self cur)
    simp only [heldStep, hproc] at hs
    split at hs
    · rename_i hi
      split at hs
      · rename_i hparent
        cases hs
        exact .keep hx hpc (.hop (.waitSkip hi hparent)) rfl rfl
      · rename_i hparent
        split at hs
        · rename_i hz
          cases hs
          exact .keep hx hpc (.reap hi (not_not.mp hparent) hz) rfl rfl
        · rename_i hz
          cases hs
          exact .keep hx hpc (.hop (.waitKid hi (not_not.mp hparent) hz)) rfl rfl
    · rename_i hi
      split at hs
      · rename_i hfail
        cases hs
        exact .keep hx hpc (.hop (.waitFail hi hfail)) rfl rfl
      · rename_i hsleep
        rw [not_or, Bool.not_eq_false, Bool.not_eq_true] at hsleep
        obtain ⟨rfl, hkilled⟩ := hsleep
        cases hs
        exact .keep hx hpc (.waitSleep hi hkilled) rfl rfl

theorem procStep_moves (hs : procStep S l.cpu p mem = some T) : Moves S l T := by
  have hl := h.inside_exec hx
  have hact := h.active hx
  have hown : ∀ q, q ∈ (S.pc p).cur → q = p := h.cur p
  unfold procStep at hs
  cases hpc : S.pc p with
  | base b =>
    rw [hpc] at hs
    exact baseStep_moves h hx hpc hs
  | held k =>
    rw [hpc] at hs
    exact heldStep_moves h hx hpc hs
  | acquire k =>
    rw [hpc] at hs hl
    obtain ⟨hnone, rfl⟩ := acquire_eq (fun hlc => Bool.false_ne_true (hl.mp hlc)) hs
    refine .goto hx hpc (.hop (.acquire k)) rfl ?_
    rw [hnone]
    exact .take
  | unlock b =>
    rw [hpc] at hs hl
    obtain rfl := release_eq (hl.mpr rfl) hs
    exact .goto hx hpc (.hop (.unlock b)) rfl (.give _)
  | sched r =>
    rw [hpc] at hs hl hact
    have hparked : ¬ (S.procs p).state = .running := by
      rw [hact]
      cases r <;> nofun
    have hlc : ¬ S.lock ≠ some l.cpu := not_not.mpr (hl.mpr rfl)
    have hproc := h.proc hx
    simp only [Sched.sched, hproc, if_neg hlc, if_neg hparked] at hs
    cases hs
    refine .proc p hx ?_ (fun q hq => .inl (update_of_ne hq ..)) (.leave r hpc (by simp only [hproc]))
    simp only [St.setCpu, St.goto, update_self]
    rw [hpc]
    exact .hop (.switch r)
  | resume r =>
    rw [hpc] at hs hl hown
    cases r with
    | forkret =>
      obtain rfl := release_eq (hl.mpr rfl) hs
      exact .goto hx hpc (.hop .forkret) rfl (.give _)
    | yield b =>
      obtain rfl := release_eq (hl.mpr rfl) hs
      exact .goto hx hpc (.hop (.yielded b)) rfl (.give _)
    | sleep q =>
      obtain rfl : q = p := hown q (List.mem_singleton_self q)
      obtain rfl := release_eq (S := S.setProc q _) (hl.mpr rfl) hs
      exact .goto hx hpc .slept rfl (.give _)
    | wait cur q =>
      obtain rfl : q = p := hown q (List.mem_cons_of_mem _ (List.mem_singleton_self q))
      obtain rfl : cur = q := hown cur List.mem_cons_self
      cases hs
      exact .keep hx hpc .waited rfl rfl
    | exit => exact absurd hpc (h.alive p ⟨l.cpu, hx⟩)
  | halted =>
    rw [hpc] at hs
    cases hs

theorem enter_moves {f : Call} (hpc : S.pc p = .base .out) (hT : T = enter S l.cpu p p f) : Moves S l T := by
  have hrun : (S.procs p).state = .running := by rw [h.active hx, hpc]; rfl
  have hstay : S.pc = update S.pc p (.base .out) := by rw [← hpc, update_eq_self]
  subst hT
  cases f with
  | sleep ch => exact .keep hx hpc (.hop (.call (.sleep ch))) rfl rfl
  | kill pid => exact .keep hx hpc (.hop (.call (.kill pid))) rfl rfl
  | fork => exact .keep hx hpc (.hop (.call .alloc)) rfl rfl
  | wait => exact .keep hx hpc (.hop (.call .wait)) rfl rfl
  | exit =>
    unfold enter
    dsimp only
    split
    · simp only [St.halt, hx]
      have hpan : ∀ m ∈ S.panicked ++ [.initExiting], m ∈ S.panicked ∨ m = .initExiting :=
        fun m hm => (List.mem_append.mp hm).imp_right List.mem_singleton.mp
      refine .proc p hx ?_ (fun q hq => .inl (update_of_ne hq ..)) (.stay rfl ?_ hpan ?_ ?_) <;>
        simp only [St.goto, update_self]
      · rw [hpc]
        exact .hop .initExits
      · rw [hpc]
        exact .keep _ _
      · intro r hr
        cases hr
      · intro np _ hk'
        cases hk'
    · rename_i hne
      exact .keep hx hpc (.hop (.call (.exit hne))) rfl rfl
  | exec a =>
    have hok : (S.setProc p fun x => { x with pgdir := some a }).switchuvm (some p) = none := by
      have hmade := (h.slot p).made (by rw [hrun]; decide) (by rw [hrun]; decide)
      simp [St.switchuvm, St.setProc, Table.modify, hmade.1]
    simp only [enter, hok]
    have hm := Moves.keep hx hpc (.exec a) rfl rfl
    rw [← hstay] at hm
    exact hm
  | grow =>
    have hok := h.switchuvm (p := p) (by rw [hrun]; decide) (by rw [hrun]; decide)
    simp only [enter, hok]
    have hm := Moves.keep hx hpc (.hop .stay) rfl rfl
    rw [← hstay] at hm
    exact hm

end Process

/-- **What a step does.**  There is nothing else. -/
theorem moves (h : Inv S) (hs : (machine nc).step S l = some T) : Moves S l T := by
  replace hs : step S l = some T := hs
  cases hx : (S.cpus l.cpu).exec with
  | none =>
    cases l with
    | step c mem =>
      simp only [step, show (S.cpus c).exec = none from hx] at hs
      exact schedStep_moves h hx hs
    | wakeup c ch =>
      simp only [step, show (S.cpus c).exec = none from hx] at hs
      split at hs
      · rename_i hidle
        cases hs
        have hcpu := h.cpu c
        rw [CpuOk, show (S.cpus c).exec = none from hx, hidle] at hcpu
        refine .turn hx rfl hcpu rfl ?_
        rw [show (S.cpus (Label.wakeup c ch).cpu).sched = .idle from hidle]
        exact .keep _ _
      · cases hs
    | yield c | call c f =>
      simp only [step, show (S.cpus c).exec = none from hx] at hs
      cases hs
  | some p =>
    cases l with
    | step c mem =>
      simp only [step, show (S.cpus c).exec = some p from hx] at hs
      exact procStep_moves h hx hs
    | wakeup c ch =>
      simp only [step, show (S.cpus c).exec = some p from hx] at hs
      split at hs
      · rename_i b hpc
        cases hs
        exact .keep hx hpc (.hop (.wakeup ch b)) (by cases b <;> rfl) rfl
      · cases hs
    | yield c =>
      simp only [step, show (S.cpus c).exec = some p from hx, show (S.cpus c).proc = some p from h.proc hx] at hs
      split at hs
      · rename_i b hpc
        simp only [Option.ite_none_right_eq_some, Option.some.injEq] at hs
        obtain ⟨-, rfl⟩ := hs
        exact .keep hx hpc (.hop (.yield b)) (by cases b <;> rfl) rfl
      · cases hs
    | call c f =>
      simp only [step, show (S.cpus c).exec = some p from hx, show (S.cpus c).proc = some p from h.proc hx] at hs
      split at hs
      · rename_i hpc
        exact enter_moves h hx hpc (Option.some.inj hs).symm
      · cases hs

end Xv6.Sched
