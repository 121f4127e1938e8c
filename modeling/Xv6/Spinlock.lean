/-
  SPIN-LOCKS (spinlock.c) and the interrupt flag, on any number of CPUs.

  `acquire` takes a lock with `xchg` and writes `lk->cpu` afterwards; `release` clears `lk->cpu` before
  `lk->locked`; and `holding` reads the two fields one after the other.  Every access to a lock is a step, so
  the other CPUs can do anything in between.  What a CPU does to `ncli`, `intena` and its interrupt flag between
  two accesses is seen by nobody else, and interrupts come to a CPU that is in none of these functions.

  1. **`Rep`** — whose a lock is, also while `lk->cpu` does not say so; a step of a CPU is nothing to the
     others (`Rep.move`).
  2. **`locks_exclusive`** — a lock has one owner; `acquire` and `release` panic just when they should.
-/
import Xv6.Lib.Machine
import Xv6.Param

namespace Xv6.Spin

open Machines Machine
open Function (update update_self update_of_ne update_apply)

/-- The panics of `spinlock.c`. -/
inductive Panic (ι : Type)
  | acquire (l : ι)
  | release (l : ι)
  /-- "popcli - interruptible" -/
  | interruptible
  | popcli

/-- Where a CPU is in `acquire` or `release`. -/
inductive Pc (ι : Type)
  /-- in none of these functions -/
  | out
  /-- `holding`, in `acquire` or in `release`: read `lk->locked` -/
  | loadLocked (acquiring : Bool) (l : ι)
  /-- `holding`: read `lk->cpu` -/
  | loadCpu (acquiring : Bool) (l : ι)
  /-- `while(xchg(&lk->locked, 1) != 0)` -/
  | xchg (l : ι)
  /-- `lk->cpu = mycpu()` -/
  | setCpu (l : ι)
  /-- `lk->cpu = 0` -/
  | clearCpu (l : ι)
  /-- `lk->locked = 0` -/
  | clearLocked (l : ι)
  /-- the `popcli` of `release` -/
  | pop
  | panicked (e : Panic ι)

/-- `struct cpu`, with the interrupt flag of the processor. -/
structure Cpu (ι : Type) where
  flag : Bool
  ncli : Int
  intena : Bool
  pc : Pc ι

/-- The locks, by name, and the CPUs. -/
structure St (n : Nat) (ι : Type) where
  locked : ι → Bool
  /-- `lk->cpu` -/
  owner : ι → Option (Fin n)
  cpu : Fin n → Cpu ι

variable {n : Nat} {ι : Type}

namespace Cpu

variable (x : Cpu ι)

/-- Interrupts off; `intena` keeps what they were before the first. -/
def pushcli : Cpu ι :=
  { x with flag := false, ncli := cInt (x.ncli + 1), intena := if x.ncli = 0 then x.flag else x.intena }

/-- `popcli`, and on to `k` -/
def popcli (k : Pc ι) : Cpu ι :=
  let ncli := cInt (x.ncli - 1)
  if x.flag then { x with pc := .panicked .interruptible }
  else if ncli < 0 then { x with ncli := ncli, pc := .panicked .popcli }
  else { x with ncli := ncli, flag := decide (ncli = 0) && x.intena, pc := k }

/-- `holding` returns `r` to `acquire` or to `release`. -/
def held (acquiring : Bool) (l : ι) (r : Bool) : Cpu ι :=
  x.popcli <| match acquiring, r with
    | true, true => .panicked (.acquire l)
    | true, false => .xchg l
    | false, true => .clearCpu l
    | false, false => .panicked (.release l)

end Cpu

/-- What a CPU can do when it is in none of the calls. -/
inductive Call (ι : Type)
  | acquire (l : ι)
  | release (l : ι)
  | pushcli
  | popcli
  /-- `cli`, `sti`, an interrupt, or the return from one -/
  | setFlag (b : Bool)
  /-- `mycpu()->intena = intena` in `sched` -/
  | setIntena (b : Bool)

/-- What a call does before its first access to a lock. -/
def Cpu.enter (x : Cpu ι) : Call ι → Cpu ι
  | .acquire l => { x.pushcli.pushcli with pc := .loadLocked true l }
  | .release l => { x.pushcli with pc := .loadLocked false l }
  | .pushcli => x.pushcli
  | .popcli => x.popcli .out
  | .setFlag b => { x with flag := b }
  | .setIntena b => { x with intena := b }

inductive Label (n : Nat) (ι : Type)
  | call (c : Fin n) (f : Call ι)
  | step (c : Fin n)

/-- What its next step does to CPU `c`. -/
def St.goOn (S : St n ι) (c : Fin n) : Cpu ι :=
  let x := S.cpu c
  match x.pc with
  | .loadLocked a l => if S.locked l then { x with pc := .loadCpu a l } else x.held a l false
  | .loadCpu a l => x.held a l (S.owner l = some c)
  | .xchg l => { x with pc := .setCpu l }
  | .setCpu _ => { x with pc := .out }
  | .clearCpu l => { x with pc := .clearLocked l }
  | .clearLocked _ => { x with pc := .pop }
  | .pop => x.popcli .out
  | .out | .panicked _ => x

def St.put (S : St n ι) (c : Fin n) (x : Cpu ι) : St n ι := { S with cpu := update S.cpu c x }

variable [DecidableEq ι]

/-- The step, with what it does to the lock. -/
def next (S : St n ι) (c : Fin n) : Option (St n ι) :=
  let T := S.put c (S.goOn c)
  match (S.cpu c).pc with
  | .loadLocked _ _ | .loadCpu _ _ | .pop => some T
  | .xchg l => if S.locked l then none else some { T with locked := update S.locked l true }
  | .setCpu l => some { T with owner := update S.owner l (some c) }
  | .clearCpu l => some { T with owner := update S.owner l none }
  | .clearLocked l => some { T with locked := update S.locked l false }
  | .out | .panicked _ => none

/-- A call, or the next step in one. -/
def step (S : St n ι) : Label n ι → Option (St n ι)
  | .call c f =>
    match (S.cpu c).pc with
    | .out => some (S.put c ((S.cpu c).enter f))
    | _ => none
  | .step c => next S c

/-- After `initlock` of all locks. -/
def St.init (n : Nat) (ι : Type) : St n ι :=
  ⟨fun _ => false, fun _ => none, fun _ => ⟨false, 0, false, .out⟩⟩

def machine (n : Nat) (ι : Type) [DecidableEq ι] : Machine (St n ι) (Label n ι) where
  init S := S = .init n ι
  step := step

variable {S T : St n ι} {c : Fin n} {k : Pc ι} {x : Cpu ι} {f : Call ι} {i : Label n ι}
variable {own own' owner : ι → Option (Fin n)} {locked : ι → Bool}

/-! ## Whose a lock is -/

/-- A lock is a CPU's from its `xchg` to its `movl $0`. -/
def Owns (S : St n ι) (c : Fin n) (l : ι) : Prop :=
  S.owner l = some c ∨ (S.cpu c).pc = .setCpu l ∨ (S.cpu c).pc = .clearLocked l

/-- The lock that a CPU owns while `lk->cpu` does not say so. -/
def Pc.unsigned : Pc ι → Option ι
  | .setCpu l | .clearLocked l => some l
  | _ => none

/-- What CPU `c` can rely on at a point. -/
def Fits (own owner : ι → Option (Fin n)) (c : Fin n) : Pc ι → Prop
  | .xchg l | .panicked (.release l) => own l ≠ some c
  | .panicked (.acquire l) => own l = some c
  | .clearCpu l => owner l = some c
  | .clearLocked l => owner l ≠ some c
  | _ => True

/-- The locks are `own`'s. -/
structure Rep (own : ι → Option (Fin n)) (S : St n ι) : Prop where
  locked : ∀ l, S.locked l = (own l).isSome
  owns : ∀ c l, own l = some c ↔ S.owner l = some c ∨ (S.cpu c).pc.unsigned = some l
  fits : ∀ c, Fits own S.owner c (S.cpu c).pc

omit [DecidableEq ι]

theorem owns_iff {l : ι} : Owns S c l ↔ S.owner l = some c ∨ (S.cpu c).pc.unsigned = some l := by
  unfold Owns
  cases (S.cpu c).pc <;> simp [Pc.unsigned]

/-- `popcli` goes on, or panics. -/
theorem Cpu.popcli_pc {P : Pc ι → Prop} (hk : P k) (hi : P (.panicked .interruptible))
    (hp : P (.panicked .popcli)) : P (x.popcli k).pc := by
  unfold Cpu.popcli
  dsimp only
  split_ifs
  exacts [hi, hp, hk]

/-- What CPU `c` does to its own locks is nothing to the others. -/
theorem Rep.move (h : Rep own S) (hlocked : ∀ l, locked l = (own' l).isSome)
    (hothers : ∀ d ≠ c, ∀ l, (own' l = some d ↔ own l = some d) ∧ (owner l = some d ↔ S.owner l = some d))
    (howns : ∀ l, own' l = some c ↔ owner l = some c ∨ x.pc.unsigned = some l)
    (hfits : Fits own' owner c x.pc) : Rep own' ⟨locked, owner, update S.cpu c x⟩ := by
  refine ⟨hlocked, fun d l => ?_, fun d => ?_⟩ <;> dsimp only <;> by_cases hd : d = c
  · rw [hd, update_self]
    exact howns l
  · rw [update_of_ne hd, (hothers d hd l).1, (hothers d hd l).2]
    exact h.owns d l
  · rw [hd, update_self]
    exact hfits
  · have hold := h.fits d
    rw [update_of_ne hd]
    unfold Fits at hold ⊢
    split <;> simp_all only [ne_eq, not_false_eq_true]

/-- A step that leaves the locks alone. -/
theorem Rep.put (h : Rep own S) (hpc : (S.cpu c).pc.unsigned = none) (hx : x.pc.unsigned = none)
    (hfits : Fits own S.owner c x.pc) : Rep own (S.put c x) := by
  refine h.move h.locked (fun _ _ _ => ⟨.rfl, .rfl⟩) (fun l => ?_) hfits
  rw [h.owns c l, hpc, hx]

theorem Rep.popcli (h : Rep own S) (hpc : (S.cpu c).pc.unsigned = none) (hk : k.unsigned = none)
    (hfits : Fits own S.owner c k) : Rep own (S.put c ((S.cpu c).popcli k)) := by
  refine h.put hpc ?_ ?_
  · exact Cpu.popcli_pc (P := (·.unsigned = none)) hk rfl rfl
  · exact Cpu.popcli_pc (P := Fits own S.owner c) hfits trivial trivial

/-- A call does nothing to the locks yet. -/
theorem Rep.enter (h : Rep own S) (hpc : (S.cpu c).pc = .out) :
    Rep own (S.put c ((S.cpu c).enter f)) := by
  have hout : (S.cpu c).pc.unsigned = none := by rw [hpc]; rfl
  cases f with
  | acquire l | release l => exact h.put hout rfl trivial
  | popcli => exact h.popcli hout rfl trivial
  | pushcli | setFlag b | setIntena b => exact h.put hout hout (h.fits c)

/-- `holding` is right: it returns whether `lk->cpu` is this CPU, or false if nobody has the lock. -/
theorem Rep.held {a r : Bool} {l : ι} (h : Rep own S) (hpc : (S.cpu c).pc.unsigned = none)
    (hr : r = true ↔ S.owner l = some c) : Rep own (S.put c ((S.cpu c).held a l r)) := by
  have hown : own l = some c ↔ r = true := by
    rw [h.owns c l, hpc, hr]
    exact or_iff_left (Option.some_ne_none l).symm
  refine h.popcli hpc ?_ ?_ <;> cases a <;> cases r
  case refine_2.false.true => exact hr.mp rfl
  case refine_2.true.true => exact hown.mpr rfl
  case refine_2.false.false | refine_2.true.false => exact fun ho => Bool.false_ne_true (hown.mp ho)
  all_goals rfl

variable [DecidableEq ι]

/-- **What a step does to the locks.** -/
theorem Rep.next (h : Rep own S) (hs : next S c = some T) : ∃ own', Rep own' T := by
  have hfits := h.fits c
  have howns := h.owns
  have hself := howns c
  unfold Spin.next St.goOn at hs
  cases hpc : (S.cpu c).pc <;> simp only [hpc, Fits, Pc.unsigned] at hs hfits hself
  case out | panicked => cases hs
  case loadLocked a l =>
    cases hs
    refine ⟨own, ?_⟩
    split_ifs with hl
    · exact h.put (by rw [hpc]; rfl) rfl trivial
    · -- not locked, so nobody's
      refine h.held (by rw [hpc]; rfl) (iff_of_false Bool.false_ne_true fun ho => hl ?_)
      rw [h.locked, (hself l).mpr (.inl ho)]
      rfl
  case loadCpu a l =>
    cases hs
    exact ⟨own, h.held (by rw [hpc]; rfl) decide_eq_true_iff⟩
  case pop =>
    cases hs
    exact ⟨own, h.popcli (by rw [hpc]; rfl) rfl trivial⟩
  case xchg l =>
    split_ifs at hs with hl
    cases hs
    have hnone : own l = none := by rwa [h.locked, Option.not_isSome_iff_eq_none] at hl
    refine ⟨update own l (some c), h.move ?_ ?_ ?_ trivial⟩
    all_goals grind [h.locked, update_apply, St.put, Pc.unsigned]
  case setCpu l =>
    cases hs
    have hown : own l = some c := (hself l).mpr (.inr rfl)
    refine ⟨own, h.move h.locked ?_ ?_ trivial⟩
    all_goals grind [update_apply, Pc.unsigned]
  case clearCpu l =>
    cases hs
    have hown : own l = some c := (hself l).mpr (.inl hfits)
    refine ⟨own, h.move h.locked ?_ ?_ ?_⟩
    all_goals grind [update_apply, Fits, Pc.unsigned]
  case clearLocked l =>
    cases hs
    have hown : own l = some c := (hself l).mpr (.inr rfl)
    refine ⟨update own l none, h.move ?_ ?_ ?_ trivial⟩
    all_goals grind [h.locked, update_apply, St.put, Pc.unsigned]

theorem Rep.step (h : Rep own S) (hs : step S i = some T) : ∃ own', Rep own' T := by
  cases i with
  | call c f =>
    simp only [Spin.step] at hs
    split at hs <;> cases hs
    exact ⟨own, h.enter (by assumption)⟩
  | step c => exact h.next hs

omit [DecidableEq ι] in
theorem Rep.init : Rep (fun _ => none) (St.init n ι) :=
  ⟨fun _ => rfl, by simp [St.init, Pc.unsigned], fun _ => trivial⟩

/-- **A lock has one owner**, in every interleaving, and is locked while it has; and the race in `holding` does
    no harm: who goes on to the `xchg`, or panics in `release`, does not own the lock, and who goes on to clear
    it, or panics in `acquire`, does. -/
theorem locks_exclusive (h : (machine n ι).Reachable anyStep S) :
    (∀ c d l, Owns S c l → Owns S d l → c = d) ∧ (∀ l, S.locked l = true ↔ ∃ c, Owns S c l) ∧
    ∀ c l, ((S.cpu c).pc = .xchg l ∨ (S.cpu c).pc = .panicked (.release l) → ¬ Owns S c l) ∧
      ((S.cpu c).pc = .clearCpu l ∨ (S.cpu c).pc = .panicked (.acquire l) → Owns S c l) := by
  have hrep : ∃ own, Rep own S := by
    refine invariant (I := fun S => ∃ own, Rep own S) ?_ ?_ h
    · rintro S rfl
      exact ⟨_, .init⟩
    · rintro S i T ⟨own, hown⟩ - hs
      exact hown.step hs
  obtain ⟨own, h⟩ := hrep
  have howns : ∀ c l, own l = some c ↔ Owns S c l := fun c l => (h.owns c l).trans owns_iff.symm
  refine ⟨fun c d l hc hd => ?_, fun l => ?_, fun c l => ?_⟩
  · exact Option.some.inj (((howns c l).mpr hc).symm.trans ((howns d l).mpr hd))
  · simp only [h.locked, ← howns, Option.isSome_iff_exists]
  · have hfits := h.fits c
    rw [← howns]
    constructor <;> rintro (hpc | hpc) <;> rw [hpc] at hfits
    case right.inl => exact (h.owns c l).mpr (.inl hfits)
    all_goals exact hfits

/-- CPU 1 waits for a lock that CPU 0 has taken and not yet signed. -/
theorem locks_exclusive_raced :
    ∃ S : St 2 (Fin 1), (S.locked 0 = true ∧ S.owner 0 = none) ∧ ∃ c, Owns S c 0 := by
  have hrun : ((machine 2 (Fin 1)).run (.init 2 (Fin 1))
      [.call 0 (.acquire 0), .call 1 (.acquire 0), .step 1, .step 0, .step 0]).any
      (fun S => decide (S.locked 0 = true ∧ S.owner 0 = none)) = true := by decide
  obtain ⟨S, hS, hP⟩ := reachable_of_run rfl hrun
  exact ⟨S, hP, ((locks_exclusive hS).2.1 0).mp hP.1⟩

end Xv6.Spin
