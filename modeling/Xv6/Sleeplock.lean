/-
  SLEEP-LOCKS (sleeplock.c): locks that are held across `sleep`.

  A sleep-lock is a monitor: `acquiresleep`, `releasesleep` and `holdingsleep` each take the spin-lock `lk->lk`, and
  whoever finds `lk->locked` set sleeps on the lock until `releasesleep` wakes it.  So the model is the library's
  monitor with the three operations, for any number of locks and processes, and every interleaving is one of the
  monitor's: each `acquire` and `release` of `lk->lk` and of `ptable.lock` is a step of its own, and `kill` wakes
  anybody at any time.

  1. **`Agrees`** — by induction on the completed operations: the fields of the lock say who holds it.  This uses
     that a process releases only what it holds (`OnlyHeld`).
  2. **`sleeplock_safe`** — at most one process is between `acquiresleep` and `releasesleep`, `lk->pid` is its pid,
     and nobody sleeps on a lock that is free.
-/
import Xv6.Lib.Monitor

namespace Xv6.Sleep

open Machines Monitors

/-- `struct sleeplock`; the spin-lock `lk` is the monitor's, and `name` is for debugging. -/
structure Sleeplock where
  locked : Nat
  pid : Int
  deriving DecidableEq

/-- `initsleeplock` -/
def initsleeplock : Sleeplock := ⟨0, 0⟩

/-- What a process can do with lock `lk`. -/
inductive Call (ι : Type)
  | acquiresleep (lk : ι)
  | releasesleep (lk : ι)
  | holdingsleep (lk : ι)
  deriving DecidableEq

def Call.lk {ι : Type} : Call ι → ι
  | acquiresleep lk | releasesleep lk | holdingsleep lk => lk

section Ops

variable {ι π : Type} (pid : π → Int)

/-- `while (lk->locked) sleep(lk, &lk->lk); lk->locked = 1; lk->pid = myproc()->pid;` -/
def acquiresleep : Op π Sleeplock Int where
  guard := fun lk => lk.locked = 0
  act := fun p _ => { locked := 1, pid := pid p }
  ret := fun _ _ => 0
  wakes := false

/-- `lk->locked = 0; lk->pid = 0; wakeup(lk);` -/
def releasesleep : Op π Sleeplock Int where
  guard := fun _ => true
  act := fun _ _ => { locked := 0, pid := 0 }
  ret := fun _ _ => 0
  wakes := true

/-- `r = lk->locked && (lk->pid == myproc()->pid);` -/
def holdingsleep : Op π Sleeplock Int where
  guard := fun _ => true
  act := fun _ lk => lk
  ret := fun p lk => if lk.locked ≠ 0 ∧ lk.pid = pid p then 1 else 0
  wakes := false

/-- The sleep-locks `ι` of the processes `π`. -/
def sleeplocks : Monitor ι π (Call ι) Sleeplock Int where
  on := Call.lk
  op := fun
    | .acquiresleep _ => acquiresleep pid
    | .releasesleep _ => releasesleep
    | .holdingsleep _ => holdingsleep pid
  first := fun _ => initsleeplock

end Ops

variable {ι π : Type} [DecidableEq ι] [DecidableEq π]

/-! ## Who holds a lock -/

/-- What completing `d` does to "`p` holds `lk`". -/
def holdsAfter (lk : ι) (p : π) (b : Bool) (d : Done π (Call ι) Int) : Bool :=
  if d.proc = p then
    if d.op = .acquiresleep lk then true else if d.op = .releasesleep lk then false else b
  else b

/-- `p` has returned from `acquiresleep(lk)`, and not from `releasesleep(lk)` since. -/
def holds (lk : ι) (p : π) (ds : List (Done π (Call ι) Int)) : Bool := ds.foldl (holdsAfter lk p) false

/-- A process releases only what it holds. -/
def OnlyHeld (p : π) : Call ι → List (Done π (Call ι) Int) → Prop
  | .releasesleep lk, ds => holds lk p ds = true
  | _, _ => True

/-- Runs in which every process releases only what it holds. -/
def Proper (S : St ι π (Call ι) Sleeplock Int) : Label π (Call ι) → Prop
  | .call p o => OnlyHeld p o S.done
  | _ => True

instance (p : π) (o : Call ι) (ds : List (Done π (Call ι) Int)) : Decidable (OnlyHeld p o ds) :=
  match o with
  | .releasesleep lk => inferInstanceAs (Decidable (holds lk p ds = true))
  | .acquiresleep _ | .holdingsleep _ => .isTrue trivial

instance (S : St ι π (Call ι) Sleeplock Int) (l : Label π (Call ι)) : Decidable (Proper S l) :=
  match l with
  | .call p o => inferInstanceAs (Decidable (OnlyHeld p o S.done))
  | .step _ | .kill _ => .isTrue trivial

@[simp] theorem holds_snoc (lk : ι) (p : π) (ds : List (Done π (Call ι) Int)) (d : Done π (Call ι) Int) :
    holds lk p (ds ++ [d]) = holdsAfter lk p (holds lk p ds) d := by
  simp [holds]

theorem holds_other {lk : ι} {p : π} {ds : List (Done π (Call ι) Int)} {d : Done π (Call ι) Int} (h : d.proc ≠ p) :
    holds lk p (ds ++ [d]) = holds lk p ds := by
  rw [holds_snoc, holdsAfter, if_neg h]

theorem holds_elsewhere {lk : ι} {p : π} {ds : List (Done π (Call ι) Int)} {d : Done π (Call ι) Int}
    (h : d.op.lk ≠ lk) : holds lk p (ds ++ [d]) = holds lk p ds := by
  have hacq : d.op ≠ .acquiresleep lk := by intro e; rw [e] at h; exact h rfl
  have hrel : d.op ≠ .releasesleep lk := by intro e; rw [e] at h; exact h rfl
  rw [holds_snoc, holdsAfter, if_neg hacq, if_neg hrel, ite_self]

theorem onlyHeld_stable (p : π) (o : Call ι) (ds : List (Done π (Call ι) Int)) (d : Done π (Call ι) Int)
    (hd : d.proc ≠ p) (h : OnlyHeld p o ds) : OnlyHeld p o (ds ++ [d]) := by
  cases o with
  | releasesleep lk => exact (holds_other hd).trans h
  | acquiresleep _ | holdingsleep _ => trivial

/-- The fields of the lock say who holds it. -/
def Agrees (pid : π → Int) (lk : ι) (ds : List (Done π (Call ι) Int)) (v : Sleeplock) : Prop :=
  (v.locked = 0 ∧ ∀ q, holds lk q ds = false) ∨
    ∃ p, v.locked = 1 ∧ v.pid = pid p ∧ ∀ q, holds lk q ds = true ↔ q = p

section Fields

variable {pid : π → Int} {lk : ι} {ds : List (Done π (Call ι) Int)} {d : Done π (Call ι) Int} {v w : Sleeplock}

theorem Agrees.same (h : Agrees pid lk ds v) {ds' : List (Done π (Call ι) Int)}
    (hh : ∀ q, holds lk q ds' = holds lk q ds) : Agrees pid lk ds' v := by
  unfold Agrees
  simp only [hh]
  exact h

/-- Whoever gets the lock finds it free, and is from then on its only holder. -/
theorem Agrees.acquire (h : Agrees pid lk ds v) (hop : d.op = .acquiresleep lk) (hfree : v.locked = 0) :
    Agrees pid lk (ds ++ [d]) ⟨1, pid d.proc⟩ := by
  have hnone : ∀ q, holds lk q ds = false := by
    rcases h with ⟨-, hnone⟩ | ⟨p, hlocked, -⟩
    · exact hnone
    · omega
  refine .inr ⟨d.proc, rfl, rfl, fun q => ?_⟩
  rw [holds_snoc, holdsAfter, if_pos hop, hnone q]
  split
  · rename_i hq
    simp [hq]
  · rename_i hq
    simp [Ne.symm hq]

/-- The only holder gives the lock back. -/
theorem Agrees.release (h : Agrees pid lk ds v) (hop : d.op = .releasesleep lk) (hheld : holds lk d.proc ds = true) :
    Agrees pid lk (ds ++ [d]) ⟨0, 0⟩ := by
  have hacq : d.op ≠ .acquiresleep lk := by rw [hop]; nofun
  refine .inl ⟨rfl, fun q => ?_⟩
  rw [holds_snoc, holdsAfter, if_neg hacq, if_pos hop]
  split
  · rfl
  · rename_i hq
    rcases h with ⟨-, hnone⟩ | ⟨p, -, -, hiff⟩
    · exact hnone q
    · have hp : d.proc = p := (hiff d.proc).mp hheld
      exact Bool.eq_false_iff.mpr fun hq' => hq (hp.trans ((hiff q).mp hq').symm)

theorem Agrees.effect (h : Agrees pid lk ds v) (hok : OnlyHeld d.proc d.op ds) (hon : d.op.lk = lk)
    (heff : (sleeplocks pid).Effect anyValue d v w) : Agrees pid lk (ds ++ [d]) w := by
  obtain ⟨⟨hguard, -⟩, -, rfl⟩ := heff
  cases hop : d.op with
  | acquiresleep lk' =>
    simp only [sleeplocks, hop] at hguard hon ⊢
    obtain rfl : lk' = lk := hon
    exact h.acquire hop (of_decide_eq_true hguard)
  | releasesleep lk' =>
    simp only [sleeplocks, hop] at hon hok ⊢
    obtain rfl : lk' = lk := hon
    exact h.release hop hok
  | holdingsleep lk' =>
    have hacq : d.op ≠ .acquiresleep lk := by rw [hop]; nofun
    have hrel : d.op ≠ .releasesleep lk := by rw [hop]; nofun
    refine h.same fun q => ?_
    rw [holds_snoc, holdsAfter, if_neg hacq, if_neg hrel, ite_self]

/-- What the completed operations have made of a lock agrees with who holds it. -/
theorem agrees_of_history (h : History (sleeplocks pid) anyValue lk ds v) (hd : Disciplined OnlyHeld ds) : Agrees pid lk ds v := by
  induction h with
  | nil => exact .inl ⟨rfl, fun _ => rfl⟩
  | snoc _ hon heff ih =>
    obtain ⟨hds, hok⟩ := hd.last
    exact (ih hds).effect hok hon heff
  | other _ hne ih => exact (ih hd.last.1).same fun q => holds_elsewhere hne

end Fields

/-! ## Every interleaving -/

structure Inv (pid : π → Int) (S : St ι π (Call ι) Sleeplock Int) : Prop where
  excl : Excl (sleeplocks pid) S
  linear : Linear (sleeplocks pid) anyValue S
  obeys : Obeys OnlyHeld S
  awake : Awake (sleeplocks pid) S

variable {pid : π → Int} {S T : St ι π (Call ι) Sleeplock Int} {l : Label π (Call ι)}

omit [DecidableEq ι] [DecidableEq π] in
/-- Only `releasesleep` unlocks, and it calls `wakeup`. -/
theorem quiet (S : St ι π (Call ι) Sleeplock Int) (l : Label π (Call ι)) : Quiet (sleeplocks pid) S l := by
  intro p o _ _ hw _ q o' _ _ hfalse
  cases o with
  | acquiresleep lk =>
    cases o' with
    | acquiresleep lk' => rfl
    | releasesleep lk' | holdingsleep lk' => exact hfalse
  | releasesleep lk => cases hw
  | holdingsleep lk => exact hfalse

theorem Inv.step (h : Inv pid S) (hc : Proper S l) (hs : (sleeplocks pid).machine.step S l = some T) : Inv pid T := by
  have hs' := Monitor.step_cases hs
  refine ⟨h.excl.step hs', h.linear.step h.excl (fun _ _ _ _ _ => trivial) hs', h.obeys.step onlyHeld_stable ?_ hs', h.awake.step h.excl (quiet S l) hs'⟩
  rintro p o rfl
  exact hc

theorem inv_of_reachable (h : (sleeplocks pid).machine.Reachable Proper S) : Inv pid S := by
  refine Machine.invariant ?_ (fun _ _ _ hi hc hs => hi.step hc hs) h
  rintro _ rfl
  exact ⟨Excl.start, Linear.start, ⟨.nil, nofun⟩, Awake.start⟩

theorem Inv.holder_unique (h : Inv pid S) {lk : ι} {p q : π} (hp : holds lk p S.done = true)
    (hq : holds lk q S.done = true) : p = q := by
  obtain ⟨v, hv, -⟩ := h.linear.past lk
  rcases agrees_of_history hv h.obeys.past with ⟨-, hnone⟩ | ⟨r, -, -, hiff⟩
  · rw [hnone p] at hp
    cases hp
  · exact ((hiff p).mp hp).trans ((hiff q).mp hq).symm

/-- While the holder does not release, the fields are as `acquiresleep` left them: an operation that is about to
    return can only be a `holdingsleep`. -/
theorem Inv.fields (h : Inv pid S) {lk : ι} {p : π} (hp : holds lk p S.done = true)
    (hpc : (S.pc p).op ≠ some (.releasesleep lk)) : S.res lk = ⟨1, pid p⟩ := by
  obtain ⟨v, hv, hres⟩ := h.linear.past lk
  obtain ⟨hlocked, hpid⟩ : v.locked = 1 ∧ v.pid = pid p := by
    rcases agrees_of_history hv h.obeys.past with ⟨-, hnone⟩ | ⟨r, hlocked, hpid, hiff⟩
    · rw [hnone p] at hp
      cases hp
    · rw [(hiff p).mp hp]
      exact ⟨hlocked, hpid⟩
  have hv' : v = ⟨1, pid p⟩ := by
    cases v
    cases hlocked
    cases hpid
    rfl
  rcases hres with hres | ⟨q, o, r, hacted, hon, ⟨hguard, -⟩, -, hact⟩
  · rw [hres, hv']
  · cases o with
    | acquiresleep lk' =>
      have hfree : v.locked = 0 := of_decide_eq_true hguard
      omega
    | releasesleep lk' =>
      obtain rfl : lk' = lk := hon
      have hq : holds lk' q S.done = true := h.obeys.current q _ (Pc.op_of_acted hacted)
      rw [h.holder_unique hp hq] at hpc
      exact absurd (Pc.op_of_acted hacted) hpc
    | holdingsleep lk' => exact hact.trans hv'

theorem Inv.nobody_asleep (h : Inv pid S) {lk : ι} {p : π} (hfree : S.lock lk = none) (hunlocked : (S.res lk).locked = 0) :
    S.status p ≠ .sleeping lk := by
  intro hs
  obtain ⟨o, -, rfl, hfalse⟩ := h.awake.unready h.excl hfree hs
  cases o with
  | acquiresleep lk' => exact of_decide_eq_false hfalse hunlocked
  | releasesleep lk' | holdingsleep lk' => cases hfalse

/-- **Sleep-locks exclude, and strand nobody.**  In every interleaving in which processes release only what they
    hold: at most one process is between `acquiresleep` and `releasesleep`; until it calls `releasesleep`, the lock
    is locked and carries its pid; and nobody is SLEEPING on an unlocked lock whose spin-lock is free. -/
theorem sleeplock_safe (h : (sleeplocks pid).machine.Reachable Proper S) (lk : ι) :
    (∀ p q, holds lk p S.done = true → holds lk q S.done = true → p = q) ∧
    (∀ p, holds lk p S.done = true → (S.pc p).op ≠ some (.releasesleep lk) →
      (S.res lk).locked = 1 ∧ (S.res lk).pid = pid p) ∧
    (S.lock lk = none → (S.res lk).locked = 0 → ∀ p, S.status p ≠ .sleeping lk) := by
  have hinv := inv_of_reachable h
  refine ⟨fun p q => hinv.holder_unique, fun p hp hpc => ?_, fun hfree hunlocked p => hinv.nobody_asleep hfree hunlocked⟩
  rw [hinv.fields hp hpc]
  exact ⟨rfl, rfl⟩

/-- One lock, and processes 0 and 1 with the pids 3 and 4. -/
def twoProcs : Monitor Unit (Fin 2) (Call Unit) Sleeplock Int := sleeplocks fun p => (p.val : Int) + 3

/-- Process 0 gets the lock; process 1 waits for it, is killed, and waits again. -/
def contended : List (Label (Fin 2) (Call Unit)) :=
  [.call 0 (.acquiresleep ()), .step 0, .step 0, .step 0, .call 1 (.acquiresleep ())] ++ List.replicate 5 (.step 1) ++
    [.kill 1] ++ List.replicate 7 (.step 1)

theorem sleeplock_safe_contended : ∃ S, twoProcs.machine.Reachable Proper S ∧
    (holds () 0 S.done = true ∧ S.status 1 = .sleeping () ∧ S.lock () = none ∧ S.killed 1 = true) ∧
    (S.res ()).locked = 1 ∧ (S.res ()).pid = 3 := by
  have hinit : twoProcs.machine.init twoProcs.start := rfl
  have hrun : (twoProcs.machine.runIf Proper twoProcs.start contended).any (fun S =>
      decide ((holds () 0 S.done = true ∧ S.status 1 = .sleeping () ∧ S.lock () = none ∧ S.killed 1 = true) ∧
        (S.pc 0).op ≠ some (.releasesleep ()))) = true := by decide +kernel
  obtain ⟨S, hreach, hstate, hpc⟩ := Machine.reachable_of_runIf hinit hrun
  exact ⟨S, hreach, hstate, (sleeplock_safe hreach ()).2.1 0 hstate.1 hpc⟩

end Xv6.Sleep
