/-
  WHAT A PROCESS HAS AND KNOWS, in a call on files.

  1. **What it has** is a function of where it is (`Pc.has`; in words, `Pc.held`, `Pc.unbacked`, `Pc.owed` and
     `Pc.freeing`).  Two calls let a descriptor run ahead of the count: `dup` fills one before `filedup`, and
     `exit` closes a file before it clears the descriptor.
  2. **What it knows** (`Knows`) — a descriptor it has read still holds the file; a file that it has just
     allocated has no other reference; the child it makes is nobody else's.  The second is why no other process
     can get between: another reference would be another claim (`claim`) on a file of one reference.
  3. **`Inv`** — the accounts, with what all processes contribute; and, for each kind of store, the rule by
     which a step keeps it (`Inv.goto`, `Inv.slot`, `Inv.file`, `Inv.proc`).
-/
import Xv6.Ftable.Account

namespace Xv6.Ftable

open Machines
open Function (update_self update_of_ne)

/-! ## What a process has -/

/-- The references that are still to be dropped after a `fileclose`. -/
def Cont.held : Cont → List FileId
  | .ret => []
  | .other f => [f]
  | .exit .. => []

/-- The descriptor that `exit` has closed and not yet cleared. -/
def Cont.closed : Cont → Option (Fd × FileId)
  | .exit fd f _ => some (fd, f)
  | _ => none

/-- The references that the call of a process has, in its local variables. -/
def Pc.held : Pc → List FileId
  | .openFd f => [f]
  | .fileclose f .ret => [f]
  | .fileclose f (.other g) => [f, g]
  | .pipeclose _ _ k | .kfree _ k => k.held
  | .pipeAlloc1 f0 => [f0]
  | .pipeMem f0 f1 | .pipeFile0 f0 f1 _ | .pipeFile1 f0 f1 _ | .pipeFd0 f0 f1 => [f0, f1]
  | .pipeFd1 _ f1 _ | .pipeClear _ f1 _ => [f1]
  | .forkSet _ _ f _ => [f]
  | _ => []

/-- The descriptor that `exit` has closed and not yet cleared. -/
def Pc.closed : Pc → Option (Fd × FileId)
  | .pipeclose _ _ k | .kfree _ k => k.closed
  | .clear fd f _ => some (fd, f)
  | _ => none

/-- The file of a descriptor that has no reference: not yet in `dup`, no longer in `exit`. -/
def Pc.unbacked : Pc → Option FileId
  | .dupRef _ _ f => some f
  | c => c.closed.map Prod.snd

/-- The ends of pipes that a call has to close, or to store in a file. -/
def Pc.owed : Pc → List (PipeId × Bool)
  | .pipeclose v w _ => [(v, w)]
  | .pipeFile0 _ _ v => [(v, false), (v, true)]
  | .pipeFile1 _ _ v => [(v, true)]
  | _ => []

/-- The pipe that a call is about to free. -/
def Pc.freeing : Pc → Option PipeId
  | .kfree v _ => some v
  | _ => none

/-- What the rest of a call after a `fileclose` has. -/
def Cont.has : Cont → Item → Int
  | .ret => 0
  | .other g => one (.file g)
  | .exit _ g _ => -one (.file g)

/-- What the call of a process has: references in hand, less the descriptor without one; ends of pipes; a pipe
    to free. -/
def Pc.has : Pc → Item → Int
  | .openFd g | .pipeAlloc1 g | .pipeFd1 _ g _ | .pipeClear _ g _ | .forkSet _ _ g _ => one (.file g)
  | .dupRef _ _ g | .clear _ g _ => -one (.file g)
  | .fileclose g k => one (.file g) + k.has
  | .pipeclose v w k => one (.openEnd v w) + k.has
  | .kfree v k => one (.page v) + k.has
  | .pipeMem g g' | .pipeFd0 g g' => one (.file g) + one (.file g')
  | .pipeFile0 g g' v => one (.file g) + one (.file g') + (one (.openEnd v false) + one (.openEnd v true))
  | .pipeFile1 g g' v => one (.file g) + one (.file g') + one (.openEnd v true)
  | _ => 0

/-- What all calls in progress have. -/
def St.has (S : St) : Item → Int := ∑ q, (S.pc q).has

/-! ## What a process knows -/

def Cont.slots : Cont → List (Fd × FileId)
  | .exit fd f _ => [(fd, f)]
  | _ => []

/-- The descriptors that a process has read or set. -/
def Pc.slots : Pc → List (Fd × FileId)
  | .openSet fd f | .dupFd fd f | .closeSlot fd f | .clear fd f _ | .forkDup _ fd f _ => [(fd, f)]
  | .dupRef fd fd' f => [(fd, f), (fd', f)]
  | .fileclose _ k | .pipeclose _ _ k | .kfree _ k => k.slots
  | .pipeFd1 f0 _ fd0 | .pipeClear f0 _ fd0 => [(fd0, f0)]
  | _ => []

/-- The files that a process has just allocated. -/
def Pc.fresh : Pc → List FileId
  | .openFd f | .openSet _ f => [f]
  | .pipeAlloc1 f0 => [f0]
  | .pipeMem f0 f1 | .pipeFile0 f0 f1 _ => [f0, f1]
  | .pipeFile1 _ f1 _ => [f1]
  | _ => []

/-- The child that `fork` is making, with the descriptors still to be copied. -/
def Pc.child : Pc → Option (Pid × List Fd)
  | .forkMem np => some (np, List.finRange NOFILE)
  | .forkFd np fds => some (np, fds)
  | .forkDup np fd _ rest | .forkSet np fd _ rest => some (np, fd :: rest)
  | .forkStart np => some (np, [])
  | _ => none

def Cont.left : Cont → Option (List Fd)
  | .exit fd _ rest => some (fd :: rest)
  | _ => none

/-- The descriptors that `exit` has still to clear. -/
def Pc.left : Pc → Option (List Fd)
  | .exitFd fds => some fds
  | .clear fd _ rest => some (fd :: rest)
  | .fileclose _ k | .pipeclose _ _ k | .kfree _ k => k.left
  | _ => none

/-- The values at a point belong together. -/
def Pc.Wf : Pc → Prop
  | .dupRef fd fd' _ => fd ≠ fd'
  | .fileclose f (.exit _ g _) => f = g
  | .pipeMem f0 f1 | .pipeFile0 f0 f1 _ => f0 ≠ f1
  | .forkFd _ fds => fds.Nodup
  | .forkDup _ fd _ rest | .forkSet _ fd _ rest => (fd :: rest).Nodup
  | _ => True

/-- What a process knows at a point. -/
structure Knows (P : Pid → Proc) (F : FileId → File) (q : Pid) (c : Pc) : Prop where
  slots : ∀ e ∈ c.slots, (P q).ofile e.1 = some e.2
  fresh : ∀ f ∈ c.fresh, (F f).ref = 1 ∧ (F f).pipe = none
  child : ∀ np fds, c.child = some (np, fds) → (P np).state = .embryo ∧ ∀ fd ∈ fds, (P np).ofile fd = none
  left : ∀ fds, c.left = some fds → ∀ fd, fd ∉ fds → (P q).ofile fd = none
  wf : c.Wf

/-- What a process knows in a state. -/
structure Local (S : St) (q : Pid) : Prop extends Knows S.procs S.files q (S.pc q) where
  alive : (S.pc q).isIdle = false → (S.procs q).state = .alive
  none : (S.procs q).state = .unused ∨ (S.procs q).state = .zombie → ∀ fd, (S.procs q).ofile fd = none

variable {S T : St} {p q : Pid} {f : FileId} {c c₀ : Pc}

/-- Steps of others leave alone what a process knows. -/
theorem Local.other (h : Local S q) (hpc : T.pc q = S.pc q)
    (hproc : (T.procs q).state = (S.procs q).state ∧ (T.procs q).ofile = (S.procs q).ofile)
    (hfiles : ∀ f ∈ (S.pc q).fresh, T.files f = S.files f) (hchild : ∀ np fds, (S.pc q).child = some (np, fds) →
      (T.procs np).state = (S.procs np).state ∧ (T.procs np).ofile = (S.procs np).ofile) : Local T q where
  slots := by rw [hpc, hproc.2]; exact h.slots
  fresh := by
    rw [hpc]
    intro f hf
    rw [hfiles f hf]
    exact h.fresh f hf
  child := by
    rw [hpc]
    intro np fds hc
    obtain ⟨hstate, hofile⟩ := hchild np fds hc
    rw [hstate, hofile]
    exact h.child np fds hc
  left := by rw [hpc, hproc.2]; exact h.left
  wf := by rw [hpc]; exact h.wf
  alive := by rw [hpc, hproc.1]; exact h.alive
  none := by rw [hproc.1, hproc.2]; exact h.none

theorem Pc.eq_idle (h : c.isIdle = true) : c = .idle := by
  cases c with
  | idle => rfl
  | _ => cases h

/-- Between two calls there is nothing to know. -/
theorem knows_idle (P : Pid → Proc) (F : FileId → File) (q : Pid) : Knows P F q .idle :=
  ⟨nofun, nofun, nofun, nofun, trivial⟩

/-- A process between two calls. -/
theorem local_idle (hidle : (S.pc q).isIdle = true)
    (hnone : (S.procs q).state = .unused ∨ (S.procs q).state = .zombie → ∀ fd, (S.procs q).ofile fd = none) :
    Local S q := by
  have hpc := Pc.eq_idle hidle
  refine ⟨?_, ?_, hnone⟩
  · rw [hpc]
    exact knows_idle ..
  · rw [hidle]
    exact nofun

/-- A process in a call, at the point that it has come to. -/
theorem Knows.toLocal (h : Knows T.procs T.files p c) (halive : (T.procs p).state = .alive) :
    Local (T.setPc p c) p := by
  have hpc : (T.setPc p c).pc p = c := update_self ..
  refine ⟨?_, fun _ => halive, fun hc => ?_⟩
  · rw [hpc]
    exact h
  · have hstate : (T.procs p).state = .unused ∨ (T.procs p).state = .zombie := hc
    rw [halive] at hstate
    rcases hstate with hstate | hstate <;> cases hstate

/-! ## Claims -/

theorem count_one (g f : FileId) : (([g].count f : Nat) : Int) = one (.file g) (.file f) := by
  rw [List.count_singleton, one_apply]
  simp only [beq_iff_eq, Item.file.injEq]
  split <;> rfl

theorem count_two (g g' f : FileId) :
    (([g, g'].count f : Nat) : Int) = one (.file g) (.file f) + one (.file g') (.file f) := by
  rw [← count_one g f, ← count_one g' f, ← Int.natCast_add, ← List.count_append]
  rfl

/-- The references, in the terms in which they are described. -/
theorem Pc.has_file (hwf : c.Wf) (f : FileId) :
    c.has (.file f) = (c.held.count f : Int) - inSlot c.unbacked (.file f) := by
  have hend : ∀ v w, one (.openEnd v w) (.file f) = 0 := fun v w => by rw [one_apply, if_neg nofun]
  have hpage : ∀ v, one (.page v) (.file f) = 0 := fun v => by rw [one_apply, if_neg nofun]
  cases c with
  | fileclose g k => 
    cases k with
    | exit fd g' rest =>
      obtain rfl : g = g' := hwf
      simp [Pc.has, Cont.has, Pc.held, Pc.unbacked, Pc.closed, inSlot]
    | _ => simp [Pc.has, Cont.has, Pc.held, count_one, count_two, Pc.unbacked, Pc.closed, inSlot]
  | pipeclose v w k | kfree v k =>
    cases k <;> simp [Pc.has, Cont.has, Pc.held, Cont.held, Pc.unbacked, Pc.closed, Cont.closed, inSlot, count_one, hend, hpage]
  | _ => simp [Pc.has, Pc.held, count_one, count_two, Pc.unbacked, Pc.closed, inSlot, hend]

theorem Pc.has_openEnd (c : Pc) (v : PipeId) (w : Bool) : c.has (.openEnd v w) = (c.owed.count (v, w) : Int) := by
  have hfile : ∀ g, one (.file g) (.openEnd v w) = 0 := fun v => by rw [one_apply, if_neg nofun]
  have hpage : ∀ v', one (.page v') (.openEnd v w) = 0 := fun v => by rw [one_apply, if_neg nofun]
  have hone : ∀ v' w', one (.openEnd v' w') (.openEnd v w) = (([(v', w')].count (v, w) : Nat) : Int) := by
    intro v' w'
    rw [List.count_singleton, one_apply]
    simp only [beq_iff_eq, Item.openEnd.injEq, Prod.mk.injEq]
    split <;> rfl
  cases c with
  | pipeFile0 f0 f1 v' =>
    show _ = (([(v', false)] ++ [(v', true)]).count (v, w) : Int)
    rw [List.count_append, Int.natCast_add, ← hone, ← hone]
    simp [Pc.has, hfile]
  | fileclose g k | pipeclose v w k | kfree v k => cases k <;> simp [Pc.has, Cont.has, Pc.owed, hfile, hpage, hone]
  | _ => simp [Pc.has, Pc.owed, hfile, hone]

theorem Pc.has_page (c : Pc) (v : PipeId) : c.has (.page v) = if c.freeing = some v then 1 else 0 := by
  cases c with
  | fileclose g k | pipeclose v w k | kfree v k => cases k <;> simp [Pc.has, Cont.has, Pc.freeing, one_apply]
  | _ => simp [Pc.has, Pc.freeing, one_apply]

/-- What a process has of the references of a file. -/
def claim (S : St) (q : Pid) (f : FileId) : Int := S.slotsOf q (.file f) + (S.pc q).has (.file f)

theorem Pc.unbacked_cases (c : Pc) (f : FileId) (h : c.unbacked = some f) :
    (∃ fd fd', c = .dupRef fd fd' f) ∨ ∃ fd, c.closed = some (fd, f) := by
  cases c with
  | dupRef fd fd' g =>
    obtain rfl := Option.some.inj h
    exact .inl ⟨fd, fd', rfl⟩
  | _ =>
    simp only [Pc.unbacked, Option.map_eq_some_iff] at h
    obtain ⟨e, he, rfl⟩ := h
    exact .inr ⟨e.1, he⟩

variable {e : Fd × FileId}

theorem Cont.closed_slot (k : Cont) (h : k.closed = some e) : e ∈ k.slots := by
  cases k with
  | exit fd f rest =>
    obtain rfl := Option.some.inj h
    exact List.mem_cons_self
  | _ => cases h

theorem Pc.closed_slot (c : Pc) (h : c.closed = some e) : e ∈ c.slots := by
  cases c with
  | pipeclose v w k | kfree v k => exact k.closed_slot h
  | clear fd f rest =>
    obtain rfl := Option.some.inj h
    exact List.mem_cons_self
  | _ => cases h

variable {fd : Fd}

theorem slotsOf_apply (S : St) (q : Pid) (i : Item) : S.slotsOf q i = ∑ fd, inSlot ((S.procs q).ofile fd) i :=
  Finset.sum_apply ..

theorem slotsOf_nonneg (S : St) (q : Pid) (i : Item) : 0 ≤ S.slotsOf q i := by
  rw [slotsOf_apply]
  exact Finset.sum_nonneg fun fd _ => inSlot_nonneg _ i

theorem inSlot_one (h : (S.procs q).ofile fd = some f) : inSlot ((S.procs q).ofile fd) (.file f) = 1 := by
  rw [h, inSlot, one_apply, if_pos rfl]

theorem slotsOf_pos (h : (S.procs q).ofile fd = some f) : 1 ≤ S.slotsOf q (.file f) := by
  rw [slotsOf_apply, ← inSlot_one h]
  exact Counting.le_sum (f := fun i => inSlot ((S.procs q).ofile i) _) (fun i => inSlot_nonneg ..) fd

theorem slotsOf_two {fd' : Fd} (h : (S.procs q).ofile fd = some f) (h' : (S.procs q).ofile fd' = some f)
    (hne : fd ≠ fd') : 2 ≤ S.slotsOf q (.file f) := by
  have hle := Counting.add_le_sum (f := fun i => inSlot ((S.procs q).ofile i) (.file f)) (fun i => inSlot_nonneg ..) hne
  rw [slotsOf_apply]
  rw [inSlot_one h, inSlot_one h'] at hle
  exact hle

theorem inSlot_file (o : Option FileId) (f : FileId) : inSlot o (.file f) = if o = some f then 1 else 0 := by
  cases o with
  | none => rfl
  | some g => simp only [inSlot, one_apply, Item.file.injEq, Option.some.injEq]

/-- Two descriptors in `dup`; one in `exit`, the closed one. -/
theorem Local.slots_of_unbacked (h : Local S q) (hu : (S.pc q).unbacked = some f) :
    2 ≤ S.slotsOf q (.file f) ∨ ∃ fd, (S.pc q).closed = some (fd, f) ∧ (S.procs q).ofile fd = some f := by
  have hslots := h.slots
  rcases (S.pc q).unbacked_cases f hu with ⟨fd, fd', hc⟩ | ⟨fd, hc⟩
  · have hwf := h.wf
    rw [hc] at hslots hwf
    exact .inl (slotsOf_two (hslots (fd, f) List.mem_cons_self)
      (hslots (fd', f) (List.mem_cons_of_mem _ List.mem_cons_self)) hwf)
  · exact .inr ⟨fd, hc, hslots _ ((S.pc q).closed_slot hc)⟩

theorem Local.claim_nonneg (h : Local S q) (f : FileId) : 0 ≤ claim S q f := by
  have hslots := slotsOf_nonneg S q (.file f)
  unfold claim
  rw [Pc.has_file h.wf, inSlot_file]
  split
  · rename_i hu
    rcases h.slots_of_unbacked hu with htwo | ⟨fd, _, hfd⟩
    · omega
    · have := slotsOf_pos hfd
      omega
  · omega

/-- A call that has a reference in hand has none to make up for. -/
theorem Pc.unbacked_of_held (c : Pc) (f : FileId) (h : f ∈ c.held) : c.unbacked = none := by
  cases c with
  | pipeclose v w k | kfree v k => cases k <;> first | rfl | cases h
  | _ => first | rfl | cases h

theorem Local.claim_of_held (h : Local S q) (hf : f ∈ (S.pc q).held) : 1 ≤ claim S q f := by
  have hslots := slotsOf_nonneg S q (.file f)
  have hcount := List.count_pos_iff.mpr hf
  have hnone := (S.pc q).unbacked_of_held f hf
  unfold claim
  rw [Pc.has_file h.wf, inSlot_file, hnone, if_neg nofun]
  omega

/-- A descriptor, other than the one that `exit` has closed, is backed by a reference. -/
theorem Local.claim_of_slot (h : Local S q) (hfd : (S.procs q).ofile fd = some f)
    (hclosed : ∀ g, (S.pc q).closed ≠ some (fd, g)) : 1 ≤ claim S q f := by
  have hpos := slotsOf_pos hfd
  unfold claim
  rw [Pc.has_file h.wf, inSlot_file]
  split
  · rename_i hu
    have htwo : 2 ≤ S.slotsOf q (.file f) := by
      rcases h.slots_of_unbacked hu with htwo | ⟨i, hi, hofile⟩
      · exact htwo
      · refine slotsOf_two hfd hofile ?_
        rintro rfl
        exact hclosed f hi
    omega
  · omega

/-! ## The invariant -/

/-- The accounts are right, and every process knows what it must. -/
structure Inv (S : St) : Prop where
  acct : Acct S.has S
  locals : ∀ q, Local S q
  sole : ∀ q r np fds fds', (S.pc q).child = some (np, fds) → (S.pc r).child = some (np, fds') → q = r
  panics : S.panic ≠ some .filedup ∧ S.panic ≠ some .fileclose

/-- The references of a file are the claims on it. -/
theorem Inv.ref_eq (h : Inv S) (f : FileId) : ((S.files f).ref : Int) = ∑ q, claim S q f := by
  rw [h.acct.refs f]
  unfold claim St.slots St.has
  rw [Finset.sum_add_distrib, Finset.sum_apply, Finset.sum_apply]

theorem Inv.claim_le (h : Inv S) (q : Pid) (f : FileId) : claim S q f ≤ (S.files f).ref := by
  rw [h.ref_eq f]
  exact Counting.le_sum (f := fun r => claim S r f) (fun r => (h.locals r).claim_nonneg f) q

theorem Inv.claims_le (h : Inv S) (hpq : p ≠ q) (f : FileId) : claim S p f + claim S q f ≤ (S.files f).ref := by
  rw [h.ref_eq f]
  exact Counting.add_le_sum (f := fun r => claim S r f) (fun r => (h.locals r).claim_nonneg f) hpq

/-- A file just allocated is in hand, or in one descriptor. -/
theorem Pc.fresh_held (c : Pc) (f : FileId) (hf : f ∈ c.fresh) : f ∈ c.held ∨ ∃ fd, c = .openSet fd f := by
  cases c with
  | openSet fd g =>
    obtain rfl : f = g := List.mem_singleton.mp hf
    exact .inr ⟨fd, rfl⟩
  | openFd g | pipeAlloc1 g | pipeMem g g' | pipeFile0 g g' v => exact .inl hf
  | pipeFile1 g g' v => exact .inl (List.mem_cons_of_mem _ hf)
  | _ => cases hf

theorem Local.claim_of_fresh (h : Local S q) (hf : f ∈ (S.pc q).fresh) : 1 ≤ claim S q f := by
  rcases (S.pc q).fresh_held f hf with hheld | ⟨fd, hc⟩
  · exact h.claim_of_held hheld
  · have hslot := h.slots
    refine h.claim_of_slot (hslot (fd, f) ?_) fun g hg => ?_
    · rw [hc]
      exact List.mem_cons_self
    · rw [hc] at hg
      cases hg

/-- **Nobody else has a claim on a file just allocated.** -/
theorem Inv.not_fresh (h : Inv S) (hp : 1 ≤ claim S p f) (hpq : q ≠ p) : f ∉ (S.pc q).fresh := by
  intro hf
  have hq := (h.locals q).claim_of_fresh hf
  have hone := ((h.locals q).fresh f hf).1
  have hle := h.claims_le hpq f
  omega

/-! ## A step -/

/-- **One process moves on.**  The accounts after its stores are off by `δ`, and the point it has come to makes
    up for that; the others know what they knew. -/
theorem Inv.move {δ : Item → Int} (h : Inv S) (hp : S.pc p = c₀) (hpc : T.pc = S.pc) (hpanic : T.panic = S.panic)
    (hA : Acct (S.has + δ) T) (hb : c.has = c₀.has + δ) (hothers : ∀ q, q ≠ p → Local T q)
    (hme : Local (T.setPc p c) p) (hchild : ∀ np fds, c.child = some (np, fds) →
      (∃ fds', c₀.child = some (np, fds')) ∨ ∀ q fds', (S.pc q).child ≠ some (np, fds')) :
    Inv (T.setPc p c) := by
  subst hp
  have hpcp : ∀ q, q ≠ p → (T.setPc p c).pc q = S.pc q := by
    intro q hq
    rw [← hpc]
    exact update_of_ne hq ..
  have hself : (T.setPc p c).pc p = c := update_self ..
  have hhas : (T.setPc p c).has = S.has + δ := by
    unfold St.has
    rw [Counting.sum_change (f := fun q => (S.pc q).has) p, hself, hb]
    · abel
    · intro q hq
      rw [hpcp q hq]
  refine ⟨hhas ▸ hA.setPc p c, fun q => ?_, ?_, ?_⟩
  · rcases eq_or_ne q p with rfl | hq
    · exact hme
    · refine (hothers q hq).other ?_ ⟨rfl, rfl⟩ (fun _ _ => rfl) fun _ _ _ => ⟨rfl, rfl⟩
      rw [hpcp q hq, hpc]
  · -- a child is somebody else's only if it was before
    have key : ∀ q np fds fds', q ≠ p → (S.pc q).child = some (np, fds) → c.child = some (np, fds') → False := by
      intro q np fds fds' hq h1 h2
      rcases hchild np fds' h2 with ⟨fds'', h3⟩ | hno
      · exact hq (h.sole q p np fds fds'' h1 h3)
      · exact hno q fds h1
    intro q r np fds fds' h1 h2
    rcases eq_or_ne q p with rfl | hq
    · rcases eq_or_ne r q with rfl | hr'
      · rfl
      · rw [hself] at h1
        rw [hpcp r hr'] at h2
        exact (key r np fds' fds hr' h2 h1).elim
    · rcases eq_or_ne r p with rfl | hr'
      · rw [hself] at h2
        rw [hpcp q hq] at h1
        exact (key q np fds fds' hq h1 h2).elim
      · rw [hpcp q hq] at h1
        rw [hpcp r hr'] at h2
        exact h.sole q r np fds fds' h1 h2
  · show T.panic ≠ _ ∧ T.panic ≠ _
    rw [hpanic]
    exact h.panics

/-! ## The stores of a step -/

section Stores

variable (h : Inv S) (hp : S.pc p = c₀) (halive : (S.procs p).state = .alive)

include h

/-- A process that is not alive is in no call. -/
theorem Inv.idle (hstate : (S.procs q).state ≠ .alive) : (S.pc q).isIdle = true := by
  cases hc : (S.pc q).isIdle with
  | true => rfl
  | false => exact absurd ((h.locals q).alive hc) hstate

/-- A child is an embryo, so it is not a process that runs. -/
theorem Inv.child_ne (halive : (S.procs p).state = .alive) {np : Pid} {fds : List Fd}
    (hc : (S.pc q).child = some (np, fds)) : np ≠ p := by
  rintro rfl
  have := ((h.locals q).child np fds hc).1
  rw [halive] at this
  cases this

include hp halive

/-- No store. -/
theorem Inv.goto (hb : c.has = c₀.has) (hme : Knows S.procs S.files p c)
    (hchild : ∀ np fds, c.child = some (np, fds) → ∃ fds', c₀.child = some (np, fds')) : Inv (S.setPc p c) :=
  h.move (δ := 0) hp rfl rfl ((add_zero S.has).symm ▸ h.acct) (hb.trans (add_zero _).symm) (fun q _ => h.locals q)
    (hme.toLocal halive) fun np fds hc => .inl (hchild np fds hc)

/-- A store to a descriptor of its own. -/
theorem Inv.slot {o : Option FileId} (hb : c.has = c₀.has + (inSlot ((S.procs p).ofile fd) - inSlot o))
    (hme : Knows (S.setOfile p fd o).procs S.files p c) (hchild : c.child = none) :
    Inv ((S.setOfile p fd o).setPc p c) := by
  have hsame : ∀ r, r ≠ p → (S.setOfile p fd o).procs r = S.procs r := fun r hr => update_of_ne hr ..
  refine h.move hp rfl rfl (h.acct.setOfile p fd o) hb (fun q hq => ?_)
    (hme.toLocal ((setOfile_state ..).trans halive)) fun np fds hc => ?_
  · refine (h.locals q).other rfl ?_ (fun _ _ => rfl) fun np fds hc => ?_
    · rw [hsame q hq]
      exact ⟨rfl, rfl⟩
    · rw [hsame np (h.child_ne halive hc)]
      exact ⟨rfl, rfl⟩
  · rw [hchild] at hc
    cases hc

/-- A store to a file on which no other process has a claim that it relies on. -/
theorem Inv.file {x : File} (hx : x.ref = 0 → x.pipe = none) (hnot : ∀ q, q ≠ p → f ∉ (S.pc q).fresh)
    (hb : c.has = c₀.has + (x.due f - (S.files f).due f)) (hme : Knows S.procs (S.setFile f x).files p c)
    (hchild : ∀ np fds, c.child = some (np, fds) → ∃ fds', c₀.child = some (np, fds')) :
    Inv ((S.setFile f x).setPc p c) := by
  refine h.move hp rfl rfl (h.acct.setFile f x hx) hb (fun q hq => ?_) (hme.toLocal halive)
    fun np fds hc => .inl (hchild np fds hc)
  refine (h.locals q).other rfl ⟨rfl, rfl⟩ (fun g hg => ?_) fun _ _ _ => ⟨rfl, rfl⟩
  refine update_of_ne ?_ ..
  rintro rfl
  exact hnot q hq hg

/-- A store to a pipe. -/
theorem Inv.pipes {P : PipeId → Pipe} {n : PipeId} {δ : Item → Int}
    (hA : Acct (S.has + δ) { S with pipes := P, next := n }) (hb : c.has = c₀.has + δ)
    (hme : Knows S.procs S.files p c) (hchild : c.child = none) : Inv ({ S with pipes := P, next := n }.setPc p c) := by
  refine h.move hp rfl rfl hA hb (fun q _ => ?_) (hme.toLocal (T := { S with pipes := P, next := n }) halive)
    fun np fds hc => ?_
  · exact (h.locals q).other rfl ⟨rfl, rfl⟩ (fun _ _ => rfl) fun _ _ _ => ⟨rfl, rfl⟩
  · rw [hchild] at hc
    cases hc

/-- A store to the child, or to a process that has ended. -/
theorem Inv.proc {np : Pid} {x : Proc} {δ : Item → Int} (hne : np ≠ p) (hidle : (S.pc np).isIdle = true)
    (hA : Acct (S.has + δ) (S.setProc np x))
    (hnone : x.state = .unused ∨ x.state = .zombie → ∀ fd, x.ofile fd = none)
    (hothers : ∀ q fds, q ≠ p → (S.pc q).child ≠ some (np, fds)) (hb : c.has = c₀.has + δ)
    (hme : Knows (S.setProc np x).procs S.files p c) (hchild : ∀ np' fds, c.child = some (np', fds) → np' = np) :
    Inv ((S.setProc np x).setPc p c) := by
  have hself : (S.setProc np x).procs np = x := update_self ..
  have hsame : ∀ r, r ≠ np → (S.setProc np x).procs r = S.procs r := fun r hr => update_of_ne hr ..
  refine h.move hp rfl rfl hA hb (fun q hq => ?_) (hme.toLocal (T := S.setProc np x) ?_) fun np' fds hc => ?_
  · rcases eq_or_ne q np with rfl | hqn
    · refine local_idle hidle ?_
      rw [hself]
      exact hnone
    · refine (h.locals q).other rfl ?_ (fun _ _ => rfl) fun np' fds hc => ?_
      · rw [hsame q hqn]
        exact ⟨rfl, rfl⟩
      · have hnp : np' ≠ np := by
          rintro rfl
          exact hothers q fds hq hc
        rw [hsame np' hnp]
        exact ⟨rfl, rfl⟩
  · rw [hsame p hne.symm]
    exact halive
  · obtain rfl := hchild np' fds hc
    subst hp
    by_cases hmine : ∃ fds', (S.pc p).child = some (np', fds')
    · exact .inl hmine
    · refine .inr fun q fds' hq => ?_
      rcases eq_or_ne q p with rfl | hqp
      · exact hmine ⟨fds', hq⟩
      · exact hothers q fds' hqp hq

end Stores

end Xv6.Ftable
