/-
  THE ACCOUNTS OF THE FILE TABLE.

  Three things are accounted for, and each has its `Item`:

  * a reference of a file: a descriptor that points to it, or one that a call has in hand;
  * an end of a pipe that is open: the one file that stands for it, or the one call that has yet to store it
    in a file, or to close it;
  * a pipe with both ends closed: it has been freed, or one call is about to free it.

  An amount of items is a function `Item → Int`, so amounts add up.  `St.balance` is what the tables leave
  open and the calls must have; each store of a step changes it by a known amount, and the next `Pc` of the
  process has just that.
-/
import Mathlib
import Xv6.Ftable.Steps
import Xv6.Lib.Counting

namespace Xv6.Ftable

open Function (update update_self update_of_ne)

variable {S T : St} {p : Pid} {f : FileId} {v : PipeId} {w : Bool}

/-! ## Items -/

/-- What is accounted for. -/
inductive Item
  | file (f : FileId)
  | openEnd (v : PipeId) (w : Bool)
  | page (v : PipeId)
  deriving DecidableEq

/-- One item. -/
def one (i : Item) : Item → Int := Pi.single i 1

theorem one_apply (i j : Item) : one i j = if i = j then 1 else 0 := by
  simp only [one, Pi.single_apply, eq_comm]

/-- What a descriptor accounts for. -/
def inSlot : Option FileId → Item → Int
  | none => 0
  | some f => one (.file f)

/-- What a file accounts for. -/
def inFile : Option (PipeId × Bool) → Item → Int
  | none => 0
  | some (v, w) => one (.openEnd v w)

theorem inSlot_nonneg (o : Option FileId) (i : Item) : 0 ≤ inSlot o i := by
  cases o with
  | none => exact Int.le_refl 0
  | some f => rw [inSlot, one_apply]; split <;> omega

theorem inFile_nonneg (e : Option (PipeId × Bool)) (i : Item) : 0 ≤ inFile e i := by
  cases e with
  | none => exact Int.le_refl 0
  | some e => rw [inFile, one_apply]; split <;> omega

theorem inFile_openEnd (e : Option (PipeId × Bool)) (v : PipeId) (w : Bool) :
    inFile e (.openEnd v w) = if e = some (v, w) then 1 else 0 := by
  cases e with
  | none => rfl
  | some e => simp [inFile, one_apply, Prod.ext_iff]

/-- Is that end open? -/
def Pipe.flag (x : Pipe) (writable : Bool) : Bool := if writable then x.writeopen else x.readopen

/-- Both ends are closed. -/
def Pipe.dead (x : Pipe) : Bool := !x.readopen && !x.writeopen

/-- What a file leaves open: its references, less the end of a pipe that it is. -/
def File.due (x : File) (f : FileId) : Item → Int := (x.ref : Int) • one (.file f) - inFile x.pipe

/-- What a pipe leaves open: its ends, and its page from when they are closed until it is freed. -/
def Pipe.due (x : Pipe) (v : PipeId) : Item → Int :=
  (x.readopen.toInt • one (.openEnd v false) + x.writeopen.toInt • one (.openEnd v true)) +
    (x.dead.toInt - x.freed) • one (.page v)

namespace St

variable (S : St)

/-- What the descriptors of a process account for. -/
def slotsOf (q : Pid) : Item → Int := ∑ fd, inSlot ((S.procs q).ofile fd)

/-- What all descriptors account for. -/
def slots : Item → Int := ∑ q, S.slotsOf q

/-- What all files leave open. -/
def filesDue : Item → Int := ∑ f, (S.files f).due f

/-- What all pipes leave open. -/
def pipesDue : Item → Int := ∑ v ∈ Finset.range S.next, (S.pipes v).due v

/-- What is left for the calls in progress to have. -/
def balance : Item → Int := S.filesDue + S.pipesDue - S.slots

end St

section

variable (S p) (fd : Fd) (o : Option FileId)

theorem setOfile_state : ((S.setOfile p fd o).procs p).state = (S.procs p).state := by
  simp only [St.setOfile, St.setProc, update_self]

theorem setOfile_ofile : ((S.setOfile p fd o).procs p).ofile = update (S.procs p).ofile fd o := by
  simp only [St.setOfile, St.setProc, update_self]

theorem slots_setOfile :
    (S.setOfile p fd o).slots = S.slots - inSlot ((S.procs p).ofile fd) + inSlot o := by
  have hown : (S.setOfile p fd o).slotsOf p = S.slotsOf p - inSlot ((S.procs p).ofile fd) + inSlot o := by
    unfold St.slotsOf
    rw [setOfile_ofile, Counting.sum_change (f := fun i => inSlot ((S.procs p).ofile i)) fd, update_self]
    intro i hi
    rw [update_of_ne hi]
  unfold St.slots
  rw [Counting.sum_change (f := fun q => S.slotsOf q) p, hown]
  · abel
  · intro q hq
    simp only [St.slotsOf, St.setOfile, St.setProc, update_of_ne hq]

end

/-! ## The accounts -/

/-- The calls in progress have `N`. -/
structure Acct (N : Item → Int) (S : St) : Prop where
  total : S.balance = N
  unused : ∀ f, (S.files f).ref = 0 → (S.files f).pipe = none
  unborn : ∀ v, S.next ≤ v → S.pipes v = ⟨false, false, 0⟩

section Acct

variable {N : Item → Int} (h : Acct N S)

include h

/-- The accounts do not depend on where the processes are. -/
theorem Acct.setPc (p : Pid) (c : Pc) : Acct N (S.setPc p c) := ⟨h.total, h.unused, h.unborn⟩

theorem Acct.procs {P : Pid → Proc} (hP : ∀ q, (P q).ofile = (S.procs q).ofile) :
    Acct N { S with procs := P } := by
  refine ⟨Eq.trans ?_ h.total, h.unused, h.unborn⟩
  simp only [St.balance, St.slots, St.slotsOf, hP]
  rfl

theorem Acct.setProc {q : Pid} {x : Proc} (hx : x.ofile = (S.procs q).ofile) : Acct N (S.setProc q x) := by
  refine h.procs fun r => ?_
  rcases eq_or_ne r q with rfl | hr
  · rw [update_self]
    exact hx
  · rw [update_of_ne hr]

theorem Acct.setOfile (p : Pid) (fd : Fd) (o : Option FileId) :
    Acct (N + (inSlot ((S.procs p).ofile fd) - inSlot o)) (S.setOfile p fd o) := by
  refine ⟨?_, h.unused, h.unborn⟩
  show S.filesDue + S.pipesDue - (S.setOfile p fd o).slots = _
  rw [slots_setOfile, ← h.total, St.balance]
  abel

theorem Acct.setFile (f : FileId) (x : File) (hx : x.ref = 0 → x.pipe = none) :
    Acct (N + (x.due f - (S.files f).due f)) (S.setFile f x) := by
  refine ⟨?_, fun g hg => ?_, h.unborn⟩
  · show ∑ g, (update S.files f x g).due g + S.pipesDue - S.slots = _
    rw [Counting.sum_change (f := fun g => (S.files g).due g) f, update_self, ← h.total, St.balance, St.filesDue]
    · abel
    · intro g hg
      rw [update_of_ne hg]
  · rcases eq_or_ne g f with rfl | hgf
    · simp only [St.setFile, update_self] at hg ⊢
      exact hx hg
    · simp only [St.setFile, update_of_ne hgf] at hg ⊢
      exact h.unused g hg

/-- A change of a pipe that is there. -/
theorem Acct.setPipe (x : Pipe) (hv : v < S.next) :
    Acct (N + (x.due v - (S.pipes v).due v)) (S.setPipe v x) := by
  refine ⟨?_, h.unused, fun u hu => ?_⟩
  · show S.filesDue + ∑ u ∈ Finset.range S.next, (update S.pipes v x u).due u - S.slots = _
    rw [Counting.sum_change_mem (f := fun u => (S.pipes u).due u) (Finset.mem_range.mpr hv), update_self,
      ← h.total, St.balance, St.pipesDue]
    · abel
    · intro u hu
      rw [update_of_ne hu]
  · have hne : u ≠ v := by
      rintro rfl
      exact absurd hv (Nat.not_lt.mpr hu)
    exact (update_of_ne hne ..).trans (h.unborn u hu)

/-- A new pipe: the call has both of its ends. -/
theorem Acct.newPipe : Acct (N + (one (.openEnd S.next false) + one (.openEnd S.next true)))
    { S.setPipe S.next ⟨true, true, 0⟩ with next := S.next + 1 } := by
  have hdue : (⟨true, true, 0⟩ : Pipe).due S.next = one (.openEnd S.next false) + one (.openEnd S.next true) := by
    simp [Pipe.due, Pipe.dead]
  refine ⟨?_, h.unused, fun v hv => ?_⟩
  · show S.filesDue + ∑ u ∈ Finset.range (S.next + 1), (update S.pipes S.next _ u).due u - S.slots = _
    have hold : ∑ u ∈ Finset.range S.next, (update S.pipes S.next ⟨true, true, 0⟩ u).due u =
        ∑ u ∈ Finset.range S.next, (S.pipes u).due u :=
      Finset.sum_congr rfl fun u hu => by rw [update_of_ne (Finset.mem_range.mp hu).ne]
    rw [Finset.sum_range_succ, update_self, hdue, hold, ← h.total, St.balance, St.pipesDue]
    abel
  · have hne : v ≠ S.next := by
      rintro rfl
      exact Nat.not_succ_le_self _ hv
    exact (update_of_ne hne ..).trans (h.unborn v (Nat.le_of_succ_le hv))

/-! ## Each kind of item -/

theorem Acct.refs (f : FileId) : ((S.files f).ref : Int) = S.slots (.file f) + N (.file f) := by
  have hend : ∀ e, inFile e (.file f) = 0 := by
    rintro (_ | e)
    · rfl
    · simp [inFile, one_apply]
  have hfile : S.filesDue (.file f) = (S.files f).ref := by
    simp [St.filesDue, File.due, one_apply, hend]
  have hpipe : S.pipesDue (.file f) = 0 := by
    simp [St.pipesDue, Pipe.due, one_apply]
  have := congrFun h.total (.file f)
  simp only [St.balance, Pi.add_apply, Pi.sub_apply, hfile, hpipe] at this
  omega

/-- A pipe is there from its number on. -/
theorem Acct.born (hflag : (S.pipes v).flag w = true) : v < S.next := by
  by_contra hge
  rw [h.unborn v (Nat.le_of_not_lt hge)] at hflag
  cases w <;> cases hflag

omit h

theorem slots_pipe {i : Item} (hi : ∀ f, i ≠ .file f) : S.slots i = 0 := by
  have hslot : ∀ o, inSlot o i = 0 := by
    rintro (_ | f)
    · rfl
    · rw [inSlot, one_apply, if_neg (hi f).symm]
  simp only [St.slots, St.slotsOf, Finset.sum_apply, hslot, Finset.sum_const_zero]

/-- An item of one pipe. -/
theorem pipesDue_apply {i : Item} (hi : ∀ u, u ≠ v → ∀ x : Pipe, x.due u i = 0) :
    S.pipesDue i = if v < S.next then (S.pipes v).due v i else 0 := by
  rw [St.pipesDue, Finset.sum_apply]
  split
  · rename_i hv
    exact Finset.sum_eq_single_of_mem v (Finset.mem_range.mpr hv) fun u _ hu => hi u hu _
  · rename_i hv
    refine Finset.sum_eq_zero fun u hu => hi u ?_ _
    rintro rfl
    exact hv (Finset.mem_range.mp hu)

/-- How many files stand for an end of a pipe. -/
def St.fileEnds (S : St) (v : PipeId) (w : Bool) : Int := ∑ f, inFile (S.files f).pipe (.openEnd v w)

include h

theorem Acct.ends (v : PipeId) (w : Bool) :
    S.fileEnds v w + N (.openEnd v w) = if (S.pipes v).flag w then 1 else 0 := by
  have hfile : S.filesDue (.openEnd v w) = -S.fileEnds v w := by
    simp [St.filesDue, File.due, St.fileEnds, one_apply]
  have hpipe : S.pipesDue (.openEnd v w) = if v < S.next then ((S.pipes v).flag w).toInt else 0 := by
    rw [pipesDue_apply (v := v) fun u hu x => by simp [Pipe.due, one_apply, hu]]
    cases w <;> simp [Pipe.due, Pipe.flag, one_apply]
  have := congrFun h.total (.openEnd v w)
  simp only [St.balance, Pi.add_apply, Pi.sub_apply, hfile, hpipe, slots_pipe (i := .openEnd v w) nofun] at this
  cases hflag : (S.pipes v).flag w with
  | false =>
    simp only [hflag, Bool.toInt_false, ite_self] at this
    simp only [Bool.false_eq_true, if_false]
    omega
  | true =>
    simp only [hflag, h.born hflag, if_true, Bool.toInt_true] at this
    simp only [if_true]
    omega

theorem Acct.freed (v : PipeId) :
    ((S.pipes v).freed : Int) + N (.page v) = if v < S.next ∧ (S.pipes v).dead then 1 else 0 := by
  have hfile : S.filesDue (.page v) = 0 := by
    have hend : ∀ e, inFile e (.page v) = 0 := by
      rintro (_ | e)
      · rfl
      · simp [inFile, one_apply]
    simp [St.filesDue, File.due, one_apply, hend]
  have hpipe : S.pipesDue (.page v) = if v < S.next then (S.pipes v).dead.toInt - (S.pipes v).freed else 0 := by
    rw [pipesDue_apply (v := v) fun u hu x => by simp [Pipe.due, one_apply, hu]]
    simp [Pipe.due, one_apply]
  have := congrFun h.total (.page v)
  simp only [St.balance, Pi.add_apply, Pi.sub_apply, hfile, hpipe, slots_pipe (i := .page v) nofun] at this
  by_cases hv : v < S.next
  · simp only [hv, if_true] at this
    cases hdead : (S.pipes v).dead with
    | false => simp [hdead] at this ⊢; omega
    | true => simp [hdead, hv] at this ⊢; omega
  · rw [h.unborn v (Nat.le_of_not_lt hv)]
    simp [hv] at this ⊢
    omega

end Acct

end Xv6.Ftable
