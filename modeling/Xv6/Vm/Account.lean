/-
  WHO HAS A PAGE, AND WHO HAS A FILE.

  1. **Pages** (`St.owners`) — how many times a page is on the free list, in a process, in a pipe, or a CPU's
     stack.  Calls move pages between these; what is in a local variable in between is missing from the sum.
  2. **Files** (`FilesOk`) — references are counted in the same way, with what a call has in `hand`.  A pipe
     is there as long as a file stands for one of its ends.
  3. **`Acct`** — both accounts, and what `filealloc`, `filedup`, `fdalloc`, `fileclose` and the making of a
     pipe do to them.
-/
import Xv6.Vm.Calls
import Xv6.Vm.Tables

namespace Xv6.Vm

open Machines Outcome
open Function (update update_self update_apply update_of_ne)

variable {S T : St} {p : Slot} {x : Page}

/-! ## The account -/

def dirOwns : Option Pgdir → Page → Int
  | none, _ => 0
  | some A, x => A.owns x

/-- The pages of a process: its kernel stack, and its address space from `fork` to `wait`. -/
def Proc.owns (a : Proc) (x : Page) : Int :=
  match a.state with
  | .unused => 0
  | .embryo => ofOption a.kstack x
  | .alive | .zombie => ofOption a.kstack x + dirOwns a.pgdir x

def pipeOwns (P : Page → Option Pipe) (x : Page) : Int := if (P x).isSome then 1 else 0

def St.owners (S : St) (x : Page) : Int :=
  S.mem.owns x + ∑ p, (S.procs p).owns x + dirOwns S.kpgdir x + pipeOwns S.pipes x + S.cpus.count x

theorem dirOwns_nonneg (A : Option Pgdir) (x : Page) : 0 ≤ dirOwns A x := by
  cases A with
  | none => exact Int.le_refl 0
  | some A => exact A.owns_nonneg x

theorem Proc.owns_nonneg (a : Proc) (x : Page) : 0 ≤ a.owns x := by
  have h1 := ofOption_nonneg a.kstack x
  have h2 := dirOwns_nonneg a.pgdir x
  unfold Proc.owns
  split <;> omega

/-- A page of a pipe is in no other role, if it has at most one. -/
theorem St.pipe_le (S : St) (x : Page) : pipeOwns S.pipes x ≤ S.owners x := by
  have h1 : 0 ≤ ∑ p, (S.procs p).owns x := Finset.sum_nonneg fun p _ => (S.procs p).owns_nonneg x
  have h2 := dirOwns_nonneg S.kpgdir x
  unfold St.owners Mem.owns
  omega

theorem owners_mem (S : St) (m : Mem) (x : Page) :
    { S with mem := m }.owners x = S.owners x - S.mem.owns x + m.owns x := by
  unfold St.owners
  dsimp only
  omega

theorem owners_setProc (S : St) (p : Slot) (f : Proc → Proc) (x : Page) :
    (S.setProc p f).owners x = S.owners x - (S.procs p).owns x + (f (S.procs p)).owns x := by
  have hsum : ∑ q, ((S.setProc p f).procs q).owns x =
      ∑ q, (S.procs q).owns x - (S.procs p).owns x + (f (S.procs p)).owns x := by
    rw [Counting.sum_change (f := fun q => (S.procs q).owns x) p]
    · simp only [St.setProc, update_self]
    · intro q hq
      simp only [St.setProc, update_of_ne hq]
  unfold St.owners
  rw [hsum]
  simp only [St.setProc]
  omega

theorem inMem_spec {α : Type} {f : VmProg α} {Q : α → Mem → Prop} {E : Panic → Prop} (h : Meets (f S.mem) Q E) :
    Ends (inMem f S) fun a T => ∃ m, T = { S with mem := m } ∧ Q a m := by
  unfold inMem Ends
  cases hf : f S.mem with
  | error e => trivial
  | ok r =>
    obtain ⟨a, m⟩ := r
    rw [hf] at h
    exact ⟨m, rfl, h⟩

/-! ## Files -/

/-- How many descriptors refer to a file. -/
def St.slots (S : St) (f : FileId) : Int := ∑ p, ∑ fd, if (S.procs p).ofile fd = some f then 1 else 0

def Pipe.flag (x : Pipe) (writable : Bool) : Bool := if writable then x.writeopen else x.readopen

/-- One, if this is the file. -/
def ofFile (g f : FileId) : Int := if g = f then 1 else 0

/-- One, if the file is this end of the pipe in page `v`. -/
def File.isEnd (a : File) (v : Page) (w : Bool) : Int := if a.pipe = some (v, w) then 1 else 0

/-- One, if this end of the pipe in page `v` is open. -/
def openEnd (P : Page → Option Pipe) (v : Page) (w : Bool) : Int := if (P v).any (·.flag w) then 1 else 0

/-- The file table, the pipes, and the references that the call in progress has `hand` of: an end of a pipe is
    open while a file stands for it. -/
structure FilesOk (S : St) (hand : FileId → Int) : Prop where
  ref : ∀ f, ((S.files f).ref : Int) = S.slots f + hand f
  ends : ∀ v w, ∑ f, (S.files f).isEnd v w = openEnd S.pipes v w
  unused : ∀ f, (S.files f).ref = 0 → (S.files f).pipe = none
  live : ∀ v x, S.pipes v = some x → x.readopen = true ∨ x.writeopen = true

variable {f : FileId} {w : Bool} {v : Page}

theorem FilesOk.isOpen {hand : FileId → Int} (h : FilesOk S hand) (hf : (S.files f).pipe = some (v, w)) :
    ∃ x, S.pipes v = some x ∧ x.flag w = true := by
  have hnonneg : ∀ g, 0 ≤ (S.files g).isEnd v w := fun g => by unfold File.isEnd; split <;> omega
  have hle := Counting.le_sum hnonneg f
  rw [h.ends, File.isEnd, if_pos hf, openEnd] at hle
  split at hle
  · rename_i hx
    exact (Option.any_eq_true _ _).mp hx
  · omega

/-- A file is overwritten, and one end of a pipe opened or closed with it. -/
theorem FilesOk.setFile {hand hand' : FileId → Int} {a : File} {P : Page → Option Pipe} (h : FilesOk S hand)
    (hr : (a.ref : Int) = S.slots f + hand' f) (hh : ∀ g, g ≠ f → hand' g = hand g)
    (hends : ∀ v w, openEnd P v w = openEnd S.pipes v w - (S.files f).isEnd v w + a.isEnd v w)
    (hun : a.ref = 0 → a.pipe = none) (hlive : ∀ v x, P v = some x → x.readopen = true ∨ x.writeopen = true) :
    FilesOk { S.setFile f a with pipes := P } hand' := by
  have hself : (S.setFile f a).files f = a := update_self ..
  have hother : ∀ g, g ≠ f → (S.setFile f a).files g = S.files g := fun g hg => update_of_ne hg ..
  refine ⟨fun g => ?_, fun v w => ?_, fun g hg => ?_, hlive⟩
  · show (((S.setFile f a).files g).ref : Int) = S.slots g + hand' g
    rcases eq_or_ne g f with rfl | hg
    · rw [hself, hr]
    · rw [hother g hg, hh g hg]
      exact h.ref g
  · show ∑ g, ((S.setFile f a).files g).isEnd v w = openEnd P v w
    rw [Counting.sum_change (f := fun g => (S.files g).isEnd v w) f fun g hg => by rw [hother g hg], hself,
      h.ends v w, hends v w]
  · replace hg : ((S.setFile f a).files g).ref = 0 := hg
    show ((S.setFile f a).files g).pipe = none
    rcases eq_or_ne g f with rfl | hgf
    · rw [hself] at hg ⊢
      exact hun hg
    · rw [hother g hgf] at hg ⊢
      exact h.unused g hg

/-- A change of the references to one file, whose end of a pipe stays as it is. -/
theorem FilesOk.setRef {hand hand' : FileId → Int} {r : Nat} (h : FilesOk S hand)
    (hr : (r : Int) = S.slots f + hand' f) (hh : ∀ g, g ≠ f → hand' g = hand g)
    (hpos : 0 < r ∨ (S.files f).pipe = none) : FilesOk (S.setFile f ⟨r, (S.files f).pipe⟩) hand' :=
  h.setFile hr hh (fun _ _ => (Int.sub_add_cancel _ _).symm)
    (fun h0 => hpos.resolve_left (Nat.not_lt.mpr (Nat.le_zero.mpr h0))) h.live

theorem slots_nonneg (S : St) (f : FileId) : 0 ≤ S.slots f := by
  refine Finset.sum_nonneg fun p _ => Finset.sum_nonneg fun fd _ => ?_
  split <;> omega

/-! ## Both accounts -/

/-- The pages other than those in a local variable add up to `K`, those below `t` are managed, and the files
    are in order. -/
structure Acct (K : Page → Int) (t : Page) (hand : FileId → Int) (S : St) : Prop where
  pages : ∀ x, S.owners x = K x
  top : S.top = t
  files : FilesOk S hand

section Acct

variable {K K' : Page → Int} {t : Page} {hand hand' : FileId → Int}

theorem Acct.cast (h : Acct K t hand S) (hK : ∀ x, K x = K' x) (hh : ∀ f, hand f = hand' f) : Acct K' t hand' S := by
  obtain rfl : K = K' := funext hK
  obtain rfl : hand = hand' := funext hh
  exact h

theorem Acct.mem (h : Acct K t hand S) (m : Mem) :
    Acct (fun x => K x - S.mem.owns x + m.owns x) t hand { S with mem := m } := by
  refine ⟨fun x => ?_, h.top, ?_⟩
  · rw [owners_mem, h.pages x]
  · exact { h.files with }

/-- Pages that move between the processes and the call, while the descriptors stay as they are. -/
theorem Acct.setProc (h : Acct K t hand S) (p : Slot) (f : Proc → Proc)
    (hof : (f (S.procs p)).ofile = (S.procs p).ofile) :
    Acct (fun x => K x - (S.procs p).owns x + (f (S.procs p)).owns x) t hand (S.setProc p f) := by
  have hslots : ∀ g, (S.setProc p f).slots g = S.slots g := by
    intro g
    unfold St.slots
    refine Finset.sum_congr rfl fun q _ => ?_
    rcases eq_or_ne q p with rfl | hq
    · simp only [St.setProc, update_self, hof]
    · simp only [St.setProc, update_of_ne hq]
  refine ⟨fun x => ?_, h.top, ?_⟩
  · rw [owners_setProc, h.pages x]
  · refine { h.files with ref := fun g => ?_ }
    rw [hslots]
    exact h.files.ref g

/-- One, if this is the file in the descriptor. -/
def ofSlot (v : Option FileId) (f : FileId) : Int := if v = some f then 1 else 0

theorem ofSlot_some (g f : FileId) : ofSlot (some g) f = ofFile g f := by
  unfold ofSlot ofFile
  simp only [Option.some.injEq]

/-- What was in the descriptor is in hand now, and what is in it no longer is. -/
theorem Acct.setOfile (h : Acct K t hand S) (p : Slot) (fd : Fd) (v : Option FileId) :
    Acct K t (fun f => hand f + ofSlot ((S.procs p).ofile fd) f - ofSlot v f) (S.setOfile p fd v) := by
  have hslots : ∀ f, (S.setOfile p fd v).slots f = S.slots f - ofSlot ((S.procs p).ofile fd) f + ofSlot v f := by
    intro f
    have hrow : (∑ i, if update (S.procs p).ofile fd v i = some f then (1 : Int) else 0) =
        (∑ i, if (S.procs p).ofile i = some f then (1 : Int) else 0) - ofSlot ((S.procs p).ofile fd) f +
          ofSlot v f := by
      rw [Counting.sum_change (f := fun i => if (S.procs p).ofile i = some f then (1 : Int) else 0) fd
        fun i hi => by rw [update_of_ne hi], update_self]
      rfl
    unfold St.slots
    rw [Counting.sum_change (f := fun q => ∑ i, if (S.procs q).ofile i = some f then (1 : Int) else 0) p]
    · simp only [St.setOfile, St.setProc, update_self]
      rw [hrow]
      omega
    · intro q hq
      simp only [St.setOfile, St.setProc, update_of_ne hq]
  refine ⟨fun x => ?_, h.top, ?_⟩
  · unfold St.setOfile
    rw [owners_setProc, h.pages x]
    exact Int.sub_add_cancel _ _
  · refine { h.files with ref := fun f => ?_ }
    have := h.files.ref f
    rw [hslots]
    show ((S.files f).ref : Int) = _
    omega

/-! ## `file.c`, `pipe.c` -/

theorem filealloc_spec (h : Acct K t hand S) :
    Ends (filealloc S) fun r T => T.procs = S.procs ∧
      match r with
      | none => T = S
      | some f => (S.files f).ref = 0 ∧ (T.files f).pipe = none ∧ (∀ g, g ≠ f → T.files g = S.files g) ∧
          Acct K t (fun g => hand g + ofFile f g) T := by
  unfold filealloc
  split
  · exact ⟨rfl, rfl⟩
  · rename_i f hf
    have hzero : (S.files f).ref = 0 := of_decide_eq_true (List.find?_some hf :)
    have hnone := h.files.unused f hzero
    refine ⟨rfl, hzero, ?_, fun g hg => ?_, h.pages, h.top, h.files.setRef ?_ (fun g hg => ?_) (.inl Nat.one_pos)⟩
    · simp only [St.setFile, update_self]
      exact hnone
    · simp only [St.setFile, update_of_ne hg]
    · have := h.files.ref f
      rw [ofFile, if_pos rfl]
      omega
    · rw [ofFile, if_neg hg.symm, Int.add_zero]

theorem filedup_spec (h : Acct K t hand S) (f : FileId) :
    Ends (filedup f S) fun _ T => T.procs = S.procs ∧ Acct K t (fun g => hand g + ofFile f g) T := by
  unfold filedup
  split
  · trivial
  · refine ⟨rfl, h.pages, h.top, h.files.setRef ?_ (fun g hg => ?_) (.inl (Nat.succ_pos _))⟩
    · have := h.files.ref f
      rw [ofFile, if_pos rfl]
      omega
    · rw [ofFile, if_neg hg.symm, Int.add_zero]

theorem fdalloc_spec (h : Acct K t hand S) (p : Slot) (f : FileId) :
    Ends (fdalloc p f S) fun r T =>
      match r with
      | none => T = S
      | some fd => (S.procs p).ofile fd = none ∧ T = S.setOfile p fd (some f) ∧
          Acct K t (fun g => hand g - ofFile f g) T := by
  unfold fdalloc
  split
  · rfl
  · rename_i fd hfd
    have hnone : (S.procs p).ofile fd = none := of_decide_eq_true (List.find?_some hfd :)
    refine ⟨hnone, rfl, (h.setOfile p fd (some f)).cast (fun _ => rfl) fun g => ?_⟩
    rw [hnone, ofSlot_some]
    simp only [ofSlot, reduceCtorEq, if_false, Int.add_zero]

/-- The pages when a pipe comes or goes. -/
theorem owners_pipes (S : St) (m : Mem) (F : FileId → File) (P : Page → Option Pipe) (x : Page) :
    { S with mem := m, files := F, pipes := P }.owners x =
      S.owners x - S.mem.owns x + m.owns x - pipeOwns S.pipes x + pipeOwns P x := by
  unfold St.owners
  dsimp only
  omega

theorem pipeOwns_update (P : Page → Option Pipe) (v : Page) (y : Option Pipe) (x : Page) :
    pipeOwns (update P v y) x = if x = v then (if y.isSome then 1 else 0) else pipeOwns P x := by
  unfold pipeOwns
  rw [update_apply]
  split <;> rfl

/-- The file of a pipe's end that is closed: nobody refers to it any more. -/
theorem FilesOk.clear (h : FilesOk S hand) (href : (S.files f).ref = 1)
    (hpipe : (S.files f).pipe = none) : FilesOk (S.setFile f ⟨0, none⟩) fun g => hand g - ofFile f g := by
  have hset : FilesOk (S.setFile f ⟨0, (S.files f).pipe⟩) fun g => hand g - ofFile f g := by
    refine h.setRef ?_ (fun g hg => ?_) (.inr hpipe)
    · have := h.ref f
      rw [ofFile, if_pos rfl]
      omega
    · rw [ofFile, if_neg hg.symm, Int.sub_zero]
  rw [hpipe] at hset
  exact hset

/-- A pipe with one end closed. -/
def Pipe.close (x : Pipe) (writable : Bool) : Pipe :=
  if writable then { x with writeopen := false } else { x with readopen := false }

/-- **The last reference to an end of a pipe.**  The pipe stays if its other end is open. -/
theorem FilesOk.closeEnd {x : Pipe} {r : Option Pipe} (h : FilesOk S hand)
    (href : (S.files f).ref = 1) (hpipe : (S.files f).pipe = some (v, w)) (hx : S.pipes v = some x)
    (hw : x.flag w = true)
    (hr : r = if (x.close w).readopen = false ∧ (x.close w).writeopen = false then none
      else some (x.close w)) :
    FilesOk { S.setFile f ⟨0, none⟩ with pipes := update S.pipes v r } fun g => hand g - ofFile f g := by
  refine h.setFile ?_ (fun g hg => ?_) (fun v' w' => ?_) (fun _ => rfl) fun v' x' hv' => ?_
  · have := h.ref f
    rw [ofFile, if_pos rfl]
    dsimp only
    omega
  · rw [ofFile, if_neg hg.symm, Int.sub_zero]
  · unfold openEnd File.isEnd
    rw [hpipe, update_apply]
    rcases eq_or_ne v' v with rfl | hv
    · -- the flag that was set is cleared, and the other one stays
      obtain ⟨readopen, writeopen⟩ := x
      rw [if_pos rfl, hx, hr]
      cases w <;> cases w' <;> cases readopen <;> cases writeopen <;> simp_all [Pipe.flag, Pipe.close]
    · simp [hv, hv.symm]
  · rw [update_apply] at hv'
    split at hv'
    · rw [hr] at hv'
      split at hv'
      · cases hv'
      · rename_i hopen
        obtain rfl : x.close w = x' := Option.some.inj hv'
        rw [not_and_or, Bool.not_eq_false, Bool.not_eq_false] at hopen
        exact hopen
    · exact h.live v' x' hv'

/-- `pipeclose`, as `fileclose` calls it. -/
theorem pipeclose_spec (L : Layout) (h : Acct K t hand S)
    (href : (S.files f).ref = 1) (hpipe : (S.files f).pipe = some (v, w)) :
    Ends (pipeclose L v w (S.setFile f ⟨0, none⟩)) fun _ T => T.procs = S.procs ∧
      Acct K t (fun g => hand g - ofFile f g) T := by
  obtain ⟨x, hx, hw⟩ := h.files.isOpen hpipe
  have hfiles := h.files.closeEnd (r := _) href hpipe hx hw rfl
  have hhad : pipeOwns S.pipes v = 1 := by rw [pipeOwns, hx, Option.isSome_some, if_pos rfl]
  have hpipes : (S.setFile f ⟨0, none⟩).pipes v = some x := hx
  unfold pipeclose
  rw [hpipes]
  show Ends (if (x.close w).readopen = false ∧ (x.close w).writeopen = false then _ else _) _
  split
  · rename_i hclosed
    rw [if_pos hclosed] at hfiles
    refine (inMem_spec (kfree_spec L v _)).mono ?_
    rintro _ T ⟨m, rfl, hm⟩
    refine ⟨rfl, fun y => ?_, h.top, { hfiles with }⟩
    have hy : m.owns y = S.mem.owns y + ofPage v y := hm y
    refine (owners_pipes S _ _ _ y).trans ?_
    rw [h.pages y]
    dsimp only [St.setFile]
    rw [hy, pipeOwns_update]
    unfold ofPage
    rcases eq_or_ne y v with rfl | hyv
    · rw [if_pos rfl, if_pos rfl, hhad]
      simp only [Option.isSome_none, Bool.false_eq_true, if_false]
      omega
    · rw [if_neg hyv, if_neg hyv.symm]
      omega
  · rename_i hopen
    rw [if_neg hopen] at hfiles
    refine ⟨rfl, fun y => ?_, h.top, hfiles⟩
    refine (owners_pipes S _ _ _ y).trans ?_
    rw [h.pages y]
    dsimp only [St.setFile]
    rw [pipeOwns_update]
    rcases eq_or_ne y v with rfl | hyv
    · rw [if_pos rfl, hhad]
      simp only [Option.isSome_some, if_true]
      omega
    · rw [if_neg hyv]
      omega

/-- **`fileclose`**: one reference less, and no page lost. -/
theorem fileclose_spec (L : Layout) (h : Acct K t hand S) (f : FileId) :
    Ends (fileclose L f S) fun _ T => T.procs = S.procs ∧ Acct K t (fun g => hand g - ofFile f g) T := by
  have hothers : ∀ g, g ≠ f → hand g - ofFile f g = hand g := by
    intro g hg
    rw [ofFile, if_neg hg.symm, Int.sub_zero]
  have href := h.files.ref f
  unfold fileclose
  split
  · trivial
  · split
    · refine ⟨rfl, h.pages, h.top, h.files.setRef ?_ hothers (.inl ?_)⟩
      · rw [ofFile, if_pos rfl]
        omega
      · omega
    · have hone : (S.files f).ref = 1 := by omega
      split
      · rename_i hnone
        exact ⟨rfl, h.pages, h.top, h.files.clear hone hnone⟩
      · rename_i v w hpipe
        exact pipeclose_spec L h hone hpipe

/-- A file becomes an end, which was not open, of the pipe in page `v`. -/
theorem FilesOk.openFile {y : Pipe} (h : FilesOk S hand) (hf : (S.files f).pipe = none) (hr : 0 < (S.files f).ref)
    (hw : y.flag w = true) (hold : openEnd S.pipes v w = 0)
    (hother : openEnd S.pipes v (!w) = if y.flag !w then 1 else 0) :
    FilesOk { S.setFile f { S.files f with pipe := some (v, w) } with pipes := update S.pipes v (some y) } hand := by
  refine h.setFile (h.ref f) (fun _ _ => rfl) (fun v' w' => ?_) (fun h0 => absurd h0 hr.ne') fun v' x hx => ?_
  · rcases eq_or_ne v' v with rfl | hv
    · rcases Bool.eq_or_eq_not w' w with rfl | rfl
      · rw [hold]
        simp [openEnd, File.isEnd, hf, hw]
      · rw [hother]
        simp [openEnd, File.isEnd, hf]
    · simp [openEnd, File.isEnd, hf, hv, hv.symm]
  · rw [update_apply] at hx
    split at hx
    · obtain rfl : y = x := Option.some.inj hx
      cases w
      · exact .inl hw
      · exact .inr hw
    · exact h.live v' x hx

/-- A page in hand becomes a pipe. -/
theorem pipeInit_spec {f0 f1 : FileId} (h : Acct K t hand S) (hv : K v ≤ 0) (hne : f0 ≠ f1)
    (h0 : (S.files f0).pipe = none) (h1 : (S.files f1).pipe = none) (hr0 : 0 < (S.files f0).ref)
    (hr1 : 0 < (S.files f1).ref) :
    Ends (pipeInit f0 f1 v S) fun _ T => T.procs = S.procs ∧ Acct (fun x => K x + ofPage v x) t hand T := by
  have hnew : S.pipes v = none := by
    have := S.pipe_le v
    rw [h.pages v] at this
    unfold pipeOwns at this
    split at this
    · omega
    · rename_i hp
      simpa using hp
  have hempty : ∀ w, openEnd S.pipes v w = 0 := fun w => by simp [openEnd, hnew]
  have hread := h.files.openFile (w := false) (y := ⟨true, false⟩) h0 hr0 rfl (hempty _) (hempty _)
  have hboth := hread.openFile (f := f1) (v := v) (w := true) (y := ⟨true, true⟩) (by simpa [St.setFile, hne.symm] using h1)
    (by simpa [St.setFile, hne.symm] using hr1) rfl (by simp [openEnd, Pipe.flag]) (by simp [openEnd, Pipe.flag])
  refine ⟨rfl, fun x => ?_, h.top, ?_⟩
  · refine (owners_pipes S _ _ _ x).trans ?_
    rw [h.pages x, pipeOwns_update]
    unfold ofPage
    dsimp only [St.setFile]
    rcases eq_or_ne x v with rfl | hx
    · rw [if_pos rfl, if_pos rfl, pipeOwns, hnew]
      simp only [Option.isSome_none, Option.isSome_some, Bool.false_eq_true, if_false, if_true]
      omega
    · rw [if_neg hx, if_neg hx.symm]
      omega
  · simpa [St.setFile, hne.symm] using hboth

end Acct

end Xv6.Vm
