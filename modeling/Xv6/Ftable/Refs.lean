/-
  REFERENCES AND PIPE LIFETIMES ARE EXACT — in every state of every interleaving of `open`, `pipe`, `dup`,
  `close`, `fork`, `exit` and `wait`.

  `references_exact`:

  * the references of a file are the descriptors that point to it and those that calls have in hand;
  * a descriptor points to a file that is in use, so `filedup` and `fileclose` do not panic;
  * the flag of an end of a pipe is up just as long as there is something to close it;
  * the page of a pipe is freed once, by the one call that closed the second end.

  Four times a call is a step ahead of, or behind, what it says (`run_ahead`): `dup` has set the descriptor and
  not yet counted it, `exit` has closed a file and not yet cleared the descriptor, `fileclose` has given up the
  last reference and not yet reached `pipeclose`, `pipealloc` has raised the flags of the pipe and not yet stored
  it in the files.  The statement names them all.
-/
import Mathlib
import Xv6.Ftable.Calls

namespace Xv6.Ftable

open Machines

variable {S : St} {q : Pid} {f : FileId} {v : PipeId} {w : Bool}

/-! ## What is counted -/

/-- The descriptor that has no reference: filled by `dup` and not yet counted, or closed by `exit` and not yet
    cleared. -/
def Pc.ahead : Pc → Option Fd
  | .dupRef _ fd' _ => some fd'
  | c => c.closed.map Prod.fst

/-- The descriptors of a process that point to a file, without that one. -/
def St.backed (S : St) (q : Pid) (f : FileId) : Finset Fd :=
  Finset.univ.filter fun fd => (S.procs q).ofile fd = some f ∧ (S.pc q).ahead ≠ some fd

theorem Pc.ahead_cases (c : Pc) :
    (∃ fd fd' g, c = .dupRef fd fd' g) ∨ (c.ahead = c.closed.map Prod.fst ∧ c.unbacked = c.closed.map Prod.snd) := by
  cases c with
  | dupRef fd fd' g => exact .inl ⟨fd, fd', g, rfl⟩
  | _ => exact .inr ⟨rfl, rfl⟩

/-- A descriptor that is ahead holds the file that has no reference for it. -/
theorem Local.ahead_eq (h : Local S q) : (S.pc q).unbacked = (S.pc q).ahead.bind (S.procs q).ofile := by
  have hslots := h.slots
  rcases (S.pc q).ahead_cases with ⟨fd, fd', g, hc⟩ | ⟨hahead, hunbacked⟩
  · rw [hc] at hslots ⊢
    exact (hslots (fd', g) (List.mem_cons_of_mem _ List.mem_cons_self)).symm
  · rw [hahead, hunbacked]
    cases hclosed : (S.pc q).closed with
    | none => rfl
    | some e => exact (hslots e ((S.pc q).closed_slot hclosed)).symm

/-- The descriptors that point to a file: those with a reference, and the one without. -/
theorem Local.slotsOf_eq (h : Local S q) (f : FileId) :
    S.slotsOf q (.file f) = (S.backed q f).card + inSlot (S.pc q).unbacked (.file f) := by
  have hcard : ((S.backed q f).card : Int) =
      ∑ fd, if (S.procs q).ofile fd = some f ∧ (S.pc q).ahead ≠ some fd then 1 else 0 :=
    Finset.natCast_card_filter _ _
  rw [hcard, h.ahead_eq, slotsOf_apply]
  simp only [inSlot_file]
  cases hahead : (S.pc q).ahead with
  | none => simp
  | some i =>
    -- the two counts differ at that descriptor only
    rw [Counting.sum_change (f := fun fd => if (S.procs q).ofile fd = some f then (1 : Int) else 0)
      (g := fun fd => if (S.procs q).ofile fd = some f ∧ some i ≠ some fd then 1 else 0) i]
    · simp
    · intro fd hfd
      simp only [Option.some.injEq, ne_eq, hfd.symm, not_false_eq_true, and_true]

/-! ## Every state -/

theorem Inv.boot : Inv boot := by
  refine ⟨⟨?_, fun _ _ => rfl, fun _ _ => rfl⟩, fun q => ?_, nofun, nofun, nofun⟩
  · simp [St.balance, St.filesDue, St.pipesDue, St.slots, St.slotsOf, St.has, Ftable.boot, File.due, inFile, inSlot,
      Pc.has]
  · exact local_idle rfl fun _ _ => rfl

theorem Inv.step {T : St} {l : Label} (h : Inv S) (hs : step S l = some T) : Inv T := by
  cases l with
  | call p c =>
    simp only [Ftable.step, Option.ite_none_right_eq_some, Option.some.injEq] at hs
    obtain ⟨⟨hpanic, halive, hidle⟩, rfl⟩ := hs
    split
    · refine ⟨⟨h.acct.total, h.acct.unused, h.acct.unborn⟩, fun q => ?_, h.sole, nofun, nofun⟩
      exact (h.locals q).other rfl ⟨rfl, rfl⟩ (fun _ _ => rfl) fun _ _ _ => ⟨rfl, rfl⟩
    · exact h.begin halive hidle c
  | step p b =>
    simp only [Ftable.step, Option.ite_none_right_eq_some, Option.some.injEq] at hs
    obtain ⟨⟨hpanic, hbusy⟩, rfl⟩ := hs
    exact h.next ((h.locals p).alive hbusy) rfl

theorem Inv.of_reachable (h : machine.Reachable anyStep S) : Inv S := by
  refine Machine.invariant (fun S₀ h0 => ?_) (fun S l T hS _ hs => hS.step hs) h
  obtain rfl : S₀ = Ftable.boot := h0
  exact Inv.boot

/-! ## What the accounts say -/

theorem Inv.refs (h : Inv S) (f : FileId) : (S.files f).ref = ∑ q, ((S.backed q f).card + (S.pc q).held.count f) := by
  have hclaim : ∀ q, claim S q f = (((S.backed q f).card + (S.pc q).held.count f : Nat) : Int) := by
    intro q
    rw [claim, (h.locals q).slotsOf_eq f, Pc.has_file (h.locals q).wf]
    omega
  have href := h.ref_eq f
  simp only [hclaim] at href
  exact_mod_cast href

theorem Inv.slot_used (h : Inv S) {fd : Fd} (hfd : (S.procs q).ofile fd = some f)
    (hclosed : (S.pc q).closed ≠ some (fd, f)) : 0 < (S.files f).ref := by
  have hclaim : 1 ≤ claim S q f := by
    refine (h.locals q).claim_of_slot hfd fun g hg => ?_
    have hslot := (h.locals q).slots (fd, g) ((S.pc q).closed_slot hg)
    obtain rfl : f = g := Option.some.inj (hfd.symm.trans hslot)
    exact hclosed hg
  have := h.ref_pos hclaim
  omega

theorem Inv.flag_iff (h : Inv S) (v : PipeId) (w : Bool) : (S.pipes v).flag w = true ↔
      (∃ f, 0 < (S.files f).ref ∧ (S.files f).pipe = some (v, w)) ∨ ∃ q, (v, w) ∈ (S.pc q).owed := by
  have hends := h.acct.ends v w
  rw [St.has, Finset.sum_apply] at hends
  have hfile : ∀ f, 0 ≤ inFile (S.files f).pipe (.openEnd v w) := fun f => inFile_nonneg ..
  have hcall : ∀ q, 0 ≤ (S.pc q).has (.openEnd v w) := fun q => by rw [Pc.has_openEnd]; omega
  constructor
  · intro hflag
    rw [if_pos hflag] at hends
    by_cases hzero : S.fileEnds v w = 0
    · -- no file: then a call
      have hsum : ∑ q, (S.pc q).has (.openEnd v w) ≠ 0 := by omega
      obtain ⟨q, _, hq⟩ := Finset.exists_ne_zero_of_sum_ne_zero hsum
      rw [Pc.has_openEnd] at hq
      exact .inr ⟨q, List.count_pos_iff.mp (by omega)⟩
    · obtain ⟨f, _, hf⟩ := Finset.exists_ne_zero_of_sum_ne_zero hzero
      have hpipe : (S.files f).pipe = some (v, w) := by
        by_contra hc
        exact hf ((inFile_openEnd ..).trans (if_neg hc))
      refine .inl ⟨f, Nat.pos_of_ne_zero fun hc => ?_, hpipe⟩
      rw [h.acct.unused f hc] at hpipe
      cases hpipe
  · have hfiles : 0 ≤ S.fileEnds v w := Finset.sum_nonneg fun f _ => hfile f
    have hcalls := Finset.sum_nonneg fun q (_ : q ∈ Finset.univ) => hcall q
    intro hsome
    by_contra hclosed
    rw [if_neg hclosed] at hends
    rcases hsome with ⟨f, _, hpipe⟩ | ⟨q, hq⟩
    · have hle := Counting.le_sum hfile f
      rw [inFile_openEnd, if_pos hpipe] at hle
      unfold St.fileEnds at hends
      omega
    · have hle := Counting.le_sum hcall q
      have := List.count_pos_iff.mpr hq
      rw [Pc.has_openEnd] at hle
      omega

/-- A pipe with both ends closed is freed, or one call is about to free it. -/
theorem Inv.freed_or (h : Inv S) (hborn : v < S.next) (hdead : (S.pipes v).dead = true) :
    ((S.pipes v).freed = 1 ∧ ∀ q, (S.pc q).freeing ≠ some v) ∨
      ((S.pipes v).freed = 0 ∧ ∃! q, (S.pc q).freeing = some v) := by
  have hfreed := h.acct.freed v
  rw [if_pos ⟨hborn, hdead⟩, St.has, Finset.sum_apply] at hfreed
  have hnonneg : ∀ q, 0 ≤ (S.pc q).has (.page v) := fun q => by rw [Pc.has_page]; split <;> omega
  have hone : ∀ q, (S.pc q).freeing = some v → (S.pc q).has (.page v) = 1 := fun q hq => by
    rw [Pc.has_page, if_pos hq]
  have hle := fun q => Counting.le_sum hnonneg q
  by_cases hzero : ∑ q, (S.pc q).has (.page v) = 0
  · refine .inl ⟨by omega, fun q hq => ?_⟩
    have h1 := hone q hq
    have h2 := hle q
    omega
  · obtain ⟨q, _, hq⟩ := Finset.exists_ne_zero_of_sum_ne_zero hzero
    have hq' : (S.pc q).freeing = some v := by
      by_contra hc
      rw [Pc.has_page] at hq
      exact hq (if_neg hc)
    have h1 := hone q hq'
    have h2 := hle q
    refine .inr ⟨by omega, q, hq', fun r hr => ?_⟩
    -- two of them would be one too many
    by_contra hne
    have h3 := Counting.add_le_sum hnonneg hne
    have h4 := hone r hr
    omega

theorem Inv.freed_dead (h : Inv S) (hfreed : 0 < (S.pipes v).freed) :
    (S.pipes v).freed = 1 ∧ (S.pipes v).dead = true := by
  have := h.acct.freed v
  have hcalls : 0 ≤ S.has (.page v) := by
    rw [St.has, Finset.sum_apply]
    exact Finset.sum_nonneg fun q _ => by rw [Pc.has_page]; split <;> omega
  split at this
  · rename_i hdead
    exact ⟨by omega, hdead.2⟩
  · omega

/-- **References and pipe lifetimes are exact**, in any interleaving. -/
theorem references_exact (h : machine.Reachable anyStep S) :
    (∀ f, (S.files f).ref = ∑ q, ((S.backed q f).card + (S.pc q).held.count f)) ∧
    (∀ q fd f, (S.procs q).ofile fd = some f → (S.pc q).closed ≠ some (fd, f) → 0 < (S.files f).ref) ∧
    S.panic ≠ some .filedup ∧ S.panic ≠ some .fileclose ∧ (∀ v w, (S.pipes v).flag w = true ↔
      (∃ f, 0 < (S.files f).ref ∧ (S.files f).pipe = some (v, w)) ∨ ∃ q, (v, w) ∈ (S.pc q).owed) ∧
    (∀ v, 0 < (S.pipes v).freed →
      (S.pipes v).freed = 1 ∧ (S.pipes v).readopen = false ∧ (S.pipes v).writeopen = false) ∧
    (∀ v, v < S.next → (S.pipes v).readopen = false → (S.pipes v).writeopen = false →
      ((S.pipes v).freed = 1 ∧ ∀ q, (S.pc q).freeing ≠ some v) ∨
        ((S.pipes v).freed = 0 ∧ ∃! q, (S.pc q).freeing = some v)) := by
  have hinv := Inv.of_reachable h
  have hdead : ∀ v, (S.pipes v).dead = true ↔ (S.pipes v).readopen = false ∧ (S.pipes v).writeopen = false := by
    intro v
    simp only [Pipe.dead, Bool.and_eq_true, Bool.not_eq_true']
  refine ⟨hinv.refs, fun q fd f hfd hc => hinv.slot_used hfd hc, hinv.panics.1, hinv.panics.2, hinv.flag_iff,
    fun v hv => ?_, fun v hborn hr hw => hinv.freed_or hborn ((hdead v).mpr ⟨hr, hw⟩)⟩
  obtain ⟨hone, hboth⟩ := hinv.freed_dead hv
  exact ⟨hone, (hdead v).mp hboth⟩

/-- `pipe` by the first process, up to where it stores the pipe in the files, and to its end. -/
def pipeRun : List Label :=
  [.call 0 .pipe, .step 0 true, .step 0 true, .step 0 true]

def pipeEnd : List Label :=
  pipeRun ++ [.step 0 true, .step 0 true, .step 0 true, .step 0 true]

/-- A pipe that has been closed at both ends. -/
theorem references_exact_closed : ∃ S, machine.Reachable anyStep S ∧ 0 < (S.pipes 0).freed ∧
    (S.pipes 0).freed = 1 ∧ (S.pipes 0).readopen = false ∧ (S.pipes 0).writeopen = false := by
  have hinit : machine.init boot := rfl
  have hrun : (machine.run boot (pipeEnd ++ [.call 0 (.close 0), .step 0 true, .step 0 true, .step 0 true, .step 0 true] ++
      [.call 0 (.close 1), .step 0 true, .step 0 true, .step 0 true, .step 0 true, .step 0 true])).any
      (fun T => decide (0 < (T.pipes 0).freed)) = true := by decide +kernel
  obtain ⟨S, hreach, hfreed⟩ := Machine.reachable_of_run hinit hrun
  exact ⟨S, hreach, hfreed, (references_exact hreach).2.2.2.2.2.1 0 hfreed⟩

/-! ## A step ahead -/

/-- `open` by a process. -/
def openRun (p : Pid) : List Label :=
  [.call p .open, .step p true, .step p true, .step p true, .step p true]

/-- `fork` by the first process. -/
def forkRun : List Label := .call 0 .fork :: List.replicate 20 (.step 0 true)

/-- Two descriptors and one reference, in `dup`; a descriptor that points to a file not in use, in `exit`; a pipe
    with a flag up and no file for it, in `close` and in `pipe`. -/
theorem run_ahead : (∃ S, machine.Reachable anyStep S ∧ (S.procs 0).ofile 0 = some 0 ∧ (S.procs 0).ofile 1 = some 0 ∧
      (S.files 0).ref = 1) ∧
    (∃ S, machine.Reachable anyStep S ∧ (S.procs 1).ofile 0 = some 0 ∧ (S.files 0).ref = 0) ∧
    (∃ S, machine.Reachable anyStep S ∧ (S.pipes 0).readopen = true ∧
      ∀ f, ¬ (0 < (S.files f).ref ∧ (S.files f).pipe = some (0, false))) ∧
    (∃ S, machine.Reachable anyStep S ∧ (S.pipes 0).readopen = true ∧ ∀ f, (S.files f).pipe = none) := by
  have hinit : machine.init boot := rfl
  have hdup : (machine.run boot (openRun 0 ++ [.call 0 (.dup 0), .step 0 true, .step 0 true])).any
      (fun T => decide ((T.procs 0).ofile 0 = some 0 ∧ (T.procs 0).ofile 1 = some 0 ∧ (T.files 0).ref = 1)) = true := by
    decide +kernel
  have hexit : (machine.run boot (forkRun ++ openRun 1 ++ [.call 1 .exit, .step 1 true, .step 1 true])).any
      (fun T => decide ((T.procs 1).ofile 0 = some 0 ∧ (T.files 0).ref = 0)) = true := by
    decide +kernel
  have hclose : (machine.run boot (pipeEnd ++ [.call 0 (.close 0), .step 0 true, .step 0 true, .step 0 true])).any
      (fun T => decide ((T.pipes 0).readopen = true ∧
        ∀ f, ¬ (0 < (T.files f).ref ∧ (T.files f).pipe = some (0, false)))) = true := by
    decide +kernel
  have hpipe : (machine.run boot pipeRun).any
      (fun T => decide ((T.pipes 0).readopen = true ∧ ∀ f, (T.files f).pipe = none)) = true := by
    decide +kernel
  exact ⟨Machine.reachable_of_run hinit hdup, Machine.reachable_of_run hinit hexit,
    Machine.reachable_of_run hinit hclose, Machine.reachable_of_run hinit hpipe⟩

end Xv6.Ftable
