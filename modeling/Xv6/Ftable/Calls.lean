/-
  EVERY STEP OF EVERY CALL KEEPS `Inv`.

  One lemma for each point at which a process can be: which store the step makes, by how much that changes the
  accounts, and that the point it comes to makes up for it.  What the process knows where it was (`Knows`) is
  all that the lemmas need of the other processes.
-/
import Xv6.Ftable.Local

namespace Xv6.Ftable

open Machines
open Function (update update_self update_apply update_of_ne)

variable {S T : St} {p q : Pid} {f : FileId} {b : Bool}

theorem freeFile_some {S : St} (h : S.freeFile = some f) : (S.files f).ref = 0 :=
  of_decide_eq_true (List.find?_some h :)

variable {fd : Fd}

theorem freeFd_some (h : S.freeFd p = some fd) : (S.procs p).ofile fd = none :=
  of_decide_eq_true (List.find?_some h :)

theorem setProc_self (S : St) (q : Pid) (x : Proc) : (S.setProc q x).procs q = x := update_self ..

theorem setProc_ne (S : St) (x : Proc) (h : p ≠ q) : (S.setProc q x).procs p = S.procs p := update_of_ne h ..

/-- A file that nobody refers to is not one that a call has just allocated. -/
theorem Inv.free_not_fresh (h : Inv S) (hf : (S.files f).ref = 0) (q : Pid) : f ∉ (S.pc q).fresh := by
  intro hc
  have := ((h.locals q).fresh f hc).1
  omega

/-- A file that a process has a claim on is in use. -/
theorem Inv.ref_pos (h : Inv S) (hclaim : 1 ≤ claim S p f) : ¬ (S.files f).ref < 1 := by
  have hle := h.claim_le p f
  omega

/-- A store of a reference count, or of a pipe, to a file. -/
theorem File.due_sub (x y : File) (f : FileId) :
    x.due f - y.due f = ((x.ref : Int) - y.ref) • one (.file f) + (inFile y.pipe - inFile x.pipe) := by
  unfold File.due
  rw [sub_smul]
  abel

variable {c c₀ : Pc} {k : Cont} {v : PipeId} {rest fds : List Fd} {f0 f1 : FileId} {np : Pid}

section Calls

variable (h : Inv S) (halive : (S.procs p).state = .alive)

include h

/-- A descriptor that a call has read is backed by a reference. -/
theorem Inv.slot_claim (hp : S.pc p = c) (hfd : (fd, f) ∈ c.slots) (hclosed : c.closed = none) :
    1 ≤ claim S p f := by
  subst hp
  refine (h.locals p).claim_of_slot ((h.locals p).slots (fd, f) hfd) fun g hg => ?_
  rw [hclosed] at hg
  cases hg

/-- What the process knows where it is. -/
theorem Inv.here (hp : S.pc p = c) : Knows S.procs S.files p c := by
  subst hp
  exact (h.locals p).toKnows

include halive

/-- **`filealloc`**, by `open` and twice by `pipe`. -/
theorem Inv.filealloc (hp : S.pc p = c₀) (hf : S.freeFile = some f) (hb : c.has = c₀.has + one (.file f))
    (hme : ((S.setFile f ⟨1, (S.files f).pipe⟩).files f).ref = 1 ∧
        ((S.setFile f ⟨1, (S.files f).pipe⟩).files f).pipe = none →
      Knows S.procs (S.setFile f ⟨1, (S.files f).pipe⟩).files p c) (hchild : c.child = none) :
    Inv ((S.setFile f ⟨1, (S.files f).pipe⟩).setPc p c) := by
  have hzero := freeFile_some hf
  refine h.file hp halive nofun (fun q _ => h.free_not_fresh hzero q) ?_ (hme ?_) fun np fds hc => ?_
  · rw [hb, File.due_sub, hzero]
    simp
  · simp only [St.setFile, update_self]
    exact ⟨trivial, h.acct.unused f hzero⟩
  · rw [hchild] at hc
    cases hc

/-- **`filedup`**, by `dup` and `fork`, of a file that the process has a claim on. -/
theorem Inv.filedup (hp : S.pc p = c₀) (hclaim : 1 ≤ claim S p f) (hb : c.has = c₀.has + one (.file f))
    (hme : Knows S.procs (S.setFile f ⟨(S.files f).ref + 1, (S.files f).pipe⟩).files p c)
    (hchild : ∀ np fds, c.child = some (np, fds) → ∃ fds', c₀.child = some (np, fds')) :
    Inv ((S.setFile f ⟨(S.files f).ref + 1, (S.files f).pipe⟩).setPc p c) := by
  refine h.file hp halive nofun (fun q hq => h.not_fresh hclaim hq) ?_ hme hchild
  rw [hb, File.due_sub]
  simp

/-- A file that was just allocated gets its contents. -/
theorem Inv.fill {e : Option (PipeId × Bool)} (hp : S.pc p = c₀) (hf : f ∈ c₀.fresh) (hb : c₀.has = c.has + inFile e)
    (hme : Knows S.procs (S.setFile f ⟨(S.files f).ref, e⟩).files p c) (hchild : c.child = none) :
    Inv ((S.setFile f ⟨(S.files f).ref, e⟩).setPc p c) := by
  obtain ⟨hone, hpipe⟩ := (h.here hp).fresh f hf
  have hclaim : 1 ≤ claim S p f := (h.locals p).claim_of_fresh (by rw [hp]; exact hf)
  refine h.file hp halive (fun hc => ?_) (fun q hq => h.not_fresh hclaim hq) ?_ hme fun np fds hc => ?_
  · rw [hone] at hc
    cases hc
  · rw [hb, File.due_sub, hpipe]
    simp [inFile]
  · rw [hchild] at hc
    cases hc

/-- A step without a store, to the end of the call. -/
theorem Inv.done (hp : S.pc p = c₀) (hb : c₀.has = 0) : Inv (S.setPc p .idle) :=
  h.goto hp halive hb.symm (knows_idle ..) nofun

/-! ## `open` -/

theorem Inv.openPath (hp : S.pc p = .openPath) : Inv (next S p b .openPath) := by
  unfold next
  dsimp only
  split
  · exact h.goto hp halive rfl ⟨nofun, nofun, nofun, nofun, trivial⟩ nofun
  · exact h.done halive hp rfl

omit h halive in
/-- The one file just allocated. -/
theorem fresh_one {F : FileId → File} (hf : (F f).ref = 1 ∧ (F f).pipe = none) :
    ∀ g ∈ [f], (F g).ref = 1 ∧ (F g).pipe = none := by
  intro g hg
  obtain rfl : g = f := List.mem_singleton.mp hg
  exact hf

theorem Inv.openAlloc (hp : S.pc p = .openAlloc) : Inv (next S p b .openAlloc) := by
  unfold next
  dsimp only
  cases hf : S.freeFile with
  | none => exact h.done halive hp rfl
  | some f =>
    exact h.filealloc halive hp hf (zero_add _).symm (fun hnew => ⟨nofun, fresh_one hnew, nofun, nofun, trivial⟩) rfl

omit h halive in
/-- The one descriptor just read or set. -/
theorem slots_one {P : Pid → Proc} (hfd : (P p).ofile fd = some f) : ∀ e ∈ [(fd, f)], (P p).ofile e.1 = some e.2 := by
  intro e he
  obtain rfl : e = (fd, f) := List.mem_singleton.mp he
  exact hfd

theorem Inv.openFd (hp : S.pc p = .openFd f) : Inv (next S p b (.openFd f)) := by
  unfold next
  dsimp only
  cases hfd : S.freeFd p with
  | none => exact h.goto hp halive (add_zero _) ⟨nofun, nofun, nofun, nofun, trivial⟩ nofun
  | some fd =>
    refine h.slot hp halive ?_ ⟨slots_one ?_, (h.here hp).fresh, nofun, nofun, trivial⟩ rfl
    · rw [freeFd_some hfd]
      show 0 = one (.file f) + (0 - one (.file f))
      abel
    · rw [setOfile_ofile, update_self]

theorem Inv.openSet (hp : S.pc p = .openSet fd f) : Inv (next S p b (.openSet fd f)) :=
  h.fill halive hp List.mem_cons_self rfl (knows_idle ..) rfl

/-! ## `dup` and `close` -/

theorem Inv.dupArg (hp : S.pc p = .dupArg fd) : Inv (next S p b (.dupArg fd)) := by
  unfold next
  dsimp only
  cases hfd : (S.procs p).ofile fd with
  | none => exact h.done halive hp rfl
  | some f => exact h.goto hp halive rfl ⟨slots_one hfd, nofun, nofun, nofun, trivial⟩ nofun

theorem Inv.dupFd (hp : S.pc p = .dupFd fd f) : Inv (next S p b (.dupFd fd f)) := by
  have hfd := (h.here hp).slots (fd, f) List.mem_cons_self
  unfold next
  dsimp only
  cases hfree : S.freeFd p with
  | none => exact h.done halive hp rfl
  | some fd' =>
    have hnone := freeFd_some hfree
    have hne : fd ≠ fd' := by
      rintro rfl
      rw [hnone] at hfd
      cases hfd
    refine h.slot hp halive ?_ ⟨fun e he => ?_, nofun, nofun, nofun, hne⟩ rfl
    · rw [hnone]
      show -one (.file f) = 0 + (0 - one (.file f))
      abel
    · rw [setOfile_ofile]
      rcases List.mem_cons.mp he with rfl | he
      · rw [update_of_ne hne]
        exact hfd
      · obtain rfl : e = (fd', f) := List.mem_singleton.mp he
        rw [update_self]

theorem Inv.dupRef {fd' : Fd} (hp : S.pc p = .dupRef fd fd' f) : Inv (next S p b (.dupRef fd fd' f)) := by
  have hclaim := h.slot_claim hp List.mem_cons_self rfl
  rw [next, if_neg (h.ref_pos hclaim)]
  exact h.filedup halive hp hclaim (neg_add_cancel _).symm (knows_idle ..) nofun

theorem Inv.closeArg (hp : S.pc p = .closeArg fd) : Inv (next S p b (.closeArg fd)) := by
  unfold next
  dsimp only
  cases hfd : (S.procs p).ofile fd with
  | none => exact h.done halive hp rfl
  | some f => exact h.goto hp halive rfl ⟨slots_one hfd, nofun, nofun, nofun, trivial⟩ nofun

theorem Inv.closeSlot (hp : S.pc p = .closeSlot fd f) : Inv (next S p b (.closeSlot fd f)) := by
  refine h.slot hp halive ?_ ⟨nofun, nofun, nofun, nofun, trivial⟩ rfl
  rw [(h.here hp).slots (fd, f) List.mem_cons_self]
  show one (.file f) + 0 = 0 + (one (.file f) - 0)
  abel

omit h halive in
/-- What a process knows after a `fileclose` it knew before. -/
theorem Cont.knows {P : Pid → Proc} {F : FileId → File} (k : Cont)
    (hslots : ∀ e ∈ k.slots, (P p).ofile e.1 = some e.2)
    (hleft : ∀ fds, k.left = some fds → ∀ fd, fd ∉ fds → (P p).ofile fd = none) : Knows P F p k.pc := by
  cases k with
  | exit fd g rest => exact ⟨hslots, nofun, nofun, hleft, trivial⟩
  | _ => exact ⟨nofun, nofun, nofun, nofun, trivial⟩

omit h halive in
theorem Cont.pc_has (k : Cont) : k.pc.has = k.has := by
  cases k with
  | other g => exact add_zero _
  | _ => rfl

omit h halive in
theorem Cont.pc_child (k : Cont) : k.pc.child = none := by
  cases k <;> rfl

omit halive in
/-- `fileclose` is called on a file that its caller has a reference to, in hand or in a descriptor. -/
theorem Inv.fileclose_claim (hp : S.pc p = .fileclose f k) : 1 ≤ claim S p f := by
  cases k with
  | exit fd g rest =>
    obtain rfl : f = g := (h.here hp).wf
    exact h.slot_claim hp List.mem_cons_self rfl
  | _ => exact (h.locals p).claim_of_held (by rw [hp]; exact List.mem_cons_self)

theorem Inv.fileclose (hp : S.pc p = .fileclose f k) : Inv (next S p b (.fileclose f k)) := by
  have hclaim := h.fileclose_claim hp
  have hpos := h.ref_pos hclaim
  have hnot : ∀ q, q ≠ p → f ∉ (S.pc q).fresh := fun q hq => h.not_fresh hclaim hq
  have hhere := h.here hp
  have hchild : ∀ np fds, k.pc.child = some (np, fds) → ∃ fds', (Pc.fileclose f k).child = some (np, fds') := by
    rw [k.pc_child]
    exact nofun
  rw [next, if_neg hpos]
  split
  · rename_i hlt
    refine h.file hp halive (fun hc => ?_) hnot ?_ (k.knows hhere.slots hhere.left) hchild
    · dsimp only at hc
      omega
    · have hd : (((S.files f).ref - 1 : Nat) : Int) - (S.files f).ref = -1 := by omega
      rw [k.pc_has, File.due_sub, hd]
      show k.has = one (.file f) + k.has + _
      simp
  · have hone : (S.files f).ref = 1 := by omega
    split
    · rename_i hnone
      refine h.file hp halive (fun _ => rfl) hnot ?_ (k.knows hhere.slots hhere.left) hchild
      rw [k.pc_has, File.due_sub, hone, hnone]
      show k.has = one (.file f) + k.has + _
      simp
    · rename_i v w hpipe
      refine h.file hp halive (fun _ => rfl) hnot ?_ ⟨hhere.slots, nofun, nofun, hhere.left, trivial⟩ nofun
      rw [File.due_sub, hone, hpipe]
      show one (.openEnd v w) + k.has = one (.file f) + k.has + ((0 - 1 : Int) • one (.file f) + (one (.openEnd v w) - 0))
      module

omit halive in
/-- An end that a call is about to close is open. -/
theorem Inv.pipeclose_open {w : Bool} (hp : S.pc p = .pipeclose v w k) : (S.pipes v).flag w = true := by
  have hends := h.acct.ends v w
  have hfiles : 0 ≤ S.fileEnds v w := Finset.sum_nonneg fun f _ => inFile_nonneg ..
  have hmine := Counting.le_sum (f := fun q => (S.pc q).has (.openEnd v w))
    (fun q => by rw [Pc.has_openEnd]; omega) p
  have hone : (S.pc p).has (.openEnd v w) = 1 := by
    rw [hp, Pc.has_openEnd]
    simp [Pc.owed]
  rw [St.has, Finset.sum_apply] at hends
  by_contra hclosed
  rw [if_neg hclosed] at hends
  omega

omit h halive in
theorem Pipe.due_close (x : Pipe) (v : PipeId) {w : Bool} (hflag : x.flag w = true) :
    (x.close w).due v - x.due v = -one (.openEnd v w) + (x.close w).dead.toInt • one (.page v) := by
  obtain ⟨r, wr, n⟩ := x
  cases w with
  | false =>
    obtain rfl : r = true := hflag
    simp only [Pipe.due, Pipe.close, Pipe.dead, Bool.toInt_true, Bool.toInt_false, Bool.false_eq_true, if_false,
      Bool.not_true, Bool.not_false, Bool.false_and, Bool.true_and]
    module
  | true =>
    obtain rfl : wr = true := hflag
    simp only [Pipe.due, Pipe.close, Pipe.dead, Bool.toInt_true, Bool.toInt_false, if_true, Bool.not_true,
      Bool.not_false, Bool.and_false, Bool.and_true]
    module

theorem Inv.pipeclose {w : Bool} (hp : S.pc p = .pipeclose v w k) : Inv (next S p b (.pipeclose v w k)) := by
  have hhere := h.here hp
  have hflag := h.pipeclose_open hp
  have hA := h.acct.setPipe ((S.pipes v).close w) (h.acct.born hflag)
  rw [Pipe.due_close _ _ hflag] at hA
  have hdead : ((S.pipes v).close w).dead = true ↔
      ((S.pipes v).close w).readopen = false ∧ ((S.pipes v).close w).writeopen = false := by
    simp only [Pipe.dead, Bool.and_eq_true, Bool.not_eq_true']
  unfold next
  dsimp only
  split
  · rename_i hboth
    refine h.pipes hp halive hA ?_ ⟨hhere.slots, List.forall_mem_nil _, fun _ _ hc => ?_, hhere.left, trivial⟩ rfl
    case refine_2 => cases hc
    rw [hdead.mpr hboth]
    show one (.page v) + k.has = one (.openEnd v w) + k.has + (-one (.openEnd v w) + (1 : Int) • one (.page v))
    rw [one_smul]
    abel
  · rename_i hopen
    refine h.pipes hp halive hA ?_ (k.knows hhere.slots hhere.left) k.pc_child
    rw [k.pc_has, Bool.eq_false_iff.mpr fun hc => hopen (hdead.mp hc)]
    show k.has = one (.openEnd v w) + k.has + (-one (.openEnd v w) + (0 : Int) • one (.page v))
    rw [zero_smul]
    abel

theorem Inv.kfree (hp : S.pc p = .kfree v k) : Inv (next S p b (.kfree v k)) := by
  have hhere := h.here hp
  -- it is there, since somebody is about to free it
  have hborn : v < S.next := by
    have hfreed := h.acct.freed v
    have hmine := Counting.le_sum (f := fun q => (S.pc q).has (.page v))
      (fun q => by rw [Pc.has_page]; split <;> omega) p
    have hone : (S.pc p).has (.page v) = 1 := by
      rw [hp, Pc.has_page]
      exact if_pos rfl
    rw [St.has, Finset.sum_apply] at hfreed
    by_contra hge
    rw [if_neg (fun hc => hge hc.1)] at hfreed
    omega
  have hdue : ∀ x : Pipe, ({ x with freed := x.freed + 1 } : Pipe).due v - x.due v = -one (.page v) := by
    intro x
    simp [Pipe.due, Pipe.dead, sub_smul, add_smul]
  unfold next
  dsimp only
  refine h.pipes hp halive (h.acct.setPipe _ hborn) ?_ (k.knows hhere.slots hhere.left) k.pc_child
  rw [k.pc_has, hdue]
  show k.has = one (.page v) + k.has + -one (.page v)
  abel

theorem Inv.clear (hp : S.pc p = .clear fd f rest) : Inv (next S p b (.clear fd f rest)) := by
  have hhere := h.here hp
  refine h.slot hp halive ?_ ⟨nofun, nofun, nofun, fun fds hfds i hi => ?_, trivial⟩ rfl
  · rw [hhere.slots (fd, f) List.mem_cons_self]
    show 0 = -one (.file f) + (one (.file f) - 0)
    abel
  · obtain rfl := Option.some.inj hfds
    rw [setOfile_ofile, update_apply]
    split
    · rfl
    · rename_i hne
      exact hhere.left _ rfl i fun hc => (List.mem_cons.mp hc).elim hne hi

/-! ## `pipe` -/

theorem Inv.pipeAlloc0 (hp : S.pc p = .pipeAlloc0) : Inv (next S p b .pipeAlloc0) := by
  unfold next
  dsimp only
  cases hf : S.freeFile with
  | none => exact h.done halive hp rfl
  | some f =>
    exact h.filealloc halive hp hf (zero_add _).symm (fun hnew => ⟨nofun, fresh_one hnew, nofun, nofun, trivial⟩) rfl

theorem Inv.pipeAlloc1 (hp : S.pc p = .pipeAlloc1 f0) : Inv (next S p b (.pipeAlloc1 f0)) := by
  have hfresh := (h.here hp).fresh f0 List.mem_cons_self
  unfold next
  dsimp only
  cases hf : S.freeFile with
  | none => exact h.goto hp halive (add_zero _) ⟨nofun, nofun, nofun, nofun, trivial⟩ nofun
  | some f1 =>
    have hne : f0 ≠ f1 := by
      rintro rfl
      rw [freeFile_some hf] at hfresh
      cases hfresh.1
    refine h.filealloc halive hp hf rfl (fun hnew => ⟨nofun, fun g hg => ?_, nofun, nofun, hne⟩) rfl
    rcases List.mem_cons.mp hg with rfl | hg
    · simp only [St.setFile, update_of_ne hne]
      exact hfresh
    · exact fresh_one hnew g hg

theorem Inv.pipeMem (hp : S.pc p = .pipeMem f0 f1) : Inv (next S p b (.pipeMem f0 f1)) := by
  have hhere := h.here hp
  unfold next
  dsimp only
  split
  · exact h.pipes hp halive h.acct.newPipe rfl ⟨nofun, hhere.fresh, nofun, nofun, hhere.wf⟩ rfl
  · exact h.goto hp halive rfl ⟨nofun, nofun, nofun, nofun, trivial⟩ nofun

theorem Inv.pipeFile0 (hp : S.pc p = .pipeFile0 f0 f1 v) : Inv (next S p b (.pipeFile0 f0 f1 v)) := by
  have hhere := h.here hp
  refine h.fill halive hp List.mem_cons_self ?_ ⟨nofun, fresh_one ?_, nofun, nofun, trivial⟩ rfl
  · show one (.file f0) + one (.file f1) + (one (.openEnd v false) + one (.openEnd v true)) =
      one (.file f0) + one (.file f1) + one (.openEnd v true) + one (.openEnd v false)
    abel
  · simp only [St.setFile, update_of_ne (Ne.symm hhere.wf)]
    exact hhere.fresh f1 (List.mem_cons_of_mem _ List.mem_cons_self)

theorem Inv.pipeFile1 (hp : S.pc p = .pipeFile1 f0 f1 v) : Inv (next S p b (.pipeFile1 f0 f1 v)) :=
  h.fill halive hp List.mem_cons_self rfl ⟨nofun, nofun, nofun, nofun, trivial⟩ rfl

theorem Inv.pipeFd0 (hp : S.pc p = .pipeFd0 f0 f1) : Inv (next S p b (.pipeFd0 f0 f1)) := by
  unfold next
  dsimp only
  cases hfd : S.freeFd p with
  | none => exact h.goto hp halive rfl ⟨nofun, nofun, nofun, nofun, trivial⟩ nofun
  | some fd0 =>
    refine h.slot hp halive ?_ ⟨slots_one ?_, nofun, nofun, nofun, trivial⟩ rfl
    · rw [freeFd_some hfd]
      show one (.file f1) = one (.file f0) + one (.file f1) + (0 - one (.file f0))
      abel
    · rw [setOfile_ofile, update_self]

theorem Inv.pipeFd1 {fd0 : Fd} (hp : S.pc p = .pipeFd1 f0 f1 fd0) : Inv (next S p b (.pipeFd1 f0 f1 fd0)) := by
  unfold next
  dsimp only
  cases hfd : S.freeFd p with
  | none => exact h.goto hp halive rfl ⟨(h.here hp).slots, nofun, nofun, nofun, trivial⟩ nofun
  | some fd1 =>
    refine h.slot hp halive ?_ (knows_idle ..) rfl
    rw [freeFd_some hfd]
    show 0 = one (.file f1) + (0 - one (.file f1))
    abel

theorem Inv.pipeClear {fd0 : Fd} (hp : S.pc p = .pipeClear f0 f1 fd0) :
    Inv (next S p b (.pipeClear f0 f1 fd0)) := by
  refine h.slot hp halive ?_ ⟨nofun, nofun, nofun, nofun, trivial⟩ rfl
  rw [(h.here hp).slots (fd0, f0) List.mem_cons_self]
  show one (.file f0) + one (.file f1) = one (.file f1) + (one (.file f0) - 0)
  abel

/-! ## `fork` -/

omit halive in
/-- A store to a process that leaves its descriptors. -/
theorem Inv.acct_setProc {x : Proc} (hx : x.ofile = (S.procs q).ofile) : Acct (S.has + 0) (S.setProc q x) :=
  (add_zero S.has).symm ▸ h.acct.setProc hx

theorem Inv.forkAlloc (hp : S.pc p = .forkAlloc) : Inv (next S p b .forkAlloc) := by
  unfold next
  dsimp only
  cases hfree : S.freeProc with
  | none => exact h.done halive hp rfl
  | some np =>
    have hunused : (S.procs np).state = .unused := of_decide_eq_true (List.find?_some hfree :)
    have hne : np ≠ p := by
      rintro rfl
      rw [hunused] at halive
      cases halive
    have hidle : (S.pc np).isIdle = true := h.idle (by rw [hunused]; decide)
    refine h.proc hp halive hne hidle (h.acct_setProc rfl) nofun (fun q fds _ hc => ?_) (add_zero _).symm
      ⟨nofun, nofun, fun np' fds hc => ?_, nofun, trivial⟩ fun np' fds hc => ?_
    · have := ((h.locals q).child np fds hc).1
      rw [hunused] at this
      cases this
    · obtain ⟨rfl, rfl⟩ := Prod.mk.inj (Option.some.inj hc)
      rw [setProc_self]
      exact ⟨rfl, fun fd _ => (h.locals np).none (.inl hunused) fd⟩
    · exact (Prod.mk.inj (Option.some.inj hc)).1.symm

/-- A step of `fork` that changes the child. -/
theorem Inv.child {x : Proc} {δ : Item → Int} (hp : S.pc p = c₀) (hc₀ : c₀.child = some (np, fds))
    (hA : Acct (S.has + δ) (S.setProc np x))
    (hnone : x.state = .unused ∨ x.state = .zombie → ∀ fd, x.ofile fd = none) (hb : c.has = c₀.has + δ)
    (hslots : c.slots = []) (hfresh : c.fresh = []) (hleft : c.left = none) (hwf : c.Wf)
    (hc : ∀ np' fds', c.child = some (np', fds') → np' = np ∧ x.state = .embryo ∧ ∀ fd ∈ fds', x.ofile fd = none) :
    Inv ((S.setProc np x).setPc p c) := by
  subst hp
  have hembryo := ((h.locals p).child np fds hc₀).1
  have hidle : (S.pc np).isIdle = true := h.idle (by rw [hembryo]; decide)
  refine h.proc rfl halive (h.child_ne halive hc₀) hidle hA hnone (fun q fds' hq hcq => ?_) hb
    ⟨by rw [hslots]; exact nofun, by rw [hfresh]; exact nofun, fun np' fds' hc' => ?_, by rw [hleft]; exact nofun, hwf⟩
    fun np' fds' hc' => (hc np' fds' hc').1
  · exact hq (h.sole q p np fds' fds hcq hc₀)
  · obtain ⟨rfl, hstate⟩ := hc np' fds' hc'
    rw [setProc_self]
    exact hstate

theorem Inv.forkMem (hp : S.pc p = .forkMem np) : Inv (next S p b (.forkMem np)) := by
  have hchild := (h.here hp).child np _ rfl
  unfold next
  dsimp only
  split
  · refine h.child halive hp rfl (h.acct_setProc rfl) (fun hc => ?_) (add_zero _).symm rfl rfl rfl
      (List.nodup_finRange _) fun np' fds hc => ?_
    · dsimp only at hc
      rw [hchild.1] at hc
      rcases hc with hc | hc <;> cases hc
    · obtain ⟨rfl, rfl⟩ := Prod.mk.inj (Option.some.inj hc)
      exact ⟨rfl, hchild⟩
  · exact h.child halive hp rfl (h.acct_setProc rfl) (fun _ fd => hchild.2 fd (List.mem_finRange fd))
      (add_zero _).symm rfl rfl rfl trivial nofun

theorem Inv.forkFd (hp : S.pc p = .forkFd np fds) : Inv (next S p b (.forkFd np fds)) := by
  have hhere := h.here hp
  cases fds with
  | nil => exact h.goto hp halive rfl ⟨nofun, nofun, hhere.child, nofun, trivial⟩ fun np' fds hc => ⟨fds, hc⟩
  | cons fd rest =>
    rw [next]
    cases hfd : (S.procs p).ofile fd with
    | none =>
      have hchild := hhere.child np _ rfl
      refine h.goto hp halive rfl ⟨nofun, nofun, fun np' fds hc => ?_, nofun, (List.nodup_cons.mp hhere.wf).2⟩
        fun np' fds hc => ?_
      · obtain ⟨rfl, rfl⟩ := Prod.mk.inj (Option.some.inj hc)
        exact ⟨hchild.1, fun i hi => hchild.2 i (List.mem_cons_of_mem _ hi)⟩
      · obtain ⟨rfl, rfl⟩ := Prod.mk.inj (Option.some.inj hc)
        exact ⟨_, rfl⟩
    | some f =>
      exact h.goto hp halive rfl ⟨slots_one hfd, nofun, hhere.child, nofun, hhere.wf⟩ fun np' fds hc => ⟨fds, hc⟩

theorem Inv.forkDup (hp : S.pc p = .forkDup np fd f rest) : Inv (next S p b (.forkDup np fd f rest)) := by
  have hhere := h.here hp
  have hclaim := h.slot_claim hp List.mem_cons_self rfl
  rw [next, if_neg (h.ref_pos hclaim)]
  exact h.filedup halive hp hclaim (zero_add _).symm ⟨nofun, nofun, hhere.child, nofun, hhere.wf⟩
    fun np' fds hc => ⟨fds, hc⟩

theorem Inv.forkSet (hp : S.pc p = .forkSet np fd f rest) : Inv (next S p b (.forkSet np fd f rest)) := by
  have hhere := h.here hp
  have hchild := hhere.child np _ rfl
  obtain ⟨hfd, hnodup⟩ := List.nodup_cons.mp hhere.wf
  refine h.child halive hp rfl (h.acct.setOfile np fd (some f)) (fun hc => ?_) ?_ rfl rfl rfl hnodup
    fun np' fds hc => ?_
  · dsimp only at hc
    rw [hchild.1] at hc
    rcases hc with hc | hc <;> cases hc
  · rw [hchild.2 fd List.mem_cons_self]
    show 0 = one (.file f) + (0 - one (.file f))
    abel
  · obtain ⟨rfl, rfl⟩ := Prod.mk.inj (Option.some.inj hc)
    refine ⟨rfl, hchild.1, fun i hi => ?_⟩
    have hne : i ≠ fd := by
      rintro rfl
      exact hfd hi
    show update (S.procs np).ofile fd (some f) i = none
    rw [update_of_ne hne]
    exact hchild.2 i (List.mem_cons_of_mem _ hi)

theorem Inv.forkStart (hp : S.pc p = .forkStart np) : Inv (next S p b (.forkStart np)) :=
  h.child halive hp rfl (h.acct_setProc rfl) nofun (add_zero _).symm rfl rfl rfl trivial nofun

/-! ## `exit` and `wait` -/

omit h halive in
theorem exited_ofile (S : St) (p q : Pid) : (S.exited p q).ofile = (S.procs q).ofile := by
  unfold St.exited
  split <;> split <;> rfl

omit h halive in
theorem exited_state (S : St) (hq : q ≠ p) : (S.exited p q).state = (S.procs q).state := by
  unfold St.exited
  rw [if_neg hq]
  split <;> rfl

theorem Inv.exitFd (hp : S.pc p = .exitFd fds) : Inv (next S p b (.exitFd fds)) := by
  have hleft := (h.here hp).left
  cases fds with
  | cons fd rest =>
    rw [next]
    cases hfd : (S.procs p).ofile fd with
    | none =>
      refine h.goto hp halive rfl ⟨nofun, nofun, nofun, fun fds hfds i hi => ?_, trivial⟩ nofun
      obtain rfl := Option.some.inj hfds
      rcases eq_or_ne i fd with rfl | hne
      · exact hfd
      · exact hleft _ rfl i fun hc => (List.mem_cons.mp hc).elim hne hi
    | some f => exact h.goto hp halive (add_neg_cancel _) ⟨slots_one hfd, nofun, nofun, hleft, rfl⟩ nofun
  | nil =>
    have hnone : ∀ fd, (S.procs p).ofile fd = none := fun fd => hleft [] rfl fd List.not_mem_nil
    rw [next]
    refine h.move (δ := 0) hp rfl rfl ?_ (add_zero _).symm (fun q hq => ?_) (local_idle ?_ fun _ fd => ?_) nofun
    · exact (add_zero S.has).symm ▸ h.acct.procs (exited_ofile S p)
    · exact (h.locals q).other rfl ⟨exited_state S hq, exited_ofile S p q⟩ (fun _ _ => rfl) fun np fds hc =>
        ⟨exited_state S (h.child_ne halive hc), exited_ofile S p np⟩
    · simp only [St.setPc, update_self]
      rfl
    · exact (congrFun (exited_ofile S p p) fd).trans (hnone fd)

theorem Inv.wait (hp : S.pc p = .wait) : Inv (next S p b .wait) := by
  unfold next
  dsimp only
  cases hdead : S.deadChild p with
  | none => exact h.done halive hp rfl
  | some q =>
    have hzombie : (S.procs q).state = .zombie := (of_decide_eq_true (List.find?_some hdead :)).2
    have hne : q ≠ p := by
      rintro rfl
      rw [hzombie] at halive
      cases halive
    have hidle : (S.pc q).isIdle = true := h.idle (by rw [hzombie]; decide)
    refine h.proc hp halive hne hidle (h.acct_setProc rfl) (fun _ => (h.locals q).none (.inr hzombie))
      (fun r fds _ hc => ?_) (add_zero _).symm (knows_idle ..) nofun
    have := ((h.locals r).child q fds hc).1
    rw [hzombie] at this
    cases this

/-! ## Calls -/

/-- A call begins. -/
theorem Inv.begin (hidle : (S.pc p).isIdle = true) (c : Call) : Inv (S.setPc p c.pc) := by
  have hp := Pc.eq_idle hidle
  cases c with
  | exit =>
    refine h.goto hp halive rfl ⟨nofun, nofun, nofun, fun fds hfds fd hfd => ?_, trivial⟩ nofun
    obtain rfl := Option.some.inj hfds
    exact absurd (List.mem_finRange fd) hfd
  | _ => exact h.goto hp halive rfl ⟨nofun, nofun, nofun, nofun, trivial⟩ nofun

/-- **A step of a process in a call.** -/
theorem Inv.next (hp : S.pc p = c) : Inv (next S p b c) := by
  cases c with
  | idle => exact h
  | openPath => exact h.openPath halive hp
  | openAlloc => exact h.openAlloc halive hp
  | openFd f => exact h.openFd halive hp
  | openSet fd f => exact h.openSet halive hp
  | dupArg fd => exact h.dupArg halive hp
  | dupFd fd f => exact h.dupFd halive hp
  | dupRef fd fd' f => exact h.dupRef halive hp
  | closeArg fd => exact h.closeArg halive hp
  | closeSlot fd f => exact h.closeSlot halive hp
  | fileclose f k => exact h.fileclose halive hp
  | pipeclose v w k => exact h.pipeclose halive hp
  | kfree v k => exact h.kfree halive hp
  | clear fd f rest => exact h.clear halive hp
  | pipeAlloc0 => exact h.pipeAlloc0 halive hp
  | pipeAlloc1 f0 => exact h.pipeAlloc1 halive hp
  | pipeMem f0 f1 => exact h.pipeMem halive hp
  | pipeFile0 f0 f1 v => exact h.pipeFile0 halive hp
  | pipeFile1 f0 f1 v => exact h.pipeFile1 halive hp
  | pipeFd0 f0 f1 => exact h.pipeFd0 halive hp
  | pipeFd1 f0 f1 fd0 => exact h.pipeFd1 halive hp
  | pipeClear f0 f1 fd0 => exact h.pipeClear halive hp
  | forkAlloc => exact h.forkAlloc halive hp
  | forkMem np => exact h.forkMem halive hp
  | forkFd np fds => exact h.forkFd halive hp
  | forkDup np fd f rest => exact h.forkDup halive hp
  | forkSet np fd f rest => exact h.forkSet halive hp
  | forkStart np => exact h.forkStart halive hp
  | exitFd fds => exact h.exitFd halive hp
  | wait => exact h.wait halive hp

end Calls

end Xv6.Ftable
