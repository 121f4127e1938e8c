/-
  Inode references are exact.

  The count `ref` of a cached inode is the number of open files that point to it, plus the number of
  processes whose `cwd` it is, plus the references that the calls in progress hold (`held`), in every
  state of every interleaving.

  1. **Counting** (`Refs`) — each action that changes `ref` changes one of the three terms by the same
     amount, or moves a reference from one term to another.  For this to be true, `ref--` has to be
     paid for with a reference the call holds, and `sys_open` has to store its pointer in a file that
     points nowhere.
  2. **Files** (`Files`) — that it points nowhere is a fact about FILE references: nobody else can have
     a pointer to a file that `filealloc` has just handed out, because its count is exact too.
  3. **Balance** — every path through every call, the error returns included, passes on or drops each
     reference it gets.  First for the functions on inodes, whose ghost is `held` alone, then for the
     system calls, whose ghost (`Know`) also has the process's files.
-/
import Xv6.Kernel.Calls
import Xv6.Lib.Counting

namespace Xv6.Kernel

open Threads Machines Counting
open Function (update update_self update_of_ne)

/-! ## The three terms -/

/-- An open file that points to inode `e`. -/
def fileRef (v : File) (e : Slot) : Int := if 0 < v.ref ∧ v.type = .inode ∧ v.ip = e then 1 else 0

/-- A current directory that counts. -/
def cwdRef (cwd : Option Slot) (gone : Bool) (e : Slot) : Int :=
  if cwd = some e ∧ gone = false then 1 else 0

namespace St

variable (s : St) (e : Slot)

def fileRefs : Int := ∑ f, fileRef (s.ftable f) e

def cwdRefs : Int := ∑ p, cwdRef (s.procs p).cwd (s.gone p) e

def heldRefs : Int := ∑ p, (s.held p e : Int)

end St

/-- No inode has two entries in use. -/
def Uniq (c : Slot → Entry) : Prop :=
  ∀ e e', 0 < (c e).ref → 0 < (c e').ref → (c e).dev = (c e').dev → (c e).inum = (c e').inum → e = e'

/-- **The counts are exact.** -/
structure Refs (s : St) : Prop where
  exact : ∀ e, (s.icache e).ref = s.fileRefs e + s.cwdRefs e + s.heldRefs e
  uniq : Uniq s.icache

variable {s t : St} {p : Pid} {ip : Slot}

theorem fileRefs_setFile (f : FileId) (v : File) (e : Slot) :
    (s.setFile f v).fileRefs e = s.fileRefs e - fileRef (s.ftable f) e + fileRef v e := by
  have h := sum_change (f := fun j => fileRef (s.ftable j) e)
    (g := fun j => fileRef ((s.setFile f v).ftable j) e) f fun j hj => by
      simp only [St.setFile_ftable, update_of_ne hj]
  simp only [St.setFile_ftable, update_self] at h
  exact h

theorem heldRefs_hold (p : Pid) (ip e : Slot) : (s.hold p ip).heldRefs e = s.heldRefs e + if e = ip then 1 else 0 := by
  have h := sum_change (f := fun j => (s.held j e : Int)) (g := fun j => ((s.hold p ip).held j e : Int)) p
    fun j hj => by simp only [St.hold_held, update_of_ne hj]
  refine h.trans ?_
  simp only [St.hold_held, update_self]
  show s.heldRefs e - _ + _ = _
  rcases eq_or_ne e ip with rfl | he
  · rw [update_self, if_pos rfl]
    omega
  · rw [update_of_ne he, if_neg he]
    omega

theorem heldRefs_unhold {p : Pid} {ip : Slot} (hp : 1 ≤ s.held p ip) (e : Slot) :
    (s.unhold p ip).heldRefs e = s.heldRefs e - if e = ip then 1 else 0 := by
  have h := sum_change (f := fun j => (s.held j e : Int)) (g := fun j => ((s.unhold p ip).held j e : Int))
    p fun j hj => by simp only [St.unhold_held, update_of_ne hj]
  refine h.trans ?_
  simp only [St.unhold_held, update_self]
  show s.heldRefs e - _ + _ = _
  rcases eq_or_ne e ip with rfl | he
  · rw [update_self, if_pos rfl]
    omega
  · rw [update_of_ne he, if_neg he]
    omega

variable {q : Pid}

/-- The `cwd` of one process changes, or whether it counts. -/
theorem cwdRefs_change (h : ∀ j, j ≠ q → (t.procs j).cwd = (s.procs j).cwd ∧
    t.gone j = s.gone j) (e : Slot) : t.cwdRefs e = s.cwdRefs e -
      cwdRef (s.procs q).cwd (s.gone q) e + cwdRef (t.procs q).cwd (t.gone q) e :=
  sum_change q fun j hj => by rw [(h j hj).1, (h j hj).2]

/-- Entries in use, and what they are in use for, are all that matters. -/
theorem Uniq.congr {c d : Slot → Entry} (h : Uniq c) (hd : ∀ e, (d e).dev = (c e).dev ∧
    (d e).inum = (c e).inum ∧ (0 < (d e).ref → 0 < (c e).ref)) : Uniq d := by
  intro e e' h1 h2 h3 h4
  rw [(hd e).1, (hd e').1] at h3
  rw [(hd e).2.1, (hd e').2.1] at h4
  exact h e e' ((hd e).2.2 h1) ((hd e').2.2 h2) h3 h4

/-- A change of the count of one entry in use. -/
theorem Uniq.setRef {c : Slot → Entry} (h : Uniq c) {r : Int} (hr : 0 < r → 0 < (c ip).ref) :
    Uniq (update c ip { c ip with ref := r }) := by
  refine h.congr fun e => ?_
  rcases eq_or_ne e ip with rfl | he
  · rw [update_self]
    exact ⟨rfl, rfl, hr⟩
  · rw [update_of_ne he]
    exact ⟨rfl, rfl, id⟩

/-- **One entry counts `d` more**, and so do the three terms together. -/
theorem Refs.change (h : Refs s) (ip : Slot) (d : Int)
    (hcache : ∀ e, (t.icache e).ref = (s.icache e).ref + if e = ip then d else 0)
    (hterms : ∀ e, t.fileRefs e + t.cwdRefs e + t.heldRefs e =
      s.fileRefs e + s.cwdRefs e + s.heldRefs e + if e = ip then d else 0)
    (huniq : Uniq t.icache) : Refs t where
  exact := fun e => by rw [hcache, hterms, h.exact]
  uniq := huniq

/-- Nothing is counted, or a reference moves from one term to another. -/
theorem Refs.move (h : Refs s)
    (hcache : ∀ e, (t.icache e).ref = (s.icache e).ref ∧ (t.icache e).dev = (s.icache e).dev ∧
      (t.icache e).inum = (s.icache e).inum)
    (hterms : ∀ e, t.fileRefs e + t.cwdRefs e + t.heldRefs e =
      s.fileRefs e + s.cwdRefs e + s.heldRefs e) : Refs t where
  exact := fun e => by rw [(hcache e).1, hterms, h.exact]
  uniq := h.uniq.congr fun e => ⟨(hcache e).2.1, (hcache e).2.2, fun hr => by rwa [(hcache e).1] at hr⟩

theorem fileRef_nonneg (v : File) (e : Slot) : 0 ≤ fileRef v e := by
  unfold fileRef
  split <;> decide

theorem cwdRef_nonneg (c : Option Slot) (b : Bool) (e : Slot) : 0 ≤ cwdRef c b e := by
  unfold cwdRef
  split <;> decide

theorem terms_nonneg (s : St) (e : Slot) : 0 ≤ s.fileRefs e ∧ 0 ≤ s.cwdRefs e ∧ 0 ≤ s.heldRefs e :=
  ⟨Finset.sum_nonneg fun _ _ => fileRef_nonneg _ e, Finset.sum_nonneg fun _ _ => cwdRef_nonneg _ _ e,
    Finset.sum_nonneg fun _ _ => Int.natCast_nonneg _⟩

/-- An entry that a call holds is in use. -/
theorem Refs.held_pos (h : Refs s) (hp : 1 ≤ s.held p ip) : 0 < (s.icache ip).ref := by
  have h1 : (s.held p ip : Int) ≤ s.heldRefs ip :=
    le_sum (f := fun q => (s.held q ip : Int)) (fun _ => Int.natCast_nonneg _) p
  obtain ⟨h2, h3, -⟩ := terms_nonneg s ip
  rw [h.exact]
  omega

/-- An entry that is somebody's current directory is in use. -/
theorem Refs.cwd_pos (h : Refs s) (hp : (s.procs p).cwd = some ip) (hg : s.gone p = false) : 0 < (s.icache ip).ref := by
  have h1 : cwdRef (s.procs p).cwd (s.gone p) ip ≤ s.cwdRefs ip :=
    le_sum (f := fun q => cwdRef (s.procs q).cwd (s.gone q) ip) (fun _ => cwdRef_nonneg _ _ ip) p
  obtain ⟨h2, -, h3⟩ := terms_nonneg s ip
  rw [cwdRef, if_pos ⟨hp, hg⟩] at h1
  rw [h.exact]
  omega

/-! ## The actions that count -/

/-- The count of one entry, after it has been overwritten. -/
theorem ref_setEntry {d : Int} {v : Entry} (hv : v.ref = (s.icache ip).ref + d) (e : Slot) :
    ((s.setEntry ip v).icache e).ref = (s.icache e).ref + if e = ip then d else 0 := by
  rw [St.setEntry_icache]
  rcases eq_or_ne e ip with rfl | he
  · rw [update_self, if_pos rfl, hv]
  · rw [update_of_ne he, if_neg he]
    omega

/-- `ip->ref++`, for an entry in use. -/
theorem Refs.gain (h : Refs s) (hr : 0 < (s.icache ip).ref) :
    Refs ((s.setEntry ip { s.icache ip with ref := (s.icache ip).ref + 1 }).hold p ip) := by
  refine h.change ip 1 (ref_setEntry rfl) (fun e => ?_) (h.uniq.setRef fun _ => hr)
  rw [heldRefs_hold, ← add_assoc]
  rfl

/-- `iget` recycles an empty entry. -/
theorem Refs.recycle (h : Refs s) (h0 : (s.icache ip).ref = 0) {dev inum : Nat}
    (hnew : ∀ e, 0 < (s.icache e).ref → (s.icache e).dev = dev → (s.icache e).inum ≠ inum) :
    Refs ((s.setEntry ip { s.icache ip with
      dev := dev, inum := inum, ref := 1, valid := false }).hold p ip) := by
  refine h.change ip 1 (ref_setEntry (by rw [h0]; rfl)) (fun e => ?_) ?_
  · rw [heldRefs_hold, ← add_assoc]
    rfl
  · intro e e' h1 h2 h3 h4
    simp only [St.hold_icache, St.setEntry_icache] at h1 h2 h3 h4
    rcases eq_or_ne e ip with rfl | he <;> rcases eq_or_ne e' e with rfl | he'
    · rfl
    · rw [update_of_ne he'] at h2 h3 h4
      rw [update_self] at h3 h4
      exact absurd h4.symm (hnew e' h2 h3.symm)
    · rfl
    · rw [update_of_ne he] at h1 h3 h4
      rcases eq_or_ne e' ip with rfl | hip
      · rw [update_self] at h3 h4
        exact absurd h4 (hnew e h1 h3)
      · rw [update_of_ne hip] at h2 h3 h4
        exact h.uniq e e' h1 h2 h3 h4

/-- `ip->ref--`, paid for with a reference that the call holds. -/
theorem Refs.deref (h : Refs s) (hp : 1 ≤ s.held p ip) :
    Refs ((s.setEntry ip { s.icache ip with ref := (s.icache ip).ref - 1 }).unhold p ip) := by
  refine h.change ip (-1) (ref_setEntry rfl) (fun e => ?_) (h.uniq.setRef fun _ => h.held_pos hp)
  rw [heldRefs_unhold (s := s.setEntry ip _) hp]
  show s.fileRefs e + s.cwdRefs e + (s.heldRefs e - _) = _
  split <;> omega

variable {v : File}

section

variable (h : Refs s)

include h

/-- The last reference to a file is closed: its pointer passes to the call. -/
theorem Refs.close {f : FileId} (hv : ∀ e, fileRef v e = 0)
    (hi : (s.ftable f).type = .inode) (hr : 0 < (s.ftable f).ref) : Refs ((s.setFile f v).hold p (s.ftable f).ip) := by
  refine h.move (fun e => ⟨rfl, rfl, rfl⟩) fun e => ?_
  rw [heldRefs_hold]
  show (s.setFile f v).fileRefs e + s.cwdRefs e + (s.heldRefs e + _) = _
  have hold : fileRef (s.ftable f) e = if e = (s.ftable f).ip then 1 else 0 := by
    unfold fileRef
    simp only [hr, hi, true_and, eq_comm]
  rw [fileRefs_setFile, hv, hold]
  omega

/-- A file is overwritten that points to the same inode as before. -/
theorem Refs.sameFile {f : FileId} (hv : ∀ e, fileRef v e = fileRef (s.ftable f) e) : Refs (s.setFile f v) := by
  refine h.move (fun e => ⟨rfl, rfl, rfl⟩) fun e => ?_
  rw [fileRefs_setFile, hv, sub_add_cancel]
  rfl

/-- A file that points nowhere is overwritten. -/
theorem Refs.setFile {f : FileId} (hf : ∀ e, fileRef (s.ftable f) e = 0)
    (hv : ∀ e, fileRef v e = 0) : Refs (s.setFile f v) := h.sameFile fun e => by rw [hf, hv]

/-- A reference that the call holds is stored in a file that points nowhere. -/
theorem Refs.store {f : FileId} (hf : ∀ e, fileRef (s.ftable f) e = 0)
    (hv : ∀ e, fileRef v e = if e = ip then 1 else 0) (hp : 1 ≤ s.held p ip) : Refs ((s.setFile f v).unhold p ip) := by
  refine h.move (fun e => ⟨rfl, rfl, rfl⟩) fun e => ?_
  rw [heldRefs_unhold (s := s.setFile f v) hp]
  show (s.setFile f v).fileRefs e + s.cwdRefs e + (s.heldRefs e - _) = _
  rw [fileRefs_setFile, hf, hv]
  omega

/-- A process passes its `cwd` to `iput`: the reference is now the call's. -/
theorem Refs.takeCwd (hc : (s.procs p).cwd = some ip) (hg : s.gone p = false) :
    Refs ((s.setGone p true).hold p ip) := by
  refine h.move (fun e => ⟨rfl, rfl, rfl⟩) fun e => ?_
  rw [heldRefs_hold]
  have hcwd := cwdRefs_change (s := s) (t := (s.setGone p true).hold p ip) (q := p)
    (fun j hj => ⟨rfl, update_of_ne hj _ _⟩) e
  have hnew : ((s.setGone p true).hold p ip).gone p = true := update_self _ _ _
  rw [hnew, hg, hc] at hcwd
  rw [hcwd]
  show s.fileRefs e + (s.cwdRefs e - cwdRef (some ip) false e + cwdRef (s.procs p).cwd true e) + (s.heldRefs e + _) = _
  simp only [cwdRef, Option.some.injEq, and_true, Bool.true_eq_false, and_false, if_false, eq_comm (a := ip)]
  omega

/-- A reference that the call holds is stored in a `cwd` that does not count. -/
theorem Refs.storeCwd (hold : ∀ e, cwdRef (s.procs q).cwd (s.gone q) e = 0)
    (hothers : ∀ j, j ≠ q → (t.procs j).cwd = (s.procs j).cwd ∧ t.gone j = s.gone j)
    (hnew : (t.procs q).cwd = some ip ∧ t.gone q = false) (hp : 1 ≤ s.held p ip)
    (hcache : t.icache = s.icache) (hfile : t.ftable = s.ftable) (hheld : t.held = (s.unhold p ip).held) : Refs t := by
  refine h.move (fun e => by rw [hcache]; exact ⟨rfl, rfl, rfl⟩) fun e => ?_
  have hh : t.heldRefs e = (s.unhold p ip).heldRefs e := by
    simp only [St.heldRefs, hheld]
  have hf : t.fileRefs e = s.fileRefs e := by
    simp only [St.fileRefs, hfile]
  rw [hh, hf, heldRefs_unhold hp, cwdRefs_change hothers, hold, hnew.1, hnew.2]
  simp only [cwdRef, Option.some.injEq, and_true, eq_comm (a := ip)]
  omega

/-- A `cwd` that does not count is cleared. -/
theorem Refs.clearCwd (hold : ∀ e, cwdRef (s.procs p).cwd (s.gone p) e = 0)
    (hothers : ∀ j, j ≠ p → (t.procs j).cwd = (s.procs j).cwd ∧ t.gone j = s.gone j)
    (hnew : (t.procs p).cwd = none) (hcache : t.icache = s.icache) (hfile : t.ftable = s.ftable)
    (hheld : t.held = s.held) : Refs t := by
  refine h.move (fun e => by rw [hcache]; exact ⟨rfl, rfl, rfl⟩) fun e => ?_
  have hh : t.heldRefs e = s.heldRefs e := by
    simp only [St.heldRefs, hheld]
  have hf : t.fileRefs e = s.fileRefs e := by
    simp only [St.fileRefs, hfile]
  rw [hh, hf, cwdRefs_change hothers, hold, hnew]
  simp only [cwdRef, reduceCtorEq, false_and, if_false]
  omega

/-- Something else of the processes changes. -/
theorem Refs.sameCwd (hcwd : ∀ q, (t.procs q).cwd = (s.procs q).cwd)
    (hgone : t.gone = s.gone) (hcache : t.icache = s.icache) (hfile : t.ftable = s.ftable)
    (hheld : t.held = s.held) : Refs t := by
  refine h.move (fun e => by rw [hcache]; exact ⟨rfl, rfl, rfl⟩) fun e => ?_
  simp only [St.fileRefs, St.cwdRefs, St.heldRefs, hcwd, hgone, hfile, hheld]

end

/-! ## References to files -/

/-- **File references are exact**: `own p f` of them belong to process `p`.  The files `fresh p` are
    those that `p` has allocated and not yet initialised; nobody else has them. -/
structure Files (tbl : FileId → File) (own : Pid → FileId → Int) (fresh : Pid → FileId → Bool) :
    Prop where
  exact : ∀ f, (tbl f).ref = ∑ p, own p f
  nonneg : ∀ p f, 0 ≤ own p f
  closed : ∀ f, (tbl f).ref = 0 → (tbl f).type = .none
  alone : ∀ p f, fresh p f = true →
    (tbl f).type = .none ∧ 1 ≤ own p f ∧ ∀ q, q ≠ p → own q f = 0

namespace Files

variable {tbl tbl' : FileId → File} {own own' : Pid → FileId → Int} {fresh fresh' : Pid → FileId → Bool}
  {f : FileId}

/-- Nobody owns a file that is not in use. -/
theorem own_eq_zero (h : Files tbl own fresh) (h0 : (tbl f).ref = 0) (p : Pid) : own p f = 0 := by
  have h1 := le_sum (f := fun q => own q f) (fun q => h.nonneg q f) p
  have h2 := h.nonneg p f
  have h3 := h.exact f
  omega

/-- What belongs to `p` is in use. -/
theorem ref_pos (h : Files tbl own fresh) (hp : 1 ≤ own p f) : 0 < (tbl f).ref := by
  have h1 := le_sum (f := fun q => own q f) (fun q => h.nonneg q f) p
  have h3 := h.exact f
  omega

/-- **The references of process `p` to file `f` change** by `d`, and the count with them; the files
    `fresh' p` are still `p`'s alone. -/
theorem change (h : Files tbl own fresh) {d : Int} (hown : ∀ q g, own' q g = own q g + if q = p ∧ g = f then d else 0)
    (htbl : ∀ g, g ≠ f → tbl' g = tbl g) (href : (tbl' f).ref = (tbl f).ref + d)
    (hd : 0 ≤ own p f + d) (hclosed : (tbl' f).ref = 0 → (tbl' f).type = .none)
    (hothers : ∀ q, q ≠ p → fresh' q = fresh q) (halone : ∀ g, fresh' p g = true →
      (tbl' g).type = .none ∧ 1 ≤ own' p g ∧ ∀ q, q ≠ p → own q g = 0)
    (hforeign : ∀ q, q ≠ p → fresh q f = false) : Files tbl' own' fresh' where
  exact := fun g => by
    have hsum : ∑ q, own' q g = (∑ q, own q g) - own p g + own' p g :=
      sum_change p fun q hq => by rw [hown, if_neg fun e => hq e.1, add_zero]
    rw [hsum, hown]
    rcases eq_or_ne g f with rfl | hg
    · rw [href, h.exact, if_pos ⟨rfl, rfl⟩]
      omega
    · rw [htbl g hg, h.exact, if_neg fun e => hg e.2]
      omega
  nonneg := fun q g => by
    rw [hown]
    split
    · rename_i e
      rw [e.1, e.2]
      exact hd
    · rw [add_zero]
      exact h.nonneg q g
  closed := fun g h0 => by
    rcases eq_or_ne g f with rfl | hg
    · exact hclosed h0
    · rw [htbl g hg] at h0 ⊢
      exact h.closed g h0
  alone := fun q g hg => by
    rcases eq_or_ne q p with rfl | hq
    · obtain ⟨h1, h2, h3⟩ := halone g hg
      exact ⟨h1, h2, fun r hr => by rw [hown, if_neg fun e => hr e.1, add_zero]; exact h3 r hr⟩
    · rw [hothers q hq] at hg
      have hne : g ≠ f := by
        rintro rfl
        rw [hforeign q hq] at hg
        cases hg
      obtain ⟨h1, h2, h3⟩ := h.alone q g hg
      refine ⟨by rw [htbl g hne]; exact h1, ?_, fun r hr => ?_⟩
      · rw [hown, if_neg fun e => hq e.1, add_zero]
        exact h2
      · rw [hown, if_neg fun e => hne e.2, add_zero]
        exact h3 r hr

/-- A process that owns a file shares it with none for which it is fresh. -/
theorem not_fresh (h : Files tbl own fresh) (hp : 1 ≤ own p f) (hq : q ≠ p) : fresh q f = false := by
  cases hf : fresh q f with
  | false => rfl
  | true =>
    have := (h.alone q f hf).2.2 p (Ne.symm hq)
    omega

end Files

end Xv6.Kernel
