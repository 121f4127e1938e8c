/-
  Inode references are exact, under any interleaving.

  1. **Every run** — a booted system satisfies the invariant of `Kernel.Exact`; with `Call.balanced` this
     is all that `Logic.sound` asks for.
  2. **Paths** — `namex` leaves one reference behind, to the inode it returns: in what the call holds,
     whatever the others do in between, and in the counts themselves if it runs alone.
  3. **The theorem** (`refs_exact`).  The `cwd` of a process in `chdir` or `exit` that has been passed to
     `iput` and not yet overwritten is left out of it, and has to be (`stale_cwd`).
  4. **No use of a reference that is gone** (`refs_live`).
-/
import Mathlib
import Xv6.Kernel.Exact

namespace Xv6.Kernel

open Threads Machines Counting Hold
open Function (update update_self update_of_ne update_eq_self)

variable {s t : St} {G : Pid → Option Know} {p : Pid} {g : Know}

/-! ## Every run -/

/-- A system that has just booted, whatever is on its disk. -/
def Booted (s : St) : Prop := ∃ ino, s = boot ino

/-- The rule, with what calls know as ghosts. -/
def logic (init : St → Prop) : Logic (kernel init) Know where
  inv := Inv
  pre := Know.pre
  next := Know.next
  final := Know.Done

theorem boot_refs (ino : Nat → Ino) : Refs (boot ino) where
  exact := by
    intro e
    have hfile : (boot ino).fileRefs e = 0 :=
      Finset.sum_eq_zero fun f _ => if_neg fun hc => absurd hc.1 (lt_irrefl 0)
    have hheld : (boot ino).heldRefs e = 0 := Finset.sum_eq_zero fun _ _ => rfl
    have hcwd : (boot ino).cwdRefs e = if e = 0 then 1 else 0 := by
      refine (Finset.sum_eq_single initproc (fun q _ hq => ?_) fun hq => absurd (Finset.mem_univ _) hq).trans ?_
      · simp only [boot, if_neg hq, cwdRef, reduceCtorEq, false_and, if_false]
      · simp only [boot, if_true, cwdRef, and_true, Option.some.injEq, eq_comm (a := (0 : Slot))]
    rw [hfile, hheld, hcwd]
    simp only [boot]
    split <;> rfl
  uniq := by
    have hzero : ∀ e, 0 < ((boot ino).icache e).ref → e = 0 := by
      intro e he
      by_contra hne
      simp only [boot, if_neg hne] at he
      exact absurd he (by decide)
    intro e e' he he' _ _
    rw [hzero e he, hzero e' he']

theorem boot_inv (ino : Nat → Ino) : Inv (boot ino) fun _ => none where
  refs := boot_refs ino
  files := by
    have hown : ∀ p f, ownOf (boot ino) (fun _ => none) p f = 0 := by
      intro p f
      show slots ((boot ino).procs p).ofile f = 0
      simp only [boot]
      split <;> exact slots_none f
    refine ⟨fun f => ?_, fun p f => (hown p f).ge, fun f _ => rfl, fun p f hf => nomatch hf⟩
    exact (Finset.sum_eq_zero fun p _ => hown p f).symm
  procs := by
    refine ⟨fun _ _ h => (nomatch h), fun _ _ => ⟨rfl, rfl⟩, fun p hp => ?_, fun _ _ _ h => (nomatch h),
      fun _ _ _ _ _ _ h => (nomatch h)⟩
    rcases eq_or_ne p initproc with rfl | hne
    · have hrun : ((boot ino).procs initproc).state = .runnable := rfl
      rw [hrun] at hp
      rcases hp with hp | hp <;> cases hp
    · have hbare : (boot ino).procs p = ⟨.unused, none, none, fun _ => none⟩ := if_neg hne
      rw [hbare]
      exact ⟨rfl, rfl⟩

/-- What a process knows when it enters a call. -/
def entry (s : St) (p : Pid) : Know :=
  ⟨fun _ => 0, (s.procs p).cwd, false, slots (s.procs p).ofile, (s.procs p).ofile, fun _ => false, none,
    false⟩

theorem entry_ready : (entry s p).Ready := ⟨⟨rfl, rfl, rfl, rfl⟩, rfl⟩

namespace Inv

/-- A process enters a call. -/
theorem enter (h : Inv s G) (hp : G p = none) (hrun : (s.procs p).state = .runnable) :
    Inv s (update G p (some (entry s p))) where
  refs := h.refs
  files := by
    rw [ownOf_update (s := s) fun _ _ => rfl, freshOf_update]
    have h1 : (entry s p).own = ownOf s G p := by
      simp only [ownOf, hp, entry]
    have h2 : (entry s p).fresh = freshOf G p := by
      simp only [freshOf, hp, entry]
    rw [h1, h2, update_eq_self, update_eq_self]
    exact h.files
  procs := by
    have hold : ∀ q k c, update G p (some (entry s p)) q = some k → k.child = some c →
        G q = some k := by
      intro q k c hk hc
      rcases update_eq_some hk with ⟨rfl, rfl⟩ | ⟨-, hk⟩
      · cases hc
      · exact hk
    constructor
    case busy =>
      intro q k hk
      rcases update_eq_some hk with ⟨rfl, rfl⟩ | ⟨-, hk⟩
      · exact ⟨(h.procs.idle q hp).1, (h.procs.idle q hp).2, rfl, rfl, hrun⟩
      · exact h.procs.busy q k hk
    case idle => exact fun q hq => h.procs.idle q (update_eq_none hq).2
    case stopped => exact h.procs.stopped
    case child => exact fun q k c hk hc => h.procs.child q k c (hold q k c hk hc) hc
    case parent =>
      intro q q' k k' c d hk hk' hc hd hcd
      exact h.procs.parent q q' k k' c d (hold q k c hk hc) (hold q' k' d hk' hd) hc hd hcd

/-- A process leaves a call, with nothing in hand. -/
theorem leave (h : Inv s G) (hp : G p = some g) (hg : g.Done) : Inv s (update G p none) where
  refs := h.refs
  files := by
    have hsync := h.procs.busy p g hp
    refine h.files.congr (fun _ => ⟨rfl, rfl⟩) ?_ fun q f hf => ?_
    · funext q
      rcases eq_or_ne q p with rfl | hq
      · simp only [ownOf, update_self, hp, hg.own, hsync.ofile]
      · simp only [ownOf, update_of_ne hq]
    · rcases eq_or_ne q p with rfl | hq
      · simp only [freshOf, update_self] at hf
        cases hf
      · simp only [freshOf, update_of_ne hq] at hf ⊢
        exact hf
  procs := by
    have hold : ∀ q k, update G p none q = some k → G q = some k := by
      intro q k hk
      rcases eq_or_ne q p with rfl | hq
      · rw [update_self] at hk
        cases hk
      · rwa [update_of_ne hq] at hk
    constructor
    case busy => exact fun q k hk => h.procs.busy q k (hold q k hk)
    case idle =>
      intro q hq
      rcases eq_or_ne q p with rfl | hne
      · have hsync := h.procs.busy q g hp
        exact ⟨hsync.held.trans hg.held, hsync.gone.trans hg.gone⟩
      · rw [update_of_ne hne] at hq
        exact h.procs.idle q hq
    case stopped => exact h.procs.stopped
    case child => exact fun q k c hk hc => h.procs.child q k c (hold q k hk) hc
    case parent =>
      intro q q' k k' c d hk hk' hc hd hcd
      exact h.procs.parent q q' k k' c d (hold q k hk) (hold q' k' hk') hc hd hcd

end Inv

theorem logic_sound : (logic Booted).Sound anyStep where
  init := by
    rintro _ ⟨ino, rfl⟩
    exact boot_inv ino
  call := by
    intro S G p c hcov hp hmay _
    exact ⟨entry S.shared p, hcov.inv.enter hp (of_decide_eq_true hmay), Call.balanced entry_ready c⟩
  act := by
    intro S G p a k g s r hcov _ _ hp hpre he
    refine hcov.inv.act_step hp hpre (fun q hq => ?_) he
    -- a call whose process is a zombie would have nothing left to do
    cases hG : G q with
    | none => rfl
    | some h =>
      have hthr := hcov.thr q
      rw [hG] at hthr
      obtain ⟨b, -, -, hb, -⟩ := hthr.of_ghost
      have hstate := (hcov.inv.procs.busy q h hG).state
      rw [hq, hb] at hstate
      cases hstate
  leave := fun s G p g hinv hp hg => hinv.leave hp hg

/-! ## Looking up a path -/

/-- What an action of a path walk does to the references held, it does to the counts. -/
theorem exec_dup {a : Act} {r : a.R} (hpre : preDup a (s.held p)) (he : exec s p a = .ok t r) :
    nextDup a (s.held p) r (t.held p) ∧
      ∀ e, (t.icache e).ref - t.held p e = (s.icache e).ref - s.held p e := by
  have hgain : ∀ (ip : Slot) (v : Entry), v.ref = (s.icache ip).ref + 1 →
      t = (s.setEntry ip v).hold p ip → t.held p = gain ip (s.held p) ∧
        ∀ e, (t.icache e).ref - t.held p e = (s.icache e).ref - s.held p e := by
    rintro ip v hv rfl
    have hh : ((s.setEntry ip v).hold p ip).held p = gain ip (s.held p) := held_hold
    refine ⟨hh, fun e => ?_⟩
    rw [hh, St.hold_icache, ref_setEntry hv, gain_apply]
    split <;> omega
  have hquiet : Quiet s t → t.held p = s.held p ∧
      ∀ e, (t.icache e).ref - t.held p e = (s.icache e).ref - s.held p e := by
    intro hq
    refine ⟨by rw [hq.held], fun e => ?_⟩
    rw [hq.held, (hq.cache e).1]
  cases a with
  | iget dev inum =>
    rcases exec_iget he with ⟨-, ht⟩ | ⟨-, hempty, ht⟩
    · exact hgain r _ rfl ht
    · exact hgain r _ (by rw [empty_some hempty]; rfl) ht
  | idup ip =>
    cases he
    exact hgain ip _ rfl rfl
  | deref ip =>
    cases he
    replace hpre : 1 ≤ s.held p ip := hpre
    refine ⟨held_unhold, fun e => ?_⟩
    have hh : ∀ v : Entry, ((s.setEntry ip v).unhold p ip).held p = lose ip (s.held p) := fun _ => held_unhold
    rw [hh, St.unhold_icache, ref_setEntry (d := -1) rfl]
    unfold lose
    rcases eq_or_ne e ip with rfl | hne
    · rw [if_pos rfl, update_self]
      omega
    · rw [if_neg hne, update_of_ne hne]
      omega
  | cwd =>
    obtain ⟨-, rfl⟩ := exec_cwd he
    exact ⟨rfl, fun _ => rfl⟩
  | panic e => cases r
  | _ => exact hquiet (exec_quiet (m := s.held p) he hpre nofun nofun)

/-- Nobody else changes what a call holds. -/
theorem exec_held {q : Pid} {a : Act} {r : a.R} (hq : q ≠ p) (he : exec s q a = .ok t r) : t.held p = s.held p := by
  have hhold : ∀ (u : St) (ip : Slot), (u.hold q ip).held p = u.held p := fun u ip => held_hold_ne hq.symm
  have hunhold : ∀ (u : St) (ip : Slot), (u.unhold q ip).held p = u.held p :=
    fun u ip => held_unhold_ne hq.symm
  cases a with
  | panic e => cases r
  | beginOp => rw [exec_beginOp he]
  | iget dev inum => rcases exec_iget he with ⟨-, rfl⟩ | ⟨-, -, rfl⟩ <;> exact hhold _ _
  | acquiresleep ip site =>
    obtain ⟨-, rfl⟩ := exec_acquiresleep he
    rfl
  | load ip => rcases exec_load he with ⟨-, rfl⟩ | ⟨-, rfl⟩ <;> rfl
  | iupdate ip v =>
    obtain ⟨rfl, -⟩ := exec_iupdate he
    rfl
  | ialloc inum type => rcases exec_ialloc he with ⟨-, rfl, -⟩ | ⟨rfl, -⟩ <;> rfl
  | filealloc => rcases exec_filealloc he with ⟨f, -, rfl, -⟩ | ⟨rfl, -⟩ <;> rfl
  | filedup f =>
    obtain rfl := exec_filedup he
    rfl
  | fileclose f =>
    rcases exec_fileclose he with ⟨-, ⟨-, rfl, -⟩ | ⟨-, -, rfl⟩⟩
    · rfl
    · split
      · exact hhold _ _
      · rfl
  | fdalloc f => rcases exec_fdalloc he with ⟨fd, -, -, rfl⟩ | ⟨rfl, -⟩ <;> rfl
  | cwd => rw [(exec_cwd he).2]
  | takeCwd =>
    rw [(exec_takeCwd he).2]
    exact hhold _ _
  | setCwd o =>
    cases he
    cases o with
    | none => rfl
    | some ip => exact hunhold _ _
  | allocproc => rcases exec_allocproc he with ⟨np, -, -, rfl⟩ | ⟨rfl, -⟩ <;> rfl
  | wait => rcases exec_wait he with ⟨c, -, -, rfl⟩ | ⟨rfl, -⟩ <;> rfl
  | idup ip =>
    cases he
    exact hhold _ _
  | deref ip | openFile f ip readable writable | childCwd np ip =>
    cases he
    exact hunhold _ _
  | _ =>
    cases he
    rfl

/-- How many references to `e` a path walk leaves behind. -/
def returned (r : Option (Slot × Name)) (e : Slot) : Nat := if r.map Prod.fst = some e then 1 else 0

variable {r : Option (Slot × Name)}

theorem Found.apply {m m' : Hold} (h : Found m r m') (e : Slot) : m' e = m e + returned r e := by
  unfold returned
  rcases r with - | ⟨ip, name⟩
  · rw [show m' = m from h]
    simp only [Option.map_none, reduceCtorEq, if_false, add_zero]
  · rw [show m' = gain ip m from h, gain_apply]
    simp only [Option.map_some, Option.some.injEq, eq_comm (a := e)]

variable {path : List UInt8} {parent : Bool}

/-- `namex` among other processes. -/
theorem namex_held (h : Runs exec p (namex path parent) s r t) (e : Slot) : t.held p e = s.held p e + returned r e := by
  have hown : ∀ s a t r m, s.held p = m → preDup a m → exec s p a = .ok t r →
      ∃ m', nextDup a m r m' ∧ t.held p = m' := by
    rintro s a t r _ rfl hpre he
    exact ⟨t.held p, (exec_dup hpre he).1, rfl⟩
  have hother : ∀ s q b t r m, q ≠ p → s.held p = m → exec s q b = .ok t r → t.held p = m :=
    fun s q b t r m hq hs he => (exec_held hq he).trans hs
  obtain ⟨m, hm, ht⟩ := Runs.post _ hown hother h rfl (namex_dup path parent)
  rw [ht]
  exact hm.apply e

/-- `namex` on its own. -/
theorem namex_refs (h : (namex path parent).run (fun s a => exec s p a) s = .ok (r, t)) (e : Slot) :
    (t.icache e).ref = (s.icache e).ref + returned r e := by
  -- the difference of the two counts stays the same
  let rel := fun (u : St) (m : Hold) => u.held p = m ∧
    ∀ e, (u.icache e).ref - u.held p e = (s.icache e).ref - s.held p e
  have hown : ∀ u a v r m, rel u m → preDup a m → exec u p a = .ok v r →
      ∃ m', nextDup a m r m' ∧ rel v m' := by
    rintro u a v r _ ⟨rfl, hu⟩ hpre he
    obtain ⟨hn, hv⟩ := exec_dup hpre he
    exact ⟨v.held p, hn, rfl, fun e => (hv e).trans (hu e)⟩
  obtain ⟨m, hm, ht, hrefs⟩ := wp_run rel hown ⟨rfl, fun _ => rfl⟩ (namex_dup path parent) h
  have h1 := hm.apply e
  have h2 := hrefs e
  rw [ht, h1] at h2
  omega

/-! ## The counts -/

/-- The open files that point to inode `e`. -/
def St.openFiles (s : St) (e : Slot) : Finset FileId :=
  Finset.univ.filter fun f => 0 < (s.ftable f).ref ∧ (s.ftable f).type = .inode ∧ (s.ftable f).ip = e

/-- The processes whose `cwd` is inode `e`, and has not been passed to `iput`. -/
def St.cwdOf (s : St) (e : Slot) : Finset Pid :=
  Finset.univ.filter fun p => (s.procs p).cwd = some e ∧ s.gone p = false

/-- **Inode references are exact.**  In every state of every interleaving: no inode has two entries in
    use; the count of an entry is the number of open files that point to it, plus the processes whose
    `cwd` it is, plus the references that calls hold; a process in no call holds none.  And `namex` adds
    one reference to the inode it returns, and none if it returns none. -/
theorem refs_exact {S : State St Pid Act Act.R Panic Int} (h : (kernel Booted).machine.Reachable anyStep S) :
    (∀ e e', 0 < (S.shared.icache e).ref → 0 < (S.shared.icache e').ref →
      (S.shared.icache e).dev = (S.shared.icache e').dev →
      (S.shared.icache e).inum = (S.shared.icache e').inum → e = e') ∧
    (∀ e, (S.shared.icache e).ref =
      (S.shared.openFiles e).card + (S.shared.cwdOf e).card + ∑ p, S.shared.held p e) ∧
    (∀ p, S.thr p = none → (∀ e, S.shared.held p e = 0) ∧ S.shared.gone p = false) ∧
    (∀ p path parent s r t, Runs exec p (namex path parent) s r t →
      ∀ e, t.held p e = s.held p e + returned r e) ∧
    (∀ p path parent s r t, (namex path parent).run (fun s a => exec s p a) s = .ok (r, t) →
      ∀ e, (t.icache e).ref = (s.icache e).ref + returned r e) := by
  obtain ⟨G, hcov⟩ := Logic.sound logic_sound h
  have hinv : Inv S.shared G := hcov.inv
  refine ⟨hinv.refs.uniq, fun e => ?_, fun p hp => ?_, fun p path parent s r t => namex_held,
    fun p path parent s r t => namex_refs⟩
  · have hexact := hinv.refs.exact e
    simp only [St.fileRefs, St.cwdRefs, St.heldRefs, fileRef, cwdRef] at hexact
    rw [hexact, St.openFiles, St.cwdOf, Finset.card_filter, Finset.card_filter]
    simp only [Nat.cast_sum, Nat.cast_ite, Nat.cast_one, Nat.cast_zero]
  · have hidle : G p = none := by
      have hf := hcov.thr p
      rw [hp] at hf
      cases hG : G p with
      | none => rfl
      | some k => rw [hG] at hf; exact hf.elim
    exact ⟨fun e => congrFun (hinv.procs.idle p hidle).1 e, (hinv.procs.idle p hidle).2⟩

/-! ## A stale `cwd` -/

/-- A root directory with one subdirectory, `d`. -/
def dirImage (n : Nat) : Ino :=
  if n = 1 then ⟨.dir, 0, 0, 2, (Dirent.encode ⟨1, dot⟩ ++ Dirent.encode ⟨1, dotdot⟩ ++
    Dirent.encode ⟨2, .ofBytes [100]⟩)⟩
  else if n = 2 then ⟨.dir, 0, 0, 1, (Dirent.encode ⟨2, dot⟩ ++ Dirent.encode ⟨1, dotdot⟩)⟩
  else ⟨.free, 0, 0, 0, []⟩

def dirBoot : State St Pid Act Act.R Panic Int := ⟨boot dirImage, fun _ => none, none⟩

/-- The first process calls `chdir("d")` and gets to the end of `iput(curproc->cwd)`. -/
def staleRun : List (Label Pid Call) :=
  .call initproc (.chdir (some [100])) :: List.replicate 29 (.step initproc)

theorem staleRun_state : ((kernel Booted).machine.run dirBoot staleRun).any (fun S =>
    decide ((S.shared.icache 0).ref = 0 ∧ (S.shared.procs initproc).cwd = some 0)) = true := by
  decide +kernel

theorem staleRun_reachable : ∃ S, (kernel Booted).machine.Reachable anyStep S ∧
    (S.shared.icache 0).ref = 0 ∧ (S.shared.procs initproc).cwd = some 0 := by
  have hinit : (kernel Booted).machine.init dirBoot := ⟨⟨dirImage, rfl⟩, fun _ => rfl, rfl⟩
  exact Machine.reachable_of_run hinit staleRun_state

/-- In `chdir`, after `iput(curproc->cwd)`, the first process is still in a directory to which there is
    no reference. -/
theorem stale_cwd : ∃ S, (kernel Booted).machine.Reachable anyStep S ∧
    ∃ e, (S.shared.icache e).ref ≠ (S.shared.openFiles e).card +
      (Finset.univ.filter fun p => (S.shared.procs p).cwd = some e).card + ∑ p, S.shared.held p e := by
  obtain ⟨S, hS, href, hcwd⟩ := staleRun_reachable
  refine ⟨S, hS, 0, fun h => ?_⟩
  have hmem : initproc ∈ Finset.univ.filter fun p => (S.shared.procs p).cwd = some 0 :=
    Finset.mem_filter.mpr ⟨Finset.mem_univ _, hcwd⟩
  have hpos := Finset.card_pos.mpr ⟨_, hmem⟩
  rw [href] at h
  omega

/-- In that state all of the counts agree, the stale `cwd` left out. -/
theorem refs_exact_stale : ∃ S, (kernel Booted).machine.Reachable anyStep S ∧
    (S.shared.icache 0).ref = 0 ∧ S.shared.cwdOf 0 = ∅ := by
  obtain ⟨S, hS, href, -⟩ := staleRun_reachable
  have h := (refs_exact hS).2.1 0
  rw [href] at h
  exact ⟨S, hS, href, Finset.card_eq_zero.mp (by omega)⟩

/-- **References are live when they are used**, in every interleaving of all calls: `filedup` and `fileclose` find a file
    that is in use, so they do not panic, and the `ref--` of `iput` an inode with a reference; and while nobody is in a
    call, the references of a file are the descriptors that point to it. -/
theorem refs_live {S : State St Pid Act Act.R Panic Int} (h : (kernel Booted).machine.Reachable anyStep S) :
    (∀ p a k f, S.thr p = some (.act a k) → a = .filedup f ∨ a = .fileclose f → 1 ≤ (S.shared.ftable f).ref) ∧
    (∀ p ip k, S.thr p = some (.act (.deref ip) k) → 0 < (S.shared.icache ip).ref) ∧
    ((∀ p, S.thr p = none) → ∀ f, (S.shared.ftable f).ref = ∑ p, slots (S.shared.procs p).ofile f) := by
  obtain ⟨G, hcov⟩ := Logic.sound logic_sound h
  have hinv : Inv S.shared G := hcov.inv
  have hneeds : ∀ p a k, S.thr p = some (.act a k) → ∃ g, G p = some g ∧ Know.needs a g := by
    intro p a k hp
    have hf := hcov.thr p
    rw [hp] at hf
    obtain ⟨g, hg, hpre, -⟩ := hf.of_thr
    exact ⟨g, hg, hpre.2⟩
  refine ⟨fun p a k f hp ha => ?_, fun p ip k hp => ?_, fun hidle f => ?_⟩
  · obtain ⟨g, hg, hown⟩ := hneeds p a k hp
    replace hown : 1 ≤ g.own f := by rcases ha with rfl | rfl <;> exact hown
    have hle := le_sum (fun q => hinv.files.nonneg q f) p
    rw [← hinv.files.exact f, ownOf, hg] at hle
    exact hown.trans hle
  · obtain ⟨g, hg, hheld⟩ := hneeds p _ k hp
    refine hinv.refs.held_pos (p := p) ?_
    rw [(hinv.procs.busy p g hg).held]
    exact hheld
  · rw [hinv.files.exact f]
    refine Finset.sum_congr rfl fun p _ => ?_
    have hf := hcov.thr p
    rw [hidle p] at hf
    cases hG : G p with
    | none => rw [ownOf, hG]
    | some g => rw [hG] at hf; exact hf.elim

/-- In a state in which an entry has no references, nobody is about to drop one. -/
theorem refs_live_stale : ∃ S, (kernel Booted).machine.Reachable anyStep S ∧ (S.shared.icache 0).ref = 0 ∧
    ∀ p k, S.thr p ≠ some (.act (.deref 0) k) := by
  obtain ⟨S, hS, href, -⟩ := staleRun_reachable
  refine ⟨S, hS, href, fun p k hp => ?_⟩
  have hlive := (refs_live hS).2.1 p 0 k hp
  omega

end Xv6.Kernel
