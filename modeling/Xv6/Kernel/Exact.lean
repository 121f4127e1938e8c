/-
  The invariant behind the reference counts, and that every action keeps it.

  The invariant (`Inv`) puts the three layers together: the counts of the inode cache (`Refs`), the
  counts of the file table (`Files`), and that every ghost agrees with the state (`Procs`).

  1. **Processes** — a step of `p` changes what belongs to `p`, or the child it is making; nobody else
     knows about either.
  2. **Steps** — one lemma for each action that counts; the others are `Inv.quiet`.

  The source overwrites `cwd` only AFTER `iput(curproc->cwd)`: in between, the pointer is there and its
  reference is not.  So the reference counts as one held by the call as soon as `cwd` is passed to
  `iput` (`takeCwd`), and the `cwd` of a process that has done so does not count.
-/
import Xv6.Kernel.Know
import Xv6.Kernel.Refs

namespace Xv6.Kernel

open Threads Machines Counting Hold
open Function (update update_self update_apply update_of_ne update_eq_self)

/-! ## Ghosts and state -/

/-- The file references of a process: what its call knows, or those in its descriptors. -/
def ownOf (s : St) (G : Pid → Option Know) (p : Pid) : FileId → Int :=
  match G p with
  | some g => g.own
  | none => slots (s.procs p).ofile

def freshOf (G : Pid → Option Know) (p : Pid) : FileId → Bool :=
  match G p with
  | some g => g.fresh
  | none => fun _ => false

/-- What a call knows of its own process is true. -/
structure Sync (s : St) (p : Pid) (g : Know) : Prop where
  held : s.held p = g.held
  gone : s.gone p = g.gone
  cwd : (s.procs p).cwd = g.cwd
  ofile : (s.procs p).ofile = g.ofile
  state : (s.procs p).state = if g.dead then .zombie else .runnable

/-- What a call knows of the child it is making is true. -/
structure IsChild (s : St) (c : Child) : Prop where
  state : (s.procs c.np).state = .embryo
  cwd : (s.procs c.np).cwd = c.cwd
  ofile : (s.procs c.np).ofile = c.ofile

/-- Neither a directory nor a file. -/
def Bare (v : Proc) : Prop := v.cwd = none ∧ v.ofile = fun _ => none

/-- **The ghosts agree with the processes.** -/
structure Procs (s : St) (G : Pid → Option Know) : Prop where
  busy : ∀ p g, G p = some g → Sync s p g
  idle : ∀ p, G p = none → s.held p = (fun _ => 0) ∧ s.gone p = false
  stopped : ∀ p, (s.procs p).state = .unused ∨ (s.procs p).state = .zombie → Bare (s.procs p)
  child : ∀ p g c, G p = some g → g.child = some c → IsChild s c
  parent : ∀ p q g h c d, G p = some g → G q = some h → g.child = some c → h.child = some d →
    c.np = d.np → p = q

/-- **The invariant.** -/
structure Inv (s : St) (G : Pid → Option Know) : Prop where
  refs : Refs s
  files : Files s.ftable (ownOf s G) (freshOf G)
  procs : Procs s G

variable {s t : St} {G : Pid → Option Know} {p : Pid} {g g' : Know}

/-- The same process, as far as files are concerned. -/
def Same (v w : Proc) : Prop := v.state = w.state ∧ v.cwd = w.cwd ∧ v.ofile = w.ofile

variable {v : Proc}

theorem Same.rfl : Same v v := ⟨.refl _, .refl _, .refl _⟩

variable {c : Child}

theorem IsChild.congr (h : IsChild s c) (hsame : Same (t.procs c.np) (s.procs c.np)) : IsChild t c :=
  ⟨hsame.1.trans h.state, hsame.2.1.trans h.cwd, hsame.2.2.trans h.ofile⟩

/-- The process is as it was, and so is what the call knows of it; the references that it holds apart. -/
theorem Sync.congr (h : Sync s p g) (hsame : Same (t.procs p) (s.procs p)) (hgone : t.gone p = s.gone p)
    (hheld : t.held p = g'.held)
    (hrest : g'.gone = g.gone ∧ g'.cwd = g.cwd ∧ g'.ofile = g.ofile ∧ g'.dead = g.dead) : Sync t p g' := by
  obtain ⟨h1, h2, h3, h4⟩ := hrest
  refine ⟨hheld, ?_, ?_, ?_, ?_⟩
  · rw [hgone, h.gone, h1]
  · rw [hsame.2.1, h.cwd, h2]
  · rw [hsame.2.2, h.ofile, h3]
  · rw [hsame.1, h.state, h4]

theorem Bare.congr {w : Proc} (h : Bare v) (hsame : Same w v) : Bare w :=
  ⟨hsame.2.1.trans h.1, hsame.2.2.trans h.2⟩

variable {q : Pid}

/-- Who has which ghost, after that of `p` has changed. -/
theorem update_eq_some {k : Know} (hk : update G p (some g') q = some k) : q = p ∧ k = g' ∨ q ≠ p ∧ G q = some k := by
  rcases eq_or_ne q p with rfl | hq
  · rw [update_self] at hk
    exact Or.inl ⟨rfl, (Option.some.inj hk).symm⟩
  · rw [update_of_ne hq] at hk
    exact Or.inr ⟨hq, hk⟩

theorem update_eq_none (hk : update G p (some g') q = none) : q ≠ p ∧ G q = none := by
  have hne : q ≠ p := by
    rintro rfl
    rw [update_self] at hk
    cases hk
  rw [update_of_ne hne] at hk
  exact ⟨hne, hk⟩

variable {np : Pid}

theorem ne_of_idle (hp : G p = some g) (hidle : G np = none) : p ≠ np := by
  rintro rfl
  rw [hp] at hidle
  cases hidle

namespace Procs

/-- A process that a call is making is in no call. -/
theorem child_idle (h : Procs s G) (hp : G p = some g) (hc : g.child = some c) : G c.np = none := by
  cases hG : G c.np with
  | none => rfl
  | some k =>
    have h1 := (h.busy _ _ hG).state
    rw [(h.child p g c hp hc).state] at h1
    split at h1 <;> cases h1

/-- An unused process is in no call. -/
theorem unused_idle (h : Procs s G) (hq : (s.procs q).state = .unused) : G q = none := by
  cases hG : G q with
  | none => rfl
  | some k =>
    have h1 := (h.busy _ _ hG).state
    rw [hq] at h1
    split at h1 <;> cases h1

/-- **A step of `p` that touches the process `x`**, which nobody else runs or is making. -/
theorem change {x : Pid} (h : Procs s G) (hprocs : ∀ q, q ≠ x → Same (t.procs q) (s.procs q))
    (hheld : ∀ q, q ≠ p → t.held q = s.held q) (hgone : ∀ q, q ≠ p → t.gone q = s.gone q) (hsync : Sync t p g')
    (hothers : ∀ q k, q ≠ p → G q = some k → q ≠ x ∧ ∀ d, k.child = some d → d.np ≠ x)
    (hchild : ∀ c, g'.child = some c → IsChild t c ∧
      ∀ q k d, q ≠ p → G q = some k → k.child = some d → d.np ≠ c.np)
    (hbare : (t.procs x).state = .unused ∨ (t.procs x).state = .zombie → Bare (t.procs x)) :
    Procs t (update G p (some g')) := by
  constructor
  case busy =>
    intro q k hk
    rcases update_eq_some hk with ⟨rfl, rfl⟩ | ⟨hq, hk⟩
    · exact hsync
    · have hold := h.busy q k hk
      exact hold.congr (hprocs q (hothers q k hq hk).1) (hgone q hq) ((hheld q hq).trans hold.held)
        ⟨rfl, rfl, rfl, rfl⟩
  case idle =>
    intro q hq
    obtain ⟨hqp, hq⟩ := update_eq_none hq
    rw [hheld q hqp, hgone q hqp]
    exact h.idle q hq
  case stopped =>
    intro q hq
    rcases eq_or_ne q x with rfl | hqx
    · exact hbare hq
    · have hsame := hprocs q hqx
      rw [hsame.1] at hq
      exact (h.stopped q hq).congr hsame
  case child =>
    intro q k c hk hc
    rcases update_eq_some hk with ⟨rfl, rfl⟩ | ⟨hq, hk⟩
    · exact (hchild c hc).1
    · exact (h.child q k c hk hc).congr (hprocs _ ((hothers q k hq hk).2 c hc))
  case parent =>
    intro q q' k k' c d hk hk' hc hd hcd
    rcases update_eq_some hk with ⟨rfl, rfl⟩ | ⟨hq, hGq⟩ <;>
      rcases update_eq_some hk' with ⟨rfl, rfl⟩ | ⟨hq', hGq'⟩
    · rfl
    · exact absurd hcd.symm ((hchild c hc).2 q' k' d hq' hGq' hd)
    · exact absurd hcd ((hchild d hd).2 q k c hq hGq hc)
    · exact h.parent q q' k k' c d hGq hGq' hc hd hcd

section

variable (h : Procs s G) (hp : G p = some g)

include h hp

theorem runnable (hd : g.dead = false) : (s.procs p).state = .runnable := by
  rw [(h.busy p g hp).state, hd]
  rfl

/-- Nobody else is making the same child. -/
theorem foreign (hc : g.child = some c) (q : Pid)
    (k : Know) (d : Child) (hq : q ≠ p) (hk : G q = some k) (hd : k.child = some d) : d.np ≠ c.np :=
  fun e => hq (h.parent q p k g d c hk hp hd hc e)

/-- A step of `p` on its own things. -/
theorem step (hd : g.dead = false)
    (hprocs : ∀ q, q ≠ p → Same (t.procs q) (s.procs q)) (hheld : ∀ q, q ≠ p → t.held q = s.held q)
    (hgone : ∀ q, q ≠ p → t.gone q = s.gone q) (hsync : Sync t p g') (hchild : g'.child = g.child)
    (hbare : g'.dead = true → Bare (t.procs p)) : Procs t (update G p (some g')) := by
  -- a child is an embryo, so it is not `p`
  have hkid : ∀ q k c, G q = some k → k.child = some c → c.np ≠ p := by
    intro q k c hk hc e
    have := h.runnable hp hd
    rw [← e, (h.child q k c hk hc).state] at this
    cases this
  refine h.change hprocs hheld hgone hsync (fun q k hq hk => ⟨hq, fun c => hkid q k c hk⟩) (fun c hc => ?_)
    fun hstop => hbare ?_
  · rw [hchild] at hc
    exact ⟨(h.child p g c hp hc).congr (hprocs c.np (hkid p g c hp hc)), h.foreign hp hc⟩
  · rw [hsync.state] at hstop
    cases hdead : g'.dead with
    | true => rfl
    | false =>
      rw [hdead] at hstop
      rcases hstop with hstop | hstop <;> cases hstop

/-- A step of `p` on the child it is making, or starts or stops making. -/
theorem child_step (hidle : G np = none) (hforeign : ∀ q k c, q ≠ p → G q = some k → k.child = some c → c.np ≠ np)
    (hprocs : ∀ q, q ≠ np → Same (t.procs q) (s.procs q)) (hheld : ∀ q, q ≠ p → t.held q = s.held q)
    (hgone : t.gone = s.gone) (hsync : Sync t p g') (hchild : ∀ c, g'.child = some c → c.np = np ∧ IsChild t c)
    (hbare : (t.procs np).state = .unused ∨ (t.procs np).state = .zombie → Bare (t.procs np)) :
    Procs t (update G p (some g')) := by
  refine h.change hprocs hheld (fun q _ => by rw [hgone]) hsync
    (fun q k hq hk => ⟨ne_of_idle hk hidle, fun c => hforeign q k c hq hk⟩) (fun c hc => ?_) hbare
  obtain ⟨hnp, hc⟩ := hchild c hc
  rw [hnp]
  exact ⟨hc, hforeign⟩

end

end Procs

/-! ## Whose files -/

/-- The ghost of `p` changes, and no descriptor of the others. -/
theorem ownOf_update (h : ∀ q, q ≠ p → (t.procs q).ofile = (s.procs q).ofile) :
    ownOf t (update G p (some g')) = update (ownOf s G) p g'.own := by
  funext q
  rcases eq_or_ne q p with rfl | hq
  · simp only [ownOf, update_self]
  · simp only [ownOf, update_of_ne hq, h q hq]

theorem freshOf_update : freshOf (update G p (some g')) = update (freshOf G) p g'.fresh := by
  funext q
  rcases eq_or_ne q p with rfl | hq
  · simp only [freshOf, update_self]
  · simp only [freshOf, update_of_ne hq]

theorem ownOf_self (hp : G p = some g) : ownOf s G p = g.own := by
  simp only [ownOf, hp]

theorem freshOf_self (hp : G p = some g) : freshOf G p = g.fresh := by
  simp only [freshOf, hp]

variable {own own' : Pid → FileId → Int} {fresh fresh' : Pid → FileId → Bool}

/-- Nothing that `Files` depends on changes, except that fewer files may be fresh. -/
theorem Files.congr {tbl tbl' : FileId → File} (h : Files tbl own fresh)
    (htbl : ∀ f, (tbl' f).ref = (tbl f).ref ∧ (tbl' f).type = (tbl f).type) (hown : own' = own)
    (hfresh : ∀ p f, fresh' p f = true → fresh p f = true) : Files tbl' own' fresh' where
  exact := fun f => by rw [(htbl f).1, hown, h.exact]
  nonneg := fun p f => by rw [hown]; exact h.nonneg p f
  closed := fun f h0 => by
    rw [(htbl f).1] at h0
    rw [(htbl f).2, h.closed f h0]
  alone := fun p f hf => by
    rw [(htbl f).2, hown]
    exact h.alone p f (hfresh p f hf)

variable {f : FileId}

/-- One reference passes from `p` to `np`. -/
theorem Files.pass {tbl : FileId → File} (h : Files tbl own fresh) (hne : np ≠ p) (hp : 1 ≤ own p f)
    (hown : ∀ q x, own' q x = (own q x + if q = np ∧ x = f then 1 else 0) + if q = p ∧ x = f then -1 else 0)
    (hfresh : ∀ q x, fresh' q x = true → fresh q x = true) (hpf : fresh' p f = false) : Files tbl own' fresh' := by
  have h0 : Files tbl own fresh' := h.congr (fun _ => ⟨rfl, rfl⟩) rfl hfresh
  have hnot : ∀ q, fresh' q f = false := by
    intro q
    rcases eq_or_ne q p with rfl | hq
    · exact hpf
    · exact h0.not_fresh hp hq
  have hx : ∀ q x, fresh' q x = true → x ≠ f := by
    rintro q x hx rfl
    rw [hnot q] at hx
    cases hx
  have hopen := h0.ref_pos hp
  -- first `np` gets one, then `p` gives one up
  have h1 : Files (update tbl f { tbl f with ref := (tbl f).ref + 1 })
      (fun q x => own q x + if q = np ∧ x = f then 1 else 0) fresh' := by
    refine h0.change (p := np) (f := f) (d := 1) (fun _ _ => rfl) (fun x hx => update_of_ne hx _ _)
      (by rw [update_self]) (by have := h0.nonneg np f; omega) ?_ (fun _ _ => rfl) ?_
      fun q _ => hnot q
    · rw [update_self]
      intro hzero
      replace hzero : (tbl f).ref + 1 = 0 := hzero
      omega
    · intro x hf
      rw [update_of_ne (hx np x hf), if_neg fun e => hx np x hf e.2, add_zero]
      exact h0.alone np x hf
  refine h1.change (p := p) (f := f) (d := -1) hown (fun x hx => (update_of_ne hx _ _).symm) ?_ ?_ ?_
    (fun _ _ => rfl) ?_ fun q _ => hnot q
  · rw [update_self, add_neg_cancel_right]
  · rw [if_neg fun e => hne e.1.symm]
    omega
  · intro hzero
    omega
  · intro x hf
    have hxf := hx p x hf
    obtain ⟨h2, h3, h4⟩ := h0.alone p x hf
    rw [hown, if_neg fun e => hxf e.2, if_neg fun e => hxf e.2]
    refine ⟨h2, by omega, fun q hq => ?_⟩
    rw [if_neg fun e => hxf e.2, add_zero]
    exact h4 q hq

/-! ## Steps -/

/-- Nothing that counts changes. -/
structure Quiet (s t : St) : Prop where
  procs : ∀ q, Same (t.procs q) (s.procs q)
  held : t.held = s.held
  gone : t.gone = s.gone
  cache : ∀ e, (t.icache e).ref = (s.icache e).ref ∧ (t.icache e).dev = (s.icache e).dev ∧
    (t.icache e).inum = (s.icache e).inum
  file : ∀ f, (t.ftable f).ref = (s.ftable f).ref ∧ (t.ftable f).type = (s.ftable f).type ∧
    (t.ftable f).ip = (s.ftable f).ip

theorem Quiet.rfl : Quiet s s :=
  ⟨fun _ => Same.rfl, .refl _, .refl _, fun _ => ⟨.refl _, .refl _, .refl _⟩, fun _ => ⟨.refl _, .refl _, .refl _⟩⟩

variable {ip : Slot}

/-- The lock and the contents of an entry. -/
theorem Quiet.setEntry {v : Entry} (hr : v.ref = (s.icache ip).ref)
    (hd : v.dev = (s.icache ip).dev) (hi : v.inum = (s.icache ip).inum) : Quiet s (s.setEntry ip v) := by
  refine { Quiet.rfl with cache := fun e => ?_ }
  rw [St.setEntry_icache]
  rcases eq_or_ne e ip with rfl | he
  · rw [update_self]
    exact ⟨hr, hd, hi⟩
  · rw [update_of_ne he]
    exact ⟨.refl _, .refl _, .refl _⟩

variable {a : Act} {r : a.R}

/-- The functions on inodes count only in `iget` and `ref--`. -/
theorem exec_quiet {m : Hold} (he : exec s p a = .ok t r) (ha : Hold.pre a m)
    (higet : ∀ dev inum, a ≠ .iget dev inum) (hderef : ∀ ip, a ≠ .deref ip) : Quiet s t := by
  cases a with
  | iget dev inum => exact absurd rfl (higet dev inum)
  | deref ip => exact absurd rfl (hderef ip)
  | panic e => cases r
  | beginOp =>
    rw [exec_beginOp he]
    exact { Quiet.rfl with }
  | endOp =>
    cases he
    exact { Quiet.rfl with }
  | ref ip | ident ip | holdingsleep ip | inode ip | lastRef ip | file f => cases he; exact Quiet.rfl
  | acquiresleep ip site =>
    rw [(exec_acquiresleep he).2]
    exact Quiet.setEntry rfl rfl rfl
  | releasesleep ip => cases he; exact Quiet.setEntry rfl rfl rfl
  | load ip =>
    rcases exec_load he with ⟨-, rfl⟩ | ⟨-, rfl⟩
    · exact Quiet.rfl
    · exact Quiet.setEntry rfl rfl rfl
  | iupdate ip v =>
    rw [(exec_iupdate he).1]
    exact { Quiet.rfl with }
  | ifree ip =>
    cases he
    have h : Quiet s (s.setEntry ip { s.icache ip with valid := false }) := Quiet.setEntry rfl rfl rfl
    exact ⟨h.procs, h.held, h.gone, h.cache, h.file⟩
  | ialloc inum type =>
    rcases exec_ialloc he with ⟨-, rfl, -⟩ | ⟨rfl, -⟩
    · exact { Quiet.rfl with }
    · exact Quiet.rfl
  | setOff f off =>
    cases he
    refine { Quiet.rfl with file := fun e => ?_ }
    rw [St.setFile_ftable]
    rcases eq_or_ne e f with rfl | hne
    · rw [update_self]
      exact ⟨rfl, rfl, rfl⟩
    · rw [update_of_ne hne]
      exact ⟨rfl, rfl, rfl⟩
  | _ => exact ha.elim

theorem held_hold : (s.hold p ip).held p = gain ip (s.held p) := update_self _ _ _

theorem held_hold_ne (hq : q ≠ p) : (s.hold p ip).held q = s.held q :=
  update_of_ne hq _ _

theorem held_unhold : (s.unhold p ip).held p = lose ip (s.held p) :=
  update_self _ _ _

theorem held_unhold_ne (hq : q ≠ p) : (s.unhold p ip).held q = s.held q :=
  update_of_ne hq _ _

namespace Inv

/-- A step that does not count. -/
theorem quiet (h : Inv s G) (hq : Quiet s t) : Inv t G where
  refs := by
    refine h.refs.move hq.cache fun e => ?_
    have hf : t.fileRefs e = s.fileRefs e := by
      refine Finset.sum_congr rfl fun f _ => ?_
      rw [fileRef, fileRef, (hq.file f).1, (hq.file f).2.1, (hq.file f).2.2]
    have hc : t.cwdRefs e = s.cwdRefs e := by
      refine Finset.sum_congr rfl fun q _ => ?_
      rw [(hq.procs q).2.1, hq.gone]
    simp only [hf, hc, St.heldRefs, hq.held]
  files := by
    refine h.files.congr (fun f => ⟨(hq.file f).1, (hq.file f).2.1⟩) ?_ fun _ _ => id
    funext q
    simp only [ownOf, (hq.procs q).2.2]
  procs := by
    constructor
    case busy =>
      intro q k hk
      have hold := h.procs.busy q k hk
      exact hold.congr (hq.procs q) (by rw [hq.gone]) (by rw [hq.held]; exact hold.held) ⟨rfl, rfl, rfl, rfl⟩
    case idle =>
      intro q hidle
      rw [hq.held, hq.gone]
      exact h.procs.idle q hidle
    case stopped =>
      intro q hstop
      rw [(hq.procs q).1] at hstop
      exact (h.procs.stopped q hstop).congr (hq.procs q)
    case child =>
      intro q k c hk hc
      exact (h.procs.child q k c hk hc).congr (hq.procs _)
    case parent => exact h.procs.parent

section

variable (h : Inv s G) (hp : G p = some g)

include h hp

/-- A step of `p` on its own things. -/
theorem step (hd : g.dead = false) (hrefs : Refs t) (hfiles : Files t.ftable (update (ownOf s G) p g'.own)
      (update (freshOf G) p g'.fresh))
    (hprocs : ∀ q, q ≠ p → Same (t.procs q) (s.procs q)) (hheld : ∀ q, q ≠ p → t.held q = s.held q)
    (hgone : ∀ q, q ≠ p → t.gone q = s.gone q) (hsync : Sync t p g') (hchild : g'.child = g.child)
    (hdead : g'.dead = g.dead) : Inv t (update G p (some g')) where
  refs := hrefs
  files := by
    rw [ownOf_update fun q hq => (hprocs q hq).2.2, freshOf_update]
    exact hfiles
  procs := h.procs.step hp hd hprocs hheld hgone hsync hchild fun e => by
    rw [hdead, hd] at e
    cases e

/-- Nothing happens to the files. -/
theorem files_keep (hown : g'.own = g.own) (hfresh : g'.fresh = g.fresh) :
    Files s.ftable (update (ownOf s G) p g'.own) (update (freshOf G) p g'.fresh) := by
  rw [hown, hfresh, ← ownOf_self (s := s) hp, ← freshOf_self hp, update_eq_self, update_eq_self]
  exact h.files

/-- **The actions of the functions on inodes.** -/
theorem hold_step (hd : g.dead = false) (ha : Hold.pre a g.held) (he : exec s p a = .ok t r) :
    ∃ m, Hold.next a g.held r m ∧ Inv t (update G p (some (g.withHeld m))) := by
  have hsync := h.procs.busy p g hp
  -- an action that does not count leaves the ghost as it is
  have hquiet : Inv t G → Inv t (update G p (some (g.withHeld g.held))) := by
    intro ht
    rw [show some (g.withHeld g.held) = G p from hp.symm, update_eq_self]
    exact ht
  -- one that counts changes `held` of this process alone
  have hcount : ∀ m, Refs t → t.ftable = s.ftable → t.procs = s.procs → t.gone = s.gone →
      (∀ q, q ≠ p → t.held q = s.held q) → t.held p = m →
      Inv t (update G p (some (g.withHeld m))) := by
    intro m hrefs hf hpr hg hh hm
    have hsame : ∀ q, Same (t.procs q) (s.procs q) := fun q => by rw [hpr]; exact Same.rfl
    exact h.step hp hd hrefs (hf ▸ h.files_keep hp rfl rfl) (fun q _ => hsame q) hh (fun q _ => by rw [hg])
      (hsync.congr (hsame p) (by rw [hg]) hm ⟨rfl, rfl, rfl, rfl⟩) rfl rfl
  cases a with
  | iget dev inum =>
    refine ⟨gain r g.held, rfl, ?_⟩
    rcases exec_iget he with ⟨hc, rfl⟩ | ⟨hc, hempty, rfl⟩
    · exact hcount _ (h.refs.gain (cached_some hc).1) rfl rfl rfl (fun q => held_hold_ne)
        (held_hold.trans (by rw [← hsync.held]; rfl))
    · exact hcount _ (h.refs.recycle (empty_some hempty) (cached_none hc)) rfl rfl rfl
        (fun q => held_hold_ne) (held_hold.trans (by rw [← hsync.held]; rfl))
  | deref ip =>
    cases he
    refine ⟨lose ip g.held, rfl, ?_⟩
    have hpos : 1 ≤ s.held p ip := by
      rw [hsync.held]
      exact ha
    exact hcount _ (h.refs.deref hpos) rfl rfl rfl (fun q => held_unhold_ne)
      (held_unhold.trans (by rw [← hsync.held]; rfl))
  | panic e => cases r
  | _ => exact ⟨g.held, rfl, hquiet (h.quiet (exec_quiet he ha nofun nofun))⟩

/-- **One file changes hands**: `p` has `d` references more. -/
theorem file_step (hd : g.dead = false) {d : Int} (hrefs : Refs t) (htbl : ∀ x, x ≠ f → t.ftable x = s.ftable x)
    (href : (t.ftable f).ref = (s.ftable f).ref + d) (hclosed : (t.ftable f).ref = 0 → (t.ftable f).type = .none)
    (hown : g'.own = update g.own f (g.own f + d)) (hnn : 0 ≤ g.own f + d)
    (hfresh : ∀ x, x ≠ f → g'.fresh x = true → g.fresh x = true)
    (hf : g'.fresh f = true → (t.ftable f).type = .none ∧ 1 ≤ g.own f + d ∧
      ∀ q, q ≠ p → ownOf s G q f = 0)
    (hforeign : ∀ q, q ≠ p → freshOf G q f = false) (hprocs : t.procs = s.procs)
    (hgone : t.gone = s.gone) (hheld : ∀ q, q ≠ p → t.held q = s.held q) (hheld' : t.held p = g'.held)
    (hrest : g'.cwd = g.cwd ∧ g'.ofile = g.ofile ∧ g'.gone = g.gone ∧ g'.child = g.child ∧
      g'.dead = g.dead) : Inv t (update G p (some g')) := by
  obtain ⟨hcwd, hofile, hg, hchild, hdead⟩ := hrest
  have hsync := h.procs.busy p g hp
  have hself := ownOf_self (s := s) hp
  have hsame : ∀ q, Same (t.procs q) (s.procs q) := fun q => by rw [hprocs]; exact Same.rfl
  refine h.step hp hd hrefs ?_ (fun q _ => hsame q) hheld (fun q _ => by rw [hgone])
    (hsync.congr (hsame p) (by rw [hgone]) hheld' ⟨hg, hcwd, hofile, hdead⟩) hchild hdead
  refine h.files.change (p := p) (f := f) (d := d) ?_ htbl href (by rw [hself]; exact hnn) hclosed
    (fun q hq => update_of_ne hq _ _) ?_ hforeign
  · intro q x
    rcases eq_or_ne q p with rfl | hq
    · rw [update_self, hown, hself]
      rcases eq_or_ne x f with rfl | hx
      · rw [update_self, if_pos ⟨rfl, rfl⟩]
      · rw [update_of_ne hx, if_neg fun e => hx e.2, add_zero]
    · rw [update_of_ne hq, if_neg fun e => hq e.1, add_zero]
  · intro x hx
    rw [update_self] at hx
    rw [update_self, hown]
    rcases eq_or_ne x f with rfl | hne
    · rw [update_self]
      exact hf hx
    · rw [htbl x hne, update_of_ne hne, ← hself]
      refine h.files.alone p x ?_
      rw [freshOf_self hp]
      exact hfresh x hne hx

end

/-- The file table after one file has been overwritten. -/
theorem ftable_setFile_ne {x : FileId} {v : File} (hx : x ≠ f) :
    (s.setFile f v).ftable x = s.ftable x := update_of_ne hx _ _

theorem ftable_setFile {v : File} : (s.setFile f v).ftable f = v := update_self _ _ _

theorem filealloc_step (h : Inv s G) (hp : G p = some g) (hd : g.dead = false)
    (h0 : (s.ftable f).ref = 0) : g.own f = 0 ∧
      Inv (s.setFile f { s.ftable f with ref := 1 }) (update G p (some (g.alloc f))) := by
  have hnobody := h.files.own_eq_zero h0
  have hself : g.own f = 0 := by
    rw [← ownOf_self (s := s) hp]
    exact hnobody p
  have htype := h.files.closed f h0
  refine ⟨hself, h.file_step hp hd (d := 1) ?_ (fun x => ftable_setFile_ne) ?_ ?_ rfl (by omega) ?_ ?_ ?_
    rfl rfl (fun _ _ => rfl) (h.procs.busy p g hp).held ⟨rfl, rfl, rfl, rfl, rfl⟩⟩
  · refine h.refs.setFile (fun e => if_neg fun hc => ?_) fun e => if_neg fun hc => ?_
    · exact absurd hc.1 (by rw [h0]; decide)
    · rw [htype] at hc
      cases hc.2.1
  · rw [ftable_setFile, h0]
    rfl
  · rw [ftable_setFile]
    exact fun _ => htype
  · intro x hx hf
    replace hf : update g.fresh f true x = true := hf
    rwa [update_of_ne hx] at hf
  · intro _
    rw [ftable_setFile]
    exact ⟨htype, by omega, fun q _ => hnobody q⟩
  · intro q _
    cases hf : freshOf G q f with
    | false => rfl
    | true =>
      have h1 := (h.files.alone q f hf).2.1
      have h2 := hnobody q
      omega

/-- Of two files with the same pointer, both open or both closed. -/
theorem fileRef_congr {v w : File} (hr : 0 < v.ref ↔ 0 < w.ref) (ht : v.type = w.type) (hi : v.ip = w.ip)
    (e : Slot) : fileRef v e = fileRef w e := by
  simp only [fileRef, hr, ht, hi]

section

variable (h : Inv s G) (hp : G p = some g)

include h hp

/-- A file that `p` owns is fresh for nobody else. -/
theorem fresh_foreign (hf : 1 ≤ g.own f) (q : Pid) (hq : q ≠ p) : freshOf G q f = false := by
  rw [← ownOf_self (s := s) hp] at hf
  exact h.files.not_fresh hf hq

/-- A file that is fresh for `p` is open, points nowhere, and is `p`'s alone. -/
theorem fresh_alone (hf : g.fresh f = true) :
    (s.ftable f).type = .none ∧ 1 ≤ g.own f ∧ ∀ q, q ≠ p → ownOf s G q f = 0 := by
  rw [← ownOf_self (s := s) hp]
  refine h.files.alone p f ?_
  rw [freshOf_self hp]
  exact hf

theorem file_open (hf : 1 ≤ g.own f) : 0 < (s.ftable f).ref := by
  rw [← ownOf_self (s := s) hp] at hf
  exact h.files.ref_pos hf

theorem filedup_step (hd : g.dead = false)
    (hf : 1 ≤ g.own f) : Inv (s.setFile f { s.ftable f with ref := (s.ftable f).ref + 1 })
      (update G p (some (g.take f))) := by
  have hopen := h.file_open hp hf
  refine h.file_step hp hd (d := 1) ?_ (fun x => ftable_setFile_ne) (by rw [ftable_setFile]) ?_ rfl
    (by omega) (fun _ _ => id) ?_ (h.fresh_foreign hp hf) rfl rfl (fun _ _ => rfl)
    (h.procs.busy p g hp).held ⟨rfl, rfl, rfl, rfl, rfl⟩
  · exact h.refs.sameFile (fileRef_congr ⟨fun _ => hopen, fun _ => by show 0 < (s.ftable f).ref + 1; omega⟩
      rfl rfl)
  · rw [ftable_setFile]
    intro h0
    replace h0 : (s.ftable f).ref + 1 = 0 := h0
    omega
  · intro hfresh
    obtain ⟨h1, h2, h3⟩ := h.fresh_alone hp hfresh
    rw [ftable_setFile]
    exact ⟨h1, by omega, h3⟩

end

/-- After `f` has been dropped it is not fresh, and what else is fresh was so before. -/
theorem fresh_drop {x : FileId} (hx : (g.drop f).fresh x = true) : x ≠ f ∧ g.fresh x = true := by
  replace hx : update g.fresh f false x = true := hx
  rcases eq_or_ne x f with rfl | hne
  · rw [update_self] at hx
    cases hx
  · rw [update_of_ne hne] at hx
    exact ⟨hne, hx⟩

section

variable (h : Inv s G) (hp : G p = some g) (hd : g.dead = false)

include h hp hd

theorem fileclose_step (hf : 1 ≤ g.own f) {r : Option File} (he : exec s p (.fileclose f) = .ok t r) :
    ∃ g', Know.next (.fileclose f) g r g' ∧ Inv t (update G p (some g')) := by
  have hopen := h.file_open hp hf
  have hheld := (h.procs.busy p g hp).held
  rcases exec_fileclose he with ⟨-, ⟨hr, rfl, rfl⟩ | ⟨hr, rfl, rfl⟩⟩
  · -- there are other references
    refine ⟨g.drop f, rfl, h.file_step hp hd (d := -1) ?_ (fun x => ftable_setFile_ne)
      (by rw [ftable_setFile]; rfl) ?_ rfl (by omega) (fun x _ hx => (fresh_drop hx).2)
      (fun hx => absurd rfl (fresh_drop hx).1) (h.fresh_foreign hp hf) rfl rfl (fun _ _ => rfl) hheld
      ⟨rfl, rfl, rfl, rfl, rfl⟩⟩
    · exact h.refs.sameFile (fileRef_congr ⟨fun _ => hopen, fun _ => by show 0 < (s.ftable f).ref - 1; omega⟩ rfl rfl)
    · rw [ftable_setFile]
      intro h0
      replace h0 : (s.ftable f).ref - 1 = 0 := h0
      omega
  · -- this was the last: if the file points to an inode, the pointer passes to the call
    have hclosed : ∀ e, fileRef { s.ftable f with ref := 0, type := .none } e = 0 :=
      fun e => if_neg fun hc => nomatch hc.2.1
    have hlast : ∀ u m, Refs u →
        u.ftable = (s.setFile f { s.ftable f with ref := 0, type := .none }).ftable →
        u.procs = s.procs → u.gone = s.gone → (∀ q, q ≠ p → u.held q = s.held q) → u.held p = m →
        Inv u (update G p (some ((g.drop f).withHeld m))) := by
      intro u m hrefs htbl hprocs hgone hothers hm
      have hnew : u.ftable f = { s.ftable f with ref := 0, type := .none } := by
        rw [htbl]
        exact ftable_setFile
      refine h.file_step hp hd (d := -1) hrefs (fun x hx => by rw [htbl]; exact ftable_setFile_ne hx) ?_ ?_
        rfl (by omega) (fun x _ hx => (fresh_drop hx).2) (fun hx => absurd rfl (fresh_drop hx).1)
        (h.fresh_foreign hp hf) hprocs hgone hothers hm ⟨rfl, rfl, rfl, rfl, rfl⟩
      · rw [hnew, hr]
        rfl
      · rw [hnew]
        exact fun _ => rfl
    refine ⟨_, rfl, ?_⟩
    by_cases ht : (s.ftable f).type = .inode
    · rw [if_pos ht, if_pos ht]
      exact hlast _ _ (h.refs.close hclosed ht hopen) rfl rfl rfl (fun q => held_hold_ne)
        (held_hold.trans (by rw [← hheld]; rfl))
    · rw [if_neg ht, if_neg ht]
      exact hlast _ _ (h.refs.setFile (fun e => if_neg fun hc => ht hc.2.1) hclosed) rfl rfl rfl (fun _ _ => rfl) hheld

/-- A file that is fresh for `p` is initialised. -/
theorem settle_step {m : Hold} (hf : g.fresh f = true) (hrefs : Refs t) (htbl : ∀ x, x ≠ f → t.ftable x = s.ftable x)
    (href : (t.ftable f).ref = (s.ftable f).ref) (hprocs : t.procs = s.procs)
    (hgone : t.gone = s.gone) (hheld : ∀ q, q ≠ p → t.held q = s.held q) (hheld' : t.held p = m) :
    Inv t (update G p (some ((g.withHeld m).settle f))) := by
  obtain ⟨-, hown, -⟩ := h.fresh_alone hp hf
  have hopen := h.file_open hp hown
  refine h.file_step hp hd (d := 0) hrefs htbl (by rw [href, add_zero]) (by omega) ?_ (by omega)
    (fun x _ hx => (fresh_drop hx).2) (fun hx => absurd rfl (fresh_drop hx).1)
    (h.fresh_foreign hp hown) hprocs hgone hheld hheld' ⟨rfl, rfl, rfl, rfl, rfl⟩
  show g.own = _
  rw [add_zero, update_eq_self]

theorem openFile_step {readable writable : Bool} (hf : g.fresh f = true) (hip : 1 ≤ g.held ip) :
    Inv ((s.setFile f { s.ftable f with
        type := .inode, ip := ip, off := 0, readable := readable, writable := writable }).unhold p ip)
      (update G p (some ((g.withHeld (lose ip g.held)).settle f))) := by
  obtain ⟨htype, hown, -⟩ := h.fresh_alone hp hf
  have hopen := h.file_open hp hown
  have hheld := (h.procs.busy p g hp).held
  refine h.settle_step hp hd hf ?_ (fun x => ftable_setFile_ne) ?_ rfl rfl (fun q => held_unhold_ne) ?_
  · refine h.refs.store (fun e => if_neg fun hc => ?_) (fun e => ?_) (by rw [hheld]; exact hip)
    · rw [htype] at hc
      cases hc.2.1
    · simp only [fileRef, hopen, true_and, eq_comm (a := ip)]
  · show ((s.setFile f _).ftable f).ref = _
    rw [ftable_setFile]
  · exact held_unhold.trans (by rw [← hheld]; rfl)

theorem pipeFile_step {writable : Bool} (hf : g.fresh f = true) :
    Inv (s.setFile f { s.ftable f with type := .pipe, readable := !writable, writable := writable })
      (update G p (some (g.settle f))) := by
  obtain ⟨htype, -, -⟩ := h.fresh_alone hp hf
  refine h.settle_step (m := g.held) hp hd hf ?_ (fun x => ftable_setFile_ne) (by rw [ftable_setFile]) rfl rfl
    (fun _ _ => rfl) (h.procs.busy p g hp).held
  refine h.refs.setFile (fun e => if_neg fun hc => ?_) fun e => if_neg fun hc => nomatch hc.2.1
  rw [htype] at hc
  cases hc.2.1

end

theorem same_setProc (hq : q ≠ p) : Same ((s.setProc p v).procs q) (s.procs q) := by
  rw [St.setProc_procs, update_of_ne hq]
  exact Same.rfl

/-- A process is overwritten by one with the same `cwd`. -/
theorem cwd_setProc (hv : v.cwd = (s.procs p).cwd) (q : Pid) : ((s.setProc p v).procs q).cwd = (s.procs q).cwd := by
  rcases eq_or_ne q p with rfl | hq
  · simpa using hv
  · exact (same_setProc hq).2.1

theorem ofile_setProc (hv : v.ofile = (s.procs p).ofile) (q : Pid) :
    ((s.setProc p v).procs q).ofile = (s.procs q).ofile := by
  rcases eq_or_ne q p with rfl | hq
  · simpa using hv
  · exact (same_setProc hq).2.2

/-- A descriptor of `p` is overwritten. -/
theorem setOfile_step (h : Inv s G) (hp : G p = some g) (hd : g.dead = false) (fd : Fd) (o : Option FileId) :
    Inv (s.setProc p { s.procs p with ofile := update (s.procs p).ofile fd o })
      (update G p (some (g.setOfile fd o))) := by
  have hsync := h.procs.busy p g hp
  refine h.step hp hd ?_ (h.files_keep hp rfl rfl) (fun q => same_setProc) (fun _ _ => rfl) (fun _ _ => rfl)
    ⟨hsync.held, hsync.gone, ?_, ?_, ?_⟩ rfl rfl
  · exact h.refs.sameCwd (cwd_setProc rfl) rfl rfl rfl rfl
  · simpa [Know.setOfile] using hsync.cwd
  · simp [hsync.ofile, Know.setOfile]
  · rw [St.setProc_procs, update_self]
    exact hsync.state

theorem takeCwd_step (h : Inv s G) (hp : G p = some g) (hd : g.dead = false) (hg : g.gone = false)
    (hc : (s.procs p).cwd = some ip) : Inv ((s.setGone p true).hold p ip)
      (update G p (some { g.withHeld (gain ip g.held) with gone := true })) := by
  have hsync := h.procs.busy p g hp
  refine h.step hp hd (h.refs.takeCwd hc (hsync.gone.trans hg)) (h.files_keep hp rfl rfl) (fun _ _ => Same.rfl)
    (fun q => held_hold_ne) (fun q hq => update_of_ne hq _ _)
    ⟨held_hold.trans (by rw [← hsync.held]; rfl), update_self _ _ _, hsync.cwd, hsync.ofile,
      hsync.state⟩ rfl rfl

/-- The `cwd` of a process that has passed on its reference does not count. -/
theorem gone_cwd (hgone : s.gone p = true) (e : Slot) : cwdRef (s.procs p).cwd (s.gone p) e = 0 := by
  rw [hgone]
  exact if_neg fun hc => nomatch hc.2

section

variable (h : Inv s G) (hp : G p = some g)

include h hp

theorem setCwd_step (hd : g.dead = false) {o : Option Slot} {r : Unit}
    (hneeds : Know.needs (.setCwd o) g) (he : exec s p (.setCwd o) = .ok t r) :
    ∃ g', Know.next (.setCwd o) g r g' ∧ Inv t (update G p (some g')) := by
  have hsync := h.procs.busy p g hp
  cases he
  cases o with
  | none =>
    replace hneeds : g.gone = true := hneeds
    refine ⟨_, rfl, h.step hp hd ?_ (h.files_keep hp rfl rfl) (fun q => same_setProc) (fun _ _ => rfl)
      (fun q hq => update_of_ne hq _ _)
      ⟨hsync.held, update_self _ _ _, by simp, by simpa using hsync.ofile, by simpa using hsync.state⟩ rfl rfl⟩
    exact h.refs.clearCwd (gone_cwd (hsync.gone.trans hneeds)) (fun j hj => by simp [hj]) (by simp) rfl rfl rfl
  | some ip =>
    obtain ⟨hgone, hip⟩ : g.gone = true ∧ 1 ≤ g.held ip := hneeds
    have hpos : 1 ≤ s.held p ip := by
      rw [hsync.held]
      exact hip
    refine ⟨_, rfl, h.step hp hd ?_ (h.files_keep hp rfl rfl) (fun q => same_setProc)
      (fun q => held_unhold_ne) (fun q hq => update_of_ne hq _ _)
      ⟨held_unhold.trans (by rw [← hsync.held]; rfl), update_self _ _ _, by simp,
        by simpa [Know.withHeld] using hsync.ofile, ?_⟩ rfl rfl⟩
    · exact h.refs.storeCwd (gone_cwd (hsync.gone.trans hgone)) (fun j hj => by simp [hj]) (by simp) hpos
        rfl rfl rfl
    · rw [St.unhold_procs, St.setGone_procs, St.setProc_procs, update_self]
      exact hsync.state

/-- `idup(cwd)`: an entry that is a current directory is in use. -/
theorem idup_step (hd : g.dead = false) (hc : g.cwd = some ip) (hg : g.gone = false) :
    Inv ((s.setEntry ip { s.icache ip with ref := (s.icache ip).ref + 1 }).hold p ip)
      (update G p (some (g.withHeld (gain ip g.held)))) := by
  have hsync := h.procs.busy p g hp
  have hpos := h.refs.cwd_pos (hsync.cwd.trans hc) (hsync.gone.trans hg)
  refine h.step hp hd (h.refs.gain hpos) (h.files_keep hp rfl rfl) (fun _ _ => Same.rfl)
    (fun q => held_hold_ne) (fun _ _ => rfl)
    ⟨held_hold.trans (by rw [← hsync.held]; rfl), hsync.gone, hsync.cwd, hsync.ofile, hsync.state⟩ rfl rfl

/-! ## Children -/

/-- No descriptor changes. -/
theorem files_same (hofile : ∀ q, (t.procs q).ofile = (s.procs q).ofile)
    (htbl : t.ftable = s.ftable) (hown : g'.own = g.own) (hfresh : g'.fresh = g.fresh) :
    Files t.ftable (ownOf t (update G p (some g'))) (freshOf (update G p (some g'))) := by
  rw [ownOf_update (s := s) fun q _ => hofile q, freshOf_update, htbl]
  exact h.files_keep hp hown hfresh

/-- The state of a process in no call changes, and with it what `p` knows of its child. -/
theorem setState_step (v : Proc) (o : Option Child)
    (hcwd : v.cwd = (s.procs np).cwd) (hofile : v.ofile = (s.procs np).ofile) (hidle : G np = none)
    (hforeign : ∀ q k c, q ≠ p → G q = some k → k.child = some c → c.np ≠ np)
    (hchild : ∀ c, o = some c → c.np = np ∧ v.state = .embryo ∧ (s.procs np).cwd = c.cwd ∧
      (s.procs np).ofile = c.ofile)
    (hbare : v.state = .unused ∨ v.state = .zombie → Bare (s.procs np)) :
    Inv (s.setProc np v) (update G p (some { g with child := o })) := by
  have hsync := h.procs.busy p g hp
  refine ⟨h.refs.sameCwd (cwd_setProc hcwd) rfl rfl rfl rfl,
    h.files_same hp (ofile_setProc hofile) rfl rfl rfl,
    h.procs.child_step hp hidle hforeign (fun q => same_setProc) (fun _ _ => rfl) rfl
      (hsync.congr (same_setProc (ne_of_idle hp hidle)) rfl hsync.held ⟨rfl, rfl, rfl, rfl⟩) ?_ ?_⟩
  · intro c hc
    obtain ⟨hnp, hv, hc1, hc2⟩ := hchild c hc
    subst hnp
    exact ⟨rfl, by simpa using hv, (cwd_setProc hcwd _).trans hc1, (ofile_setProc hofile _).trans hc2⟩
  · simp only [St.setProc_procs, update_self]
    intro hv
    obtain ⟨h1, h2⟩ := hbare hv
    exact ⟨hcwd.trans h1, hofile.trans h2⟩

theorem allocproc_step (hnp : (s.procs np).state = .unused) : Inv (s.setProc np { s.procs np with state := .embryo })
      (update G p (some { g with child := some ⟨np, fun _ => none, none⟩ })) := by
  obtain ⟨hcwd, hofile⟩ := h.procs.stopped np (Or.inl hnp)
  refine h.setState_step hp { s.procs np with state := .embryo } (some ⟨np, fun _ => none, none⟩) rfl rfl
    (h.procs.unused_idle hnp) ?_ ?_ fun hv => by rcases hv with hv | hv <;> cases hv
  · rintro q k c - hk hc rfl
    have := (h.procs.child q k c hk hc).state
    rw [hnp] at this
    cases this
  · rintro c ⟨⟩
    exact ⟨rfl, rfl, hcwd, hofile⟩

/-- The child is given up, or starts to run. -/
theorem leaveChild_step (hc : g.child = some c)
    {v : ProcState} (hbare : v = .unused ∨ v = .zombie → c.cwd = none ∧ c.ofile = fun _ => none) :
    Inv (s.setProc c.np { s.procs c.np with state := v })
      (update G p (some { g with child := none })) := by
  have hchild := h.procs.child p g c hp hc
  refine h.setState_step hp { s.procs c.np with state := v } none rfl rfl (h.procs.child_idle hp hc)
    (h.procs.foreign hp hc) nofun fun hv => ?_
  obtain ⟨h1, h2⟩ := hbare hv
  exact ⟨hchild.cwd.trans h1, hchild.ofile.trans h2⟩

/-- `wait` reaps a zombie. -/
theorem wait_step (hc : g.child = none) (hq : (s.procs q).state = .zombie) (hidle : G q = none) :
    Inv (s.setProc q { s.procs q with parent := none, state := .unused }) (update G p (some g)) := by
  have hg : g = { g with child := none } := by rw [← hc]
  rw [hg]
  refine h.setState_step hp { s.procs q with parent := none, state := .unused } none rfl rfl hidle ?_ nofun
    fun _ => h.procs.stopped q (Or.inr hq)
  rintro q' k c - hk hc' rfl
  have := (h.procs.child q' k c hk hc').state
  rw [hq] at this
  cases this

theorem childCwd_step (hc : g.child = some c) (hnone : c.cwd = none) (hip : 1 ≤ g.held ip) :
    Inv ((s.setProc c.np { s.procs c.np with cwd := some ip }).unhold p ip)
      (update G p (some { g.withHeld (lose ip g.held) with
        child := some { c with cwd := some ip } })) := by
  have hsync := h.procs.busy p g hp
  have hchild := h.procs.child p g c hp hc
  have hidle := h.procs.child_idle hp hc
  have hpos : 1 ≤ s.held p ip := by
    rw [hsync.held]
    exact hip
  refine ⟨?_, h.files_same hp (ofile_setProc rfl) rfl rfl rfl,
    h.procs.child_step hp hidle (h.procs.foreign hp hc) (fun q => same_setProc) (fun q => held_unhold_ne) rfl
      (hsync.congr (same_setProc (ne_of_idle hp hidle)) rfl (held_unhold.trans (by rw [← hsync.held]; rfl))
        ⟨rfl, rfl, rfl, rfl⟩) ?_ ?_⟩
  · -- the child had no directory
    refine h.refs.storeCwd (q := c.np) (fun e => ?_) (fun j hj => by simp [hj])
      ⟨by simp, (h.procs.idle _ hidle).2⟩ hpos rfl rfl rfl
    rw [hchild.cwd, hnone]
    exact if_neg fun hcon => nomatch hcon.1
  · rintro d ⟨⟩
    exact ⟨rfl, by simpa using hchild.state, by simp, by simpa using hchild.ofile⟩
  · simp [hchild.state]

/-- A reference of `p` goes into an unused descriptor of the child. -/
theorem childOfile_step {fd : Fd} (hc : g.child = some c) (hnone : c.ofile fd = none) (hf : 1 ≤ g.own f) :
    Inv (s.setProc c.np { s.procs c.np with ofile := update (s.procs c.np).ofile fd (some f) })
      (update G p (some { g.drop f with
        child := some { c with ofile := update c.ofile fd (some f) } })) := by
  have hsync := h.procs.busy p g hp
  have hchild := h.procs.child p g c hp hc
  have hidle := h.procs.child_idle hp hc
  have hne := ne_of_idle hp hidle
  refine ⟨h.refs.sameCwd (cwd_setProc rfl) rfl rfl rfl rfl, ?_,
    h.procs.child_step hp hidle (h.procs.foreign hp hc) (fun q => same_setProc) (fun _ _ => rfl) rfl
      (hsync.congr (same_setProc hne) rfl hsync.held ⟨rfl, rfl, rfl, rfl⟩) ?_ ?_⟩
  · refine h.files.pass (p := p) (f := f) hne.symm (by rw [ownOf_self hp]; exact hf) ?_ ?_ ?_
    · intro q x
      rcases eq_or_ne q p with rfl | hq
      · rw [if_neg fun e => hne e.1, ownOf_self hp]
        simp only [ownOf, update_self, Know.drop, update_apply, true_and]
        rcases eq_or_ne x f with rfl | hx
        · rw [if_pos rfl, if_pos rfl]
          omega
        · rw [if_neg hx, if_neg hx]
          omega
      · rw [if_neg fun e : q = p ∧ x = f => hq e.1, add_zero]
        simp only [ownOf, update_of_ne hq]
        rcases eq_or_ne q c.np with rfl | hnp
        · rw [hidle, St.setProc_procs, update_self]
          show slots (update (s.procs c.np).ofile fd (some f)) x = _
          rw [slots_store (by rw [hchild.ofile]; exact hnone), update_apply]
          rcases eq_or_ne x f with rfl | hx
          · rw [if_pos rfl, if_pos ⟨rfl, rfl⟩]
          · rw [if_neg hx, if_neg fun e => hx e.2, add_zero]
        · rw [if_neg fun e => hnp e.1, add_zero, St.setProc_procs, update_of_ne hnp]
    · intro q x hx
      rw [freshOf_update] at hx
      rcases eq_or_ne q p with rfl | hq
      · rw [update_self] at hx
        rw [freshOf_self hp]
        exact (fresh_drop hx).2
      · rw [update_of_ne hq] at hx
        exact hx
    · rw [freshOf_update, update_self]
      exact update_self _ _ _
  · rintro d ⟨⟩
    exact ⟨rfl, by simpa using hchild.state, by simpa using hchild.cwd, by simp [hchild.ofile]⟩
  · simp [hchild.state]

/-- The end of `exit`. -/
theorem zombie_step (hd : g.dead = false) {r : Unit}
    (hcwd : g.cwd = none) (hofile : g.ofile = fun _ => none) (he : exec s p .zombie = .ok t r) :
    Inv t (update G p (some { g with dead := true })) := by
  have hsync := h.procs.busy p g hp
  -- passing children to init changes nothing that counts
  have hadopt : ∀ v : Proc, Same (if v.parent = some p then { v with parent := some initproc } else v) v := by
    intro v
    split
    · exact ⟨rfl, rfl, rfl⟩
    · exact Same.rfl
  have hfiles : ∀ q, (t.procs q).cwd = (s.procs q).cwd ∧ (t.procs q).ofile = (s.procs q).ofile := by
    cases he
    intro q
    dsimp only
    split <;> exact (hadopt (s.procs q)).2
  have hothers : ∀ q, q ≠ p → Same (t.procs q) (s.procs q) := by
    cases he
    intro q hq
    dsimp only
    rw [if_neg hq]
    exact hadopt (s.procs q)
  have hstate : (t.procs p).state = .zombie := by
    cases he
    exact congrArg Proc.state (if_pos rfl)
  have hcwd' := (hfiles p).1.trans hsync.cwd
  have hofile' := (hfiles p).2.trans hsync.ofile
  cases he
  exact ⟨h.refs.sameCwd (fun q => (hfiles q).1) rfl rfl rfl rfl,
    h.files_same hp (fun q => (hfiles q).2) rfl rfl rfl,
    h.procs.step hp hd hothers (fun _ _ => rfl) (fun _ _ => rfl) ⟨hsync.held, hsync.gone, hcwd', hofile', hstate⟩
      rfl fun _ => ⟨hcwd'.trans hcwd, hofile'.trans hofile⟩⟩

/-- **Every action keeps the invariant.**  A zombie is in no call (`hzombie`). -/
theorem act_step (hpre : Know.pre a g)
    (hzombie : ∀ q, (s.procs q).state = .zombie → G q = none) (he : exec s p a = .ok t r) :
    ∃ g', Know.next a g r g' ∧ Inv t (update G p (some g')) := by
  obtain ⟨hd, hneeds⟩ := hpre
  have hsync := h.procs.busy p g hp
  have hquiet : Inv t G → Inv t (update G p (some g)) := by
    intro ht
    rw [← hp, update_eq_self]
    exact ht
  cases a with
  | idup ip =>
    cases he
    exact ⟨_, rfl, h.idup_step hp hd hneeds.1 hneeds.2⟩
  | filealloc =>
    rcases exec_filealloc he with ⟨f, h0, rfl, rfl⟩ | ⟨rfl, rfl⟩
    · obtain ⟨hown, hinv⟩ := h.filealloc_step hp hd h0
      exact ⟨_, ⟨hown, rfl⟩, hinv⟩
    · exact ⟨g, rfl, hquiet h⟩
  | filedup f =>
    rw [exec_filedup he]
    exact ⟨_, rfl, h.filedup_step hp hd hneeds⟩
  | fileclose f => exact h.fileclose_step hp hd hneeds he
  | openFile f ip readable writable =>
    cases he
    exact ⟨_, rfl, h.openFile_step hp hd hneeds.1 hneeds.2⟩
  | pipeFile f writable =>
    cases he
    exact ⟨_, rfl, h.pipeFile_step hp hd hneeds⟩
  | myproc =>
    cases he
    exact ⟨g, ⟨g.held, rfl, rfl⟩, hquiet h⟩
  | ofile fd =>
    cases he
    exact ⟨g, ⟨by rw [← hsync.ofile], rfl⟩, hquiet h⟩
  | setOfile fd o =>
    cases he
    exact ⟨_, rfl, h.setOfile_step hp hd fd o⟩
  | fdalloc f =>
    rcases exec_fdalloc he with ⟨fd, hfd, rfl, rfl⟩ | ⟨rfl, rfl⟩
    · exact ⟨_, ⟨by rw [← hsync.ofile]; exact hfd, rfl⟩, h.setOfile_step hp hd fd (some f)⟩
    · exact ⟨g, rfl, hquiet h⟩
  | cwd =>
    obtain ⟨hc, rfl⟩ := exec_cwd he
    exact ⟨g, ⟨hsync.cwd.symm.trans hc, rfl⟩, hquiet h⟩
  | takeCwd =>
    obtain ⟨hc, rfl⟩ := exec_takeCwd he
    exact ⟨_, ⟨hsync.cwd.symm.trans hc, rfl⟩, h.takeCwd_step hp hd hneeds hc⟩
  | setCwd o => exact h.setCwd_step hp hd hneeds he
  | allocproc =>
    rcases exec_allocproc he with ⟨np, hnp, rfl, rfl⟩ | ⟨rfl, rfl⟩
    · exact ⟨_, rfl, h.allocproc_step hp hnp⟩
    · exact ⟨g, rfl, hquiet h⟩
  | freeproc np =>
    cases he
    exact ⟨_, rfl, h.leaveChild_step hp hneeds fun _ => ⟨rfl, rfl⟩⟩
  | adopt np =>
    cases he
    refine ⟨g, ⟨g.held, rfl, rfl⟩, hquiet (h.quiet { Quiet.rfl with procs := fun q => ?_ })⟩
    rcases eq_or_ne q np with rfl | hq
    · simp [Same]
    · exact same_setProc hq
  | childOfile np fd f =>
    cases he
    obtain ⟨⟨c, hc, rfl, hnone⟩, hown⟩ := hneeds
    refine ⟨_, rfl, ?_⟩
    rw [hc]
    exact h.childOfile_step hp hc hnone hown
  | childCwd np ip =>
    cases he
    obtain ⟨⟨c, hc, rfl, hnone⟩, hip⟩ := hneeds
    refine ⟨_, rfl, ?_⟩
    rw [hc]
    exact h.childCwd_step hp hc hnone hip
  | start np =>
    cases he
    obtain ⟨c, hc, rfl⟩ := hneeds
    exact ⟨_, rfl, h.leaveChild_step hp hc fun hv => by rcases hv with hv | hv <;> nomatch hv⟩
  | zombie => exact ⟨_, rfl, h.zombie_step hp hd hneeds.1 hneeds.2 he⟩
  | wait =>
    rcases exec_wait he with ⟨q, hq, rfl, rfl⟩ | ⟨rfl, rfl⟩
    · exact ⟨g, ⟨g.held, rfl, rfl⟩, h.wait_step hp hneeds hq (hzombie q hq)⟩
    · exact ⟨g, ⟨g.held, rfl, rfl⟩, hquiet h⟩
  | _ =>
    obtain ⟨m, hm, hinv⟩ := h.hold_step hp hd (by exact hneeds) he
    exact ⟨_, ⟨m, hm, rfl⟩, hinv⟩

end

end Inv

end Xv6.Kernel
