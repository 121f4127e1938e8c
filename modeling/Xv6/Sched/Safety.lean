/-
  SCHEDULER SAFETY.

  1. **One CPU** (`Inv.act`) — a step changes one CPU, the thread it executes, and the table; the rest of the
     invariant is carried over once and for all.
  2. **The scheduler** — it stays in its loop (`Inv.sched`), or switches to a process (`Inv.switch_in`).
  3. **A process** — it leaves its CPU (`Inv.switch_out`), or it changes its own slot and wakes others
     (`Inv.lead`), or it changes one slot that nobody executes (`Inv.other`).  `Inv.moved` says which of the moves
     is which.
  4. **`scheduler_safe`** — what follows when the lock is free.
-/
import Xv6.Sched.Moves

namespace Xv6.Sched

open Machines Locks
open Function (update update_self update_apply update_of_ne update_eq_self)

variable {nc : Nat} {S T : St nc} {c : Fin nc} {p q np : Slot} {k k' : Pc}

/-! ## One CPU -/

/-- A step of CPU `c`, from what it does to the thread it executes and to each slot. -/
theorem Inv.act (h : Inv S) (hcpus : ∀ d, d ≠ c → T.cpus d = S.cpus d)
    (hpc : ∀ q, (S.cpus c).exec ≠ some q →
      T.pc q = S.pc q ∨ (S.procs q).state = .embryo ∧ T.pc q = .resume .forkret)
    (hlock : Handover c S.lock (S.inside c) T.lock (T.inside c)) (hcpu : CpuOk T.procs (T.cpus c))
    (hexec : ∀ p, (T.cpus c).exec = some p →
      T.pc p ≠ .resume .exit ∧ ∀ d, d ≠ c → (S.cpus d).exec ≠ some p)
    (hready : ∀ q, (S.procs q).state = .runnable → (T.procs q).state = .runnable ∨ S.lock = some c)
    (hslot : ∀ q, SlotOk (T.Executing q) (T.procs q) (T.pc q))
    (hchild : ∀ p m, (T.pc p).child = some m → ChildOk m.2 (T.procs m.1) (T.pc m.1))
    (hsole : ∀ p q n s s', (T.pc p).child = some (n, s) → (T.pc q).child = some (n, s') → p = q)
    (hcur : ∀ p q, q ∈ (T.pc p).cur → q = p) (hpan : ∀ m ∈ T.panicked, m = .initExiting) : Inv T := by
  -- what another CPU executes has not moved
  have hstay : ∀ d q, d ≠ c → (S.cpus d).exec = some q → T.pc q = S.pc q := by
    intro d q hd hq
    rcases hpc q fun hc => hd (h.alone d c q hq hc) with heq | ⟨hemb, -⟩
    · exact heq
    · exact absurd ⟨d, hq⟩ (h.embryo_idle hemb)
  have hins : ∀ d, T.inside d = update S.inside c (T.inside c) d := by
    intro d
    rcases eq_or_ne d c with rfl | hd
    · rw [update_self]
    · rw [update_of_ne hd, St.inside, St.inside, hcpus d hd]
      cases hq : (S.cpus d).exec with
      | none => rfl
      | some q => simp only [hstay d q hd hq]
  constructor
  case lock =>
    intro d
    rw [hins d]
    exact hlock.excl h.lock d
  case cpu =>
    intro d
    rcases eq_or_ne d c with rfl | hd
    · exact hcpu
    · rw [hcpus d hd]
      refine (h.cpu d).mono fun r hnone hsw hr => (hready r hr).elim id fun hl => ?_
      -- the other CPU would hold the lock as well
      have hld : S.lock = some d := (h.lock d).mpr (by rw [St.inside, hnone, hsw]; rfl)
      exact absurd (Option.some.inj (hld.symm.trans hl)) hd
  case alone =>
    intro d d' q hq hq'
    rcases eq_or_ne d c with hd | hd <;> rcases eq_or_ne d' c with hd' | hd'
    · rw [hd, hd']
    · exact absurd (hcpus d' hd' ▸ hq') ((hexec q (hd ▸ hq)).2 d' hd')
    · exact absurd (hcpus d hd ▸ hq) ((hexec q (hd' ▸ hq')).2 d hd)
    · exact h.alone d d' q (hcpus d hd ▸ hq) (hcpus d' hd' ▸ hq')
  case alive =>
    rintro q ⟨d, hq⟩
    rcases eq_or_ne d c with rfl | hd
    · exact (hexec q hq).1
    · rw [hcpus d hd] at hq
      rw [hstay d q hd hq]
      exact h.alive q ⟨d, hq⟩
  case slot => exact hslot
  case child => exact hchild
  case sole => exact hsole
  case cur => exact hcur
  case panics => exact hpan

/-! ## Slots -/

variable {a b : Proc} {f : Proc → Proc} {x : Prop}

theorem SlotOk.executed (hx : x) (hs : a.state = k.expects) (hm : a.kstack ≠ none ∧ a.pgdir ≠ none) : SlotOk x a k :=
  ⟨fun _ => hs, absurd hx, absurd hx, absurd hx, fun _ _ => hm⟩

theorem SlotOk.parked_iff (hx : ¬ x) (h : SlotOk False a k) : SlotOk x a k :=
  ⟨fun hx' => absurd hx' hx, fun _ => h.parked id, fun _ => h.ready id, fun _ => h.idle id, h.made⟩

/-- A slot that is no process yet, or no more. -/
theorem SlotOk.unborn (hs : a.state = .embryo ∨ a.state = .unused) (hk : k.child = none) : SlotOk False a k := by
  refine ⟨False.elim, fun _ => ?_, fun _ hr => ?_, fun _ _ _ => hk, fun hu he => ?_⟩
  · rcases hs with hs | hs <;> rw [hs] <;> decide
  · rcases hs with hs | hs <;> rw [hs] at hr <;> rcases hr with hr | hr <;> cases hr
  · exact (hs.elim he hu).elim

theorem SlotOk.same (h : SlotOk x a k) (hs : b.state = a.state)
    (hk : b.kstack = a.kstack) (hp : b.pgdir = a.pgdir) : SlotOk x b k := by
  constructor <;> rw [hs]
  · exact h.active
  · exact h.parked
  · exact h.ready
  · exact h.idle
  · rw [hk, hp]
    exact h.made

/-- A sleeper that is woken. -/
theorem SlotOk.woken (h : SlotOk x a k) (hx : a.state = .sleeping → ¬ x) (hw : Woken a b) : SlotOk x b k := by
  rcases hw.state with hs | ⟨ha, hb⟩
  · exact h.same hs hw.kstack hw.pgdir
  · have hnx := hx ha
    have hm := h.made (by rw [ha]; decide) (by rw [ha]; decide)
    refine ⟨fun hx' => absurd hx' hnx, fun _ => by rw [hb]; nofun, fun _ _ => h.ready hnx (.inr ha), ?_, ?_⟩
    · intro _ hne
      exact absurd hb hne
    · intro _ _
      rw [hw.kstack, hw.pgdir]
      exact hm

/-- `allocproc` may point the thread of an embryo at `forkret`. -/
theorem SlotOk.pointed (h : SlotOk x a k) (hk : k' = k ∨ a.state = .embryo ∧ k' = .resume .forkret) :
    SlotOk x a k' := by
  rcases hk with rfl | ⟨hs, rfl⟩
  · exact h
  · refine .parked_iff (fun hx => ?_) (.unborn (.inl hs) rfl)
    exact Pc.expects_ne_embryo _ ((h.active hx).symm.trans hs)

variable {s : Stage}

theorem ChildOk.bare (he : a.state = .embryo) : ChildOk .bare a k :=
  ⟨he, absurd rfl, fun hs => by cases hs⟩

theorem ChildOk.stacked (he : a.state = .embryo) (hs : a.kstack ≠ none ∧ k = .resume .forkret) :
    ChildOk .stacked a k :=
  ⟨he, fun _ => hs, fun hs => by cases hs⟩

theorem ChildOk.woken (h : ChildOk s a k) (hw : Woken a b) : ChildOk s b k where
  embryo := by
    rcases hw.state with hs | ⟨ha, -⟩
    · exact hs.trans h.embryo
    · rw [h.embryo] at ha
      cases ha
  stack := by rw [hw.kstack]; exact h.stack
  pages := by rw [hw.pgdir]; exact h.pages

theorem ChildOk.pointed (h : ChildOk s a k) (hk : k' = k ∨ a.state = .embryo ∧ k' = .resume .forkret) :
    ChildOk s a k' := by
  rcases hk with rfl | ⟨-, rfl⟩
  · exact h
  · exact ⟨h.embryo, fun hs => ⟨(h.stack hs).1, rfl⟩, h.pages⟩

/-! ## The scheduler -/

section Scheduler

variable (h : Inv S) (hx : (S.cpus c).exec = none) (hpc : T.pc = S.pc)

include h hx hpc

/-- A step of `scheduler()` that stays in it. -/
theorem Inv.sched {x : Cpu} (hx' : x.exec = none) (hcpus : T.cpus = update S.cpus c x)
    (hpan : T.panicked = S.panicked) (hlock : Handover c S.lock (S.cpus c).sched.locked T.lock x.sched.locked)
    (hw : T.procs = S.procs ∨ S.lock = some c ∧ ∃ ch, T.procs = S.procs.wakeup1 ch)
    (hcpu : CpuOk T.procs x) : Inv T := by
  have hwoken : ∀ q, Woken (S.procs q) (T.procs q) := by
    intro q
    rcases hw with heq | ⟨-, ch, heq⟩ <;> rw [heq]
    · exact .refl _
    · exact (Roused.wakeup1 ..).woken q
  have hself : T.cpus c = x := by rw [hcpus, update_self]
  have hexe : ∀ q, T.Executing q ↔ S.Executing q := by
    intro q
    refine exists_congr fun d => ?_
    rw [hcpus, update_apply]
    split
    · rename_i hd
      rw [hx', hd, hx]
    · rfl
  refine h.act (c := c) (fun d hd => ?_) (fun q _ => ?_) ?_ ?_ ?_ (fun q hq => ?_) (fun q => ?_) (fun q m hm => ?_)
    ?_ ?_ ?_
  · rw [hcpus, update_of_ne hd]
  · rw [hpc]
    exact .inl rfl
  · simp only [St.inside, hself, hx, hx']
    exact hlock
  · rw [hself]
    exact hcpu
  · intro q hq
    rw [hself, hx'] at hq
    cases hq
  · rcases (hwoken q).state with hs | ⟨-, hs⟩
    · exact .inl (hs.trans hq)
    · exact .inl hs
  · rw [propext (hexe q), hpc]
    rcases hw with heq | ⟨hl, -⟩
    · rw [heq]
      exact h.slot q
    · exact (h.slot q).woken (fun hs => h.not_executing hl (by rw [hx]; exact (Option.some_ne_none _).symm) (by rw [hs]; decide)) (hwoken q)
  · rw [hpc] at hm ⊢
    exact (h.child q m hm).woken (hwoken m.1)
  · rw [hpc]
    exact h.sole
  · rw [hpc]
    exact h.cur
  · rw [hpan]
    exact h.panics

/-- The scheduler switches to the process it has found. -/
theorem Inv.switch_in (hsw : (S.cpus c).sched = .switch p)
    (hT : T = (S.setProc p fun x => { x with state := .running }).setCpu c ⟨(S.cpus c).proc, some p, .back p⟩) :
    Inv T := by
  have hcpu := h.cpu c
  rw [CpuOk, hx, hsw] at hcpu
  obtain ⟨hproc, hstate⟩ := hcpu
  have hl : S.lock = some c := (h.lock c).mpr (by rw [St.inside, hx, hsw]; rfl)
  have hidle := h.not_executing hl (show (S.cpus c).exec ≠ some p by rw [hx]; exact (Option.some_ne_none _).symm) (by rw [hstate]; decide)
  obtain ⟨r, hr, hrne⟩ := (h.slot p).ready hidle (.inl hstate)
  have hm := (h.slot p).made (by rw [hstate]; decide) (by rw [hstate]; decide)
  have hself : T.cpus c = ⟨(S.cpus c).proc, some p, .back p⟩ := by
    rw [hT]
    exact update_self ..
  have hcpus : ∀ d, d ≠ c → T.cpus d = S.cpus d := by
    intro d hd
    rw [hT]
    exact update_of_ne hd ..
  have hprocs : ∀ q, q ≠ p → T.procs q = S.procs q := by
    intro q hq
    rw [hT]
    exact update_of_ne hq ..
  have hrun : T.procs p = { S.procs p with state := .running } := by
    rw [hT]
    exact update_self ..
  have hexe : ∀ q, q ≠ p → (T.Executing q ↔ S.Executing q) := by
    intro q hq
    refine exists_congr fun d => ?_
    rcases eq_or_ne d c with rfl | hd
    · simp only [hself, hx, Option.some.injEq, Ne.symm hq, reduceCtorEq]
    · rw [hcpus d hd]
  refine h.act (c := c) hcpus (fun q _ => ?_) ?_ ?_ ?_ (fun q _ => .inr hl) (fun q => ?_) (fun q m hm' => ?_) ?_ ?_ ?_
  · rw [hpc]
    exact .inl rfl
  · have hlock : T.lock = S.lock := by rw [hT]; rfl
    simp only [St.inside, hself, hx, hsw, hpc, hr, hlock]
    exact .keep _ _
  · rw [hself]
    exact ⟨hproc, p, rfl⟩
  · intro q hq
    rw [hself] at hq
    cases hq
    rw [hpc, hr]
    exact ⟨fun heq => hrne (Pc.resume.inj heq), fun d _ hd => hidle ⟨d, hd⟩⟩
  · rcases eq_or_ne q p with rfl | hq
    · rw [hpc, hrun, hr]
      exact .executed ⟨c, by rw [hself]⟩ rfl hm
    · rw [propext (hexe q hq), hprocs q hq, hpc]
      exact h.slot q
  · rw [hpc] at hm' ⊢
    have hc := h.child q m hm'
    have hne : m.1 ≠ p := by
      intro heq
      have hemb := hc.embryo
      rw [heq, hstate] at hemb
      cases hemb
    rw [hprocs _ hne]
    exact hc
  · rw [hpc]
    exact h.sole
  · rw [hpc]
    exact h.cur
  · rw [hT]
    exact h.panics

end Scheduler

/-! ## A process -/

/-- A process switches to the scheduler. -/
theorem Inv.switch_out {r : Resume} (h : Inv S) (hx : (S.cpus c).exec = some p) (hpc : S.pc p = .sched r)
    (hT : T = (S.goto p (.resume r)).setCpu c { S.cpus c with exec := none }) : Inv T := by
  have hcpu := h.cpu c
  rw [CpuOk, hx] at hcpu
  obtain ⟨-, i, hback⟩ := hcpu
  have hself : T.cpus c = { S.cpus c with exec := none } := by
    rw [hT]
    exact update_self ..
  have hcpus : ∀ d, d ≠ c → T.cpus d = S.cpus d := by
    intro d hd
    rw [hT]
    exact update_of_ne hd ..
  have hgo : T.pc p = .resume r := by
    rw [hT]
    exact update_self ..
  have hpcs : ∀ q, q ≠ p → T.pc q = S.pc q := by
    intro q hq
    rw [hT]
    exact update_of_ne hq ..
  have hprocs : T.procs = S.procs := by rw [hT]; rfl
  -- the positions before and after `swtch` say the same about the child and the current process
  have hsame : ∀ q, (T.pc q).child = (S.pc q).child ∧ (T.pc q).cur = (S.pc q).cur := by
    intro q
    rcases eq_or_ne q p with rfl | hq
    · rw [hgo, hpc]
      exact ⟨rfl, rfl⟩
    · rw [hpcs q hq]
      exact ⟨rfl, rfl⟩
  have hexe : ∀ q, T.Executing q ↔ S.Executing q ∧ q ≠ p := by
    intro q
    constructor
    · rintro ⟨d, hd⟩
      rcases eq_or_ne d c with rfl | hne
      · rw [hself] at hd
        cases hd
      · rw [hcpus d hne] at hd
        exact ⟨⟨d, hd⟩, fun heq => hne (h.alone d c p (heq ▸ hd) hx)⟩
    · rintro ⟨⟨d, hd⟩, hq⟩
      have hne : d ≠ c := by
        rintro rfl
        exact hq (Option.some.inj (hd.symm.trans hx))
      exact ⟨d, by rw [hcpus d hne, hd]⟩
  refine h.act (c := c) hcpus (fun q hq => .inl (hpcs q fun heq => hq (heq ▸ hx))) ?_ ?_ ?_ (fun q hq => ?_)
    (fun q => ?_) (fun q m hm => ?_) (fun q q' n s s' hm hm' => ?_) (fun q q' hq' => ?_) ?_
  · have hlock : T.lock = S.lock := by rw [hT]; rfl
    simp only [St.inside, hself, hx, hpc, hback, hlock]
    exact .keep _ _
  · simp only [hself, CpuOk, hback]
  · intro q hq
    rw [hself] at hq
    cases hq
  · rw [hprocs]
    exact .inl hq
  · rw [propext (hexe q), hprocs]
    rcases eq_or_ne q p with rfl | hq
    · have hstate : (S.procs q).state = r.parked := by
        rw [h.active hx, hpc]
        rfl
      rw [hgo]
      refine .parked_iff (fun hcon => hcon.2 rfl) ⟨False.elim, fun _ => ?_, fun _ hs => ⟨r, rfl, ?_⟩,
        fun _ hr hs => ?_, (h.slot q).made⟩
      · rw [hstate]
        cases r <;> intro hrun <;> cases hrun
      · rintro rfl
        rw [hstate] at hs
        rcases hs with hs | hs <;> cases hs
      · rw [hstate] at hr hs
        cases r <;> first | rfl | exact absurd rfl hr
    · rw [hpcs q hq, show (S.Executing q ∧ q ≠ p) = S.Executing q from propext (and_iff_left hq)]
      exact h.slot q
  · have hc := h.child q m ((hsame q).1.symm.trans hm)
    rw [hprocs, hpcs m.1 fun heq => h.embryo_idle hc.embryo ⟨c, heq ▸ hx⟩]
    exact hc
  · exact h.sole q q' n s s' ((hsame q).1.symm.trans hm) ((hsame q').1.symm.trans hm')
  · exact h.cur q q' ((hsame q).2 ▸ hq')
  · rw [hT]
    exact h.panics

/-- Process `p`, on CPU `c`, goes from `k` to `k'` and stays there. -/
structure Goes (c : Fin nc) (p : Slot) (k k' : Pc) (S T : St nc) : Prop where
  exec : (S.cpus c).exec = some p
  start : S.pc p = k
  dest : T.pc p = k'
  others : ∀ q, q ≠ p → T.pc q = S.pc q ∨ (S.procs q).state = .embryo ∧ T.pc q = .resume .forkret
  cpus : T.cpus = S.cpus
  lock : Handover c S.lock k.locked T.lock k'.locked
  panicked : ∀ m ∈ T.panicked, m ∈ S.panicked ∨ m = .initExiting
  cur : ∀ q, q ∈ k'.cur → q = p
  live : ∀ r, k' ≠ .resume r
  pointed : ∀ np, k = .base (.forkStack p np) → k' = .base (.forkCopy p np) → T.pc np = .resume .forkret

section Process

variable (h : Inv S) (g : Goes c p k k' S T)

include h g

/-- A step of a process, from what it does to each slot. -/
theorem Inv.goes (hslot : ∀ q, SlotOk (S.Executing q) (T.procs q) (T.pc q))
    (hready : ∀ q, (S.procs q).state = .runnable → (T.procs q).state = .runnable ∨ S.lock = some c)
    (hkids : ∀ q m, q ≠ p → (S.pc q).child = some m → ChildOk m.2 (T.procs m.1) (T.pc m.1))
    (hkid : ∀ m, k'.child = some m → ChildOk m.2 (T.procs m.1) (T.pc m.1) ∧
      ∀ q, q ≠ p → ∀ s, (S.pc q).child ≠ some (m.1, s)) : Inv T := by
  have hx : (T.cpus c).exec = some p := by rw [g.cpus, g.exec]
  have hold : ∀ q m, q ≠ p → (T.pc q).child = some m → (S.pc q).child = some m := by
    intro q m hq hm
    rcases g.others q hq with heq | ⟨-, heq⟩ <;> rw [heq] at hm
    · exact hm
    · cases hm
  refine h.act (c := c) (fun d _ => by rw [g.cpus]) (fun q hq => ?_) ?_ ?_ (fun q hq => ?_) hready (fun q => ?_)
    (fun q m hm => ?_) (fun q q' n s s' hm hm' => ?_) (fun q r hr => ?_) (fun m hm => ?_)
  · exact g.others q fun heq => hq (heq ▸ g.exec)
  · simp only [St.inside, g.exec, hx, g.start, g.dest]
    exact g.lock
  · have hcpu := h.cpu c
    rw [CpuOk, g.exec] at hcpu
    rw [g.cpus, CpuOk, g.exec]
    exact hcpu
  · obtain rfl := Option.some.inj (hx.symm.trans hq)
    rw [g.dest]
    exact ⟨g.live .exit, fun d hd hd' => hd (h.alone d c p hd' g.exec)⟩
  · rw [St.Executing, g.cpus]
    exact hslot q
  · rcases eq_or_ne q p with rfl | hq
    · exact (hkid m (g.dest ▸ hm)).1
    · exact hkids q m hq (hold q m hq hm)
  · rcases eq_or_ne q p with hq | hq <;> rcases eq_or_ne q' p with hq' | hq'
    · rw [hq, hq']
    · rw [hq, g.dest] at hm
      exact absurd (hold q' _ hq' hm') ((hkid _ hm).2 q' hq' s')
    · rw [hq', g.dest] at hm'
      exact absurd (hold q _ hq hm) ((hkid _ hm').2 q hq s)
    · exact h.sole q q' n s s' (hold q _ hq hm) (hold q' _ hq' hm')
  · rcases eq_or_ne q p with rfl | hq
    · exact g.cur r (g.dest ▸ hr)
    · rcases g.others q hq with heq | ⟨-, heq⟩ <;> rw [heq] at hr
      · exact h.cur q r hr
      · cases hr
  · exact (g.panicked m hm).elim (h.panics m) id

/-- A step that changes the process's own slot, and, with the lock held, wakes others. -/
theorem Inv.lead (hw : ∀ q, q ≠ p → Woken (S.procs q) (T.procs q))
    (hl : k.locked = true ∨ ∀ q, q ≠ p → (T.procs q).state = (S.procs q).state)
    (hp : (T.procs p).state = k'.expects) (hm : (T.procs p).kstack ≠ none ∧ (T.procs p).pgdir ≠ none)
    (hchild : k'.child = k.child ∨ k'.child = none) : Inv T := by
  have hlock : k.locked = true → S.lock = some c := fun hk => (h.inside_exec g.exec).mpr (g.start.symm ▸ hk)
  have hkids : ∀ q m, (S.pc q).child = some m → ChildOk m.2 (T.procs m.1) (T.pc m.1) := by
    intro q m hm'
    have hc := h.child q m hm'
    have hne : m.1 ≠ p := fun heq => h.embryo_idle hc.embryo ⟨c, heq ▸ g.exec⟩
    exact (hc.pointed (g.others _ hne)).woken (hw _ hne)
  refine h.goes g (fun q => ?_) (fun q hq => ?_) (fun q m _ => hkids q m) (fun m hm' => ?_)
  · rcases eq_or_ne q p with rfl | hq
    · rw [g.dest]
      exact .executed ⟨c, g.exec⟩ hp hm
    · have hs := (h.slot q).pointed (g.others q hq)
      rcases hl with hl | hl
      · refine hs.woken (fun hs => h.not_executing (hlock hl) ?_ (by rw [hs]; decide)) (hw q hq)
        rw [g.exec]
        exact fun heq => hq (Option.some.inj heq).symm
      · exact hs.same (hl q hq) (hw q hq).kstack (hw q hq).pgdir
  · rcases eq_or_ne q p with rfl | hne
    · have hexp : k.expects = .runnable := by rw [← g.start, ← h.active g.exec, hq]
      exact .inr (hlock (Pc.locked_of_expects (by rw [hexp]; nofun)))
    · rcases (hw q hne).state with hs | ⟨-, hs⟩
      · exact .inl (hs.trans hq)
      · exact .inl hs
  · rcases hchild with hc | hc <;> rw [hc] at hm'
    · rw [← g.start] at hm'
      exact ⟨hkids p m hm', fun q hq s hs => hq (h.sole q p m.1 s m.2 hs hm')⟩
    · cases hm'

/-- A step of a RUNNING process that changes one slot that nobody executes: a child, a zombie. -/
theorem Inv.other (ht : T.procs = S.procs.modify np f) (hr : k.expects = .running) (hr' : k'.expects = .running)
    (hidle : ¬ S.Executing np) (hnr : (S.procs np).state ≠ .runnable)
    (hsole : ∀ q, q ≠ p → ∀ s, (S.pc q).child ≠ some (np, s)) (hslot : SlotOk False (f (S.procs np)) (T.pc np))
    (hchild : k'.child = none ∨ ∃ s, k'.child = some (np, s) ∧ ChildOk s (f (S.procs np)) (T.pc np)) : Inv T := by
  have hnp : T.procs np = f (S.procs np) := by rw [ht, Table.modify_self]
  have hsame : ∀ q, q ≠ np → T.procs q = S.procs q := by
    intro q hq
    rw [ht, Table.modify_ne _ _ hq]
  refine h.goes g (fun q => ?_) (fun q hq => ?_) (fun q m hq hm => ?_) (fun m hm => ?_)
  · rcases eq_or_ne q np with rfl | hqn
    · rw [hnp]
      exact hslot.parked_iff hidle
    · rw [hsame q hqn]
      rcases eq_or_ne q p with rfl | hq
      · rw [g.dest]
        exact .executed ⟨c, g.exec⟩ (by rw [h.active g.exec, g.start, hr, hr']) (h.made_self g.exec)
      · exact (h.slot q).pointed (g.others q hq)
  · have hqn : q ≠ np := by
      rintro rfl
      exact hnr hq
    rw [hsame q hqn]
    exact .inl hq
  · have hc := h.child q m hm
    rw [hsame _ fun heq => hsole q hq m.2 (by rw [hm, ← heq])]
    exact hc.pointed (g.others _ fun heq => h.embryo_idle hc.embryo ⟨c, heq ▸ g.exec⟩)
  · rcases hchild with hc | ⟨s, hc, hok⟩ <;> rw [hc] at hm <;> cases hm
    rw [hnp]
    exact ⟨hok, hsole⟩

/-- A step that changes the process's own slot only. -/
theorem Inv.own (f : Proc → Proc) (ht : T.procs = S.procs.modify p f) (hf : (f (S.procs p)).state = k'.expects)
    (hm : (f (S.procs p)).kstack ≠ none ∧ (f (S.procs p)).pgdir ≠ none)
    (hchild : k'.child = k.child ∨ k'.child = none) : Inv T := by
  have hsame : ∀ q, q ≠ p → T.procs q = S.procs q := by
    intro q hq
    rw [ht, Table.modify_ne _ _ hq]
  have hself : T.procs p = f (S.procs p) := by rw [ht, Table.modify_self]
  refine h.lead g (fun q hq => ?_) (.inr fun q hq => ?_) ?_ ?_ hchild
  · rw [hsame q hq]
    exact .refl _
  · rw [hsame q hq]
  · rw [hself, hf]
  · rw [hself]
    exact hm

/-- A step that wakes others, with the lock held. -/
theorem Inv.wakes (hr : k.expects = .running) (hr' : k'.expects = .running) (hl : k.locked = true)
    (hw : ∀ q, Woken (S.procs q) (T.procs q)) (hchild : k'.child = k.child ∨ k'.child = none) : Inv T := by
  have hrun : (S.procs p).state = .running := by rw [h.active g.exec, g.start, hr]
  refine h.lead g (fun q _ => hw q) (.inl hl) ?_ ?_ hchild
  · rw [hr']
    exact (hw p).running hrun
  · rw [(hw p).kstack, (hw p).pgdir]
    exact h.made_self g.exec

theorem Inv.childless (hidle : ¬ S.Executing np) (hr : (S.procs np).state ≠ .runnable)
    (hs : (S.procs np).state ≠ .sleeping) : np ≠ p ∧ (T.pc np).child = none := by
  have hne : np ≠ p := fun heq => hidle ⟨c, heq ▸ g.exec⟩
  refine ⟨hne, ?_⟩
  rcases g.others np hne with heq | ⟨-, heq⟩ <;> rw [heq]
  · exact (h.slot np).idle hidle hr hs
  · rfl

/-- A step of `fork` that changes its child: nobody else works on it. -/
theorem Inv.onChild (f : Proc → Proc) (hb : k.child = some (np, s)) (ht : T.procs = S.procs.modify np f)
    (hr : k.expects = .running) (hr' : k'.expects = .running)
    (hf : ChildOk s (S.procs np) (T.pc np) → (T.pc np).child = none → SlotOk False (f (S.procs np)) (T.pc np) ∧
      (k'.child = none ∨ ∃ s, k'.child = some (np, s) ∧ ChildOk s (f (S.procs np)) (T.pc np))) : Inv T := by
  have hme : (S.pc p).child = some (np, s) := by rw [g.start, hb]
  have hc := h.child p _ hme
  have hidle := h.embryo_idle hc.embryo
  obtain ⟨hne, hnone⟩ := h.childless g hidle (by rw [hc.embryo]; decide) (by rw [hc.embryo]; decide)
  obtain ⟨hslot, hchild⟩ := hf (hc.pointed (g.others np hne)) hnone
  refine h.other g ht hr hr' hidle (by rw [hc.embryo]; nofun) (fun q hq s' hs' => ?_) hslot hchild
  exact hq (h.sole q p np s' s hs' hme)

end Process

theorem Hop.plain {t : Table} (hh : Hop p t k k') (hl : ∀ r, k' ≠ .resume r) :
    k.expects = .running ∧ k'.expects = .running ∧ (k'.child = k.child ∨ k'.child = none) := by
  cases hh with
  | switch r => exact absurd rfl (hl r)
  | call hc => cases hc <;> exact ⟨rfl, rfl, .inl rfl⟩
  | _ => exact ⟨rfl, rfl, .inl rfl⟩

theorem Move.cur {t t' : Table} {n n' : Ids} (hm : Move p t n k t' n' k') (hk : ∀ q, q ∈ k.cur → q = p) :
    ∀ q, q ∈ k'.cur → q = p := by
  cases hm with
  | hop hh =>
    cases hh with
    | call hc => cases hc <;> simp [Pc.cur, Held.cur]
    | _ => first | exact hk | simp [Pc.cur, Base.cur]
  | _ => first | exact hk | simp [Pc.cur, Base.cur, Held.cur, Resume.cur]

/-- A step of a process, whatever it is. -/
theorem Inv.moved (h : Inv S) (g : Goes c p k k' S T) (hm : Move p S.procs S.ids k T.procs T.ids k') : Inv T := by
  have hmade := h.made_self g.exec
  have hact : (S.procs p).state = k.expects := by rw [h.active g.exec, g.start]
  generalize ht : T.procs = t, T.ids = n at hm
  cases hm with
  | hop hh =>
    obtain ⟨hr, hr', hc⟩ := hh.plain g.live
    exact h.own g id (by rw [ht, Table.modify, id, update_eq_self]) (by rw [hr', id, hact, hr]) hmade hc
  | wake ch b => exact h.wakes g rfl rfl rfl (fun q => ht ▸ (Roused.wakeup1 ..).woken q) (.inl rfl)
  | kill pid => exact h.wakes g rfl rfl rfl (fun q => ht ▸ Table.kill_woken ..) (.inr rfl)
  | yield b => exact h.own g _ ht rfl hmade (.inl rfl)
  | sleep ch => exact h.own g _ ht rfl hmade (.inr rfl)
  | waitSleep => exact h.own g _ ht rfl hmade (.inr rfl)
  | slept => exact h.own g _ ht hact hmade (.inr rfl)
  | waited => exact h.own g _ ht hact hmade (.inr rfl)
  | exec a => exact h.own g _ ht hact ⟨hmade.1, Option.some_ne_none a⟩ (.inr rfl)
  | exit =>
    have hw := (S.procs.exit_spec p ((S.procs p).parent.map .proc)).1.woken
    refine h.lead g (fun q hq => ?_) (.inl rfl) ?_ ?_ (.inr rfl) <;> rw [ht, Table.modify]
    · rw [update_of_ne hq]
      exact hw q
    · rw [update_self]
      rfl
    · rw [update_self, (hw p).kstack, (hw p).pgdir]
      exact hmade
  | @alloc i hi hu =>
    have hidle : ¬ S.Executing ⟨i, hi⟩ := by
      rintro ⟨d, hd⟩
      exact Pc.expects_ne_unused _ ((h.active hd).symm.trans hu)
    have hnone := (h.childless g hidle (by rw [hu]; decide) (by rw [hu]; decide)).2
    exact h.other g ht rfl rfl hidle (by rw [hu]; decide) (fun q _ s => h.no_parent (by rw [hu]; decide) q s)
      (.unborn (.inl rfl) hnone) (.inr ⟨.bare, rfl, .bare rfl⟩)
  | @reap i _ hi _ hz =>
    have hl : S.lock = some c := (h.inside_exec g.exec).mpr (by rw [g.start]; rfl)
    have hidle : ¬ S.Executing ⟨i, hi⟩ := by
      refine h.not_executing hl (fun hc => ?_) (by rw [hz]; decide)
      rw [← Option.some.inj (g.exec.symm.trans hc), hact] at hz
      cases hz
    have hnone := (h.childless g hidle (by rw [hz]; decide) (by rw [hz]; decide)).2
    exact h.other g ht rfl rfl hidle (by rw [hz]; decide) (fun q _ s => h.no_parent (by rw [hz]; decide) q s)
      (.unborn (.inr rfl) hnone) (.inl rfl)
  | noStack np | drop np =>
    exact h.onChild g _ rfl ht rfl rfl fun hc hk =>
      ⟨.unborn (.inl hc.embryo) hk, .inr ⟨.bare, rfl, .bare hc.embryo⟩⟩
  | stack np a =>
    have hret := g.pointed np rfl rfl
    exact h.onChild g _ rfl ht rfl rfl fun hc hk =>
      ⟨.unborn (.inl hc.embryo) hk, .inr ⟨.stacked, rfl, .stacked hc.embryo ⟨Option.some_ne_none a, hret⟩⟩⟩
  | noPages np =>
    exact h.onChild g _ rfl ht rfl rfl fun hc hk =>
      ⟨.unborn (.inl hc.embryo) hk, .inr ⟨.stacked, rfl, .stacked hc.embryo (hc.stack (by decide))⟩⟩
  | pages np a =>
    exact h.onChild g _ rfl ht rfl rfl fun hc hk =>
      ⟨.unborn (.inl hc.embryo) hk, .inr ⟨.paged, rfl, hc.embryo, fun _ => hc.stack (by decide), fun _ => Option.some_ne_none a⟩⟩
  | giveUp np =>
    exact h.onChild g _ rfl ht rfl rfl fun _ hk => ⟨.unborn (.inr rfl) hk, .inl rfl⟩
  | fill np =>
    exact h.onChild g _ rfl ht rfl rfl fun hc hk =>
      ⟨.unborn (.inl hc.embryo) hk, .inr ⟨.paged, rfl, hc.embryo, hc.stack, hc.pages⟩⟩
  | ready np =>
    refine h.onChild g _ rfl ht rfl rfl fun hc _ => ⟨?_, .inl rfl⟩
    obtain ⟨hstack, hret⟩ := hc.stack (by decide)
    refine ⟨False.elim, fun _ hrun => ?_, fun _ _ => ⟨_, hret, fun hexit => ?_⟩, fun _ hr => absurd rfl hr,
      fun _ _ => ⟨hstack, hc.pages rfl⟩⟩
    · cases hrun
    · cases hexit

/-! ## Every run -/

theorem Inv.step {l : Label nc} (h : Inv S) (hs : step S l = some T) : Inv T := by
  cases moves h hs with
  | sched hx _ hpc _ hon =>
    cases hon with
    | stay x hcpus hx' hcpu hlock hpan hw => exact h.sched hx hpc hx' hcpus hpan hlock hw hcpu
    | run p hsw hT => exact h.switch_in hx hpc hsw hT
  | proc p hx hm ho hon =>
    cases hon with
    | leave r hr hT => exact h.switch_out hx hr hT
    | stay hcpus hlock hpan hlive hpt =>
      exact h.moved ⟨hx, rfl, rfl, ho, hcpus, hlock, hpan, hm.cur (h.cur p), hlive, hpt⟩ hm

theorem Inv.init (kstack pgdir : Nat) : Inv (.init nc kstack pgdir) := by
  have hidle : ∀ p, ¬ (St.init nc kstack pgdir).Executing p := by
    rintro p ⟨c, hc⟩
    cases hc
  have hother : ∀ p, p ≠ initproc → (St.init nc kstack pgdir).procs p =
      ⟨.unused, none, none, 0, 0, none, none, false⟩ ∧ (St.init nc kstack pgdir).pc p = .halted :=
    fun p hp => ⟨if_neg hp, if_neg hp⟩
  have hinit : (St.init nc kstack pgdir).procs initproc =
      ⟨.runnable, some kstack, some pgdir, 1, 1, none, none, false⟩ ∧
      (St.init nc kstack pgdir).pc initproc = .resume .forkret := by
    simp only [St.init, if_true, and_self]
  have hnone : ∀ p, ((St.init nc kstack pgdir).pc p).child = none := by
    intro p
    rcases eq_or_ne p initproc with rfl | hp
    · rw [hinit.2]
      rfl
    · rw [(hother p hp).2]
      rfl
  constructor
  case lock => exact fun c => ⟨nofun, nofun⟩
  case cpu => exact fun c => rfl
  case alone => exact fun c d p hc => nomatch hc
  case slot =>
    intro p
    refine SlotOk.parked_iff (hidle p) ?_
    rcases eq_or_ne p initproc with rfl | hp
    · rw [hinit.1, hinit.2]
      exact ⟨nofun, fun _ => nofun, fun _ _ => ⟨_, rfl, nofun⟩, fun _ hr => absurd rfl hr, fun _ _ => ⟨nofun, nofun⟩⟩
    · rw [(hother p hp).1, (hother p hp).2]
      refine ⟨nofun, fun _ => nofun, fun _ hr => ?_, fun _ _ _ => rfl, fun hu => absurd rfl hu⟩
      rcases hr with hr | hr <;> cases hr
  case alive => exact fun p hp => absurd hp (hidle p)
  case child =>
    intro p m hm
    rw [hnone p] at hm
    cases hm
  case sole =>
    intro p q n s s' hm
    rw [hnone p] at hm
    cases hm
  case cur =>
    intro p q hq
    rcases eq_or_ne p initproc with rfl | hp
    · rw [hinit.2] at hq
      cases hq
    · rw [(hother p hp).2] at hq
      cases hq
  case panics => exact nofun

theorem inv_reachable (h : (machine nc).Reachable anyStep S) : Inv S := by
  refine Machine.invariant ?_ (fun _ _ _ hI _ hs => hI.step hs) h
  rintro _ ⟨kstack, pgdir, rfl⟩
  exact .init kstack pgdir

/-- Outside of the lock, `c->proc` is the process that the CPU executes. -/
theorem Inv.proc_iff (h : Inv S) (hout : S.inside c = false) : (S.cpus c).proc = some p ↔ (S.cpus c).exec = some p := by
  have hcpu := h.cpu c
  unfold St.inside at hout
  cases hx : (S.cpus c).exec with
  | some q => rw [h.proc hx]
  | none =>
    rw [hx] at hout
    have hnone : (S.cpus c).proc = none := by
      rw [CpuOk, hx] at hcpu
      cases hsc : (S.cpus c).sched <;> rw [hsc] at hout hcpu <;> first | exact hcpu | cases hout
    rw [hnone]

/-- CPU `c` is in `wait`, and about to free slot `i`. -/
def Frees (S : St nc) (c : Fin nc) (i : Slot) : Prop :=
  ∃ p cur havekids, (S.cpus c).exec = some p ∧ S.pc p = .held (.wait cur i havekids) ∧
    (S.procs i).parent = some cur ∧ (S.procs i).state = .zombie

/-- What `wait` frees, nobody executes. -/
theorem Inv.frees_idle {i : Slot} (h : Inv S) (hf : Frees S c i) (d : Fin nc) :
    (S.cpus d).exec ≠ some i ∧ (S.cpus d).proc ≠ some i := by
  obtain ⟨p, cur, havekids, hx, hpc, -, hz⟩ := hf
  have hl : S.lock = some c := (h.inside_exec hx).mpr (by rw [hpc]; rfl)
  have hexec : (S.cpus d).exec ≠ some i := by
    intro hd
    have hrun : (S.procs i).state = .running := by
      rcases eq_or_ne d c with rfl | hne
      · obtain rfl := Option.some.inj (hx.symm.trans hd)
        rw [h.active hx, hpc]
        rfl
      · exact h.running hd hl hne
    rw [hrun] at hz
    cases hz
  refine ⟨hexec, fun hproc => ?_⟩
  rcases eq_or_ne d c with rfl | hne
  · rw [h.proc hx] at hproc
    exact hexec (hx.trans hproc)
  · have hout : S.inside d = false := by
      rw [Bool.eq_false_iff]
      exact fun hin => hne (Option.some.inj (((h.lock d).mpr hin).symm.trans hl))
    exact hexec ((h.proc_iff hout).mp hproc)

/-- **Scheduler safety.**  On any number of CPUs, whenever `ptable.lock` is free, a process is RUNNING iff
    it is `c->proc` of exactly one CPU, and a process that is RUNNABLE, SLEEPING, RUNNING or ZOMBIE has a
    kernel stack and a page directory.  At no time has anything panicked, `switchuvm` in particular, but
    for "init exiting"; and what `wait` frees is a process that no CPU executes. -/
theorem scheduler_safe (h : (machine nc).Reachable anyStep S) : (S.lock = none →
      (∀ p, (S.procs p).state = .running ↔ ∃! c, (S.cpus c).proc = some p) ∧
      ∀ p, (S.procs p).state ∈ [State.runnable, .sleeping, .running, .zombie] →
        (S.procs p).kstack ≠ none ∧ (S.procs p).pgdir ≠ none) ∧
    (∀ m ∈ S.panicked, m = .initExiting) ∧
    ∀ c i, Frees S c i → ∀ d, (S.cpus d).exec ≠ some i ∧ (S.cpus d).proc ≠ some i := by
  have hI := inv_reachable h
  refine ⟨fun hfree => ⟨fun p => ?_, fun p hp => ?_⟩, hI.panics, fun c i hf => hI.frees_idle hf⟩
  · have hout : ∀ c, S.inside c = false := by
      intro c
      rw [Bool.eq_false_iff]
      intro hin
      rw [(hI.lock c).mpr hin] at hfree
      cases hfree
    simp only [hI.proc_iff (hout _)]
    constructor
    · intro hrun
      by_cases hx : S.Executing p
      · obtain ⟨c, hc⟩ := hx
        exact ⟨c, hc, fun d hd => hI.alone d c p hd hc⟩
      · exact absurd hrun ((hI.slot p).parked hx)
    · rintro ⟨c, hc, -⟩
      rw [hI.active hc]
      by_contra hne
      rw [(hI.inside_exec hc).mpr (Pc.locked_of_expects hne)] at hfree
      cases hfree
  · refine (hI.slot p).made ?_ ?_ <;> intro hs <;> rw [hs] at hp <;> revert hp <;> decide

/-- The first process is scheduled on CPU 0 of two, and `forkret` gives the lock back. -/
theorem scheduler_safe_first : ∃ S : St 2, S.lock = none ∧ (S.procs initproc).state = .running ∧
    (∃! c, (S.cpus c).proc = some initproc) ∧ (S.procs initproc).kstack ≠ none ∧ (S.procs initproc).pgdir ≠ none := by
  have hrun : ((machine 2).run (.init 2 1 2)
      [.step 0 none, .step 0 none, .step 0 none, .step 0 none]).any
      (fun S => decide (S.lock = none ∧ (S.procs initproc).state = .running)) = true := by
    decide +kernel
  have hinit : (machine 2).init (.init 2 1 2) := ⟨1, 2, rfl⟩
  obtain ⟨S, hreach, hfree, hs⟩ := Machine.reachable_of_run hinit hrun
  obtain ⟨hrunning, hmade⟩ := (scheduler_safe hreach).1 hfree
  exact ⟨S, hfree, hs, (hrunning initproc).mp hs, hmade initproc (by rw [hs]; decide)⟩

end Xv6.Sched
