/-
  CREATORS, PARENTS and `get_parent_pid`.

  The machine of this file is the scheduler's, with its events written down, and with one more system call:
  `get_parent_pid`, which returns `myproc()->parent->pid`.  These are two loads, without the lock, and anything can
  happen in between.

  1. **`Origin`** — the parent of a process is its creator until the creator exits, and init from then on.
  2. **`orphaned_read`** — between the two loads the parent can exit and be reaped; what is then read from its slot is
     0 (or the pid of whoever has the slot next).
  3. **`family_tree`** — the tree, in every state; and what `get_parent_pid` returns, if nobody exits while a child
     that has loaded the pointer has yet to load the pid (`NoExitBetween`).
-/
import Xv6.Sched.Tree

namespace Xv6.Sched

open Machines
open Function (update update_self update_of_ne)

/-! ## The machine with its history -/

structure Hist (nc : Nat) where
  sched : St nc
  /-- `myproc()->parent`, between the two loads of `get_parent_pid` -/
  ptr : Slot → Option Slot
  trace : List Event

inductive HLabel (nc : Nat)
  | kernel (l : Label nc)
  /-- The loads of `get_parent_pid`, on CPU `c`. -/
  | loadParent (c : Fin nc)
  | loadPid (c : Fin nc)

/-- A process in `get_parent_pid` calls nothing else. -/
def Hist.reading {nc : Nat} (H : Hist nc) : Label nc → Bool
  | .call c _ =>
    match (H.sched.cpus c).exec with
    | some p => (H.ptr p).isSome
    | none => false
  | _ => false

def Hist.step {nc : Nat} (H : Hist nc) : HLabel nc → Option (Hist nc)
  | .kernel l =>
    if H.reading l then none
    else (Sched.step H.sched l).map fun T => { H with sched := T, trace := H.trace ++ (observe H.sched l).toList }
  | .loadParent c =>
    match (H.sched.cpus c).exec, (H.sched.cpus c).proc with
    | some p, some q =>
      match H.sched.pc p, H.ptr p, (H.sched.procs q).parent with
      | .base .out, none, some r => some { H with ptr := update H.ptr p (some r) }
      | _, _, _ => none
    | _, _ => none
  | .loadPid c =>
    match (H.sched.cpus c).exec with
    | none => none
    | some p =>
      match H.sched.pc p, H.ptr p with
      | .base .out, some r => some { H with
          ptr := update H.ptr p none
          trace := H.trace ++ [.parentPid (H.sched.procs p).born (H.sched.procs r).pid] }
      | _, _ => none

def family (nc : Nat) : Machine (Hist nc) (HLabel nc) where
  init := fun H => (machine nc).init H.sched ∧ H.ptr = (fun _ => none) ∧ H.trace = []
  step := Hist.step

variable {nc : Nat} {H H' : Hist nc} {l : HLabel nc}

/-- Everything a step can do. -/
inductive HStep (H : Hist nc) : HLabel nc → Hist nc → Prop
  | kernel {l : Label nc} {T : St nc} : H.reading l = false → (machine nc).step H.sched l = some T →
      HStep H (.kernel l) { H with sched := T, trace := H.trace ++ (observe H.sched l).toList }
  | loadParent {c : Fin nc} {p q r : Slot} : (H.sched.cpus c).exec = some p → (H.sched.cpus c).proc = some q →
      H.sched.pc p = .base .out → (H.sched.procs q).parent = some r →
      HStep H (.loadParent c) { H with ptr := update H.ptr p (some r) }
  | loadPid {c : Fin nc} {p r : Slot} : (H.sched.cpus c).exec = some p → H.sched.pc p = .base .out → H.ptr p = some r →
      HStep H (.loadPid c) { H with
        ptr := update H.ptr p none
        trace := H.trace ++ [.parentPid (H.sched.procs p).born (H.sched.procs r).pid] }

theorem hstep_cases (h : (family nc).step H l = some H') : HStep H l H' := by
  replace h : H.step l = some H' := h
  cases l with
  | kernel l =>
    simp only [Hist.step, Option.ite_none_left_eq_some, Bool.not_eq_true] at h
    obtain ⟨hr, h⟩ := h
    obtain ⟨T, hT, rfl⟩ := Option.map_eq_some_iff.mp h
    exact .kernel hr hT
  | loadParent c =>
    simp only [Hist.step] at h
    split at h
    · rename_i p q hx hp
      split at h
      · rename_i r hpc _ hr
        cases h
        exact .loadParent hx hp hpc hr
      · cases h
    · cases h
  | loadPid c =>
    simp only [Hist.step] at h
    split at h
    · cases h
    · rename_i p hx
      split at h
      · rename_i r hpc hr
        cases h
        exact .loadPid hx hpc hr
      · cases h

/-! ## Creators -/

/-- What the history says about those who are in the table. -/
structure Origin (t : Table) (n : Ids) (pc : Slot → Pc) (tr : List Event) : Prop where
  create_lt : ∀ c x pid, .create c x pid ∈ tr → x < n.births
  unique : ∀ c c' x pid pid', .create c x pid ∈ tr → .create c' x pid' ∈ tr → c = c'
  created : ∀ p, p ≠ initproc → (t p).state ≠ .unused → ∃ c, .create c (t p).born (t p).pid ∈ tr
  exit_lt : ∀ x, .exit x ∈ tr → x < n.births
  /-- Who has exited is a ZOMBIE, or has been reaped. -/
  gone : ∀ q, .exit (t q).born ∈ tr → (t q).state = .zombie ∨ (t q).state = .unused
  parent : ∀ p q c pid, (t p).parent = some q → .create c (t p).born pid ∈ tr →
    (.exit c ∉ tr → (t q).born = c) ∧ (.exit c ∈ tr → q = initproc)
  making : ∀ q np b, (pc q).makes = some (np, b) → ∃ pid, .create (t q).born (t np).born pid ∈ tr

section Steps

variable {t t' : Table} {n : Ids} {pc pc' : Slot → Pc} {tr tr' : List Event} {p np i : Slot}

section

variable (h : Origin t n pc tr)

include h

theorem Origin.dead {q : Slot} (hq : (t q).state.live = true) : .exit (t q).born ∉ tr := by
  intro he
  rcases h.gone q he with hs | hs <;> rw [hs] at hq <;> cases hq

/-- Steps in which nobody is created, linked or exits. -/
theorem Origin.mono (hcreate : ∀ c x pid, .create c x pid ∈ tr' ↔ .create c x pid ∈ tr)
    (hexit : ∀ x, .exit x ∈ tr' ↔ .exit x ∈ tr) (hborn : ∀ p, (t' p).born = (t p).born)
    (hused : ∀ p, p ≠ initproc → (t' p).state ≠ .unused → (t p).state ≠ .unused ∧ (t' p).pid = (t p).pid)
    (hgone : ∀ q, .exit (t q).born ∈ tr → (t' q).state = .zombie ∨ (t' q).state = .unused)
    (hparent : ∀ p q, (t' p).parent = some q → (t p).parent = some q)
    (hmaking : ∀ q m, (pc' q).makes = some m → (pc q).makes = some m) : Origin t' n pc' tr' := by
  constructor
  case create_lt => exact fun c x pid hc => h.create_lt c x pid ((hcreate c x pid).mp hc)
  case unique =>
    intro c c' x pid pid' hc hc'
    exact h.unique c c' x pid pid' ((hcreate c x pid).mp hc) ((hcreate c' x pid').mp hc')
  case created =>
    intro p hp hu
    obtain ⟨hu', hpid⟩ := hused p hp hu
    obtain ⟨c, hc⟩ := h.created p hp hu'
    rw [hpid, hborn]
    exact ⟨c, (hcreate c _ _).mpr hc⟩
  case exit_lt => exact fun x hx => h.exit_lt x ((hexit x).mp hx)
  case gone =>
    intro q hq
    rw [hborn, hexit] at hq
    exact hgone q hq
  case parent =>
    intro p q c pid hq hc
    rw [hborn, hcreate] at hc
    rw [hborn, hexit]
    exact h.parent p q c pid (hparent p q hq) hc
  case making =>
    intro q np b hm
    obtain ⟨pid, hc⟩ := h.making q np b (hmaking q _ hm)
    rw [hborn, hborn]
    exact ⟨pid, (hcreate _ _ _).mpr hc⟩

/-- Processes fall asleep, wake and run. -/
theorem Origin.same {es : List Event} (hs : Same t t')
    (hmakes : ∀ q m, (pc' q).makes = some m → (pc q).makes = some m) (hcreate : ∀ c x pid, .create c x pid ∉ es)
    (hexit : ∀ x, .exit x ∉ es) : Origin t' n pc' (tr ++ es) := by
  refine h.mono (fun c x pid => ?_) (fun x => ?_) hs.born (fun q _ hu => ⟨?_, hs.pid q⟩) (fun q hq => ?_)
    (fun q r hr => hs.parent q ▸ hr) hmakes
  · rw [List.mem_append, or_iff_left (hcreate c x pid)]
  · rw [List.mem_append, or_iff_left (hexit x)]
  · exact fun hu' => hu ((hs.unused_iff q).mpr hu')
  · rcases hs.state q with hs' | ⟨hl, -⟩
    · rw [hs']
      exact h.gone q hq
    · exact absurd hq (h.dead hl)

/-- `allocproc`: the child has a number that nobody has had. -/
theorem Origin.alloc (ht : Tree t n pc) (hbusy : Busy t pc) (ho : Others p pc pc')
    (hu : (t np).state = .unused) (hk : (pc' p).makes = some (np, false)) (hp : (t p).state.live = true) :
    Origin (t.modify np (.found n)) n.next pc' (tr ++ [.create (t p).born n.births n.nextpid]) := by
  have hself := t.modify_self np (.found n)
  have hne : ∀ q, q ≠ np → t.modify np (.found n) q = t q := fun q hq => t.modify_ne _ hq
  have hlive : ∀ q, (t q).state.live = true → q ≠ np := fun q hq => ne_of_live hq (by rw [hu]; rfl)
  have hexit : ∀ x, Event.exit x ∈ tr ++ [.create (t p).born n.births n.nextpid] ↔ .exit x ∈ tr := by simp
  constructor
  case create_lt =>
    intro c x pid hc
    rcases List.mem_append.mp hc with hc | hc
    · exact Nat.lt_succ_of_lt (h.create_lt c x pid hc)
    · cases List.mem_singleton.mp hc
      exact Nat.lt_succ_self _
  case unique =>
    intro c c' x pid pid' hc hc'
    rcases List.mem_append.mp hc with hc | hc <;> rcases List.mem_append.mp hc' with hc' | hc'
    · exact h.unique c c' x pid pid' hc hc'
    · cases List.mem_singleton.mp hc'
      exact absurd (h.create_lt c _ pid hc) (lt_irrefl _)
    · cases List.mem_singleton.mp hc
      exact absurd (h.create_lt c' _ pid' hc') (lt_irrefl _)
    · cases List.mem_singleton.mp hc
      cases List.mem_singleton.mp hc'
      rfl
  case created =>
    intro q hq hqu
    rcases eq_or_ne q np with rfl | hqn
    · rw [hself]
      exact ⟨_, List.mem_append_right _ (List.mem_singleton_self _)⟩
    · rw [hne q hqn] at hqu ⊢
      obtain ⟨c, hc⟩ := h.created q hq hqu
      exact ⟨c, List.mem_append_left _ hc⟩
  case exit_lt =>
    intro x hx
    exact Nat.lt_succ_of_lt (h.exit_lt x ((hexit x).mp hx))
  case gone =>
    intro q hq
    rw [hexit] at hq
    rcases eq_or_ne q np with rfl | hqn
    · rw [hself] at hq
      exact absurd (h.exit_lt _ hq) (lt_irrefl _)
    · rw [hne q hqn] at hq ⊢
      exact h.gone q hq
  case parent =>
    intro q r c pid hr hc
    have hqn : q ≠ np := by
      rintro rfl
      rw [hself] at hr
      exact nomatch ((ht.node q).unused hu).symm.trans hr
    rw [hne q hqn] at hr hc
    rw [hexit, hne r (hlive r (ht.older q r hr).1)]
    refine h.parent q r c pid hr ?_
    rcases List.mem_append.mp hc with hc | hc
    · exact hc
    · have hq := (ht.node q).lt
      simp only [List.mem_singleton, Event.create.injEq] at hc
      omega
  case making =>
    intro q m b hm
    rcases eq_or_ne q p with rfl | hqp
    · rw [hk] at hm
      cases hm
      rw [hself, hne q (hlive q hp)]
      exact ⟨_, List.mem_append_right _ (List.mem_singleton_self _)⟩
    · have hm' := ho.makes q hqp _ hm
      obtain ⟨hemb, hql⟩ := hbusy.embryo q m b hm'
      have hmn : m ≠ np := by
        rintro rfl
        rw [hemb] at hu
        cases hu
      obtain ⟨pid, hc⟩ := h.making q m b hm'
      rw [hne m hmn, hne q (hlive q hql)]
      exact ⟨pid, List.mem_append_left _ hc⟩

/-- `np->parent = curproc`: the creator, who has not exited. -/
theorem Origin.fill (hbusy : Busy t pc) (ho : Others p pc pc') (hm : (pc p).makes = some (np, false))
    (hk : (pc' p).makes = some (np, true)) : Origin (t.modify np fun x => { x with parent := some p }) n pc' tr := by
  have hnp : ∀ q, ((t.modify np fun x => { x with parent := some p }) q).born = (t q).born ∧
      ((t.modify np fun x => { x with parent := some p }) q).state = (t q).state :=
    fun q => ⟨Table.modify_field rfl q, Table.modify_field rfl q⟩
  constructor
  case create_lt => exact h.create_lt
  case unique => exact h.unique
  case exit_lt => exact h.exit_lt
  case created =>
    intro q hq hu
    rw [(hnp q).2] at hu
    rw [(hnp q).1, Table.modify_field (g := Proc.pid) rfl]
    exact h.created q hq hu
  case gone =>
    intro q hq
    rw [(hnp q).1] at hq
    rw [(hnp q).2]
    exact h.gone q hq
  case parent =>
    intro q r c pid hr hc
    rw [(hnp q).1] at hc
    rw [(hnp r).1]
    rcases eq_or_ne q np with rfl | hq
    · rw [t.modify_self] at hr
      cases hr
      obtain ⟨pid', hmade⟩ := h.making p q false hm
      obtain rfl := h.unique _ _ _ _ _ hmade hc
      exact ⟨fun _ => rfl, fun he => absurd he (h.dead (hbusy.embryo p q false hm).2)⟩
    · rw [t.modify_ne _ hq] at hr
      exact h.parent q r c pid hr hc
  case making =>
    intro q m b hm'
    rw [(hnp q).1, (hnp m).1]
    rcases eq_or_ne q p with rfl | hqp
    · rw [hk] at hm'
      cases hm'
      exact h.making q np false hm
    · exact h.making q m b (ho.makes q hqp _ hm')

/-- `exit`: the children of the process that exits are the only ones whose creator exits. -/
theorem Origin.exit (ht : Tree t n pc) (ho : Others p pc pc') (hrun : (t p).state.live = true)
    (hx : Exited p t t') (hk : (pc' p).makes = none) : Origin t' n pc' (tr ++ [.exit (t p).born]) := by
  have hpu := used_of_live hrun
  have hcreate : ∀ c x pid, Event.create c x pid ∈ tr ++ [.exit (t p).born] ↔ .create c x pid ∈ tr := by simp
  have hexit : ∀ x, Event.exit x ∈ tr ++ [.exit (t p).born] ↔ .exit x ∈ tr ∨ x = (t p).born := by simp
  constructor
  case create_lt => exact fun c x pid hc => h.create_lt c x pid ((hcreate c x pid).mp hc)
  case unique =>
    intro c c' x pid pid' hc hc'
    exact h.unique c c' x pid pid' ((hcreate c x pid).mp hc) ((hcreate c' x pid').mp hc')
  case created =>
    intro q hq hqu
    obtain ⟨c, hc⟩ := h.created q hq fun hu => hqu ((hx.unused hrun q).mpr hu)
    rw [hx.pid, hx.born]
    exact ⟨c, (hcreate c _ _).mpr hc⟩
  case exit_lt =>
    intro x hx'
    rcases (hexit x).mp hx' with hx' | rfl
    · exact h.exit_lt x hx'
    · exact (ht.node p).lt
  case gone =>
    intro q hq
    rcases eq_or_ne q p with rfl | hqp
    · exact .inl hx.zombie
    · rw [hx.born, hexit] at hq
      have hdead : (t q).state = .zombie ∨ (t q).state = .unused := by
        rcases hq with hq | hq
        · exact h.gone q hq
        · by_contra hn
          rw [not_or] at hn
          exact hqp (ht.inj q p hn.2 hpu hq)
      rcases hx.others q hqp with hs | ⟨hs, -⟩
      · rw [hs]
        exact hdead
      · rcases hdead with hd | hd <;> rw [hs] at hd <;> cases hd
  case parent =>
    intro q r c pid hqr hc
    rw [hx.born, hcreate] at hc
    rw [hx.parent] at hqr
    rw [hx.born]
    split at hqr
    · -- an orphan, whose creator is the one that exits, unless that was init already
      rename_i hqp
      cases hqr
      refine ⟨fun hne => ?_, fun _ => rfl⟩
      rw [hexit, not_or] at hne
      exact absurd ((h.parent q p c pid hqp hc).1 hne.1).symm hne.2
    · rename_i hqp
      have hold := h.parent q r c pid hqr hc
      constructor
      · intro hne
        rw [hexit, not_or] at hne
        exact hold.1 hne.1
      · intro he
        rcases (hexit c).mp he with he | rfl
        · exact hold.2 he
        · by_cases he : Event.exit (t p).born ∈ tr
          · exact hold.2 he
          · obtain rfl := ht.inj r p (used_of_live (ht.older q r hqr).1) hpu (hold.1 he)
            exact absurd hqr hqp
  case making =>
    intro q m b hm
    have hqp : q ≠ p := by
      rintro rfl
      rw [hk] at hm
      cases hm
    obtain ⟨pid, hc⟩ := h.making q m b (ho.makes q hqp _ hm)
    rw [hx.born, hx.born]
    exact ⟨pid, (hcreate _ _ _).mpr hc⟩

end

end Steps

section Run

variable {S T : St nc} {p : Slot} {tr : List Event} {k : Label nc}

/-- A change of one slot that is not alive, when nobody is created, linked or exits. -/
theorem Origin.put (h : Origin S.procs S.ids S.pc tr) {i : Slot} {f : Proc → Proc} {pc' : Slot → Pc} {es : List Event}
    (hcreate : ∀ c x pid, .create c x pid ∉ es) (hexit : ∀ x, .exit x ∉ es)
    (hborn : (f (S.procs i)).born = (S.procs i).born)
    (hused : (f (S.procs i)).state ≠ .unused → (S.procs i).state = .embryo ∧ (f (S.procs i)).pid = (S.procs i).pid)
    (hparent : ∀ q, (f (S.procs i)).parent = some q → (S.procs i).parent = some q)
    (hmaking : ∀ q m, (pc' q).makes = some m → (S.pc q).makes = some m) :
    Origin (S.procs.modify i f) S.ids pc' (tr ++ es) := by
  have hi := S.procs.modify_self i f
  have hne : ∀ q, q ≠ i → S.procs.modify i f q = S.procs q := fun q hq => S.procs.modify_ne f hq
  refine h.mono (fun c x pid => ?_) (fun x => ?_) (Table.modify_field hborn) (fun q hq hu => ?_) (fun q hq => ?_)
    (fun q r hr => ?_) hmaking
  · rw [List.mem_append, or_iff_left (hcreate c x pid)]
  · rw [List.mem_append, or_iff_left (hexit x)]
  · rcases eq_or_ne q i with rfl | hqi
    · rw [hi] at hu ⊢
      obtain ⟨hemb, hpid⟩ := hused hu
      exact ⟨by rw [hemb]; nofun, hpid⟩
    · rw [hne q hqi] at hu ⊢
      exact ⟨hu, rfl⟩
  · rcases eq_or_ne q i with rfl | hqi
    · rw [hi]
      by_contra hn
      rw [not_or] at hn
      rcases h.gone q hq with hs | hs <;> rw [(hused hn.2).1] at hs <;> cases hs
    · rw [hne q hqi]
      exact h.gone q hq
  · rcases eq_or_ne q i with rfl | hqi
    · rw [hi] at hr
      exact hparent r hr
    · rw [hne q hqi] at hr
      exact hr

section

variable (h : Origin S.procs S.ids S.pc tr) (hI : Inv S) (ht : Tree S.procs S.ids S.pc)

include h hI ht

theorem Origin.change
    (hx : (S.cpus k.cpu).exec = some p) (hm : Change p S.procs S.ids (S.pc p) T.procs T.ids (T.pc p))
    (ho : Others p S.pc T.pc) : Origin T.procs T.ids T.pc (tr ++ ((S.pc p).event S.procs S.ids).toList) := by
  have hbusy := hI.busy
  have hmakes : (T.pc p).makes = none → ∀ q m, (T.pc q).makes = some m → (S.pc q).makes = some m := by
    intro hp q m hq
    refine ho.makes q ?_ m hq
    rintro rfl
    rw [hp] at hq
    cases hq
  cases hm with
  | same hs _ hn hmk _ hev =>
    rw [hn]
    refine h.same hs (fun q m hq => ?_) (fun c x pid hc => ?_) fun x he => ?_
    · rcases eq_or_ne q p with rfl | hqp
      · rw [← hmk, hq]
      · exact ho.makes q hqp m hq
    · obtain ⟨y, hy⟩ := hev _ (Option.mem_toList.mp hc)
      cases hy
    · obtain ⟨y, hy⟩ := hev _ (Option.mem_toList.mp he)
      cases hy
  | kill pid hk ht' hn hk' =>
    rw [hn, hk, ht']
    refine h.same (.kill _ pid) (hmakes (by rw [hk']; rfl)) (fun c x pid hc => ?_) fun x he => ?_
    · cases List.mem_singleton.mp hc
    · cases List.mem_singleton.mp he
  | alloc np hkm hu ht' hn hk' hev _ =>
    rw [ht', hn, hev]
    refine h.alloc ht hbusy ho hu hk' (hI.running_held hx ?_)
    cases hpc : S.pc p with
    | sched r =>
      rw [hpc] at hev
      cases hev
    | _ => rfl
  | giveUp np hk ht' hn hk' =>
    rw [ht', hn, hk]
    exact h.put (by rintro _ _ _ ⟨⟩) (by rintro _ ⟨⟩) rfl (fun hne => absurd rfl hne) (fun q hq => hq)
      (hmakes (by rw [hk']; rfl))
  | fill np hk ht' hn hk' =>
    rw [ht', hn, hk]
    simp only [Pc.event, Option.toList_none, List.append_nil]
    exact h.fill hbusy ho (by rw [hk]; rfl) (by rw [hk']; rfl)
  | ready np hk ht' hn hk' =>
    have hemb := (hbusy.embryo p np true (by rw [hk]; rfl)).1
    rw [ht', hn, hk]
    exact h.put (by rintro _ _ _ ⟨⟩) (by rintro _ ⟨⟩) rfl (fun _ => ⟨hemb, rfl⟩) (fun q hq => hq)
      (hmakes (by rw [hk']; rfl))
  | exit hk ht' hn hk' =>
    rw [ht', hn, hk]
    exact h.exit ht ho (hI.running_held hx (by rw [hk]; rfl)) (Table.exit_exited _ _ _) (by rw [hk']; rfl)
  | reap i b hk hpar hz ht' hn hk' =>
    rw [ht', hn, hk]
    simp only [Pc.event, Held.event, i.isLt, hpar, hz, dif_pos, and_self, if_true]
    refine h.put (fun c x pid hc => ?_) (fun x he => ?_) rfl (fun hne => absurd rfl hne) (by rintro _ ⟨⟩)
      (hmakes (by rw [hk']; rfl))
    · cases List.mem_singleton.mp hc
    · cases List.mem_singleton.mp he

theorem Origin.step
    (hs : (machine nc).step S k = some T) : Origin T.procs T.ids T.pc (tr ++ (observe S k).toList) := by
  rcases moves_cases hI hs with ⟨p, hx, hm, ho, hev⟩ | ⟨hsame, -, hpc, hn, hev⟩
  · rw [hev]
    exact h.change hI ht hx hm ho
  · rw [hev, hpc, hn]
    exact h.same hsame (fun _ _ hq => hq) nofun nofun

end

end Run

structure HInv (H : Hist nc) : Prop where
  safe : Inv H.sched
  tree : Tree H.sched.procs H.sched.ids H.sched.pc
  origin : Origin H.sched.procs H.sched.ids H.sched.pc H.trace

theorem HInv.step (h : HInv H) (hs : HStep H l H') : HInv H' := by
  cases hs with
  | kernel _ hT => exact ⟨h.safe.step hT, h.tree.step h.safe hT, h.origin.step h.safe h.tree hT⟩
  | loadParent => exact ⟨h.safe, h.tree, h.origin⟩
  | loadPid =>
    refine ⟨h.safe, h.tree, h.origin.same (.refl _) (fun _ _ hq => hq) (fun c x pid hc => ?_) fun x hx => ?_⟩
    · cases List.mem_singleton.mp hc
    · cases List.mem_singleton.mp hx

theorem hinv_reachable {C : Hist nc → HLabel nc → Prop} (h : (family nc).Reachable C H) : HInv H := by
  refine Machine.invariant ?_ (fun _ _ _ hi _ hs => hi.step (hstep_cases hs)) h
  rintro H ⟨⟨kstack, pgdir, h0⟩, -, htr⟩
  obtain ⟨S, ptr, tr⟩ := H
  obtain rfl : S = .init nc kstack pgdir := h0
  obtain rfl : tr = [] := htr
  refine ⟨.init kstack pgdir, .boot kstack pgdir, nofun, nofun, fun p hp hu => absurd ?_ hu, nofun, nofun, nofun, ?_⟩
  · exact congrArg Proc.state (if_neg hp)
  · intro q np b hm
    simp only [St.init] at hm
    split at hm <;> cases hm

/-! ## `get_parent_pid` -/

/-- Nobody takes the locked part of `exit` while a process that has loaded the pointer to it has yet to load the
    pid. -/
def NoExitBetween (H : Hist nc) (l : HLabel nc) : Prop :=
  ∀ k p, l = .kernel k → (H.sched.cpus k.cpu).exec = some p → H.sched.pc p = .held (.exit p) → ∀ q, H.ptr q ≠ some p

/-- A process keeps its parent, unless one of the two exits. -/
theorem Change.keeps {t t' : Table} {n n' : Ids} {pc : Slot → Pc} {k' : Pc} {p q r : Slot} (hbusy : Busy t pc)
    (h : Change p t n (pc p) t' n' k') (hq : (t q).state.live = true) (hr : (t q).parent = some r) :
    (t' q).state.live = true ∧ (t' q).parent = some r ∨ pc p = .held (.exit p) ∧ (q = p ∨ r = p) := by
  have hput : ∀ {i : Slot} {f : Proc → Proc}, (t i).state.live = false → t' = t.modify i f →
      (t' q).state.live = true ∧ (t' q).parent = some r := by
    rintro i f hdead rfl
    rw [t.modify_ne f (ne_of_live hq hdead)]
    exact ⟨hq, hr⟩
  have hembryo : ∀ np b, (pc p).makes = some (np, b) → (t np).state.live = false := by
    intro np b hm
    rw [(hbusy.embryo p np b hm).1]
    rfl
  cases h with
  | same hs => exact .inl ⟨hs.live hq, (hs.parent q).trans hr⟩
  | kill pid _ ht =>
    have hs := Same.kill t pid
    rw [ht]
    exact .inl ⟨hs.live hq, (hs.parent q).trans hr⟩
  | alloc np _ hu ht => exact .inl (hput (by rw [hu]; rfl) ht)
  | giveUp np hk ht | fill np hk ht => exact .inl (hput (hembryo np false (by rw [hk]; rfl)) ht)
  | ready np hk ht => exact .inl (hput (hembryo np true (by rw [hk]; rfl)) ht)
  | reap i b _ _ hz ht => exact .inl (hput (by rw [hz]; rfl) ht)
  | exit hk ht =>
    by_cases hqp : q = p ∨ r = p
    · exact .inr ⟨hk, hqp⟩
    · rw [not_or] at hqp
      have hx := t.exit_exited p ((t p).parent.map .proc)
      rw [ht]
      refine .inl ⟨hx.live hqp.1 hq, ?_⟩
      rw [hx.parent, if_neg, hr]
      rw [hr]
      exact fun e => hqp.2 (Option.some.inj e)

/-- Only a call leads into `exit`. -/
theorem Move.exits {p : Slot} {t t' : Table} {n n' : Ids} {k k' : Pc} (h : Move p t n k t' n' k') (he : k'.exits = true) :
    k.exits = true ∨ k = .base .out := by
  cases h with
  | hop hop =>
    cases hop with
    | call _ => exact .inr rfl
    | acquire j => exact .inl (by cases j <;> exact he)
    | _ => cases he
  | _ => cases he

theorem exits_of_step {S T : St nc} {k : Label nc} {p : Slot} (hI : Inv S) (hs : (machine nc).step S k = some T)
    (hx : (S.cpus k.cpu).exec = some p) (he : (T.pc p).exits = true) :
    (S.pc p).exits = true ∨ ∃ c f, k = .call c f := by
  have hstep : step S k = some T := hs
  cases k with
  | call c f => exact .inr ⟨c, f, rfl⟩
  | wakeup c ch =>
    simp only [Sched.step, show (S.cpus c).exec = some p from hx] at hstep
    split at hstep
    · cases hstep
      simp only [St.goto, update_self] at he
      cases he
    · cases hstep
  | yield c =>
    simp only [Sched.step, show (S.cpus c).exec = some p from hx, show (S.cpus c).proc = some p from hI.proc hx] at hstep
    split at hstep
    · simp only [Option.ite_none_right_eq_some, Option.some.injEq] at hstep
      obtain ⟨-, rfl⟩ := hstep
      simp only [St.goto, update_self] at he
      cases he
    · cases hstep
  | step c mem =>
    cases moves hI hs with
    | sched hx' => cases hx.symm.trans hx'
    | proc p' hx' hm _ =>
      obtain rfl := Option.some.inj (hx.symm.trans hx')
      rcases hm.exits he with hold | hout
      · exact .inl hold
      · simp only [Sched.step, show (S.cpus c).exec = some p from hx, procStep, hout, baseStep] at hstep
        cases hstep

/-- A process between the two loads: the pointer is still right. -/
def Reads (H : Hist nc) : Prop :=
  ∀ p r, H.ptr p = some r → (H.sched.procs p).state.live = true ∧ (H.sched.pc p).exits = false ∧
    (H.sched.procs p).parent = some r

theorem Reads.step (h : Reads H) (hI : HInv H) (hc : NoExitBetween H l) (hs : HStep H l H') : Reads H' := by
  cases hs with
  | @loadParent c p q r hx hproc hpc hr =>
    intro p' r' hp'
    obtain rfl : q = p := Option.some.inj (hproc.symm.trans (hI.safe.proc hx))
    rcases eq_or_ne p' q with rfl | hne
    · simp only [update_self] at hp'
      cases hp'
      exact ⟨hI.safe.running_held hx (by rw [hpc]; rfl), by rw [hpc]; rfl, hr⟩
    · simp only [update_of_ne hne] at hp'
      exact h p' r' hp'
  | @loadPid c p r hx hpc hr =>
    intro p' r' hp'
    rcases eq_or_ne p' p with rfl | hne
    · simp only [update_self] at hp'
      cases hp'
    · simp only [update_of_ne hne] at hp'
      exact h p' r' hp'
  | @kernel k T hread hT =>
    intro p r hp
    replace hp : H.ptr p = some r := hp
    obtain ⟨hlive, hex, hpar⟩ := h p r hp
    rcases moves_cases hI.safe hT with ⟨q, hx, hm, ho, -⟩ | ⟨hsame, -, hpc, -, -⟩
    · have hex' : (T.pc p).exits = false := by
        rw [Bool.eq_false_iff]
        intro he
        rcases eq_or_ne p q with rfl | hpq
        · rcases exits_of_step hI.safe hT hx he with hold | ⟨c, f, rfl⟩
          · rw [hex] at hold
            cases hold
          · simp only [Hist.reading, show (H.sched.cpus c).exec = some p from hx, hp, Option.isSome_some,
              reduceCtorEq] at hread
        · have hold := ho.exits p hpq he
          rw [hex] at hold
          cases hold
      rcases hm.keeps hI.safe.busy hlive hpar with ⟨hlive', hpar'⟩ | ⟨hexit, rfl | rfl⟩
      · exact ⟨hlive', hex', hpar'⟩
      · rw [hexit] at hex
        cases hex
      · exact absurd hp (hc k r rfl hx hexit p)
    · exact ⟨hsame.live hlive, by rw [hpc]; exact hex, (hsame.parent p).trans hpar⟩

theorem reads_reachable (h : (family nc).Reachable NoExitBetween H) : Reads H := by
  have hall : HInv H ∧ Reads H := by
    refine Machine.invariant (I := fun H => HInv H ∧ Reads H) ?_ ?_ h
    · intro H h0
      refine ⟨hinv_reachable (C := anyStep) (.init h0), ?_⟩
      intro p r hp
      rw [h0.2.1] at hp
      cases hp
    · rintro H l H' ⟨hI, hr⟩ hc hs
      exact ⟨hI.step (hstep_cases hs), hr.step hI hc (hstep_cases hs)⟩
  exact hall.2

/-- What `get_parent_pid` returns. -/
theorem parentPid_of_loadPid (h : (family nc).Reachable NoExitBetween H) {c : Fin nc} {p : Slot}
    (hs : (family nc).step H (.loadPid c) = some H') (hx : (H.sched.cpus c).exec = some p) (hp : p ≠ initproc) :
    ∃ q creator, H'.trace = H.trace ++ [.parentPid (H.sched.procs p).born (H.sched.procs q).pid] ∧
      (H.sched.procs q).state.live = true ∧
      .create creator (H.sched.procs p).born (H.sched.procs p).pid ∈ H.trace ∧
      (.exit creator ∉ H.trace → (H.sched.procs q).born = creator) ∧ (.exit creator ∈ H.trace → q = initproc) := by
  have hI := hinv_reachable h
  cases hstep_cases hs with
  | @loadPid _ p' r hx' hpc hr =>
    obtain rfl := Option.some.inj (hx.symm.trans hx')
    obtain ⟨hlive, -, hpar⟩ := reads_reachable h p r hr
    obtain ⟨creator, hc⟩ := hI.origin.created p hp (used_of_live hlive)
    have horigin := hI.origin.parent p r creator _ hpar hc
    exact ⟨r, creator, rfl, (hI.tree.older p r hpar).1, hc, horigin.1, horigin.2⟩

/-- **The parents form a live tree.**  In every state that any interleaving leads to: a process that has been made,
    other than init, has a parent that is alive; going from parent to parent leads to init, and never in a circle; and
    an UNUSED slot is nobody's child and nobody's parent.  If nobody exits between the two loads of a child's
    `get_parent_pid`, that returns the pid of a live process: the caller's creator as long as that has not exited,
    and init from then on. -/
theorem family_tree (nc : Nat) : (∀ H : Hist nc, (family nc).Reachable anyStep H →
      (∀ p, p ≠ initproc → (H.sched.procs p).state ∈ [State.runnable, .running, .sleeping, .zombie] →
        ∃ q, (H.sched.procs p).parent = some q ∧ (H.sched.procs q).state ∉ [State.unused, .embryo, .zombie]) ∧
      (∀ p, (H.sched.procs p).state ∈ [State.runnable, .running, .sleeping, .zombie] →
        Relation.ReflTransGen (IsParent H.sched.procs) p initproc) ∧
      (∀ p, ¬ Relation.TransGen (IsParent H.sched.procs) p p) ∧
      ∀ p, (H.sched.procs p).state = .unused →
        (H.sched.procs p).parent = none ∧ ∀ q, (H.sched.procs q).parent ≠ some p) ∧
    ∀ (H H' : Hist nc) (c : Fin nc) (p : Slot), (family nc).Reachable NoExitBetween H →
      (family nc).step H (.loadPid c) = some H' → (H.sched.cpus c).exec = some p → p ≠ initproc →
      ∃ q creator, H'.trace = H.trace ++ [.parentPid (H.sched.procs p).born (H.sched.procs q).pid] ∧
        (H.sched.procs q).state.live = true ∧
        .create creator (H.sched.procs p).born (H.sched.procs p).pid ∈ H.trace ∧
        (.exit creator ∉ H.trace → (H.sched.procs q).born = creator) ∧ (.exit creator ∈ H.trace → q = initproc) := by
  refine ⟨fun H hH => ?_, fun H H' c p hH hs hx hp => parentPid_of_loadPid hH hs hx hp⟩
  have ht := (hinv_reachable hH).tree
  have hmade : ∀ {s : State}, s ∈ [State.runnable, .running, .sleeping, .zombie] → s ≠ .unused ∧ s ≠ .embryo := by
    intro s
    cases s <;> decide
  have hlive : ∀ {s : State}, s.live = true → s ∉ [State.unused, .embryo, .zombie] := by
    intro s
    cases s <;> decide
  refine ⟨fun p hp hs => ?_, fun p hs => ht.ancestry (hmade hs).1 (hmade hs).2, fun p => ht.acyclic, fun p hu => ?_⟩
  · obtain ⟨q, hq, hql⟩ := ht.parent_of_made hp (hmade hs).1 (hmade hs).2
    exact ⟨q, hq, hlive hql⟩
  · exact ⟨(ht.node p).unused hu, ht.no_child (by rw [hu]; rfl)⟩

/-- Nobody is on the way into `exit`. -/
def NobodyExits (H : Hist nc) (_ : HLabel nc) : Prop := ∀ p, (H.sched.pc p).exits = false

instance (H : Hist nc) (l : HLabel nc) : Decidable (NobodyExits H l) :=
  inferInstanceAs (Decidable (∀ p, (H.sched.pc p).exits = false))

theorem NobodyExits.noExitBetween (h : NobodyExits H l) : NoExitBetween H l := by
  intro k p _ _ hpc
  have hp := h p
  rw [hpc] at hp
  cases hp

/-- `n` steps of what CPU `c` executes; memory is never short. -/
def steps (n : Nat) (c : Fin nc) : List (HLabel nc) := List.replicate n (.kernel (.step c (some 7)))

def booted (nc : Nat) : Hist nc := ⟨.init nc 1 2, fun _ => none, []⟩

theorem booted_init (nc : Nat) : (family nc).init (booted nc) := ⟨⟨1, 2, rfl⟩, rfl, rfl⟩

/-- init runs on CPU 0 and forks; the child, with pid 2, runs on CPU 1 and has loaded its parent's address. -/
def firstChild : List (HLabel 2) :=
  steps 4 0 ++ [.kernel (.call 0 .fork)] ++ steps 11 0 ++ steps 5 1 ++ [.loadParent 1]

theorem family_tree_firstChild : ∃ H H' : Hist 2, (family 2).step H (.loadPid 1) = some H' ∧
    (H.sched.procs 1).pid = 2 ∧ ∃ q creator, H'.trace = H.trace ++ [.parentPid 2 (H.sched.procs q).pid] ∧
      (H.sched.procs q).state.live = true ∧ .create creator 2 2 ∈ H.trace ∧
      (.exit creator ∉ H.trace → (H.sched.procs q).born = creator) ∧ (.exit creator ∈ H.trace → q = initproc) := by
  have hrun : ((family 2).runIf NobodyExits (booted 2) firstChild).any (fun H => decide
      (((family 2).step H (.loadPid 1)).isSome = true ∧ (H.sched.cpus 1).exec = some 1 ∧
        (H.sched.procs 1).pid = 2 ∧ (H.sched.procs 1).born = 2)) = true := by decide +kernel
  obtain ⟨H, hreach, hsome, hx, hpid, hborn⟩ := Machine.reachable_of_runIf (booted_init 2) hrun
  obtain ⟨H', hs⟩ := Option.isSome_iff_exists.mp hsome
  have hbetween : (family 2).Reachable NoExitBetween H := hreach.mono fun _ _ hc => hc.noExitBetween
  have hres := (family_tree 2).2 H H' 1 1 hbetween hs hx (by decide)
  rw [hpid, hborn] at hres
  exact ⟨H, H', hs, hpid, hres⟩

/-- init has a child with pid 2, and that a child with pid 3, which loads its parent's address.  Then the parent
    exits, init reaps it, and the child loads the pid. -/
def orphan : List (HLabel 3) :=
  steps 4 0 ++ [.kernel (.call 0 .fork)] ++ steps 11 0 ++ steps 5 1 ++ [.kernel (.call 1 .fork)] ++ steps 12 1 ++
    steps 6 2 ++ [.loadParent 2, .kernel (.call 1 .exit)] ++ steps 67 1 ++ [.kernel (.call 0 .wait)] ++ steps 4 0 ++
    [.loadPid 2]

/-- `get_parent_pid` returns 0, which is nobody's pid. -/
theorem orphaned_read : ∃ H : Hist 3, (family 3).Reachable anyStep H ∧ .parentPid 3 0 ∈ H.trace ∧
    (H.sched.procs 2).born = 3 ∧ (H.sched.procs 2).state = .running ∧
    ∀ q, (H.sched.procs q).state.live = true → (H.sched.procs q).pid ≠ 0 := by
  have hrun : ((family 3).run (booted 3) orphan).any (fun H => decide (Event.parentPid 3 0 ∈ H.trace ∧
      (H.sched.procs 2).born = 3 ∧ (H.sched.procs 2).state = .running ∧
      ∀ q, (H.sched.procs q).state.live = true → (H.sched.procs q).pid ≠ 0)) = true := by decide +kernel
  exact Machine.reachable_of_run (booted_init 3) hrun

end Xv6.Sched
