/-
  `wait` AND `exit`: every exited process is reaped at most once, by the right process, and nobody waits in vain.

  1. **`Reaped`** — the books: who has exited is a ZOMBIE and has not been reaped, or it has been reaped once and is in
     the table no more.  They are kept by birth numbers, since pids are used again.
  2. **`Scanned`** — in `wait`'s loop, with the lock held: none of the slots passed is a ZOMBIE child, and `havekids`
     says whether one of them is a child at all.
  3. **`Dozing`** — whoever sleeps in `wait` sleeps on its own address and has no ZOMBIE child.  `exit` wakes the
     parent before it becomes a ZOMBIE, and init when it passes a ZOMBIE on to it (`Table.exit_wakes`).
  4. **`reaped_once`** — what follows for the callers, as long as nobody has been given the pid -1.
  5. **`reaped_minusOne`** — when `nextpid` has gone around that far, `wait` returns -1 for a child it has reaped.
-/
import Xv6.Sched.Family
import Xv6.Sched.Pids

namespace Xv6.Sched

open Machines

/-! ## The books -/

/-- Is this the event that `wait` reaps process `x`? -/
def Event.reaps (x : Nat) : Event → Bool
  | .reap _ y _ => y = x
  | _ => false

/-- How often process `x` has been reaped. -/
def reaps (x : Nat) (tr : List Event) : Nat := tr.countP (Event.reaps x)

/-- Who is returned what by `wait`. -/
def Event.waits : Event → Option (Nat × Int)
  | .reap w _ ret => some (w, ret)
  | .waitFail w => some (w, -1)
  | _ => none

structure Reaped (t : Table) (tr : List Event) : Prop where
  exited : ∀ p, (t p).state = .zombie → .exit (t p).born ∈ tr
  once : ∀ x, .exit x ∈ tr → (reaps x tr = 0 ∧ ∃ p, (t p).state = .zombie ∧ (t p).born = x) ∨
    (reaps x tr = 1 ∧ ∀ p, (t p).state ≠ .unused → (t p).born ≠ x)
  after : ∀ x, .exit x ∉ tr → reaps x tr = 0

theorem reaps_append (x : Nat) (tr es : List Event) : reaps x (tr ++ es) = reaps x tr + reaps x es :=
  List.countP_append ..

theorem reaps_reap (x w y : Nat) (ret : Int) : reaps x [.reap w y ret] = if y = x then 1 else 0 := by
  simp [reaps, Event.reaps, List.countP_cons]

variable {i : Slot} {w : Nat} {ret : Int}

section Steps

variable {t t' : Table} {tr es : List Event} {p : Slot}

/-- Steps in which nobody exits and nobody is reaped. -/
theorem Reaped.mono (h : Reaped t tr) (hexit : ∀ x, .exit x ∉ es) (hreap : ∀ x, reaps x es = 0)
    (hzombie : ∀ p, (t' p).state = .zombie ↔ (t p).state = .zombie)
    (hborn : ∀ p, (t p).state = .zombie → (t' p).born = (t p).born)
    (hused : ∀ p, (t' p).state ≠ .unused → ∀ x, .exit x ∈ tr → (t' p).born = x →
      (t p).state ≠ .unused ∧ (t p).born = x) : Reaped t' (tr ++ es) := by
  have hmem : ∀ x, Event.exit x ∈ tr ++ es ↔ .exit x ∈ tr := by
    intro x
    rw [List.mem_append, or_iff_left (hexit x)]
  have hreaps : ∀ x, reaps x (tr ++ es) = reaps x tr := by
    intro x
    rw [reaps_append, hreap, Nat.add_zero]
  refine ⟨fun p hp => ?_, fun x hx => ?_, fun x hx => ?_⟩
  · have hp' := (hzombie p).mp hp
    rw [hmem, hborn p hp']
    exact h.exited p hp'
  · rw [hmem] at hx
    rw [hreaps]
    rcases h.once x hx with ⟨h0, p, hp, hpx⟩ | ⟨h1, hnone⟩
    · exact .inl ⟨h0, p, (hzombie p).mpr hp, (hborn p hp).trans hpx⟩
    · refine .inr ⟨h1, fun p hp hpx => ?_⟩
      obtain ⟨hu, hpx'⟩ := hused p hp x hx hpx
      exact hnone p hu hpx'
  · rw [hreaps]
    exact h.after x fun hx' => hx ((hmem x).mpr hx')

theorem Reaped.same (h : Reaped t tr) (hs : Same t t') (hexit : ∀ x, .exit x ∉ es) (hreap : ∀ x, reaps x es = 0) :
    Reaped t' (tr ++ es) := by
  refine h.mono hexit hreap (hs.dead_iff rfl) (fun q _ => hs.born q) fun q hq x _ hx => ?_
  rw [hs.born] at hx
  exact ⟨fun hu => hq ((hs.unused_iff q).mpr hu), hx⟩

/-- A slot that is no ZOMBIE is changed, and is none afterwards. -/
theorem Reaped.put (h : Reaped t tr) {f : Proc → Proc} (hexit : ∀ x, .exit x ∉ es) (hreap : ∀ x, reaps x es = 0)
    (hz : (t i).state ≠ .zombie) (hz' : (f (t i)).state ≠ .zombie)
    (hused : (f (t i)).state ≠ .unused → ∀ x, .exit x ∈ tr → (f (t i)).born = x →
      (t i).state ≠ .unused ∧ (t i).born = x) : Reaped (t.modify i f) (tr ++ es) := by
  refine h.mono hexit hreap (fun q => ?_) (fun q hq => ?_) fun q hq x hx hpx => ?_
  · rcases eq_or_ne q i with rfl | hqi
    · rw [t.modify_self]
      exact iff_of_false hz' hz
    · rw [t.modify_ne f hqi]
  · have hqi : q ≠ i := by
      rintro rfl
      exact hz hq
    rw [t.modify_ne f hqi]
  · rcases eq_or_ne q i with rfl | hqi
    · rw [t.modify_self] at hq hpx
      exact hused hq x hx hpx
    · rw [t.modify_ne f hqi] at hq hpx
      exact ⟨hq, hpx⟩

/-- `exit`: one more ZOMBIE. -/
theorem Reaped.exit (h : Reaped t tr) (hx : Exited p t t') (hrun : (t p).state.live = true)
    (hnew : .exit (t p).born ∉ tr) : Reaped t' (tr ++ [.exit (t p).born]) := by
  have hmem : ∀ x, Event.exit x ∈ tr ++ [.exit (t p).born] ↔ .exit x ∈ tr ∨ x = (t p).born := by simp
  have hreaps : ∀ x, reaps x (tr ++ [.exit (t p).born]) = reaps x tr := by
    intro x
    rw [reaps_append]
    rfl
  have hzombie : ∀ q, q ≠ p → ((t' q).state = .zombie ↔ (t q).state = .zombie) := by
    intro q hq
    rcases hx.others q hq with hs | ⟨hs, hs'⟩
    · rw [hs]
    · rw [hs, hs']
      exact iff_of_false nofun nofun
  refine ⟨fun q hq => ?_, fun x hx' => ?_, fun x hx' => ?_⟩
  · rw [hmem, hx.born]
    rcases eq_or_ne q p with rfl | hqp
    · exact .inr rfl
    · exact .inl (h.exited q ((hzombie q hqp).mp hq))
  · rw [hreaps]
    rcases (hmem x).mp hx' with hx' | rfl
    · rcases h.once x hx' with ⟨h0, q, hq, hqx⟩ | ⟨h1, hnone⟩
      · have hqp : q ≠ p := (ne_of_live hrun (by rw [hq]; rfl)).symm
        exact .inl ⟨h0, q, (hzombie q hqp).mpr hq, (hx.born q).trans hqx⟩
      · refine .inr ⟨h1, fun q hq => ?_⟩
        rw [hx.born]
        exact hnone q fun hu => hq ((hx.unused hrun q).mpr hu)
    · exact .inl ⟨h.after _ hnew, p, hx.zombie, hx.born p⟩
  · rw [hreaps]
    rw [hmem, not_or] at hx'
    exact h.after x hx'.1

/-- `wait` frees a slot. -/
theorem Reaped.reap (h : Reaped t tr) (hz : (t i).state = .zombie)
    (hinj : ∀ q, (t q).state ≠ .unused → (t q).born = (t i).born → q = i) :
    Reaped (t.modify i .freed) (tr ++ [.reap w (t i).born ret]) := by
  have hself := t.modify_self i .freed
  have hne : ∀ q, q ≠ i → t.modify i .freed q = t q := fun q hq => t.modify_ne _ hq
  generalize t.modify i .freed = t' at hself hne
  have hmem : ∀ x, Event.exit x ∈ tr ++ [.reap w (t i).born ret] ↔ .exit x ∈ tr := by simp
  have hused : ∀ q, (t' q).state ≠ .unused → q ≠ i := by
    rintro q hq rfl
    rw [hself] at hq
    exact hq rfl
  refine ⟨fun q hq => ?_, fun x hx => ?_, fun x hx => ?_⟩
  · have hqi := hused q (by rw [hq]; decide)
    rw [hne q hqi] at hq ⊢
    exact (hmem _).mpr (h.exited q hq)
  · rw [hmem] at hx
    rw [reaps_append]
    by_cases hxi : (t i).born = x
    · -- it has not been reaped before, since it is in its slot
      subst hxi
      rcases h.once _ hx with ⟨h0, -⟩ | ⟨-, hnone⟩
      · refine .inr ⟨by rw [h0, reaps_reap, if_pos rfl], fun q hq hqx => ?_⟩
        have hqi := hused q hq
        rw [hne q hqi] at hq hqx
        exact hqi (hinj q hq hqx)
      · exact absurd rfl (hnone i (by rw [hz]; decide))
    · rw [reaps_reap, if_neg hxi, Nat.add_zero]
      rcases h.once x hx with ⟨h0, q, hq, hqx⟩ | ⟨h1, hnone⟩
      · have hqi : q ≠ i := by
          rintro rfl
          exact hxi hqx
        exact .inl ⟨h0, q, by rw [hne q hqi]; exact hq, by rw [hne q hqi]; exact hqx⟩
      · refine .inr ⟨h1, fun q hq => ?_⟩
        have hqi := hused q hq
        rw [hne q hqi] at hq ⊢
        exact hnone q hq
  · rw [reaps_append]
    have hx' : Event.exit x ∉ tr := fun hx' => hx ((hmem x).mpr hx')
    have hxi : (t i).born ≠ x := by
      rintro rfl
      exact hx' (h.exited i hz)
    rw [h.after x hx', reaps_reap, if_neg hxi]

end Steps

section Run

variable {nc : Nat} {S T : St nc} {l : Label nc} {p : Slot} {tr : List Event}

section

variable (h : Reaped S.procs tr) (hI : Inv S) (ht : Tree S.procs S.ids S.pc) (ho : Origin S.procs S.ids S.pc tr)

include h hI ht ho

theorem Reaped.change (hx : (S.cpus l.cpu).exec = some p)
    (hm : Change p S.procs S.ids (S.pc p) T.procs T.ids (T.pc p)) :
    Reaped T.procs (tr ++ ((S.pc p).event S.procs S.ids).toList) := by
  have hembryo : ∀ np b, (S.pc p).makes = some (np, b) → (S.procs np).state = .embryo :=
    fun np b hmk => (hI.busy.embryo p np b hmk).1
  cases hm with
  | same hs _ _ _ _ hev =>
    cases hevent : (S.pc p).event S.procs S.ids with
    | none => exact h.same hs nofun fun _ => rfl
    | some e =>
      obtain ⟨y, rfl⟩ := hev e hevent
      exact h.same hs (fun x hx' => nomatch List.mem_singleton.mp hx') fun _ => rfl
  | kill pid hk ht' =>
    rw [ht', hk]
    exact h.same (.kill _ pid) (fun x hx' => nomatch List.mem_singleton.mp hx') fun _ => rfl
  | alloc np _ hu ht' _ _ hev =>
    rw [ht', hev]
    refine h.put (fun x hx' => nomatch List.mem_singleton.mp hx') (fun _ => rfl) (by rw [hu]; decide) nofun ?_
    rintro - x hx' rfl
    exact absurd (ho.exit_lt _ hx') (lt_irrefl _)
  | giveUp np hk ht' =>
    rw [ht', hk]
    exact h.put nofun (fun _ => rfl) (by rw [hembryo np false (by rw [hk]; rfl)]; nofun) nofun fun hu => absurd rfl hu
  | fill np hk ht' =>
    have hemb := hembryo np false (by rw [hk]; rfl)
    rw [ht', hk]
    exact h.put nofun (fun _ => rfl) (by rw [hemb]; decide) (by rw [hemb]; decide) fun hu x _ hpx => ⟨hu, hpx⟩
  | ready np hk ht' =>
    have hemb := hembryo np true (by rw [hk]; rfl)
    rw [ht', hk]
    exact h.put nofun (fun _ => rfl) (by rw [hemb]; decide) nofun fun _ x _ hpx => ⟨by rw [hemb]; nofun, hpx⟩
  | exit hk ht' =>
    have hrun := hI.running_held hx (by rw [hk]; rfl)
    rw [ht', hk]
    exact h.exit (Table.exit_exited _ _ _) hrun (ho.dead hrun)
  | reap i b hk hpar hz ht' =>
    rw [ht', hk]
    simp only [Pc.event, Held.event, i.isLt, hpar, hz, dif_pos, and_self, if_true]
    exact h.reap hz fun q hq hqi => ht.inj q i hq (by rw [hz]; decide) hqi

theorem Reaped.step (hs : (machine nc).step S l = some T) : Reaped T.procs (tr ++ (observe S l).toList) := by
  rcases moves_cases hI hs with ⟨p, hx, hm, -, hev⟩ | ⟨hsame, -, -, -, hev⟩
  · rw [hev]
    exact h.change hI ht ho hx hm
  · rw [hev]
    exact h.same hsame nofun fun _ => rfl

end

end Run

/-! ## The loop of `wait` -/

/-- `p` waits for its children, and none of them is a ZOMBIE. -/
def Dozing (t : Table) (p : Slot) : Prop :=
  (t p).chan = some (.proc p) ∧ ∀ j, (t j).parent = some p → (t j).state ≠ .zombie

/-- What process `p` at this point knows: it has looked at the slots before `i`; or it sleeps. -/
def Scanned (t : Table) (p : Slot) : Pc → Prop
  | .acquire (.wait _ i havekids) => i = 0 ∧ havekids = false
  | .held (.wait _ i havekids) => (t p).state = .running →
      ∀ j : Slot, (j : Nat) < i → (t j).parent = some p → (t j).state ≠ .zombie ∧ havekids = true
  | .sched (.wait _ _) | .resume (.wait _ _) => (t p).state = .sleeping → Dozing t p
  | _ => True

theorem Scanned.move {p : Slot} {t t' : Table} {n n' : Ids} {k k' : Pc} (hm : Move p t n k t' n' k')
    (hrun : ∀ j, k = .held j → (t p).state = .running) (h : Scanned t p k) : Scanned t' p k' := by
  cases hm with
  | hop hop =>
    cases hop with
    | call hc =>
      cases hc with
      | wait => exact ⟨rfl, rfl⟩
      | _ => trivial
    | acquire j =>
      cases j with
      | wait cur i b =>
        intro _ j hj
        rw [h.1] at hj
        exact absurd hj (Nat.not_lt_zero _)
      | _ => trivial
    | switch r =>
      cases r with
      | wait cur q => exact h
      | _ => trivial
    | @waitSkip i b hi hpar =>
      intro hr j hj hjp
      rcases Nat.lt_succ_iff_lt_or_eq.mp hj with hj | rfl
      · exact h hr j hj hjp
      · exact absurd hjp hpar
    | @waitKid i b hi hpar hz =>
      intro hr j hj hjp
      rcases Nat.lt_succ_iff_lt_or_eq.mp hj with hj | rfl
      · exact ⟨(h hr j hj hjp).1, rfl⟩
      · exact ⟨hz, rfl⟩
    | _ => trivial
  | waited =>
    intro _ j hj
    exact absurd hj (Nat.not_lt_zero _)
  | @waitSleep i hi _ =>
    intro _
    refine ⟨by rw [t.modify_self], fun j hj => ?_⟩
    -- the whole table has been looked at
    have hseen := h (hrun _ rfl) j (lt_of_lt_of_le j.isLt (Nat.le_of_not_lt hi))
    rcases eq_or_ne j p with rfl | hjp
    · rw [t.modify_self]
      nofun
    · rw [t.modify_ne _ hjp] at hj ⊢
      exact (hseen hj).1
  | _ => trivial

/-! ## What the others do meanwhile -/

variable {j : Slot}

section Others

variable {p q : Slot} {t t' : Table} {n n' : Ids} {k k' : Pc}

theorem Roused.awake (h : Roused t t') {ch : Option Chan} (hq : ¬ ((t q).state = .sleeping ∧ (t q).chan = ch)) :
    ¬ ((t' q).state = .sleeping ∧ (t' q).chan = ch) := by
  rintro ⟨hs, hc⟩
  rw [h.chan] at hc
  rcases (h.woken q).state with hs' | ⟨-, hs'⟩
  · exact hq ⟨hs'.symm.trans hs, hc⟩
  · rw [hs] at hs'
    cases hs'

theorem Table.wakeup1_awake (t : Table) (ch : Option Chan) (q : Slot) :
    ¬ ((t.wakeup1 ch q).state = .sleeping ∧ (t.wakeup1 ch q).chan = ch) := by
  unfold Table.wakeup1
  split
  · rintro ⟨hs, -⟩
    cases hs
  · rename_i hn
    exact hn

/-- If `exit` passes a ZOMBIE on to init, init does not sleep in `wait` afterwards. -/
theorem Table.abandon_list_wakes (cur : Slot) (ps : List Slot) (t : Table) (hj : j ∈ ps)
    (hpar : (t j).parent = some cur) (hz : (t j).state = .zombie) :
    ¬ ((ps.foldl (fun t p => t.abandonOne cur p) t initproc).state = .sleeping ∧
      (ps.foldl (fun t p => t.abandonOne cur p) t initproc).chan = some (.proc initproc)) := by
  induction ps generalizing t with
  | nil => cases hj
  | cons p ps ih =>
    rw [List.foldl_cons]
    rcases eq_or_ne j p with rfl | hjp
    · refine (Table.abandon_list cur ps _).1.awake ?_
      have hself := t.modify_self j fun x => { x with parent := some initproc }
      unfold Table.abandonOne
      simp only [if_pos hpar, hself, if_pos hz]
      exact Table.wakeup1_awake _ _ _
    · obtain ⟨hone, hparent⟩ := Table.abandonOne_spec t cur p
      refine ih _ (List.mem_of_ne_of_mem hjp hj) ?_ ?_
      · rw [hparent, if_neg fun e => hjp e.1, hpar]
      · rcases (hone.woken j).state with hs | ⟨hs, -⟩
        · rw [hs, hz]
        · rw [hz] at hs
          cases hs

/-- **Nobody sleeps through an `exit`.**  Whoever still sleeps in `wait` after `exit` of `q` has no ZOMBIE child if it
    had none before. -/
theorem Table.exit_wakes (t : Table) (hpq : p ≠ q) (hq : (t q).parent ≠ some q) (hchan : (t p).chan = some (.proc p))
    (hkids : ∀ j, (t j).parent = some p → (t j).state ≠ .zombie)
    (ht : t' = ((t.wakeup1 ((t q).parent.map .proc)).abandon q).modify q fun x => { x with state := .zombie })
    (hs : (t' p).state = .sleeping) (hj : (t' j).parent = some p) : (t' j).state ≠ .zombie := by
  intro hz
  have hx := t.exit_exited q ((t q).parent.map .proc)
  rw [← ht] at hx
  have hp : t' p = (t.wakeup1 ((t q).parent.map .proc)).abandon q p := by rw [ht, Table.modify_ne _ _ hpq]
  rw [hx.parent] at hj
  split at hj
  · -- `j` was a child of `q`, and is init's now
    rename_i hjq
    cases hj
    have hjne : j ≠ q := by
      rintro rfl
      exact hq hjq
    have hzj : ((t.wakeup1 ((t q).parent.map .proc)) j).state = .zombie := by
      rcases hx.others j hjne with hst | ⟨-, hst⟩
      · rw [hz] at hst
        rcases ((Roused.wakeup1 t ((t q).parent.map .proc)).woken j).state with hw | ⟨hw, -⟩
        · rw [hw, hst]
        · rw [← hst] at hw
          cases hw
      · rw [hz] at hst
        cases hst
    refine Table.abandon_list_wakes q (List.finRange NPROC) _ (List.mem_finRange j) ?_ hzj ⟨?_, ?_⟩
    · rw [(Same.wakeup1 t _).parent, hjq]
    · exact (congrArg Proc.state hp).symm.trans hs
    · exact (congrArg Proc.chan hp).symm.trans ((hx.chan initproc).trans hchan)
  · rcases eq_or_ne j q with rfl | hjne
    · -- `q` itself: it has woken its parent
      rw [hj] at hp
      refine (Table.abandon_spec _ j).1.awake (Table.wakeup1_awake t (some (.proc p)) p) ⟨?_, ?_⟩
      · exact (congrArg Proc.state hp).symm.trans hs
      · exact (congrArg Proc.chan hp).symm.trans ((hx.chan p).trans hchan)
    · rcases hx.others j hjne with hst | ⟨-, hst⟩
      · exact hkids j hj (hst.symm.trans hz)
      · rw [hz] at hst
        cases hst

theorem Roused.apart (h : Roused t t') (p : Slot) : ((t' p).state = .running → (t p).state = .running) ∧
    ((t' p).state = .sleeping → (t p).state = .sleeping ∧ (t' p).chan = (t p).chan) := by
  rw [h.chan]
  rcases (h.woken p).state with hs | ⟨-, hs⟩
  · rw [hs]
    exact ⟨id, fun h => ⟨h, rfl⟩⟩
  · rw [hs]
    exact ⟨nofun, nofun⟩

/-- Nobody else makes `p` run, or puts it to sleep. -/
theorem Move.apart (hm : Move q t n k t' n' k') (hpq : p ≠ q) : ((t' p).state = .running → (t p).state = .running) ∧
    ((t' p).state = .sleeping → (t p).state = .sleeping ∧ (t' p).chan = (t p).chan) := by
  -- a slot in which the state is kept, or becomes another one
  have hput : ∀ {i : Slot} {f : Proc → Proc}, (i = p → (f (t i)).state = (t i).state ∧ (f (t i)).chan = (t i).chan ∨
      (f (t i)).state ≠ .running ∧ (f (t i)).state ≠ .sleeping) →
      ((t.modify i f p).state = .running → (t p).state = .running) ∧
      ((t.modify i f p).state = .sleeping → (t p).state = .sleeping ∧ (t.modify i f p).chan = (t p).chan) := by
    intro i f hf
    rcases eq_or_ne i p with rfl | hi
    · rw [t.modify_self]
      rcases hf rfl with ⟨hs, hc⟩ | ⟨hr, hs⟩
      · rw [hs, hc]
        exact ⟨id, fun h => ⟨h, rfl⟩⟩
      · exact ⟨fun h => absurd h hr, fun h => absurd h hs⟩
    · rw [t.modify_ne f hi.symm]
      exact ⟨id, fun h => ⟨h, rfl⟩⟩
  cases hm with
  | hop => exact ⟨id, fun h => ⟨h, rfl⟩⟩
  | wake ch => exact (Roused.wakeup1 t ch).apart p
  | yield | sleep | waitSleep | slept | waited | exec => exact hput fun e => absurd e hpq.symm
  | kill pid =>
    rcases t.kill_cases pid with ⟨ht, -⟩ | ⟨r, -, -, ht⟩
    · rw [ht]
      exact ⟨id, fun h => ⟨h, rfl⟩⟩
    · rw [ht]
      refine hput fun _ => ?_
      dsimp only
      split
      · exact .inr ⟨nofun, nofun⟩
      · exact .inl ⟨rfl, rfl⟩
  | alloc | giveUp | ready | reap => exact hput fun _ => .inr ⟨nofun, nofun⟩
  | noStack | stack | noPages | pages | drop | fill => exact hput fun _ => .inl ⟨rfl, rfl⟩
  | exit =>
    have hx := t.exit_exited q ((t q).parent.map .proc)
    rw [hx.chan]
    rcases hx.others p hpq with hs | ⟨-, hs⟩
    · rw [hs]
      exact ⟨id, fun h => ⟨h, rfl⟩⟩
    · rw [hs]
      exact ⟨nofun, nofun⟩

theorem Move.exit_table (hm : Move q t n k t' n' k') (hk : k = .held (.exit q)) :
    t' = ((t.wakeup1 ((t q).parent.map .proc)).abandon q).modify q fun x => { x with state := .zombie } := by
  cases hm with
  | exit => rfl
  | hop hop =>
    subst hk
    cases hop
  | _ => cases hk

theorem SchedMove.apart (hm : SchedMove t t') (p : Slot) :
    ((t' p).state = .running → (t p).state = .running ∨ (t p).state = .runnable) ∧
    ((t' p).state = .sleeping → (t p).state = .sleeping ∧ (t' p).chan = (t p).chan) := by
  cases hm with
  | stay => exact ⟨.inl, fun h => ⟨h, rfl⟩⟩
  | wake ch =>
    have hu := (Roused.wakeup1 t ch).apart p
    exact ⟨fun hr => .inl (hu.1 hr), hu.2⟩
  | run r hr =>
    rcases eq_or_ne p r with rfl | hpr
    · rw [t.modify_self]
      exact ⟨fun _ => .inr hr, nofun⟩
    · rw [t.modify_ne _ hpr]
      exact ⟨.inl, fun h => ⟨h, rfl⟩⟩

theorem Same.kids (h : Same t t') (hj : (t' j).parent = some p) :
    (t j).parent = some p ∧ ((t' j).state = .zombie → (t j).state = .zombie) :=
  ⟨(h.parent j).symm.trans hj, (h.dead_iff rfl j).mp⟩

/-- Nobody else gives `p` a child, and nothing but `exit` makes a ZOMBIE. -/
theorem Change.kids (hm : Change q t n k t' n' k') (hpq : p ≠ q) (hk : k ≠ .held (.exit q))
    (hj : (t' j).parent = some p) : (t j).parent = some p ∧ ((t' j).state = .zombie → (t j).state = .zombie) := by
  have hput : ∀ {i : Slot} {f : Proc → Proc}, t' = t.modify i f → ((f (t i)).parent = some p → (t i).parent = some p) →
      (f (t i)).state ≠ .zombie ∨ (f (t i)).parent ≠ some p →
      (t j).parent = some p ∧ ((t' j).state = .zombie → (t j).state = .zombie) := by
    rintro i f rfl hpar hz
    rcases eq_or_ne j i with rfl | hji
    · rw [t.modify_self] at hj ⊢
      rcases hz with hz | hne
      · exact ⟨hpar hj, fun h => absurd h hz⟩
      · exact absurd hj hne
    · rw [t.modify_ne f hji] at hj ⊢
      exact ⟨hj, id⟩
  cases hm with
  | same hs => exact hs.kids hj
  | kill pid _ ht => exact Same.kids (ht ▸ .kill t pid) hj
  | alloc np _ _ ht | giveUp np _ ht | ready np _ ht => exact hput ht id (.inl nofun)
  | fill np _ ht =>
    have hne : some q ≠ some p := fun e => hpq (Option.some.inj e).symm
    exact hput ht (fun e => absurd e hne) (.inr hne)
  | exit hk' => exact absurd hk' hk
  | reap i b _ _ _ ht => exact hput ht nofun (.inr nofun)

end Others

variable {e : Event}

section Run

variable {nc : Nat} {S T : St nc} {l : Label nc} {p q : Slot}

/-- Who holds the lock is not disturbed by another process that needs it. -/
theorem Inv.unlocked (h : Inv S) {j : Held} (hrun : (S.procs p).state = .running) (hp : S.pc p = .held j)
    (hx : (S.cpus l.cpu).exec = some q) (hpq : p ≠ q) : (S.pc q).locked = false := by
  have hexec : S.Executing p := by
    by_contra hn
    exact (h.slot p).parked hn hrun
  obtain ⟨c, hc⟩ := hexec
  have hlock : S.lock = some c := (h.inside_exec hc).mpr (by rw [hp]; rfl)
  rw [Bool.eq_false_iff]
  intro hq
  have hlock' := (h.inside_exec hx).mpr hq
  rw [hlock] at hlock'
  rw [← Option.some.inj hlock', hc] at hx
  exact hpq (Option.some.inj hx)

/-- Somebody else does something. -/
theorem Scanned.keep {t t' : Table} {k : Pc} (h : Scanned t p k)
    (hloop : ∀ j, k = .held j → (t' p).state = .running → (t p).state = .running ∧
      ∀ j, (t' j).parent = some p → (t j).parent = some p ∧ ((t' j).state = .zombie → (t j).state = .zombie))
    (hdoze : (t' p).state = .sleeping → (t p).state = .sleeping ∧ (Dozing t p → Dozing t' p)) : Scanned t' p k := by
  cases k with
  | acquire j =>
    cases j with
    | wait cur i b => exact h
    | _ => trivial
  | held j =>
    cases j with
    | wait cur i b =>
      intro hr j hj hjp
      obtain ⟨hr', hkids⟩ := hloop _ rfl hr
      obtain ⟨hjp', hz⟩ := hkids j hjp
      obtain ⟨hnz, hb⟩ := h hr' j hj hjp'
      exact ⟨fun e => hnz (hz e), hb⟩
    | _ => trivial
  | sched r | resume r =>
    cases r with
    | wait cur s =>
      intro hs
      obtain ⟨hs', hd⟩ := hdoze hs
      exact hd (h hs')
    | _ => trivial
  | _ => trivial

theorem Scanned.other (h : Scanned S.procs p (S.pc p)) (hI : Inv S) (ht : Tree S.procs S.ids S.pc)
    (hx : (S.cpus l.cpu).exec = some q) (hpq : p ≠ q)
    (hm : Move q S.procs S.ids (S.pc q) T.procs T.ids (T.pc q)) : Scanned T.procs p (S.pc p) := by
  obtain ⟨hrun, hsleep⟩ := hm.apart hpq
  have hchange := hm.change fun j hj => hI.running_held hx (by rw [hj]; rfl)
  refine h.keep (fun j hp hr => ⟨hrun hr, fun j hj => ?_⟩) fun hs => ?_
  · refine hchange.kids hpq (fun e => ?_) hj
    have hfree := hI.unlocked (hrun hr) hp hx hpq
    rw [e] at hfree
    cases hfree
  · obtain ⟨hs', hc⟩ := hsleep hs
    refine ⟨hs', fun ⟨hchan, hkids⟩ => ⟨hc.trans hchan, fun j hj hz => ?_⟩⟩
    by_cases hk : S.pc q = .held (.exit q)
    · have hself : (S.procs q).parent ≠ some q := fun e => absurd (ht.older q q e).2 (lt_irrefl _)
      exact Table.exit_wakes S.procs hpq hself hchan hkids (hm.exit_table hk) hs hj hz
    · obtain ⟨hj', hz'⟩ := hchange.kids hpq hk hj
      exact hkids j hj' (hz' hz)

/-- A scheduler wakes processes, or runs one that is not in `wait`'s loop. -/
theorem Scanned.sched (h : Scanned S.procs p (S.pc p)) (hI : Inv S) (hm : SchedMove S.procs T.procs) :
    Scanned T.procs p (S.pc p) := by
  have hkids := fun j => hm.same.kids (p := p) (j := j)
  obtain ⟨hrun, hsleep⟩ := hm.apart p
  refine h.keep (fun j hp hr => ⟨?_, hkids⟩) fun hs => ?_
  · rcases hrun hr with hold | hready
    · exact hold
    · -- it is run only now, and goes on after `swtch`
      have hidle : ¬ S.Executing p := by
        intro hx
        have hactive := (hI.slot p).active hx
        rw [hready, hp] at hactive
        cases hactive
      obtain ⟨r, hr', -⟩ := (hI.slot p).ready hidle (.inl hready)
      rw [hp] at hr'
      cases hr'
  · obtain ⟨hs', hc⟩ := hsleep hs
    refine ⟨hs', fun ⟨hchan, hk⟩ => ⟨hc.trans hchan, fun j hj hz => ?_⟩⟩
    exact hk j (hkids j hj).1 ((hkids j hj).2 hz)

theorem Scanned.step (h : ∀ p, Scanned S.procs p (S.pc p)) (hI : Inv S) (ht : Tree S.procs S.ids S.pc)
    (hs : (machine nc).step S l = some T) (p : Slot) : Scanned T.procs p (T.pc p) := by
  cases moves hI hs with
  | sched hx hm hpc _ =>
    rw [hpc]
    exact (h p).sched hI hm
  | proc q hx hm ho =>
    rcases eq_or_ne p q with rfl | hpq
    · refine Scanned.move hm (fun j hj => ?_) (h p)
      rw [hI.active hx, hj]
      rfl
    · rcases ho p hpq with hpc | ⟨-, hpc⟩
      · rw [hpc]
        exact (h p).other hI ht hx hpq hm
      · rw [hpc]
        trivial

/-! ## What the callers see -/

/-- A ZOMBIE that is still there. -/
def Kept (a b : Proc) : Prop := b.state = .zombie ∧ b.pid = a.pid ∧ b.born = a.born

/-- A ZOMBIE stays one until `wait` returns it. -/
theorem zombie_step (hI : Inv S) (hz : (S.procs i).state = .zombie) (hs : (machine nc).step S l = some T) :
    Kept (S.procs i) (T.procs i) ∨ ∃ w, observe S l = some (.reap w (S.procs i).born (S.procs i).pid) := by
  have hsame : Same S.procs T.procs → Kept (S.procs i) (T.procs i) :=
    fun hsame => ⟨(hsame.dead_iff rfl i).mpr hz, hsame.pid i, hsame.born i⟩
  have hput : ∀ {j : Slot} {f : Proc → Proc}, (S.procs j).state ≠ .zombie → T.procs = S.procs.modify j f →
      Kept (S.procs i) (T.procs i) := by
    intro j f hj ht
    have hij : i ≠ j := by
      rintro rfl
      exact hj hz
    rw [ht, Table.modify_ne _ _ hij]
    exact ⟨hz, rfl, rfl⟩
  rcases moves_cases hI hs with ⟨p, hx, hm, -, hev⟩ | ⟨hs', -⟩
  · have hembryo : ∀ np b, (S.pc p).makes = some (np, b) → (S.procs np).state ≠ .zombie := by
      intro np b hmk
      rw [(hI.busy.embryo p np b hmk).1]
      nofun
    rw [hev]
    cases hm with
    | same hs' => exact .inl (hsame hs')
    | kill pid _ ht => exact .inl (hsame (ht ▸ .kill _ pid))
    | alloc np _ hu ht => exact .inl (hput (by rw [hu]; decide) ht)
    | giveUp np hk ht | fill np hk ht => exact .inl (hput (hembryo np false (by rw [hk]; rfl)) ht)
    | ready np hk ht => exact .inl (hput (hembryo np true (by rw [hk]; rfl)) ht)
    | exit hk ht =>
      have hrun := hI.running_held hx (by rw [hk]; rfl)
      have hip : i ≠ p := (ne_of_live hrun (by rw [hz]; rfl)).symm
      have hx := S.procs.exit_exited p ((S.procs p).parent.map .proc)
      rw [← ht] at hx
      refine .inl ⟨?_, hx.pid i, hx.born i⟩
      rcases hx.others i hip with hst | ⟨hst, -⟩
      · exact hst.trans hz
      · rw [hz] at hst
        cases hst
    | reap j b hk hpar hzj ht =>
      rcases eq_or_ne i j with rfl | hij
      · refine .inr ⟨(S.procs p).born, ?_⟩
        rw [hk]
        simp only [Pc.event, Held.event, i.isLt, hpar, hzj, dif_pos, and_self, if_true]
      · rw [ht, Table.modify_ne _ _ hij]
        exact .inl ⟨hz, rfl, rfl⟩
  · exact .inl (hsame hs')

/-- What is seen of `wait` is seen with the lock held, in its loop. -/
theorem wait_observed (hI : Inv S) (hev : observe S l = some e) (he : e.waits.isSome = true) :
    ∃ p i b, (S.cpus l.cpu).exec = some p ∧ S.pc p = .held (.wait p i b) ∧
      (Held.wait p i b).event S.procs S.ids = some e := by
  unfold observe at hev
  split at hev
  · cases hev
  · rename_i p hx
    have hcur := hI.cur p
    unfold Pc.event at hev
    split at hev
    · rename_i k hk
      rw [hk] at hcur
      cases k with
      | wait cur i b =>
        obtain rfl := hcur cur (List.mem_singleton_self cur)
        exact ⟨cur, i, b, hx, hk, hev⟩
      | alloc cur i =>
        simp only [Held.event] at hev
        split at hev
        · split at hev
          · cases hev
            cases he
          · cases hev
        · cases hev
      | exit | kill =>
        cases hev
        cases he
      | _ => cases hev
    · cases hev

/-- What `wait` has returned was the caller's child. -/
theorem reap_observed (hI : Inv S) {x : Nat} (hev : observe S l = some (.reap w x ret)) :
    ∃ p i, w = (S.procs p).born ∧ (S.procs i).parent = some p ∧ (S.procs i).state = .zombie ∧ x = (S.procs i).born ∧
      ret = (S.procs i).pid := by
  obtain ⟨p, i, b, -, -, hev⟩ := wait_observed hI hev rfl
  simp only [Held.event] at hev
  split at hev
  · split at hev
    · rename_i hi hchild
      cases hev
      exact ⟨p, ⟨i, hi⟩, rfl, hchild.1, hchild.2, rfl, rfl⟩
    · cases hev
  · split at hev <;> cases hev

/-- When `wait` gives up. -/
theorem waitFail_observed (hI : Inv S) (h : ∀ p, Scanned S.procs p (S.pc p)) (hev : observe S l = some (.waitFail w)) :
    ∃ p, (S.procs p).state = .running ∧ (S.procs p).born = w ∧
      ((∀ j, (S.procs j).parent ≠ some p) ∨ (S.procs p).killed = true) := by
  obtain ⟨p, i, b, hx, hpc, hev⟩ := wait_observed hI hev rfl
  have hscan := h p
  have hrun := hI.active hx
  rw [hpc] at hscan hrun
  simp only [Held.event] at hev
  split at hev
  · split at hev <;> cases hev
  · rename_i hi
    split at hev
    · rename_i hfail
      cases hev
      refine ⟨p, hrun, rfl, ?_⟩
      rcases hfail with hb | hkilled
      · -- `havekids` is 0, and the whole table has been looked at
        refine .inl fun j hj => ?_
        have hseen := hscan hrun j (lt_of_lt_of_le j.isLt (Nat.le_of_not_lt hi)) hj
        rw [hb] at hseen
        cases hseen.2
      · exact .inr hkilled
    · cases hev

end Run

section Histories

variable {nc : Nat} {H H' : Hist nc} {l : HLabel nc}

structure Books (H : Hist nc) : Prop extends HInv H where
  reaped : Reaped H.sched.procs H.trace
  scanned : ∀ p, Scanned H.sched.procs p (H.sched.pc p)

theorem Books.step (h : Books H) (hs : (family nc).step H l = some H') : Books H' := by
  refine ⟨h.toHInv.step (hstep_cases hs), ?_, ?_⟩
  · cases hstep_cases hs with
    | kernel _ hT => exact h.reaped.step h.safe h.tree h.origin hT
    | loadParent => exact h.reaped
    | loadPid =>
      exact h.reaped.same (.refl _) (fun x hx => nomatch List.mem_singleton.mp hx) fun _ => rfl
  · cases hstep_cases hs with
    | kernel _ hT => exact Scanned.step h.scanned h.safe h.tree hT
    | loadParent | loadPid => exact h.scanned

theorem books_reachable {C : Hist nc → HLabel nc → Prop} (h : (family nc).Reachable C H) : Books H := by
  refine Machine.invariant ?_ (fun _ _ _ hi _ hs => hi.step hs) h
  intro H h0
  refine ⟨hinv_reachable (C := anyStep) (.init h0), ?_, ?_⟩
  · obtain ⟨⟨kstack, pgdir, hS⟩, -, htr⟩ := h0
    rw [hS, htr]
    refine ⟨fun p hp => ?_, nofun, fun _ _ => rfl⟩
    simp only [St.init] at hp
    split at hp <;> cases hp
  · obtain ⟨⟨kstack, pgdir, hS⟩, -, -⟩ := h0
    intro p
    rw [hS]
    simp only [St.init]
    split <;> trivial

/-- An event of the kernel's has been observed. -/
theorem observed_of_trace (hs : (family nc).step H l = some H') (htr : H'.trace = H.trace ++ [e])
    (he : ∀ x y, e ≠ .parentPid x y) : ∃ k, l = .kernel k ∧ observe H.sched k = some e := by
  cases hstep_cases hs with
  | @kernel k T _ hT =>
    have hlist := List.append_cancel_left htr
    exact ⟨k, rfl, by rw [← Option.mem_toList, hlist]; exact List.mem_singleton_self e⟩
  | loadParent =>
    have hlen := congrArg List.length htr
    simp at hlen
  | loadPid =>
    have hlist := List.append_cancel_left htr
    exact absurd (List.singleton_inj.mp hlist).symm (he _ _)

/-- Who is reaped has the pid that it was made with. -/
theorem Books.reap (hB : Books H) {k : Label nc} {x : Nat} (hev : observe H.sched k = some (.reap w x ret)) :
    .exit x ∈ H.trace ∧ ∃ creator, .create creator x ret ∈ H.trace ∧
      (.exit creator ∉ H.trace ∧ w = creator ∨ .exit creator ∈ H.trace ∧ w = (H.sched.procs initproc).born) := by
  obtain ⟨p, i, rfl, hpar, hz, rfl, rfl⟩ := reap_observed hB.safe hev
  have hi : i ≠ initproc := (ne_of_live hB.tree.init.1 (by rw [hz]; rfl)).symm
  obtain ⟨creator, hcreate⟩ := hB.origin.created i hi (by rw [hz]; decide)
  obtain ⟨hborn, hleft⟩ := hB.origin.parent i p creator _ hpar hcreate
  refine ⟨hB.reaped.exited i hz, creator, hcreate, ?_⟩
  by_cases he : Event.exit creator ∈ H.trace
  · exact .inr ⟨he, by rw [hleft he]⟩
  · exact .inl ⟨he, hborn he⟩

/-- **An exited child is reaped at most once, by the right process, and no waiting parent misses it.**  Whatever the
    processes do:

    1. a process that has exited is a ZOMBIE and no `wait` has reaped it, or one has, and it is in the table no more;
    2. a ZOMBIE stays one, with its pid, until a `wait` reaps it and returns that pid;
    3. who makes that call is its creator, or init if the creator has exited, and the pid is the one it was made with;
    4. if nobody has been given the pid -1, `wait` returns -1 only if the caller has no children or has been killed;
    5. with the lock free, nobody sleeping in `wait` has a ZOMBIE child. -/
theorem reaped_once (nc : Nat) (H : Hist nc) (h : (family nc).Reachable anyStep H) : (∀ x, .exit x ∈ H.trace →
      (reaps x H.trace = 0 ∧ ∃ p, (H.sched.procs p).state = .zombie ∧ (H.sched.procs p).born = x) ∨
      (reaps x H.trace = 1 ∧ ∀ p, (H.sched.procs p).state ≠ .unused → (H.sched.procs p).born ≠ x)) ∧
    (∀ l H' p, (family nc).step H l = some H' → (H.sched.procs p).state = .zombie →
      Kept (H.sched.procs p) (H'.sched.procs p) ∨
      ∃ w, H'.trace = H.trace ++ [.reap w (H.sched.procs p).born (H.sched.procs p).pid]) ∧
    (∀ l H' w x ret, (family nc).step H l = some H' → H'.trace = H.trace ++ [.reap w x ret] →
      .exit x ∈ H.trace ∧ ∃ creator, .create creator x ret ∈ H.trace ∧
        (.exit creator ∉ H.trace ∧ w = creator ∨ .exit creator ∈ H.trace ∧ w = (H.sched.procs initproc).born)) ∧
    ((∀ creator x, .create creator x (-1) ∉ H.trace) → ∀ l H' e w, (family nc).step H l = some H' →
      H'.trace = H.trace ++ [e] → e.waits = some (w, -1) →
      ∃ p, (H.sched.procs p).state = .running ∧ (H.sched.procs p).born = w ∧
        ((∀ j, (H.sched.procs j).parent ≠ some p) ∨ (H.sched.procs p).killed = true)) ∧
    (H.sched.lock = none → ∀ p cur q, (H.sched.procs p).state = .sleeping → H.sched.pc p = .resume (.wait cur q) →
      ∀ j, (H.sched.procs j).parent = some p → (H.sched.procs j).state ≠ .zombie) := by
  have hB := books_reachable h
  refine ⟨hB.reaped.once, fun l H' p hs hz => ?_, fun l H' w x ret hs htr => ?_, fun hpids l H' e w hs htr he => ?_,
    fun _ p cur q hsleep hpc => ?_⟩
  · cases hstep_cases hs with
    | kernel _ hT =>
      rcases zombie_step hB.safe hz hT with hstay | ⟨w, hev⟩
      · exact .inl hstay
      · exact .inr ⟨w, by simp only [hev, Option.toList_some]⟩
    | loadParent | loadPid => exact .inl ⟨hz, rfl, rfl⟩
  · obtain ⟨k, -, hev⟩ := observed_of_trace hs htr nofun
    exact hB.reap hev
  · obtain ⟨k, -, hev⟩ := observed_of_trace hs htr fun x y hxy => by rw [hxy] at he; cases he
    cases e with
    | reap w' x ret =>
      cases he
      obtain ⟨-, creator, hcreate, -⟩ := hB.reap hev
      exact absurd hcreate (hpids creator x)
    | waitFail w' =>
      cases he
      exact waitFail_observed hB.safe hB.scanned hev
    | _ => cases he
  · have hscan := hB.scanned p
    rw [hpc] at hscan
    exact (hscan hsleep).2

/-- init forks; the child, with pid 2, exits on CPU 1; init calls `wait` and has come to the child's slot. -/
def childExits : List (HLabel 2) :=
  steps 4 0 ++ [.kernel (.call 0 .fork)] ++ steps 11 0 ++ steps 5 1 ++ [.kernel (.call 1 .exit)] ++ steps 67 1 ++
    [.kernel (.call 0 .wait)] ++ steps 2 0

/-- It has reaped the child, calls `wait` again, and has seen the whole table. -/
def waitsAgain : List (HLabel 2) := childExits ++ steps 2 0 ++ [.kernel (.call 0 .wait)] ++ steps 65 0

theorem reaped_once_childExits : (∃ H H' : Hist 2, (family 2).step H (.kernel (.step 0 none)) = some H' ∧
      H'.trace = H.trace ++ [.reap 1 2 2] ∧ .exit 2 ∈ H.trace ∧ ∃ creator, .create creator 2 2 ∈ H.trace ∧
        (.exit creator ∉ H.trace ∧ 1 = creator ∨ .exit creator ∈ H.trace ∧ 1 = (H.sched.procs initproc).born)) ∧
    ∃ H H' : Hist 2, (family 2).step H (.kernel (.step 0 none)) = some H' ∧ H'.trace = H.trace ++ [.waitFail 1] ∧
      ∃ p, (H.sched.procs p).state = .running ∧ (H.sched.procs p).born = 1 ∧
        ((∀ j, (H.sched.procs j).parent ≠ some p) ∨ (H.sched.procs p).killed = true) := by
  constructor
  · have hrun : ((family 2).run (booted 2) childExits).any (fun H => decide
        (((family 2).step H (.kernel (.step 0 none))).any
          (fun H' => decide (H'.trace = H.trace ++ [.reap 1 2 2])) = true)) = true := by decide +kernel
    obtain ⟨H, hreach, hstep⟩ := Machine.reachable_of_run (booted_init 2) hrun
    obtain ⟨H', hs, htr⟩ := Option.any_eq_true _ _ |>.mp hstep
    rw [decide_eq_true_eq] at htr
    exact ⟨H, H', hs, htr, (reaped_once 2 H hreach).2.2.1 _ H' 1 2 2 hs htr⟩
  · have hrun : ((family 2).run (booted 2) waitsAgain).any (fun H => decide
        (H.trace = [.create 1 2 2, .exit 2, .reap 1 2 2] ∧ ((family 2).step H (.kernel (.step 0 none))).any
          (fun H' => decide (H'.trace = H.trace ++ [.waitFail 1])) = true)) = true := by decide +kernel
    obtain ⟨H, hreach, hpast, hstep⟩ := Machine.reachable_of_run (booted_init 2) hrun
    obtain ⟨H', hs, htr⟩ := Option.any_eq_true _ _ |>.mp hstep
    rw [decide_eq_true_eq] at htr
    refine ⟨H, H', hs, htr, (reaped_once 2 H hreach).2.2.2.1 (fun c x hc => ?_) _ H' _ 1 hs htr rfl⟩
    rw [hpast] at hc
    simp at hc

/-- The runs of the scheduler's machine are runs with a history. -/
theorem family_reachable {S : St nc} (h : (machine nc).Reachable anyStep S) :
    ∃ tr, (family nc).Reachable anyStep ⟨S, fun _ => none, tr⟩ := by
  refine Machine.invariant (I := fun S => ∃ tr, (family nc).Reachable anyStep ⟨S, fun _ => none, tr⟩) ?_ ?_ h
  · exact fun S h0 => ⟨[], .init ⟨h0, rfl, rfl⟩⟩
  · rintro S l T ⟨tr, hr⟩ - hs
    have hread : Hist.reading ⟨S, fun _ => none, tr⟩ l = false := by
      unfold Hist.reading
      split
      · split <;> rfl
      · rfl
    refine ⟨tr ++ (observe S l).toList, hr.step (l := .kernel l) trivial ?_⟩
    simp only [family, Hist.step, hread, show Sched.step S l = some T from hs, Option.map_some, Bool.false_eq_true, if_false]

/-- init has a child and waits for it; the child exits, and init has come to its slot. -/
def waitsForChild : List (Label 1) :=
  [.call 0 .fork] ++ List.replicate 11 (.step 0 (some 7)) ++ [.call 0 .wait] ++ List.replicate 71 (.step 0 none) ++
    [.call 0 .exit] ++ List.replicate 72 (.step 0 none)

/-- After `2 ^ 32 - 3` calls of `fork` in vain the child has the pid -1; `wait` reaps it and returns that, although the
    caller has a child and has not been killed. -/
theorem reaped_minusOne : ∃ H H' : Hist 1, (family 1).Reachable anyStep H ∧
    (family 1).step H (.kernel (.step 0 none)) = some H' ∧ H'.trace = H.trace ++ [.reap 1 4294967295 (-1)] ∧
    (H.sched.procs initproc).born = 1 ∧ (H.sched.procs initproc).killed = false ∧
    (H.sched.procs second).parent = some initproc := by
  have hrun : ((machine 1).run (user.tried (2 ^ 32 - 2)) waitsForChild).any (fun S => decide
      ((Sched.step S (.step 0 none)).isSome = true ∧ observe S (.step 0 none) = some (.reap 1 4294967295 (-1)) ∧
        (S.procs initproc).born = 1 ∧ (S.procs initproc).killed = false ∧
        (S.procs second).parent = some initproc)) = true := by decide +kernel
  obtain ⟨S, hS, hsome, hev, hinit⟩ := (reachable_tried (by decide)).eval hrun
  obtain ⟨T, hT⟩ := Option.isSome_iff_exists.mp hsome
  obtain ⟨tr, hreach⟩ := family_reachable hS
  refine ⟨⟨S, fun _ => none, tr⟩, ⟨T, fun _ => none, tr ++ [.reap 1 4294967295 (-1)]⟩, hreach, ?_, rfl, hinit⟩
  simp only [family, Hist.step, Hist.reading, hT, hev, Option.map_some, Option.toList_some, Bool.false_eq_true, if_false]

end Histories

end Xv6.Sched
