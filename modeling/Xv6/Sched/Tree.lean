/-
  THE FAMILY TREE of the processes.

  `fork` links a child to its creator outside of the lock, `exit` passes the children on to init, `wait` unlinks what
  it has reaped, and slots are used again.  Still the parents always form a tree:

  1. **`Change`** — of all the moves, only six touch states other than to wake and to run, pids or parents.
  2. **`Tree`** — the invariant.  A parent is alive, and OLDER: it was made before.  So going from parent to parent
     cannot lead back, and it ends at init, the only process without a parent.  (Pids would not do: they go around.)
  3. **`Tree.ancestry`, `Tree.acyclic`** — what follows.
-/
import Mathlib
import Xv6.Sched.Safety

namespace Xv6.Sched

open Machines
open Function (update_self update_apply update_of_ne)

/-- RUNNABLE, RUNNING or SLEEPING -/
def State.live : State → Bool
  | .sleeping | .runnable | .running => true
  | .unused | .embryo | .zombie => false

/-! ## What changes in the tree -/

section Table

variable {t : Table} {p i : Slot}

theorem ne_of_live (hp : (t p).state.live = true) (hi : (t i).state.live = false) : p ≠ i := by
  rintro rfl
  rw [hp] at hi
  cases hi

theorem used_of_live (hp : (t p).state.live = true) : (t p).state ≠ .unused := by
  intro hu
  rw [hu] at hp
  cases hp

end Table

/-- Nothing but that processes fall asleep, wake and run. -/
structure Same (t t' : Table) : Prop where
  state : ∀ q, (t' q).state = (t q).state ∨ (t q).state.live = true ∧ (t' q).state.live = true
  pid : ∀ q, (t' q).pid = (t q).pid
  born : ∀ q, (t' q).born = (t q).born
  parent : ∀ q, (t' q).parent = (t q).parent

theorem Same.refl (t : Table) : Same t t := ⟨fun _ => .inl rfl, fun _ => rfl, fun _ => rfl, fun _ => rfl⟩

/-- A change of one slot in other fields, or from one live state to another. -/
theorem Same.modify {t : Table} {p : Slot} {f : Proc → Proc}
    (hs : (f (t p)).state = (t p).state ∨ (t p).state.live = true ∧ (f (t p)).state.live = true)
    (hpid : (f (t p)).pid = (t p).pid) (hborn : (f (t p)).born = (t p).born)
    (hparent : (f (t p)).parent = (t p).parent) : Same t (t.modify p f) := by
  refine ⟨fun q => ?_, Table.modify_field hpid, Table.modify_field hborn, Table.modify_field hparent⟩
  rcases eq_or_ne q p with rfl | hq
  · rw [t.modify_self]
    exact hs
  · rw [t.modify_ne f hq]
    exact .inl rfl

theorem Same.wakeup1 (t : Table) (ch : Option Chan) : Same t (t.wakeup1 ch) := by
  constructor <;> intro q <;> simp only [Table.wakeup1] <;> split
  · rename_i hs
    rw [hs.1]
    exact .inr ⟨rfl, rfl⟩
  · exact .inl rfl
  all_goals rfl

theorem SchedMove.same {t t' : Table} (h : SchedMove t t') : Same t t' := by
  cases h with
  | stay => exact .refl t
  | wake ch => exact .wakeup1 t ch
  | run p hr => exact .modify (.inr ⟨by rw [hr]; rfl, rfl⟩) rfl rfl rfl

theorem SchedMove.killed {t t' : Table} (h : SchedMove t t') (q : Slot) : (t' q).killed = (t q).killed := by
  cases h with
  | stay => rfl
  | wake ch => exact (Roused.wakeup1 t ch).killed q
  | run p hr => exact Table.modify_field rfl q

/-- The child a thread is building, and whether it is linked to its parent. -/
def Base.makes : Base → Option (Slot × Bool)
  | .out => none
  | .forkStack _ np | .forkUnused np | .forkCopy _ np | .forkDrop np | .forkFill _ np => some (np, false)
  | .forkReady np => some (np, true)

def Held.makes : Held → Option (Slot × Bool)
  | .wakeup _ b | .yield b => b.makes
  | .ready np => some (np, true)
  | _ => none

def Pc.makes : Pc → Option (Slot × Bool)
  | .base b | .unlock b => b.makes
  | .acquire k | .held k => k.makes
  | .sched (.yield b) | .resume (.yield b) => b.makes
  | _ => none

/-- On the way into the locked part of `exit`. -/
def Pc.exits : Pc → Bool
  | .acquire (.exit _) | .held (.exit _) => true
  | _ => false

theorem Pc.child_of_makes {k : Pc} {np : Slot} {b : Bool} (h : k.makes = some (np, b)) : ∃ s, k.child = some (np, s) := by
  have hbase : ∀ b' : Base, b'.makes = some (np, b) → ∃ s, b'.child = some (np, s) := by
    intro b' hb
    cases b' <;> cases hb <;> exact ⟨_, rfl⟩
  have hheld : ∀ j : Held, j.makes = some (np, b) → ∃ s, j.child = some (np, s) := by
    intro j hj
    cases j with
    | wakeup _ b' | yield b' => exact hbase b' hj
    | ready np' =>
      cases hj
      exact ⟨_, rfl⟩
    | _ => cases hj
  cases k with
  | base b' | unlock b' => exact hbase b' h
  | acquire j | held j => exact hheld j h
  | sched r | resume r =>
    cases r with
    | yield b' => exact hbase b' h
    | _ => cases h
  | halted => cases h

/-- A process's move, as far as the tree is concerned. -/
inductive Change (p : Slot) (t : Table) (n : Ids) (k : Pc) (t' : Table) (n' : Ids) (k' : Pc) : Prop
  | same : Same t t' → (∀ q, (t' q).killed = (t q).killed) → n' = n → k'.makes = k.makes →
      (k'.exits = true → k.exits = true ∨ p ≠ initproc) → (∀ e, k.event t n = some e → ∃ x, e = .waitFail x) →
      Change p t n k t' n' k'
  | kill (pid : Int) : k = .held (.kill pid) → t' = t.kill pid → n' = n → k' = .unlock .out → Change p t n k t' n' k'
  | alloc (np : Slot) : k.makes = none → (t np).state = .unused →
      t' = t.modify np (.found n) → n' = n.next →
      k'.makes = some (np, false) → k.event t n = some (.create (t p).born n.births n.nextpid) → k'.exits = false →
      Change p t n k t' n' k'
  | giveUp (np : Slot) : k = .base (.forkUnused np) → t' = t.modify np (fun x => { x with state := .unused }) → n' = n →
      k' = .base .out → Change p t n k t' n' k'
  | fill (np : Slot) : k = .base (.forkFill p np) → t' = t.modify np (fun x => { x with parent := some p }) → n' = n →
      k' = .base (.forkReady np) → Change p t n k t' n' k'
  | ready (np : Slot) : k = .held (.ready np) → t' = t.modify np (fun x => { x with state := .runnable }) → n' = n →
      k' = .unlock .out → Change p t n k t' n' k'
  | exit : k = .held (.exit p) →
      t' = ((t.wakeup1 ((t p).parent.map .proc)).abandon p).modify p (fun x => { x with state := .zombie }) → n' = n →
      k' = .sched .exit → Change p t n k t' n' k'
  | reap (i : Slot) (b : Bool) : k = .held (.wait p i b) → (t i).parent = some p → (t i).state = .zombie →
      t' = t.modify i .freed → n' = n →
      k' = .unlock .out → Change p t n k t' n' k'

theorem Hop.makes {p : Slot} {t : Table} {k k' : Pc} (h : Hop p t k k') : k'.makes = k.makes := by
  cases h with
  | call hc => cases hc <;> rfl
  | switch r => cases r <;> rfl
  | _ => rfl

theorem Hop.exits {p : Slot} {t : Table} {k k' : Pc} (h : Hop p t k k') (he : k'.exits = true) :
    k.exits = true ∨ p ≠ initproc := by
  cases h with
  | call hc =>
    cases hc with
    | exit hne => exact .inr hne
    | _ => cases he
  | acquire j => exact .inl (by cases j <;> exact he)
  | _ => cases he

/-- Of the steps that leave the table alone only the failure of `wait` is seen. -/
theorem Hop.event {p : Slot} {t : Table} {n : Ids} {k k' : Pc} (h : Hop p t k k') (e : Event)
    (he : k.event t n = some e) : ∃ x, e = .waitFail x := by
  cases h with
  | allocNext hi hu => simp only [Pc.event, Held.event, hi, hu, dif_pos, if_false, reduceCtorEq] at he
  | allocFail hi => simp only [Pc.event, Held.event, hi, dif_neg, reduceCtorEq, not_false_eq_true] at he
  | waitSkip hi hpar => simp only [Pc.event, Held.event, hi, hpar, dif_pos, false_and, if_false, reduceCtorEq] at he
  | waitKid hi _ hz => simp only [Pc.event, Held.event, hi, hz, dif_pos, and_false, if_false, reduceCtorEq] at he
  | waitFail hi hfail =>
    simp only [Pc.event, Held.event, hi, hfail, dif_neg, not_false_eq_true, if_true] at he
    exact ⟨_, (Option.some.inj he).symm⟩
  | _ => cases he

theorem Move.change {p : Slot} {t t' : Table} {n n' : Ids} {k k' : Pc} (h : Move p t n k t' n' k')
    (hrun : ∀ j, k = .held j → (t p).state.live = true) : Change p t n k t' n' k' := by
  cases h with
  | hop hop => exact .same (.refl t) (fun _ => rfl) rfl hop.makes hop.exits hop.event
  | wake ch b => exact .same (.wakeup1 t ch) (Roused.wakeup1 t ch).killed rfl rfl nofun nofun
  | yield b | sleep ch =>
    exact .same (.modify (.inr ⟨hrun _ rfl, rfl⟩) rfl rfl rfl) (Table.modify_field rfl) rfl rfl nofun nofun
  | waitSleep hi hkilled =>
    refine .same (.modify (.inr ⟨hrun _ rfl, rfl⟩) rfl rfl rfl) (Table.modify_field rfl) rfl rfl nofun fun e he => ?_
    simp [Pc.event, Held.event, hi, hkilled] at he
  | kill pid => exact .kill pid rfl rfl rfl rfl
  | alloc hi hu => exact .alloc ⟨_, hi⟩ rfl hu rfl rfl rfl (by simp only [Pc.event, Held.event, hi, hu, dif_pos, if_true]) rfl
  | noStack np | stack np a | noPages np | pages np a | drop np | slept | waited | exec a =>
    exact .same (.modify (.inl rfl) rfl rfl rfl) (Table.modify_field rfl) rfl rfl nofun nofun
  | giveUp np => exact .giveUp np rfl rfl rfl rfl
  | fill np => exact .fill np rfl rfl rfl rfl
  | ready np => exact .ready np rfl rfl rfl rfl
  | exit => exact .exit rfl rfl rfl rfl
  | reap hi hparent hz => exact .reap ⟨_, hi⟩ _ rfl hparent hz rfl rfl rfl

theorem Exited.live {p : Slot} {t v : Table} (h : Exited p t v) {q : Slot} (hq : q ≠ p) (hl : (t q).state.live = true) :
    (v q).state.live = true := by
  rcases h.others q hq with hs | ⟨-, hs⟩
  · rw [hs]
    exact hl
  · rw [hs]
    rfl

theorem Exited.unused {p : Slot} {t v : Table} (h : Exited p t v) (hrun : (t p).state.live = true) (q : Slot) :
    (v q).state = .unused ↔ (t q).state = .unused := by
  rcases eq_or_ne q p with rfl | hq
  · rw [h.zombie]
    exact iff_of_false nofun (used_of_live hrun)
  · rcases h.others q hq with hs | ⟨hs, hs'⟩
    · rw [hs]
    · rw [hs, hs']
      exact iff_of_false nofun nofun

theorem Same.kill (t : Table) (pid : Int) : Same t (t.kill pid) := by
  rcases t.kill_cases pid with ⟨ht, -⟩ | ⟨p, -, -, ht⟩
  · rw [ht]
    exact .refl t
  · rw [ht]
    refine .modify ?_ rfl rfl rfl
    dsimp only
    split
    · rename_i hs
      rw [hs]
      exact .inr ⟨rfl, rfl⟩
    · exact .inl rfl

/-! ## The tree -/

/-- What holds of each process on its own. -/
structure Node (n : Ids) (p : Slot) (a : Proc) : Prop where
  lt : a.born < n.births
  pos : p ≠ initproc → a.state ≠ .unused → 1 < a.born
  pid : a.state ≠ .unused → a.pid = cInt a.born
  linked : p ≠ initproc → a.state ≠ .unused → a.state ≠ .embryo → a.parent ≠ none
  unused : a.state = .unused → a.parent = none

structure Tree (t : Table) (n : Ids) (pc : Slot → Pc) : Prop where
  init : (t initproc).state.live = true ∧ (t initproc).born = 1 ∧ (t initproc).parent = none
  node : ∀ p, Node n p (t p)
  inj : ∀ p q, (t p).state ≠ .unused → (t q).state ≠ .unused → (t p).born = (t q).born → p = q
  next : n.nextpid = cInt n.births
  /-- A parent is alive, and older. -/
  older : ∀ p q, (t p).parent = some q → (t q).state.live = true ∧ (t q).born < (t p).born
  making : ∀ q np b, (pc q).makes = some (np, b) →
    (t np).parent = (if b then some q else none) ∧ (t q).born < (t np).born
  exits : ∀ p, (pc p).exits = true → p ≠ initproc

/-- A process whose parent may have changed. -/
theorem Node.congr {n : Ids} {p : Slot} {a b : Proc} (h : Node n p a) (hborn : b.born = a.born) (hpid : b.pid = a.pid)
    (hunused : b.state = .unused ↔ a.state = .unused) (hembryo : a.state = .embryo → b.state = .embryo)
    (hsome : a.parent ≠ none → b.parent ≠ none) (hnone : a.parent = none → b.parent = none) : Node n p b where
  lt := by rw [hborn]; exact h.lt
  pos hp hu := by rw [hborn]; exact h.pos hp fun hu' => hu (hunused.mpr hu')
  pid hu := by rw [hpid, hborn]; exact h.pid fun hu' => hu (hunused.mpr hu')
  linked hp hu he := hsome (h.linked hp (fun hu' => hu (hunused.mpr hu')) fun he' => he (hembryo he'))
  unused hu := hnone (h.unused (hunused.mp hu))

/-- A slot is emptied. -/
theorem Node.empty {n : Ids} {p : Slot} {a b : Proc} (h : Node n p a) (hborn : b.born = a.born) (hu : b.state = .unused)
    (hnone : b.parent = none) : Node n p b where
  lt := by rw [hborn]; exact h.lt
  pos _ hne := absurd hu hne
  pid hne := absurd hu hne
  linked _ hne _ := absurd hu hne
  unused _ := hnone

section Steps

variable {t t' : Table} {n : Ids} {pc pc' : Slot → Pc}

/-- States in which a process is not alive are kept. -/
theorem Same.dead_iff (h : Same t t') {s : State} (hs : s.live = false) (q : Slot) :
    (t' q).state = s ↔ (t q).state = s := by
  rcases h.state q with hq | ⟨hl, hl'⟩
  · rw [hq]
  · constructor
    · rintro rfl
      rw [hl'] at hs
      cases hs
    · rintro rfl
      rw [hl] at hs
      cases hs

theorem Same.unused_iff (h : Same t t') (q : Slot) : (t' q).state = .unused ↔ (t q).state = .unused := h.dead_iff rfl q

theorem Same.embryo_iff (h : Same t t') (q : Slot) : (t' q).state = .embryo ↔ (t q).state = .embryo := h.dead_iff rfl q

theorem Same.live (h : Same t t') {q : Slot} (hq : (t q).state.live = true) : (t' q).state.live = true := by
  rcases h.state q with hs | ⟨-, hl'⟩
  · rw [hs]
    exact hq
  · exact hl'

theorem Tree.same (h : Tree t n pc) (hsame : Same t t') (hmakes : ∀ q m, (pc' q).makes = some m → (pc q).makes = some m)
    (hexits : ∀ q, (pc' q).exits = true → q ≠ initproc) : Tree t' n pc' where
  init := by
    rw [hsame.born, hsame.parent]
    exact ⟨hsame.live h.init.1, h.init.2⟩
  node p := (h.node p).congr (hsame.born p) (hsame.pid p) (hsame.unused_iff p) (hsame.embryo_iff p).mpr
    (by rw [hsame.parent]; exact id) (by rw [hsame.parent]; exact id)
  inj p q hp hq hborn := by
    rw [hsame.born, hsame.born] at hborn
    exact h.inj p q (fun hu => hp ((hsame.unused_iff p).mpr hu)) (fun hu => hq ((hsame.unused_iff q).mpr hu)) hborn
  next := h.next
  older p q hq := by
    rw [hsame.parent] at hq
    rw [hsame.born, hsame.born]
    exact ⟨hsame.live (h.older p q hq).1, (h.older p q hq).2⟩
  making q np b hm := by
    rw [hsame.parent, hsame.born, hsame.born]
    exact h.making q np b (hmakes q _ hm)
  exits := hexits

/-- What safety says about those who build a child. -/
structure Busy (t : Table) (pc : Slot → Pc) : Prop where
  embryo : ∀ q np b, (pc q).makes = some (np, b) → (t np).state = .embryo ∧ (t q).state.live = true
  sole : ∀ q q' np b b', (pc q).makes = some (np, b) → (pc q').makes = some (np, b') → q = q'

/-- Who is not alive is nobody's parent. -/
theorem Tree.no_child (h : Tree t n pc) {i : Slot} (hdead : (t i).state.live = false) (q : Slot) :
    (t q).parent ≠ some i := by
  intro hq
  rw [(h.older q i hq).1] at hdead
  cases hdead

theorem Inv.busy {nc : Nat} {S : St nc} (h : Inv S) : Busy S.procs S.pc := by
  refine ⟨fun q np b hm => ?_, fun q q' np b b' hm hm' => ?_⟩
  · obtain ⟨s, hs⟩ := Pc.child_of_makes hm
    refine ⟨(h.child q _ hs).embryo, ?_⟩
    by_cases hx : S.Executing q
    · rw [(h.slot q).active hx]
      cases hpc : S.pc q with
      | sched r =>
        rw [hpc] at hm
        cases r with
        | yield b' => rfl
        | _ => cases hm
      | _ => rfl
    · by_contra hdead
      have hnone := (h.slot q).idle hx (fun hr => hdead (by rw [hr]; rfl)) fun hr => hdead (by rw [hr]; rfl)
      rw [hs] at hnone
      cases hnone
  · obtain ⟨s, hs⟩ := Pc.child_of_makes hm
    obtain ⟨s', hs'⟩ := Pc.child_of_makes hm'
    exact h.sole q q' np s s' hs hs'

/-- The process that moves may change what it builds; the others go on as they were. -/
structure Others (p : Slot) (pc pc' : Slot → Pc) : Prop where
  makes : ∀ q, q ≠ p → ∀ m, (pc' q).makes = some m → (pc q).makes = some m
  exits : ∀ q, q ≠ p → (pc' q).exits = true → (pc q).exits = true

/-- What a slot that is not alive may become. -/
structure Fits (t : Table) (n : Ids) (i : Slot) (b : Proc) : Prop where
  node : Node n i b
  new : b.state ≠ .unused → ∀ q, q ≠ i → (t q).state ≠ .unused → (t q).born ≠ b.born
  older : ∀ r, b.parent = some r → r ≠ i ∧ (t r).state.live = true ∧ (t r).born < b.born

variable {p i : Slot} {n' : Ids} {f : Proc → Proc}

/-- A slot that is not alive is nobody's parent, and can be changed on its own. -/
theorem Tree.put (h : Tree t n pc) (hbusy : Busy t pc) (ho : Others p pc pc') (hdead : (t i).state.live = false)
    (hn : n.births ≤ n'.births) (hnext : n'.nextpid = cInt n'.births) (hf : Fits t n' i (f (t i))) (hp : (pc' p).exits = false)
    (hothers : ∀ q, q ≠ p → ∀ m b, (pc q).makes = some (m, b) → m ≠ i) (hself : ∀ m b, (pc' p).makes = some (m, b) →
      (t.modify i f m).parent = (if b then some p else none) ∧ (t.modify i f p).born < (t.modify i f m).born) :
    Tree (t.modify i f) n' pc' := by
  have hlive : ∀ q, (t q).state.live = true → q ≠ i := fun q hq => ne_of_live hq hdead
  have hi : t.modify i f i = f (t i) := t.modify_self i f
  have hne : ∀ q, q ≠ i → t.modify i f q = t q := fun q hq => t.modify_ne f hq
  constructor
  case init =>
    rw [hne _ (hlive _ h.init.1)]
    exact h.init
  case node =>
    intro q
    rcases eq_or_ne q i with rfl | hq
    · rw [hi]
      exact hf.node
    · rw [hne q hq]
      exact { h.node q with lt := lt_of_lt_of_le (h.node q).lt hn }
  case inj =>
    intro q r hq hr hqr
    rcases eq_or_ne q i with hqi | hqi <;> rcases eq_or_ne r i with hri | hri
    · exact hqi.trans hri.symm
    · rw [hqi, hi] at hq hqr
      rw [hne r hri] at hr hqr
      exact absurd hqr.symm (hf.new hq r hri hr)
    · rw [hne q hqi] at hq hqr
      rw [hri, hi] at hr hqr
      exact absurd hqr (hf.new hr q hqi hq)
    · rw [hne q hqi] at hq hqr
      rw [hne r hri] at hr hqr
      exact h.inj q r hq hr hqr
  case next => exact hnext
  case older =>
    intro q r hr
    rcases eq_or_ne q i with rfl | hqi
    · rw [hi] at hr ⊢
      obtain ⟨hri, hold⟩ := hf.older r hr
      rw [hne r hri]
      exact hold
    · rw [hne q hqi] at hr ⊢
      have hold := h.older q r hr
      rw [hne r (hlive r hold.1)]
      exact hold
  case making =>
    intro q m b hm
    rcases eq_or_ne q p with rfl | hqp
    · exact hself m b hm
    · have hm' := ho.makes q hqp _ hm
      rw [hne m (hothers q hqp m b hm'), hne q (hlive q (hbusy.embryo q m b hm').2)]
      exact h.making q m b hm'
  case exits =>
    intro q hq
    rcases eq_or_ne q p with rfl | hqp
    · rw [hp] at hq
      cases hq
    · exact h.exits q (ho.exits q hqp hq)

/-- `exit`: the children go to init, and the process is a ZOMBIE. -/
theorem Tree.exit (h : Tree t n pc) (ho : Others p pc pc') (hp : p ≠ initproc) (hrun : (t p).state.live = true)
    (hx : Exited p t t') (hk : (pc' p).makes = none) (hkx : (pc' p).exits = false) : Tree t' n pc' := by
  have hunused : ∀ q, (t' q).state ≠ .unused → (t q).state ≠ .unused :=
    fun q hq hu => hq ((hx.unused hrun q).mpr hu)
  constructor
  case init =>
    rw [hx.born, hx.parent, h.init.2.2, if_neg nofun]
    exact ⟨hx.live hp.symm h.init.1, h.init.2.1, rfl⟩
  case node =>
    intro q
    refine (h.node q).congr (hx.born q) (hx.pid q) (hx.unused hrun q) (fun he => ?_) (fun hsome => ?_) fun hnone => ?_
    · have hqp : q ≠ p := (ne_of_live hrun (by rw [he]; rfl)).symm
      rcases hx.others q hqp with hs | ⟨hs, -⟩
      · exact hs.trans he
      · rw [he] at hs
        cases hs
    · rw [hx.parent]
      split
      · nofun
      · exact hsome
    · rw [hx.parent, hnone, if_neg nofun]
  case inj =>
    intro q r hq hr hqr
    rw [hx.born, hx.born] at hqr
    exact h.inj q r (hunused q hq) (hunused r hr) hqr
  case next => exact h.next
  case older =>
    intro q r hqr
    rw [hx.parent] at hqr
    rw [hx.born, hx.born]
    split at hqr
    · -- an orphan: init is older than everybody else
      rename_i hqp
      cases hqr
      have hqi : q ≠ initproc := by
        rintro rfl
        nomatch h.init.2.2.symm.trans hqp
      have hqu : (t q).state ≠ .unused := fun hqu => nomatch ((h.node q).unused hqu).symm.trans hqp
      rw [h.init.2.1]
      exact ⟨hx.live hp.symm h.init.1, (h.node q).pos hqi hqu⟩
    · rename_i hqp
      have hold := h.older q r hqr
      have hrp : r ≠ p := by
        rintro rfl
        exact hqp hqr
      exact ⟨hx.live hrp hold.1, hold.2⟩
  case making =>
    intro q m b hm
    have hqp : q ≠ p := by
      rintro rfl
      rw [hk] at hm
      cases hm
    obtain ⟨hpar, hlt⟩ := h.making q m b (ho.makes q hqp _ hm)
    rw [hx.parent, hx.born, hx.born, if_neg]
    · exact ⟨hpar, hlt⟩
    · rw [hpar]
      split
      · exact fun he => hqp (Option.some.inj he)
      · nofun
  case exits =>
    intro q hq
    rcases eq_or_ne q p with rfl | hqp
    · rw [hkx] at hq
      cases hq
    · exact h.exits q (ho.exits q hqp hq)

end Steps

variable {nc : Nat} {S T : St nc} {l : Label nc} {p : Slot}

/-- A process that holds the lock, or is in the middle of `fork`, is RUNNING. -/
theorem Inv.running_held (h : Inv S) {c : Fin nc} (hx : (S.cpus c).exec = some p) (hk : (S.pc p).expects = .running) :
    (S.procs p).state.live = true := by
  rw [h.active hx, hk]
  rfl

theorem Tree.change (h : Tree S.procs S.ids S.pc) (hI : Inv S) (hx : (S.cpus l.cpu).exec = some p)
    (hm : Change p S.procs S.ids (S.pc p) T.procs T.ids (T.pc p)) (ho : Others p S.pc T.pc) :
    Tree T.procs T.ids T.pc := by
  have hbusy := hI.busy
  -- a child that is being built has one builder
  have hsole : ∀ np b, (S.pc p).makes = some (np, b) → ∀ q, q ≠ p → ∀ m b', (S.pc q).makes = some (m, b') → m ≠ np := by
    rintro np b hp q hq m b' hm' rfl
    exact hq (hbusy.sole q p m b' b hm' hp)
  have hnone : ∀ {k : Pc}, T.pc p = k → k.makes = none → ∀ {P : Slot → Bool → Prop} (m : Slot) (b : Bool),
      (T.pc p).makes = some (m, b) → P m b := by
    intro k hk hkm P m b hm'
    rw [hk, hkm] at hm'
    cases hm'
  have hkeep : Same S.procs T.procs → (∀ m, (T.pc p).makes = some m → (S.pc p).makes = some m) →
      ((T.pc p).exits = true → p ≠ initproc) → Tree T.procs S.ids T.pc := by
    intro hsame hmk hex
    refine h.same hsame (fun q m hq => ?_) fun q hq => ?_
    · rcases eq_or_ne q p with rfl | hqp
      · exact hmk m hq
      · exact ho.makes q hqp m hq
    · rcases eq_or_ne q p with rfl | hqp
      · exact hex hq
      · exact h.exits q (ho.exits q hqp hq)
  cases hm with
  | same hsame _ hn hmk hex _ =>
    rw [hn]
    exact hkeep hsame (fun m hq => hmk.symm.trans hq) fun hq => (hex hq).elim (h.exits p) id
  | kill pid hk ht hn hk' =>
    rw [hn]
    exact hkeep (ht ▸ .kill _ pid) (by rw [hk']; nofun) (by rw [hk']; nofun)
  | alloc np hkm hu ht hn hk' _ hex =>
    have hone := (h.node initproc).lt
    rw [h.init.2.1] at hone
    have hnone := (h.node np).unused hu
    rw [ht, hn]
    refine h.put hbusy ho (by rw [hu]; rfl) (Nat.le_succ _) ?_
      ⟨⟨Nat.lt_succ_self _, fun _ _ => hone, fun _ => h.next, fun _ _ he => absurd rfl he, nofun⟩, ?_, ?_⟩ hex ?_ ?_
    · rw [Ids.next, h.next, cInt_succ]
    · intro _ q _ _ hq
      exact absurd (h.node q).lt (by rw [hq]; exact lt_irrefl _)
    · intro r hr
      exact nomatch hnone.symm.trans hr
    · rintro q - m b hm' rfl
      rw [(hbusy.embryo q m b hm').1] at hu
      cases hu
    · intro m b hm'
      rw [hk'] at hm'
      cases hm'
      have hpn : p ≠ np := by
        rintro rfl
        have := (hI.slot p).active ⟨_, hx⟩
        rw [hu] at this
        exact Pc.expects_ne_unused _ this.symm
      rw [Table.modify_self, Table.modify_ne _ _ hpn]
      exact ⟨hnone, (h.node p).lt⟩
  | giveUp np hk ht hn hk' =>
    have hm' : (S.pc p).makes = some (np, false) := by rw [hk]; rfl
    have hemb := (hbusy.embryo p np false hm').1
    have hpar := (h.making p np false hm').1
    rw [ht, hn]
    refine h.put hbusy ho (by rw [hemb]; rfl) (le_refl _) h.next
      ⟨(h.node np).empty rfl rfl hpar, fun hne => absurd rfl hne, fun r hr => ?_⟩ (by rw [hk']; rfl) (hsole np false hm')
      (hnone hk' rfl)
    exact nomatch hpar.symm.trans hr
  | fill np hk ht hn hk' =>
    have hm' : (S.pc p).makes = some (np, false) := by rw [hk]; rfl
    have hemb := (hbusy.embryo p np false hm').1
    have hlive := (hbusy.embryo p np false hm').2
    have hlt := (h.making p np false hm').2
    have hpn : p ≠ np := by
      rintro rfl
      omega
    have hnu : (S.procs np).state ≠ .unused := by rw [hemb]; nofun
    rw [ht, hn]
    refine h.put hbusy ho (by rw [hemb]; rfl) (le_refl _) h.next
      ⟨{ h.node np with linked := nofun, unused := fun hu => absurd hu hnu }, ?_, ?_⟩ (by rw [hk']; rfl)
      (hsole np false hm') ?_
    · intro _ q hq hqu hqn
      exact hq (h.inj q np hqu hnu hqn)
    · intro r hr
      cases hr
      exact ⟨hpn, hlive, hlt⟩
    · intro m b hm''
      rw [hk'] at hm''
      cases hm''
      rw [Table.modify_self, Table.modify_ne _ _ hpn]
      exact ⟨rfl, hlt⟩
  | ready np hk ht hn hk' =>
    have hm' : (S.pc p).makes = some (np, true) := by rw [hk]; rfl
    have hemb := (hbusy.embryo p np true hm').1
    have hpar := (h.making p np true hm').1
    rw [if_pos rfl] at hpar
    have hnu : (S.procs np).state ≠ .unused := by rw [hemb]; nofun
    rw [ht, hn]
    refine h.put hbusy ho (by rw [hemb]; rfl) (le_refl _) h.next
      ⟨⟨(h.node np).lt, fun hp _ => (h.node np).pos hp hnu, fun _ => (h.node np).pid hnu, ?_, nofun⟩, ?_, ?_⟩
      (by rw [hk']; rfl) (hsole np true hm') (hnone hk' rfl)
    · intro _ _ _
      dsimp only
      rw [hpar]
      nofun
    · intro _ q hq hqu hqn
      exact hq (h.inj q np hqu hnu hqn)
    · intro r hr
      have hold := h.older np r hr
      refine ⟨?_, hold⟩
      rintro rfl
      exact absurd hold.2 (lt_irrefl _)
  | exit hk ht hn hk' =>
    rw [ht, hn]
    exact h.exit ho (h.exits p (by rw [hk]; rfl)) (hI.running_held hx (by rw [hk]; rfl)) (Table.exit_exited _ _ _)
      (by rw [hk']; rfl) (by rw [hk']; rfl)
  | reap i b hk hpar hz ht hn hk' =>
    rw [ht, hn]
    refine h.put hbusy ho (by rw [hz]; rfl) (le_refl _) h.next
      ⟨(h.node i).empty rfl rfl rfl, fun hne => absurd rfl hne, nofun⟩ (by rw [hk']; rfl) ?_ (hnone hk' rfl)
    rintro q - m b hm' rfl
    rw [(hbusy.embryo q m b hm').1] at hz
    cases hz

/-- How a step of the scheduler's machine looks to the tree and the history. -/
theorem moves_cases (hI : Inv S) (hs : (machine nc).step S l = some T) :
    (∃ p, (S.cpus l.cpu).exec = some p ∧ Change p S.procs S.ids (S.pc p) T.procs T.ids (T.pc p) ∧
      Others p S.pc T.pc ∧ observe S l = (S.pc p).event S.procs S.ids) ∨
    Same S.procs T.procs ∧ (∀ q, (T.procs q).killed = (S.procs q).killed) ∧ T.pc = S.pc ∧ T.ids = S.ids ∧
      observe S l = none := by
  cases moves hI hs with
  | sched hx hm hpc hn =>
    refine .inr ⟨hm.same, ?_, hpc, hn, by simp only [observe, hx]⟩
    exact hm.killed
  | proc p hx hm ho =>
    refine .inl ⟨p, hx, hm.change ?_, ⟨fun q hq m hm' => ?_, fun q hq he => ?_⟩, by simp only [observe, hx]⟩
    · intro j hj
      exact hI.running_held hx (by rw [hj]; rfl)
    · rcases ho q hq with hpc | ⟨-, hpc⟩ <;> rw [hpc] at hm'
      · exact hm'
      · cases hm'
    · rcases ho q hq with hpc | ⟨-, hpc⟩ <;> rw [hpc] at he
      · exact he
      · cases he

theorem Tree.step (h : Tree S.procs S.ids S.pc) (hI : Inv S) (hs : (machine nc).step S l = some T) :
    Tree T.procs T.ids T.pc := by
  rcases moves_cases hI hs with ⟨p, hx, hm, ho, -⟩ | ⟨hsame, -, hpc, hn, -⟩
  · exact h.change hI hx hm ho
  · rw [hpc, hn]
    exact h.same hsame (fun _ _ hq => hq) h.exits

theorem Tree.boot (kstack pgdir : Nat) :
    Tree (St.init nc kstack pgdir).procs (St.init nc kstack pgdir).ids (St.init nc kstack pgdir).pc := by
  have hinit : (St.init nc kstack pgdir).procs initproc = ⟨.runnable, some kstack, some pgdir, 1, 1, none, none, false⟩ := by
    simp only [St.init, if_true]
  have hother : ∀ p, p ≠ initproc → (St.init nc kstack pgdir).procs p = ⟨.unused, none, none, 0, 0, none, none, false⟩ :=
    fun p hp => if_neg hp
  have hused : ∀ p, ((St.init nc kstack pgdir).procs p).state ≠ .unused → p = initproc := by
    intro p hu
    by_contra hp
    rw [hother p hp] at hu
    exact hu rfl
  have hparent : ∀ p, ((St.init nc kstack pgdir).procs p).parent = none := by
    intro p
    rcases eq_or_ne p initproc with rfl | hp
    · rw [hinit]
    · rw [hother p hp]
  have hpc : ∀ p, ((St.init nc kstack pgdir).pc p).makes = none ∧ ((St.init nc kstack pgdir).pc p).exits = false := by
    intro p
    simp only [St.init]
    split <;> exact ⟨rfl, rfl⟩
  constructor
  case init => rw [hinit]; exact ⟨rfl, rfl, rfl⟩
  case node =>
    intro p
    rcases eq_or_ne p initproc with rfl | hp
    · rw [hinit]
      exact ⟨(by decide : 1 < 2), fun hp => absurd rfl hp, fun _ => (cInt_of_lt (n := 1) (by decide) (by decide)).symm,
        fun hp => absurd rfl hp, fun hu => by cases hu⟩
    · rw [hother p hp]
      exact ⟨(by decide : 0 < 2), fun _ hu => absurd rfl hu, fun hu => absurd rfl hu, fun _ hu => absurd rfl hu, fun _ => rfl⟩
  case inj => exact fun p q hp hq _ => (hused p hp).trans (hused q hq).symm
  case next => exact (cInt_of_lt (n := 2) (by decide) (by decide)).symm
  case older =>
    intro p q hq
    rw [hparent p] at hq
    cases hq
  case making =>
    intro q np b hm
    rw [(hpc q).1] at hm
    cases hm
  case exits =>
    intro p hp
    rw [(hpc p).2] at hp
    cases hp

/-! ## Ancestors -/

/-- `q` is the parent of `p`. -/
def IsParent (t : Table) (p q : Slot) : Prop := (t p).parent = some q

section Ancestors

variable {t : Table} {n : Ids} {pc : Slot → Pc} {q : Slot}

theorem Tree.older_of_ancestor (h : Tree t n pc) (ha : Relation.TransGen (IsParent t) p q) : (t q).born < (t p).born := by
  induction ha with
  | single hp => exact (h.older _ _ hp).2
  | tail _ hp ih => exact lt_trans (h.older _ _ hp).2 ih

/-- Going from parent to parent never leads back. -/
theorem Tree.acyclic (h : Tree t n pc) : ¬ Relation.TransGen (IsParent t) p p :=
  fun ha => lt_irrefl _ (h.older_of_ancestor ha)

theorem Tree.parent_of_made (h : Tree t n pc) (hp : p ≠ initproc) (hu : (t p).state ≠ .unused)
    (he : (t p).state ≠ .embryo) : ∃ q, (t p).parent = some q ∧ (t q).state.live = true := by
  obtain ⟨q, hq⟩ := Option.ne_none_iff_exists'.mp ((h.node p).linked hp hu he)
  exact ⟨q, hq, (h.older p q hq).1⟩

/-- It leads to init: by induction on the birth number, which gets smaller at each step. -/
theorem Tree.ancestry (h : Tree t n pc) (hu : (t p).state ≠ .unused) (he : (t p).state ≠ .embryo) :
    Relation.ReflTransGen (IsParent t) p initproc := by
  induction hb : (t p).born using Nat.strong_induction_on generalizing p with
  | h m ih =>
    rcases eq_or_ne p initproc with rfl | hp
    · exact .refl
    · obtain ⟨q, hq, hlive⟩ := h.parent_of_made hp hu he
      have hlt := (h.older p q hq).2
      rw [hb] at hlt
      refine .head hq (ih _ hlt ?_ ?_ rfl)
      · exact used_of_live hlive
      · intro hqe
        rw [hqe] at hlive
        cases hlive

end Ancestors

end Xv6.Sched
