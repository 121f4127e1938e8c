/-
  THE PROCESS TABLE, slot by slot.

  What the functions of `proc.c` that go over the whole table do to each process:

  1. **`Woken`, `Roused`** — `wakeup1` wakes, `exit` passes children on, and nothing else is touched;
  2. **`Table.kill_cases`** — `kill` changes the first slot with its pid, or none;
  3. **`Table.abandon_spec`, `Table.exit_exited`** — the loop of `exit`, by induction over the slots it has seen.
-/
import Xv6.Sched.Steps

namespace Xv6.Sched

open Function (update_self update_apply update_of_ne)

variable {t : Table} {p : Slot} {f : Proc → Proc} {a b : Proc}

theorem Table.modify_self (t : Table) (p : Slot) (f : Proc → Proc) : t.modify p f p = f (t p) :=
  update_self _ _ _

theorem Table.modify_ne (t : Table) {p q : Slot} (f : Proc → Proc) (h : q ≠ p) : t.modify p f q = t q :=
  update_of_ne h _ _

/-- What a change of one slot leaves alone. -/
theorem Table.modify_field {α : Type} {g : Proc → α} (h : g (f (t p)) = g (t p)) (q : Slot) :
    g (t.modify p f q) = g (t q) := by
  rcases eq_or_ne q p with rfl | hq
  · rw [t.modify_self, h]
  · rw [t.modify_ne f hq]

/-! ## Waking -/

/-- What others do to a process: nothing, or they wake it. -/
structure Woken (a b : Proc) : Prop where
  kstack : b.kstack = a.kstack
  pgdir : b.pgdir = a.pgdir
  state : b.state = a.state ∨ a.state = .sleeping ∧ b.state = .runnable

theorem Woken.refl (a : Proc) : Woken a a := ⟨rfl, rfl, .inl rfl⟩

theorem Woken.trans {d : Proc} (h : Woken a b) (h' : Woken b d) : Woken a d where
  kstack := h'.kstack.trans h.kstack
  pgdir := h'.pgdir.trans h.pgdir
  state := by
    rcases h.state with hab | ⟨ha, hb⟩
    · rw [← hab]
      exact h'.state
    · rcases h'.state with hbd | ⟨hb', -⟩
      · exact .inr ⟨ha, hbd.trans hb⟩
      · rw [hb] at hb'
        cases hb'

/-- A RUNNING process is not woken. -/
theorem Woken.running (h : Woken a b) (ha : a.state = .running) : b.state = .running := by
  rcases h.state with hs | ⟨hs, -⟩
  · exact hs.trans ha
  · rw [ha] at hs
    cases hs

theorem Table.modify_woken (hf : Woken (t p) (f (t p))) (q : Slot) : Woken (t q) (t.modify p f q) := by
  rcases eq_or_ne q p with rfl | hq
  · rw [t.modify_self]
    exact hf
  · rw [t.modify_ne f hq]
    exact .refl _

/-- Some processes are woken; the parents may change. -/
structure Roused (t t' : Table) : Prop where
  woken : ∀ q, Woken (t q) (t' q)
  pid : ∀ q, (t' q).pid = (t q).pid
  born : ∀ q, (t' q).born = (t q).born
  killed : ∀ q, (t' q).killed = (t q).killed
  chan : ∀ q, (t' q).chan = (t q).chan

theorem Roused.refl (t : Table) : Roused t t :=
  ⟨fun _ => .refl _, fun _ => rfl, fun _ => rfl, fun _ => rfl, fun _ => rfl⟩

theorem Roused.trans {t u v : Table} (h : Roused t u) (h' : Roused u v) : Roused t v where
  woken q := (h.woken q).trans (h'.woken q)
  pid q := (h'.pid q).trans (h.pid q)
  born q := (h'.born q).trans (h.born q)
  killed q := (h'.killed q).trans (h.killed q)
  chan q := (h'.chan q).trans (h.chan q)

theorem Roused.wakeup1 (t : Table) (ch : Option Chan) : Roused t (t.wakeup1 ch) := by
  constructor <;> intro q <;> simp only [Table.wakeup1] <;> split
  · rename_i hs
    exact ⟨rfl, rfl, .inr ⟨hs.1, rfl⟩⟩
  · exact .refl _
  all_goals rfl

theorem Table.wakeup1_parent (t : Table) (ch : Option Chan) (q : Slot) : (t.wakeup1 ch q).parent = (t q).parent := by
  simp only [Table.wakeup1]
  split <;> rfl

theorem Roused.link (p r : Slot) (t : Table) : Roused t (t.modify p fun x => { x with parent := some r }) where
  woken := Table.modify_woken ⟨rfl, rfl, .inl rfl⟩
  pid := Table.modify_field rfl
  born := Table.modify_field rfl
  killed := Table.modify_field rfl
  chan := Table.modify_field rfl

/-! ## `kill` -/

/-- What `kill(pid)` returns. -/
def Table.killReturn (t : Table) (pid : Int) : Int :=
  match (List.finRange NPROC).find? fun p => (t p).pid = pid with
  | none => -1
  | some _ => 0

/-- `kill` wakes, and sets `killed` of the first slot with that pid. -/
theorem Table.kill_cases (t : Table) (pid : Int) : (t.kill pid = t ∧ t.killReturn pid = -1 ∧ ∀ q, (t q).pid ≠ pid) ∨
    ∃ p, (t p).pid = pid ∧ t.killReturn pid = 0 ∧ t.kill pid = t.modify p fun x =>
      { x with killed := true, state := if x.state = .sleeping then .runnable else x.state } := by
  unfold Table.kill Table.killReturn
  cases hf : (List.finRange NPROC).find? fun p => (t p).pid = pid with
  | none =>
    refine .inl ⟨rfl, rfl, fun q hq => ?_⟩
    exact absurd hq (by simpa using List.find?_eq_none.mp hf q (List.mem_finRange q))
  | some p => exact .inr ⟨p, by simpa using List.find?_some hf, rfl, rfl⟩

theorem Table.kill_woken (t : Table) (pid : Int) (q : Slot) : Woken (t q) (t.kill pid q) := by
  rcases t.kill_cases pid with ⟨ht, -⟩ | ⟨p, -, -, ht⟩ <;> rw [ht]
  · exact .refl _
  · refine Table.modify_woken ⟨rfl, rfl, ?_⟩ q
    dsimp only
    split
    · rename_i hs
      exact .inr ⟨hs, rfl⟩
    · exact .inl rfl

/-! ## `exit` -/

theorem Table.abandonOne_spec (t : Table) (cur p : Slot) : Roused t (t.abandonOne cur p) ∧
    ∀ q, (t.abandonOne cur p q).parent = if q = p ∧ (t q).parent = some cur then some initproc else (t q).parent := by
  have hlink : ∀ q, ((t.modify p fun x => { x with parent := some initproc }) q).parent =
      if q = p then some initproc else (t q).parent := by
    intro q
    simp only [Table.modify, update_apply]
    split <;> rfl
  unfold Table.abandonOne
  split
  · rename_i hparent
    have hif : ∀ q, (if q = p then some initproc else (t q).parent) =
        if q = p ∧ (t q).parent = some cur then some initproc else (t q).parent := by
      intro q
      rcases eq_or_ne q p with rfl | hq
      · rw [if_pos rfl, if_pos ⟨rfl, hparent⟩]
      · rw [if_neg hq, if_neg fun e => hq e.1]
    dsimp only
    split
    · refine ⟨(Roused.link p initproc t).trans (.wakeup1 _ _), fun q => ?_⟩
      rw [Table.wakeup1_parent, hlink, hif]
    · refine ⟨.link p initproc t, fun q => ?_⟩
      rw [hlink, hif]
  · rename_i hparent
    refine ⟨.refl t, fun q => ?_⟩
    rw [if_neg]
    rintro ⟨rfl, hq⟩
    exact hparent hq

/-- The loop, over the slots of a list: those among them that had `cur` as their parent have init. -/
theorem Table.abandon_list (cur : Slot) (ps : List Slot) (t : Table) :
    Roused t (ps.foldl (fun t p => t.abandonOne cur p) t) ∧
    ∀ q, ((ps.foldl (fun t p => t.abandonOne cur p) t) q).parent =
      if q ∈ ps ∧ (t q).parent = some cur then some initproc else (t q).parent := by
  induction ps generalizing t with
  | nil => exact ⟨.refl t, fun q => by simp⟩
  | cons p ps ih =>
    obtain ⟨hone, hparent⟩ := Table.abandonOne_spec t cur p
    obtain ⟨hrest, hparents⟩ := ih (t.abandonOne cur p)
    refine ⟨hone.trans hrest, fun q => ?_⟩
    simp only [List.foldl_cons, hparents, hparent, List.mem_cons]
    by_cases hq : (t q).parent = some cur
    · rcases eq_or_ne q p with rfl | hqp
      · simp [hq]
      · simp [hq, hqp]
    · simp [hq]

theorem Table.abandon_spec (t : Table) (cur : Slot) : Roused t (t.abandon cur) ∧
    ∀ q, (t.abandon cur q).parent = if (t q).parent = some cur then some initproc else (t q).parent := by
  obtain ⟨h, hparent⟩ := Table.abandon_list cur (List.finRange NPROC) t
  refine ⟨h, fun q => ?_⟩
  rw [Table.abandon, hparent]
  simp only [List.mem_finRange, true_and]

/-- The locked part of `exit`, up to `curproc->state = ZOMBIE`. -/
theorem Table.exit_spec (t : Table) (cur : Slot) (ch : Option Chan) : Roused t ((t.wakeup1 ch).abandon cur) ∧
    ∀ q, ((t.wakeup1 ch).abandon cur q).parent = if (t q).parent = some cur then some initproc else (t q).parent := by
  obtain ⟨h, hparent⟩ := Table.abandon_spec (t.wakeup1 ch) cur
  refine ⟨(Roused.wakeup1 t ch).trans h, fun q => ?_⟩
  rw [hparent, Table.wakeup1_parent]

/-- The locked part of `exit` of `p`, slot by slot. -/
structure Exited (p : Slot) (t v : Table) : Prop where
  zombie : (v p).state = .zombie
  others : ∀ q, q ≠ p → (v q).state = (t q).state ∨ (t q).state = .sleeping ∧ (v q).state = .runnable
  pid : ∀ q, (v q).pid = (t q).pid
  born : ∀ q, (v q).born = (t q).born
  killed : ∀ q, (v q).killed = (t q).killed
  chan : ∀ q, (v q).chan = (t q).chan
  parent : ∀ q, (v q).parent = if (t q).parent = some p then some initproc else (t q).parent

theorem Table.exit_exited (t : Table) (p : Slot) (ch : Option Chan) :
    Exited p t (((t.wakeup1 ch).abandon p).modify p fun x => { x with state := .zombie }) := by
  obtain ⟨hr, hparent⟩ := t.exit_spec p ch
  generalize (t.wakeup1 ch).abandon p = u at hr hparent
  constructor
  case zombie => rw [u.modify_self]
  case others =>
    intro q hq
    rw [u.modify_ne _ hq]
    exact (hr.woken q).state
  case pid => exact fun q => (Table.modify_field rfl q).trans (hr.pid q)
  case born => exact fun q => (Table.modify_field rfl q).trans (hr.born q)
  case killed => exact fun q => (Table.modify_field rfl q).trans (hr.killed q)
  case chan => exact fun q => (Table.modify_field rfl q).trans (hr.chan q)
  case parent => exact fun q => (Table.modify_field rfl q).trans (hparent q)

end Xv6.Sched
