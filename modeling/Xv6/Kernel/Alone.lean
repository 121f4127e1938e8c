/-
  CALLS THAT RUN ALONE — what the functions on inodes do when nobody else is in a call.

  `alone p c` is the code `c` of process `p`, run to its end (`Code.run`): an error `none` is a call that goes to sleep, an
  error `some e` a panic.  Each function gets one lemma that says all its outcomes: the state in which it returns, and
  under which conditions it does not.

  * `ilock_meets`, `iunlock_meets`, `iput_meets` — locks and references of one entry of the inode cache.
  * `Walking` — the references that a call holds, and the inode it has locked, relative to the state in which it began.
-/
import Mathlib
import Xv6.Kernel.Calls

namespace Xv6.Kernel

open Threads Outcome
open Function (update_idem update_self update_of_ne)

variable {s t u : St} {p : Pid} {ip : Slot} {α β : Type}

/-- The code of process `p`, with nobody else around. -/
def alone (p : Pid) (c : Prog α) : Outcome.Prog St (Option Panic) α := c.run fun s a => exec s p a

/-! ## Sequencing -/

theorem alone_bind (c : Prog α) (f : α → Prog β) : alone p (c >>= f) = alone p c >>= fun x => alone p (f x) :=
  Code.run_bind c f

variable {a : Act} {f : a.R → Prog β}

theorem alone_act {r : a.R} (h : exec s p a = .ok t r) : alone p (act a >>= f) s = alone p (f r) t := by
  show (Code.act a f).run _ s = _
  simp only [Code.run, h]
  rfl

variable {c : Prog α} {e : Panic}

section Rules

variable {Q : α → St → Prop} {R : β → St → Prop} {E : Option Panic → Prop}

/-- **An action, and what follows.** -/
theorem meets_act (hok : ∀ t r, exec s p a = .ok t r → Meets (alone p (f r) t) R E)
    (hblocked : exec s p a = .blocked → E none) (hhalt : ∀ e, exec s p a = .halt e → E (some e)) :
    Meets (alone p (act a >>= f) s) R E := by
  show Meets ((Code.act a f).run (fun s a => exec s p a) s) R E
  simp only [Code.run]
  cases h : exec s p a with
  | ok t r => exact hok t r h
  | blocked => exact hblocked h
  | halt e => exact hhalt e h

/-- An action that always succeeds. -/
theorem meets_act_ok {r : a.R} (h : exec s p a = .ok t r)
    (hrest : Meets (alone p (f r) t) R E) : Meets (alone p (act a >>= f) s) R E := by
  rw [alone_act h]
  exact hrest

theorem meets_bind {f : α → Prog β} (hc : Meets (alone p c s) Q E)
    (hf : ∀ x t, Q x t → Meets (alone p (f x) t) R E) : Meets (alone p (c >>= f) s) R E := by
  rw [alone_bind]
  exact hc.bind hf fun _ he => he

theorem meets_of_map {g : α → β} (h : Meets (alone p (c >>= fun x => pure (g x)) s) R E) :
    Meets (alone p c s) (fun x t => R (g x) t) E := by
  rw [alone_bind] at h
  cases hc : alone p c s with
  | ok r =>
    rw [bind_of_ok (a := r.1) (t := r.2) hc] at h
    exact h
  | error e =>
    rw [bind_of_error hc] at h
    exact h

theorem meets_ret {x : α} (h : Q x s) : Meets (alone p (pure x) s) Q E := h

theorem meets_panic (h : E (some e)) : Meets (alone p (panic e : Prog α) s) Q E := h

end Rules

/-! ## The functions on one entry -/

/-- The entry once it is locked. -/
def St.locked (s : St) (p : Pid) (ip : Slot) : St :=
  s.setEntry ip { s.icache ip with lock := some p, valid := true }

def St.unlocked (s : St) (ip : Slot) : St := s.setEntry ip { s.icache ip with lock := none }

/-- The test of `iput`. -/
def St.last (s : St) (ip : Slot) : Prop :=
  (s.icache ip).valid = true ∧ (s.inoOf ip).nlink = 0 ∧ (s.icache ip).ref = 1

instance (s : St) (ip : Slot) : Decidable (s.last ip) := inferInstanceAs (Decidable (_ ∧ _))

/-- After `iput`: one reference less, and the inode freed if that was the last one and it has no name. -/
def St.dropped (s : St) (p : Pid) (ip : Slot) : St :=
  if s.last ip then
    ((s.setIno (s.icache ip).inum { s.inoOf ip with type := .free, data := [] }).setEntry ip
      { s.icache ip with lock := none, valid := false, ref := (s.icache ip).ref - 1 }).unhold p ip
  else (s.setEntry ip { s.icache ip with lock := none, ref := (s.icache ip).ref - 1 }).unhold p ip

theorem setEntry_setEntry (v w : Entry) : (s.setEntry ip v).setEntry ip w = s.setEntry ip w := by
  simp only [St.setEntry, update_idem]

theorem setEntry_self (v : Entry) : (s.setEntry ip v).icache ip = v := update_self ..

variable {site : Site}

theorem exec_acquiresleep_blocked (h : exec s p (.acquiresleep ip site) = .blocked) : (s.icache ip).lock ≠ none := by
  intro hlock
  simp only [exec, hlock, Option.isSome_none, Bool.false_eq_true, if_false, reduceCtorEq] at h

theorem exec_acquiresleep_halt (h : exec s p (.acquiresleep ip site) = .halt e) : False := by
  unfold exec at h
  dsimp only at h
  split at h <;> cases h

theorem exec_load_halt (h : exec s p (.load ip) = .halt e) :
    e = .noType ∧ (s.icache ip).valid = false ∧ (s.inoOf ip).type = .free := by
  unfold exec at h
  dsimp only at h
  split at h
  · cases h
  · rename_i hvalid
    split at h
    · rename_i hfree
      cases h
      exact ⟨rfl, by simpa using hvalid, hfree⟩
    · cases h

theorem exec_load_blocked (h : exec s p (.load ip) = .blocked) : False := by
  unfold exec at h
  dsimp only at h
  split at h
  · cases h
  · split at h <;> cases h

theorem ilock_meets (s : St) (p : Pid) (ip : Slot) : Meets (alone p (ilock ip) s)
    (fun _ t => (s.icache ip).lock = none ∧ 1 ≤ (s.icache ip).ref ∧ t = s.locked p ip)
    (fun e => e = some .ilock ∧ (s.icache ip).ref < 1 ∨ e = none ∧ (s.icache ip).lock ≠ none ∨
      e = some .noType ∧ (s.icache ip).valid = false ∧ (s.inoOf ip).type = .free) := by
  unfold ilock
  apply meets_act_ok (r := (s.icache ip).ref) rfl
  split
  · rename_i href
    exact meets_panic (.inl ⟨rfl, href⟩)
  rename_i href
  apply meets_act
  · intro t r hacquire
    obtain ⟨hlock, rfl⟩ := exec_acquiresleep hacquire
    rw [← Code.bind_ret (act (.load ip))]
    apply meets_act
    · intro u r hload
      apply meets_ret
      refine ⟨hlock, Int.not_lt.mp href, ?_⟩
      rw [St.locked]
      rcases exec_load hload with ⟨hvalid, rfl⟩ | ⟨-, rfl⟩
      · rw [setEntry_self] at hvalid
        show s.setEntry ip ⟨_, _, _, some p, (s.icache ip).valid⟩ = s.setEntry ip ⟨_, _, _, some p, true⟩
        rw [hvalid]
      · rw [setEntry_setEntry, setEntry_self]
    · intro hload
      exact absurd hload fun h => exec_load_blocked h
    · intro e hload
      obtain ⟨rfl, hvalid, hfree⟩ := exec_load_halt hload
      rw [setEntry_self] at hvalid
      simp only [St.inoOf, setEntry_self] at hfree
      exact .inr (.inr ⟨rfl, hvalid, hfree⟩)
  · intro hblocked
    exact .inr (.inl ⟨rfl, exec_acquiresleep_blocked hblocked⟩)
  · intro e hhalt
    exact absurd hhalt fun h => exec_acquiresleep_halt h

theorem iunlock_meets (s : St) (p : Pid) (ip : Slot) : Meets (alone p (iunlock ip) s)
    (fun _ t => (s.icache ip).lock = some p ∧ 1 ≤ (s.icache ip).ref ∧ t = s.unlocked ip)
    (fun e => e = some .iunlock ∧ ((s.icache ip).lock ≠ some p ∨ (s.icache ip).ref < 1)) := by
  unfold iunlock
  apply meets_act_ok (r := decide ((s.icache ip).lock = some p)) rfl
  apply meets_act_ok (r := (s.icache ip).ref) rfl
  split
  · rename_i h
    apply meets_panic
    refine ⟨rfl, h.imp (fun hd => ?_) id⟩
    simpa using hd
  · rename_i h
    obtain ⟨hlock, href⟩ := not_or.mp h
    rw [← Code.bind_ret (act (.releasesleep ip))]
    apply meets_act_ok rfl
    apply meets_ret
    exact ⟨by simpa using hlock, Int.not_lt.mp href, rfl⟩

theorem iput_meets (s : St) (p : Pid) (ip : Slot) (site : Site) : Meets (alone p (iput ip site) s)
    (fun _ t => (s.icache ip).lock = none ∧ t = s.dropped p ip) (fun e => e = none ∧ (s.icache ip).lock ≠ none) := by
  unfold iput
  apply meets_act
  · intro t r hacquire
    obtain ⟨hlock, rfl⟩ := exec_acquiresleep hacquire
    have hlast : (s.setEntry ip { s.icache ip with lock := some p }).last ip ↔ s.last ip := by
      simp only [St.last, St.inoOf, setEntry_self]
      rfl
    apply meets_act_ok (r := decide ((s.setEntry ip { s.icache ip with lock := some p }).last ip)) rfl
    rw [St.dropped]
    by_cases h : s.last ip
    · rw [if_pos (decide_eq_true (hlast.mpr h)), if_pos h]
      apply meets_act_ok rfl
      apply meets_act_ok rfl
      rw [← Code.bind_ret (act (.deref ip))]
      apply meets_act_ok rfl
      apply meets_ret
      refine ⟨hlock, ?_⟩
      simp only [St.setEntry, St.setIno, St.unhold, St.inoOf, update_self, update_idem]
    · rw [if_neg (by simpa using fun hc => h (hlast.mp hc)), if_neg h]
      apply meets_act_ok rfl
      rw [← Code.bind_ret (act (.deref ip))]
      apply meets_act_ok rfl
      apply meets_ret
      refine ⟨hlock, ?_⟩
      simp only [setEntry_setEntry, setEntry_self]
  · intro hblocked
    exact ⟨rfl, exec_acquiresleep_blocked hblocked⟩
  · intro e hhalt
    exact absurd hhalt fun h => exec_acquiresleep_halt h

/-! ## References and locks of a call -/

/-- One reference to `ip`. -/
def one (ip : Slot) : Slot → Int := fun e => if e = ip then 1 else 0

theorem one_self (ip : Slot) : one ip ip = 1 := if_pos rfl

theorem one_ne {e : Slot} (h : e ≠ ip) : one ip e = 0 := if_neg h

theorem one_nonneg (ip e : Slot) : 0 ≤ one ip e := by
  unfold one
  split <;> decide

/-- Since `s`, process `p` has got the references `r` and the lock of `l`; files and processes are as they were, and so
    are the inodes that others refer to. -/
structure Walking (s t : St) (p : Pid) (r : Slot → Int) (l : Option Slot) : Prop where
  ref : ∀ e, (t.icache e).ref = (s.icache e).ref + r e
  nonneg : ∀ e, 0 ≤ r e
  lock : ∀ e, (t.icache e).lock = if l = some e then some p else (s.icache e).lock
  ident : ∀ e, 0 < (s.icache e).ref →
    (t.icache e).dev = (s.icache e).dev ∧ (t.icache e).inum = (s.icache e).inum
  ftable : t.ftable = s.ftable
  procs : t.procs = s.procs
  outstanding : t.outstanding = s.outstanding

/-- The entries stand for the inodes they stood for. -/
def Steady (t u : St) : Prop :=
  ∀ e, (u.icache e).dev = (t.icache e).dev ∧ (u.icache e).inum = (t.icache e).inum

theorem Steady.trans (h : Steady s t) (h' : Steady t u) : Steady s u :=
  fun e => ⟨(h' e).1.trans (h e).1, (h' e).2.trans (h e).2⟩

theorem Steady.inoOf (h : Steady t u) (hino : u.ino = t.ino) (ip : Slot) : u.inoOf ip = t.inoOf ip := by
  rw [St.inoOf, St.inoOf, hino, (h ip).2]

/-- An entry is rewritten for the same inode. -/
theorem steady_setEntry (v : Entry) (hdev : v.dev = (s.icache ip).dev) (hinum : v.inum = (s.icache ip).inum) :
    Steady s (s.setEntry ip v) := by
  intro e
  by_cases he : e = ip
  · rw [he, setEntry_self]
    exact ⟨hdev, hinum⟩
  · rw [St.setEntry_icache, update_of_ne he]
    exact ⟨rfl, rfl⟩

theorem steady_dropped (s : St) (p : Pid) (ip : Slot) : Steady s (s.dropped p ip) := by
  unfold St.dropped
  split
  · exact steady_setEntry (s := s.setIno _ _) _ rfl rfl
  · exact steady_setEntry _ rfl rfl

/-- An inode that has a name, or other references, is not freed. -/
theorem dropped_ino (h : ¬ s.last ip) : (s.dropped p ip).ino = s.ino := by
  rw [St.dropped, if_neg h]
  rfl

namespace Walking

variable {r : Slot → Int} {l : Option Slot}

theorem refl (s : St) (p : Pid) : Walking s s p 0 none where
  ref _ := (Int.add_zero _).symm
  nonneg _ := le_refl _
  lock _ := (if_neg (Option.some_ne_none _).symm).symm
  ident _ _ := ⟨rfl, rfl⟩
  ftable := rfl
  procs := rfl
  outstanding := rfl

/-- An entry is rewritten: another count, another lock. -/
theorem setEntry (h : Walking s t p r l) (v : Entry) {r' : Slot → Int} {l' : Option Slot}
    (href : v.ref = (s.icache ip).ref + r' ip) (hr : ∀ e, e ≠ ip → r' e = r e) (hnonneg : 0 ≤ r' ip)
    (hlock : v.lock = if l' = some ip then some p else (s.icache ip).lock)
    (hl : ∀ e, e ≠ ip → (l' = some e ↔ l = some e))
    (hident : 0 < (s.icache ip).ref → v.dev = (t.icache ip).dev ∧ v.inum = (t.icache ip).inum) :
    Walking s (t.setEntry ip v) p r' l' where
  ref e := by
    by_cases he : e = ip
    · rw [he, setEntry_self]
      exact href
    · rw [hr e he, ← h.ref e]
      exact congrArg Entry.ref (update_of_ne he _ _)
  nonneg e := by
    by_cases he : e = ip
    · rw [he]
      exact hnonneg
    · rw [hr e he]
      exact h.nonneg e
  lock e := by
    by_cases he : e = ip
    · rw [he, setEntry_self]
      exact hlock
    · have hold := h.lock e
      simp only [← hl e he] at hold
      exact (congrArg Entry.lock (update_of_ne he _ _)).trans hold
  ident e hpos := by
    by_cases he : e = ip
    · rw [he] at hpos ⊢
      rw [setEntry_self]
      obtain ⟨hdev, hinum⟩ := hident hpos
      obtain ⟨hdev', hinum'⟩ := h.ident ip hpos
      exact ⟨hdev.trans hdev', hinum.trans hinum'⟩
    · have hsame : (t.setEntry ip v).icache e = t.icache e := update_of_ne he _ _
      rw [hsame]
      exact h.ident e hpos
  ftable := h.ftable
  procs := h.procs
  outstanding := h.outstanding

/-- What is held is only a record. -/
theorem hold (h : Walking s t p r l) (q : Pid) (ip : Slot) : Walking s (t.hold q ip) p r l :=
  ⟨h.ref, h.nonneg, h.lock, h.ident, h.ftable, h.procs, h.outstanding⟩

theorem unhold (h : Walking s t p r l) (q : Pid) (ip : Slot) : Walking s (t.unhold q ip) p r l :=
  ⟨h.ref, h.nonneg, h.lock, h.ident, h.ftable, h.procs, h.outstanding⟩

theorem setIno (h : Walking s t p r l) (n : Nat) (v : Ino) : Walking s (t.setIno n v) p r l :=
  ⟨h.ref, h.nonneg, h.lock, h.ident, h.ftable, h.procs, h.outstanding⟩

/-- **`ilock`** -/
theorem locked (h : Walking s t p r none) : Walking s (t.locked p ip) p r (some ip) := by
  refine h.setEntry _ (h.ref ip) (fun e _ => rfl) (h.nonneg ip) ?_ ?_ fun _ => ⟨rfl, rfl⟩
  · rw [if_pos rfl]
  · intro e he
    constructor
    · intro heq
      exact absurd (Option.some.inj heq).symm he
    · intro hnone
      cases hnone

/-- **`iunlock`**; the lock was free before. -/
theorem unlocked (h : Walking s t p r (some ip)) (hfree : (s.icache ip).lock = none) :
    Walking s (t.unlocked ip) p r none := by
  refine h.setEntry _ (h.ref ip) (fun e _ => rfl) (h.nonneg ip) ?_ ?_ fun _ => ⟨rfl, rfl⟩
  · rw [if_neg (Option.some_ne_none _).symm, hfree]
  · intro e he
    constructor
    · intro hnone
      cases hnone
    · intro heq
      exact absurd (Option.some.inj heq).symm he

/-- **`iput`** -/
theorem dropped (h : Walking s t p r none) (hlock : (t.icache ip).lock = none) (hr : 1 ≤ r ip) :
    Walking s (t.dropped p ip) p (r - one ip) none := by
  have href : (t.icache ip).ref - 1 = (s.icache ip).ref + (r ip - one ip ip) := by
    rw [h.ref ip, one_self]
    omega
  have hother : ∀ e, e ≠ ip → r e - one ip e = r e := by
    intro e he
    rw [one_ne he, Int.sub_zero]
  have hnonneg : 0 ≤ r ip - one ip ip := by
    rw [one_self]
    omega
  have hfree : none = if none = some ip then some p else (s.icache ip).lock := by
    have hold := h.lock ip
    rw [if_neg (Option.some_ne_none _).symm] at hold ⊢
    rw [← hold, hlock]
  unfold St.dropped
  split
  · refine Walking.unhold ?_ p ip
    exact (h.setIno _ _).setEntry _ href hother hnonneg hfree (fun _ _ => Iff.rfl) fun _ => ⟨rfl, rfl⟩
  · refine Walking.unhold ?_ p ip
    exact h.setEntry _ href hother hnonneg hfree (fun _ _ => Iff.rfl) fun _ => ⟨rfl, rfl⟩

/-- One more reference, to an entry that is rewritten for it. -/
theorem refer (h : Walking s t p r l) (v : Entry) (href : v.ref = (t.icache ip).ref + 1)
    (hlock : v.lock = (t.icache ip).lock)
    (hident : 0 < (s.icache ip).ref → v.dev = (t.icache ip).dev ∧ v.inum = (t.icache ip).inum) :
    Walking s ((t.setEntry ip v).hold p ip) p (r + one ip) l := by
  refine Walking.hold (h.setEntry v ?_ (fun e he => ?_) ?_ (hlock.trans (h.lock ip)) (fun _ _ => Iff.rfl) hident) p ip
  · rw [href, h.ref ip, Pi.add_apply, one_self, Int.add_assoc]
  · rw [Pi.add_apply, one_ne he, Int.add_zero]
  · rw [Pi.add_apply, one_self]
    exact Int.add_nonneg (h.nonneg ip) Int.one_nonneg

/-- **`iget`**: one more reference, to an entry that stands for the inode. -/
theorem iget (h : Walking s t p r l) {dev inum : Nat} (hget : exec t p (.iget dev inum) = .ok u ip) :
    Walking s u p (r + one ip) l ∧ u.ino = t.ino ∧ (u.icache ip).inum = inum ∧
      ∀ e, (t.icache e).ref ≠ 0 → (u.icache e).dev = (t.icache e).dev ∧ (u.icache e).inum = (t.icache e).inum := by
  rcases exec_iget hget with ⟨hcached, rfl⟩ | ⟨-, hempty, rfl⟩
  · obtain ⟨-, -, hinum⟩ := cached_some hcached
    refine ⟨h.refer _ rfl rfl fun _ => ⟨rfl, rfl⟩, rfl, ?_, fun e _ => ?_⟩
    · show ((t.setEntry ip _).icache ip).inum = inum
      rw [setEntry_self]
      exact hinum
    · have hsteady : Steady t (t.setEntry ip { t.icache ip with ref := (t.icache ip).ref + 1 }) :=
        steady_setEntry _ rfl rfl
      exact hsteady e
  · have hzero := empty_some hempty
    refine ⟨h.refer _ ?_ rfl fun hpos => ?_, rfl, ?_, fun e hne => ?_⟩
    · rw [hzero]
      rfl
    · have hr := h.nonneg ip
      rw [h.ref ip] at hzero
      omega
    · show ((t.setEntry ip _).icache ip).inum = inum
      rw [setEntry_self]
    · have he : e ≠ ip := by
        rintro rfl
        exact hne hzero
      show ((t.setEntry ip _).icache e).dev = _ ∧ ((t.setEntry ip _).icache e).inum = _
      rw [St.setEntry_icache, update_of_ne he]
      exact ⟨rfl, rfl⟩

/-- **`idup`** -/
theorem idup (h : Walking s t p r l) (hdup : exec t p (.idup ip) = .ok u ()) :
    Walking s u p (r + one ip) l ∧ u.ino = t.ino ∧ Steady t u := by
  cases hdup
  exact ⟨h.refer _ rfl rfl fun _ => ⟨rfl, rfl⟩, rfl, steady_setEntry _ rfl rfl⟩

theorem ilock (h : Walking s t p r none) (ip : Slot) : Meets (alone p (ilock ip) t)
    (fun _ u => Walking s u p r (some ip) ∧ (s.icache ip).lock = none ∧ 1 ≤ (t.icache ip).ref ∧ u.ino = t.ino ∧
      Steady t u)
    (fun e => e = some .ilock ∧ (t.icache ip).ref < 1 ∨ e = none ∧ (t.icache ip).lock ≠ none ∨
      e = some .noType ∧ (t.icache ip).valid = false ∧ (t.inoOf ip).type = .free) := by
  refine (ilock_meets t p ip).mono ?_ fun _ he => he
  rintro - u ⟨hlock, href, rfl⟩
  have hfree := h.lock ip
  rw [if_neg (Option.some_ne_none _).symm, hlock] at hfree
  exact ⟨h.locked, hfree.symm, href, rfl, steady_setEntry _ rfl rfl⟩

theorem iunlock (h : Walking s t p r (some ip)) (hfree : (s.icache ip).lock = none) : Meets (alone p (iunlock ip) t)
    (fun _ u => Walking s u p r none ∧ u.ino = t.ino ∧ Steady t u)
    (fun e => e = some .iunlock ∧ (t.icache ip).ref < 1) := by
  refine (iunlock_meets t p ip).mono ?_ ?_
  · rintro - u ⟨-, -, rfl⟩
    exact ⟨h.unlocked hfree, rfl, steady_setEntry _ rfl rfl⟩
  · rintro e ⟨he, hlock | href⟩
    · exact absurd ((h.lock ip).trans (if_pos rfl)) hlock
    · exact ⟨he, href⟩

theorem iput (h : Walking s t p r none) (hr : 1 ≤ r ip) (site : Site) : Meets (alone p (iput ip site) t)
    (fun _ u => Walking s u p (r - one ip) none ∧ (¬ t.last ip → u.ino = t.ino) ∧ Steady t u)
    (fun e => e = none ∧ (t.icache ip).lock ≠ none) := by
  refine (iput_meets t p ip site).mono ?_ fun _ he => he
  rintro - u ⟨hlock, rfl⟩
  exact ⟨h.dropped hlock hr, fun hlast => dropped_ino hlast, steady_dropped t p ip⟩

theorem iunlockput (h : Walking s t p r (some ip)) (hfree : (s.icache ip).lock = none) (hr : 1 ≤ r ip) (site : Site) :
    Meets (alone p (iunlockput ip site) t)
      (fun _ u => Walking s u p (r - one ip) none ∧ (¬ t.last ip → u.ino = t.ino) ∧ Steady t u)
      (fun e => e = some .iunlock ∧ (t.icache ip).ref < 1) := by
  unfold Kernel.iunlockput
  rw [alone_bind]
  have hunlock := (iunlock_meets t p ip).and (h.iunlock hfree)
  refine hunlock.bind ?_ fun e he => he.2
  rintro - u ⟨⟨-, -, rfl⟩, hu, hino, hsteady⟩
  refine (hu.iput hr site).mono ?_ ?_
  · rintro - v ⟨hv, hkeep, hsteady'⟩
    refine ⟨hv, fun hlast => ?_, hsteady.trans hsteady'⟩
    apply hkeep
    simpa only [St.last, St.unlocked, St.inoOf, setEntry_self, St.setEntry_ino] using hlast
  · rintro e ⟨-, hlock⟩
    rw [hu.lock ip, if_neg (Option.some_ne_none _).symm] at hlock
    exact absurd hfree hlock

end Walking

end Xv6.Kernel
