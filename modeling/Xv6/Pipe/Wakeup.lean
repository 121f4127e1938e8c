/-
  NOBODY IS LEFT ASLEEP ON A PIPE.

  A reader sleeps on `&p->nread` while the pipe is empty, a writer on `&p->nwrite` while it is full.  They
  are woken by whoever changes that, but not at once: first the bytes, at the end the `wakeup`, and all of
  it under `p->lock`.

  1. **Ends** — who is in a call on an end has it open, and only a closed end has its flag cleared.  So
     nobody can sleep on an end that is closed.
  2. **Awake** — if a process sleeps, or is about to, and the pipe has what it waits for, then the holder
     of the lock is at a point from which it goes on to the `wakeup` (`Pc.owes`).
  3. **`no_stranded`** — so, with the lock free, nobody sleeps in vain.

  There is ONE exit on which the debt is not paid: a `pipewrite` that finds the buffer full and its process
  killed returns -1 and wakes nobody, although it may have stored bytes (`stranded_reader`).
-/
import Xv6.Pipe.Fifo

namespace Xv6.Pipe

open Machines Rings Locks
open Function (update update_self update_apply update_of_ne)

variable {n : Nat} {S T : St n} {p q : Fin n} {l : Label n}

/-! ## The ends -/

/-- Is there a file for this end? -/
def St.endOpen (S : St n) (writable : Bool) : Bool :=
  if writable then S.writeEnd else S.readEnd

/-- `p->writeopen`, `p->readopen` -/
def flag (P : Pipe) (writable : Bool) : Bool :=
  if writable then P.writeopen else P.readopen

/-- The end that a process is closing, before the flag is cleared. -/
def Pc.closing : Pc → Option Bool
  | .closeAcquire w | .closeFlag w => some w
  | _ => none

/-- Who uses an end has it open; who closes one, or has its flag cleared, has not. -/
structure Ends (S : St n) : Prop where
  used : ∀ p w, (S.pc p).usesEnd w = true → S.endOpen w = true
  closing : ∀ p w, (S.pc p).closing = some w → S.endOpen w = false
  flag : ∀ w, S.pipe.flag w = false → S.endOpen w = false

variable {c : Pc}

/-- A move that stays in its call. -/
theorem Ends.move (h : Ends S) (hpc : T.pc = update S.pc p c)
    (he : ∀ w, T.endOpen w = S.endOpen w) (hf : ∀ w, T.pipe.flag w = false → S.endOpen w = false)
    (hu : ∀ w, c.usesEnd w = true → S.endOpen w = true)
    (hc : ∀ w, c.closing = some w → S.endOpen w = false) : Ends T := by
  refine ⟨?_, ?_, ?_⟩
  · intro q w hq
    rw [hpc, update_apply] at hq
    rw [he]
    split at hq
    · exact hu w hq
    · exact h.used q w hq
  · intro q w hq
    rw [hpc, update_apply] at hq
    rw [he]
    split at hq
    · exact hc w hq
    · exact h.closing q w hq
  · intro w hw
    rw [he]
    exact hf w hw

theorem Ends.same (h : Ends S) (hpc : T.pc = update S.pc p c)
    (he : ∀ w, T.endOpen w = S.endOpen w) (hf : ∀ w, T.pipe.flag w = S.pipe.flag w)
    (hu : ∀ w, c.usesEnd w = true → (S.pc p).usesEnd w = true)
    (hc : ∀ w, c.closing = some w → (S.pc p).closing = some w) : Ends T :=
  h.move hpc he (fun w hw => h.flag w (hf w ▸ hw)) (fun w hw => h.used p w (hu w hw))
    fun w hw => h.closing p w (hc w hw)

theorem endOpen_closeFile {v w : Bool} : (S.closeFile w).endOpen v = (S.endOpen v && v != w) := by
  cases w <;> cases v <;> simp [St.endOpen, St.closeFile]

theorem flag_clearFlag {v w : Bool} : (S.clearFlag w).pipe.flag v = (S.pipe.flag v && v != w) := by
  cases w <;> cases v <;> simp [flag, St.clearFlag]

theorem Ends.close {w : Bool} (h : Ends S) (hq : ∀ q, (S.pc q).usesEnd w = false) :
    Ends ((S.closeFile w).setPc p (.closeAcquire w)) := by
  -- an end that is open now was open, and is not the one that is closed
  have hopen : ∀ v, ((S.closeFile w).setPc p (.closeAcquire w)).endOpen v = (S.endOpen v && v != w) :=
    fun _ => endOpen_closeFile
  refine ⟨?_, ?_, ?_⟩
  · intro q v hv
    have hv' : (S.pc q).usesEnd v = true := by
      simp only [St.setPc, update_apply] at hv
      split at hv
      · cases hv
      · exact hv
    have hne : v ≠ w := by
      rintro rfl
      rw [hq q] at hv'
      cases hv'
    rw [hopen, h.used q v hv', Bool.true_and, bne_iff_ne]
    exact hne
  · intro q v hv
    simp only [St.setPc, update_apply] at hv
    rw [hopen]
    split at hv
    · cases hv
      rw [bne_self_eq_false, Bool.and_false]
    · rw [h.closing q v hv, Bool.false_and]
  · intro v hv
    rw [hopen, h.flag v hv, Bool.false_and]

theorem Ends.step (h : Ends S) (hs : Step S l T) : Ends T := by
  cases hs with
  | kill _ => exact ⟨h.used, h.closing, h.flag⟩
  | close _ _ hq => exact h.close hq
  | write hpc hopen =>
    refine h.move rfl (fun _ => rfl) h.flag ?_ nofun
    rintro (_ | _) hw
    · cases hw
    · exact hopen
  | read hpc hopen =>
    refine h.move rfl (fun _ => rfl) h.flag ?_ nofun
    rintro (_ | _) hw
    · exact hopen
    · cases hw
  | @closeFlag p w hpc =>
    refine h.move rfl (fun _ => rfl) ?_ nofun nofun
    intro v hv
    rcases eq_or_ne v w with rfl | hne
    · exact h.closing p v (by rw [hpc]; rfl)
    · refine h.flag v ?_
      rw [← hv]
      exact (flag_clearFlag.trans (by rw [bne_iff_ne.mpr hne, Bool.and_true])).symm
  | release hpc | closeEnd hpc | closeWake hpc _ => exact h.same rfl (fun _ => rfl) (fun _ => rfl) nofun nofun
  | closeAcquire hpc _ =>
    exact h.same rfl (fun _ => rfl) (fun _ => rfl) nofun (by rw [hpc]; exact fun _ hw => hw)
  | writeDone hpc _ | writeFail hpc _ _ _ | writeFull hpc _ _ | store hpc _ _ | readFail hpc _ _ _
  | readEmpty hpc _ _ | readCopy hpc | wakeFull hpc _ | sleepAcquire hpc _ | sleepRelease hpc
  | sleepState hpc | resume hpc _ _ | copy hpc _ | copied hpc | wakeEnd hpc _ | acquire hpc _ =>
    refine h.same rfl (fun _ => rfl) (fun _ => rfl) ?_ nofun
    rw [hpc]
    intro w hw
    cases w <;> exact hw

/-! ## Who sleeps, and who will wake them -/

/-- The pipe has what the sleepers on a channel wait for. -/
def Has (P : Pipe) : Chan → Prop
  | .nread => P.ring.isEmpty = false ∨ P.writeopen = false
  | .nwrite => P.ring.isFull = false ∨ P.readopen = false

/-- The channel of a process that has given up the lock and is about to be SLEEPING. -/
def Pc.falling : Pc → Option Chan
  | .sleepState c => some c.chan
  | _ => none

/-- Process `p` sleeps, or is about to. -/
def St.Waits (S : St n) (p : Fin n) (c : Chan) : Prop :=
  S.status p = .sleeping c ∨ (S.pc p).falling = some c

/-- The points of the holder of the lock from which it goes on to a `wakeup`. -/
def Pc.owes : Chan → Pc → Bool
  | .nread, .test (.write ..) | .nread, .wakeFull .. | .nread, .wakeEnd (.write ..)
  | .nread, .closeWake true => true
  | .nwrite, .copy .. | .nwrite, .wakeEnd (.read ..) | .nwrite, .closeWake false => true
  | _, _ => false

def St.Owed (S : St n) (c : Chan) : Prop :=
  ∃ q, S.lock = some q ∧ (S.pc q).owes c = true

/-- The call that is on its way to sleep, and still has the lock. -/
def Pc.settling : Pc → Option Call
  | .wakeFull id src i => some (.write id src i)
  | .sleepAcquire c | .sleepRelease c => some c
  | _ => none

structure Awake (S : St n) : Prop where
  owed : ∀ p c, S.Waits p c → S.pipe.Has c → S.Owed c
  settling : ∀ p c, (S.pc p).settling = some c → ¬ S.pipe.Has c.chan
  asleep : ∀ p c, S.status p = .sleeping c → ∃ k, S.pc p = .asleep k ∧ k.chan = c

/-- If the holder of the lock owes nothing, nobody waits for what is there. -/
theorem Awake.unowed {c : Chan} (h : Awake S) (hl : S.lock = some p) (ho : (S.pc p).owes c = false)
    (hw : S.Waits q c) : ¬ S.pipe.Has c := by
  intro hh
  obtain ⟨r, hr, hro⟩ := h.owed q c hw hh
  obtain rfl : p = r := Option.some.inj (hl.symm.trans hr)
  rw [ho] at hro
  cases hro

/-- A process that waits is in a call on the end of its channel. -/
theorem Awake.uses {c : Chan} (h : Awake S) (hw : S.Waits p c) : (S.pc p).usesEnd (c = .nwrite) = true := by
  have hk : ∀ k : Call, k.chan = c → (k.onWrite == decide (c = .nwrite)) = true := by
    rintro (_ | _) rfl <;> rfl
  rcases hw with hw | hw
  · obtain ⟨k, hpc, hc⟩ := h.asleep p c hw
    rw [hpc]
    exact hk k hc
  · cases hpc : S.pc p with
    | sleepState k =>
      rw [hpc] at hw
      exact hk k (Option.some.inj hw)
    | _ =>
      rw [hpc] at hw
      cases hw

variable {k : Chan}

/-- The sleepers after a step that puts nobody to sleep. -/
theorem waits_move (hpc : T.pc = update S.pc p c)
    (hst : ∀ q, T.status q = .sleeping k → S.status q = .sleeping k) (hc : c.falling = none)
    (hw : T.Waits q k) : S.Waits q k := by
  rcases hw with hw | hw
  · exact .inl (hst q hw)
  · rw [hpc, update_apply] at hw
    split at hw
    · rw [hc] at hw
      cases hw
    · exact .inr hw

theorem Pc.settling_locked {k : Call} (h : c.settling = some k) : c.locked = true := by
  cases c <;> first | rfl | cases h

theorem Excl.holds (he : Excl S) (hpc : S.pc p = c) (hc : c.locked = true) : S.lock = some p := by
  rw [he.lock p, hpc, hc]

section

variable (h : Awake S) (he : Excl S) (hpc : T.pc = update S.pc p c)

include h he hpc

/-- A process on its way to sleep has the lock, so nobody else changes the pipe. -/
theorem Awake.settling_move (hpipe : T.pipe = S.pipe ∨ S.lock = some p) (hset : ∀ k, c.settling = some k → ¬ T.pipe.Has k.chan) :
    ∀ q k, (T.pc q).settling = some k → ¬ T.pipe.Has k.chan := by
  intro q k hq
  rw [hpc, update_apply] at hq
  split at hq
  · exact hset k hq
  · rename_i hne
    rcases hpipe with hpipe | hl
    · rw [hpipe]
      exact h.settling q k hq
    · have hlq : S.lock = some q := (he.lock q).mpr (Pc.settling_locked hq)
      exact absurd (Option.some.inj (hlq.symm.trans hl)) hne

/-- A step that puts nobody to sleep. -/
theorem Awake.move {c₀ : Pc} (hst : ∀ q k, T.status q = .sleeping k → S.status q = .sleeping k) (hp : S.pc p = c₀)
    (hrun : ∀ k, c₀ ≠ .asleep k) (hfall : c.falling = none) (hpipe : T.pipe = S.pipe ∨ S.lock = some p)
    (hset : ∀ k, c.settling = some k → ¬ T.pipe.Has k.chan)
    (howed : ∀ q k, S.Waits q k → T.Waits q k → T.pipe.Has k → T.Owed k) : Awake T where
  owed q k hw hh := howed q k (waits_move hpc (fun r => hst r k) hfall hw) hw hh
  settling := h.settling_move he hpc hpipe hset
  asleep := by
    intro q k hq
    obtain ⟨a, hqpc, hk⟩ := h.asleep q k (hst q k hq)
    have hne : q ≠ p := by
      rintro rfl
      exact hrun a (hp.symm.trans hqpc)
    refine ⟨a, ?_, hk⟩
    rw [hpc, update_of_ne hne, hqpc]

/-- A process without the lock changes nothing about who owes a `wakeup`. -/
theorem Awake.outside (hl : T.lock = S.lock) (hpipe : T.pipe = S.pipe)
    (hout : (S.pc p).locked = false) (hw : S.Waits q k) (hh : T.pipe.Has k) : T.Owed k := by
  rw [hpipe] at hh
  obtain ⟨r, hr, hro⟩ := h.owed q k hw hh
  have hne : r ≠ p := by
    rintro rfl
    rw [(he.lock r).mp hr] at hout
    cases hout
  exact ⟨r, hl.trans hr, by rw [hpc, update_of_ne hne]; exact hro⟩

section

variable {c₀ : Pc} (hst : T.status = S.status) (hp : S.pc p = c₀) (hin : c₀.locked = true) (hfall : c.falling = none)
  (hset : ∀ k, c.settling = some k → ¬ T.pipe.Has k.chan)

include hst hp hin hfall hset

/-- A step of the holder of the lock. -/
theorem Awake.inside (howed : S.lock = some p → ∀ q k, S.Waits q k → T.pipe.Has k → T.Owed k) : Awake T := by
  have hl := he.holds hp hin
  refine h.move he hpc (fun _ _ hq => hst ▸ hq) hp ?_ hfall (.inr hl) hset fun q k hw _ hh => howed hl q k hw hh
  rintro k rfl
  cases hin

/-- The holder of the lock leaves the pipe as it is; what it owed it still owes. -/
theorem Awake.holder (hpipe : T.pipe = S.pipe) (ho : ∀ k, c₀.owes k = true → T.lock = S.lock ∧ c.owes k = true) :
    Awake T := by
  refine h.inside he hpc hst hp hin hfall hset fun hl q k hw hh => ?_
  rw [hpipe] at hh
  cases hown : (S.pc p).owes k with
  | true =>
    obtain ⟨hlock, hc⟩ := ho k (hp ▸ hown)
    refine ⟨p, hlock.trans hl, ?_⟩
    rw [hpc, update_self]
    exact hc
  | false => exact absurd hh (h.unowed hl hown hw)

end

end

theorem wakeup_sleeping {w : Chan} (h : ((S.wakeup w).setPc p c).status q = .sleeping k) :
    S.status q = .sleeping k := by
  simp only [St.setPc, St.wakeup] at h
  split at h
  · cases h
  · exact h

/-- The holder of the lock pays what it owed. -/
theorem Awake.pay {w : Chan} {c₀ : Pc} (h : Awake S) (he : Excl S) (hp : S.pc p = c₀) (hin : c₀.locked = true)
    (htable : S.ptlock = none) (hc : c.falling = none) (hset : ∀ k, c.settling = some k → ¬ S.pipe.Has k.chan)
    (ho : ∀ k, c₀.owes k = true → k = w) : Awake ((S.wakeup w).setPc p c) := by
  have hl := he.holds hp hin
  refine h.move he rfl (fun _ _ hq => wakeup_sleeping hq) hp ?_ hc (.inl rfl) hset fun q k hw hw' hh => ?_
  · rintro k rfl
    cases hin
  have hk : k = w := by
    apply ho
    rw [← hp]
    cases hown : (S.pc p).owes k with
    | true => rfl
    | false => exact absurd hh (h.unowed hl hown hw)
  subst hk
  -- nobody is asleep on the channel any more, and nobody is about to be: that needs the table's lock
  rcases hw' with hq | hq
  · simp only [St.setPc, St.wakeup] at hq
    split at hq
    · cases hq
    · contradiction
  · simp only [St.setPc, St.wakeup, update_apply] at hq
    split at hq
    · rw [hc] at hq
      cases hq
    · cases hqpc : S.pc q with
      | sleepState a =>
        have hheld : S.ptlock = some q := (he.ptlock q).mpr (by rw [hqpc]; rfl)
        rw [htable] at hheld
        cases hheld
      | _ =>
        rw [hqpc] at hq
        cases hq

/-! ## Every run -/

/-- A `pipewrite` that finds the buffer full, with somebody left to read, is not in a killed process; or
    no reader sleeps at the time, or is about to. -/
def WriterAlive (S : St n) (l : Label n) : Prop :=
  ∀ p id src i, l = .step p → S.pc p = .test (.write id src i) → i < src.length →
    S.pipe.ring.isFull = true → S.pipe.readopen = true → S.killed p = false ∨ ∀ q, ¬ S.Waits q .nread

variable {id i : Nat} {src : List UInt8}

section

variable (h : Awake S) (he : Excl S)

include h he

/-- `pipewrite` returns -1, and no reader sleeps. -/
theorem Awake.writeFail (hpc : S.pc p = .test (.write id src i)) (hread : ∀ q, ¬ S.Waits q .nread) :
    Awake (S.setPc p (.release (.write id src i (-1)))) := by
  refine h.inside he rfl rfl hpc rfl rfl nofun fun hl q k hw hh => ?_
  cases k with
  | nread => exact absurd hw (hread q)
  | nwrite => exact absurd hh (h.unowed hl (by rw [hpc]; rfl) hw)

theorem Awake.store {b : UInt8} (hpc : S.pc p = .test (.write id src i)) (hroom : S.pipe.ring.isFull = false) :
    Awake ((S.store id b).setPc p (.test (.write id src (i + 1)))) := by
  refine h.inside he rfl rfl hpc rfl rfl nofun fun hl q k hw _ => ?_
  cases k with
  | nread => exact ⟨p, hl, by simp only [St.setPc, update_self, Pc.owes]⟩
  | nwrite => exact absurd (.inl hroom) (h.unowed (c := .nwrite) hl (by rw [hpc]; rfl) hw)

theorem Awake.copy {k : Nat} {got : List UInt8} (hpc : S.pc p = .copy id k got) (hdata : S.pipe.ring.isEmpty = false) :
    Awake ((S.take id).setPc p (.copy id k (got ++ [S.pipe.ring.front]))) := by
  refine h.inside he rfl rfl hpc rfl rfl nofun fun hl q k hw _ => ?_
  cases k with
  | nread => exact absurd (.inl hdata) (h.unowed (c := .nread) hl (by rw [hpc]; rfl) hw)
  | nwrite => exact ⟨p, hl, by simp only [St.setPc, update_self, Pc.owes]⟩

theorem Awake.closeFlag {w : Bool} (hpc : S.pc p = .closeFlag w) :
    Awake ((S.clearFlag w).setPc p (.closeWake w)) := by
  refine h.inside he rfl rfl hpc rfl rfl nofun fun hl q k hw hh => ?_
  -- the flag that is cleared is the one whose sleepers are woken next
  cases w <;> cases k <;> first
    | exact absurd hh (h.unowed hl (by rw [hpc]; rfl) hw)
    | exact ⟨p, hl, by simp only [St.setPc, update_self, Pc.owes]⟩

/-- `sleep` gives up the lock. -/
theorem Awake.sleepRelease {c : Call} (hpc : S.pc p = .sleepRelease c) :
    Awake ({ S with lock := none }.setPc p (.sleepState c)) := by
  have hl := he.holds hpc rfl
  refine ⟨?_, h.settling_move he rfl (.inl rfl) nofun, ?_⟩
  · rintro q k (hw | hw) hh
    · exact absurd hh (h.unowed hl (by rw [hpc]; cases k <;> rfl) (.inl hw))
    · simp only [St.setPc, update_apply] at hw
      split at hw
      · cases hw
        exact absurd hh (h.settling p c (by rw [hpc]; rfl))
      · exact absurd hh (h.unowed hl (by rw [hpc]; cases k <;> rfl) (.inr hw))
  · intro q k hq
    obtain ⟨a, hqpc, hk⟩ := h.asleep q k hq
    have hne : q ≠ p := by
      rintro rfl
      rw [hpc] at hqpc
      cases hqpc
    exact ⟨a, (update_of_ne hne ..).trans hqpc, hk⟩

/-- `sleep` makes the process SLEEPING. -/
theorem Awake.sleepState {c : Call} (hpc : S.pc p = .sleepState c) : Awake (St.setPc { S with
      ptlock := none
      status := update S.status p (.sleeping c.chan) } p (.asleep c)) := by
  refine ⟨?_, h.settling_move he rfl (.inl rfl) nofun, ?_⟩
  · intro q k hw hh
    have hw' : S.Waits q k := by
      rcases hw with hw | hw <;> simp only [St.setPc, update_apply] at hw <;> split at hw
      · rename_i hq
        cases hw
        exact .inr (by rw [hq, hpc]; rfl)
      · exact .inl hw
      · cases hw
      · exact .inr hw
    exact h.outside he rfl rfl rfl (by rw [hpc]; rfl) hw' hh
  · intro q k hq
    simp only [St.setPc, update_apply] at hq ⊢
    split at hq
    · rename_i hqp
      cases hq
      exact ⟨c, if_pos hqp, rfl⟩
    · rename_i hqp
      rw [if_neg hqp]
      exact h.asleep q k hq

theorem Awake.resume {c : Call} (hpc : S.pc p = .asleep c) :
    Awake (St.setPc { S with status := update S.status p .running } p (.acquire c)) := by
  have hst : ∀ q k, (update S.status p .running) q = .sleeping k →
      q ≠ p ∧ S.status q = .sleeping k := by
    intro q k hq
    rw [update_apply] at hq
    split at hq
    · cases hq
    · rename_i hne
      exact ⟨hne, hq⟩
  refine ⟨?_, h.settling_move he rfl (.inl rfl) nofun, ?_⟩
  · intro q k hw hh
    exact h.outside he rfl rfl rfl (by rw [hpc]; rfl) (waits_move rfl (fun r hr => (hst r k hr).2) rfl hw) hh
  · intro q k hq
    obtain ⟨hne, hq⟩ := hst q k hq
    obtain ⟨a, hqpc, hk⟩ := h.asleep q k hq
    exact ⟨a, (update_of_ne hne ..).trans hqpc, hk⟩

end

theorem Awake.kill (h : Awake S) : Awake (S.kill p) := by
  have hst : ∀ q k, (S.kill p).status q = .sleeping k → S.status q = .sleeping k := by
    intro q k hq
    simp only [St.kill, update_apply] at hq
    split at hq
    · rename_i hqp
      rw [hqp]
      cases hs : S.status p <;> rw [hs] at hq <;> cases hq
    · exact hq
  refine ⟨?_, h.settling, fun q k hq => h.asleep q k (hst q k hq)⟩
  rintro q k (hw | hw) hh
  · exact h.owed q k (.inl (hst q k hw)) hh
  · exact h.owed q k (.inr hw) hh

theorem Awake.step (h : Awake S) (he : Excl S) (hends : Ends S) (hc : WriterAlive S l) (hs : Step S l T) : Awake T := by
  cases hs with
  | kill _ => exact h.kill
  | write hpc _ | read hpc _ | close hpc _ _ =>
    exact h.move he rfl (fun _ _ hq => hq) hpc nofun rfl (.inl rfl) nofun
      fun _ _ hw _ hh => h.outside he rfl rfl rfl (by rw [hpc]; rfl) hw hh
  | acquire hpc hl | closeAcquire hpc hl =>
    refine h.move he rfl (fun _ _ hq => hq) hpc nofun rfl (.inl rfl) nofun ?_
    intro q k hw _ hh
    -- with the lock free there is nobody who could owe anything
    obtain ⟨r, hr, -⟩ := h.owed q k hw hh
    rw [hl] at hr
    cases hr
  | store hpc _ hroom => exact h.store he hpc hroom
  | copy hpc hdata => exact h.copy he hpc hdata
  | closeFlag hpc => exact h.closeFlag he hpc
  | sleepRelease hpc => exact h.sleepRelease he hpc
  | sleepState hpc => exact h.sleepState he hpc
  | resume hpc _ _ => exact h.resume he hpc
  | @writeFail p id src i hpc hi hfull hfail =>
    refine h.writeFail he hpc ?_
    cases hr : S.pipe.readopen with
    | false =>
      -- nobody is left who could read
      intro q hw
      have hused := hends.used q false (h.uses hw)
      rw [hends.flag false hr] at hused
      cases hused
    | true =>
      rcases hc p id src i rfl hpc hi hfull hr with halive | hnone
      · rw [hr, halive] at hfail
        simp at hfail
      · exact hnone
  | writeFull hpc hfull hread =>
    refine h.holder he rfl rfl hpc rfl rfl ?_ rfl (by rintro (_ | _) ho <;> first | exact ⟨rfl, rfl⟩ | cases ho)
    rintro _ ⟨⟩ (hh | hh)
    · cases hfull.symm.trans hh
    · cases hread.symm.trans hh
  | readEmpty hpc hempty hwrite =>
    refine h.holder he rfl rfl hpc rfl rfl ?_ rfl (by rintro (_ | _) ⟨⟩)
    rintro _ ⟨⟩ (hh | hh)
    · cases hempty.symm.trans hh
    · cases hwrite.symm.trans hh
  | @sleepAcquire p c hpc _ =>
    refine h.holder he rfl rfl hpc rfl rfl ?_ rfl (by rintro (_ | _) ⟨⟩)
    rintro _ ⟨⟩
    exact h.settling p c (by rw [hpc]; rfl)
  | writeDone hpc _ | copied hpc =>
    exact h.holder he rfl rfl hpc rfl rfl nofun rfl (by rintro (_ | _) ho <;> first | exact ⟨rfl, rfl⟩ | cases ho)
  | readFail hpc _ _ _ | readCopy hpc | release hpc | closeEnd hpc =>
    exact h.holder he rfl rfl hpc rfl rfl nofun rfl (by rintro (_ | _) ⟨⟩)
  | @wakeFull p id src i hpc htable =>
    refine h.pay he hpc rfl htable rfl ?_ (by rintro (_ | _) ho <;> first | rfl | cases ho)
    rintro _ ⟨⟩
    exact h.settling p _ (by rw [hpc]; rfl)
  | @wakeEnd p r hpc htable =>
    exact h.pay he hpc rfl htable rfl nofun (by cases r <;> rintro (_ | _) ho <;> first | rfl | cases ho)
  | @closeWake p w hpc htable =>
    exact h.pay he hpc rfl htable rfl nofun (by cases w <;> rintro (_ | _) ho <;> first | rfl | cases ho)

theorem Ends.init (data : Nat → UInt8) : Ends (.init n data) where
  used := nofun
  closing := nofun
  flag w hw := by cases w <;> cases hw

theorem Awake.init (data : Nat → UInt8) : Awake (.init n data) where
  owed p c hw := by rcases hw with hw | hw <;> cases hw
  settling := nofun
  asleep := nofun

theorem awake_reachable (h : (machine n).Reachable WriterAlive S) : Awake S := by
  suffices hI : Excl S ∧ Ends S ∧ Awake S from hI.2.2
  refine Machine.invariant (I := fun S => Excl S ∧ Ends S ∧ Awake S) ?_ ?_ h
  · rintro _ ⟨data, rfl⟩
    exact ⟨.init data, .init data, .init data⟩
  · rintro S l T ⟨he, hends, ha⟩ hc hs
    have hs := step_cases hs
    exact ⟨he.step hs, hends.step hs, ha.step he hends hc hs⟩

/-- **Nobody is stranded.**  If no `pipewrite` finds the buffer full in a killed process while a reader sleeps, then in every
    state in which the pipe's lock is free a sleeping reader has nothing to read, and somebody may still
    write; and a sleeping writer has no room, and somebody may still read. -/
theorem no_stranded (h : (machine n).Reachable WriterAlive S) (hfree : S.lock = none) (p : Fin n) :
    (S.status p = .sleeping .nread → S.pipe.ring.contents = [] ∧ S.pipe.writeopen = true) ∧
    (S.status p = .sleeping .nwrite →
      S.pipe.ring.contents.length = PIPESIZE ∧ S.pipe.readopen = true) := by
  have hawake := awake_reachable h
  have hnot : ∀ c, S.status p = .sleeping c → ¬ S.pipe.Has c := by
    intro c hs hh
    obtain ⟨q, hq, -⟩ := hawake.owed p c (.inl hs) hh
    rw [hfree] at hq
    cases hq
  constructor
  · intro hs
    have hnone := hnot .nread hs
    simp only [Has, not_or, Bool.not_eq_false] at hnone
    exact ⟨Ring.contents_of_empty (Ring.empty_iff.mp hnone.1), hnone.2⟩
  · intro hs
    have hnone := hnot .nwrite hs
    simp only [Has, not_or, Bool.not_eq_false] at hnone
    rw [Ring.length_contents]
    exact ⟨(Ring.full_iff pipesize_lt).mp hnone.1, hnone.2⟩

/-- Nobody has been killed. -/
abbrev NobodyKilled (S : St n) (_ : Label n) : Prop := ∀ p, S.killed p = false

/-- A reader goes to sleep on an empty pipe; it has nothing to read. -/
theorem no_stranded_empty : ∃ S : St 1, S.lock = none ∧ S.status 0 = .sleeping .nread ∧
    S.pipe.ring.contents = [] ∧ S.pipe.writeopen = true := by
  have hrun : ((machine 1).runIf NobodyKilled (.init 1 fun _ => 0)
      [.read 0 1, .step 0, .step 0, .step 0, .step 0, .step 0]).any
      (fun S => decide (S.lock = none ∧ S.status 0 = .sleeping .nread)) = true := by
    decide +kernel
  have hinit : (machine 1).init (.init 1 fun _ => 0) := ⟨_, rfl⟩
  obtain ⟨S, hreach, hfree, hs⟩ := Machine.reachable_of_runIf hinit hrun
  have halive : (machine 1).Reachable WriterAlive S := hreach.mono fun _ _ hk p _ _ _ _ _ _ _ _ => .inl (hk p)
  exact ⟨S, hfree, hs, (no_stranded halive hfree 0).1 hs⟩

/-- As long as there is room, a `pipewrite` with the lock stores byte after byte. -/
theorem fill (k : Nat) {S : St n} (hpc : S.pc p = .test (.write id src i)) (hi : i + k ≤ src.length)
    (hroom : S.pipe.ring.count + k ≤ PIPESIZE) :
    ∃ T, (machine n).Run anyStep S (List.replicate k (.step p)) T ∧ T.pc p = .test (.write id src (i + k)) ∧
      T.pipe.ring.count = S.pipe.ring.count + k ∧ T.ptlock = S.ptlock ∧ T.status = S.status := by
  induction k generalizing i S with
  | zero => exact ⟨S, .nil S, hpc, rfl, rfl, rfl⟩
  | succ k ih =>
    obtain ⟨b, hb⟩ : ∃ b, src[i]? = some b := ⟨_, List.getElem?_eq_getElem (show i < src.length by omega)⟩
    have hlt : S.pipe.ring.count < PIPESIZE := by omega
    have hfull : S.pipe.ring.isFull = false := by
      rw [Bool.eq_false_iff, Ne, Ring.full_iff pipesize_lt]
      omega
    let S' : St n := (S.store id b).setPc p (.test (.write id src (i + 1)))
    have hstep : (machine n).step S (.step p) = some S' := by
      simp only [machine, step, act, hpc, hb, hfull, S', Bool.false_eq_true, if_false]
    have hpc' : S'.pc p = .test (.write id src (i + 1)) := update_self ..
    have hcount : S'.pipe.ring.count = S.pipe.ring.count + 1 := Ring.count_push pipesize_lt hlt b
    obtain ⟨T, hrun, hT, hTc, hTp, hTs⟩ := ih hpc' (by omega) (by omega)
    refine ⟨T, .cons trivial hstep hrun, ?_, ?_, hTp, hTs⟩
    · rw [hT, Nat.add_assoc, Nat.add_comm 1 k]
    · rw [hTc, hcount, Nat.add_assoc, Nat.add_comm 1 k]

/-- A `pipewrite` that finds the buffer full and its process killed returns, and wakes nobody. -/
theorem killed_leaves (hpc : S.pc p = .test (.write id src i))
    (hi : i < src.length) (hfull : S.pipe.ring.isFull = true) (htable : S.ptlock = none) :
    ∃ T, (machine n).Run anyStep S [.kill p, .step p, .step p] T ∧ T.lock = none ∧ T.pipe = S.pipe ∧
      ∀ q, q ≠ p → T.status q = S.status q := by
  obtain ⟨b, hb⟩ : ∃ b, src[i]? = some b := ⟨_, List.getElem?_eq_getElem hi⟩
  let A : St n := S.kill p
  let B : St n := A.setPc p (.release (.write id src i (-1)))
  let T : St n := (B.leave (.write id src i (-1))).setPc p .idle
  have hkill : (machine n).step S (.kill p) = some A := if_pos htable
  have hfail : (machine n).step A (.step p) = some B := by
    have hkilled : A.killed p = true := update_self ..
    show act A p = some B
    simp only [act, show A.pc p = _ from hpc, hb, show A.pipe.ring.isFull = true from hfull, hkilled,
      or_true, if_true, B]
  have hleave : (machine n).step B (.step p) = some T := by
    have hBpc : B.pc p = .release (.write id src i (-1)) := update_self ..
    show act B p = some T
    simp only [act, hBpc, T]
  refine ⟨T, .cons trivial hkill (.cons trivial hfail (.single trivial hleave)), rfl, rfl, ?_⟩
  intro q hq
  exact update_of_ne hq ..

/-- Process 0 sleeps on an empty pipe, and process 1 has entered `pipewrite`. -/
def sleepingRun : List (Label 2) :=
  [.read 0 1, .step 0, .step 0, .step 0, .step 0, .step 0,
    .write 1 (List.replicate (PIPESIZE + 1) 0), .step 1]

theorem sleepingRun_state : ∃ S : St 2, (machine 2).Reachable anyStep S ∧
    S.status 0 = .sleeping .nread ∧ S.pc 1 = .test (.write 1 (List.replicate (PIPESIZE + 1) 0) 0) ∧
    S.pipe.ring.count = 0 ∧ S.ptlock = none :=
  ⟨_, ⟨_, sleepingRun, ⟨fun _ => 0, rfl⟩, Machine.run_iff.mpr rfl⟩, rfl, rfl, rfl, rfl⟩

/-- A writer that is killed when it has filled the buffer returns without waking the reader. -/
theorem stranded_reader : ∃ S : St 2, (machine 2).Reachable anyStep S ∧ S.lock = none ∧
    S.status 0 = .sleeping .nread ∧ S.pipe.ring.contents.length = PIPESIZE := by
  obtain ⟨S, ⟨S₀, ls, h0, hls⟩, hs, hpc, hcount, htable⟩ := sleepingRun_state
  have hlen : (List.replicate (PIPESIZE + 1) (0 : UInt8)).length = PIPESIZE + 1 := List.length_replicate
  obtain ⟨T, hfill, hTpc, hTc, hTp, hTs⟩ :=
    fill PIPESIZE hpc (by rw [hlen, Nat.zero_add]; exact Nat.le_succ _) (by rw [hcount, Nat.zero_add])
  rw [hcount, Nat.zero_add] at hTc
  rw [Nat.zero_add] at hTpc
  have hfull : T.pipe.ring.isFull = true := (Ring.full_iff pipesize_lt).mpr hTc
  obtain ⟨U, hleave, hfree, hUp, hUs⟩ :=
    killed_leaves hTpc (by rw [hlen]; exact Nat.lt_succ_self _) hfull (hTp.trans htable)
  refine ⟨U, ⟨S₀, _, h0, hls.append (hfill.append hleave)⟩, hfree, ?_, ?_⟩
  · rw [hUs 0 (by decide), hTs, hs]
  · rw [Ring.length_contents, hUp, hTc]

end Xv6.Pipe
