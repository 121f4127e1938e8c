/-
  PIPES ARE FIRST IN, FIRST OUT.

  1. **The buffer** (`Queue`) — what was taken out, followed by what is in the buffer, is what was stored,
     across any wrap of the 32-bit counters.
  2. **The calls** (`Calls`) — the calls that processes are in and those that have returned are one
     collection, which a call never leaves.  No two have the same number, and the history holds, under it,
     the bytes the call has stored so far.  A `pipewrite` may block in the middle and let other writers in.
  3. **`pipe_fifo`** — both, in every state that any interleaving reaches.
-/
import Xv6.Lib.Counting
import Xv6.Pipe.Steps

namespace Xv6.Pipe

open Machines Rings Locks
open Function (update update_self update_apply update_of_ne)

variable {n : Nat} {S T : St n} {p : Fin n}

/-! ## The buffer -/

/-- What `piperead` hands to its caller. -/
def Result.bytes : Result → List UInt8
  | .read _ (some bs) => bs
  | _ => []

/-- The bytes that a `piperead` has copied and not yet returned. -/
def Pc.copied : Pc → List UInt8
  | .copy _ _ got => got
  | .wakeEnd r | .release r => r.bytes
  | _ => []

/-- The bytes taken out by the call that has the lock. -/
def St.copied (S : St n) : List UInt8 :=
  match S.lock with
  | none => []
  | some p => (S.pc p).copied

variable {c : Pc}

theorem Pc.copied_of_unlocked (h : c.locked = false) : c.copied = [] := by
  cases c <;> first | rfl | cases h

theorem copied_of_locked (h : Excl S) (hp : (S.pc p).locked = true) : S.copied = (S.pc p).copied := by
  rw [St.copied, (h.lock p).mpr hp]

/-- A move that copies nothing leaves what is copied, also where the lock changes hands. -/
theorem copied_move (h : Excl S) (hpc : T.pc = update S.pc p c)
    (hl : Handover p S.lock (S.pc p).locked T.lock c.locked) (hc : c.copied = (S.pc p).copied) :
    T.copied = S.copied := by
  have hself : (T.pc p).copied = (S.pc p).copied := by rw [hpc, update_self, hc]
  generalize hb : (S.pc p).locked = a, hb' : c.locked = a', hL : S.lock = L, hL' : T.lock = L' at hl
  cases hl with
  | keep =>
    rw [St.copied, St.copied, hL, hL']
    cases L with
    | none => rfl
    | some q =>
      rcases eq_or_ne q p with hq | hq
      · subst hq
        exact hself
      · simp only [hpc, update_of_ne hq]
  | take =>
    simp only [St.copied, hL, hL', hself]
    exact Pc.copied_of_unlocked hb
  | give =>
    rw [copied_of_locked h hb, ← hc, Pc.copied_of_unlocked hb', St.copied, hL']

/-- The buffer and the history of the bytes. -/
structure Queue (S : St n) : Prop where
  bounded : S.pipe.ring.count ≤ PIPESIZE
  fifo : S.readout.map Prod.snd ++ S.pipe.ring.contents = S.written.map Prod.snd
  returned : S.readout.map Prod.snd = S.finished.flatMap Result.bytes ++ S.copied

theorem Queue.same (h : Queue S) (hr : T.pipe.ring = S.pipe.ring) (hw : T.written = S.written)
    (ho : T.readout = S.readout) (hf : T.finished = S.finished) (hc : T.copied = S.copied) : Queue T where
  bounded := by rw [hr]; exact h.bounded
  fifo := by rw [hr, hw, ho]; exact h.fifo
  returned := by rw [ho, hf, hc]; exact h.returned

theorem pipesize_dvd : PIPESIZE ∣ 2 ^ 32 := ⟨2 ^ 23, by decide⟩

theorem pipesize_lt : PIPESIZE < 2 ^ 32 := by decide

variable {id i : Nat} {src : List UInt8} {b : UInt8}

theorem Queue.store (h : Queue S) (he : Excl S)
    (hpc : S.pc p = .test (.write id src i)) (hroom : S.pipe.ring.isFull = false) :
    Queue ((S.store id b).setPc p (.test (.write id src (i + 1)))) := by
  have hne : S.pipe.ring.count ≠ PIPESIZE := by
    intro hc
    rw [(Ring.full_iff pipesize_lt).mpr hc] at hroom
    cases hroom
  have hlt : S.pipe.ring.count < PIPESIZE := by have := h.bounded; omega
  constructor
  · show (S.pipe.ring.push b).count ≤ PIPESIZE
    rw [Ring.count_push pipesize_lt hlt]
    omega
  · show S.readout.map Prod.snd ++ (S.pipe.ring.push b).contents = (S.written ++ [(id, b)]).map Prod.snd
    rw [Ring.contents_push pipesize_dvd pipesize_lt hlt, ← List.append_assoc, h.fifo, List.map_append]
    rfl
  · rw [copied_move he rfl (by rw [hpc]; exact .keep _ _) (by rw [hpc]; rfl)]
    exact h.returned

theorem Queue.copy {k : Nat} {got : List UInt8} (h : Queue S) (he : Excl S)
    (hpc : S.pc p = .copy id k got) (hdata : S.pipe.ring.isEmpty = false) :
    Queue ((S.take id).setPc p (.copy id k (got ++ [S.pipe.ring.front]))) := by
  have hne : S.pipe.ring.count ≠ 0 := by
    intro hc
    rw [Ring.empty_iff.mpr hc] at hdata
    cases hdata
  have hlocked : (S.pc p).locked = true := by rw [hpc]; rfl
  constructor
  · show S.pipe.ring.pop.count ≤ PIPESIZE
    have := h.bounded
    rw [Ring.count_pop hne]
    omega
  · show (S.readout ++ [(id, S.pipe.ring.front)]).map Prod.snd ++ S.pipe.ring.pop.contents = _
    rw [List.map_append, List.append_assoc]
    show S.readout.map Prod.snd ++ S.pipe.ring.front :: S.pipe.ring.pop.contents = S.written.map Prod.snd
    rw [← Ring.contents_pop pipesize_dvd hne]
    exact h.fifo
  · have hret := h.returned
    rw [copied_of_locked he hlocked, hpc] at hret
    show (S.readout ++ [(id, S.pipe.ring.front)]).map Prod.snd = S.finished.flatMap Result.bytes ++ _
    rw [List.map_append, hret]
    simp only [St.copied, St.setPc, St.take, (he.lock p).mpr hlocked, update_self, Pc.copied,
      List.append_assoc, List.map_cons, List.map_nil]

variable {r : Result}

theorem Queue.release (h : Queue S) (he : Excl S) (hpc : S.pc p = .release r) :
    Queue ((S.leave r).setPc p .idle) := by
  refine ⟨h.bounded, h.fifo, ?_⟩
  have hret := h.returned
  rw [copied_of_locked he (by rw [hpc]; rfl), hpc] at hret
  show S.readout.map Prod.snd = (S.finished ++ [r]).flatMap Result.bytes ++ []
  rw [hret, List.append_nil, List.flatMap_append, List.flatMap_singleton]
  rfl

variable {l : Label n}

theorem Queue.step (h : Queue S) (he : Excl S) (hs : Step S l T) : Queue T := by
  cases hs with
  | kill _ => exact h.same rfl rfl rfl rfl rfl
  | store hpc _ hroom => exact h.store he hpc hroom
  | copy hpc hdata => exact h.copy he hpc hdata
  | release hpc => exact h.release he hpc
  | write hpc _ | read hpc _ | writeDone hpc _ | writeFail hpc _ _ _ | writeFull hpc _ _
  | readFail hpc _ _ _ | readEmpty hpc _ _ | readCopy hpc | wakeFull hpc _ | resume hpc _ _
  | copied hpc | wakeEnd hpc _ | closeWake hpc _ | sleepAcquire hpc _ | sleepState hpc | close hpc _ _ =>
    exact h.same rfl rfl rfl rfl (copied_move he rfl (by rw [hpc]; exact .keep _ _) (by rw [hpc]; rfl))
  | @closeFlag p w hpc =>
    cases w <;>
      exact h.same rfl rfl rfl rfl (copied_move he rfl (by rw [hpc]; exact .keep _ _) (by rw [hpc]; rfl))
  | acquire hpc hl | closeAcquire hpc hl =>
    exact h.same rfl rfl rfl rfl (copied_move he rfl (by rw [hpc, hl]; exact .take) (by rw [hpc]; rfl))
  | closeEnd hpc | sleepRelease hpc =>
    exact h.same rfl rfl rfl rfl (copied_move he rfl (by rw [hpc]; exact .give _) (by rw [hpc]; rfl))

/-! ## The calls -/

/-- The bytes of call `id` in a history. -/
def bytesOf (id : Nat) (l : List (Nat × UInt8)) : List UInt8 :=
  (l.filter fun x => x.1 = id).map Prod.snd

theorem bytesOf_append (id : Nat) (l : List (Nat × UInt8)) (x : Nat × UInt8) :
    bytesOf id (l ++ [x]) = bytesOf id l ++ if x.1 = id then [x.2] else [] := by
  unfold bytesOf
  rw [List.filter_append, List.map_append]
  split <;> simp_all

theorem bytesOf_fresh {l : List (Nat × UInt8)} (h : ∀ x ∈ l, x.1 ≠ id) : bytesOf id l = [] := by
  unfold bytesOf
  rw [List.filter_eq_nil_iff.mpr fun x hx => by simpa using h x hx, List.map_nil]

/-- The number of a call, and the bytes it has stored. -/
def Call.stored : Call → Nat × List UInt8
  | .write id src i => (id, src.take i)
  | .read id _ => (id, [])

def Result.stored : Result → Nat × List UInt8
  | .write id src i _ => (id, src.take i)
  | .read id _ => (id, [])

/-- The call that a process is in, if it is in one. -/
def Pc.stored : Pc → Multiset (Nat × List UInt8)
  | .acquire c | .test c | .sleepAcquire c | .sleepRelease c | .sleepState c | .asleep c => {c.stored}
  | .wakeFull id src i => {(id, src.take i)}
  | .copy id _ _ => {(id, [])}
  | .wakeEnd r | .release r => {r.stored}
  | _ => 0

/-- All calls so far. -/
def St.calls (S : St n) : Multiset (Nat × List UInt8) :=
  ∑ p, (S.pc p).stored + (S.finished.map Result.stored : List (Nat × List UInt8))

theorem mem_calls {x : Nat × List UInt8} (h : x ∈ (S.pc p).stored) : x ∈ S.calls :=
  Multiset.mem_add.mpr (.inl (Multiset.mem_sum.mpr ⟨p, Finset.mem_univ p, h⟩))

theorem mem_calls_of_finished (h : r ∈ S.finished) : r.stored ∈ S.calls :=
  Multiset.mem_add.mpr (.inr (List.mem_map_of_mem h))

theorem calls_move (hpc : T.pc = update S.pc p c) (hf : T.finished = S.finished) :
    T.calls + (S.pc p).stored = S.calls + c.stored := by
  have hsum := Counting.sum_add_change (f := fun q => (S.pc q).stored) (g := fun q => (T.pc q).stored)
    (Finset.mem_univ p) fun q hq => by rw [hpc, update_of_ne hq]
  rw [hpc, update_self, ← hpc] at hsum
  rw [St.calls, St.calls, hf, add_right_comm, hsum, add_right_comm]

/-- How the call a process is in will end, once that is decided. -/
def Pc.result : Pc → Option Result
  | .wakeEnd r | .release r => some r
  | _ => none

/-- A `pipewrite` that returns `n` has come to the end of its loop. -/
def Result.Complete : Result → Prop
  | .write _ src i ret => ret = src.length → src.length ≤ i
  | .read .. => True

/-- Calls have numbers of their own, and the history has their bytes. -/
structure Calls (S : St n) : Prop where
  tags : ∀ x ∈ S.written, x.1 < S.ncalls
  once : (S.calls.map Prod.fst).Nodup
  stored : ∀ x ∈ S.calls, x.1 < S.ncalls ∧ bytesOf x.1 S.written = x.2
  decided : ∀ p r, (S.pc p).result = some r → r.Complete
  complete : ∀ r ∈ S.finished, r.Complete

section

variable (h : Calls S)

include h

theorem Calls.decided_move (hr : ∀ r, c.result = some r → r.Complete) (q : Fin n) (r : Result)
    (hq : (update S.pc p c q).result = some r) : r.Complete := by
  rw [update_apply] at hq
  split at hq
  · exact hr r hq
  · exact h.decided q r hq

/-- A move within a call, or outside of all calls. -/
theorem Calls.move (hpc : T.pc = update S.pc p c)
    (hw : T.written = S.written) (hn : T.ncalls = S.ncalls) (hf : T.finished = S.finished)
    (hst : c.stored = (S.pc p).stored) (hr : ∀ r, c.result = some r → r.Complete) : Calls T := by
  have hcalls : T.calls = S.calls := by
    have hmove := calls_move hpc hf
    rw [hst] at hmove
    exact add_right_cancel hmove
  refine ⟨?_, ?_, ?_, ?_, ?_⟩
  · rw [hw, hn]
    exact h.tags
  · rw [hcalls]
    exact h.once
  · rw [hcalls, hw, hn]
    exact h.stored
  · rw [hpc]
    exact h.decided_move hr
  · rw [hf]
    exact h.complete

/-- A new call gets a number that nobody has. -/
theorem Calls.enter (hidle : S.pc p = .idle) (hst : c.stored = {(S.ncalls, [])})
    (hr : ∀ r, c.result ≠ some r) : Calls (St.setPc { S with ncalls := S.ncalls + 1 } p c) := by
  have hcalls : (St.setPc { S with ncalls := S.ncalls + 1 } p c).calls = S.calls + {(S.ncalls, [])} := by
    have hmove := calls_move (S := S) (T := St.setPc { S with ncalls := S.ncalls + 1 } p c) rfl rfl
    rw [hidle, hst] at hmove
    exact (add_zero _).symm.trans hmove
  refine ⟨fun x hx => Nat.lt_succ_of_lt (h.tags x hx), ?_, fun x hx => ?_,
    h.decided_move fun r hc => absurd hc (hr r), h.complete⟩
  · rw [hcalls, Multiset.map_add, Multiset.nodup_add]
    refine ⟨h.once, Multiset.nodup_singleton _, ?_⟩
    rw [Multiset.map_singleton, Multiset.disjoint_singleton, Multiset.mem_map]
    rintro ⟨x, hx, hn⟩
    exact Nat.ne_of_lt (h.stored x hx).1 hn
  · rw [hcalls, Multiset.mem_add, Multiset.mem_singleton] at hx
    rcases hx with hx | rfl
    · exact ⟨Nat.lt_succ_of_lt (h.stored x hx).1, (h.stored x hx).2⟩
    · exact ⟨Nat.lt_succ_self _, bytesOf_fresh fun y hy => Nat.ne_of_lt (h.tags y hy)⟩

theorem Calls.store (hpc : S.pc p = .test (.write id src i)) (hb : src[i]? = some b) :
    Calls ((S.store id b).setPc p (.test (.write id src (i + 1)))) := by
  have hmem : (id, src.take i) ∈ (S.pc p).stored := by
    rw [hpc]
    exact Multiset.mem_singleton_self _
  obtain ⟨hid, hbytes⟩ := h.stored _ (mem_calls hmem)
  -- the call is one of all calls, and the others stay
  obtain ⟨rest, hrest⟩ := Multiset.exists_cons_of_mem (mem_calls hmem)
  have hcalls : ((S.store id b).setPc p (.test (.write id src (i + 1)))).calls = (id, src.take (i + 1)) ::ₘ rest := by
    have hmove := calls_move (S := S) (T := (S.store id b).setPc p (.test (.write id src (i + 1)))) rfl rfl
    rw [hpc, hrest, ← Multiset.singleton_add] at hmove
    rw [← Multiset.singleton_add]
    refine add_right_cancel (hmove.trans ?_)
    rw [add_comm {_} rest, add_right_comm, add_comm rest]
    rfl
  have honce := h.once
  rw [hrest, Multiset.map_cons] at honce
  refine ⟨fun x hx => ?_, ?_, fun x hx => ?_, h.decided_move nofun, h.complete⟩
  · rcases List.mem_append.mp hx with hx | hx
    · exact h.tags x hx
    · rw [List.mem_singleton.mp hx]
      exact hid
  · rw [hcalls, Multiset.map_cons]
    exact honce
  · rw [hcalls, Multiset.mem_cons] at hx
    show _ ∧ bytesOf x.1 (S.written ++ [(id, b)]) = x.2
    rw [bytesOf_append]
    rcases hx with rfl | hx
    · refine ⟨hid, ?_⟩
      rw [if_pos rfl, hbytes, List.take_add_one, hb]
      rfl
    · obtain ⟨hlt, hold⟩ := h.stored x (hrest ▸ Multiset.mem_cons_of_mem hx)
      have hne : id ≠ x.1 := fun heq =>
        (Multiset.nodup_cons.mp honce).1 (Multiset.mem_map.mpr ⟨x, hx, heq.symm⟩)
      refine ⟨hlt, ?_⟩
      rw [if_neg hne, hold, List.append_nil]

/-- A call that returns is one of the calls as before. -/
theorem Calls.release (hpc : S.pc p = .release r) : Calls ((S.leave r).setPc p .idle) := by
  have hcalls : ((S.leave r).setPc p .idle).calls = S.calls := by
    have hmove := calls_move (S := S.leave r) (T := (S.leave r).setPc p .idle) rfl rfl
    have hleave : (S.leave r).calls = S.calls + {r.stored} := by
      rw [St.calls, St.leave, List.map_append, ← Multiset.coe_add, ← add_assoc]
      rfl
    rw [show (S.leave r).pc p = .release r from hpc, hleave] at hmove
    exact add_right_cancel (hmove.trans (add_zero _))
  refine ⟨h.tags, ?_, ?_, h.decided_move nofun, fun r' hr' => ?_⟩
  · rw [hcalls]
    exact h.once
  · rw [hcalls]
    exact h.stored
  · rcases List.mem_append.mp hr' with hr' | hr'
    · exact h.complete r' hr'
    · rw [List.mem_singleton.mp hr']
      exact h.decided p r (by rw [hpc]; rfl)

theorem Calls.step (hs : Step S l T) : Calls T := by
  cases hs with
  | kill _ => exact ⟨h.tags, h.once, h.stored, h.decided, h.complete⟩
  | write hpc _ | read hpc _ => exact h.enter hpc rfl nofun
  | store hpc hb _ => exact h.store hpc hb
  | release hpc => exact h.release hpc
  | writeDone hpc hi =>
    refine h.move rfl rfl rfl rfl (by rw [hpc]; rfl) ?_
    rintro _ ⟨⟩
    exact fun _ => hi
  | writeFail hpc _ _ _ =>
    refine h.move rfl rfl rfl rfl (by rw [hpc]; rfl) ?_
    rintro _ ⟨⟩
    -- -1 is no length
    exact fun hret => by omega
  | readFail hpc _ _ _ | copied hpc =>
    refine h.move rfl rfl rfl rfl (by rw [hpc]; rfl) ?_
    rintro _ ⟨⟩
    trivial
  | @wakeEnd p r hpc _ =>
    refine h.move rfl rfl rfl rfl (by rw [hpc]; rfl) ?_
    rintro _ ⟨⟩
    exact h.decided p r (by rw [hpc]; rfl)
  | writeFull hpc _ _ | readEmpty hpc _ _ | readCopy hpc | wakeFull hpc _ | resume hpc _ _
  | copy hpc _ | closeWake hpc _ | sleepAcquire hpc _ | sleepState hpc | sleepRelease hpc | acquire hpc _
  | closeAcquire hpc _ | closeFlag hpc | closeEnd hpc | close hpc _ _ =>
    exact h.move rfl rfl rfl rfl (by rw [hpc]; rfl) nofun

theorem Calls.once_finished : (S.finished.map fun r => r.stored.1).Nodup := by
  have honce := h.once
  rw [St.calls, Multiset.map_add, Multiset.nodup_add, Multiset.map_coe, Multiset.coe_nodup, List.map_map] at honce
  exact honce.2.1

end

/-! ## Every run -/

/-- What holds in every reachable state. -/
structure Fifo (S : St n) : Prop where
  excl : Excl S
  queue : Queue S
  calls : Calls S

theorem Excl.init (data : Nat → UInt8) : Excl (.init n data) where
  lock _ := ⟨nofun, nofun⟩
  ptlock _ := ⟨nofun, nofun⟩

theorem Fifo.init (data : Nat → UInt8) : Fifo (.init n data) where
  excl := .init data
  queue :=
    have hzero : (St.init n data).pipe.ring.count = 0 := Ring.empty_iff.mp rfl
    ⟨hzero ▸ Nat.zero_le _, Ring.contents_of_empty hzero, rfl⟩
  calls :=
    have hnone : (St.init n data).calls = 0 := (add_zero _).trans Finset.sum_const_zero
    ⟨nofun, hnone ▸ Multiset.nodup_zero, hnone ▸ fun x hx => absurd hx (Multiset.notMem_zero x), nofun, nofun⟩

theorem fifo_reachable {C : St n → Label n → Prop} (h : (machine n).Reachable C S) : Fifo S := by
  refine Machine.invariant ?_ ?_ h
  · rintro _ ⟨data, rfl⟩
    exact .init data
  · intro S l T hI _ hs
    have hs := step_cases hs
    exact ⟨hI.excl.step hs, hI.queue.step hI.excl hs, hI.calls.step hs⟩

/-- **Pipes are first in, first out.**  Whatever the processes do, the counters are at most `PIPESIZE`
    apart; the bytes that reads returned, in the order of their lock, with those that the call with the
    lock has taken out, followed by those in the buffer, are the bytes that writes stored; and a
    `pipewrite` that returned `n` has stored all its `n` bytes, in order. -/
theorem pipe_fifo (h : (machine n).Reachable anyStep S) : (S.pipe.ring.nwrite - S.pipe.ring.nread).toNat ≤ PIPESIZE ∧
    S.finished.flatMap Result.bytes ++ S.copied ++ S.pipe.ring.contents = S.written.map Prod.snd ∧
    S.finished.flatMap Result.bytes ++ S.copied = S.readout.map Prod.snd ∧ (S.finished.map fun r => r.stored.1).Nodup ∧
    ∀ id src i, .write id src i src.length ∈ S.finished → bytesOf id S.written = src := by
  obtain ⟨-, hq, hc⟩ := fifo_reachable h
  refine ⟨hq.bounded, ?_, hq.returned.symm, hc.once_finished, ?_⟩
  · rw [← hq.returned]
    exact hq.fifo
  · intro id src i hr
    have hi : src.length ≤ i := hc.complete _ hr rfl
    have hbytes : bytesOf id S.written = src.take i := (hc.stored _ (mem_calls_of_finished hr)).2
    rw [hbytes, List.take_of_length_le hi]

/-- Process 0 writes two bytes, and process 1 reads one. -/
def shortRun : List (Label 2) :=
  [.write 0 [7, 8], .step 0, .step 0, .step 0, .step 0, .step 0, .step 0,
    .read 1 1, .step 1, .step 1, .step 1, .step 1, .step 1, .step 1]

theorem pipe_fifo_short : ∃ S : St 2, S.written = [(0, 7), (0, 8)] ∧ S.pipe.ring.contents = [8] ∧
    (S.pipe.ring.nwrite - S.pipe.ring.nread).toNat ≤ PIPESIZE ∧
    S.finished.flatMap Result.bytes ++ S.copied ++ S.pipe.ring.contents = S.written.map Prod.snd ∧
    S.finished.flatMap Result.bytes ++ S.copied = S.readout.map Prod.snd ∧ (S.finished.map fun r => r.stored.1).Nodup ∧
    ∀ id src i, .write id src i src.length ∈ S.finished → bytesOf id S.written = src := by
  have hrun : ((machine 2).run (.init 2 fun _ => 0) shortRun).any
      (fun S => decide (S.written = [(0, 7), (0, 8)] ∧ S.pipe.ring.contents = [8])) = true := by
    decide +kernel
  have hinit : (machine 2).init (.init 2 fun _ => 0) := ⟨_, rfl⟩
  obtain ⟨S, hreach, hw, hc⟩ := Machine.reachable_of_run hinit hrun
  exact ⟨S, hw, hc, pipe_fifo hreach⟩

end Xv6.Pipe
