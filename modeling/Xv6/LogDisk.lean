/-
  The redo log on disk: `commit()` and `recover_from_log()` of `log.c`, and crashes.

  The on-disk log is the region `[start, start + size)`: a header block (a count `n` and the home
  block numbers) followed by the logged blocks.  Committing a transaction writes

      write_log        cached home blocks  →  log blocks `start + 1 ...`
      write_head       the header with `n > 0`             (THE COMMIT POINT)
      install_trans    log blocks  →  home blocks
      write_head       the header with `n = 0`

  one block at a time, through the buffer cache.  A crash loses the cache and keeps the disk as it
  was after some PREFIX of the writes issued so far (a block write is atomic, and writes reach the
  disk in issue order).  At the next boot `recover_from_log` reads the header, installs whatever
  it names, and clears it; that, too, can crash after any prefix of its writes, any number of times.

  1. **Program** — `writeLog`, `writeHead`, `installTrans`, `readHead`, `commit`,
     `recoverFromLog`, over a `Dev`: the disk, the pinned (dirty) buffers, and the trace of
     single-block writes issued.
  2. **Crash** — `crashCommit T d k` and `crashRecover start d k`: the disk after the first `k`
     writes of `commit`, respectively of a recovery started on `d`.
  3. **The invariant** — a disk is always in one of TWO shapes: `Clear` (header `n = 0`, home
     blocks settled) or `Logged` (header and log blocks hold the whole transaction, home blocks in
     ANY state).  Each shape is closed under a partial recovery, up to going from `Logged` to
     `Clear` with the new contents; a completed recovery always ends in `Clear`.
-/
import Mathlib
import Xv6.Param

namespace Xv6.LogDisk

open ByteBuf

/-! ## The device: disk, pinned buffers and the trace of writes -/

/-- What `log.c` works on.  `pinned` holds the buffers that `log_write` marked `B_DIRTY`: cached
    contents the disk does not have yet.  Every other buffer agrees with the disk. -/
structure Dev where
  disk : Disk
  pinned : Nat → Option Block
  /-- Single-block disk writes issued so far, oldest first. -/
  writes : List (Nat × Block)

/-- The contents `bread` returns. -/
def Dev.bread (v : Dev) (b : Nat) : Block := (v.pinned b).getD (v.disk b)

/-- `memmove` into the buffer of block `b`, then `bwrite`: the disk gets the contents, and
    `B_DIRTY` is cleared. -/
def Dev.bwrite (v : Dev) (b : Nat) (x : Block) : Dev where
  disk := updBlk v.disk b x
  pinned := fun c => if c = b then none else v.pinned c
  writes := v.writes ++ [(b, x)]

/-- A machine that has just booted: nothing is cached. -/
def Dev.boot (d : Disk) : Dev where
  disk := d
  pinned := fun _ => none
  writes := []

theorem bread_bwrite_same (v : Dev) (b : Nat) (x : Block) : (v.bwrite b x).bread b = x := by
  simp [Dev.bread, Dev.bwrite, updBlk_same]

theorem bread_bwrite_ne {v : Dev} {b c : Nat} {x : Block} (h : c ≠ b) : (v.bwrite b x).bread c = v.bread c := by
  simp [Dev.bread, Dev.bwrite, updBlk_ne h, h]

/-! ## `struct logheader` in the header block -/

/-- The header block with `n` and `block[0 .. n)` overwritten, as `write_head` does in place. -/
def putHead (h : Block) (lh : List Nat) : Block := putWords (setLE 4 h 0 lh.length) 4 lh

/-- `lh->n` as stored in a header block. -/
def headN (h : Block) : Int := cInt (getLE 4 h 0)

/-- The in-memory header `read_head` builds: `n` entries (none when `n` is negative). -/
def getHead (h : Block) : List Nat :=
  (List.range (headN h).toNat).map fun i => getLE 4 h (4 + 4 * i)

/-! ## The functions of `log.c` -/

/-- Copy modified blocks from cache to log: the loop of `write_log` from index `tail` on. -/
def writeLog (start : Nat) : Nat → List Nat → Dev → Dev
  | _, [], v => v
  | tail, b :: bs, v => writeLog start (tail + 1) bs (v.bwrite (start + tail + 1) (v.bread b))

/-- Write the in-memory header to disk. -/
def writeHead (start : Nat) (lh : List Nat) (v : Dev) : Dev :=
  v.bwrite start (putHead (v.bread start) lh)

/-- Copy committed blocks from log to their home location: the loop of `install_trans`. -/
def installTrans (start : Nat) : Nat → List Nat → Dev → Dev
  | _, [], v => v
  | tail, b :: bs, v => installTrans start (tail + 1) bs (v.bwrite b (v.bread (start + tail + 1)))

/-- Read the log header from disk into the in-memory header. -/
def readHead (start : Nat) (v : Dev) : List Nat := getHead (v.bread start)

/-- `commit()`: `lh` is the in-memory header, cleared before the second `write_head`. -/
def commit (start : Nat) (lh : List Nat) (v : Dev) : Dev :=
  if 0 < lh.length then
    writeHead start [] (installTrans start 0 lh (writeHead start lh (writeLog start 0 lh v)))
  else v

/-- `recover_from_log()`. -/
def recoverFromLog (start : Nat) (v : Dev) : Dev :=
  writeHead start [] (installTrans start 0 (readHead start v) v)

/-! ## Crashes -/

/-- The disk after a list of block writes. -/
def applyWrites : List (Nat × Block) → Disk → Disk
  | [], d => d
  | (b, x) :: ws, d => applyWrites ws (updBlk d b x)

/-- The disk a crash leaves: the first `k` of the writes issued. -/
def crashAt (d : Disk) (ws : List (Nat × Block)) (k : Nat) : Disk := applyWrites (ws.take k) d

/-- A transaction on a log at `[start, start + size)`: what `log_write` collects. -/
structure Txn (start size : Nat) where
  /-- `log.lh.block[0 .. n)`. -/
  blocks : List Nat
  /-- The new contents, in the cache, of each home block. -/
  data : Nat → Block
  nodup : blocks.Nodup
  /-- The log has at least its header block. -/
  header : 0 < size
  fits : blocks.length ≤ size - 1
  /-- The in-memory header is an array of `LOGSIZE` entries. -/
  cap : blocks.length ≤ LOGSIZE
  outside : ∀ b ∈ blocks, b < start ∨ start + size ≤ b
  /-- Block numbers are 32-bit. -/
  word : ∀ b ∈ blocks, b < 2 ^ 32

variable {start size : Nat}

/-- The device when `commit` is called: the transaction's blocks are pinned in the cache. -/
def Txn.dev (T : Txn start size) (d : Disk) : Dev where
  disk := d
  pinned := fun b => if b ∈ T.blocks then some (T.data b) else none
  writes := []

/-- The block writes of `commit()`, in issue order. -/
def commitWrites (T : Txn start size) (d : Disk) : List (Nat × Block) :=
  (commit start T.blocks (T.dev d)).writes

/-- `commit()` crashes after `k` of its writes. -/
def crashCommit (T : Txn start size) (d : Disk) (k : Nat) : Disk := crashAt d (commitWrites T d) k

/-- A recovery started on disk `d` crashes after `k` of its writes. -/
def crashRecover (start : Nat) (d : Disk) (k : Nat) : Disk :=
  crashAt d (recoverFromLog start (Dev.boot d)).writes k

/-- A recovery started on disk `d` runs to completion. -/
def recovered (start : Nat) (d : Disk) : Disk := (recoverFromLog start (Dev.boot d)).disk

/-! ## What a list of writes does to the disk -/

theorem applyWrites_append : ∀ (ws vs : List (Nat × Block)) (d : Disk),
    applyWrites (ws ++ vs) d = applyWrites vs (applyWrites ws d)
  | [], _, _ => rfl
  | (b, x) :: ws, vs, d => by rw [List.cons_append, applyWrites, applyWrites_append ws vs, applyWrites]

/-- A block that no write names keeps its contents. -/
theorem applyWrites_out : ∀ (ws : List (Nat × Block)) (d : Disk) (c : Nat),
    (∀ w ∈ ws, w.1 ≠ c) → applyWrites ws d c = d c
  | [], _, _, _ => rfl
  | (b, x) :: ws, d, c, h => by
      have hb : c ≠ b := fun e => h (b, x) List.mem_cons_self e.symm
      rw [applyWrites, applyWrites_out ws _ c fun w hw => h w (List.mem_cons_of_mem _ hw), updBlk_ne hb]

variable {f : Disk}

/-- When every write stores what `f` prescribes for its block, each block named holds `f` of it. -/
theorem applyWrites_in : ∀ (ws : List (Nat × Block)) (d : Disk) (c : Nat),
    (∀ w ∈ ws, w.2 = f w.1) → (∃ w ∈ ws, w.1 = c) → applyWrites ws d c = f c
  | [], _, _, _, h => by obtain ⟨w, hw, _⟩ := h; cases hw
  | (b, x) :: ws, d, c, hf, h => by
      have hf' : ∀ w ∈ ws, w.2 = f w.1 := fun w hw => hf w (List.mem_cons_of_mem _ hw)
      rw [applyWrites]
      by_cases hin : ∃ w ∈ ws, w.1 = c
      · exact applyWrites_in ws _ c hf' hin
      · obtain ⟨w, hw, hwc⟩ := h
        rcases List.mem_cons.mp hw with rfl | hw
        · obtain rfl : b = c := hwc
          rw [applyWrites_out ws _ b fun w hw e => hin ⟨w, hw, e⟩, updBlk_same]
          exact hf (b, x) List.mem_cons_self
        · exact absurd ⟨w, hw, hwc⟩ hin

/-! ## The header block is read back as it was written -/

variable {lh : List Nat}

theorem headN_putHead (h : Block) (hlen : lh.length ≤ LOGSIZE) : headN (putHead h lh) = lh.length := by
  have hn : lh.length < 2 ^ 31 := by simp only [LOGSIZE, MAXOPBLOCKS] at hlen; omega
  have hword : getLE 4 (putHead h lh) 0 = lh.length := by
    rw [putHead, getLE_putWords_disjoint (by omega)]
    exact getLE_setLE_of_lt (by simp only [BSIZE]; omega) (by omega)
  rw [headN, hword, cInt_of_lt (by omega) (by omega)]

theorem headN_putHead_nil (h : Block) : headN (putHead h []) = 0 := headN_putHead h (Nat.zero_le _)

/-- `read_head` recovers exactly the list that `write_head` stored. -/
theorem getHead_putHead (h : Block) (hlen : lh.length ≤ LOGSIZE)
    (hw : ∀ b ∈ lh, b < 2 ^ 32) : getHead (putHead h lh) = lh := by
  refine List.ext_getElem ?_ fun i hi hi' => ?_
  · simp [getHead, headN_putHead h hlen]
  · have hfits : 4 + 4 * lh.length ≤ BSIZE := by simp only [LOGSIZE, MAXOPBLOCKS, BSIZE] at hlen ⊢; omega
    simp only [getHead, List.getElem_map, List.getElem_range]
    exact getLE_putWords lh _ 4 i hi' hfits (hw _ (List.getElem_mem hi'))

theorem getHead_of_headN_zero {h : Block} (h0 : headN h = 0) : getHead h = [] := by
  simp [getHead, h0]

/-! ## The writes each function issues -/

/-- The writes of `write_log` when home block `b` is cached as `f b`. -/
def logWrites (start : Nat) (f : Disk) : Nat → List Nat → List (Nat × Block)
  | _, [] => []
  | tail, b :: bs => (start + tail + 1, f b) :: logWrites start f (tail + 1) bs

/-- The writes of `install_trans` when home block `b` is logged as `f b`. -/
def homeWrites (f : Disk) (lh : List Nat) : List (Nat × Block) := lh.map fun b => (b, f b)

theorem logWrites_length (start : Nat) (f : Disk) : ∀ (bs : List Nat) (tail : Nat),
    (logWrites start f tail bs).length = bs.length
  | [], _ => rfl
  | _ :: bs, tail => by rw [logWrites, List.length_cons, logWrites_length start f bs, List.length_cons]

/-- `write_log` writes log blocks only, and none below its index. -/
theorem logWrites_region : ∀ (bs : List Nat) (tail : Nat) (w : Nat × Block),
    w ∈ logWrites start f tail bs → start + tail < w.1 ∧ w.1 ≤ start + tail + bs.length
  | [], _, _, h => by nomatch h
  | b :: bs, tail, w, h => by
      rw [List.length_cons]
      rcases List.mem_cons.mp h with rfl | h
      · simp only; omega
      · have ih := logWrites_region bs (tail + 1) w h
        omega

/-- Blocks away from the log are away from the rest of it. -/
theorem away_tail {b tail : Nat} {bs : List Nat}
    (h : ∀ c ∈ b :: bs, c < start ∨ start + tail + (b :: bs).length < c) :
    ∀ c ∈ bs, c < start ∨ start + (tail + 1) + bs.length < c := by
  intro c hc
  have hc' := h c (List.mem_cons_of_mem _ hc)
  rw [List.length_cons] at hc'
  omega

theorem writeLog_writes (start : Nat) : ∀ (bs : List Nat) (tail : Nat) (v : Dev),
    (∀ b ∈ bs, v.bread b = f b) → (∀ b ∈ bs, b < start ∨ start + tail + bs.length < b) →
    (writeLog start tail bs v).writes = v.writes ++ logWrites start f tail bs ∧
    (∀ c, c ≤ start + tail ∨ start + tail + bs.length < c →
      (writeLog start tail bs v).bread c = v.bread c) ∧
    ∀ i (hi : i < bs.length), (writeLog start tail bs v).bread (start + (tail + i) + 1) = f bs[i]
  | [], tail, v, _, _ => by
      refine ⟨by rw [writeLog, logWrites, List.append_nil], fun _ _ => rfl, fun i hi => ?_⟩
      exact absurd hi (Nat.not_lt_zero i)
  | b :: bs, tail, v, hf, hout => by
      have hb := hout b List.mem_cons_self
      rw [List.length_cons] at hb
      -- after the first block is copied to its log slot, the rest of the home blocks read the same
      have hrest : ∀ c ∈ bs, (v.bwrite (start + tail + 1) (v.bread b)).bread c = f c := by
        intro c hc
        have hc' := away_tail hout c hc
        rw [bread_bwrite_ne (by omega), hf c (List.mem_cons_of_mem _ hc)]
      obtain ⟨hw, hframe, hlog⟩ := writeLog_writes start bs (tail + 1) _ hrest (away_tail hout)
      rw [writeLog]
      refine ⟨?_, fun c hc => ?_, fun i hi => ?_⟩
      · rw [hw, logWrites, Dev.bwrite, hf b List.mem_cons_self, List.append_assoc]
        rfl
      · rw [List.length_cons] at hc
        rw [hframe c (by omega), bread_bwrite_ne (by omega)]
      · cases i with
        | zero =>
          rw [hframe _ (by omega)]
          show (v.bwrite (start + tail + 1) (v.bread b)).bread (start + tail + 1) = f b
          rw [bread_bwrite_same, hf b List.mem_cons_self]
        | succ i =>
          have := hlog i (by rw [List.length_cons] at hi; omega)
          rw [show start + (tail + (i + 1)) + 1 = start + (tail + 1 + i) + 1 by omega, this]
          rfl

theorem installTrans_writes (start : Nat) : ∀ (bs : List Nat) (tail : Nat) (v : Dev),
    (∀ i (hi : i < bs.length), v.bread (start + (tail + i) + 1) = f bs[i]) →
    (∀ b ∈ bs, b < start ∨ start + tail + bs.length < b) →
    (installTrans start tail bs v).writes = v.writes ++ homeWrites f bs ∧
    (installTrans start tail bs v).bread start = v.bread start
  | [], tail, v, _, _ => ⟨by simp [installTrans, homeWrites], rfl⟩
  | b :: bs, tail, v, hlog, hout => by
      have hb := hout b List.mem_cons_self
      rw [List.length_cons] at hb
      have h0 : v.bread (start + tail + 1) = f b := hlog 0 (by rw [List.length_cons]; omega)
      -- writing a home block does not disturb the log blocks still to be installed
      have hlog' : ∀ i (hi : i < bs.length),
          (v.bwrite b (v.bread (start + tail + 1))).bread (start + (tail + 1 + i) + 1) = f bs[i] := by
        intro i hi
        rw [bread_bwrite_ne (by omega)]
        have := hlog (i + 1) (by rw [List.length_cons]; omega)
        rw [show start + (tail + 1 + i) + 1 = start + (tail + (i + 1)) + 1 by omega, this]
        rfl
      obtain ⟨hw, hs⟩ := installTrans_writes start bs (tail + 1) _ hlog' (away_tail hout)
      rw [installTrans]
      refine ⟨?_, ?_⟩
      · rw [hw, Dev.bwrite, h0, homeWrites, homeWrites, List.map_cons, List.append_assoc]
        rfl
      · rw [hs, bread_bwrite_ne (by omega)]

/-- The disk is what the writes issued so far made of the disk `d`. -/
def Dev.Traced (d : Disk) (v : Dev) : Prop := v.disk = applyWrites v.writes d

variable {d : Disk}

theorem Dev.Traced.bwrite {v : Dev} (h : v.Traced d) (b : Nat) (x : Block) : (v.bwrite b x).Traced d := by
  unfold Traced at *
  rw [Dev.bwrite, applyWrites_append, ← h]
  rfl

theorem Dev.Traced.installTrans : ∀ (bs : List Nat) (tail : Nat) {v : Dev}, v.Traced d →
    (installTrans start tail bs v).Traced d
  | [], _, _, h => h
  | _ :: bs, tail, _, h => Dev.Traced.installTrans bs (tail + 1) (h.bwrite _ _)

/-- A completed recovery leaves the disk that all of its writes make. -/
theorem recovered_eq (d : Disk) : recovered start d = applyWrites (recoverFromLog start (Dev.boot d)).writes d := by
  have h0 : (Dev.boot d).Traced d := rfl
  exact (h0.installTrans _ 0).bwrite _ _

/-! ## The two shapes of the disk -/

/-- Outside the log region. -/
def Outside (start size b : Nat) : Prop := b < start ∨ start + size ≤ b

/-- The header is clear and every block outside the log is as in `e`. -/
structure Clear (start size : Nat) (e d : Disk) : Prop where
  head : headN (d start) = 0
  home : ∀ b, Outside start size b → d b = e b

/-- The whole transaction is in the log and its header names it; the home blocks are in any
    state, every other block outside the log is as in `e`. -/
structure Logged (T : Txn start size) (e d : Disk) : Prop where
  head : getHead (d start) = T.blocks
  log : ∀ i (hi : i < T.blocks.length), d (start + (0 + i) + 1) = T.data T.blocks[i]
  rest : ∀ b, Outside start size b → b ∉ T.blocks → d b = e b

/-- The disk `d` with the transaction applied. -/
def Txn.new (T : Txn start size) (d : Disk) : Disk := fun b => if b ∈ T.blocks then T.data b else d b

variable {e : Disk}

theorem Clear.putHead (hsize : 0 < size) (h : Clear start size e d) (x : Block) :
    Clear start size e (updBlk d start (putHead x [])) := by
  refine ⟨by rw [updBlk_same]; exact headN_putHead_nil x, fun b hb => ?_⟩
  rw [updBlk_ne (by unfold Outside at hb; omega)]
  exact h.home b hb

theorem Txn.home_outside (T : Txn start size) {b : Nat} (hb : b ∈ T.blocks) :
    b < start ∨ start + 0 + T.blocks.length < b := by
  have h1 := T.outside b hb
  have h2 := T.fits
  have h3 := T.header
  omega

theorem mem_homeWrites {w : Nat × Block} (h : w ∈ homeWrites f lh) : w.1 ∈ lh ∧ w.2 = f w.1 := by
  obtain ⟨b, hb, rfl⟩ := List.mem_map.mp h
  exact ⟨hb, rfl⟩

/-- Installing part of a logged transaction leaves it logged. -/
theorem Logged.install {T : Txn start size} (h : Logged T e d)
    {ws : List (Nat × Block)} (hws : ∀ w ∈ ws, w ∈ homeWrites T.data T.blocks) : Logged T e (applyWrites ws d) := by
  have hkeep : ∀ c, c ∉ T.blocks → applyWrites ws d c = d c := by
    intro c hc
    refine applyWrites_out ws d c fun w hw hwc => hc ?_
    rw [← hwc]
    exact (mem_homeWrites (hws w hw)).1
  have hin : ∀ c, start ≤ c → c ≤ start + T.blocks.length → c ∉ T.blocks := by
    intro c h1 h2 hc
    have := T.home_outside hc
    omega
  refine ⟨?_, fun i hi => ?_, fun b hb hbT => ?_⟩
  · rw [hkeep start (hin start (Nat.le_refl _) (by omega))]; exact h.head
  · rw [hkeep _ (hin _ (by omega) (by omega))]; exact h.log i hi
  · rw [hkeep b hbT]; exact h.rest b hb hbT

/-- Installing all of it and clearing the header completes the transaction. -/
theorem Logged.finish {T : Txn start size} (h : Logged T e d) (x : Block) : Clear start size (T.new e)
      (updBlk (applyWrites (homeWrites T.data T.blocks) d) start (putHead x [])) := by
  refine ⟨by rw [updBlk_same]; exact headN_putHead_nil x, fun b hb => ?_⟩
  have hne : b ≠ start := by have := T.header; unfold Outside at hb; omega
  rw [updBlk_ne hne, Txn.new]
  by_cases hbT : b ∈ T.blocks
  · rw [if_pos hbT]
    refine applyWrites_in _ d b (fun w hw => (mem_homeWrites hw).2) ⟨(b, T.data b), ?_, rfl⟩
    exact List.mem_map.mpr ⟨b, hbT, rfl⟩
  · rw [if_neg hbT, applyWrites_out _ d b fun w hw hwb => hbT (hwb ▸ (mem_homeWrites hw).1)]
    exact h.rest b hb hbT

/-- Any prefix of "install, then clear the header" on a logged transaction: still logged, or done. -/
theorem Logged.partway {T : Txn start size} (h : Logged T e d) (x : Block) (k : Nat) :
    Logged T e (crashAt d (homeWrites T.data T.blocks ++ [(start, putHead x [])]) k) ∨ Clear start size (T.new e)
      (crashAt d (homeWrites T.data T.blocks ++ [(start, putHead x [])]) k) := by
  rcases Nat.lt_or_ge (homeWrites T.data T.blocks).length k with hk | hk
  · right
    rw [crashAt, List.take_of_length_le (by rw [List.length_append, List.length_singleton]; omega), applyWrites_append]
    exact h.finish x
  · left
    rw [crashAt, List.take_append_of_le_length hk]
    exact h.install fun w hw => List.mem_of_mem_take hw

/-! ## Recovery -/

/-- Recovery on a clear disk issues one write: the clear header again. -/
theorem recover_writes_clear (h : Clear start size e d) :
    (recoverFromLog start (Dev.boot d)).writes = [(start, putHead (d start) [])] := by
  have hh : readHead start (Dev.boot d) = [] := getHead_of_headN_zero h.head
  rw [recoverFromLog, hh]
  rfl

/-- Recovery on a logged transaction installs it and clears the header. -/
theorem recover_writes_logged {T : Txn start size} (h : Logged T e d) : (recoverFromLog start (Dev.boot d)).writes =
      homeWrites T.data T.blocks ++ [(start, putHead (d start) [])] := by
  have hh : readHead start (Dev.boot d) = T.blocks := h.head
  obtain ⟨hw, hs⟩ := installTrans_writes start T.blocks 0 (Dev.boot d) h.log fun b hb => T.home_outside hb
  rw [recoverFromLog, hh, writeHead, Dev.bwrite, hw, hs]
  rfl

/-- A recovery that crashes on a clear disk leaves it clear, with the same home blocks. -/
theorem Clear.crashRecover (hsize : 0 < size) (h : Clear start size e d) (k : Nat) :
    Clear start size e (crashRecover start d k) := by
  rw [LogDisk.crashRecover, recover_writes_clear h]
  cases k with
  | zero => exact h
  | succ k =>
    rw [crashAt, List.take_succ_cons, List.take_nil]
    exact h.putHead hsize (d start)

theorem Clear.recovered (hsize : 0 < size) (h : Clear start size e d) : Clear start size e (recovered start d) := by
  rw [recovered_eq, recover_writes_clear h]
  exact h.putHead hsize (d start)

/-- The states a disk can be in once the commit point has been passed. -/
def Committed (T : Txn start size) (e d : Disk) : Prop :=
  Logged T e d ∨ Clear start size (T.new e) d

theorem Committed.crashRecover {T : Txn start size} (h : Committed T e d) (k : Nat) :
    Committed T e (crashRecover start d k) := by
  rcases h with h | h
  · rw [LogDisk.crashRecover, recover_writes_logged h]
    exact h.partway (d start) k
  · exact Or.inr (h.crashRecover T.header k)

theorem Committed.recovered {T : Txn start size} (h : Committed T e d) :
    Clear start size (T.new e) (recovered start d) := by
  rcases h with h | h
  · rw [recovered_eq, recover_writes_logged h, applyWrites_append]
    exact h.finish (d start)
  · exact h.recovered T.header

/-! ## Commit -/

/-- The writes of `commit`, spelled out. -/
theorem commitWrites_eq (T : Txn start size) (d : Disk) (hne : 0 < T.blocks.length) :
    commitWrites T d = logWrites start T.data 0 T.blocks ++
      (start, putHead (d start) T.blocks) ::
        (homeWrites T.data T.blocks ++ [(start, putHead (putHead (d start) T.blocks) [])]) := by
  have hpin : ∀ b ∈ T.blocks, (T.dev d).bread b = T.data b := by
    intro b hb
    simp [Txn.dev, Dev.bread, hb]
  have hstart : (T.dev d).bread start = d start := by
    have : start ∉ T.blocks := fun hs => by have := T.home_outside hs; omega
    simp [Txn.dev, Dev.bread, this]
  obtain ⟨hw, hframe, hlog⟩ :=
    writeLog_writes start T.blocks 0 (T.dev d) hpin fun b hb => T.home_outside hb
  generalize hv : writeLog start 0 T.blocks (T.dev d) = v at hw hframe hlog
  have hvs : v.bread start = d start := by rw [hframe start (by omega), hstart]
  have hlog' : ∀ i (hi : i < T.blocks.length),
      (writeHead start T.blocks v).bread (start + (0 + i) + 1) = T.data T.blocks[i] := by
    intro i hi
    rw [writeHead, bread_bwrite_ne (by omega)]
    exact hlog i hi
  obtain ⟨hw2, hs2⟩ :=
    installTrans_writes start T.blocks 0 (writeHead start T.blocks v) hlog'
      fun b hb => T.home_outside hb
  have hs3 : (writeHead start T.blocks v).bread start = putHead (d start) T.blocks := by
    rw [writeHead, bread_bwrite_same, hvs]
  rw [commitWrites, commit, if_pos hne, hv, writeHead, Dev.bwrite, hw2, hs2, hs3, writeHead,
    Dev.bwrite, hw, hvs, Txn.dev]
  simp

theorem Txn.mem_logWrites (T : Txn start size) {w : Nat × Block} (hw : w ∈ logWrites start T.data 0 T.blocks) :
    start < w.1 ∧ w.1 < start + size := by
  have h1 := logWrites_region T.blocks 0 w hw
  have h2 := T.fits
  have h3 := T.header
  omega

/-- Until the header is written, nothing outside the log has changed. -/
theorem crash_before_head (T : Txn start size) (h0 : headN (d start) = 0) (k : Nat) :
    Clear start size d (applyWrites ((logWrites start T.data 0 T.blocks).take k) d) := by
  refine ⟨?_, fun b hb => ?_⟩
  · rw [applyWrites_out _ d start fun w hw => by have := T.mem_logWrites (List.mem_of_mem_take hw); omega]
    exact h0
  · exact applyWrites_out _ d b fun w hw => by
      have := T.mem_logWrites (List.mem_of_mem_take hw)
      unfold Outside at hb
      omega

/-- The log blocks after `write_log`. -/
theorem applyWrites_logWrites : ∀ (bs : List Nat) (tail : Nat) (d : Disk) (i : Nat)
    (hi : i < bs.length),
    applyWrites (logWrites start f tail bs) d (start + (tail + i) + 1) = f bs[i]
  | b :: bs, tail, d, 0, _ => by
      rw [logWrites, applyWrites, applyWrites_out _ _ _ fun w hw => by
        have := logWrites_region bs (tail + 1) w hw; omega]
      exact updBlk_same _ _ _
  | b :: bs, tail, d, i + 1, hi => by
      rw [logWrites, applyWrites, show start + (tail + (i + 1)) + 1 = start + (tail + 1 + i) + 1 by omega,
        applyWrites_logWrites bs (tail + 1) _ i (by rw [List.length_cons] at hi; omega)]
      rfl

/-- **The commit point.**  Once the header is on disk, the transaction is logged. -/
theorem logged_after_head (T : Txn start size) (d : Disk) :
    Logged T d (updBlk (applyWrites (logWrites start T.data 0 T.blocks) d) start
      (putHead (d start) T.blocks)) := by
  refine ⟨?_, fun i hi => ?_, fun b hb _ => ?_⟩
  · rw [updBlk_same]
    exact getHead_putHead _ T.cap T.word
  · rw [updBlk_ne (by omega)]
    exact applyWrites_logWrites T.blocks 0 d i hi
  · have hne : b ≠ start := by have := T.header; unfold Outside at hb; omega
    rw [updBlk_ne hne]
    refine applyWrites_out _ d b fun w hw => ?_
    have := T.mem_logWrites hw
    unfold Outside at hb
    omega

/-- The header write of `commit` is among its first `k` writes. -/
def HeadReached (T : Txn start size) (d : Disk) (k : Nat) : Prop :=
  ∃ x, (start, x) ∈ (commitWrites T d).take k

/-- Where a crash of `commit` leaves the disk, according to whether the header reached it. -/
theorem crashCommit_cases (T : Txn start size) (h0 : headN (d start) = 0) (k : Nat) :
    (¬ HeadReached T d k ∧ Clear start size d (crashCommit T d k)) ∨ Committed T d (crashCommit T d k) := by
  rcases Nat.eq_zero_or_pos T.blocks.length with hz | hne
  · left
    have hw : commitWrites T d = [] := by
      rw [commitWrites, commit, if_neg (by omega)]
      rfl
    refine ⟨?_, ?_⟩
    · rintro ⟨x, hx⟩
      rw [hw, List.take_nil] at hx
      cases hx
    · rw [crashCommit, hw, crashAt, List.take_nil]
      exact ⟨h0, fun _ _ => rfl⟩
  · have hlen := logWrites_length start T.data T.blocks 0
    rw [HeadReached, crashCommit, crashAt, commitWrites_eq T d hne]
    rcases Nat.lt_or_ge T.blocks.length k with hk | hk
    · right
      -- the log blocks and the header are on disk, plus a prefix of the rest
      obtain ⟨m, rfl⟩ : ∃ m, k = T.blocks.length + (m + 1) := ⟨k - T.blocks.length - 1, by omega⟩
      rw [List.take_append, List.take_of_length_le (by omega), hlen,
        Nat.add_sub_cancel_left, List.take_succ_cons, applyWrites_append, applyWrites]
      exact (logged_after_head T d).partway _ m
    · left
      rw [List.take_append_of_le_length (by omega)]
      refine ⟨?_, crash_before_head T h0 k⟩
      rintro ⟨x, hx⟩
      have := logWrites_region T.blocks 0 _ (List.mem_of_mem_take hx)
      simp only at this
      omega

/-! ## Crash atomicity -/

/-- **Crash atomicity.**  Crash `commit` after any number of its writes, crash the recoveries that
    follow any number of times at any point, and let one recovery complete: the header is clear,
    the home blocks are all old or all new, everything else outside the log is untouched; and they
    are all new if the header write of `commit` had reached the disk. -/
theorem commit_crash_atomic (T : Txn start size) (d : Disk) (h0 : headN (d start) = 0) (k : Nat) (ks : List Nat) :
    let d' := recovered start (ks.foldl (crashRecover start) (crashCommit T d k))
    headN (d' start) = 0 ∧
    ((∀ b ∈ T.blocks, d' b = d b) ∨ (∀ b ∈ T.blocks, d' b = T.data b)) ∧
    (∀ b, Outside start size b → b ∉ T.blocks → d' b = d b) ∧
    (HeadReached T d k → ∀ b ∈ T.blocks, d' b = T.data b) := by
  intro d'
  rcases crashCommit_cases T h0 k with ⟨hnot, hclear⟩ | hcom
  · -- the header never made it: every recovery finds a clear log
    have hk : Clear start size d (ks.foldl (crashRecover start) (crashCommit T d k)) :=
      List.foldlRecOn ks _ hclear fun c hc j _ => hc.crashRecover T.header j
    have hfin : Clear start size d d' := hk.recovered T.header
    exact ⟨hfin.head, Or.inl fun b hb => hfin.home b (T.outside b hb),
      fun b hb _ => hfin.home b hb, fun hr => absurd hr hnot⟩
  · -- the header made it: the transaction stays logged until some recovery finishes it
    have hk : Committed T d (ks.foldl (crashRecover start) (crashCommit T d k)) :=
      List.foldlRecOn ks _ hcom fun c hc j _ => hc.crashRecover j
    have hfin : Clear start size (T.new d) d' := hk.recovered
    have hnew : ∀ b ∈ T.blocks, d' b = T.data b := by
      intro b hb
      rw [hfin.home b (T.outside b hb), Txn.new, if_pos hb]
    refine ⟨hfin.head, Or.inr hnew, fun b hb hbT => ?_, fun _ => hnew⟩
    rw [hfin.home b hb, Txn.new, if_neg hbT]

/-- One logged block on a log of three blocks at block 2. -/
def oneBlockTxn : Txn 2 3 where
  blocks := [7]
  data := fun _ _ => 1
  nodup := by decide
  header := by decide
  fits := by decide
  cap := by decide
  outside := by decide
  word := by decide

/-- A crash right after the header write, and one crash of the recovery, lose nothing. -/
theorem commit_crash_atomic_oneBlock : headN (zeroBlock) = 0 ∧
    (HeadReached oneBlockTxn (fun _ => zeroBlock) 2 → ∀ b ∈ oneBlockTxn.blocks,
      recovered 2 ([1].foldl (crashRecover 2) (crashCommit oneBlockTxn (fun _ => zeroBlock) 2)) b
        = oneBlockTxn.data b) :=
  ⟨by decide, (commit_crash_atomic oneBlockTxn (fun _ => zeroBlock) (by decide) 2 [1]).2.2.2⟩

end Xv6.LogDisk
