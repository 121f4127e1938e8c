/-
  The inode layer as a SYSTEM: any sequence of its calls, on any inodes, from a disk in order.

  `Refine` and `Iput` say what a single `writei` or `iput` does to a state in order.  Here every entry
  point gets its line (`iget_spec`, `ialloc_spec`, `ilock_spec`, ...), all of one form: from `Inv` to
  `Inv`, and never the panic "freeing free block".  The entry points become the labels of a machine,
  and the invariant rule turns the lines into a statement about every state it can reach.

  1. **Calls** (`Op`, `perform`) — the functions of `fs.c`, the bracket `begin_op`/`end_op`, and the
     changes that the system calls themselves make to a locked inode before `iupdate`.
  2. **Legal** — what `fs.c` asks of its callers in its comments: hold a reference to lock or put, hold
     the lock to read, write or change.
  3. **Halting** — a panic ends the run in `panicked`; a call that would sleep is not enabled.
-/
import Xv6.Fs.Iput
import Xv6.Lib.Machine

namespace Xv6.Fs

open ByteBuf Outcome Ownership Machines

variable {sb : Superblock} {s t u : St} {ip : Fin NINODE}

/-! ## The inode cache -/

/-- Overwriting one slot of the cache. -/
theorem Inv.setInode (h : Inv sb s) {v : Inode} (hcached : 0 < v.ref → v.dev = ROOTDEV ∧ v.inum < sb.ninodes)
    (hfresh : 0 < v.ref → ∀ j, j ≠ ip → 0 < (s.icache j).ref → (s.icache j).inum ≠ v.inum)
    (hsynced : 0 < v.ref → v.valid = true →
      v.di = dinodeAt sb s.disk v.inum ∧ v.di.type ≠ 0)
    (hlocked : v.locked = true → 0 < v.ref ∧ v.valid = true) : Inv sb (s.setInode ip v) := by
  refine h.update h.cons h.holes (fun j hj => setInode_ne hj) (fun _ _ _ _ => rfl) ?_ ?_ ?_ ?_
  all_goals rw [setInode_same]
  · exact hcached
  · exact hfresh
  · exact hsynced
  · exact hlocked

/-- Changing the count and the lock of a slot in use. -/
theorem Inv.setCount (h : Inv sb s) (hr : 0 < (s.icache ip).ref) {r : Int} {b : Bool} (h0 : 0 < r)
    (hb : b = true → (s.icache ip).valid = true) : Inv sb (s.setInode ip { s.icache ip with ref := r, locked := b }) :=
  h.setInode (fun _ => h.cached ip hr) (fun _ j hj h1 e => hj (h.uniq j ip h1 hr e))
    (fun _ hv => h.synced ip hr hv) fun hl => ⟨h0, hb hl⟩

theorem iget_spec (h : Inv sb s) {inum : Nat} (hlt : inum < sb.ninodes) :
    Meets (iget ROOTDEV inum s) (fun _ t => Inv sb t) (fun e => e = .igetNoInodes) := by
  unfold iget
  rw [bind_of_ok (get_eq s)]
  cases hfind : (List.finRange NINODE).find? fun ip =>
      decide (0 < (s.icache ip).ref ∧ (s.icache ip).dev = ROOTDEV ∧ (s.icache ip).inum = inum) with
  | some ip =>
    -- the inode is cached already
    have hip := List.find?_some hfind
    obtain ⟨hr, -, -⟩ := of_decide_eq_true hip
    exact h.setCount hr (by omega) fun hl => (h.locked ip hl).2
  | none =>
    have hnone : ∀ j, 0 < (s.icache j).ref → (s.icache j).inum ≠ inum := by
      intro j hj e
      have := List.find?_eq_none.mp hfind j (List.mem_finRange j)
      exact this (decide_eq_true ⟨hj, (h.cached j hj).1, e⟩)
    dsimp only
    cases hfree : (List.finRange NINODE).find? fun ip => decide ((s.icache ip).ref = 0) with
    | none => exact rfl
    | some ip =>
      have h0 : (s.icache ip).ref = 0 := of_decide_eq_true (List.find?_some (p := fun ip =>
        decide ((s.icache ip).ref = 0)) hfree)
      refine h.setInode (v := { s.icache ip with dev := ROOTDEV, inum := inum, ref := 1, valid := false })
        (fun _ => ⟨rfl, hlt⟩) (fun _ j _ hj => hnone j hj) (fun _ hv => by cases hv) fun hl => ?_
      -- a free slot is not locked
      have := (h.locked ip hl).1
      omega

theorem idup_spec (h : Inv sb s) (hr : 0 < (s.icache ip).ref) :
    Meets (idup ip s) (fun _ t => Inv sb t) (fun _ => False) :=
  h.setCount hr (by omega) fun hl => (h.locked ip hl).2

/-- `ilock` spelled out. -/
theorem ilock_eq : ilock sb ip s = if (s.icache ip).ref < 1 then .error .ilock
    else if (s.icache ip).locked = true then .error .asleep else if (s.icache ip).valid = true then
      .ok ((), s.setInode ip { s.icache ip with locked := true })
    else if (dinodeAt sb s.disk (s.icache ip).inum).type = 0 then .error .noType
    else .ok ((), s.setInode ip { s.icache ip with
      locked := true, di := dinodeAt sb s.disk (s.icache ip).inum, valid := true }) := by
  unfold ilock
  rw [bind_of_ok (inode_eq s ip)]
  by_cases hr : (s.icache ip).ref < 1
  · rw [if_pos hr, if_pos hr]
    rfl
  rw [if_neg hr, if_neg hr]
  beta_reduce
  by_cases hl : (s.icache ip).locked = true
  · rw [if_pos hl, bind_of_error (acquiresleep_eq.trans (if_pos hl))]
  rw [if_neg hl, bind_of_ok (acquiresleep_eq.trans (if_neg hl))]
  by_cases hv : (s.icache ip).valid = true
  · rw [if_neg (by rw [hv]; exact Bool.noConfusion), if_pos hv]
    rfl
  rw [if_pos (by simpa using hv), if_neg hv]
  show ((if (dinodeAt sb s.disk (s.icache ip).inum).type = 0 then throw .noType else pure () : M Unit)
    ((s.setInode ip { s.icache ip with locked := true }).setInode ip
      { (s.setInode ip { s.icache ip with locked := true }).icache ip with
        di := dinodeAt sb s.disk (s.icache ip).inum, valid := true })) = _
  rw [setInode_setInode, setInode_same]
  by_cases h0 : (dinodeAt sb s.disk (s.icache ip).inum).type = 0
  · rw [if_pos h0, if_pos h0]
    rfl
  · rw [if_neg h0, if_neg h0]
    rfl

/-- The errors of `ilock`: the lock is taken, or the inode is free on disk. -/
theorem ilock_spec (h : Inv sb s) (hr : 0 < (s.icache ip).ref) :
    Meets (ilock sb ip s) (fun _ t => Inv sb t) (fun e => e = .asleep ∨ e = .noType) := by
  rw [ilock_eq, if_neg (by omega)]
  split
  · exact Or.inl rfl
  split
  · rename_i hv
    exact h.setCount hr hr fun _ => hv
  split
  · exact Or.inr rfl
  · rename_i h0
    exact h.setInode (v := { s.icache ip with
        locked := true, di := dinodeAt sb s.disk (s.icache ip).inum, valid := true })
      (fun _ => h.cached ip hr) (fun _ j hj h1 e => hj (h.uniq j ip h1 hr e))
      (fun _ _ => ⟨rfl, h0⟩) fun _ => ⟨hr, rfl⟩

theorem iunlock_spec (h : Inv sb s) : Meets (iunlock ip s) (fun _ t => Inv sb t) (fun e => e = .iunlock) := by
  unfold iunlock
  rw [bind_of_ok (inode_eq s ip)]
  split
  · exact rfl
  · rename_i hbad
    have hr : 0 < (s.icache ip).ref := by
      rw [not_or] at hbad
      omega
    exact h.setCount hr hr nofun

/-! ## Allocating an inode -/

/-- A fresh inode in place of a free one: no block changes hands. -/
theorem Inv.fresh (h : Inv sb s) {inum : Nat} (hlt : inum < sb.ninodes)
    (hfree : (dinodeAt sb s.disk inum).type = 0) (type : UInt16) (hinodes : ∀ n, dinodeAt sb t.disk n =
      if n = inum then { Dinode.zero with type := type } else dinodeAt sb s.disk n)
    (hcons : Consistent sb t.disk (dinodeAt sb s.disk)) (hicache : t.icache = s.icache)
    (hdata : ∀ c, sb.IsData c → t.disk c = s.disk c) : Inv sb t := by
  have hfresh : dinodeAt sb t.disk inum = { Dinode.zero with type := type } := by
    rw [hinodes, if_pos rfl]
  -- an inode in use is not the one taken
  have hkeep : ∀ n, (dinodeAt sb s.disk n).type ≠ 0 → dinodeAt sb t.disk n = dinodeAt sb s.disk n := by
    intro n hn
    rw [hinodes, if_neg]
    rintro rfl
    exact hn hfree
  refine ⟨hcons.fresh hfree rfl hinodes, fun n hn hlive => ?_, ?_, ?_, fun ip hr hv => ?_, ?_⟩
  · rcases eq_or_ne n inum with rfl | hne
    · rw [hfresh]
      refine ⟨Nat.zero_le _, fun bn hbn => ?_⟩
      exact absurd hbn (Nat.not_lt_zero _)
    · have hsame : dinodeAt sb t.disk n = dinodeAt sb s.disk n := by rw [hinodes, if_neg hne]
      rw [hsame] at hlive ⊢
      have hole := h.holes n hn hlive
      refine ⟨hole.size_le, fun bn hbn => ?_⟩
      have hblock : blockOf t.disk (dinodeAt sb s.disk n) bn =
          blockOf s.disk (dinodeAt sb s.disk n) bn := by
        have hk : own sb t.disk (dinodeAt sb s.disk) (n, slotOf bn) =
            own sb s.disk (dinodeAt sb s.disk) (n, slotOf bn) :=
          own_congr (fun m hm hl h0 => hdata _ (h.cons.indirect_used hm hl h0).1) _
        rw [own_of_live hn hlive, own_of_live hn hlive] at hk
        exact hk
      rw [hblock]
      exact hole.mapped bn hbn
  · rw [hicache]
    exact h.cached
  · rw [hicache]
    exact h.uniq
  · rw [hicache] at hr hv ⊢
    obtain ⟨hdi, hlive⟩ := h.synced ip hr hv
    rw [hkeep _ (by rw [← hdi]; exact hlive)]
    exact ⟨hdi, hlive⟩
  · rw [hicache]
    exact h.locked

theorem ialloc_spec (h : Inv sb s) (type : UInt16) : Meets (ialloc sb type s) (fun _ t => Inv sb t)
      (fun e => e = .noInodes ∨ e = .igetNoInodes ∨ e.IsLog) := by
  unfold ialloc
  rw [bind_of_ok (get_eq s)]
  cases hfind : (List.range' 1 (sb.ninodes - 1)).find? fun inum =>
      decide ((dinodeAt sb s.disk inum).type = 0) with
  | none => exact Or.inl rfl
  | some inum =>
    have hfree : (dinodeAt sb s.disk inum).type = 0 := of_decide_eq_true (List.find?_some
      (p := fun inum => decide ((dinodeAt sb s.disk inum).type = 0)) hfind)
    have hlt : inum < sb.ninodes := by
      have := List.mem_range'_1.mp (List.mem_of_find?_eq_some hfind)
      omega
    show Meets ((do
      logWrite (sb.iblock inum) (freshDinode (s.disk (sb.iblock inum)) (inodeOff inum) type)
      iget ROOTDEV inum : M (Fin NINODE)) s) _ _
    refine (logWrite_spec s _ _).bind (fun _ t ht => ?_) fun e he => Or.inr (Or.inr he.isLog)
    have hinv : Inv sb t := by
      refine h.fresh hlt hfree type (fun n => ?_) ?_ ?_ fun c hc => ?_
      · rw [ht, put_disk]
        exact dinodeAt_write (getDinode_freshDinode (inodeOff_le _)) (fun j hj => get_freshDinode_out hj) n
      · rw [ht, put_disk]
        exact h.cons.put_inode hlt _
      · rw [ht]
        rfl
      · rw [ht, put_disk]
        exact updBlk_ne (Ne.symm (hc.ne_iblock hlt))
    exact (iget_spec hinv hlt).mono (fun _ _ h => h) fun e he => Or.inr (Or.inl he)

/-! ## Locked inodes -/

/-- `ip->major = major; ip->minor = minor; ip->nlink = nlink; iupdate(ip);` — what the system calls
    do to a locked inode. -/
def setFields (sb : Superblock) (ip : Fin NINODE) (major minor nlink : UInt16) : M Unit := do
  modifyInode ip fun v => { v with di := { v.di with major := major, minor := minor, nlink := nlink } }
  iupdate sb ip

theorem setFields_spec (h : Inv sb s) (hl : (s.icache ip).locked = true) (major minor nlink : UInt16) :
    Meets (setFields sb ip major minor nlink s) (fun _ t => Inv sb t) Stop.IsLog := by
  obtain ⟨hr, hv⟩ := h.locked ip hl
  let w : Inode := { s.icache ip with
    di := { (s.icache ip).di with major := major, minor := minor, nlink := nlink } }
  obtain ⟨hw, hown⟩ := (h.working hr hv).setInode (v := w) rfl rfl rfl
  have hinum : ((s.setInode ip w).icache ip).inum = (s.icache ip).inum := by rw [setInode_same]
  show Meets (iupdate sb ip (s.setInode ip w)) _ _
  refine (iupdate_spec hw.inum_lt hw.cons).mono (fun _ t ht => ?_) fun e he => he.isLog
  have hself : dinodeAt sb t.disk (s.icache ip).inum = w.di := by
    rw [ht.inodes, ← hinum, table_self, setInode_same]
  have hinodes : ∀ n, n ≠ (s.icache ip).inum → dinodeAt sb t.disk n = dinodeAt sb s.disk n := by
    intro n hn
    rw [ht.inodes, table_ne (by rw [hinum]; exact hn), setInode_disk]
  obtain ⟨hdi, hlive⟩ := h.synced ip hr hv
  have hslot : t.icache ip = w := by rw [ht.icache, setInode_same]
  refine h.of_slot hr ht.cons (fun n hn hlv => ?_) ⟨w.di, hslot⟩ (by rw [hslot, hself])
    (by rw [hslot]; exact hlive) (fun j hj => by rw [ht.icache, setInode_ne hj])
    fun n _ hn => hinodes n hn
  -- size and pointers are as they were
  have htype : (dinodeAt sb t.disk n).type = (dinodeAt sb s.disk n).type ∧
      (dinodeAt sb t.disk n).size = (dinodeAt sb s.disk n).size := by
    rcases eq_or_ne n (s.icache ip).inum with rfl | hne
    · rw [hself, ← hdi]
      exact ⟨rfl, rfl⟩
    · rw [hinodes n hne]
      exact ⟨rfl, rfl⟩
  have hlvS : (dinodeAt sb s.disk n).type ≠ 0 := by rw [← htype.1]; exact hlv
  have hole := h.holes n hn hlvS
  refine ⟨by rw [htype.2]; exact hole.size_le, fun bn hbn => ?_⟩
  rw [htype.2] at hbn
  have hsame : blockOf t.disk (dinodeAt sb t.disk n) bn = blockOf s.disk (dinodeAt sb s.disk n) bn := by
    calc blockOf t.disk (dinodeAt sb t.disk n) bn
        = own sb t.disk (dinodeAt sb t.disk) (n, slotOf bn) := (own_of_live hn hlv _).symm
      _ = s.own sb ip (n, slotOf bn) := by rw [ht.own, hown]
      _ = blockOf s.disk (dinodeAt sb s.disk n) bn := by
          rw [St.own, h.table hr hv, own_of_live hn hlvS]
          rfl
  rw [hsame]
  exact hole.mapped bn hbn

variable {devsw : Nat → Devsw}

theorem readi_keeps (h : Inv sb s) (hl : (s.icache ip).locked = true) (off n : UInt32) :
    Meets (readi sb devsw ip off n s) (fun _ t => t = s) (fun _ => False) := by
  by_cases hdev : (s.icache ip).di.type = UInt16.ofNat T_DEV
  · unfold readi
    rw [bind_of_ok (inode_eq s ip)]
    simp only [if_pos hdev]
    cases (if cShort (s.icache ip).di.major.toNat < 0 ∨
        (NDEV : Int) ≤ cShort (s.icache ip).di.major.toNat then none
      else (devsw (cShort (s.icache ip).di.major.toNat).toNat).read) with
    | none => exact rfl
    | some read => exact rfl
  · rw [readi_eq h hl hdev]
    split <;> exact rfl

theorem writei_keeps (h : Inv sb s) (hl : (s.icache ip).locked = true) (src : Nat → UInt8) (off n : UInt32) :
    Meets (writei sb devsw ip src off n s) (fun _ t => Inv sb t)
      (fun e => e = .outOfBlocks ∨ e.IsLog) := by
  by_cases hdev : (s.icache ip).di.type = UInt16.ofNat T_DEV
  · unfold writei
    rw [bind_of_ok (inode_eq s ip)]
    simp only [if_pos hdev]
    cases (if cShort (s.icache ip).di.major.toNat < 0 ∨
        (NDEV : Int) ≤ cShort (s.icache ip).di.major.toNat then none
      else (devsw (cShort (s.icache ip).di.major.toNat).toNat).write) with
    | none => exact h
    | some write => exact h
  · by_cases hbad : (s.icache ip).di.size < off ∨ off + n < off ∨ MAXFILE * BSIZE < (off + n).toNat
    · rw [writei_reject hdev src hbad]
      exact h
    · rw [not_or, not_or, not_lt] at hbad
      refine (writei_spec h hl hdev src hbad.1 hbad.2.1 hbad.2.2).mono (fun _ t ht => ht.2.inv) ?_
      rintro e (⟨he, -⟩ | he)
      · exact Or.inl he
      · exact Or.inr he.isLog

/-! ## The machine -/

/-- The calls. -/
inductive Op
  | beginOp
  | endOp
  | iget (inum : Nat)
  | idup (ip : Fin NINODE)
  | ialloc (type : UInt16)
  | ilock (ip : Fin NINODE)
  | iunlock (ip : Fin NINODE)
  | readi (ip : Fin NINODE) (off n : UInt32)
  | writei (ip : Fin NINODE) (src : Nat → UInt8) (off n : UInt32)
  | setFields (ip : Fin NINODE) (major minor nlink : UInt16)
  | iput (ip : Fin NINODE)

/-- `begin_op`: sleeps unless the log has room for another operation. -/
def beginOp : M Unit := fun s =>
  if s.log.mayBegin then .ok ((), { s with log := { s.log with outstanding := s.log.outstanding + 1 } })
  else .error .asleep

/-- `end_op`: the last operation commits.  What `bread` returns does not change. -/
def endOp : M Unit := fun s =>
  let outstanding := s.log.outstanding - 1
  .ok ((), { s with log := { s.log with
    outstanding := outstanding, lh := if outstanding = 0 then [] else s.log.lh } })

/-- Run a call, for its effect on the state. -/
def perform (sb : Superblock) (devsw : Nat → Devsw) : Op → M Unit
  | .beginOp => beginOp
  | .endOp => endOp
  | .iget inum => do let _ ← Fs.iget ROOTDEV inum
  | .idup ip => do let _ ← Fs.idup ip
  | .ialloc type => do let _ ← Fs.ialloc sb type
  | .ilock ip => Fs.ilock sb ip
  | .iunlock ip => Fs.iunlock ip
  | .readi ip off n => do let _ ← Fs.readi sb devsw ip off n
  | .writei ip src off n => do let _ ← Fs.writei sb devsw ip src off n
  | .setFields ip major minor nlink => Fs.setFields sb ip major minor nlink
  | .iput ip => Fs.iput sb ip

/-- The system runs, or a panic has halted it. -/
inductive Sys
  | running (s : St)
  | panicked (e : Stop)

/-- One call; it is not enabled where it would sleep. -/
def sysStep (sb : Superblock) (devsw : Nat → Devsw) : Sys → Op → Option Sys
  | .panicked _, _ => none
  | .running s, op =>
    match perform sb devsw op s with
    | .ok (_, t) => some (.running t)
    | .error .asleep => none
    | .error e => some (.panicked e)

/-- What the comments of `fs.c` ask of a caller. -/
def Legal (sb : Superblock) : Sys → Op → Prop
  | .panicked _, _ => True
  | .running s, op =>
    match op with
    | .beginOp | .ialloc _ | .iunlock _ => True
    | .endOp => 0 < s.log.outstanding
    | .iget inum => inum < sb.ninodes
    | .idup ip | .ilock ip | .iput ip => 0 < (s.icache ip).ref
    | .readi ip _ _ | .writei ip _ _ _ | .setFields ip _ _ _ => (s.icache ip).locked = true

/-- A machine just booted: the disk is consistent and has no holes, the inode cache is empty. -/
structure Booted (sb : Superblock) (s : St) : Prop where
  cons : Consistent sb s.disk (dinodeAt sb s.disk)
  holes : ∀ n, n < sb.ninodes → (dinodeAt sb s.disk n).type ≠ 0 →
    HoleFree s.disk (dinodeAt sb s.disk n)
  ref : ∀ ip, (s.icache ip).ref = 0
  unlocked : ∀ ip, (s.icache ip).locked = false

/-- The inode layer under any sequence of calls. -/
def system (sb : Superblock) (devsw : Nat → Devsw) : Machine Sys Op where
  init := fun x => ∃ s, x = .running s ∧ Booted sb s
  step := sysStep sb devsw

theorem Booted.inv (h : Booted sb s) : Inv sb s where
  cons := h.cons
  holes := h.holes
  cached := fun ip hr => absurd (h.ref ip) (by omega)
  uniq := fun ip _ hr => absurd (h.ref ip) (by omega)
  synced := fun ip hr => absurd (h.ref ip) (by omega)
  locked := fun ip hl => by
    rw [h.unlocked ip] at hl
    cases hl

/-- The log does not matter for the invariant. -/
theorem Inv.withLog (h : Inv sb s) (L : LogOps.Log) : Inv sb { s with log := L } :=
  ⟨h.cons, h.holes, h.cached, h.uniq, h.synced, h.locked⟩

/-- **One call** keeps the invariant and never frees a free block. -/
theorem perform_spec (h : Inv sb s) {op : Op} (hlegal : Legal sb (.running s) op) :
    Meets (perform sb devsw op s) (fun _ t => Inv sb t) (fun e => e ≠ .freeingFree) := by
  have hlog : ∀ e : Stop, e.IsLog → e ≠ .freeingFree := by
    rintro e ⟨p, rfl⟩
    nofun
  cases op with
  | beginOp =>
    show Meets (beginOp s) _ _
    unfold beginOp
    split
    · exact h.withLog _
    · nofun
  | endOp => exact h.withLog _
  | iget inum =>
    refine (iget_spec h hlegal).bind (fun _ t ht => ht) fun e he => ?_
    rw [he]
    nofun
  | idup ip => exact (idup_spec h hlegal).bind (fun _ t ht => ht) fun _ he => he.elim
  | ialloc type =>
    refine (ialloc_spec h type).bind (fun _ t ht => ht) ?_
    rintro e (rfl | rfl | he)
    · nofun
    · nofun
    · exact hlog e he
  | ilock ip =>
    refine (ilock_spec h hlegal).mono (fun _ t ht => ht) ?_
    rintro e (rfl | rfl) <;> nofun
  | iunlock ip =>
    refine (iunlock_spec h).mono (fun _ t ht => ht) ?_
    rintro e rfl
    nofun
  | readi ip off n =>
    exact (readi_keeps h hlegal off n).bind (fun _ t ht => by rw [ht]; exact h) fun _ he => he.elim
  | writei ip src off n =>
    refine (writei_keeps h hlegal src off n).bind (fun _ t ht => ht) ?_
    rintro e (rfl | he)
    · nofun
    · exact hlog e he
  | setFields ip major minor nlink =>
    exact (setFields_spec h hlegal major minor nlink).mono (fun _ t ht => ht) hlog
  | iput ip =>
    refine (iput_spec h hlegal).mono (fun _ t ht => ht) ?_
    rintro e (rfl | he)
    · nofun
    · exact hlog e he

/-- A step is a call that returned or a panic. -/
theorem sysStep_cases {op : Op} {y : Sys} (h : sysStep sb devsw (.running s) op = some y) :
    (∃ t, perform sb devsw op s = .ok ((), t) ∧ y = .running t) ∨
      ∃ e, perform sb devsw op s = .error e ∧ y = .panicked e := by
  simp only [sysStep] at h
  split at h
  · rename_i hp
    cases h
    exact Or.inl ⟨_, hp, rfl⟩
  · cases h
  · rename_i hp
    cases h
    exact Or.inr ⟨_, hp, rfl⟩

/-- The invariant of the machine. -/
def Sys.Ok (sb : Superblock) : Sys → Prop
  | .running s => Inv sb s
  | .panicked e => e ≠ .freeingFree

theorem sys_ok {x : Sys} (h : (system sb devsw).Reachable (Legal sb) x) : x.Ok sb := by
  refine Machine.invariant ?_ ?_ h
  · rintro x ⟨s, rfl, hs⟩
    exact hs.inv
  · intro x op y hx hlegal hstep
    cases x with
    | panicked e => cases hstep
    | running s =>
      have hspec : Meets (perform sb devsw op s) _ _ := perform_spec hx hlegal
      rcases sysStep_cases hstep with ⟨t, hp, rfl⟩ | ⟨e, hp, rfl⟩
      · exact hspec.of_ok hp
      · exact hspec.of_error hp

/-- **No block is shared and none is lost**, whatever the sequence of calls.  While the system runs:
    a block number that an allocated inode holds (in `addrs` or in its indirect block) lies in the data
    area below `sb.size`, stands nowhere else, and has its bit set; the bits set are those of these
    blocks and of the metadata; and the copies in memory agree with the disk.  When it halts, it is
    not with "freeing free block". -/
theorem no_block_shared_or_lost {x : Sys} (h : (system sb devsw).Reachable (Legal sb) x) :
    x ≠ .panicked .freeingFree ∧ ∀ s, x = .running s →
      (∀ n k, n < sb.ninodes → (dinodeAt sb s.disk n).type ≠ 0 →
        ptr s.disk (dinodeAt sb s.disk n) k ≠ 0 →
        sb.IsData (ptr s.disk (dinodeAt sb s.disk n) k) ∧
        bit sb s.disk (ptr s.disk (dinodeAt sb s.disk n) k) = true ∧
        ∀ m l, m < sb.ninodes → (dinodeAt sb s.disk m).type ≠ 0 →
          ptr s.disk (dinodeAt sb s.disk m) l = ptr s.disk (dinodeAt sb s.disk n) k →
          m = n ∧ l = k) ∧
      (∀ b, b < sb.size → (bit sb s.disk b = true ↔ b < sb.nmeta ∨
        ∃ n k, n < sb.ninodes ∧ (dinodeAt sb s.disk n).type ≠ 0 ∧
          ptr s.disk (dinodeAt sb s.disk n) k = b)) ∧
      (∀ ip, 0 < (s.icache ip).ref → (s.icache ip).valid = true →
        (s.icache ip).di = dinodeAt sb s.disk (s.icache ip).inum) := by
  have hok := sys_ok h
  constructor
  · rintro rfl
    exact hok rfl
  rintro s rfl
  replace hok : Inv sb s := hok
  have hown := fun {n} (hn : n < sb.ninodes) (ht : (dinodeAt sb s.disk n).type ≠ 0) k =>
    own_of_live (d := s.disk) hn ht k
  refine ⟨fun n k hn ht hk => ?_, fun b hb => ⟨fun hbit => ?_, ?_⟩, fun ip hr hv => (hok.synced ip hr hv).1⟩
  · rw [← hown hn ht] at hk ⊢
    refine ⟨hok.cons.excl.inArea _ hk, hok.cons.excl.used_own hk, fun m l hm htm e => ?_⟩
    rw [← hown hm htm] at e
    have hkey := hok.cons.excl.inj (m, l) (n, k) (by rw [e]; exact hk) e
    exact ⟨(Prod.mk.inj hkey).1, (Prod.mk.inj hkey).2⟩
  · rcases Nat.lt_or_ge b sb.nmeta with hmeta | hdata
    · exact Or.inl hmeta
    · obtain ⟨⟨n, k⟩, hk⟩ := (hok.cons.excl.exact b ⟨hdata, hb⟩).mp hbit
      have hlive : n < sb.ninodes ∧ (dinodeAt sb s.disk n).type ≠ 0 := by
        by_contra hno
        rw [own, if_neg hno] at hk
        have := sb.bmapstart_lt
        omega
      exact Or.inr ⟨n, k, hlive.1, hlive.2, by rw [← hown hlive.1 hlive.2, hk]⟩
  · rintro (hmeta | ⟨n, k, hn, ht, rfl⟩)
    · exact hok.cons.metadata b hmeta
    · rw [← hown hn ht] at hb ⊢
      by_cases h0 : own sb s.disk (dinodeAt sb s.disk) (n, k) = 0
      · rw [h0]
        exact hok.cons.metadata 0 (by have := sb.bmapstart_lt; omega)
      · exact hok.cons.excl.used_own h0

/-- The disk with one empty file, just booted. -/
def smallBoot : St where
  disk := diskOf emptyFile
  log := LogOps.Log.init 2 LOGSIZE
  icache := fun _ => ⟨0, 0, 0, false, false, Dinode.zero⟩

theorem smallBoot_booted : Booted mkfsSb smallBoot :=
  ⟨(inv_smallFs []).cons, (inv_smallFs []).holes, fun _ => rfl, fun _ => rfl⟩

instance (sb : Superblock) : ∀ x op, Decidable (Legal sb x op)
  | .panicked _, _ => isTrue trivial
  | .running _, .beginOp => isTrue trivial
  | .running _, .ialloc _ => isTrue trivial
  | .running _, .iunlock _ => isTrue trivial
  | .running s, .endOp => inferInstanceAs (Decidable (0 < s.log.outstanding))
  | .running _, .iget inum => inferInstanceAs (Decidable (inum < sb.ninodes))
  | .running s, .idup ip => inferInstanceAs (Decidable (0 < (s.icache ip).ref))
  | .running s, .ilock ip => inferInstanceAs (Decidable (0 < (s.icache ip).ref))
  | .running s, .iput ip => inferInstanceAs (Decidable (0 < (s.icache ip).ref))
  | .running s, .readi ip _ _ => inferInstanceAs (Decidable ((s.icache ip).locked = true))
  | .running s, .writei ip _ _ _ => inferInstanceAs (Decidable ((s.icache ip).locked = true))
  | .running s, .setFields ip _ _ _ => inferInstanceAs (Decidable ((s.icache ip).locked = true))

/-- Three bytes are written into the empty file. -/
def helloRun : List Op := [.beginOp, .iget 1, .ilock 0, .writei 0 hello 0 3]

/-- Slot 0 is locked, and inode 1 a file of three bytes. -/
def Sys.hello : Sys → Bool
  | .running s => (s.icache 0).locked && decide ((dinodeAt mkfsSb s.disk 1).type ≠ 0) &&
      decide ((dinodeAt mkfsSb s.disk 1).size = 3)
  | .panicked _ => false

theorem hello_reached : ∃ s, (system mkfsSb fun _ => ⟨none, none⟩).Reachable (Legal mkfsSb) (.running s) ∧
    (s.icache 0).locked = true ∧ (dinodeAt mkfsSb s.disk 1).type ≠ 0 ∧ (dinodeAt mkfsSb s.disk 1).size = 3 := by
  have hinit : (system mkfsSb fun _ => ⟨none, none⟩).init (.running smallBoot) := ⟨_, rfl, smallBoot_booted⟩
  have hrun : ((system mkfsSb fun _ => ⟨none, none⟩).runIf (Legal mkfsSb) (.running smallBoot) helloRun).any
      (fun x => decide (x.hello = true)) = true := by
    decide +kernel
  obtain ⟨x, hreach, hx⟩ := Machine.reachable_of_runIf hinit hrun
  cases x with
  | panicked e => cases hx
  | running s =>
    simp only [Sys.hello, Bool.and_eq_true, decide_eq_true_eq] at hx
    exact ⟨s, hreach, hx.1.1, hx.1.2, hx.2⟩

/-- The file now holds a block, and holds it alone. -/
theorem no_block_shared_or_lost_hello :
    ∃ t, (system mkfsSb fun _ => ⟨none, none⟩).Reachable (Legal mkfsSb) (.running t) ∧
      ∃ b, 0 < b ∧ ptr t.disk (dinodeAt mkfsSb t.disk 1) (.addr 0) = b ∧
        mkfsSb.IsData b ∧ bit mkfsSb t.disk b = true := by
  obtain ⟨t, hreach, -, htype, hsize⟩ := hello_reached
  have hinv : Inv mkfsSb t := sys_ok hreach
  have hlt : 1 < mkfsSb.ninodes := by decide
  have hmapped : ptr t.disk (dinodeAt mkfsSb t.disk 1) (.addr 0) ≠ 0 :=
    (hinv.holes 1 hlt htype).mapped 0 (by rw [hsize]; decide)
  have hmain := ((no_block_shared_or_lost hreach).2 t rfl).1 1 _ hlt htype hmapped
  exact ⟨t, hreach, _, Nat.pos_of_ne_zero hmapped, rfl, hmain.1, hmain.2.1⟩

end Xv6.Fs
