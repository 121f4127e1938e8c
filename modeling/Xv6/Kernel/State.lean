/-
  The state that the file-system calls share, and the atomic actions on it.

  One layer up from `Xv6.Fs`: an inode is its type, its link count and the byte string of its content
  (which is what `Fs.inode_io` makes of blocks and pointers), and a call is a sequence of ACTIONS, each
  of them one critical section of the source: a loop under `icache.lock`, a test under `ftable.lock`, a
  look at an inode whose sleep-lock the caller holds.

  * A change to the fields of a locked inode and the `iupdate` that follows it are one action; so the
    copy in the cache and the inode on disk agree, and one table `ino` stands for both.
  * `held` and `gone` are HISTORY: they record which references to cached inodes the call of a process
    holds, and never influence an action.  A call gets a reference from `iget`, `idup`, the file that
    `fileclose` empties, or its `cwd` when it passes it to `iput`; it loses it to `ref--`, or to the
    file or `cwd` it stores the pointer in.
-/
import Mathlib
import Xv6.Kernel.Names
import Xv6.Lib.Threads

namespace Xv6.Kernel

open Threads
open Function (update)

/-- Number of inodes of the file system `mkfs` makes. -/
abbrev NINODES : Nat := 200

abbrev Pid := Fin NPROC
/-- A pointer into `icache.inode`. -/
abbrev Slot := Fin NINODE
/-- A pointer into `ftable.file`. -/
abbrev FileId := Fin NFILE
abbrev Fd := Fin NOFILE

/-- The first process. -/
def initproc : Pid := 0

/-! ## State -/

inductive IType
  | free
  | dir
  | file
  | dev
  deriving DecidableEq

/-- An inode, on disk and in the cache. -/
structure Ino where
  type : IType
  major : Int
  minor : Int
  nlink : Int
  data : List UInt8

/-- The number of blocks of the content. -/
def Ino.blocks (v : Ino) : Nat := (v.data.length + BSIZE - 1) / BSIZE

/-- An entry of the inode cache. -/
structure Entry where
  dev : Nat
  inum : Nat
  ref : Int
  /-- Who holds the sleep-lock. -/
  lock : Option Pid
  valid : Bool

inductive FType
  | none
  | pipe
  | inode
  deriving DecidableEq

/-- `struct file`. -/
structure File where
  type : FType
  ref : Int
  readable : Bool
  writable : Bool
  ip : Slot
  off : Nat

/-- `p->state`; a process asleep in a call is one whose next action is blocked. -/
inductive ProcState
  | unused
  | embryo
  | runnable
  | zombie
  deriving DecidableEq

/-- `struct proc`, as far as files are concerned. -/
structure Proc where
  state : ProcState
  parent : Option Pid
  cwd : Option Slot
  ofile : Fd → Option FileId

structure St where
  ino : Nat → Ino
  icache : Slot → Entry
  ftable : FileId → File
  procs : Pid → Proc
  /-- `log.outstanding` -/
  outstanding : Nat
  /-- The references to cached inodes that the call of a process holds. -/
  held : Pid → Slot → Nat
  /-- The process has passed its `cwd` to `iput` and not yet overwritten it. -/
  gone : Pid → Bool

/-- The panics. -/
inductive Panic
  | igetNoInodes
  | iallocNoInodes
  | ilock
  | noType
  | iunlock
  | notDir
  | dirlookupRead
  | dirlinkRead
  | dirlink
  | isdiremptyRead
  | unlinkNlink
  | unlinkWritei
  | createDots
  | createDirlink
  | filedup
  | fileclose
  | fileread
  | filewrite
  | shortFilewrite
  | initExiting
  | outOfBlocks
  /-- A trap in the kernel, for a null pointer. -/
  | trap
  deriving DecidableEq

/-! ## Actions -/

/-- Where `acquiresleep` is called from; it makes no difference to what it does. -/
inductive Site
  | ilock
  | iput
  /-- The `iput(dp)` of `iunlockput(dp)` in `create` and `sys_unlink`, made while `ip` is locked. -/
  | iputHolding
  deriving DecidableEq

inductive Act
  | panic (e : Panic)
  | beginOp
  | endOp
  /-- `iget`'s critical section. -/
  | iget (dev inum : Nat)
  | idup (ip : Slot)
  /-- Read `ip->ref`. -/
  | ref (ip : Slot)
  /-- Read `ip->dev` and `ip->inum`. -/
  | ident (ip : Slot)
  | acquiresleep (ip : Slot) (site : Site)
  | holdingsleep (ip : Slot)
  | releasesleep (ip : Slot)
  /-- The part of `ilock` under the lock: read the inode if it is not valid. -/
  | load (ip : Slot)
  /-- Read the fields and the content of a locked inode. -/
  | inode (ip : Slot)
  /-- Overwrite the fields and the content of a locked inode, and `iupdate`. -/
  | iupdate (ip : Slot) (v : Ino)
  /-- The test of `iput`: no links, and no other references. -/
  | lastRef (ip : Slot)
  /-- `itrunc(ip); ip->type = 0; iupdate(ip); ip->valid = 0;` -/
  | ifree (ip : Slot)
  /-- `ip->ref--` -/
  | deref (ip : Slot)
  /-- One round of `ialloc`: take inode `inum` if it is free. -/
  | ialloc (inum : Nat) (type : IType)
  | filealloc
  | filedup (f : FileId)
  /-- `fileclose`'s critical section; the file as it was, if this was the last reference. -/
  | fileclose (f : FileId)
  /-- Read the fields of a file. -/
  | file (f : FileId)
  /-- The end of `sys_open`: set the fields of the new file. -/
  | openFile (f : FileId) (ip : Slot) (readable writable : Bool)
  /-- `pipealloc`: set the fields of one end. -/
  | pipeFile (f : FileId) (writable : Bool)
  | setOff (f : FileId) (off : Nat)
  | myproc
  /-- Read `curproc->ofile[fd]`. -/
  | ofile (fd : Fd)
  | setOfile (fd : Fd) (f : Option FileId)
  | fdalloc (f : FileId)
  /-- Read `curproc->cwd`. -/
  | cwd
  /-- Read `curproc->cwd` to `iput` it. -/
  | takeCwd
  | setCwd (ip : Option Slot)
  /-- `allocproc`'s critical section. -/
  | allocproc
  /-- `np->state = UNUSED` -/
  | freeproc (np : Pid)
  /-- `np->parent = curproc` -/
  | adopt (np : Pid)
  /-- `np->ofile[fd] = f` -/
  | childOfile (np : Pid) (fd : Fd) (f : FileId)
  /-- `np->cwd = ip` -/
  | childCwd (np : Pid) (ip : Slot)
  /-- `np->state = RUNNABLE` -/
  | start (np : Pid)
  /-- The end of `exit`: pass abandoned children to init; `curproc->state = ZOMBIE`. -/
  | zombie
  /-- `wait`, under `ptable.lock`. -/
  | wait

/-- What an action returns. -/
@[reducible] def Act.R : Act → Type
  | .panic _ => Empty
  | .iget _ _ => Slot
  | .ref _ => Int
  | .ident _ => Nat × Nat
  | .holdingsleep _ => Bool
  | .inode _ => Ino
  | .lastRef _ => Bool
  | .ialloc _ _ => Bool
  | .filealloc => Option FileId
  | .fileclose _ => Option File
  | .file _ => File
  | .myproc => Pid
  | .ofile _ => Option FileId
  | .fdalloc _ => Option Fd
  | .cwd => Slot
  | .takeCwd => Slot
  | .allocproc => Option Pid
  | .wait => Option Pid
  | _ => Unit

/-! ## What the actions do -/

namespace St

variable (s : St)

@[simps] def setEntry (ip : Slot) (v : Entry) : St := { s with icache := update s.icache ip v }

@[simps] def setFile (f : FileId) (v : File) : St := { s with ftable := update s.ftable f v }

@[simps] def setProc (p : Pid) (v : Proc) : St := { s with procs := update s.procs p v }

@[simps] def setIno (n : Nat) (v : Ino) : St := { s with ino := update s.ino n v }

/-- The call of `p` now holds one more reference to `ip`. -/
@[simps] def hold (p : Pid) (ip : Slot) : St :=
  { s with held := update s.held p (update (s.held p) ip (s.held p ip + 1)) }

/-- The call of `p` has passed on or dropped a reference to `ip`. -/
@[simps] def unhold (p : Pid) (ip : Slot) : St :=
  { s with held := update s.held p (update (s.held p) ip (s.held p ip - 1)) }

@[simps] def setGone (p : Pid) (b : Bool) : St := { s with gone := update s.gone p b }

/-- The inode that an entry of the cache stands for. -/
def inoOf (ip : Slot) : Ino := s.ino (s.icache ip).inum

/-- The number of data blocks in use. -/
def blocks : Nat := ((List.range NINODES).map fun n => (s.ino n).blocks).sum

/-- The loop of `iget`: the entry of inode `inum`. -/
def cached (dev inum : Nat) : Option Slot :=
  (List.finRange NINODE).find? fun ip =>
    0 < (s.icache ip).ref ∧ (s.icache ip).dev = dev ∧ (s.icache ip).inum = inum

/-- The loop of `iget`: the first empty entry. -/
def empty : Option Slot := (List.finRange NINODE).find? fun ip => (s.icache ip).ref = 0

end St

/-- One action of process `p`. -/
def exec (s : St) (p : Pid) : (a : Act) → Reply St Panic a.R
  | .panic e => .halt e
  | .beginOp =>
    -- `begin_op` also waits for the blocks already logged, and for a commit: it may come later
    if LOGSIZE < (s.outstanding + 1) * MAXOPBLOCKS then .blocked
    else .ok { s with outstanding := s.outstanding + 1 } ()
  | .endOp => .ok { s with outstanding := s.outstanding - 1 } ()
  | .iget dev inum =>
    match s.cached dev inum with
    | some ip =>
      .ok ((s.setEntry ip { s.icache ip with ref := (s.icache ip).ref + 1 }).hold p ip) ip
    | none =>
      match s.empty with
      | none => .halt .igetNoInodes
      | some ip =>
        .ok ((s.setEntry ip { s.icache ip with
          dev := dev, inum := inum, ref := 1, valid := false }).hold p ip) ip
  | .idup ip =>
    .ok ((s.setEntry ip { s.icache ip with ref := (s.icache ip).ref + 1 }).hold p ip) ()
  | .ref ip => .ok s (s.icache ip).ref
  | .ident ip => .ok s ((s.icache ip).dev, (s.icache ip).inum)
  | .acquiresleep ip _ =>
    if (s.icache ip).lock.isSome then .blocked
    else .ok (s.setEntry ip { s.icache ip with lock := some p }) ()
  | .holdingsleep ip => .ok s (decide ((s.icache ip).lock = some p))
  | .releasesleep ip => .ok (s.setEntry ip { s.icache ip with lock := none }) ()
  | .load ip =>
    if (s.icache ip).valid then .ok s ()
    else if (s.inoOf ip).type = .free then .halt .noType
    else .ok (s.setEntry ip { s.icache ip with valid := true }) ()
  | .inode ip => .ok s (s.inoOf ip)
  | .iupdate ip v =>
    let t := s.setIno (s.icache ip).inum v
    if FSSIZE < t.blocks then .halt .outOfBlocks else .ok t ()
  | .lastRef ip =>
    .ok s (decide ((s.icache ip).valid = true ∧ (s.inoOf ip).nlink = 0 ∧ (s.icache ip).ref = 1))
  | .ifree ip =>
    .ok ((s.setIno (s.icache ip).inum { s.inoOf ip with type := .free, data := [] }).setEntry ip
      { s.icache ip with valid := false }) ()
  | .deref ip =>
    .ok ((s.setEntry ip { s.icache ip with ref := (s.icache ip).ref - 1 }).unhold p ip) ()
  | .ialloc inum type =>
    if (s.ino inum).type = .free then .ok (s.setIno inum ⟨type, 0, 0, 0, []⟩) true
    else .ok s false
  | .filealloc =>
    match (List.finRange NFILE).find? fun f => (s.ftable f).ref = 0 with
    | some f => .ok (s.setFile f { s.ftable f with ref := 1 }) (some f)
    | none => .ok s none
  | .filedup f =>
    if (s.ftable f).ref < 1 then .halt .filedup
    else .ok (s.setFile f { s.ftable f with ref := (s.ftable f).ref + 1 }) ()
  | .fileclose f =>
    let ff := s.ftable f
    if ff.ref < 1 then .halt .fileclose
    else if 0 < ff.ref - 1 then .ok (s.setFile f { ff with ref := ff.ref - 1 }) none
    else
      let t := s.setFile f { ff with ref := 0, type := .none }
      .ok (if ff.type = .inode then t.hold p ff.ip else t) (some ff)
  | .file f => .ok s (s.ftable f)
  | .openFile f ip readable writable =>
    .ok ((s.setFile f { s.ftable f with
      type := .inode, ip := ip, off := 0, readable := readable, writable := writable }).unhold p ip) ()
  | .pipeFile f writable =>
    .ok (s.setFile f { s.ftable f with type := .pipe, readable := !writable, writable := writable }) ()
  | .setOff f off => .ok (s.setFile f { s.ftable f with off := off }) ()
  | .myproc => .ok s p
  | .ofile fd => .ok s ((s.procs p).ofile fd)
  | .setOfile fd o =>
    .ok (s.setProc p { s.procs p with ofile := update (s.procs p).ofile fd o }) ()
  | .fdalloc f =>
    match (List.finRange NOFILE).find? fun fd => (s.procs p).ofile fd = none with
    | some fd =>
      .ok (s.setProc p { s.procs p with
        ofile := update (s.procs p).ofile fd (some f) }) (some fd)
    | none => .ok s none
  | .cwd =>
    match (s.procs p).cwd with
    | some ip => .ok s ip
    | none => .halt .trap
  | .takeCwd =>
    match (s.procs p).cwd with
    | some ip => .ok ((s.setGone p true).hold p ip) ip
    | none => .halt .trap
  | .setCwd o =>
    let t := (s.setProc p { s.procs p with cwd := o }).setGone p false
    .ok (match o with
      | some ip => t.unhold p ip
      | none => t) ()
  | .allocproc =>
    match (List.finRange NPROC).find? fun q => (s.procs q).state = .unused with
    | some np => .ok (s.setProc np { s.procs np with state := .embryo }) (some np)
    | none => .ok s none
  | .freeproc np => .ok (s.setProc np { s.procs np with state := .unused }) ()
  | .adopt np => .ok (s.setProc np { s.procs np with parent := some p }) ()
  | .childOfile np fd f =>
    .ok (s.setProc np { s.procs np with
      ofile := update (s.procs np).ofile fd (some f) }) ()
  | .childCwd np ip => .ok ((s.setProc np { s.procs np with cwd := some ip }).unhold p ip) ()
  | .start np => .ok (s.setProc np { s.procs np with state := .runnable }) ()
  | .zombie =>
    .ok { s with procs := fun q =>
      let v := s.procs q
      let v := if v.parent = some p then { v with parent := some initproc } else v
      if q = p then { v with state := .zombie } else v } ()
  | .wait =>
    let kids := (List.finRange NPROC).filter fun q => (s.procs q).parent = some p
    match kids.find? fun q => (s.procs q).state = .zombie with
    | some q => .ok (s.setProc q { s.procs q with parent := none, state := .unused }) (some q)
    | none => if kids = [] then .ok s none else .blocked

/-! ## What an action did -/

variable {dev inum : Nat} {r : Unit}

section

variable {s t : St} {p : Pid} {ip : Slot} {f : FileId}

theorem cached_some (h : s.cached dev inum = some ip) :
    0 < (s.icache ip).ref ∧ (s.icache ip).dev = dev ∧ (s.icache ip).inum = inum := by
  simpa using List.find?_some h

theorem cached_none (h : s.cached dev inum = none) (e : Slot)
    (hr : 0 < (s.icache e).ref) (hd : (s.icache e).dev = dev) : (s.icache e).inum ≠ inum := by
  have he := List.find?_eq_none.mp h e (List.mem_finRange e)
  simp only [decide_eq_true_eq] at he
  exact fun hi => he ⟨hr, hd, hi⟩

theorem empty_some (h : s.empty = some ip) : (s.icache ip).ref = 0 := by
  simpa using List.find?_some h

theorem exec_beginOp (h : exec s p .beginOp = .ok t r) : t = { s with outstanding := s.outstanding + 1 } := by
  unfold exec at h
  dsimp only at h
  split at h <;> cases h
  rfl

theorem exec_iget {r : Slot} (h : exec s p (.iget dev inum) = .ok t r) : s.cached dev inum = some r ∧
        t = (s.setEntry r { s.icache r with ref := (s.icache r).ref + 1 }).hold p r ∨
      s.cached dev inum = none ∧ s.empty = some r ∧ t = (s.setEntry r { s.icache r with
        dev := dev, inum := inum, ref := 1, valid := false }).hold p r := by
  unfold exec at h
  dsimp only at h
  cases hc : s.cached dev inum with
  | some ip =>
    rw [hc] at h
    cases h
    exact Or.inl ⟨rfl, rfl⟩
  | none =>
    rw [hc] at h
    cases he : s.empty with
    | none => simp only [he] at h; cases h
    | some ip =>
      simp only [he] at h
      cases h
      exact Or.inr ⟨rfl, rfl, rfl⟩

theorem exec_acquiresleep {site : Site} (h : exec s p (.acquiresleep ip site) = .ok t r) :
    (s.icache ip).lock = none ∧ t = s.setEntry ip { s.icache ip with lock := some p } := by
  unfold exec at h
  dsimp only at h
  cases hl : (s.icache ip).lock with
  | some q => simp only [hl, Option.isSome_some, if_true] at h; cases h
  | none =>
    simp only [hl, Option.isSome_none, Bool.false_eq_true, if_false] at h
    cases h
    exact ⟨rfl, rfl⟩

theorem exec_load (h : exec s p (.load ip) = .ok t r) : (s.icache ip).valid = true ∧ t = s ∨
    (s.inoOf ip).type ≠ .free ∧ t = s.setEntry ip { s.icache ip with valid := true } := by
  unfold exec at h
  dsimp only at h
  split at h
  · rename_i hv
    cases h
    exact Or.inl ⟨hv, rfl⟩
  · split at h
    · cases h
    · rename_i hfree
      cases h
      exact Or.inr ⟨hfree, rfl⟩

theorem exec_iupdate {v : Ino} (h : exec s p (.iupdate ip v) = .ok t r) :
    t = s.setIno (s.icache ip).inum v ∧ t.blocks ≤ FSSIZE := by
  unfold exec at h
  dsimp only at h
  split at h
  · cases h
  · rename_i hb
    cases h
    exact ⟨rfl, Nat.le_of_not_lt hb⟩

theorem exec_ialloc {type : IType} {r : Bool} (h : exec s p (.ialloc inum type) = .ok t r) :
    (s.ino inum).type = .free ∧ t = s.setIno inum ⟨type, 0, 0, 0, []⟩ ∧ r = true ∨
      t = s ∧ r = false := by
  unfold exec at h
  dsimp only at h
  split at h
  · rename_i hf
    cases h
    exact Or.inl ⟨hf, rfl, rfl⟩
  · cases h
    exact Or.inr ⟨rfl, rfl⟩

theorem exec_filealloc {r : Option FileId} (h : exec s p .filealloc = .ok t r) :
    (∃ f, (s.ftable f).ref = 0 ∧ t = s.setFile f { s.ftable f with ref := 1 } ∧ r = some f) ∨
      t = s ∧ r = none := by
  unfold exec at h
  dsimp only at h
  split at h
  · rename_i f hf
    cases h
    exact Or.inl ⟨f, by simpa using List.find?_some hf, rfl, rfl⟩
  · cases h
    exact Or.inr ⟨rfl, rfl⟩

theorem exec_filedup (h : exec s p (.filedup f) = .ok t r) :
    t = s.setFile f { s.ftable f with ref := (s.ftable f).ref + 1 } := by
  unfold exec at h
  dsimp only at h
  split at h <;> cases h
  rfl

theorem exec_fileclose {r : Option File} (h : exec s p (.fileclose f) = .ok t r) : 1 ≤ (s.ftable f).ref ∧
      (1 < (s.ftable f).ref ∧ t = s.setFile f { s.ftable f with ref := (s.ftable f).ref - 1 } ∧ r = none ∨
        (s.ftable f).ref = 1 ∧ r = some (s.ftable f) ∧
          t = if (s.ftable f).type = .inode then
              (s.setFile f { s.ftable f with ref := 0, type := .none }).hold p (s.ftable f).ip
            else s.setFile f { s.ftable f with ref := 0, type := .none }) := by
  unfold exec at h
  dsimp only at h
  split at h
  · cases h
  · split at h
    · rename_i h1 h2
      cases h
      exact ⟨by omega, Or.inl ⟨by omega, rfl, rfl⟩⟩
    · rename_i h1 h2
      cases h
      exact ⟨by omega, Or.inr ⟨by omega, rfl, rfl⟩⟩

theorem exec_fdalloc {r : Option Fd} (h : exec s p (.fdalloc f) = .ok t r) :
    (∃ fd, (s.procs p).ofile fd = none ∧ r = some fd ∧ t = s.setProc p { s.procs p with
        ofile := update (s.procs p).ofile fd (some f) }) ∨ t = s ∧ r = none := by
  unfold exec at h
  dsimp only at h
  split at h
  · rename_i fd hfd
    cases h
    exact Or.inl ⟨fd, by simpa using List.find?_some hfd, rfl, rfl⟩
  · cases h
    exact Or.inr ⟨rfl, rfl⟩

theorem exec_cwd {r : Slot} (h : exec s p .cwd = .ok t r) : (s.procs p).cwd = some r ∧ t = s := by
  unfold exec at h
  dsimp only at h
  split at h
  · rename_i ip hip
    cases h
    exact ⟨hip, rfl⟩
  · cases h

theorem exec_takeCwd {r : Slot} (h : exec s p .takeCwd = .ok t r) :
    (s.procs p).cwd = some r ∧ t = (s.setGone p true).hold p r := by
  unfold exec at h
  dsimp only at h
  split at h
  · rename_i ip hip
    cases h
    exact ⟨hip, rfl⟩
  · cases h

theorem exec_allocproc {r : Option Pid} (h : exec s p .allocproc = .ok t r) :
    (∃ np, (s.procs np).state = .unused ∧ r = some np ∧
        t = s.setProc np { s.procs np with state := .embryo }) ∨ t = s ∧ r = none := by
  unfold exec at h
  dsimp only at h
  split at h
  · rename_i np hnp
    cases h
    exact Or.inl ⟨np, by simpa using List.find?_some hnp, rfl, rfl⟩
  · cases h
    exact Or.inr ⟨rfl, rfl⟩

theorem exec_wait {r : Option Pid} (h : exec s p .wait = .ok t r) : (∃ q, (s.procs q).state = .zombie ∧ r = some q ∧
        t = s.setProc q { s.procs q with parent := none, state := .unused }) ∨ t = s ∧ r = none := by
  unfold exec at h
  dsimp only at h
  split at h
  · rename_i q hq
    cases h
    exact Or.inl ⟨q, by simpa using List.find?_some hq, rfl, rfl⟩
  · split at h
    · cases h
      exact Or.inr ⟨rfl, rfl⟩
    · cases h

end

end Xv6.Kernel
