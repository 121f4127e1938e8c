/-
  NO TABLE IS INDEXED OUTSIDE ITS BOUNDS.

  `Safe c`: whatever its actions are answered, the code `c` accesses the four tables within their bounds only.
  `Only`'s equations are `simp` lemmas, so code is executed symbolically: a function is unfolded, and the
  functions it calls are replaced by what is known of them.  An access is checked where it is made:

  * `readi_safe`, `writei_safe` — `devsw[]`, by the test on `major`;
  * `argfd_safe` — `ofile[]`, by the test on `fd`; `fdalloc_safe`, `forkFiles_safe`, `exitFiles_safe`, by the
    bound of the loop, and the result of `fdalloc` is a descriptor again;
  * `semInit_safe`, `semAcquire_safe`, `semRelease_safe` — `spoons[]`, only if the caller gives one of the six.

  Everything else reaches the tables through these.
-/
import Xv6.Syscall.Calls

namespace Xv6.Syscall

open Threads
open Kernel (Name Dirent)

/-- Every access is within bounds. -/
abbrev Safe {α : Type} (c : Prog α) : Prop := Only Act.InBounds c fun _ => True

variable {why : String} {k : Nat} {off n : BitVec 32} {src path : List UInt8} {offs : List Nat} {parent : Bool}

section Inodes

variable {ip dp : Slot} {name : Name}

@[simp] theorem panic_safe {α : Type} : Safe (panic why : Prog α) := by
  simp [panic]

@[simp] theorem iunlockput_safe : Safe (iunlockput ip) := by
  simp [iunlockput]

@[simp] theorem readLoop_safe : Safe (readLoop ip k off n) := by
  induction k generalizing off n with
  | zero => simp [readLoop]
  | succ k ih => simp [readLoop, ih]

/-- **Devices, read**: `major` is tested before `devsw[major]`. -/
@[simp] theorem readi_safe : Safe (readi ip off n) := by
  simp +contextual [readi, Table.size]

@[simp] theorem writeLoop_safe : Safe (writeLoop ip k off src) := by
  induction k generalizing off src with
  | zero => simp [writeLoop]
  | succ k ih => simp [writeLoop, ih]

/-- **Devices, write**: as for reading. -/
@[simp] theorem writei_safe : Safe (writei ip off src) := by
  simp +contextual [writei, Table.size]

@[simp] theorem readEntry_safe {off : Nat} : Safe (readEntry dp off why) := by
  simp [readEntry]

@[simp] theorem lookupLoop_safe : Safe (lookupLoop dp name offs) := by
  induction offs with
  | nil => simp [lookupLoop]
  | cons off rest ih => simp [lookupLoop, ih]

@[simp] theorem dirlookup_safe : Safe (dirlookup dp name) := by
  simp [dirlookup]

@[simp] theorem emptyEntry_safe {size : Nat} : Safe (emptyEntry dp size offs) := by
  induction offs with
  | nil => simp [emptyEntry]
  | cons off rest ih => simp [emptyEntry, ih]

@[simp] theorem dirlink_safe {inum : Nat} : Safe (dirlink dp name inum) := by
  simp [dirlink, dirlookup_safe.any, Option.forall]

@[simp] theorem walk_safe {names : List Name} : Safe (walk parent names ip name) := by
  induction names generalizing ip name with
  | nil => simp [walk]
  | cons name rest ih => simp [walk, dirlookup_safe.any, Option.forall, ih]

@[simp] theorem namex_safe : Safe (namex path parent) := by
  simp [namex]

@[simp] theorem namei_safe : Safe (namei path) := by
  simp [namei]

@[simp] theorem nameiparent_safe : Safe (nameiparent path) := by
  simp [nameiparent]

@[simp] theorem create_safe {type major minor : Int} : Safe (create path type major minor) := by
  simp [create, createNew, nameiparent_safe.any, dirlookup_safe.any, Option.forall]

end Inodes

variable {argv : List (List UInt8)}

section Exec

variable {ip : Slot} {addr offset sz : BitVec 32}

@[simp] theorem loadLoop_safe {pages : List Nat} : Safe (loadLoop addr ip offset sz pages) := by
  induction pages with
  | nil => simp [loadLoop]
  | cons page rest ih => simp [loadLoop, ih]

@[simp] theorem loaduvm_safe : Safe (loaduvm addr ip offset sz) := by
  simp [loaduvm]

@[simp] theorem loadProgram_safe : Safe (loadProgram ip k off sz) := by
  induction k generalizing off sz with
  | zero => simp [loadProgram]
  | succ k ih => simp [loadProgram, ih]

@[simp] theorem pushArgs_safe {sp : BitVec 32} {ustack : List (BitVec 32)} : Safe (pushArgs argv sp ustack) := by
  induction argv generalizing sp ustack with
  | nil => simp [pushArgs]
  | cons arg rest ih => simp [pushArgs, ih]

@[simp] theorem execBad_safe {pgdir : Bool} {o : Option Slot} : Safe (execBad pgdir o) := by
  cases o <;> simp [execBad]

theorem execStack_safe {entry : BitVec 32} : Safe (execStack argv entry sz) := by
  simp [execStack, pushArgs_safe.any, Option.forall]

theorem exec_safe : Safe (exec path argv) := by
  simp [exec, execStack_safe, namei_safe.any, loadProgram_safe.any, Option.forall]

end Exec

variable {p : Whose}

section Files

variable {U : Caller} {f : FileId}

@[simp] theorem filestat_safe : Safe (filestat f) := by
  unfold filestat
  refine Only.perform nofun fun ff => ?_
  cases ff.type <;> simp

@[simp] theorem fileread_safe : Safe (fileread f n) := by
  unfold fileread
  refine Only.perform nofun fun ff => ?_
  cases ff.type <;> simp

@[simp] theorem writeChunks_safe : Safe (writeChunks f k src) := by
  induction k generalizing src with
  | zero => simp [writeChunks]
  | succ k ih => simp [writeChunks, ih]

@[simp] theorem filewrite_safe : Safe (filewrite f src) := by
  unfold filewrite
  refine Only.perform nofun fun ff => ?_
  cases ff.type <;> simp

/-- A descriptor, as an index of `ofile[]`. -/
def IsFd (fd : Int) : Prop := 0 ≤ fd ∧ fd < NOFILE

theorem ofile_inBounds {fd : Int} (h : IsFd fd) : (Act.ofile p fd).InBounds := by
  rintro t i ⟨⟩
  exact h

theorem setOfile_inBounds {fd : Int} {o : Option FileId} (h : IsFd fd) : (Act.setOfile p fd o).InBounds := by
  rintro t i ⟨⟩
  exact h

theorem isFd_of_mem_range {fd : Nat} (h : fd ∈ List.range NOFILE) : IsFd fd :=
  ⟨Int.natCast_nonneg fd, Int.ofNat_lt.mpr (List.mem_range.mp h)⟩

/-- **Descriptors from the user** are tested before `ofile[fd]`, and what `argfd` returns is one. -/
theorem argfd_safe {n : Nat} {Q : Option (Int × FileId) → Prop} (hnone : Q none)
    (hsome : ∀ fd f, IsFd fd → Q (some (fd, f))) : Only Act.InBounds (argfd U n) Q := by
  unfold argfd
  cases U.argint n with
  | none => exact hnone
  | some w =>
    simp only [Only.ite_iff, Only.bind_iff, Only.perform_iff, Only.pure_iff]
    refine ⟨fun _ => hnone, fun hfd => ?_⟩
    obtain ⟨hlow, hhigh⟩ := not_or.mp hfd
    have hw : IsFd w.toInt := ⟨Int.not_lt.mp hlow, Int.not_le.mp hhigh⟩
    refine ⟨ofile_inBounds hw, fun o => ?_⟩
    cases o with
    | none => exact hnone
    | some f => exact hsome _ f hw

theorem fdallocLoop_safe {Q : Int → Prop} {fds : List Nat} (hfds : ∀ fd ∈ fds, IsFd fd) (hfull : Q (-1))
    (hfd : ∀ fd, IsFd fd → Q fd) : Only Act.InBounds (fdallocLoop f fds) Q := by
  induction fds with
  | nil => exact hfull
  | cons fd rest ih =>
    obtain ⟨hhead, hrest⟩ := List.forall_mem_cons.mp hfds
    have hlt : fd < Table.ofile.size := Int.ofNat_lt.mp hhead.2
    simp [fdallocLoop, Option.forall, hlt, hfd fd hhead, ih hrest]

/-- **Descriptors from the kernel**: `fdalloc` stays below `NOFILE`, and returns a descriptor or -1. -/
theorem fdalloc_safe {Q : Int → Prop} (hfull : Q (-1)) (hfd : ∀ fd, IsFd fd → Q fd) :
    Only Act.InBounds (fdalloc f) Q := fdallocLoop_safe (fun _ => isFd_of_mem_range) hfull hfd

theorem forkFiles_safe {fds : List Nat} (h : ∀ fd ∈ fds, IsFd fd) : Safe (forkFiles fds) := by
  induction fds with
  | nil => trivial
  | cons fd rest ih =>
    obtain ⟨hhead, hrest⟩ := List.forall_mem_cons.mp h
    have hlt : fd < Table.ofile.size := Int.ofNat_lt.mp hhead.2
    simp [forkFiles, Option.forall, hlt, ih hrest]

theorem exitFiles_safe {fds : List Nat} (h : ∀ fd ∈ fds, IsFd fd) : Safe (exitFiles fds) := by
  induction fds with
  | nil => trivial
  | cons fd rest ih =>
    obtain ⟨hhead, hrest⟩ := List.forall_mem_cons.mp h
    have hlt : fd < Table.ofile.size := Int.ofNat_lt.mp hhead.2
    simp [exitFiles, Option.forall, hlt, ih hrest]

end Files

section Calls

variable {U : Caller}

theorem sysDup_safe : Safe (sysDup U) := by
  refine Only.bind_iff.mpr (argfd_safe trivial fun _ f _ => ?_)
  refine Only.bind_iff.mpr (fdalloc_safe trivial fun fd _ => ?_)
  simp

theorem sysRead_safe : Safe (sysRead U) := by
  refine Only.bind_iff.mpr (argfd_safe trivial fun _ f _ => ?_)
  cases U.argint 2 with
  | none => trivial
  | some n => cases hp : U.argptr 1 n.toInt <;> simp [hp]

theorem sysWrite_safe : Safe (sysWrite U) := by
  refine Only.bind_iff.mpr (argfd_safe trivial fun _ f _ => ?_)
  cases U.argint 2 with
  | none => trivial
  | some n => cases hp : U.argptr 1 n.toInt <;> simp [hp]

theorem sysClose_safe : Safe (sysClose U) := by
  refine Only.bind_iff.mpr (argfd_safe trivial fun fd f hfd => ?_)
  exact Only.perform (setOfile_inBounds hfd) fun _ => by simp

theorem sysFstat_safe : Safe (sysFstat U) := by
  refine Only.bind_iff.mpr (argfd_safe trivial fun _ f _ => ?_)
  cases U.argptr 1 20 <;> simp

theorem sysLink_safe : Safe (sysLink U) := by
  unfold sysLink
  cases U.argstr 0 <;> cases U.argstr 1 <;> try trivial
  simp [linkBad, linkInto, namei_safe.any, nameiparent_safe.any, Option.forall]

@[simp] theorem isdiremptyLoop_safe {dp : Slot} : Safe (isdiremptyLoop dp offs) := by
  induction offs with
  | nil => simp [isdiremptyLoop]
  | cons off rest ih => simp [isdiremptyLoop, ih]

theorem sysUnlink_safe : Safe (sysUnlink U) := by
  unfold sysUnlink
  cases U.argstr 0 with
  | none => trivial
  | some path => simp [unlinkBad, unlinkEntry, inUse, isdirempty, nameiparent_safe.any, dirlookup_safe.any, Option.forall]

theorem openFile_safe {ip : Slot} {omode : BitVec 32} : Safe (openFile ip omode) := by
  refine Only.perform nofun fun o => ?_
  cases o with
  | none => simp
  | some f =>
    refine Only.bind_iff.mpr (fdalloc_safe ?_ fun fd _ => ?_)
    · simp
    · simp

theorem sysOpen_safe : Safe (sysOpen U) := by
  unfold sysOpen
  cases U.argstr 0 <;> cases U.argint 1 <;> try trivial
  simp [openFile_safe, create_safe.any, namei_safe.any, Option.forall]

theorem createAndPut_safe {type major minor : Int} : Safe (createAndPut path type major minor) := by
  simp [createAndPut, create_safe.any, Option.forall]

theorem sysMkdir_safe : Safe (sysMkdir U) := by
  refine Only.perform nofun fun _ => ?_
  cases U.argstr 0 <;> simp [createAndPut_safe]

theorem sysMknod_safe : Safe (sysMknod U) := by
  refine Only.perform nofun fun _ => ?_
  cases U.argstr 0 <;> cases U.argint 1 <;> cases U.argint 2 <;> simp [createAndPut_safe]

theorem sysChdir_safe : Safe (sysChdir U) := by
  refine Only.perform nofun fun _ => ?_
  cases U.argstr 0 <;> simp [namei_safe.any, Option.forall]

theorem sysExec_safe : Safe (sysExec U) := by
  unfold sysExec
  cases U.argstr 0 <;> cases hu : U.argint 1 <;> try trivial
  rename_i path uargv
  cases hv : argvLoop U MAXARG uargv with
  | none => simp [hv]
  | some argv => simpa [hv] using exec_safe

theorem pipeBad_safe {fd0 : Int} {rf wf : FileId} (h : 0 ≤ fd0 → IsFd fd0) :
    Safe (pipeBad fd0 rf wf) := by
  unfold pipeBad
  refine Only.ite_iff.mpr ⟨fun hfd => ?_, fun _ => by simp⟩
  exact Only.perform (setOfile_inBounds (h hfd)) fun _ => by simp

/-- `sys_pipe` clears `ofile[fd0]` with the `fd0` it got from `fdalloc`. -/
theorem sysPipe_safe : Safe (sysPipe U) := by
  unfold sysPipe
  cases U.argptr 0 8 with
  | none => trivial
  | some fd =>
    refine Only.perform nofun fun o => ?_
    cases o with
    | none => trivial
    | some x =>
      refine Only.bind_iff.mpr (fdalloc_safe ?_ fun fd0 hfd0 => ?_)
      · rw [if_pos (by decide)]
        exact pipeBad_safe fun h => absurd h (by decide)
      · refine Only.ite_iff.mpr ⟨fun _ => pipeBad_safe fun _ => hfd0, fun _ => ?_⟩
        refine Only.bind_iff.mpr (fdalloc_safe ?_ fun fd1 _ => ?_)
        · exact pipeBad_safe fun _ => hfd0
        · refine Only.ite_iff.mpr ⟨fun _ => pipeBad_safe fun _ => hfd0, fun _ => by simp⟩

theorem sysFork_safe : Safe sysFork := by
  have hfiles : Safe (forkFiles (List.range NOFILE)) := forkFiles_safe fun _ => isFd_of_mem_range
  simp [sysFork, hfiles]

theorem sysExit_safe : Safe (sysExit U) := by
  have hfiles : Safe (exitFiles (List.range NOFILE)) := exitFiles_safe fun _ => isFd_of_mem_range
  simp [sysExit, hfiles]

theorem sysSbrk_safe : Safe (sysSbrk U) := by
  unfold sysSbrk
  cases U.argint 0 <;> simp

theorem sysKill_safe : Safe (sysKill U) := by
  unfold sysKill
  cases U.argint 0 <;> simp

theorem sleepLoop_safe {ticks0 : BitVec 32} {turns : Nat} : Safe (sleepLoop ticks0 n turns) := by
  induction turns with
  | zero => simp [sleepLoop]
  | succ k ih => simp [sleepLoop, ih]

theorem sysSleep_safe {turns : Nat} : Safe (sysSleep U turns) := by
  unfold sysSleep
  cases U.argint 0 <;> simp [sleepLoop_safe]

/-! ### The semaphores -/

/-- An index of `spoons[6]`. -/
def IsSpoon (i : Int) : Prop := 0 ≤ i ∧ i < Table.size .spoons

variable {i : Int} (hi : IsSpoon i)
include hi

theorem semInit_safe {v : Int} : Safe (semInit i v) := by
  simp [semInit, hi.1, hi.2]

theorem semTake_safe : Safe (semTake i) := by
  simp [semTake, hi.1, hi.2]

theorem semWait_safe {turns : Nat} : Safe (semWait i turns) := by
  induction turns with
  | zero => simp [semWait]
  | succ k ih => simp [semWait, hi.1, hi.2, ih]

theorem semAcquire_safe {turns : Nat} : Safe (semAcquire i turns) := by
  simp [semAcquire, hi.1, hi.2, semTake_safe hi, semWait_safe hi]

theorem semRelease_safe : Safe (semRelease i) := by
  simp [semRelease, hi.1, hi.2]

end Calls

/-! ## The whole call -/

/-- `%eax` asks for `sem_init`, `sem_acquire` or `sem_release`. -/
def Caller.AsksSem (U : Caller) : Prop := U.eax.toInt = 24 ∨ U.eax.toInt = 25 ∨ U.eax.toInt = 26

/-- A call on a semaphore gets the index of one of the six, be it from the user's stack or, where `argint`
    fails, from the uninitialised local. -/
def Caller.NamesSpoon (U : Caller) : Prop := U.AsksSem → 0 ≤ U.spoon ∧ U.spoon < 6

/-- The calls that take the index of a semaphore. -/
def Call.OnSem (c : Call) : Prop := c = .semInit ∨ c = .semAcquire ∨ c = .semRelease

instance (c : Call) : Decidable c.OnSem := inferInstanceAs (Decidable (_ ∨ _ ∨ _))

variable {c : Call}

section Syscall

variable {U : Caller} {turns : Nat}

theorem code_safe (h : c.OnSem → IsSpoon U.spoon) : Safe (c.code U turns) := by
  cases c with
  | fork => exact sysFork_safe
  | exit => exact sysExit_safe
  | pipe => exact sysPipe_safe
  | read => exact sysRead_safe
  | kill => exact sysKill_safe
  | exec => exact sysExec_safe
  | fstat => exact sysFstat_safe
  | chdir => exact sysChdir_safe
  | dup => exact sysDup_safe
  | sbrk => exact sysSbrk_safe
  | sleep => exact sysSleep_safe
  | «open» => exact sysOpen_safe
  | write => exact sysWrite_safe
  | mknod => exact sysMknod_safe
  | unlink => exact sysUnlink_safe
  | link => exact sysLink_safe
  | mkdir => exact sysMkdir_safe
  | close => exact sysClose_safe
  | semInit => exact semInit_safe (h (.inl rfl))
  | semAcquire => exact semAcquire_safe (h (.inr (.inl rfl)))
  | semRelease => exact semRelease_safe (h (.inr (.inr rfl)))
  | wait | getpid | uptime | flpf | getParentPid =>
    simp [Call.code, sysWait, sysGetpid, sysUptime, sysFlpf, sysGetParentPid]

/-- The three calls on semaphores are the entries 24, 25 and 26. -/
theorem onSem_of_entry (hk : (table[k]?).join = some c) (hc : c.OnSem) : k = 24 ∨ k = 25 ∨ k = 26 := by
  have hall : ∀ j : Fin 27, ∀ c ∈ (table[j.val]?).join, c.OnSem → j.val = 24 ∨ j.val = 25 ∨ j.val = 26 := by
    decide
  have hlt : k < 27 := by
    by_contra hge
    rw [List.getElem?_eq_none (Nat.not_lt.mp hge)] at hk
    cases hk
  exact hall ⟨k, hlt⟩ c hk hc

theorem syscall_safe (h : U.NamesSpoon) : Safe (syscall U turns) := by
  have hunknown : Safe unknownCall := by simp [unknownCall]
  refine Only.ite_iff.mpr ⟨fun hnum => ?_, fun _ => hunknown⟩
  have haccess : (Act.syscalls U.eax.toInt).InBounds := by
    rintro t i ⟨⟩
    exact ⟨hnum.1.le, hnum.2⟩
  refine Only.perform haccess fun _ => ?_
  cases hc : (table[U.eax.toInt.toNat]?).join with
  | none => exact hunknown
  | some c =>
    refine Only.perform haccess fun _ => code_safe fun hsem => h ?_
    have hentry := onSem_of_entry hc hsem
    unfold Caller.AsksSem
    omega

/-- A call on a semaphore takes its lock first, whatever the index is. -/
theorem code_acquires (U : Caller) (turns : Nat) (hc : c.OnSem) : ∃ d, Does (c.code U turns) [.acquire U.spoon] d := by
  rcases hc with rfl | rfl | rfl
  · exact ⟨_, .act () (.nil _)⟩
  · exact ⟨_, .act () (.nil _)⟩
  · exact ⟨_, .act () (.nil _)⟩

theorem syscall_acquires (turns : Nat) (h : U.AsksSem) :
    ∃ d, Does (syscall U turns) [.syscalls U.eax.toInt, .syscalls U.eax.toInt, .acquire U.spoon] d := by
  obtain ⟨c, hentry, hsem⟩ : ∃ c, (table[U.eax.toInt.toNat]?).join = some c ∧ c.OnSem := by
    rcases h with h | h | h <;> rw [h]
    · exact ⟨.semInit, rfl, .inl rfl⟩
    · exact ⟨.semAcquire, rfl, .inr (.inl rfl)⟩
    · exact ⟨.semRelease, rfl, .inr (.inr rfl)⟩
  have hnum : 0 < U.eax.toInt ∧ U.eax.toInt < (table.length : Int) := by
    have hlen : (table.length : Int) = 27 := rfl
    unfold Caller.AsksSem at h
    omega
  obtain ⟨d, hd⟩ := code_acquires U turns hsem
  refine ⟨d, ?_⟩
  unfold syscall
  rw [if_pos hnum, hentry]
  exact .act () (.act () hd)

/-- The index of a semaphore is the one that has to be asked for. -/
theorem syscall_inBounds_iff :
    (∀ as d, Does (syscall U turns) as d → ∀ a ∈ as, a.InBounds) ↔ U.NamesSpoon := by
  constructor
  · intro hall hasks
    obtain ⟨d, hd⟩ := syscall_acquires turns hasks
    exact hall _ d hd (.acquire U.spoon) (by simp) .spoons U.spoon rfl
  · intro h as d hd
    exact (Only.does hd (syscall_safe h)).1

/-! ### What is refused -/

/-- Argument `n` is no descriptor: it cannot be fetched, or is not an index of `ofile[]`. -/
def Caller.NoFd (U : Caller) (n : Nat) : Prop := ∀ w, U.argint n = some w → ¬ IsFd w.toInt

theorem argfd_refuses {n : Nat} (h : U.NoFd n) : argfd U n = .ret none := by
  unfold argfd
  cases hw : U.argint n with
  | none => rfl
  | some w =>
    have hfd : w.toInt < 0 ∨ (NOFILE : Int) ≤ w.toInt := by
      by_contra hcon
      obtain ⟨hlow, hhigh⟩ := not_or.mp hcon
      exact h w hw ⟨Int.not_lt.mp hlow, Int.not_le.mp hhigh⟩
    exact if_pos hfd

/-- The calls that take a descriptor. -/
def Call.OnFd (c : Call) : Prop := c = .dup ∨ c = .read ∨ c = .write ∨ c = .close ∨ c = .fstat

/-- A call that is given no descriptor returns -1 at once. -/
theorem code_refuses (hc : c.OnFd) (h : U.NoFd 0) : c.code U turns = .ret (-1) := by
  have hnone := argfd_refuses h
  rcases hc with rfl | rfl | rfl | rfl | rfl
  · show sysDup U = _
    rw [sysDup, hnone]
    rfl
  · show sysRead U = _
    rw [sysRead, hnone]
    rfl
  · show sysWrite U = _
    rw [sysWrite, hnone]
    rfl
  · show sysClose U = _
    rw [sysClose, hnone]
    rfl
  · show sysFstat U = _
    rw [sysFstat, hnone]
    rfl

/-- The inode is a device's, and `major` is no index of `devsw[]`. -/
def Inode.NoDevice (v : Inode) : Prop := v.type = T_DEV ∧ ¬ (0 ≤ v.major ∧ v.major < NDEV)

theorem Inode.NoDevice.major {v : Inode} (h : v.NoDevice) : v.major < 0 ∨ (NDEV : Int) ≤ v.major := by
  by_contra hcon
  obtain ⟨hlow, hhigh⟩ := not_or.mp hcon
  exact h.2 ⟨Int.not_lt.mp hlow, Int.not_le.mp hhigh⟩

/-- `readi` finds out that there is no device when it looks at the inode, and returns -1. -/
theorem readi_refuses (ip : Slot) (off n : BitVec 32) :
    ∃ k, readi ip off n = .act (.inode ip) k ∧ ∀ v : Inode, v.NoDevice → k v = .ret (-1, []) := by
  refine ⟨_, rfl, fun v hv => ?_⟩
  show (if v.type = T_DEV then if v.major < 0 ∨ (NDEV : Int) ≤ v.major then _ else _ else _) = _
  rw [if_pos hv.1, if_pos hv.major]
  rfl

theorem writei_refuses (ip : Slot) (off : BitVec 32) (src : List UInt8) :
    ∃ k, writei ip off src = .act (.inode ip) k ∧ ∀ v : Inode, v.NoDevice → k v = .ret (-1) := by
  refine ⟨_, rfl, fun v hv => ?_⟩
  show (if v.type = T_DEV then if v.major < 0 ∨ (NDEV : Int) ≤ v.major then _ else _ else _) = _
  rw [if_pos hv.1, if_pos hv.major]
  rfl

/-- A number that is no system call's gets -1, and no table is looked at. -/
theorem syscall_refuses (h : ¬ (0 < U.eax.toInt ∧ U.eax.toInt < Table.size .syscalls)) :
    syscall U turns = unknownCall := if_neg h

end Syscall

/-- **Which table indices are checked.**  Whatever `%eax`, `%esp` and the user's memory are, and whatever the rest of
    the kernel does: a system call accesses the tables within their bounds if and only if it gets one of the six
    semaphores where it is a call on one.  A number, a descriptor or a device out of bounds is answered with -1
    instead. -/
theorem tables_in_bounds (U : Caller) (turns : Nat) :
    ((∀ as d, Does (syscall U turns) as d → ∀ a ∈ as, a.InBounds) ↔
      (U.AsksSem → 0 ≤ U.spoon ∧ U.spoon < 6)) ∧
    (¬ (0 < U.eax.toInt ∧ U.eax.toInt < Table.size .syscalls) →
      ∀ as x, Does (syscall U turns) as (.ret x) → x = -1 ∧ ∀ a ∈ as, a.index = none) ∧
    (∀ c : Call, c.OnFd → U.NoFd 0 → c.code U turns = .ret (-1)) ∧
    (∀ ip off n, ∃ k, readi ip off n = .act (.inode ip) k ∧ ∀ v : Inode, v.NoDevice → k v = .ret (-1, [])) ∧
    (∀ ip off src, ∃ k, writei ip off src = .act (.inode ip) k ∧ ∀ v : Inode, v.NoDevice → k v = .ret (-1)) := by
  refine ⟨syscall_inBounds_iff, fun hnum as x hd => ?_, fun c hc hfd => code_refuses hc hfd, readi_refuses,
    writei_refuses⟩
  have hquiet : Only (fun a : Act => a.index = none) unknownCall (fun x => x = -1) := by simp [unknownCall]
  rw [syscall_refuses hnum] at hd
  obtain ⟨has, hx⟩ := Only.does hd hquiet
  exact ⟨hx, has⟩

/-- `sem_acquire(i)` from a stack at address 0. -/
def acquires (i : UInt8) : Caller where
  eax := 25
  esp := 0
  ebx := 0
  sz := 4096
  mem := fun a => if a = 4 then i else 0
  isInit := false
  i := 0
  v := 0

theorem tables_in_bounds_acquire : (acquires 5).AsksSem ∧ (acquires 5).spoon = 5 ∧
    ∀ as d, Does (syscall (acquires 5) 1) as d → ∀ a ∈ as, a.InBounds := by
  have hspoon : (acquires 5).spoon = 5 := by decide
  refine ⟨.inr (.inl (by decide)), hspoon, (tables_in_bounds (acquires 5) 1).1.2 fun _ => ?_⟩
  rw [hspoon]
  decide

/-- The same with `%esp` at the end of the address space: `argint` fails, and `i` is what it was. -/
def acquiresUnset (i : BitVec 32) : Caller := { acquires 0 with esp := 4096, i := i }

/-- `sem_acquire(6)`, or `sem_acquire` without an argument, locks beyond the end of `spoons[]`. -/
theorem spoon_outside : (∃ d, Does (syscall (acquires 6) 1) [.syscalls 25, .syscalls 25, .acquire 6] d) ∧
    ((acquiresUnset 6).argint 0 = none ∧
      ∃ d, Does (syscall (acquiresUnset 6) 1) [.syscalls 25, .syscalls 25, .acquire 6] d) ∧
    ¬ (Act.acquire 6).InBounds :=
  ⟨⟨_, .act () (.act () (.act () (.nil _)))⟩, ⟨by decide, _, .act () (.act () (.act () (.nil _)))⟩,
    fun h => absurd (h .spoons 6 rfl).2 (by decide)⟩

end Xv6.Syscall
