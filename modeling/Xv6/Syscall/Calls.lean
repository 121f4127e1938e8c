/-
  THE TWENTY-SIX SYSTEM CALLS (sysfile.c, sysproc.c, file.c, and of proc.c `fork`, `exit` and the semaphores),
  and `syscall`, which picks one by `%eax`.

  The loops that wait for somebody else, in `sem_acquire` and `sys_sleep`, are followed for `turns` rounds; as
  `turns` is arbitrary, nothing a call does is left out.

  `sys_sem_init`, `sys_sem_acquire` and `sys_sem_release` differ from the other calls: they do not look at what
  `argint` returns, so when it fails the local `i` keeps what was on the stack; and nobody looks at `i`.
-/
import Xv6.Syscall.Entry

namespace Xv6.Syscall

open Threads
open Kernel (Name Dirent DESIZE dot dotdot)

/-! ## Files -/

/-- Get metadata about file `f`; `false` for -1. -/
def filestat (f : FileId) : Prog Bool := do
  let ff ← act (.file f)
  match ff.type with
  | .inode =>
    act (.ilock ff.ip)
    let _ ← act (.inode ff.ip)
    act (.iunlock ff.ip)
    return true
  | _ => return false

/-- Read from file `f`. -/
def fileread (f : FileId) (n : BitVec 32) : Prog Int := do
  let ff ← act (.file f)
  if ff.readable = false then return -1
  else
    match ff.type with
    | .pipe => act (.piperead f n)
    | .inode =>
      act (.ilock ff.ip)
      let ff ← act (.file f)
      let (r, _) ← readi ff.ip ff.off n
      if 0 < r then act (.setFile f { ff with off := ff.off + BitVec.ofInt 32 r })
      act (.iunlock ff.ip)
      return r
    | .none => panic "fileread"

/-- `((MAXOPBLOCKS-1-1-2) / 2) * 512` -/
abbrev max : Nat := (MAXOPBLOCKS - 1 - 1 - 2) / 2 * 512

/-- The loop of `filewrite`, with `src` still to be written; `false` when it breaks off. -/
def writeChunks (f : FileId) : Nat → List UInt8 → Prog Bool
  | 0, _ => return true
  | k + 1, src => do
    if src = [] then return true
    else
      let chunk := src.take max
      act .beginOp
      let ff ← act (.file f)
      act (.ilock ff.ip)
      let ff ← act (.file f)
      let r ← writei ff.ip ff.off chunk
      if 0 < r then act (.setFile f { ff with off := ff.off + BitVec.ofInt 32 r })
      act (.iunlock ff.ip)
      act .endOp
      if r < 0 then return false
      else if r ≠ chunk.length then panic "short filewrite"
      else writeChunks f k (src.drop max)

/-- Write to file `f`. -/
def filewrite (f : FileId) (src : List UInt8) : Prog Int := do
  let ff ← act (.file f)
  if ff.writable = false then return -1
  else
    match ff.type with
    | .pipe => act (.pipewrite f src)
    | .inode => if ← writeChunks f src.length src then return src.length else return -1
    | .none => panic "filewrite"

/-! ## `sysfile.c` -/

section

variable (U : Caller)

/-- Fetch the `n`th argument as a file descriptor: the descriptor and its file. -/
def argfd (n : Nat) : Prog (Option (Int × FileId)) := do
  match U.argint n with
  | none => return none
  | some w =>
    let fd := w.toInt
    if fd < 0 ∨ NOFILE ≤ fd then return none
    else
      match ← act (.ofile .curproc fd) with
      | none => return none
      | some f => return some (fd, f)

/-- The loop of `fdalloc`, over the descriptors still to be tried. -/
def fdallocLoop (f : FileId) : List Nat → Prog Int
  | [] => return -1
  | fd :: rest => do
    match ← act (.ofile .curproc fd) with
    | none =>
      act (.setOfile .curproc fd (some f))
      return fd
    | some _ => fdallocLoop f rest

/-- Allocate a file descriptor for the given file. -/
def fdalloc (f : FileId) : Prog Int := fdallocLoop f (List.range NOFILE)

def sysDup : Prog Int := do
  match ← argfd U 0 with
  | none => return -1
  | some (_, f) =>
    let fd ← fdalloc f
    if fd < 0 then return -1
    else
      act (.filedup f)
      return fd

def sysRead : Prog Int := do
  match ← argfd U 0 with
  | none => return -1
  | some (_, f) =>
    match U.argint 2 with
    | none => return -1
    | some n =>
      match U.argptr 1 n.toInt with
      | none => return -1
      | some _ => fileread f n

def sysWrite : Prog Int := do
  match ← argfd U 0 with
  | none => return -1
  | some (_, f) =>
    match U.argint 2 with
    | none => return -1
    | some n =>
      match U.argptr 1 n.toInt with
      | none => return -1
      | some p => filewrite f (U.bytes p n.toNat)

def sysClose : Prog Int := do
  match ← argfd U 0 with
  | none => return -1
  | some (fd, f) =>
    act (.setOfile .curproc fd none)
    act (.fileclose f)
    return 0

def sysFstat : Prog Int := do
  match ← argfd U 0 with
  | none => return -1
  | some (_, f) =>
    match U.argptr 1 20 with
    | none => return -1
    | some _ => if ← filestat f then return 0 else return -1

/-- The label `bad` of `sys_link`. -/
def linkBad (ip : Slot) : Prog Int := do
  act (.ilock ip)
  let v ← act (.inode ip)
  act (.iupdate ip { v with nlink := cShort (v.nlink - 1) })
  iunlockput ip
  act .endOp
  return -1

/-- `dp->dev != ip->dev || dirlink(dp, name, ip->inum) < 0` -/
def linkInto (dp ip : Slot) (name : Name) : Prog Bool := do
  let d ← act (.inode dp)
  let v ← act (.inode ip)
  if d.dev ≠ v.dev then return false else dirlink dp name v.inum

def sysLink : Prog Int := do
  match U.argstr 0, U.argstr 1 with
  | some old, some new =>
    act .beginOp
    match ← namei old with
    | none =>
      act .endOp
      return -1
    | some ip =>
      act (.ilock ip)
      let v ← act (.inode ip)
      if v.type = T_DIR then
        iunlockput ip
        act .endOp
        return -1
      else
        act (.iupdate ip { v with nlink := cShort (v.nlink + 1) })
        act (.iunlock ip)
        match ← nameiparent new with
        | none => linkBad ip
        | some (dp, name) =>
          act (.ilock dp)
          if ← linkInto dp ip name then
            iunlockput dp
            act (.iput ip)
            act .endOp
            return 0
          else
            iunlockput dp
            linkBad ip
  | _, _ => return -1

def isdiremptyLoop (dp : Slot) : List Nat → Prog Bool
  | [] => return true
  | off :: rest => do
    let de ← readEntry dp off "isdirempty: readi"
    if de.inum ≠ 0 then return false else isdiremptyLoop dp rest

/-- Is the directory empty except for `.` and `..`? -/
def isdirempty (dp : Slot) : Prog Bool := do
  let v ← act (.inode dp)
  isdiremptyLoop dp (entries 2 v.size)

/-- `ip->type == T_DIR && !isdirempty(ip)` -/
def inUse (ip : Slot) (v : Inode) : Prog Bool := do
  if v.type = T_DIR then return !(← isdirempty ip) else return false

/-- The label `bad` of `sys_unlink`. -/
def unlinkBad (dp : Slot) : Prog Int := do
  iunlockput dp
  act .endOp
  return -1

/-- The part of `sys_unlink` after the checks. -/
def unlinkEntry (dp ip : Slot) (off : Nat) : Prog Int := do
  if (← writei dp (BitVec.ofNat 32 off) (List.replicate DESIZE 0)) ≠ DESIZE then panic "unlink: writei"
  else
    if (← act (.inode ip)).type = T_DIR then
      let d ← act (.inode dp)
      act (.iupdate dp { d with nlink := cShort (d.nlink - 1) })
    iunlockput dp
    let v ← act (.inode ip)
    act (.iupdate ip { v with nlink := cShort (v.nlink - 1) })
    iunlockput ip
    act .endOp
    return 0

def sysUnlink : Prog Int := do
  match U.argstr 0 with
  | none => return -1
  | some path =>
    act .beginOp
    match ← nameiparent path with
    | none =>
      act .endOp
      return -1
    | some (dp, name) =>
      act (.ilock dp)
      if name = dot ∨ name = dotdot then unlinkBad dp
      else
        match ← dirlookup dp name with
        | none => unlinkBad dp
        | some (ip, off) =>
          act (.ilock ip)
          let v ← act (.inode ip)
          if v.nlink < 1 then panic "unlink: nlink < 1"
          else
            if ← inUse ip v then
              iunlockput ip
              unlinkBad dp
            else unlinkEntry dp ip off

abbrev O_RDONLY : BitVec 32 := 0x000
abbrev O_WRONLY : BitVec 32 := 0x001
abbrev O_RDWR : BitVec 32 := 0x002
abbrev O_CREATE : BitVec 32 := 0x200

/-- The part of `sys_open` after the inode is found and locked. -/
def openFile (ip : Slot) (omode : BitVec 32) : Prog Int := do
  match ← act .filealloc with
  | none =>
    iunlockput ip
    act .endOp
    return -1
  | some f =>
    let fd ← fdalloc f
    if fd < 0 then
      act (.fileclose f)
      iunlockput ip
      act .endOp
      return -1
    else
      act (.iunlock ip)
      act .endOp
      act (.setFile f {
        type := .inode, ip := ip, off := 0
        readable := omode &&& O_WRONLY = 0
        writable := omode &&& O_WRONLY ≠ 0 ∨ omode &&& O_RDWR ≠ 0 })
      return fd

def sysOpen : Prog Int := do
  match U.argstr 0, U.argint 1 with
  | some path, some omode =>
    act .beginOp
    if omode &&& O_CREATE ≠ 0 then
      match ← create path T_FILE 0 0 with
      | none =>
        act .endOp
        return -1
      | some ip => openFile ip omode
    else
      match ← namei path with
      | none =>
        act .endOp
        return -1
      | some ip =>
        act (.ilock ip)
        let v ← act (.inode ip)
        if v.type = T_DIR ∧ omode ≠ O_RDONLY then
          iunlockput ip
          act .endOp
          return -1
        else openFile ip omode
  | _, _ => return -1

/-- What `sys_mkdir` and `sys_mknod` do inside their transaction. -/
def createAndPut (path : List UInt8) (type major minor : Int) : Prog Int := do
  match ← create path type major minor with
  | none =>
    act .endOp
    return -1
  | some ip =>
    iunlockput ip
    act .endOp
    return 0

def sysMkdir : Prog Int := do
  act .beginOp
  match U.argstr 0 with
  | none =>
    act .endOp
    return -1
  | some path => createAndPut path T_DIR 0 0

def sysMknod : Prog Int := do
  act .beginOp
  match U.argstr 0, U.argint 1, U.argint 2 with
  | some path, some major, some minor => createAndPut path T_DEV (cShort major.toInt) (cShort minor.toInt)
  | _, _, _ =>
    act .endOp
    return -1

def sysChdir : Prog Int := do
  act .beginOp
  match U.argstr 0 with
  | none =>
    act .endOp
    return -1
  | some path =>
    match ← namei path with
    | none =>
      act .endOp
      return -1
    | some ip =>
      act (.ilock ip)
      let v ← act (.inode ip)
      if v.type ≠ T_DIR then
        iunlockput ip
        act .endOp
        return -1
      else
        act (.iunlock ip)
        act .iputCwd
        act .endOp
        act (.setCwd (some ip))
        return 0

/-- The loop of `sys_exec`, with room for this many strings; `none` for -1. -/
def argvLoop : Nat → BitVec 32 → Option (List (List UInt8))
  | 0, _ => none
  | k + 1, uargv =>
    match U.fetchint uargv with
    | none => none
    | some uarg =>
      if uarg = 0 then some []
      else
        match U.fetchstr uarg with
        | none => none
        | some arg => (argvLoop k (uargv + 4)).map (arg :: ·)

def sysExec : Prog Int := do
  match U.argstr 0, U.argint 1 with
  | some path, some uargv =>
    match argvLoop U MAXARG uargv with
    | none => return -1
    | some argv => exec path argv
  | _, _ => return -1

/-- What `sys_pipe` undoes when a descriptor is missing. -/
def pipeBad (fd0 : Int) (rf wf : FileId) : Prog Int := do
  if 0 ≤ fd0 then act (.setOfile .curproc fd0 none)
  act (.fileclose rf)
  act (.fileclose wf)
  return -1

def sysPipe : Prog Int := do
  match U.argptr 0 8 with
  | none => return -1
  | some fd =>
    match ← act .pipealloc with
    | none => return -1
    | some (rf, wf) =>
      let fd0 ← fdalloc rf
      if fd0 < 0 then pipeBad fd0 rf wf
      else
        let fd1 ← fdalloc wf
        if fd1 < 0 then pipeBad fd0 rf wf
        else
          act (.storeUser fd fd0)
          act (.storeUser (fd + 4) fd1)
          return 0

/-! ## `sysproc.c`, `proc.c` -/

/-- The loop of `fork` over the open files. -/
def forkFiles : List Nat → Prog Unit
  | [] => return
  | i :: rest => do
    match ← act (.ofile .curproc i) with
    | none => forkFiles rest
    | some f =>
      act (.filedup f)
      act (.setOfile .np i (some f))
      forkFiles rest

def sysFork : Prog Int := do
  if (← act .allocproc) = false then return -1
  else if (← act .copyuvm) = false then
    act .freeproc
    return -1
  else
    forkFiles (List.range NOFILE)
    let _ ← act .idupCwd
    act .runnable

/-- The loop of `exit` that closes all open files. -/
def exitFiles : List Nat → Prog Unit
  | [] => return
  | fd :: rest => do
    match ← act (.ofile .curproc fd) with
    | none => exitFiles rest
    | some f =>
      act (.fileclose f)
      act (.setOfile .curproc fd none)
      exitFiles rest

def sysExit : Prog Int := do
  if U.isInit then panic "init exiting"
  else
    exitFiles (List.range NOFILE)
    act .beginOp
    act .iputCwd
    act .endOp
    act (.setCwd none)
    .act .zombie nofun

def sysWait : Prog Int := act .wait

def sysKill : Prog Int := do
  match U.argint 0 with
  | none => return -1
  | some pid => act (.kill pid)

def sysGetpid : Prog Int := act .getpid

def sysSbrk : Prog Int := do
  match U.argint 0 with
  | none => return -1
  | some n => if ← act (.growproc n) then return U.sz.toInt else return -1

/-- The loop of `sys_sleep`. -/
def sleepLoop (ticks0 n : BitVec 32) : Nat → Prog Int
  | 0 => .act .waits nofun
  | k + 1 => do
    let ticks ← act .ticks
    if ticks - ticks0 < n then
      if ← act .killed then return -1
      else
        act .sleepTicks
        sleepLoop ticks0 n k
    else return 0

def sysSleep (turns : Nat) : Prog Int := do
  match U.argint 0 with
  | none => return -1
  | some n =>
    let ticks0 ← act .ticks
    sleepLoop ticks0 n turns

def sysUptime : Prog Int := do
  let xticks ← act .ticks
  return xticks.toInt

def sysFlpf : Prog Int := act (.flpf U.ebx)

def sysGetParentPid : Prog Int := act .parentPid

/-! ### The semaphores -/

def semInit (i v : Int) : Prog Int := do
  act (.acquire i)
  let s ← act (.spoon i)
  if s.locked ≠ 0 then
    act (.release i)
    return -1
  else
    act (.setSpoon i { locked := 1, val := v, owner := -1 })
    act (.release i)
    return 0

/-- `while (spoons[i].val < 1) sleep(...)` -/
def semWait (i : Int) : Nat → Prog Unit
  | 0 => .act .waits nofun
  | k + 1 => do
    let s ← act (.spoon i)
    if s.val < 1 then
      act (.sleepOn i)
      semWait i k
    else return

/-- `spoons[i].owner = i; spoons[i].val -= 1;` -/
def semTake (i : Int) : Prog Unit := do
  let s ← act (.spoon i)
  act (.setSpoon i { s with owner := i, val := cInt (s.val - 1) })

def semAcquire (i : Int) (turns : Nat) : Prog Int := do
  act (.acquire i)
  let s ← act (.spoon i)
  if s.val > 0 then semTake i
  else
    semWait i turns
    semTake i
  act (.release i)
  return 0

def semRelease (i : Int) : Prog Int := do
  act (.acquire i)
  let s ← act (.spoon i)
  act (.setSpoon i { s with owner := -1, val := cInt (s.val + 1) })
  act (.wakeup i)
  act (.release i)
  return 0

/-- The local `i` after `argint(0,&i)`, the result of which nobody looks at. -/
def Caller.spoon : Int := ((U.argint 0).getD U.i).toInt

/-- The local `v` after `argint(1,&v)`. -/
def Caller.value : Int := ((U.argint 1).getD U.v).toInt

def sysSemInit : Prog Int := semInit U.spoon U.value

def sysSemAcquire (turns : Nat) : Prog Int := semAcquire U.spoon turns

def sysSemRelease : Prog Int := semRelease U.spoon

/-! ## `syscall.c` -/

inductive Call
  | fork | exit | wait | pipe | read | kill | exec | fstat | chdir | dup | getpid | sbrk | sleep | uptime | «open»
  | write | mknod | unlink | link | mkdir | close | flpf | getParentPid | semInit | semAcquire | semRelease
  deriving DecidableEq

/-- The entries of `syscalls[]`; entry 0 is null. -/
def table : List (Option Call) :=
  [none, some .fork, some .exit, some .wait, some .pipe, some .read, some .kill, some .exec, some .fstat,
    some .chdir, some .dup, some .getpid, some .sbrk, some .sleep, some .uptime, some .open, some .write,
    some .mknod, some .unlink, some .link, some .mkdir, some .close, some .flpf, some .getParentPid,
    some .semInit, some .semAcquire, some .semRelease]

/-- The function an entry points to. -/
def Call.code (turns : Nat) : Call → Prog Int
  | fork => sysFork
  | exit => sysExit U
  | wait => sysWait
  | pipe => sysPipe U
  | read => sysRead U
  | kill => sysKill U
  | exec => sysExec U
  | fstat => sysFstat U
  | chdir => sysChdir U
  | dup => sysDup U
  | getpid => sysGetpid
  | sbrk => sysSbrk U
  | sleep => sysSleep U turns
  | uptime => sysUptime
  | «open» => sysOpen U
  | write => sysWrite U
  | mknod => sysMknod U
  | unlink => sysUnlink U
  | link => sysLink U
  | mkdir => sysMkdir U
  | close => sysClose U
  | flpf => sysFlpf U
  | getParentPid => sysGetParentPid
  | semInit => sysSemInit U
  | semAcquire => sysSemAcquire U turns
  | semRelease => sysSemRelease U

/-- `cprintf("%d %s: unknown sys call %d\n", ...); curproc->tf->eax = -1;` -/
def unknownCall : Prog Int := do
  act .cprintf
  return -1

/-- `syscall`: what it leaves in `%eax`. -/
def syscall (turns : Nat) : Prog Int := do
  let num := U.eax.toInt
  if 0 < num ∧ num < table.length then
    act (.syscalls num)
    match (table[num.toNat]?).join with
    | some c =>
      act (.syscalls num)
      c.code U turns
    | none => unknownCall
  else unknownCall

end

end Xv6.Syscall
