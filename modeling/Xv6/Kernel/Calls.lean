/-
  The code of the file-system calls: `fs.c` from the inode cache up, `file.c`, `sysfile.c`, and the parts
  of `proc.c`, `exec.c` and `console.c` that deal with inodes and files.

  Each function is written down as it stands in the source, over the actions of `Kernel.State`.  What
  the outside decides is an argument of the call: the bytes of a path (`none` if `argstr` refuses the
  pointer), whether memory could be had, what the console delivers.
-/
import Xv6.Kernel.State

namespace Xv6.Kernel

open Threads

/-- Code of the kernel. -/
abbrev Prog := Code Act Act.R

abbrev act (a : Act) : Prog a.R := Code.perform a

def panic {α : Type} (e : Panic) : Prog α := .act (.panic e) nofun

/-! ## Inodes -/

/-- Lock the given inode. -/
def ilock (ip : Slot) : Prog Unit := do
  if (← act (.ref ip)) < 1 then panic .ilock
  else
    act (.acquiresleep ip .ilock)
    act (.load ip)

/-- Unlock the given inode. -/
def iunlock (ip : Slot) : Prog Unit := do
  let holding ← act (.holdingsleep ip)
  let ref ← act (.ref ip)
  if holding = false ∨ ref < 1 then panic .iunlock
  else act (.releasesleep ip)

/-- Drop a reference to an in-memory inode. -/
def iput (ip : Slot) (site : Site) : Prog Unit := do
  act (.acquiresleep ip site)
  if ← act (.lastRef ip) then act (.ifree ip)
  act (.releasesleep ip)
  act (.deref ip)

/-- Common idiom: unlock, then put. -/
def iunlockput (ip : Slot) (site : Site) : Prog Unit := do
  iunlock ip
  iput ip site

/-- The loop of `ialloc` over the inodes still to be tried. -/
def iallocLoop (dev : Nat) (type : IType) : List Nat → Prog Slot
  | [] => panic .iallocNoInodes
  | inum :: rest => do
    if ← act (.ialloc inum type) then act (.iget dev inum)
    else iallocLoop dev type rest

/-- Allocate an inode on device `dev`. -/
def ialloc (dev : Nat) (type : IType) : Prog Slot :=
  iallocLoop dev type (List.range' 1 (NINODES - 1))

/-- `writei` on an inode that is not a device: the inode afterwards, or `none` for -1. -/
def writei (v : Ino) (off : Nat) (src : List UInt8) : Option Ino :=
  if v.data.length < off ∨ 2 ^ 32 ≤ off + src.length ∨ MAXFILE * BSIZE < off + src.length then none
  else some { v with data := splice v.data off src }

/-! ## Directories -/

/-- The loop of `dirlookup`. -/
def findEntry (data : List UInt8) (name : Name) : Option Nat :=
  (List.range (ndirents data)).find? fun k =>
    (direntAt data k).inum ≠ 0 ∧ (direntAt data k).name = name

/-- The loop of `dirlink`: the first entry not in use, or one past the end. -/
def emptyEntry (data : List UInt8) : Nat :=
  ((List.range (ndirents data)).find? fun k => (direntAt data k).inum = 0).getD (ndirents data)

/-- Look for a directory entry in a directory: the inode, and which entry it is. -/
def dirlookup (dp : Slot) (name : Name) : Prog (Option (Slot × Nat)) := do
  let v ← act (.inode dp)
  if v.type ≠ .dir then panic .notDir
  else
    match findEntry v.data name with
    | some k =>
      let (dev, _) ← act (.ident dp)
      let ip ← act (.iget dev (direntAt v.data k).inum)
      return some (ip, k)
    | none =>
      if v.data.length % DESIZE ≠ 0 then panic .dirlookupRead
      else return none

/-- Write a new directory entry `(name, inum)` into the directory `dp`; `false` for -1. -/
def dirlink (dp : Slot) (name : Name) (inum : Nat) : Prog Bool := do
  match ← dirlookup dp name with
  | some (ip, _) =>
    iput ip .iput
    return false
  | none =>
    let v ← act (.inode dp)
    let k := emptyEntry v.data
    if k = ndirents v.data ∧ v.data.length % DESIZE ≠ 0 then panic .dirlinkRead
    else
      match writei v (DESIZE * k) (Dirent.encode ⟨inum, name⟩) with
      | none => panic .dirlink
      | some w =>
        act (.iupdate dp w)
        return true

/-- Is the directory empty except for `.` and `..`?  The loop of `isdirempty`. -/
def isdirempty (data : List UInt8) : Bool :=
  (List.range' 2 (ndirents data - 2)).all fun k => (direntAt data k).inum = 0

/-! ## Paths -/

/-- The loop of `namex`, at `ip` with the elements still to come; `name` is the buffer. -/
def walk (nameiparent : Bool) : List Name → Slot → Name → Prog (Option (Slot × Name))
  | [], ip, name => do
    if nameiparent then
      iput ip .iput
      return none
    else return some (ip, name)
  | name :: rest, ip, _ => do
    ilock ip
    let v ← act (.inode ip)
    if v.type ≠ .dir then
      iunlockput ip .iput
      return none
    else if nameiparent ∧ rest = [] then
      -- stop one level early
      iunlock ip
      return some (ip, name)
    else
      match ← dirlookup ip name with
      | none =>
        iunlockput ip .iput
        return none
      | some (next, _) =>
        iunlockput ip .iput
        walk nameiparent rest next name

/-- Where a path starts. -/
def pathStart (path : List UInt8) : Prog Slot :=
  if path.head? = some slash then act (.iget ROOTDEV ROOTINO)
  else do
    let cwd ← act .cwd
    act (.idup cwd)
    return cwd

/-- Look up and return the inode for a path name. -/
def namex (path : List UInt8) (nameiparent : Bool) : Prog (Option (Slot × Name)) := do
  let ip ← pathStart path
  walk nameiparent (pathElems path) ip (.ofBytes [])

def namei (path : List UInt8) : Prog (Option Slot) := do
  let r ← namex path false
  return r.map Prod.fst

def nameiparent (path : List UInt8) : Prog (Option (Slot × Name)) := namex path true

/-! ## Files -/

/-- Close file `f`. -/
def fileclose (f : FileId) : Prog Unit := do
  match ← act (.fileclose f) with
  | none => return
  | some ff =>
    match ff.type with
    | .inode =>
      act .beginOp
      iput ff.ip .iput
      act .endOp
    | _ => return

/-- `consoleread` and `consolewrite`, as far as the inode is concerned: they give up its lock while
    they wait. -/
def console (ip : Slot) (r : Int) : Prog Int := do
  iunlock ip
  ilock ip
  return r

/-- The only device with functions. -/
abbrev CONSOLE : Int := 1

/-- `filestat`; `false` for -1. -/
def filestat (f : FileId) : Prog Bool := do
  let ff ← act (.file f)
  if ff.type = .inode then
    ilock ff.ip
    let _ ← act (.inode ff.ip)
    iunlock ff.ip
    return true
  else return false

/-- Read from file `f`: how many bytes.  `input` is what the console delivers. -/
def fileread (f : FileId) (n : Nat) (input : Int) : Prog Int := do
  let ff ← act (.file f)
  if ff.readable = false then return -1
  else
    match ff.type with
    | .pipe => return input
    | .none => panic .fileread
    | .inode =>
      ilock ff.ip
      let v ← act (.inode ff.ip)
      let off := (← act (.file f)).off
      let r ←
        if v.type = .dev then
          if v.major = CONSOLE then console ff.ip input else pure (-1)
        else if v.data.length < off ∨ 2 ^ 32 ≤ off + n then pure (-1)
        else pure ((slice v.data off n).length : Int)
      if 0 < r then act (.setOff f (off + r.toNat))
      iunlock ff.ip
      return r

/-- One round of `filewrite`'s loop: `writei` of at most `max` bytes, in a transaction of its own. -/
def filewriteChunk (f : FileId) (ip : Slot) (src : List UInt8) : Prog Int := do
  act .beginOp
  ilock ip
  let v ← act (.inode ip)
  let off := (← act (.file f)).off
  let r ←
    if v.type = .dev then
      if v.major = CONSOLE then console ip src.length else pure (-1)
    else
      match writei v off src with
      | none => pure (-1)
      | some w => do
        act (.iupdate ip w)
        pure (src.length : Int)
  if 0 < r then act (.setOff f (off + r.toNat))
  iunlock ip
  act .endOp
  return r

/-- The loop of `filewrite`, over the chunks still to be written. -/
def filewriteLoop (f : FileId) (ip : Slot) : List (List UInt8) → Prog Bool
  | [] => return true
  | src :: rest => do
    let r ← filewriteChunk f ip src
    if r < 0 then return false
    else if r ≠ src.length then panic .shortFilewrite
    else filewriteLoop f ip rest

/-- `((MAXOPBLOCKS-1-1-2) / 2) * 512` -/
abbrev maxWrite : Nat := (MAXOPBLOCKS - 1 - 1 - 2) / 2 * 512

/-- What `filewrite` passes to `writei`, one after the other. -/
def chunks (src : List UInt8) : List (List UInt8) :=
  (List.range ((src.length + maxWrite - 1) / maxWrite)).map fun i => slice src (i * maxWrite) maxWrite

/-- Write to file `f`, `maxWrite` bytes at a time. -/
def filewrite (f : FileId) (src : List UInt8) : Prog Int := do
  let ff ← act (.file f)
  if ff.writable = false then return -1
  else
    match ff.type with
    | .pipe => return src.length
    | .none => panic .filewrite
    | .inode =>
      if ← filewriteLoop f ff.ip (chunks src) then return src.length else return -1

/-! ## System calls -/

/-- `argfd` -/
def argfd (fd : Nat) : Prog (Option (Fd × FileId)) := do
  if h : fd < NOFILE then
    match ← act (.ofile ⟨fd, h⟩) with
    | some f => return some (⟨fd, h⟩, f)
    | none => return none
  else return none

def sysDup (fd : Nat) : Prog Int := do
  match ← argfd fd with
  | none => return -1
  | some (_, f) =>
    match ← act (.fdalloc f) with
    | none => return -1
    | some fd' =>
      act (.filedup f)
      return fd'.val

def sysRead (fd n : Nat) (input : Int) : Prog Int := do
  match ← argfd fd with
  | none => return -1
  | some (_, f) => fileread f n input

def sysWrite (fd : Nat) (src : List UInt8) : Prog Int := do
  match ← argfd fd with
  | none => return -1
  | some (_, f) => filewrite f src

def sysClose (fd : Nat) : Prog Int := do
  match ← argfd fd with
  | none => return -1
  | some (fd, f) =>
    act (.setOfile fd none)
    fileclose f
    return 0

def sysFstat (fd : Nat) : Prog Int := do
  match ← argfd fd with
  | none => return -1
  | some (_, f) => if ← filestat f then return 0 else return -1

/-- The label `bad` of `sys_link`. -/
def linkBad (ip : Slot) : Prog Int := do
  ilock ip
  let v ← act (.inode ip)
  act (.iupdate ip { v with nlink := cShort (v.nlink - 1) })
  iunlockput ip .iput
  act .endOp
  return -1

/-- Create the path `new` as a link to the same inode as `old`. -/
def sysLink (old new : Option (List UInt8)) : Prog Int := do
  match old, new with
  | some old, some new =>
    act .beginOp
    match ← namei old with
    | none =>
      act .endOp
      return -1
    | some ip =>
      ilock ip
      let v ← act (.inode ip)
      if v.type = .dir then
        iunlockput ip .iput
        act .endOp
        return -1
      else
        act (.iupdate ip { v with nlink := cShort (v.nlink + 1) })
        iunlock ip
        match ← nameiparent new with
        | none => linkBad ip
        | some (dp, name) =>
          ilock dp
          let (dev, _) ← act (.ident dp)
          let (dev', inum) ← act (.ident ip)
          let linked ← if dev ≠ dev' then pure false else dirlink dp name inum
          if linked then
            iunlockput dp .iput
            iput ip .iput
            act .endOp
            return 0
          else
            iunlockput dp .iput
            linkBad ip
  | _, _ => return -1

/-- The label `bad` of `sys_unlink`. -/
def unlinkBad (dp : Slot) : Prog Int := do
  iunlockput dp .iput
  act .endOp
  return -1

def sysUnlink (path : Option (List UInt8)) : Prog Int := do
  match path with
  | none => return -1
  | some path =>
    act .beginOp
    match ← nameiparent path with
    | none =>
      act .endOp
      return -1
    | some (dp, name) =>
      ilock dp
      if name = dot ∨ name = dotdot then unlinkBad dp
      else
        match ← dirlookup dp name with
        | none => unlinkBad dp
        | some (ip, k) =>
          ilock ip
          let v ← act (.inode ip)
          if v.nlink < 1 then panic .unlinkNlink
          else if v.type = .dir ∧ isdirempty v.data = false then
            iunlockput ip .iput
            unlinkBad dp
          else if v.type = .dir ∧ 2 ≤ ndirents v.data ∧ v.data.length % DESIZE ≠ 0 then
            panic .isdiremptyRead
          else
            let d ← act (.inode dp)
            match writei d (DESIZE * k) (List.replicate DESIZE 0) with
            | none => panic .unlinkWritei
            | some w =>
              act (.iupdate dp w)
              if v.type = .dir then
                let d ← act (.inode dp)
                act (.iupdate dp { d with nlink := cShort (d.nlink - 1) })
              iunlockput dp .iputHolding
              let v ← act (.inode ip)
              act (.iupdate ip { v with nlink := cShort (v.nlink - 1) })
              iunlockput ip .iput
              act .endOp
              return 0

/-- The part of `create` in which the name is new: allocate, initialise and link the inode. -/
def createNew (dp : Slot) (name : Name) (type : IType) (major minor : Int) : Prog (Option Slot) := do
  let (dev, parent) ← act (.ident dp)
  let ip ← ialloc dev type
  ilock ip
  let v ← act (.inode ip)
  act (.iupdate ip { v with major := cShort major, minor := cShort minor, nlink := 1 })
  let (_, inum) ← act (.ident ip)
  if type = .dir then
    -- create `.` and `..` entries; no `ip->nlink++` for `.`
    let d ← act (.inode dp)
    act (.iupdate dp { d with nlink := cShort (d.nlink + 1) })
    if (← dirlink ip dot inum) = false then panic .createDots
    else if (← dirlink ip dotdot parent) = false then panic .createDots
  if (← dirlink dp name inum) = false then panic .createDirlink
  else
    iunlockput dp .iputHolding
    return some ip

/-- `create`: the inode, locked, or `none` for 0. -/
def create (path : List UInt8) (type : IType) (major minor : Int) : Prog (Option Slot) := do
  match ← nameiparent path with
  | none => return none
  | some (dp, name) =>
    ilock dp
    match ← dirlookup dp name with
    | some (ip, _) =>
      iunlockput dp .iput
      ilock ip
      let v ← act (.inode ip)
      if type = .file ∧ v.type = .file then return some ip
      else
        iunlockput ip .iput
        return none
    | none => createNew dp name type major minor

abbrev O_WRONLY : UInt32 := 0x001
abbrev O_RDWR : UInt32 := 0x002
abbrev O_CREATE : UInt32 := 0x200

/-- `sys_open`, from the locked inode on. -/
def openFile (ip : Slot) (omode : UInt32) : Prog Int := do
  let failed : Prog Int := do
    iunlockput ip .iput
    act .endOp
    return -1
  match ← act .filealloc with
  | none => failed
  | some f =>
    match ← act (.fdalloc f) with
    | none =>
      fileclose f
      failed
    | some fd =>
      iunlock ip
      act .endOp
      act (.openFile f ip (omode &&& O_WRONLY = 0) (omode &&& O_WRONLY ≠ 0 ∨ omode &&& O_RDWR ≠ 0))
      return fd.val

def sysOpen (path : Option (List UInt8)) (omode : UInt32) : Prog Int := do
  match path with
  | none => return -1
  | some path =>
    act .beginOp
    if omode &&& O_CREATE ≠ 0 then
      match ← create path .file 0 0 with
      | none =>
        act .endOp
        return -1
      | some ip => openFile ip omode
    else
      match ← namei path with
      | none =>
        act .endOp
        return -1
      | some ip =>
        ilock ip
        let v ← act (.inode ip)
        if v.type = .dir ∧ omode ≠ 0 then
          iunlockput ip .iput
          act .endOp
          return -1
        else openFile ip omode

/-- `sys_mkdir` and `sys_mknod`. -/
def sysCreate (path : Option (List UInt8)) (type : IType) (major minor : Int) : Prog Int := do
  act .beginOp
  match path with
  | none =>
    act .endOp
    return -1
  | some path =>
    match ← create path type major minor with
    | none =>
      act .endOp
      return -1
    | some ip =>
      iunlockput ip .iput
      act .endOp
      return 0

def sysMkdir (path : Option (List UInt8)) : Prog Int := sysCreate path .dir 0 0

def sysMknod (path : Option (List UInt8)) (major minor : Int) : Prog Int :=
  sysCreate path .dev major minor

def sysChdir (path : Option (List UInt8)) : Prog Int := do
  act .beginOp
  match path with
  | none =>
    act .endOp
    return -1
  | some path =>
    match ← namei path with
    | none =>
      act .endOp
      return -1
    | some ip =>
      ilock ip
      let v ← act (.inode ip)
      if v.type ≠ .dir then
        iunlockput ip .iput
        act .endOp
        return -1
      else
        iunlock ip
        let old ← act .takeCwd
        iput old .iput
        act .endOp
        act (.setCwd (some ip))
        return 0

/-- `exec`, as far as the inode is concerned; `loads` says whether the program could be loaded. -/
def sysExec (path : Option (List UInt8)) (loads : Bool) : Prog Int := do
  match path with
  | none => return -1
  | some path =>
    act .beginOp
    match ← namei path with
    | none =>
      act .endOp
      return -1
    | some ip =>
      ilock ip
      let _ ← act (.inode ip)
      iunlockput ip .iput
      act .endOp
      return if loads then 0 else -1

/-- `sys_pipe`; `mem` says whether `kalloc` succeeds. -/
def sysPipe (mem : Bool) : Prog Int := do
  match ← act .filealloc with
  | none => return -1
  | some rf =>
    match ← act .filealloc with
    | none =>
      fileclose rf
      return -1
    | some wf =>
      if mem = false then
        fileclose rf
        fileclose wf
        return -1
      else
        act (.pipeFile rf false)
        act (.pipeFile wf true)
        match ← act (.fdalloc rf) with
        | none =>
          fileclose rf
          fileclose wf
          return -1
        | some fd0 =>
          match ← act (.fdalloc wf) with
          | none =>
            act (.setOfile fd0 none)
            fileclose rf
            fileclose wf
            return -1
          | some _ => return 0

/-- The loop of `fork` over the file descriptors. -/
def forkFiles (np : Pid) : List Fd → Prog Unit
  | [] => return
  | fd :: rest => do
    match ← act (.ofile fd) with
    | none => forkFiles np rest
    | some f =>
      act (.filedup f)
      act (.childOfile np fd f)
      forkFiles np rest

/-- `fork`; `mem` says whether memory could be had. -/
def sysFork (mem : Bool) : Prog Int := do
  match ← act .allocproc with
  | none => return -1
  | some np =>
    if mem = false then
      act (.freeproc np)
      return -1
    else
      act (.adopt np)
      forkFiles np (List.finRange NOFILE)
      let cwd ← act .cwd
      act (.idup cwd)
      act (.childCwd np cwd)
      act (.start np)
      return np.val

/-- The loop of `exit` over the file descriptors. -/
def exitFiles : List Fd → Prog Unit
  | [] => return
  | fd :: rest => do
    match ← act (.ofile fd) with
    | none => exitFiles rest
    | some f =>
      fileclose f
      act (.setOfile fd none)
      exitFiles rest

def sysExit : Prog Int := do
  if (← act .myproc) = initproc then panic .initExiting
  else
    exitFiles (List.finRange NOFILE)
    act .beginOp
    let cwd ← act .takeCwd
    iput cwd .iput
    act .endOp
    act (.setCwd none)
    act .zombie
    return 0

def sysWait : Prog Int := do
  match ← act .wait with
  | some q => return q.val
  | none => return -1

/-- The calls, with what the outside decides. -/
inductive Call
  | dup (fd : Nat)
  | read (fd n : Nat) (input : Int)
  | write (fd : Nat) (src : List UInt8)
  | close (fd : Nat)
  | fstat (fd : Nat)
  | link (old new : Option (List UInt8))
  | unlink (path : Option (List UInt8))
  | openFile (path : Option (List UInt8)) (omode : UInt32)
  | mkdir (path : Option (List UInt8))
  | mknod (path : Option (List UInt8)) (major minor : Int)
  | chdir (path : Option (List UInt8))
  | execProg (path : Option (List UInt8)) (loads : Bool)
  | pipe (mem : Bool)
  | fork (mem : Bool)
  | exit
  | wait

def Call.code : Call → Prog Int
  | .dup fd => sysDup fd
  | .read fd n input => sysRead fd n input
  | .write fd src => sysWrite fd src
  | .close fd => sysClose fd
  | .fstat fd => sysFstat fd
  | .link old new => sysLink old new
  | .unlink path => sysUnlink path
  | .openFile path omode => sysOpen path omode
  | .mkdir path => sysMkdir path
  | .mknod path major minor => sysMknod path major minor
  | .chdir path => sysChdir path
  | .execProg path loads => sysExec path loads
  | .pipe mem => sysPipe mem
  | .fork mem => sysFork mem
  | .exit => sysExit
  | .wait => sysWait

/-! ## The system -/

/-- The kernel after boot, with the inodes `ino` on disk: the first process is in the root directory. -/
def boot (ino : Nat → Ino) : St where
  ino := ino
  icache := fun ip => if ip = 0 then ⟨ROOTDEV, ROOTINO, 1, none, false⟩ else ⟨0, 0, 0, none, false⟩
  ftable := fun _ => ⟨.none, 0, false, false, 0, 0⟩
  procs := fun p =>
    if p = initproc then ⟨.runnable, none, some 0, fun _ => none⟩
    else ⟨.unused, none, none, fun _ => none⟩
  outstanding := 0
  held := fun _ _ => 0
  gone := fun _ => false

/-- The file-system calls over the shared state, started in a state that satisfies `init`. -/
def kernel (init : St → Prop) : Threads.Kernel St Pid Act Act.R Panic Call Int where
  exec := exec
  code := Call.code
  mayCall := fun s p => decide ((s.procs p).state = .runnable)
  init := init

end Xv6.Kernel
