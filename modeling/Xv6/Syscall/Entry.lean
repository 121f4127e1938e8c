/-
  FROM `int T_SYSCALL` TO THE TABLES — the arguments of the system calls, and the arrays they index.

  A system call starts from numbers the user chose: `%eax`, `%esp` and the words of the user's memory.  Four
  arrays of the kernel are indexed with what comes from there: `syscalls[]`, `ofile[]`, `devsw[]`, `spoons[]`.

  1. **Arguments** — `fetchint`, `fetchstr`, `argint`, `argptr`, `argstr`: functions of the caller's registers
     and memory, in 32-bit arithmetic.
  2. **Actions** — every access to one of the four arrays is an action that carries the INDEX it uses, whatever
     `int` that is; `Act.index` reads it off.  The functions of the source that touch none of the arrays
     (locks, the log, the page tables, pipes, `wait`, ...) are one action each.
  3. **Inodes** — `readi` and `writei`, with all that calls them on the way: `dirlookup`, `dirlink`, `namex`,
     `create`, `loaduvm`, `exec`.

  An action may be answered in any way: nothing is assumed about the other processes, the disk or memory.
-/
import Xv6.Kernel.Names
import Xv6.Lib.Threads
import Xv6.Sem.Spoons

namespace Xv6.Syscall

open Threads
open Kernel (Name Dirent DESIZE dot dotdot pathElems slash)

/-! ## Arguments -/

/-- What a call reads of the process that makes it. -/
structure Caller where
  /-- `tf->eax`, `tf->esp`, `tf->ebx` -/
  eax : BitVec 32
  esp : BitVec 32
  ebx : BitVec 32
  sz : BitVec 32
  mem : BitVec 32 → UInt8
  /-- The process is `initproc`. -/
  isInit : Bool
  /-- What is in the stack slots of the locals `i` and `v` of `sys_sem_init`, `sys_sem_acquire` and
      `sys_sem_release` before they are assigned. -/
  i : BitVec 32
  v : BitVec 32

namespace Caller

variable (U : Caller)

/-- `*(int*)addr` -/
def word (addr : BitVec 32) : BitVec 32 :=
  (U.mem (addr + 3)).toBitVec ++ (U.mem (addr + 2)).toBitVec ++ (U.mem (addr + 1)).toBitVec ++ (U.mem addr).toBitVec

/-- Fetch the int at `addr`; `none` for -1. -/
def fetchint (addr : BitVec 32) : Option (BitVec 32) :=
  if U.sz ≤ addr ∨ U.sz < addr + 4 then none else some (U.word addr)

/-- The loop of `fetchstr`, with this many bytes before `ep`. -/
def strlenBelow : Nat → BitVec 32 → Option (List UInt8)
  | 0, _ => none
  | k + 1, s => if U.mem s = 0 then some [] else (strlenBelow k (s + 1)).map (U.mem s :: ·)

/-- Fetch the nul-terminated string at `addr`; `none` for -1. -/
def fetchstr (addr : BitVec 32) : Option (List UInt8) :=
  if U.sz ≤ addr then none else U.strlenBelow (U.sz - addr).toNat addr

/-- The `n`th 32-bit argument. -/
def argint (n : Nat) : Option (BitVec 32) := U.fetchint (U.esp + 4 + 4 * BitVec.ofNat 32 n)

/-- The `n`th argument as a pointer to a block of `size` bytes. -/
def argptr (n : Nat) (size : Int) : Option (BitVec 32) := do
  let i ← U.argint n
  if size < 0 ∨ U.sz ≤ i ∨ U.sz < i + BitVec.ofInt 32 size then none else some i

/-- The `n`th argument as a string. -/
def argstr (n : Nat) : Option (List UInt8) := do U.fetchstr (← U.argint n)

/-- The `n` bytes at `addr`. -/
def bytes (addr : BitVec 32) (n : Nat) : List UInt8 :=
  (List.range n).map fun j => U.mem (addr + BitVec.ofNat 32 j)

end Caller

/-! ## Actions -/

/-- A pointer into `ftable.file`. -/
abbrev FileId := Fin NFILE
/-- A pointer into `icache.inode`. -/
abbrev Slot := Fin NINODE

inductive Table
  | syscalls
  | ofile
  | devsw
  | spoons
  deriving DecidableEq

/-- `SYS_sem_release` is the last index of `syscalls[]`. -/
def Table.size : Table → Nat
  | syscalls => 27
  | ofile => NOFILE
  | devsw => NDEV
  | spoons => 6

/-- The two functions in a `struct devsw`. -/
inductive Half
  | read
  | write

/-- Whose `ofile[]`: the caller's, or that of the child `fork` makes. -/
inductive Whose
  | curproc
  | np

inductive FType
  | none
  | pipe
  | inode

/-- `struct file` -/
structure File where
  type : FType
  readable : Bool
  writable : Bool
  ip : Slot
  off : BitVec 32

/-- `struct inode` -/
structure Inode where
  dev : Nat
  inum : Nat
  type : Int
  major : Int
  minor : Int
  nlink : Int
  size : BitVec 32

inductive Act
  /-- Look at `syscalls[num]`. -/
  | syscalls (num : Int)
  | ofile (p : Whose) (fd : Int)
  | setOfile (p : Whose) (fd : Int) (f : Option FileId)
  /-- Is there a function? -/
  | devsw (h : Half) (major : Int)
  /-- Call it: its result, and the bytes it delivers. -/
  | device (h : Half) (major : Int) (ip : Slot) (n : BitVec 32)
  | acquire (i : Int)
  | release (i : Int)
  | spoon (i : Int)
  | setSpoon (i : Int) (s : Sem.Semaphore)
  | sleepOn (i : Int)
  | wakeup (i : Int)
  /-- `panic(why)` does not return. -/
  | panic (why : String)
  /-- A waiting loop that is followed no further. -/
  | waits
  | cprintf
  | beginOp
  | endOp
  | filealloc
  | filedup (f : FileId)
  | fileclose (f : FileId)
  | file (f : FileId)
  | setFile (f : FileId) (v : File)
  | pipealloc
  | piperead (f : FileId) (n : BitVec 32)
  | pipewrite (f : FileId) (src : List UInt8)
  | inode (ip : Slot)
  /-- Change fields of the inode, and `iupdate`. -/
  | iupdate (ip : Slot) (v : Inode)
  | ilock (ip : Slot)
  | iunlock (ip : Slot)
  | iput (ip : Slot)
  | iget (dev inum : Nat)
  | ialloc (dev : Nat) (type : Int)
  /-- `idup(myproc()->cwd)` -/
  | idupCwd
  /-- `iput(curproc->cwd)` -/
  | iputCwd
  | setCwd (ip : Option Slot)
  /-- `bread(ip->dev, bmap(ip, bn))` and `brelse`. -/
  | bread (ip : Slot) (bn : BitVec 32)
  /-- The same, with bytes put into the buffer and `log_write`. -/
  | bwrite (ip : Slot) (bn : BitVec 32) (off : BitVec 32) (src : List UInt8)
  | setupkvm
  | allocuvm (oldsz newsz : BitVec 32)
  | walkpgdir (va : BitVec 32)
  | clearpteu (va : BitVec 32)
  | copyout (va : BitVec 32) (src : List UInt8)
  | freevm
  /-- `curproc->pgdir = pgdir; curproc->sz = sz; ...; freevm(oldpgdir)` -/
  | commit (sz entry sp : BitVec 32)
  | storeUser (addr : BitVec 32) (w : Int)
  | allocproc
  | copyuvm
  | freeproc
  /-- `np->state = RUNNABLE`, and `np->pid`. -/
  | runnable
  /-- From `acquire(&ptable.lock)` in `exit` to `sched()`: does not return. -/
  | zombie
  | wait
  | kill (pid : BitVec 32)
  | getpid
  | parentPid
  | growproc (n : BitVec 32)
  | ticks
  | killed
  | sleepTicks
  | flpf (num : BitVec 32)

/-- What an action is answered with. -/
abbrev Act.R : Act → Type
  | .ofile _ _ | .filealloc => Option FileId
  | .devsw _ _ | .killed | .setupkvm | .walkpgdir _ | .copyout _ _ | .allocproc | .copyuvm | .growproc _ => Bool
  | .device _ _ _ _ => Int × List UInt8
  | .spoon _ => Sem.Semaphore
  | .panic _ | .waits | .zombie => Empty
  | .file _ => File
  | .pipealloc => Option (FileId × FileId)
  | .piperead _ _ | .pipewrite _ _ | .wait | .kill _ | .getpid | .parentPid | .flpf _ | .runnable => Int
  | .inode _ => Inode
  | .iget _ _ | .idupCwd => Slot
  | .ialloc _ _ => Option Slot
  | .bread _ _ => List UInt8
  | .allocuvm _ _ | .ticks => BitVec 32
  | _ => Unit

/-- The table an action accesses, and the index it uses. -/
@[simp] def Act.index : Act → Option (Table × Int)
  | .syscalls num => some (.syscalls, num)
  | .ofile _ fd | .setOfile _ fd _ => some (.ofile, fd)
  | .devsw _ major | .device _ major _ _ => some (.devsw, major)
  | .acquire i | .release i | .spoon i | .setSpoon i _ | .sleepOn i | .wakeup i => some (.spoons, i)
  | _ => none

/-- The index, if there is one, is within the array. -/
@[simp] def Act.InBounds (a : Act) : Prop := ∀ t i, a.index = some (t, i) → 0 ≤ i ∧ i < t.size

abbrev Prog := Code Act Act.R

abbrev act (a : Act) : Prog a.R := Code.perform a

def panic {α : Type} (why : String) : Prog α := .act (.panic why) nofun

/-! ## Inodes -/

def iunlockput (ip : Slot) : Prog Unit := do
  act (.iunlock ip)
  act (.iput ip)

/-- The loop of `readi`, with `n` bytes still to be read. -/
def readLoop (ip : Slot) : Nat → BitVec 32 → BitVec 32 → Prog (List UInt8)
  | 0, _, _ => return []
  | k + 1, off, n => do
    if n = 0 then return []
    else
      let data ← act (.bread ip (off / BSIZE))
      let m := if n < BSIZE - off % BSIZE then n else BSIZE - off % BSIZE
      let rest ← readLoop ip k (off + m) (n - m)
      return Kernel.slice data (off % BSIZE).toNat m.toNat ++ rest

/-- Read data from an inode: what `readi` returns, and the bytes it delivers. -/
def readi (ip : Slot) (off n : BitVec 32) : Prog (Int × List UInt8) := do
  let v ← act (.inode ip)
  if v.type = T_DEV then
    if v.major < 0 ∨ NDEV ≤ v.major then return (-1, [])
    else if ← act (.devsw .read v.major) then act (.device .read v.major ip n)
    else return (-1, [])
  else if v.size < off ∨ off + n < off then return (-1, [])
  else
    let n := if v.size < off + n then v.size - off else n
    let data ← readLoop ip n.toNat off n
    return (n.toInt, data)

/-- The loop of `writei`: the offset after the last byte written. -/
def writeLoop (ip : Slot) : Nat → BitVec 32 → List UInt8 → Prog (BitVec 32)
  | 0, off, _ => return off
  | k + 1, off, src => do
    if src = [] then return off
    else
      let m := min src.length (BSIZE - (off % BSIZE).toNat)
      act (.bwrite ip (off / BSIZE) (off % BSIZE) (src.take m))
      writeLoop ip k (off + BitVec.ofNat 32 m) (src.drop m)

/-- Write data to an inode. -/
def writei (ip : Slot) (off : BitVec 32) (src : List UInt8) : Prog Int := do
  let v ← act (.inode ip)
  let n := BitVec.ofNat 32 src.length
  if v.type = T_DEV then
    if v.major < 0 ∨ NDEV ≤ v.major then return -1
    else if ← act (.devsw .write v.major) then return (← act (.device .write v.major ip n)).1
    else return -1
  else if v.size < off ∨ off + n < off then return -1
  else if BitVec.ofNat 32 (MAXFILE * BSIZE) < off + n then return -1
  else
    let off ← writeLoop ip src.length off src
    if 0 < n ∧ v.size < off then act (.iupdate ip { v with size := off })
    return n.toInt

/-- The offsets of the entries of a directory, from the one numbered `first`.  No file is longer than
    `MAXFILE * BSIZE`, so none of them wraps. -/
def entries (first : Nat) (size : BitVec 32) : List Nat :=
  (List.range' first ((size.toNat + DESIZE - 1) / DESIZE - first)).map (DESIZE * ·)

/-- Read the entry at `off`. -/
def readEntry (dp : Slot) (off : Nat) (why : String) : Prog Dirent := do
  let (r, data) ← readi dp (BitVec.ofNat 32 off) (BitVec.ofNat 32 DESIZE)
  if r = DESIZE then return .decode data else panic why

def lookupLoop (dp : Slot) (name : Name) : List Nat → Prog (Option (Slot × Nat))
  | [] => return none
  | off :: rest => do
    let de ← readEntry dp off "dirlookup read"
    if de.inum = 0 then lookupLoop dp name rest
    else if name = de.name then
      let v ← act (.inode dp)
      let ip ← act (.iget v.dev de.inum)
      return some (ip, off)
    else lookupLoop dp name rest

/-- Look for a directory entry in a directory: its inode, and its offset. -/
def dirlookup (dp : Slot) (name : Name) : Prog (Option (Slot × Nat)) := do
  let v ← act (.inode dp)
  if v.type ≠ T_DIR then panic "dirlookup not DIR"
  else lookupLoop dp name (entries 0 v.size)

/-- The offset of an empty entry, or of the end. -/
def emptyEntry (dp : Slot) (size : Nat) : List Nat → Prog Nat
  | [] => return size
  | off :: rest => do
    let de ← readEntry dp off "dirlink read"
    if de.inum = 0 then return off else emptyEntry dp size rest

/-- Write a new directory entry into the directory `dp`; `false` for -1. -/
def dirlink (dp : Slot) (name : Name) (inum : Nat) : Prog Bool := do
  match ← dirlookup dp name with
  | some (ip, _) =>
    act (.iput ip)
    return false
  | none =>
    let v ← act (.inode dp)
    let offs := entries 0 v.size
    let off ← emptyEntry dp (DESIZE * offs.length) offs
    let r ← writei dp (BitVec.ofNat 32 off) (Dirent.encode ⟨inum, name⟩)
    if r = DESIZE then return true else panic "dirlink"

/-- The loop of `namex`, along the elements still to come. -/
def walk (nameiparent : Bool) : List Name → Slot → Name → Prog (Option (Slot × Name))
  | [], ip, name => do
    if nameiparent then
      act (.iput ip)
      return none
    else return some (ip, name)
  | name :: rest, ip, _ => do
    act (.ilock ip)
    let v ← act (.inode ip)
    if v.type ≠ T_DIR then
      iunlockput ip
      return none
    else if nameiparent = true ∧ rest = [] then
      -- Stop one level early.
      act (.iunlock ip)
      return some (ip, name)
    else
      match ← dirlookup ip name with
      | none =>
        iunlockput ip
        return none
      | some (next, _) =>
        iunlockput ip
        walk nameiparent rest next name

/-- Look up the inode for a path name. -/
def namex (path : List UInt8) (nameiparent : Bool) : Prog (Option (Slot × Name)) := do
  let ip ← if path.head? = some slash then act (.iget ROOTDEV ROOTINO) else act .idupCwd
  walk nameiparent (pathElems path) ip (.ofBytes [])

def namei (path : List UInt8) : Prog (Option Slot) := do
  let r ← namex path false
  return r.map Prod.fst

def nameiparent (path : List UInt8) : Prog (Option (Slot × Name)) := namex path true

/-- The part of `create` in which the name is new. -/
def createNew (dp : Slot) (name : Name) (type major minor : Int) : Prog (Option Slot) := do
  let d ← act (.inode dp)
  match ← act (.ialloc d.dev type) with
  | none => panic "create: ialloc"
  | some ip =>
    act (.ilock ip)
    let v ← act (.inode ip)
    act (.iupdate ip { v with major := major, minor := minor, nlink := 1 })
    if type = T_DIR then
      act (.iupdate dp { d with nlink := cShort (d.nlink + 1) })
      if (← dirlink ip dot v.inum) = false then panic "create dots"
      else if (← dirlink ip dotdot d.inum) = false then panic "create dots"
    if (← dirlink dp name v.inum) = false then panic "create: dirlink"
    else
      iunlockput dp
      return some ip

def create (path : List UInt8) (type major minor : Int) : Prog (Option Slot) := do
  match ← nameiparent path with
  | none => return none
  | some (dp, name) =>
    act (.ilock dp)
    match ← dirlookup dp name with
    | some (ip, _) =>
      iunlockput dp
      act (.ilock ip)
      let v ← act (.inode ip)
      if type = T_FILE ∧ v.type = T_FILE then return some ip
      else
        iunlockput ip
        return none
    | none => createNew dp name type major minor

/-! ## `exec` -/

abbrev PGSIZE : Nat := 4096
abbrev MAXARG : Nat := 32
abbrev ELF_MAGIC : BitVec 32 := 0x464C457F
abbrev ELF_PROG_LOAD : BitVec 32 := 1

/-- The `uint` at offset `o` of a header. -/
def uintAt (data : List UInt8) (o : Nat) : BitVec 32 :=
  (data.getD (o + 3) 0).toBitVec ++ (data.getD (o + 2) 0).toBitVec ++ (data.getD (o + 1) 0).toBitVec ++
    (data.getD o 0).toBitVec

/-- The `ushort` at offset `o` of a header. -/
def ushortAt (data : List UInt8) (o : Nat) : BitVec 16 :=
  (data.getD (o + 1) 0).toBitVec ++ (data.getD o 0).toBitVec

/-- The loop of `loaduvm`, over the pages still to be loaded; `false` for -1. -/
def loadLoop (addr : BitVec 32) (ip : Slot) (offset sz : BitVec 32) : List Nat → Prog Bool
  | [] => return true
  | page :: rest => do
    let i := BitVec.ofNat 32 (PGSIZE * page)
    if (← act (.walkpgdir (addr + i))) = false then panic "loaduvm: address should exist"
    else
      let n := if sz - i < PGSIZE then sz - i else PGSIZE
      let (r, _) ← readi ip (offset + i) n
      if r ≠ n.toInt then return false else loadLoop addr ip offset sz rest

/-- Load a program segment into pgdir. -/
def loaduvm (addr : BitVec 32) (ip : Slot) (offset sz : BitVec 32) : Prog Bool := do
  if addr % PGSIZE ≠ 0 then panic "loaduvm: addr must be page aligned"
  else loadLoop addr ip offset sz (List.range ((sz.toNat + PGSIZE - 1) / PGSIZE))

/-- The loop over the program headers: how many are left, and the offset of the next.  `none` for `bad`. -/
def loadProgram (ip : Slot) : Nat → BitVec 32 → BitVec 32 → Prog (Option (BitVec 32))
  | 0, _, sz => return some sz
  | k + 1, off, sz => do
    let (r, ph) ← readi ip off 32
    let (vaddr, filesz, memsz) := (uintAt ph 8, uintAt ph 16, uintAt ph 20)
    if r ≠ 32 then return none
    else if uintAt ph 0 ≠ ELF_PROG_LOAD then loadProgram ip k (off + 32) sz
    else if memsz < filesz ∨ vaddr + memsz < vaddr then return none
    else
      let sz ← act (.allocuvm sz (vaddr + memsz))
      if sz = 0 ∨ vaddr % PGSIZE ≠ 0 then return none
      else if ← loaduvm vaddr ip (uintAt ph 4) filesz then loadProgram ip k (off + 32) sz
      else return none

/-- Push the argument strings: the stack pointer, and where each string is.  `none` for `bad`. -/
def pushArgs : List (List UInt8) → BitVec 32 → List (BitVec 32) → Prog (Option (BitVec 32 × List (BitVec 32)))
  | [], sp, ustack => return some (sp, ustack)
  | arg :: rest, sp, ustack => do
    let sp := (sp - BitVec.ofNat 32 (arg.length + 1)) &&& ~~~ 3
    if ← act (.copyout sp (arg ++ [0])) then pushArgs rest sp (ustack ++ [sp]) else return none

/-- The four bytes of a word. -/
def wordBytes (w : BitVec 32) : List UInt8 :=
  [⟨w.extractLsb' 0 8⟩, ⟨w.extractLsb' 8 8⟩, ⟨w.extractLsb' 16 8⟩, ⟨w.extractLsb' 24 8⟩]

/-- The label `bad` of `exec`, with a page directory or none, and with the inode locked or put already. -/
def execBad (pgdir : Bool) (ip : Option Slot) : Prog Int := do
  if pgdir then act .freevm
  match ip with
  | none => return -1
  | some ip =>
    iunlockput ip
    act .endOp
    return -1

/-- From `PGROUNDUP(sz)` on. -/
def execStack (argv : List (List UInt8)) (entry sz : BitVec 32) : Prog Int := do
  let sz := (sz + (PGSIZE - 1)) &&& ~~~ (BitVec.ofNat 32 (PGSIZE - 1))
  let sz ← act (.allocuvm sz (sz + 2 * PGSIZE))
  if sz = 0 then execBad true none
  else
    act (.clearpteu (sz - 2 * PGSIZE))
    match ← pushArgs argv sz [] with
    | none => execBad true none
    | some (sp, args) =>
      let argc := BitVec.ofNat 32 args.length
      let ustack := [0xffffffff, argc, sp - (argc + 1) * 4] ++ args ++ [0]
      let sp := sp - (3 + argc + 1) * 4
      if ← act (.copyout sp (ustack.flatMap wordBytes)) then
        act (.commit sz entry sp)
        return 0
      else execBad true none

def exec (path : List UInt8) (argv : List (List UInt8)) : Prog Int := do
  act .beginOp
  match ← namei path with
  | none =>
    act .endOp
    act .cprintf
    return -1
  | some ip =>
    act (.ilock ip)
    let (r, elf) ← readi ip 0 52
    if r ≠ 52 ∨ uintAt elf 0 ≠ ELF_MAGIC then execBad false (some ip)
    else if (← act .setupkvm) = false then execBad false (some ip)
    else
      match ← loadProgram ip (ushortAt elf 44).toNat (uintAt elf 28) 0 with
      | none => execBad true (some ip)
      | some sz =>
        iunlockput ip
        act .endOp
        execStack argv (uintAt elf 24) sz

end Xv6.Syscall
