/-
  The inode layer of `fs.c`: block allocator, inode cache, inode contents.

  Each function is a program over the file system's state that returns or STOPS (`Stop`): with one
  of the panics of `fs.c` and `log.c`, or asleep for good on a sleep-lock that is already held.
  `disk` is what `bread` returns (the buffer cache over the disk); a block changes when `log_write`
  is called on its buffer.  There is one device, so block numbers alone name blocks; the inode cache
  still keys its entries by `(dev, inum)`.

  1. **Blocks** — `bzero`, `balloc`, `bfree`.
  2. **Inode cache** — `iget`, `idup`, `ialloc`, `iupdate`, `ilock`, `iunlock`, `iput`.
  3. **Contents** — `bmap`, `itrunc`, `readi`, `writei`.
-/
import Xv6.Fs.Layout
import Xv6.Lib.Outcome
import Xv6.LogOps

namespace Xv6.Fs

open ByteBuf Outcome

/-! ## State -/

/-- Why a call does not return. -/
inductive Stop
  /-- A panic of `log_write`. -/
  | log (p : LogOps.Panic)
  | outOfBlocks
  | freeingFree
  | noInodes
  | igetNoInodes
  | ilock
  | noType
  | iunlock
  | bmapRange
  /-- Not a panic: `acquiresleep` on a lock that nobody will release. -/
  | asleep
  deriving DecidableEq

/-- `struct inode`: the in-memory copy of an inode. -/
structure Inode where
  dev : Nat
  inum : Nat
  /-- Reference count. -/
  ref : Int
  /-- The sleep-lock, held or not. -/
  locked : Bool
  /-- The inode has been read from disk. -/
  valid : Bool
  /-- Copy of the disk inode. -/
  di : Dinode

/-- `struct devsw`: a device's functions, for what they return. -/
structure Devsw where
  read : Option (UInt32 → Int × List UInt8)
  write : Option ((Nat → UInt8) → UInt32 → Int)

/-- The state of the file system.  The superblock `sb`, read once at boot, and the device table are
    constants of what follows. -/
structure St where
  /-- The contents `bread` returns. -/
  disk : Disk
  log : LogOps.Log
  icache : Fin NINODE → Inode

/-- Programs of the file system. -/
abbrev M (α : Type) := Prog St Stop α

def bread (b : Nat) : M Block := fun s => .ok (s.disk b, s)

/-- Modify the buffer of block `b` to hold `x`, and `log_write` it. -/
def logWrite (b : Nat) (x : Block) : M Unit := fun s =>
  if s.log.tooBig then .error (.log .tooBig)
  else if s.log.outside then .error (.log .outside)
  else .ok ((), { s with disk := updBlk s.disk b x, log := s.log.absorb b })

/-- Read the fields of `*ip`. -/
def inode (ip : Fin NINODE) : M Inode := fun s => .ok (s.icache ip, s)

/-- The state with `*ip` overwritten. -/
def St.setInode (s : St) (ip : Fin NINODE) (v : Inode) : St :=
  { s with icache := fun j => if j = ip then v else s.icache j }

/-- Change the fields of `*ip`. -/
def modifyInode (ip : Fin NINODE) (f : Inode → Inode) : M Unit :=
  fun s => .ok ((), s.setInode ip (f (s.icache ip)))

/-- `ip->addrs[k] = a`. -/
def setAddr (ip : Fin NINODE) (k : Fin (NDIRECT + 1)) (a : Nat) : M Unit :=
  modifyInode ip fun v =>
    { v with di := { v.di with addrs := fun l => if l = k then UInt32.ofNat a else v.di.addrs l } }

/-! ## Blocks -/

section Blocks

variable (sb : SuperFields)

/-- Zero a block. -/
def bzero (bno : Nat) : M Unit := logWrite bno zeroBlock

/-- The two loops of `balloc`: the first `b` (a multiple of `BPB`) and `bi` whose bit is clear. -/
def findFree (d : Disk) : Option (Nat × Nat) :=
  (List.range ((sb.size + BPB - 1) / BPB)).findSome? fun k =>
    let b := k * BPB
    let bp := d (sb.bblock b)
    ((List.range BPB).find? fun bi => decide (b + bi < sb.size) && !testBit bp bi).map fun bi => (b, bi)

/-- Allocate a zeroed disk block. -/
def balloc : M Nat := do
  let s ← get
  match findFree sb s.disk with
  | none => throw .outOfBlocks
  | some (b, bi) =>
    let bp ← bread (sb.bblock b)
    logWrite (sb.bblock b) (setBit bp bi)
    bzero (b + bi)
    return b + bi

/-- Free a disk block. -/
def bfree (b : Nat) : M Unit := do
  let bp ← bread (sb.bblock b)
  let bi := b % BPB
  if testBit bp bi = false then
    throw .freeingFree
  logWrite (sb.bblock b) (clearBit bp bi)

end Blocks

variable (sb : Superblock) (devsw : Nat → Devsw)

/-! ## The inode cache -/

/-- Find the inode with number `inum` on device `dev` and return the in-memory copy. -/
def iget (dev inum : Nat) : M (Fin NINODE) := do
  let s ← get
  match (List.finRange NINODE).find? fun ip =>
      0 < (s.icache ip).ref ∧ (s.icache ip).dev = dev ∧ (s.icache ip).inum = inum with
  | some ip =>
    modifyInode ip fun v => { v with ref := v.ref + 1 }
    return ip
  | none =>
    match (List.finRange NINODE).find? fun ip => (s.icache ip).ref = 0 with
    | none => throw .igetNoInodes
    | some ip =>
      modifyInode ip fun v => { v with dev := dev, inum := inum, ref := 1, valid := false }
      return ip

/-- Increment the reference count for `ip`. -/
def idup (ip : Fin NINODE) : M (Fin NINODE) := do
  modifyInode ip fun v => { v with ref := v.ref + 1 }
  return ip

/-- Allocate an inode and mark it as allocated by giving it a type. -/
def ialloc (type : UInt16) : M (Fin NINODE) := do
  let s ← get
  match (List.range' 1 (sb.ninodes - 1)).find? fun inum =>
      (dinodeAt sb s.disk inum).type = 0 with
  | none => throw .noInodes
  | some inum =>
    let bp ← bread (sb.iblock inum)
    logWrite (sb.iblock inum) (freshDinode bp (inodeOff inum) type)
    iget ROOTDEV inum

/-- Copy a modified in-memory inode to disk. -/
def iupdate (ip : Fin NINODE) : M Unit := do
  let v ← inode ip
  let bp ← bread (sb.iblock v.inum)
  logWrite (sb.iblock v.inum) (putDinode bp (inodeOff v.inum) v.di)

/-- `acquiresleep(&ip->lock)`. -/
def acquiresleep (ip : Fin NINODE) : M Unit := do
  let v ← inode ip
  if v.locked then
    throw .asleep
  modifyInode ip fun v => { v with locked := true }

/-- `releasesleep(&ip->lock)`. -/
def releasesleep (ip : Fin NINODE) : M Unit := modifyInode ip fun v => { v with locked := false }

/-- Lock the given inode, reading it from disk if necessary. -/
def ilock (ip : Fin NINODE) : M Unit := do
  let v ← inode ip
  if v.ref < 1 then
    throw .ilock
  acquiresleep ip
  if v.valid = false then
    let bp ← bread (sb.iblock v.inum)
    let di := getDinode bp (inodeOff v.inum)
    modifyInode ip fun v => { v with di := di, valid := true }
    if di.type = 0 then
      throw .noType

/-- Unlock the given inode. -/
def iunlock (ip : Fin NINODE) : M Unit := do
  let v ← inode ip
  if v.locked = false ∨ v.ref < 1 then
    throw .iunlock
  releasesleep ip

/-! ## Inode contents -/

/-- Load the indirect block's number, allocating the block if necessary. -/
def bmapIndirect (ip : Fin NINODE) : M Nat := do
  let v ← inode ip
  if v.di.indirect = 0 then
    let addr ← balloc sb
    setAddr ip (Fin.last NDIRECT) addr
    return addr
  else
    return v.di.indirect.toNat

/-- The disk block address of block `bn` in inode `ip`; if there is no such block, one is
    allocated. -/
def bmap (ip : Fin NINODE) (bn : Nat) : M Nat := do
  if h : bn < NDIRECT then
    let v ← inode ip
    let k : Fin (NDIRECT + 1) := ⟨bn, Nat.lt_succ_of_lt h⟩
    if v.di.addrs k = 0 then
      let addr ← balloc sb
      setAddr ip k addr
      return addr
    else
      return (v.di.addrs k).toNat
  else if bn - NDIRECT < NINDIRECT then
    let iaddr ← bmapIndirect sb ip
    let bp ← bread iaddr
    if word bp (bn - NDIRECT) = 0 then
      let addr ← balloc sb
      logWrite iaddr (setWord bp (bn - NDIRECT) addr)
      return addr
    else
      return word bp (bn - NDIRECT)
  else
    throw .bmapRange

/-- One round of `itrunc`'s first loop. -/
def truncDirect (ip : Fin NINODE) (k : Fin NDIRECT) : M Unit := do
  let v ← inode ip
  if v.di.addrs k.castSucc ≠ 0 then
    bfree sb (v.di.addrs k.castSucc).toNat
    setAddr ip k.castSucc 0

/-- One round of `itrunc`'s second loop, over the words of the indirect block. -/
def truncWord (bp : Block) (j : Nat) : M Unit :=
  if word bp j ≠ 0 then bfree sb (word bp j) else pure ()

/-- The indirect part of `itrunc`. -/
def truncIndirect (ip : Fin NINODE) : M Unit := do
  let v ← inode ip
  if v.di.indirect ≠ 0 then
    let bp ← bread v.di.indirect.toNat
    (List.range NINDIRECT).forM (truncWord sb bp)
    bfree sb v.di.indirect.toNat
    setAddr ip (Fin.last NDIRECT) 0

/-- Truncate inode (discard contents). -/
def itrunc (ip : Fin NINODE) : M Unit := do
  (List.finRange NDIRECT).forM (truncDirect sb ip)
  truncIndirect sb ip
  modifyInode ip fun v => { v with di := { v.di with size := 0 } }
  iupdate sb ip

/-- Drop a reference to an in-memory inode; with the last one, free an inode without links. -/
def iput (ip : Fin NINODE) : M Unit := do
  acquiresleep ip
  let v ← inode ip
  if v.valid = true ∧ v.di.nlink = 0 then
    if v.ref = 1 then
      itrunc sb ip
      modifyInode ip fun v => { v with di := { v.di with type := 0 } }
      iupdate sb ip
      modifyInode ip fun v => { v with valid := false }
  releasesleep ip
  modifyInode ip fun v => { v with ref := v.ref - 1 }

/-- How many bytes one round of the copying loops moves: to the end of the request or of the
    block. -/
def chunk (off n : Nat) : Nat := min n (BSIZE - off % BSIZE)

theorem chunk_pos (off : Nat) {n : Nat} (hn : n ≠ 0) : 0 < chunk off n := by
  have := Nat.mod_lt off (show 0 < BSIZE by decide)
  unfold chunk
  omega

theorem chunk_le (off n : Nat) : chunk off n ≤ n := Nat.min_le_left _ _

/-- The loop of `readi`, with `n` bytes still to be read. -/
def readLoop (ip : Fin NINODE) (off n : Nat) : M (List UInt8) :=
  if _h : n = 0 then pure [] else do
    let b ← bmap sb ip (off / BSIZE)
    let bp ← bread b
    let m := chunk off n
    let rest ← readLoop ip (off + m) (n - m)
    return (List.range m).map (fun i => ByteBuf.get bp (off % BSIZE + i)) ++ rest
termination_by n
decreasing_by
  have h1 := chunk_pos off _h
  have h2 := chunk_le off n
  omega

/-- Read data from inode: the value returned, and the bytes stored at `dst`. -/
def readi (ip : Fin NINODE) (off n : UInt32) : M (Int × List UInt8) := do
  let v ← inode ip
  if v.di.type = UInt16.ofNat T_DEV then
    let major := cShort v.di.major.toNat
    match (if major < 0 ∨ (NDEV : Int) ≤ major then none else (devsw major.toNat).read) with
    | none => return (-1, [])
    | some read => return read n
  else if v.di.size < off ∨ off + n < off then
    return (-1, [])
  else
    let n := if v.di.size < off + n then v.di.size - off else n
    let bytes ← readLoop sb ip off.toNat n.toNat
    return (cInt n.toNat, bytes)

/-- The loop of `writei`, with `n` bytes still to be written. -/
def writeLoop (ip : Fin NINODE) (src : Nat → UInt8) (off n : Nat) : M Unit :=
  if _h : n = 0 then pure () else do
    let b ← bmap sb ip (off / BSIZE)
    let bp ← bread b
    let m := chunk off n
    logWrite b (blit bp (off % BSIZE) m src)
    writeLoop ip (fun i => src (i + m)) (off + m) (n - m)
termination_by n
decreasing_by
  have h1 := chunk_pos off _h
  have h2 := chunk_le off n
  omega

/-- Write data to inode. -/
def writei (ip : Fin NINODE) (src : Nat → UInt8) (off n : UInt32) : M Int := do
  let v ← inode ip
  if v.di.type = UInt16.ofNat T_DEV then
    let major := cShort v.di.major.toNat
    match (if major < 0 ∨ (NDEV : Int) ≤ major then none else (devsw major.toNat).write) with
    | none => return -1
    | some write => return write src n
  else if v.di.size < off ∨ off + n < off then
    return -1
  else if MAXFILE * BSIZE < (off + n).toNat then
    return -1
  else
    writeLoop sb ip src off.toNat n.toNat
    let off := off + n
    let v ← inode ip
    if 0 < n ∧ v.di.size < off then
      modifyInode ip fun v => { v with di := { v.di with size := off } }
      iupdate sb ip
    return cInt n.toNat

end Xv6.Fs
