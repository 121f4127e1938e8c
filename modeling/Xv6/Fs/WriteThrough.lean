/-
  THE INODE CACHE IS WRITE-THROUGH, and files have no holes.

  What `Inv` says of the states between two calls of the inode layer, read off for every state that a run of
  the machine `system` comes to:

  1. every block below the size of an allocated inode is mapped;
  2. an entry of the cache that is in use and valid agrees with the inode on disk;
  3. `readi` therefore finds every block it asks `bmap` for: it changes nothing, and `fileread`, which is not
     in a transaction, does not come to `log_write`.

  Two conditions cannot be left out (`stale_or_holed`).  `iput` leaves `valid` set when it drops the last
  reference, and the next `iget` of that inode may take another slot: the old one then goes stale.  And on a
  disk whose inodes share blocks with each other, or with the metadata, a write to one file makes holes in
  another.
-/
import Xv6.Fs.System

namespace Xv6.Fs

open ByteBuf Outcome Machines

variable {sb : Superblock} {s t : St} {ip : Fin NINODE} {devsw : Nat → Devsw}

/-! ## `fileread` -/

/-- `struct file`, of type `FD_INODE`. -/
structure File where
  readable : Bool
  ip : Fin NINODE
  off : UInt32

/-- Read from file `f`: the value returned, the bytes stored at `addr`, and the file. -/
def fileread (sb : Superblock) (devsw : Nat → Devsw) (f : File) (n : UInt32) : M (Int × List UInt8 × File) :=
  if f.readable = false then pure (-1, [], f)
  else do
    ilock sb f.ip
    let (r, bytes) ← readi sb devsw f.ip f.off n
    iunlock f.ip
    return (r, bytes, if 0 < r then { f with off := f.off + UInt32.ofNat r.toNat } else f)

/-- `ilock` touches neither the disk nor the log, and the lock is then held. -/
theorem ilock_frame (hr : 0 < (s.icache ip).ref) :
    Meets (ilock sb ip s) (fun _ t => t.disk = s.disk ∧ t.log = s.log ∧ (t.icache ip).locked = true ∧
      (t.icache ip).ref = (s.icache ip).ref) (fun _ => True) := by
  rw [ilock_eq, if_neg (by omega)]
  split
  · trivial
  split
  · refine ⟨rfl, rfl, ?_, ?_⟩ <;> rw [setInode_same]
  split
  · trivial
  · refine ⟨rfl, rfl, ?_, ?_⟩ <;> rw [setInode_same]

theorem fileread_spec (h : Inv sb s) (f : File) (hr : 0 < (s.icache f.ip).ref) (n : UInt32) :
    Meets (fileread sb devsw f n s) (fun _ t => t.disk = s.disk ∧ t.log = s.log)
      (fun e => e = .asleep ∨ e = .noType) := by
  unfold fileread
  split
  · exact ⟨rfl, rfl⟩
  refine ((ilock_spec h hr).and (ilock_frame hr)).bind (fun _ t ⟨hinv, hdisk, hlog, hlocked, href⟩ => ?_) fun e he => he.1
  refine (readi_keeps hinv hlocked f.off n).bind (fun ⟨r, bytes⟩ u hu => ?_) fun _ he => he.elim
  subst hu
  have hok : ¬ ((u.icache f.ip).locked = false ∨ (u.icache f.ip).ref < 1) := by
    rw [hlocked, href]
    simp only [Bool.true_eq_false, false_or]
    omega
  have hunlock : iunlock f.ip u = .ok ((), u.setInode f.ip { u.icache f.ip with locked := false }) := by
    unfold iunlock
    rw [bind_of_ok (inode_eq u f.ip), if_neg hok]
    rfl
  dsimp only
  rw [bind_of_ok hunlock]
  exact ⟨hdisk, hlog⟩

/-! ## Every state -/

/-- **Write-through, and no holes**, whatever the sequence of calls. -/
theorem write_through (h : (system sb devsw).Reachable (Legal sb) (.running s)) :
    (∀ n, n < sb.ninodes → (dinodeAt sb s.disk n).type ≠ 0 →
      ∀ bn, bn * BSIZE < (dinodeAt sb s.disk n).size.toNat →
        blockOf s.disk (dinodeAt sb s.disk n) bn ≠ 0 ∧
        bit sb s.disk (blockOf s.disk (dinodeAt sb s.disk n) bn) = true) ∧
    (∀ ip, 0 < (s.icache ip).ref → (s.icache ip).valid = true → (s.icache ip).locked = false →
      (s.icache ip).di = dinodeAt sb s.disk (s.icache ip).inum) ∧
    (∀ ip off n, (s.icache ip).locked = true → ∃ r, readi sb devsw ip off n s = .ok (r, s)) ∧
    (∀ f n, 0 < (s.icache f.ip).ref → ∀ p, fileread sb devsw f n s ≠ .error (.log p)) := by
  have hinv : Inv sb s := sys_ok h
  refine ⟨fun n hn ht bn hbn => ?_, fun ip hr hv _ => (hinv.synced ip hr hv).1, fun ip off n hl => ?_,
    fun f n hr p hp => ?_⟩
  · have hmapped := (hinv.holes n hn ht).mapped bn hbn
    have hown : own sb s.disk (dinodeAt sb s.disk) (n, slotOf bn) = blockOf s.disk (dinodeAt sb s.disk n) bn :=
      own_of_live hn ht _
    rw [← hown] at hmapped ⊢
    exact ⟨hmapped, hinv.cons.excl.used_own hmapped⟩
  · have hspec : Meets (readi sb devsw ip off n s) _ _ := readi_keeps hinv hl off n
    obtain ⟨r, t, hread, rfl⟩ := hspec.returns fun _ he => he
    exact ⟨r, hread⟩
  · have hspec : Meets (fileread sb devsw f n s) _ _ := fileread_spec hinv f hr n
    rcases hspec.of_error hp with he | he <;> cases he

/-- A file with three bytes, and so with a block: `readi` finds it. -/
theorem write_through_read : ∃ s, (system mkfsSb fun _ => ⟨none, none⟩).Reachable (Legal mkfsSb) (.running s) ∧
    blockOf s.disk (dinodeAt mkfsSb s.disk 1) 0 ≠ 0 ∧
    ∃ r, readi mkfsSb (fun _ => ⟨none, none⟩) 0 0 3 s = .ok (r, s) := by
  obtain ⟨s, hreach, hlocked, htype, hsize⟩ := hello_reached
  have h := write_through hreach
  exact ⟨s, hreach, (h.1 1 (by decide) htype 0 (by rw [hsize]; decide)).1, h.2.2.1 0 0 3 hlocked⟩

/-! ## Where it fails -/

/-- One process makes a file (inode 2, slot 0) and another looks at inode 1 (slot 1); both let go, and inode 1
    gets a second link, through slot 0. -/
def staleRun : List Op :=
  [.beginOp, .ialloc (UInt16.ofNat T_FILE), .ilock 0, .setFields 0 0 0 1, .iunlock 0,
    .iget 1, .ilock 1, .iunlock 1, .iput 0, .iput 1, .iget 1, .ilock 0, .setFields 0 0 0 2, .iunlock 0, .endOp]

/-- Slot 1 is valid and unlocked, and does not know of the second link. -/
def Sys.stale : Sys → Bool
  | .running s => (s.icache 1).valid && !(s.icache 1).locked && decide ((s.icache 1).inum = 1) &&
      decide ((s.icache 1).di.nlink = 1) && decide ((dinodeAt mkfsSb s.disk 1).nlink = 2)
  | .panicked _ => false

theorem staleRun_state : ((system mkfsSb fun _ => ⟨none, none⟩).runIf (Legal mkfsSb) (.running smallBoot) staleRun).any
    (fun x => decide (x.stale = true)) = true := by
  decide +kernel

/-- A file whose only block is the one that holds the inodes. -/
def crossFile : Dinode := { emptyFile with size := 512, addrs := fun i => if i = 0 then 32 else 0 }

/-- A disk with that file as inode 1, just booted. -/
def crossBoot : St where
  disk := diskOf crossFile
  log := LogOps.Log.init 2 LOGSIZE
  icache := fun _ => ⟨0, 0, 0, false, false, Dinode.zero⟩

/-- A file of 512 bytes without a block. -/
def holedFile : Dinode := { emptyFile with size := 512 }

/-- The bytes of that inode are written to the file, where inode 2 is. -/
def crossRun : List Op :=
  [.beginOp, .iget 1, .ilock 0, .writei 0 (fun i => ByteBuf.get (putDinode zeroBlock 0 holedFile) i) 128 64]

def Sys.holed : Sys → Bool
  | .running s => decide ((dinodeAt mkfsSb s.disk 2).type ≠ 0) && decide ((dinodeAt mkfsSb s.disk 2).size = 512) &&
      decide (blockOf s.disk (dinodeAt mkfsSb s.disk 2) 0 = 0)
  | .panicked _ => false

theorem crossRun_state : ((system mkfsSb fun _ => ⟨none, none⟩).runIf (Legal mkfsSb) (.running crossBoot) crossRun).any
    (fun x => decide (x.holed = true)) = true := by
  decide +kernel

/-- Every block below the size of that file is there, and marked in the bitmap. -/
theorem crossBoot_mapped {n : Nat} (hn : n < mkfsSb.ninodes) (ht : (dinodeAt mkfsSb crossBoot.disk n).type ≠ 0)
    {bn : Nat} (hbn : bn * BSIZE < (dinodeAt mkfsSb crossBoot.disk n).size.toNat) :
    blockOf crossBoot.disk (dinodeAt mkfsSb crossBoot.disk n) bn ≠ 0 ∧
      bit mkfsSb crossBoot.disk (blockOf crossBoot.disk (dinodeAt mkfsSb crossBoot.disk n) bn) = true := by
  have hdi : dinodeAt mkfsSb crossBoot.disk n = crossFile := by
    have h := dinodeAt_diskOf crossFile hn
    split at h
    · exact h
    · exact absurd (congrArg Dinode.type h) ht
  rw [hdi] at hbn ⊢
  have hzero : bn = 0 := by
    have hsize : crossFile.size.toNat = 512 := rfl
    rw [hsize] at hbn
    simp only [BSIZE] at hbn
    omega
  subst hzero
  have hblock : blockOf crossBoot.disk crossFile 0 = 32 := rfl
  rw [hblock]
  exact ⟨by decide, (bit_diskOf crossFile 32).trans (by decide)⟩

/-- **What cannot be left out.**  From a disk just made, a slot of the cache that is valid, and not locked, and
    not what is on the disk: nobody refers to it.  And from a disk on which a file has the inode block for its
    data, a file with a hole. -/
theorem stale_or_holed : (∃ s, (system mkfsSb fun _ => ⟨none, none⟩).Reachable (Legal mkfsSb) (.running s) ∧
      (s.icache 1).valid = true ∧ (s.icache 1).locked = false ∧
      (s.icache 1).di ≠ dinodeAt mkfsSb s.disk (s.icache 1).inum) ∧
    (∀ n, n < mkfsSb.ninodes → (dinodeAt mkfsSb crossBoot.disk n).type ≠ 0 →
      ∀ bn, bn * BSIZE < (dinodeAt mkfsSb crossBoot.disk n).size.toNat →
        blockOf crossBoot.disk (dinodeAt mkfsSb crossBoot.disk n) bn ≠ 0 ∧
        bit mkfsSb crossBoot.disk (blockOf crossBoot.disk (dinodeAt mkfsSb crossBoot.disk n) bn) = true) ∧
    ∃ t, (system mkfsSb fun _ => ⟨none, none⟩).Run (Legal mkfsSb) (.running crossBoot) crossRun (.running t) ∧
      (dinodeAt mkfsSb t.disk 2).type ≠ 0 ∧ 0 * BSIZE < (dinodeAt mkfsSb t.disk 2).size.toNat ∧
      blockOf t.disk (dinodeAt mkfsSb t.disk 2) 0 = 0 := by
  refine ⟨?_, fun n hn ht bn hbn => crossBoot_mapped hn ht hbn, ?_⟩
  · have hinit : (system mkfsSb fun _ => ⟨none, none⟩).init (.running smallBoot) := ⟨_, rfl, smallBoot_booted⟩
    obtain ⟨x, hreach, hstale⟩ := Machine.reachable_of_runIf hinit staleRun_state
    cases x with
    | panicked e => cases hstale
    | running s =>
      simp only [Sys.stale, Bool.and_eq_true, Bool.not_eq_true', decide_eq_true_eq] at hstale
      obtain ⟨⟨⟨⟨hvalid, hlocked⟩, hinum⟩, hone⟩, htwo⟩ := hstale
      refine ⟨s, hreach, hvalid, hlocked, fun hc => ?_⟩
      rw [hinum] at hc
      rw [hc, htwo] at hone
      cases hone
  · cases hrun : (system mkfsSb fun _ => ⟨none, none⟩).runIf (Legal mkfsSb) (.running crossBoot) crossRun with
    | none =>
      have := crossRun_state
      rw [hrun] at this
      cases this
    | some x =>
      have hholed := crossRun_state
      rw [hrun, Option.any_some, decide_eq_true_eq] at hholed
      cases x with
      | panicked e => cases hholed
      | running t =>
        simp only [Sys.holed, Bool.and_eq_true, decide_eq_true_eq] at hholed
        obtain ⟨⟨htype, hsize⟩, hblock⟩ := hholed
        refine ⟨t, Machine.run_of_runIf hrun, htype, ?_, hblock⟩
        rw [hsize]
        decide

end Xv6.Fs
