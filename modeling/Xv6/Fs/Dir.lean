/-
  `dirlookup` over the blocks of a disk.

  A directory is scanned 16 bytes at a time with `readi`; the first entry in use with the name asked for is
  looked up with `iget`.  `namecmp` looks at `DIRSIZ` bytes, or up to the first NUL, so names are compared as
  `Name`s.

  `dirlookup_found` is about a directory of which only the entries UP TO the one asked for are known: what comes
  after it, a hole included, makes no difference.
-/
import Xv6.Fs.System
import Xv6.Kernel.Names

namespace Xv6.Fs

open Outcome Kernel

/-- Why `dirlookup` does not return. -/
inductive DirStop
  | fs (e : Stop)
  | notDir
  | read
  deriving DecidableEq

/-- A program of the inode layer, as part of one that can stop for more reasons. -/
def lift {α : Type} (f : M α) : Prog St DirStop α := fun s =>
  match f s with
  | .ok r => .ok r
  | .error e => .error (.fs e)

section Dirlookup

variable (sb : Superblock) (devsw : Nat → Devsw) (dp : Fin NINODE) (name : Name)

/-- The loop of `dirlookup`, from `off` on. -/
def dirlookupLoop (off : Nat) (v : Inode) : Prog St DirStop (Option (Fin NINODE × Nat)) :=
  if _h : off < v.di.size.toNat then do
    let (r, bytes) ← lift (readi sb devsw dp (UInt32.ofNat off) (UInt32.ofNat DESIZE))
    if r ≠ DESIZE then
      throw .read
    let de := Dirent.decode bytes
    if de.inum ≠ 0 ∧ name = de.name then
      -- entry matches path element
      let ip ← lift (iget v.dev de.inum)
      return some (ip, off)
    else
      dirlookupLoop (off + DESIZE) v
  else
    return none
termination_by v.di.size.toNat - off
decreasing_by
  simp only [DESIZE]
  omega

/-- Look for a directory entry in a directory: the inode, and the byte offset of the entry. -/
def dirlookup : Prog St DirStop (Option (Fin NINODE × Nat)) := do
  let v ← lift (inode dp)
  if v.di.type ≠ UInt16.ofNat T_DIR then
    throw .notDir
  dirlookupLoop sb devsw dp name 0 v

end Dirlookup

variable {sb : Superblock} {devsw : Nat → Devsw} {dp : Fin NINODE} {name : Name} {s : St}

theorem lift_ok {α : Type} {f : M α} {a : α} {t : St} (h : f s = .ok (a, t)) : lift f s = .ok (a, t) := by
  unfold lift
  rw [h]

/-- **The search.**  Entry `j` is the first with the name asked for. -/
theorem dirlookupLoop_found {entry : Nat → Dirent} {j : Nat} {v : Inode} (hsize : DESIZE * j < v.di.size.toNat)
    (hread : ∀ k, k ≤ j → readi sb devsw dp (UInt32.ofNat (DESIZE * k)) (UInt32.ofNat DESIZE) s =
      .ok ((DESIZE, (entry k).encode), s))
    (hinum : ∀ k, k ≤ j → (entry k).inum ≠ 0 ∧ (entry k).inum < 2 ^ 16)
    (hfirst : ∀ k, k < j → (entry k).name ≠ name) (hname : (entry j).name = name) :
    ∀ i k, k + i = j → dirlookupLoop sb devsw dp name (DESIZE * k) v s =
      (lift (iget v.dev (entry j).inum) >>= fun ip => pure (some (ip, DESIZE * j))) s := by
  intro i
  -- by induction on the number of entries still to go
  induction i with
  | zero =>
    intro k hk
    obtain rfl : k = j := hk
    rw [dirlookupLoop, dif_pos hsize, bind_of_ok (lift_ok (hread k (Nat.le_refl k)))]
    dsimp only
    rw [if_neg (fun hc => hc rfl), Dirent.decode_encode (hinum k (Nat.le_refl k)).2]
    rw [if_pos ⟨(hinum k (Nat.le_refl k)).1, hname.symm⟩]
  | succ i ih =>
    intro k hk
    have hlt : DESIZE * k < v.di.size.toNat := by
      simp only [DESIZE] at *
      omega
    have hle : k ≤ j := by omega
    rw [dirlookupLoop, dif_pos hlt, bind_of_ok (lift_ok (hread k hle))]
    dsimp only
    rw [if_neg (fun hc => hc rfl), Dirent.decode_encode (hinum k hle).2]
    rw [if_neg (fun hc => hfirst k (by omega) hc.2.symm)]
    exact ih (k + 1) (by omega)

theorem dirlookup_found (entry : Nat → Dirent) {j : Nat} (htype : (s.icache dp).di.type = UInt16.ofNat T_DIR)
    (hsize : DESIZE * j < (s.icache dp).di.size.toNat)
    (hread : ∀ k, k ≤ j → readi sb devsw dp (UInt32.ofNat (DESIZE * k)) (UInt32.ofNat DESIZE) s =
      .ok ((DESIZE, (entry k).encode), s))
    (hinum : ∀ k, k ≤ j → (entry k).inum ≠ 0 ∧ (entry k).inum < 2 ^ 16)
    (hfirst : ∀ k, k < j → (entry k).name ≠ name) (hname : (entry j).name = name) : dirlookup sb devsw dp name s =
      (lift (iget (s.icache dp).dev (entry j).inum) >>= fun ip => pure (some (ip, DESIZE * j))) s := by
  unfold dirlookup
  rw [bind_of_ok (lift_ok (show inode dp s = .ok (s.icache dp, s) from rfl)), if_neg (fun hc => hc htype)]
  exact dirlookupLoop_found hsize hread hinum hfirst hname j 0 (Nat.zero_add j)

/-! ## Finding the inode -/

/-- The cache holds what the disk holds. -/
def Synced (sb : Superblock) (s : St) : Prop :=
  ∀ ip, 0 < (s.icache ip).ref → (s.icache ip).valid = true → (s.icache ip).di = dinodeAt sb s.disk (s.icache ip).inum

/-- One entry of the cache changes, and holds nothing new. -/
theorem Synced.setInode (h : Synced sb s) {ip : Fin NINODE} {v : Inode}
    (hv : v.valid = true → v.di = dinodeAt sb s.disk v.inum) : Synced sb (s.setInode ip v) := by
  intro jp hr hvalid
  rcases eq_or_ne jp ip with rfl | hj
  · rw [setInode_same] at hvalid ⊢
    exact hv hvalid
  · rw [setInode_ne hj] at hr hvalid ⊢
    exact h jp hr hvalid

/-- What `iget` returns: an entry of the cache for that inode, unless the cache is full. -/
theorem iget_found (h : Synced sb s) (dev inum : Nat) : Meets (iget dev inum s)
      (fun ip t => (t.icache ip).dev = dev ∧ (t.icache ip).inum = inum ∧ 0 < (t.icache ip).ref ∧ t.disk = s.disk ∧
        Synced sb t)
      (fun e => e = .igetNoInodes ∧ ∀ ip, (s.icache ip).ref ≠ 0) := by
  unfold iget
  rw [bind_of_ok (get_eq s)]
  cases hfind : (List.finRange NINODE).find? fun ip =>
      decide (0 < (s.icache ip).ref ∧ (s.icache ip).dev = dev ∧ (s.icache ip).inum = inum) with
  | some ip =>
    have hip := List.find?_some hfind
    obtain ⟨hr, hdev, hinum⟩ := of_decide_eq_true hip
    have hsync : Synced sb (s.setInode ip { s.icache ip with ref := (s.icache ip).ref + 1 }) :=
      h.setInode fun hv => h ip hr hv
    show Meets (.ok (ip, s.setInode ip { s.icache ip with ref := (s.icache ip).ref + 1 })) _ _
    rw [meets_ok, setInode_same]
    exact ⟨hdev, hinum, Int.lt_add_one_of_le (Int.le_of_lt hr), rfl, hsync⟩
  | none =>
    dsimp only
    cases hfree : (List.finRange NINODE).find? fun ip => decide ((s.icache ip).ref = 0) with
    | none =>
      refine ⟨rfl, fun ip h0 => ?_⟩
      exact List.find?_eq_none.mp hfree ip (List.mem_finRange ip) (decide_eq_true h0)
    | some ip =>
      have hsync : Synced sb (s.setInode ip { s.icache ip with dev := dev, inum := inum, ref := 1, valid := false }) :=
        h.setInode fun hv => by cases hv
      show Meets (.ok (ip, s.setInode ip { s.icache ip with dev := dev, inum := inum, ref := 1, valid := false })) _ _
      rw [meets_ok, setInode_same]
      exact ⟨rfl, rfl, show (0 : Int) < 1 by decide, rfl, hsync⟩

/-- `ilock` of an allocated inode: the entry then holds the inode of the disk. -/
theorem ilock_found (h : Synced sb s) {ip : Fin NINODE} (hr : 0 < (s.icache ip).ref)
    (hlive : (dinodeAt sb s.disk (s.icache ip).inum).type ≠ 0) : Meets (ilock sb ip s)
      (fun _ t => t.disk = s.disk ∧ (t.icache ip).inum = (s.icache ip).inum ∧
        (t.icache ip).di = dinodeAt sb s.disk (s.icache ip).inum)
      (fun e => e = .asleep ∧ (s.icache ip).locked = true) := by
  have href : ¬ (s.icache ip).ref < 1 := Int.not_lt.mpr hr
  rw [ilock_eq, if_neg href]
  split
  · rename_i hl
    exact ⟨rfl, hl⟩
  split
  · rename_i hv
    rw [meets_ok, setInode_same]
    exact ⟨rfl, rfl, h ip hr hv⟩
  · rw [meets_ok, setInode_same]
    exact ⟨rfl, rfl, rfl⟩

theorem meets_lift {α : Type} {f : M α} {Q : α → St → Prop} {E : Stop → Prop} (h : Meets (f s) Q E) :
    Meets (lift f s) Q fun e => ∃ e', e = .fs e' ∧ E e' := by
  unfold lift
  match f s, h with
  | .ok r, h => exact h
  | .error e, h => exact ⟨e, rfl, h⟩

end Xv6.Fs
