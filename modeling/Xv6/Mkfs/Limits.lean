/-
  THE LIMITS of `mkfs`, and the holes of its root directory.

  `freeinode` and `freeblock` are bare counters.  A block that lies past the end of the image is noticed all the same: every
  block that is taken is read before it is written (`rsect`), and there is nothing to read.  So an image that is finished
  has taken no such block (`iappendLoop_fits`), and what `Mkfs.Build` proves of files that fit holds of every image that
  is finished (`mkfs_finished`), if there are inodes for the files.  Nobody notices that there are not.

  1. **`mkfs_within`** — with as many inodes as there are files, all inode and block numbers are within the limits of the
     superblock.  With one file more than that, inode `sb.ninodes` is used (`mkfs_too_many`).
  2. **`mkfs_holeFree`** — the size of the root directory is rounded up to the NEXT multiple of `BSIZE`, so there is a hole
     behind entries that fill their blocks (`mkfs_hole`), and there is no other.
  3. **`mkfs_boots`** — what the kernel makes of an image without holes.
-/
import Mathlib
import Xv6.Fs.System
import Xv6.Mkfs.Build

namespace Xv6.Mkfs

open ByteBuf Outcome Fs Ownership Kernel

variable {m m' : St} {din din' : Dinode} {inum : Nat} {L : LogOps.Log} {fs : List (Name × List UInt8)} {name : Name}

/-! ## What is appended has fitted -/

theorem Fresh.toNat_freeblock (hf : Fresh m) : (UInt32.ofNat m.freeblock).toNat = m.freeblock := by
  refine UInt32.toNat_ofNat_of_lt' ?_
  have hhigh := hf.high
  simp only [FSSIZE] at hhigh
  show _ < 2 ^ 32
  omega

section

variable (hw : Working mkfsSb (work m inum din L) 0) (hf : Fresh m)

include hw hf

theorem mapBlock_full_direct {fbn x : Nat} (h : fbn < NDIRECT)
    (hm : (work m inum din L).own mkfsSb 0 ((work m inum din L).key 0 (slotOf fbn)) = 0)
    (hfull : FSSIZE < m.freeblock + need1 m inum din L fbn) (hmap : mapBlock m din fbn = some (x, din', m')) :
    FSSIZE ≤ x := by
  have hk : din.addrs ⟨fbn, Nat.lt_succ_of_lt h⟩ = 0 := hw.addr_zero h hm
  have hneed : need1 m inum din L fbn = 1 := need1_direct h hm
  unfold mapBlock at hmap
  rw [dif_pos h] at hmap
  dsimp only at hmap
  rw [setAddr_zero hk] at hmap
  cases hmap
  show FSSIZE ≤ (if _ = _ then UInt32.ofNat m.freeblock else _).toNat
  rw [if_pos rfl, hf.toNat_freeblock]
  omega

theorem mapBlock_full_indirect {fbn x : Nat} (h : ¬ fbn < NDIRECT) (hfbn : fbn < MAXFILE)
    (hm : (work m inum din L).own mkfsSb 0 ((work m inum din L).key 0 (slotOf fbn)) = 0)
    (hfull : FSSIZE < m.freeblock + need1 m inum din L fbn) (hmap : mapBlock m din fbn = some (x, din', m')) :
    FSSIZE ≤ x := by
  have hhigh := hf.high
  have hj : fbn - NDIRECT < NINDIRECT := by
    simp only [MAXFILE] at hfbn
    omega
  have hneed : need1 m inum din L fbn = _ := need1_indirect h hm
  have hown := work_own hw .indirect
  unfold mapBlock at hmap
  rw [dif_neg h] at hmap
  by_cases hi : din.indirect = 0
  · -- the indirect block is the last one, and zero; the block itself is one too many
    rw [if_pos (hown.trans (toNat_eq_zero.mpr hi))] at hneed
    rw [setAddr_zero hi] at hmap
    dsimp only at hmap
    have hself : (withAddr din (Fin.last NDIRECT) m.freeblock).indirect.toNat = m.freeblock := by
      show (if _ = _ then UInt32.ofNat m.freeblock else _).toNat = _
      rw [if_pos rfl, hf.toNat_freeblock]
    rw [hself, rsect] at hmap
    split at hmap
    · rename_i hlt
      have hzero : (take m).disk m.freeblock = zeroBlock := hf.zero _ (Nat.le_refl _) hlt
      have hword : (take m).freeblock < 2 ^ 32 := by
        show m.freeblock + 1 < 2 ^ 32
        simp only [FSSIZE] at hhigh
        omega
      simp only [Option.bind_eq_bind, Option.bind_some] at hmap
      rw [hzero, if_pos (word_zeroBlock _)] at hmap
      cases hmap
      rw [word_setWord _ hj hword, if_pos rfl]
      show FSSIZE ≤ m.freeblock + 1
      omega
    · cases hmap
  · have hne := ne_of_eq_of_ne hown (toNat_ne_zero.mpr hi)
    rw [if_neg hne] at hneed
    rw [setAddr_ne hi] at hmap
    dsimp only at hmap
    obtain ⟨hlow, hlt⟩ := work_held hw hf hne
    rw [hown] at hlow hlt
    have hread : rsect m din.indirect.toNat = some (image m din.indirect.toNat) :=
      rsect_image hlow (Nat.lt_of_lt_of_le hlt hhigh)
    rw [slotOf_indirect h] at hm
    have hz : word (image m din.indirect.toNat) (fbn - NDIRECT) = 0 := hw.word_zero (toNat_ne_zero.mpr hi) hm
    have hfb : m.freeblock < 2 ^ 32 := by
      simp only [FSSIZE] at hhigh
      omega
    rw [hread] at hmap
    simp only [Option.bind_eq_bind, Option.bind_some] at hmap
    rw [if_pos hz] at hmap
    cases hmap
    rw [word_setWord _ hj hfb, if_pos rfl]
    omega

/-- **A block past the end of the image**: where no block is left, the next one has the number `FSSIZE`. -/
theorem mapBlock_full {fbn x : Nat} (hfbn : fbn < MAXFILE)
    (hfull : FSSIZE < m.freeblock + need1 m inum din L fbn) (hmap : mapBlock m din fbn = some (x, din', m')) :
    FSSIZE ≤ x := by
  have hm : (work m inum din L).own mkfsSb 0 ((work m inum din L).key 0 (slotOf fbn)) = 0 := by
    by_contra hm
    have hhigh := hf.high
    rw [need1, need1_mapped hw hm] at hfull
    omega
  by_cases h : fbn < NDIRECT
  · exact mapBlock_full_direct hw hf h hm hfull hmap
  · exact mapBlock_full_indirect hw hf h hfbn hm hfull hmap

end

/-- What the loop has appended has fitted. -/
theorem iappendLoop_fits : ∀ (n : Nat) {m : St} {din : Dinode} {L : LogOps.Log} (p : Nat → UInt8) (off : Nat)
    {r : Dinode × Nat × St}, Working mkfsSb (work m inum din L) 0 → Fresh m → Tight (work m inum din L) off →
    off ≤ MAXFILE * BSIZE → iappendLoop m din off p n = some r →
    off + n ≤ MAXFILE * BSIZE ∧ m.freeblock + blocksFor (off + n) ≤ FSSIZE + blocksFor off := by
  intro n
  induction n using Nat.strongRecOn with
  | _ n ih =>
  intro m din L p off r hw hf ht hoff h
  by_cases hn : n = 0
  · subst hn
    exact ⟨hoff, Nat.add_le_add_right hf.high _⟩
  have hsize : BSIZE = 512 := rfl
  have hpos := chunk_pos off hn
  have hle := chunk_le off n
  have hchunk := chunk_room off n
  have hfbn : off / BSIZE < MAXFILE := by
    by_contra hge
    rw [iappendLoop, dif_neg hn] at h
    dsimp only at h
    rw [if_pos (Nat.le_of_not_lt hge)] at h
    cases h
  by_cases hroom : m.freeblock + need1 m inum din L (off / BSIZE) ≤ FSSIZE
  · have hend : off + chunk off n + (n - chunk off n) = off + n := by omega
    obtain ⟨din₂, m₂, L₂, hround, h₂⟩ := iappendLoop_round hw hf ht hn hfbn hroom p
    have hfb := h₂.freeblock
    rw [hround] at h
    obtain ⟨hmax, hblocks⟩ := ih (n - chunk off n) (by omega) _ _ h₂.work h₂.fresh h₂.tight
      (by simp only [hsize] at *; omega) h
    rw [hend] at hmax hblocks
    exact ⟨hmax, by omega⟩
  · -- the block that is taken cannot be read
    exfalso
    rw [iappendLoop, dif_neg hn] at h
    dsimp only at h
    rw [if_neg (Nat.not_le.mpr hfbn)] at h
    obtain ⟨⟨x, din₁, m₁⟩, hmap, h⟩ := Option.bind_eq_some_iff.mp h
    have hpast := mapBlock_full hw hf hfbn (Nat.lt_of_not_le hroom) hmap
    dsimp only at h
    rw [rsect, if_neg (Nat.not_lt.mpr hpast)] at h
    cases h

/-- **What `iappend` has appended has fitted.** -/
theorem iappend_fits (h : Sound (image m)) (hf : Fresh m) (hi : inum < mkfsSb.ninodes) {t : UInt16}
    {data : List UInt8} (hfile : fileAt (image m) inum = some (t, data)) (p : Nat → UInt8) {n : Nat}
    (happ : iappend m inum p n = some m') :
    data.length + n ≤ MAXFILE * BSIZE ∧ m.freeblock + blocksFor (data.length + n) ≤ FSSIZE + blocksFor data.length := by
  obtain ⟨hlive, -, hcontent⟩ := fileAt_eq_some hfile
  have hsize : (dinodeAt mkfsSb (image m) inum).size.toNat = data.length := by
    rw [← length_content (image m), hcontent]
  unfold iappend at happ
  rw [rinode_eq hi] at happ
  simp only [Option.bind_eq_bind, Option.bind_some] at happ
  obtain ⟨r, hloop, -⟩ := Option.bind_eq_some_iff.mp happ
  rw [← hsize]
  exact iappendLoop_fits n p _ (h.working hi hlive (LogOps.Log.init 2 LOGSIZE)) hf
    (h.tight hi hlive (LogOps.Log.init 2 LOGSIZE)) (h.size_le inum hi hlive) hloop

/-! ## Every image that is finished -/

/-- A call of `iappend` for a host file. -/
theorem Built.appended {data : List UInt8} (h : Built m (fs ++ [(name, data)]))
    (hinodes : fs.length + 3 ≤ mkfsSb.ninodes) {c : List UInt8}
    (happ : iappend m (fs.length + 2) (buffer c) c.length = some m') : Built m' (fs ++ [(name, data ++ c)]) := by
  have hfile : fileAt (image m) (fs.length + 2) = some (UInt16.ofNat T_FILE, data) := by
    rw [h.files _ (by omega), tree_snoc, if_pos rfl]
  obtain ⟨hmax, hroom⟩ := iappend_fits h.sound h.fresh (by omega) hfile (buffer c) happ
  have hused := used_snoc fs name data
  have hused' := used_snoc fs name (data ++ c)
  have hfb := h.freeblock
  rw [← List.length_append] at hmax hroom
  obtain ⟨m'', happ', hbuilt⟩ := h.append hinodes c hmax (by omega)
  cases happ.symm.trans happ'
  exact hbuilt

/-- All the reads of one file. -/
theorem Built.readAll (hinodes : fs.length + 3 ≤ mkfsSb.ninodes) (cs : List (List UInt8)) {data : List UInt8}
    (h : Built m (fs ++ [(name, data)]))
    (hreads : cs.foldlM (fun st c => iappend st (fs.length + 2) (buffer c) c.length) m = some m') :
    Built m' (fs ++ [(name, data ++ cs.flatten)]) := by
  induction cs generalizing m data with
  | nil =>
    cases hreads
    rw [List.flatten_nil, List.append_nil]
    exact h
  | cons c cs ih =>
    rw [List.foldlM_cons] at hreads
    obtain ⟨m₁, happ, hreads⟩ := Option.bind_eq_some_iff.mp hreads
    rw [List.flatten_cons, ← List.append_assoc]
    exact ih (h.appended hinodes happ) hreads

/-- The room for an entry, if there was any. -/
theorem Built.entryFits (h : Built m fs) (hinodes : fs.length + 3 ≤ mkfsSb.ninodes) {m₁ m₂ : St}
    (halloc : Mkfs.ialloc m T_FILE = some (fs.length + 2, m₁))
    (hentry : Mkfs.addEntry m₁ ROOTINO ⟨fs.length + 2, name⟩ = some m₂) : used (fs ++ [(name, [])]) ≤ FSSIZE := by
  obtain ⟨m₁', halloc', -, hfb, hedit₁, hfile⟩ := h.ialloc hinodes
  cases halloc.symm.trans halloc'
  obtain ⟨-, hroom⟩ := iappend_fits hedit₁.sound hedit₁.fresh (by decide) hfile _ hentry
  have hused := used_snoc fs name []
  rw [List.length_nil, blocksFor_zero] at hused
  rw [length_rootBytes, show DESIZE * (fs.length + 2) + DESIZE = DESIZE * (fs.length + 3) from rfl] at hroom
  omega

/-- **One file**, if it has been added. -/
theorem Built.added (h : Built m fs) {f : HostFile} (hinodes : fs.length + 3 ≤ mkfsSb.ninodes)
    (hadd : addFile m f = some m') : Built m' (fs ++ [f.named]) := by
  unfold addFile at hadd
  split at hadd
  · cases hadd
  obtain ⟨⟨inum, m₁⟩, halloc, hadd⟩ := Option.bind_eq_some_iff.mp hadd
  obtain ⟨m₂, hentry, hadd⟩ := Option.bind_eq_some_iff.mp hadd
  obtain ⟨m₁', halloc', -⟩ := h.ialloc hinodes
  cases halloc.symm.trans halloc'
  obtain ⟨m₁', m₂', halloc', hentry', h₂⟩ := h.addEntry (Name.ofBytes f.fsName) hinodes
    (h.entryFits hinodes halloc hentry)
  cases halloc.symm.trans halloc'
  cases hentry.symm.trans hentry'
  exact h₂.readAll hinodes f.reads hadd

theorem Built.addedAll (files : List HostFile) (h : Built m fs)
    (hinodes : fs.length + files.length + 2 ≤ mkfsSb.ninodes) (hadd : files.foldlM addFile m = some m') :
    Built m' (fs ++ files.map HostFile.named) := by
  induction files generalizing m fs with
  | nil =>
    cases hadd
    rw [List.map_nil, List.append_nil]
    exact h
  | cons f files ih =>
    rw [List.length_cons] at hinodes
    rw [List.foldlM_cons] at hadd
    obtain ⟨m₁, hone, hadd⟩ := Option.bind_eq_some_iff.mp hadd
    rw [List.map_cons, List.append_cons]
    refine ih (h.added (by omega) hone) ?_ hadd
    rw [List.length_append, List.length_singleton]
    omega

/-- **Every image that is finished** is built of its files, if there are inodes for them. -/
theorem build_built {files : List HostFile} (hcount : files.length + 2 ≤ mkfsSb.ninodes) {st : St}
    (h : build files = some st) : ∃ m, Built m (files.map HostFile.named) ∧ finish m = some st := by
  obtain ⟨m₀, hroot, h₀⟩ := makeRoot_spec
  unfold build at h
  rw [hroot] at h
  simp only [Option.bind_eq_bind, Option.bind_some] at h
  obtain ⟨m, hadd, h⟩ := Option.bind_eq_some_iff.mp h
  have hbuilt := h₀.addedAll files (by rw [List.length_nil]; omega) hadd
  rw [List.nil_append] at hbuilt
  exact ⟨m, hbuilt, h⟩

/-! ## The limits -/

/-! ### The inodes that are given out

`ialloc` counts, and nothing else touches the counter. -/

theorem winode_freeinode {ip : Dinode} {m' : St} (h : winode m inum ip = some m') :
    m'.freeinode = m.freeinode := by
  obtain ⟨buf, -, h⟩ := Option.bind_eq_some_iff.mp h
  cases h
  rfl

theorem setAddr_freeinode (m : St) (din : Dinode) (k : Fin (NDIRECT + 1)) :
    (setAddr m din k).2.freeinode = m.freeinode := by
  unfold setAddr
  split <;> rfl

theorem mapBlock_freeinode {din din' : Dinode} {fbn x : Nat} {m' : St}
    (h : mapBlock m din fbn = some (x, din', m')) : m'.freeinode = m.freeinode := by
  unfold mapBlock at h
  split at h
  · cases h
    exact setAddr_freeinode m din _
  · obtain ⟨indirect, -, h⟩ := Option.bind_eq_some_iff.mp h
    split at h
    · cases h
      exact setAddr_freeinode m din _
    · cases h
      exact setAddr_freeinode m din _

theorem iappendLoop_freeinode {din din' : Dinode} {off off' : Nat} {p : Nat → UInt8} {n : Nat} {m' : St}
    (h : iappendLoop m din off p n = some (din', off', m')) : m'.freeinode = m.freeinode := by
  induction n using Nat.strong_induction_on generalizing m din off p with
  | h n ih =>
    rw [iappendLoop] at h
    split at h
    · cases h
      rfl
    · rename_i hn
      dsimp only at h
      split at h
      · cases h
      · obtain ⟨⟨x, din₁, m₁⟩, hmap, h⟩ := Option.bind_eq_some_iff.mp h
        obtain ⟨buf, -, h⟩ := Option.bind_eq_some_iff.mp h
        have hsize : BSIZE = 512 := rfl
        have hrest := ih _ (by simp only [hsize]; omega) h
        exact hrest.trans (show m₁.freeinode = _ from mapBlock_freeinode hmap)

theorem iappend_freeinode {p : Nat → UInt8} {n : Nat} {m' : St} (h : iappend m inum p n = some m') :
    m'.freeinode = m.freeinode := by
  obtain ⟨din, -, h⟩ := Option.bind_eq_some_iff.mp h
  obtain ⟨⟨din₁, off, m₁⟩, hloop, h⟩ := Option.bind_eq_some_iff.mp h
  exact (winode_freeinode h).trans (iappendLoop_freeinode hloop)

theorem addFile_freeinode {f : HostFile} {m' : St} (h : addFile m f = some m') :
    m'.freeinode = m.freeinode + 1 := by
  unfold addFile at h
  split at h
  · cases h
  · obtain ⟨⟨n, m₁⟩, halloc, h⟩ := Option.bind_eq_some_iff.mp h
    obtain ⟨m₂, hentry, h⟩ := Option.bind_eq_some_iff.mp h
    obtain ⟨m₃, hw, halloc⟩ := Option.bind_eq_some_iff.mp halloc
    cases halloc
    have hreads : ∀ (n : Nat) (cs : List (List UInt8)) {m m' : St},
        cs.foldlM (fun st c => iappend st n (buffer c) c.length) m = some m' → m'.freeinode = m.freeinode := by
      intro n cs
      induction cs with
      | nil =>
        intro m m' h
        cases h
        rfl
      | cons c cs ih =>
        intro m m' h
        obtain ⟨m₁, hone, h⟩ := Option.bind_eq_some_iff.mp h
        exact (ih h).trans (iappend_freeinode hone)
    rw [hreads _ _ h, iappend_freeinode hentry, winode_freeinode hw]

/-- One inode for the root directory, and one for each file. -/
theorem build_freeinode {files : List HostFile} {st : St} (h : build files = some st) :
    st.freeinode = files.length + 2 := by
  have hfiles : ∀ (fs : List HostFile) {m m' : St}, fs.foldlM addFile m = some m' →
      m'.freeinode = m.freeinode + fs.length := by
    intro fs
    induction fs with
    | nil =>
      intro m m' h
      cases h
      rfl
    | cons f fs ih =>
      intro m m' h
      obtain ⟨m₁, hone, h⟩ := Option.bind_eq_some_iff.mp h
      rw [ih h, addFile_freeinode hone, List.length_cons]
      omega
  obtain ⟨m₀, hroot, h₀⟩ := makeRoot_spec
  obtain ⟨m₁, hroot', h⟩ := Option.bind_eq_some_iff.mp h
  cases hroot.symm.trans hroot'
  obtain ⟨m, hadd, h⟩ := Option.bind_eq_some_iff.mp h
  unfold finish at h
  obtain ⟨din, -, h⟩ := Option.bind_eq_some_iff.mp h
  obtain ⟨m₂, hw, h⟩ := Option.bind_eq_some_iff.mp h
  have hfree : st.freeinode = m₂.freeinode := by
    unfold balloc at h
    split at h
    · cases h
      rfl
    · cases h
  rw [hfree, winode_freeinode hw, hfiles _ hadd, h₀.freeinode, List.length_nil]
  omega

/-- **The numbers that `mkfs` uses.**  Of every image that is finished: the inode numbers that `ialloc` has
    given out are below `sb.ninodes`, with their inodes within the inode blocks, and the block numbers that
    have been given out, or that any inode of the image holds, are below `sb.size`, if and only if there are
    inodes for the files and the root. -/
theorem mkfs_within (files : List HostFile) (st : St) (h : build files = some st) :
    ((∀ n, 1 ≤ n → n < st.freeinode →
        n < mkfsSb.ninodes ∧ mkfsSb.inodestart ≤ mkfsSb.iblock n ∧ mkfsSb.iblock n < mkfsSb.bmapstart) ∧
      (∀ b, mkfsSb.nmeta ≤ b → b < st.freeblock → b < mkfsSb.size) ∧
      ∀ k, own mkfsSb st.disk (dinodeAt mkfsSb st.disk) k ≠ 0 →
        mkfsSb.nmeta ≤ own mkfsSb st.disk (dinodeAt mkfsSb st.disk) k ∧
        own mkfsSb st.disk (dinodeAt mkfsSb st.disk) k < mkfsSb.size) ↔
    files.length + 2 ≤ mkfsSb.ninodes := by
  have hinode := build_freeinode h
  constructor
  · -- the inode `sb.ninodes` itself has not been given out
    rintro ⟨hlow, -⟩
    by_contra hmany
    exact absurd (hlow mkfsSb.ninodes (by decide) (by omega)).1 (Nat.lt_irrefl _)
  · intro hcount
    obtain ⟨m, hbuilt, hfinish⟩ := build_built hcount h
    obtain ⟨st', hfinish', hfinished⟩ := finish_spec hbuilt (by rw [List.length_map]; exact hcount)
    cases hfinish.symm.trans hfinish'
    rw [finish_eq hbuilt] at hfinish
    have hblock : st.freeblock = m.freeblock := by
      rw [← Option.some.inj hfinish]
      rfl
    refine ⟨fun n _ hn => ?_, fun b _ hb => ?_, fun k hk => hfinished.cons.excl.inArea k hk⟩
    · have hlt : n < mkfsSb.ninodes := by omega
      exact ⟨hlt, Nat.le_add_left _ _, mkfsSb.iblock_lt hlt⟩
    · rw [hblock] at hb
      exact Nat.lt_of_lt_of_le hb hbuilt.fresh.high

/-- A file of no bytes. -/
def noBytes : HostFile where
  name := [97]
  reads := []
  name_str := by decide
  reads_ok := by decide

/-- As many of them as there are inodes. -/
theorem built_noBytes {n : Nat} (hn : n + 2 ≤ mkfsSb.ninodes) : ∃ m₀ m, makeRoot start = some m₀ ∧
    (List.replicate n noBytes).foldlM addFile m₀ = some m ∧ Built m (List.replicate n noBytes.named) := by
  have hall : ∀ f ∈ List.replicate n noBytes, f = noBytes := fun f hf => List.eq_of_mem_replicate hf
  have hzero : blocksFor noBytes.named.2.length = 0 := by decide
  have hdir : blocksFor (DESIZE * (n + 2)) ≤ blocksFor (DESIZE * mkfsSb.ninodes) :=
    blocksFor_mono (Nat.mul_le_mul_left _ hn)
  have hused : used (List.replicate n noBytes.named) ≤ FSSIZE := by
    rw [used, List.length_replicate, List.map_replicate, List.sum_replicate, hzero, smul_zero, Nat.add_zero]
    exact le_trans (Nat.add_le_add_left hdir _) (by decide)
  obtain ⟨m₀, hroot, h₀⟩ := makeRoot_spec
  obtain ⟨m, hfold, h⟩ := addFiles_spec (List.replicate n noBytes) h₀
    (fun f hf => by rw [hall f hf]; decide) (fun f hf => by rw [hall f hf]; decide)
    (by rw [List.length_nil, List.length_replicate]; omega)
    (by rw [List.nil_append, List.map_replicate]; exact hused)
  rw [List.nil_append, List.map_replicate] at h
  exact ⟨m₀, m, hroot, hfold, h⟩

theorem build_noBytes {n : Nat} (hn : n + 2 ≤ mkfsSb.ninodes) : ∃ m, Built m (List.replicate n noBytes.named) ∧
    build (List.replicate n noBytes) = finish m := by
  obtain ⟨m₀, m, hroot, hfold, h⟩ := built_noBytes hn
  refine ⟨m, h, ?_⟩
  unfold build
  rw [hroot]
  simp only [Option.bind_eq_bind, Option.bind_some]
  rw [hfold, Option.bind_some]

theorem mkfs_within_ten : ∃ st, build (List.replicate 10 noBytes) = some st ∧ st.freeinode = 12 ∧
    ∀ n, 1 ≤ n → n < 12 → n < mkfsSb.ninodes := by
  obtain ⟨m, hbuilt, hbuild⟩ := build_noBytes (n := 10) (by decide)
  rw [finish_eq hbuilt] at hbuild
  have hfree : m.freeinode = 12 := hbuilt.freeinode
  refine ⟨_, hbuild, hfree, fun n hlow hn => ?_⟩
  exact (((mkfs_within _ _ hbuild).2 (by decide)).1 n hlow (Nat.lt_of_lt_of_eq hn hfree.symm)).1

/-! ### One file too many -/

/-- A block that is none of the inodes', before the bitmap. -/
structure Spare (b : Nat) : Prop where
  inode : ∀ n, n < mkfsSb.ninodes → mkfsSb.iblock n ≠ b
  low : b < mkfsSb.bmapstart

section Spare

variable {d : Disk} {b : Nat} (hb : Spare b) (x : Block)
include hb

theorem Spare.data {c : Nat} (hc : mkfsSb.IsData c) : updBlk d b x c = d c := by
  have hlow := hb.low
  have hmap := mkfsSb.bmapstart_lt
  have hdata := hc.1
  exact updBlk_ne (by omega)

theorem Spare.dinodeAt {n : Nat} (hn : n < mkfsSb.ninodes) :
    Fs.dinodeAt mkfsSb (updBlk d b x) n = Fs.dinodeAt mkfsSb d n := by
  rw [Fs.dinodeAt, Fs.dinodeAt, updBlk_ne (hb.inode n hn)]

theorem Spare.blockOf (h : Sound d) {n : Nat} (hn : n < mkfsSb.ninodes) (ht : (Fs.dinodeAt mkfsSb d n).type ≠ 0)
    (bn : Nat) : Fs.blockOf (updBlk d b x) (Fs.dinodeAt mkfsSb d n) bn = Fs.blockOf d (Fs.dinodeAt mkfsSb d n) bn :=
  blockOf_congr h.cons hn ht (fun _ hc => hb.data x hc) bn

theorem Spare.consistent (h : Sound d) : Consistent mkfsSb (updBlk d b x) (Fs.dinodeAt mkfsSb (updBlk d b x)) := by
  have hbit : ∀ c, bit mkfsSb (updBlk d b x) c = bit mkfsSb d c := by
    intro c
    have hlow := hb.low
    have hmap : mkfsSb.bmapstart ≤ mkfsSb.bblock c := Nat.le_add_left _ _
    exact bit_updBlk_ne (by omega)
  refine ⟨h.cons.excl.congr (fun k => ?_) fun c _ => by rw [hbit], fun c hc => by rw [hbit, h.cons.metadata c hc]⟩
  have htable : own mkfsSb (updBlk d b x) (Fs.dinodeAt mkfsSb (updBlk d b x)) k =
      own mkfsSb (updBlk d b x) (Fs.dinodeAt mkfsSb d) k := by
    apply own_congr_table
    intro n hn
    rw [hb.dinodeAt x hn]
    exact ⟨rfl, rfl⟩
  rw [htable]
  exact h.cons.own_eq (fun c hc _ => hb.data x hc) k

/-- Nobody is interested in it. -/
theorem Spare.sound (h : Sound d) : Sound (updBlk d b x) where
  cons := hb.consistent x h
  size_le n hn ht := by
    rw [hb.dinodeAt x hn] at ht ⊢
    exact h.size_le n hn ht
  block n hn ht bn hbn := by
    rw [hb.dinodeAt x hn] at ht ⊢
    rw [hb.blockOf x h hn ht]
    exact h.block n hn ht bn hbn
  indirect n hn ht := by
    rw [hb.dinodeAt x hn] at ht ⊢
    exact h.indirect n hn ht

theorem Spare.fileAt (h : Sound d) {n : Nat} (hn : n < mkfsSb.ninodes) :
    Mkfs.fileAt (updBlk d b x) n = Mkfs.fileAt d n := by
  unfold Mkfs.fileAt
  rw [hb.dinodeAt x hn]
  split
  · rfl
  · rename_i ht
    refine congrArg (fun l => some (_, l)) (List.map_congr_left fun i _ => ?_)
    exact fileByte_congr h.cons hn ht (fun _ hc => hb.data x hc) i

end Spare

/-- The block of inode 200. -/
theorem spare_beyond : Spare (mkfsSb.iblock mkfsSb.ninodes) where
  inode n hn := by
    have hcount : mkfsSb.ninodes = 200 := rfl
    have hlast : mkfsSb.iblock 200 = 57 := by decide
    rw [hcount] at hn ⊢
    rw [hlast]
    show n / 8 + 32 ≠ 57
    omega
  low := by decide

/-- **One more empty file**, when all inodes are used. -/
theorem addFile_beyond (h : Built m fs) (hlen : fs.length + 2 = mkfsSb.ninodes) : ∃ m', addFile m noBytes = some m' ∧
    m'.freeinode = mkfsSb.ninodes + 1 ∧ m'.freeblock ≤ FSSIZE := by
  have hfi : m.freeinode = mkfsSb.ninodes := h.freeinode.trans hlen
  have hread : rsect { m with freeinode := mkfsSb.ninodes + 1 } (mkfsSb.iblock mkfsSb.ninodes) =
      some (m.disk (mkfsSb.iblock mkfsSb.ninodes)) := if_pos (by decide)
  let x := putDinode (m.disk (mkfsSb.iblock mkfsSb.ninodes)) (inodeOff mkfsSb.ninodes)
    { Dinode.zero with type := UInt16.ofNat T_FILE, nlink := 1 }
  let m₁ := wsect { m with freeinode := mkfsSb.ninodes + 1 } (mkfsSb.iblock mkfsSb.ninodes) x
  have halloc : ialloc m T_FILE = some (mkfsSb.ninodes, m₁) := by
    unfold ialloc winode
    dsimp only
    rw [hfi, hread]
    rfl
  have himage : image m₁ = updBlk (image m) (mkfsSb.iblock mkfsSb.ninodes) x :=
    image_wsect { m with freeinode := mkfsSb.ninodes + 1 } (by decide) x
  have hlow : mkfsSb.iblock mkfsSb.ninodes < m.freeblock :=
    Nat.lt_of_lt_of_le (by decide) h.fresh.low
  have hfresh : Fresh m₁ :=
    Fresh.wsect (m := { m with freeinode := mkfsSb.ninodes + 1 }) ⟨h.fresh.low, h.fresh.high, h.fresh.zero⟩ hlow x
  have hsound : Sound (image m₁) := himage ▸ spare_beyond.sound x h.sound
  have hfile : fileAt (image m₁) ROOTINO = some (UInt16.ofNat T_DIR, rootBytes fs) := by
    rw [himage, spare_beyond.fileAt x h.sound (by decide), h.files _ (by decide)]
    rfl
  -- the entry is the last of 201, and there is room for it in the directory's last block
  have hdata : (rootBytes fs).length = DESIZE * mkfsSb.ninodes := by rw [length_rootBytes, hlen]
  have hentry := Dirent.length_encode ⟨mkfsSb.ninodes, Name.ofBytes noBytes.fsName⟩
  obtain ⟨m', happ, hfi', hfb', hedit⟩ := iappend_file hsound hfresh (by decide) hfile
    (Dirent.encode ⟨mkfsSb.ninodes, Name.ofBytes noBytes.fsName⟩) (by rw [hdata, hentry]; decide)
    (by rw [hdata, hentry]; exact Nat.add_le_add h.fresh.high (by decide))
  rw [hentry] at happ
  refine ⟨m', ?_, ?_, hedit.fresh.high⟩
  · unfold addFile
    rw [if_neg (by decide), halloc]
    simp only [Option.bind_eq_bind, Option.bind_some]
    show (iappend m₁ ROOTINO _ _).bind _ = _
    rw [happ]
    rfl
  · exact hfi'

/-- `main` goes on to the end. -/
theorem finish_some (hused : m.freeblock ≤ FSSIZE) : ∃ st, finish m = some st ∧ st.freeinode = m.freeinode := by
  have hroot : ROOTINO < mkfsSb.ninodes := by decide
  have hlt : m.freeblock < BPB := Nat.lt_of_le_of_lt hused (by decide)
  unfold finish
  rw [rinode_eq hroot]
  simp only [Option.bind_eq_bind, Option.bind_some]
  rw [winode_eq hroot, Option.bind_some]
  exact ⟨_, if_pos hlt, rfl⟩

/-- 199 empty files: `mkfs` finishes the image, and has used inode 200 of `sb.ninodes = 200`. -/
theorem mkfs_too_many : ∃ st, build (List.replicate 199 noBytes) = some st ∧ mkfsSb.ninodes < st.freeinode := by
  obtain ⟨m₀, m, hroot, hfold, h⟩ := built_noBytes (n := 198) (by decide)
  obtain ⟨m', hadd, hfi, hfb⟩ := addFile_beyond h (by rw [List.length_replicate]; decide)
  obtain ⟨st, hfinish, hst⟩ := finish_some hfb
  refine ⟨st, ?_, ?_⟩
  · unfold build
    rw [hroot]
    simp only [Option.bind_eq_bind, Option.bind_some]
    rw [List.replicate_succ', List.foldlM_append, hfold]
    simp only [Option.bind_eq_bind, Option.bind_some, List.foldlM_cons, List.foldlM_nil]
    rw [hadd]
    exact hfinish
  · rw [hst, hfi]
    exact Nat.lt_succ_self _

/-! ## Holes -/

/-- The last step leaves the blocks of the root directory as they are. -/
theorem Built.root_blocks (h : Built m fs) {st : St} (hfinish : finish m = some st) :
    (dinodeAt mkfsSb st.disk ROOTINO).size = UInt32.ofNat ((DESIZE * (fs.length + 2) / BSIZE + 1) * BSIZE) ∧
    ∀ bn, blockOf st.disk (dinodeAt mkfsSb st.disk ROOTINO) bn =
      blockOf (image m) (dinodeAt mkfsSb (image m) ROOTINO) bn := by
  have hroot : ROOTINO < mkfsSb.ninodes := by decide
  rw [finish_eq h] at hfinish
  have hdisk : st.disk = image (putInode m ROOTINO (fixed m fs)) := by
    rw [← Option.some.inj hfinish]
    rfl
  have hself : dinodeAt mkfsSb (image (putInode m ROOTINO (fixed m fs))) ROOTINO = fixed m fs := by
    rw [dinodeAt_putInode hroot, if_pos rfl]
  rw [hdisk, hself]
  refine ⟨rfl, fun bn => ?_⟩
  have haddrs : (fixed m fs).addrs = (dinodeAt mkfsSb (image m) ROOTINO).addrs := rfl
  rw [blockOf_addrs _ haddrs]
  exact blockOf_congr h.sound.cons hroot h.root.1 (fun b hb => putInode_data hroot _ hb) bn

/-- An inode that is in use is that of the root directory or of a file. -/
theorem Built.inode_cases (h : Built m fs) {st : St} (hfinish : finish m = some st) {n : Nat} (hn : n < mkfsSb.ninodes)
    (ht : (dinodeAt mkfsSb st.disk n).type ≠ 0) : n = ROOTINO ∨ ∃ i, i < fs.length ∧ n = i + 2 := by
  rw [finish_eq h] at hfinish
  have hdisk : st.disk = image (putInode m ROOTINO (fixed m fs)) := by
    rw [← Option.some.inj hfinish]
    rfl
  by_cases hroot : n = ROOTINO
  · exact .inl hroot
  rw [hdisk, dinodeAt_putInode (by decide), if_neg hroot] at ht
  have hlive : fileAt (image m) n ≠ none := by
    rw [fileAt_of_live ht]
    exact Option.some_ne_none _
  rw [h.files n hn] at hlive
  rcases Nat.eq_zero_or_pos n with rfl | hpos
  · exact absurd rfl hlive
  obtain ⟨i, rfl⟩ : ∃ i, n = i + 2 := ⟨n - 2, by simp only [ROOTINO] at hroot; omega⟩
  refine .inr ⟨i, ?_, rfl⟩
  by_contra hge
  have hnone : fs[i]? = none := List.getElem?_eq_none (Nat.le_of_not_lt hge)
  rw [tree, hnone] at hlive
  exact absurd rfl hlive

/-- Entries that fill their blocks to the last byte: the size of the root directory is rounded up all the
    same, and there is no block for what is added. -/
theorem Built.hole (h : Built m fs) (hcount : fs.length + 2 ≤ mkfsSb.ninodes) {st : St}
    (hfinish : finish m = some st) (hfull : DESIZE * (fs.length + 2) % BSIZE = 0) :
    (dinodeAt mkfsSb st.disk ROOTINO).type ≠ 0 ∧
    DESIZE * (fs.length + 2) / BSIZE < ((dinodeAt mkfsSb st.disk ROOTINO).size.toNat + BSIZE - 1) / BSIZE ∧
    blockOf st.disk (dinodeAt mkfsSb st.disk ROOTINO) (DESIZE * (fs.length + 2) / BSIZE) = 0 := by
  have hsizes : BSIZE = 512 ∧ DESIZE = 16 ∧ MAXFILE = 140 ∧ mkfsSb.ninodes = 200 := by decide
  obtain ⟨st', hfinish', hfinished⟩ := finish_spec h hcount
  cases hfinish.symm.trans hfinish'
  refine ⟨?_, ?_, ?_⟩
  · rw [hfinished.rootType]
    decide
  · rw [hfinished.rootSize]
    simp only [hsizes] at *
    omega
  · rw [(h.root_blocks hfinish).2]
    by_contra hne
    have hlast : DESIZE * (fs.length + 2) / BSIZE < MAXFILE := by
      simp only [hsizes] at *
      omega
    have hlt := (h.sound.block ROOTINO (by decide) h.root.1 _ hlast).mp hne
    rw [h.root.2.2.2] at hlt
    simp only [hsizes] at *
    omega

/-- **No holes.**  In an image that `mkfs` has finished, if there are inodes for the files, every inode has a block
    for each block index of its size if and only if the entries of the root directory do not fill their blocks to the
    last byte. -/
theorem mkfs_holeFree (files : List HostFile) (hcount : files.length + 2 ≤ mkfsSb.ninodes) (d : Disk)
    (h : mkfs files = some d) :
    (∀ n, n < mkfsSb.ninodes → (dinodeAt mkfsSb d n).type ≠ 0 →
      ∀ bn, bn < ((dinodeAt mkfsSb d n).size.toNat + BSIZE - 1) / BSIZE →
        blockOf d (dinodeAt mkfsSb d n) bn ≠ 0) ↔
    DESIZE * (files.length + 2) % BSIZE ≠ 0 := by
  obtain ⟨st, hbuild, rfl⟩ := Option.map_eq_some_iff.mp h
  obtain ⟨m, hbuilt, hfinish⟩ := build_built hcount hbuild
  have hlen : (files.map HostFile.named).length = files.length := List.length_map _
  rw [← hlen] at hcount ⊢
  obtain ⟨st', hfinish', hfinished⟩ := finish_spec hbuilt hcount
  cases hfinish.symm.trans hfinish'
  have hsize : BSIZE = 512 := rfl
  constructor
  · intro hblocks hfull
    obtain ⟨htype, hbn, hnone⟩ := hbuilt.hole hcount hfinish hfull
    exact hblocks ROOTINO (by decide) htype _ hbn hnone
  · intro hends n hn ht bn hbn
    rcases hbuilt.inode_cases hfinish hn ht with rfl | ⟨i, hi, rfl⟩
    · refine hfinished.rootBlock bn ?_
      rw [hfinished.rootSize] at hbn
      simp only [hsize] at *
      omega
    · refine (hfinished.files i hi).2.mapped bn ?_
      simp only [hsize] at *
      omega

theorem mkfs_holeFree_ten : ∃ d, mkfs (List.replicate 10 noBytes) = some d ∧
    blockOf d (dinodeAt mkfsSb d ROOTINO) 0 ≠ 0 := by
  obtain ⟨m, hbuilt, hbuild⟩ := build_noBytes (n := 10) (by decide)
  obtain ⟨st, hfinish, hfinished⟩ := finish_spec hbuilt (by rw [List.length_replicate]; decide)
  have hmkfs : mkfs (List.replicate 10 noBytes) = some st.disk := by
    rw [mkfs, hbuild, hfinish, Option.map_some]
  refine ⟨st.disk, hmkfs, (mkfs_holeFree _ (by decide) _ hmkfs).2 (by decide) ROOTINO (by decide) ?_ 0 ?_⟩
  · rw [hfinished.rootType]
    decide
  · rw [hfinished.rootSize, List.length_replicate]
    decide

/-- 30 files: with `.` and `..` their entries fill one block, and the root directory is given a size of two. -/
theorem mkfs_hole : ∃ d, mkfs (List.replicate 30 noBytes) = some d ∧ (dinodeAt mkfsSb d ROOTINO).type ≠ 0 ∧
    1 < ((dinodeAt mkfsSb d ROOTINO).size.toNat + BSIZE - 1) / BSIZE ∧ blockOf d (dinodeAt mkfsSb d ROOTINO) 1 = 0 := by
  obtain ⟨m, hbuilt, hbuild⟩ := build_noBytes (n := 30) (by decide)
  obtain ⟨st, hfinish, -⟩ := finish_spec hbuilt (by rw [List.length_replicate]; decide)
  have hhole := hbuilt.hole (by rw [List.length_replicate]; decide) hfinish (by rw [List.length_replicate]; decide)
  rw [List.length_replicate] at hhole
  exact ⟨st.disk, by rw [mkfs, hbuild, hfinish, Option.map_some], hhole⟩

/-- **The kernel on an image that `mkfs` has made**, as in `mkfs_holeFree`: from the boot on, whatever calls are made of the
    inode layer, no free block is freed, and the file system stays consistent and without holes. -/
theorem mkfs_boots (files : List HostFile) (hcount : files.length + 2 ≤ mkfsSb.ninodes)
    (hends : DESIZE * (files.length + 2) % BSIZE ≠ 0) (s : Fs.St) (h : mkfs files = some s.disk)
    (hcache : ∀ ip, (s.icache ip).ref = 0 ∧ (s.icache ip).locked = false) {devsw : Nat → Devsw} {ops : List Fs.Op}
    {x : Fs.Sys} (hrun : (Fs.system mkfsSb devsw).Run (Fs.Legal mkfsSb) (.running s) ops x) : x.Ok mkfsSb := by
  obtain ⟨st, hbuild, hdisk⟩ := Option.map_eq_some_iff.mp h
  obtain ⟨m, hbuilt, hfinish⟩ := build_built hcount hbuild
  obtain ⟨st', hfinish', hfinished⟩ := finish_spec hbuilt (by rw [List.length_map]; exact hcount)
  cases hfinish.symm.trans hfinish'
  rw [hdisk] at hfinished
  have hbooted : Fs.Booted mkfsSb s := by
    refine ⟨hfinished.cons, fun n hn ht => ?_, fun ip => (hcache ip).1, fun ip => (hcache ip).2⟩
    rw [← hdisk] at ht
    rcases hbuilt.inode_cases hfinish hn ht with rfl | ⟨i, hi, rfl⟩
    · have hsize : BSIZE = 512 ∧ DESIZE = 16 ∧ MAXFILE = 140 ∧ mkfsSb.ninodes = 200 := by decide
      have hroot := hfinished.rootSize
      simp only [List.length_map, hsize] at hroot hends hcount
      refine ⟨?_, fun bn hbn => hfinished.rootBlock bn ?_⟩
      · simp only [hsize]
        omega
      · simp only [List.length_map, hsize] at hbn ⊢
        omega
    · exact (hfinished.files i hi).2
  exact Fs.sys_ok ⟨_, ops, ⟨s, rfl, hbooted⟩, hrun⟩

/-- `iget(ROOTDEV, ROOTINO)` on an image of ten empty files. -/
theorem mkfs_boots_ten : ∃ s t, mkfs (List.replicate 10 noBytes) = some s.disk ∧
    Fs.perform mkfsSb (fun _ => ⟨none, none⟩) (.iget ROOTINO) s = .ok ((), t) ∧ Fs.Inv mkfsSb t := by
  obtain ⟨m, hbuilt, hbuild⟩ := build_noBytes (n := 10) (by decide)
  obtain ⟨st, hfinish, -⟩ := finish_spec hbuilt (by rw [List.length_replicate]; decide)
  have hmkfs : mkfs (List.replicate 10 noBytes) = some st.disk := by
    rw [mkfs, hbuild, hfinish, Option.map_some]
  let s : Fs.St := { Fs.smallBoot with disk := st.disk }
  obtain ⟨t, ht⟩ : ∃ t, Fs.perform mkfsSb (fun _ => ⟨none, none⟩) (.iget ROOTINO) s = .ok ((), t) := ⟨_, rfl⟩
  have hstep : (Fs.system mkfsSb fun _ => ⟨none, none⟩).step (.running s) (.iget ROOTINO) = some (.running t) := by
    simp only [Fs.system, Fs.sysStep, ht]
  have hlegal : Fs.Legal mkfsSb (.running s) (.iget ROOTINO) := show 1 < 200 by decide
  exact ⟨s, t, hmkfs, ht, mkfs_boots (List.replicate 10 noBytes) (by decide) (by decide) s hmkfs (fun ip => ⟨rfl, rfl⟩)
    (.single hlegal hstep)⟩

end Xv6.Mkfs
