/-
  What `mkfs` builds.

  An image is looked at as a map from inode numbers to files (`fileAt`: type and content).  In these terms
  `ialloc` adds an empty file and `iappend` appends to one (`Edit`), and the loop over the host files goes from
  `Built m fs` to `Built m' (fs ++ [f])`:

      inode 1        the root directory, with one entry for each file
      inode i + 2    file i
      freeblock      the metadata, and `blocksFor` each of the files (`used`)

  The last step gives the root directory a size in whole blocks.  When its entries fill their blocks to the last
  byte, this leaves a HOLE behind them; it is the only one in the image.
-/
import Xv6.Mkfs.Append

namespace Xv6.Mkfs

open ByteBuf Outcome Fs Ownership Kernel

variable {m : St} {inum : Nat}

/-! ## The files of an image -/

/-- The file with a given inode number, if there is one: its type and its bytes. -/
def fileAt (d : Disk) (n : Nat) : Option (UInt16 × List UInt8) :=
  if (dinodeAt mkfsSb d n).type = 0 then none
  else some ((dinodeAt mkfsSb d n).type, content d (dinodeAt mkfsSb d n))

theorem fileAt_eq_none {d : Disk} {n : Nat} : fileAt d n = none ↔ (dinodeAt mkfsSb d n).type = 0 := by
  unfold fileAt
  split <;> simp_all

theorem fileAt_eq_some {d : Disk} {n : Nat} {t : UInt16} {l : List UInt8} (h : fileAt d n = some (t, l)) :
    (dinodeAt mkfsSb d n).type ≠ 0 ∧ (dinodeAt mkfsSb d n).type = t ∧ content d (dinodeAt mkfsSb d n) = l := by
  unfold fileAt at h
  split at h
  · cases h
  · rename_i hne
    obtain ⟨ht, hl⟩ := Prod.mk.inj (Option.some.inj h)
    exact ⟨hne, ht, hl⟩

theorem fileAt_of_live {d : Disk} {n : Nat} (h : (dinodeAt mkfsSb d n).type ≠ 0) :
    fileAt d n = some ((dinodeAt mkfsSb d n).type, content d (dinodeAt mkfsSb d n)) := if_neg h

theorem length_content (d : Disk) (di : Dinode) : (content d di).length = di.size.toNat := by
  rw [content, List.length_map, List.length_range]

section Found

variable {d d' : Disk} {ino : Nat → Dinode} {n : Nat}

section

variable (hcons : Consistent mkfsSb d ino) (hn : n < mkfsSb.ninodes) (ht : (ino n).type ≠ 0) (hdata : ∀ b, mkfsSb.IsData b → d' b = d b)

include hcons hn ht hdata

/-- Pointers are in inodes and in data blocks. -/
theorem blockOf_congr (bn : Nat) : blockOf d' (ino n) bn = blockOf d (ino n) bn := by
  have hown : ∀ d, own mkfsSb d ino (n, slotOf bn) = blockOf d (ino n) bn := fun d => own_of_live hn ht _
  rw [← hown, ← hown]
  exact hcons.own_eq (fun b hb _ => hdata b hb) _

/-- A byte is found through the pointers, in the data area. -/
theorem fileByte_congr (i : Nat) : fileByte d' (ino n) i = fileByte d (ino n) i := by
  unfold fileByte
  rw [blockOf_congr hcons hn ht hdata]
  split
  · rfl
  · rename_i hne
    have hown : own mkfsSb d ino (n, slotOf (i / BSIZE)) = blockOf d (ino n) (i / BSIZE) := own_of_live hn ht _
    rw [← hown] at hne ⊢
    rw [hdata _ (hcons.excl.inArea _ hne)]

end

/-- The size of a file is not part of the way to its bytes. -/
theorem blockOf_addrs (d : Disk) {di di' : Dinode} (h : di'.addrs = di.addrs) (bn : Nat) :
    blockOf d di' bn = blockOf d di bn := by
  have hind : di'.indirect = di.indirect := congrFun h _
  unfold blockOf
  cases slotOf bn with
  | addr i => exact congrArg UInt32.toNat (congrFun h i)
  | ind j => simp only [ptr, hind]

end Found

/-- One file of the image is now `file`; the others are as they were. -/
structure Edit (m m' : St) (inum : Nat) (file : UInt16 × List UInt8) : Prop where
  sound : Sound (image m')
  fresh : Fresh m'
  head : ∀ b, b < mkfsSb.inodestart → m'.disk b = m.disk b
  files : ∀ n, n < mkfsSb.ninodes → fileAt (image m') n = if n = inum then some file else fileAt (image m) n

/-! ## `winode` -/

/-- The image with an inode written to it. -/
theorem dinodeAt_putInode (hi : inum < mkfsSb.ninodes) (di : Dinode) (n : Nat) :
    dinodeAt mkfsSb (image (putInode m inum di)) n = if n = inum then di else dinodeAt mkfsSb (image m) n := by
  rw [putInode, image_wsect m (iblock_image (m := m) hi).1]
  exact dinodeAt_write (getDinode_putDinode (inodeOff_le _)) (fun j hj => get_putDinode_out hj) n

theorem putInode_data (hi : inum < mkfsSb.ninodes) (di : Dinode) {b : Nat} (hb : mkfsSb.IsData b) :
    image (putInode m inum di) b = image m b := by
  rw [putInode, image_wsect m (iblock_image (m := m) hi).1, updBlk_ne (Ne.symm (hb.ne_iblock hi))]

/-- Writing an inode moves no block. -/
theorem Sound.putInode (h : Sound (image m)) (hi : inum < mkfsSb.ninodes) (di : Dinode) :
    Consistent mkfsSb (image (putInode m inum di)) (dinodeAt mkfsSb (image m)) ∧
      ∀ k, own mkfsSb (image (putInode m inum di)) (dinodeAt mkfsSb (image m)) k =
        own mkfsSb (image m) (dinodeAt mkfsSb (image m)) k := by
  refine ⟨?_, h.cons.own_eq fun b hb _ => putInode_data hi di hb⟩
  rw [Mkfs.putInode, image_wsect m (iblock_image (m := m) hi).1]
  exact h.cons.put_inode hi _

/-- Writing an inode changes no other file. -/
theorem fileAt_putInode (h : Sound (image m)) (hi : inum < mkfsSb.ninodes) (di : Dinode) {n : Nat}
    (hn : n < mkfsSb.ninodes) (hne : n ≠ inum) : fileAt (image (putInode m inum di)) n = fileAt (image m) n := by
  have hsame := dinodeAt_putInode (m := m) hi di n
  rw [if_neg hne] at hsame
  unfold fileAt
  rw [hsame]
  split
  · rfl
  · rename_i ht
    refine congrArg (fun l => some (_, l)) (List.map_congr_left fun i _ => ?_)
    exact fileByte_congr h.cons hn ht (fun b hb => putInode_data hi di hb) i

/-! ## `ialloc` and `iappend` -/

/-- **`ialloc` adds an empty file.** -/
theorem ialloc_spec (h : Sound (image m)) (hf : Fresh m) (hi : m.freeinode < mkfsSb.ninodes)
    (hfree : fileAt (image m) m.freeinode = none) {type : Nat} (ht : UInt16.ofNat type ≠ 0) :
    ∃ m', ialloc m type = some (m.freeinode, m') ∧ m'.freeinode = m.freeinode + 1 ∧ m'.freeblock = m.freeblock ∧
      Edit m m' m.freeinode (UInt16.ofNat type, []) := by
  let di : Dinode := { Dinode.zero with type := UInt16.ofNat type, nlink := 1 }
  let m₁ : St := { m with freeinode := m.freeinode + 1 }
  have hf₁ : Fresh m₁ := ⟨hf.low, hf.high, hf.zero⟩
  rw [fileAt_eq_none] at hfree
  have hinode := dinodeAt_putInode (m := m₁) hi di
  obtain ⟨hcons, hkeep⟩ := Sound.putInode (m := m₁) h hi di
  have hown : ∀ k, own mkfsSb (image (putInode m₁ m.freeinode di)) (dinodeAt mkfsSb (image (putInode m₁ m.freeinode di))) k =
      own mkfsSb (image m) (dinodeAt mkfsSb (image m)) k :=
    fun k => (own_fresh hfree rfl hinode k).trans (hkeep k)
  have hself : dinodeAt mkfsSb (image (putInode m₁ m.freeinode di)) m.freeinode = di := (hinode _).trans (if_pos rfl)
  -- it has neither bytes nor blocks
  have hempty : ∀ sl z, own mkfsSb (image (putInode m₁ m.freeinode di))
      (dinodeAt mkfsSb (image (putInode m₁ m.freeinode di))) (m.freeinode, sl) ≠ 0 ↔
      z < (dinodeAt mkfsSb (image (putInode m₁ m.freeinode di)) m.freeinode).size.toNat := by
    intro sl z
    rw [hown, hself]
    exact iff_of_false (fun hc => hc (if_neg fun hl => hl.2 hfree)) (Nat.not_lt_zero _)
  refine ⟨putInode m₁ m.freeinode di, ?_, rfl, rfl, ?_, hf₁.putInode hi di, (Kept.putInode m₁ m.freeinode di).head,
    fun n hn => ?_⟩
  · unfold ialloc
    dsimp only
    rw [winode_eq hi]
    rfl
  · exact h.of_own hi (hcons.fresh hfree rfl hinode) (fun k _ hne => (hinode k).trans (if_neg hne))
      (fun k _ _ sl => hown _) (by rw [hself]; exact ht) (by rw [hself]; exact Nat.zero_le _) (fun bn _ => hempty _ _)
      (hempty _ _)
  · split
    · rename_i hnn
      rw [hnn, fileAt_of_live (by rw [hself]; exact ht), hself]
      rfl
    · rename_i hne
      exact fileAt_putInode (m := m₁) h hi di hn hne

theorem map_buffer (l : List UInt8) : (List.range l.length).map (buffer l) = l := by
  refine List.ext_getElem (by rw [List.length_map, List.length_range]) fun i h1 h2 => ?_
  rw [List.getElem_map, List.getElem_range, buffer, List.getD_eq_getElem?_getD, List.getElem?_eq_getElem h2, Option.getD_some]

/-- **`iappend` appends to a file.** -/
theorem iappend_file (h : Sound (image m)) (hf : Fresh m) (hi : inum < mkfsSb.ninodes) {t : UInt16}
    {data : List UInt8} (hfile : fileAt (image m) inum = some (t, data)) (l : List UInt8)
    (hmax : data.length + l.length ≤ MAXFILE * BSIZE)
    (hroom : m.freeblock + blocksFor (data.length + l.length) ≤ FSSIZE + blocksFor data.length) :
    ∃ m', iappend m inum (buffer l) l.length = some m' ∧ m'.freeinode = m.freeinode ∧
      m'.freeblock + blocksFor data.length = m.freeblock + blocksFor (data.length + l.length) ∧
      Edit m m' inum (t, data ++ l) := by
  obtain ⟨hlive, htype, hcontent⟩ := fileAt_eq_some hfile
  have hsize : (dinodeAt mkfsSb (image m) inum).size.toNat = data.length := by
    rw [← length_content (image m), hcontent]
  rw [← hsize] at hmax hroom
  obtain ⟨m', happ, ha⟩ := iappend_spec h hf hi hlive (buffer l) hmax hroom
  have hfb := ha.freeblock
  rw [hsize] at hfb
  refine ⟨m', happ, ha.kept.freeinode, hfb, ha.sound, ha.fresh, ha.kept.head, fun n hn => ?_⟩
  split
  · rename_i hnn
    subst hnn
    rw [fileAt_of_live (by rw [ha.type]; exact hlive), ha.type, htype, ha.contents n hn hlive, if_pos rfl, hcontent,
      map_buffer]
  · rename_i hne
    have hsame := ha.others n hn hne
    unfold fileAt
    rw [hsame]
    split
    · rfl
    · rename_i ht
      have hc := ha.contents n hn ht
      rw [if_neg hne, hsame] at hc
      rw [hc]

/-! ## The image of a list of files -/

/-- The name and the bytes of a host file. -/
def HostFile.named (f : HostFile) : Name × List UInt8 := (Name.ofBytes f.fsName, f.bytes)

/-- The entries of the root directory. -/
def entries (fs : List (Name × List UInt8)) : List Dirent :=
  ⟨ROOTINO, dot⟩ :: ⟨ROOTINO, dotdot⟩ :: fs.mapIdx fun i f => ⟨i + 2, f.1⟩

def rootBytes (fs : List (Name × List UInt8)) : List UInt8 := (entries fs).flatMap Dirent.encode

/-- Which file has which inode number. -/
def tree (fs : List (Name × List UInt8)) : Nat → Option (UInt16 × List UInt8)
  | 0 => none
  | 1 => some (UInt16.ofNat T_DIR, rootBytes fs)
  | i + 2 => fs[i]?.map fun f => (UInt16.ofNat T_FILE, f.2)

/-- The blocks of the image that are in use. -/
def used (fs : List (Name × List UInt8)) : Nat :=
  mkfsSb.nmeta + blocksFor (DESIZE * (fs.length + 2)) + (fs.map fun f => blocksFor f.2.length).sum

structure Built (m : St) (fs : List (Name × List UInt8)) : Prop where
  sound : Sound (image m)
  fresh : Fresh m
  super : m.disk 1 = superblock
  freeinode : m.freeinode = fs.length + 2
  freeblock : m.freeblock = used fs
  files : ∀ n, n < mkfsSb.ninodes → fileAt (image m) n = tree fs n

section Lists

variable (fs gs : List (Name × List UInt8)) (f : Name × List UInt8) (name : Name)

theorem entries_snoc : entries (fs ++ [f]) = entries fs ++ [⟨fs.length + 2, f.1⟩] := by
  unfold entries
  rw [List.mapIdx_concat]
  rfl

theorem length_entries : (entries fs).length = fs.length + 2 := by
  simp only [entries, List.length_cons, List.length_mapIdx]

theorem length_flatMap_encode (es : List Dirent) : (es.flatMap Dirent.encode).length = DESIZE * es.length := by
  induction es with
  | nil => rfl
  | cons e es ih =>
    rw [List.flatMap_cons, List.length_append, Dirent.length_encode, ih, List.length_cons, Nat.mul_succ, Nat.add_comm]

theorem length_rootBytes : (rootBytes fs).length = DESIZE * (fs.length + 2) := by
  rw [rootBytes, length_flatMap_encode, length_entries]

theorem rootBytes_snoc : rootBytes (fs ++ [f]) = rootBytes fs ++ Dirent.encode ⟨fs.length + 2, f.1⟩ := by
  unfold rootBytes
  rw [entries_snoc, List.flatMap_append, List.flatMap_singleton]

theorem tree_snoc (n : Nat) : tree (fs ++ [f]) n = if n = fs.length + 2 then some (UInt16.ofNat T_FILE, f.2)
    else if n = ROOTINO then some (UInt16.ofNat T_DIR, rootBytes fs ++ Dirent.encode ⟨fs.length + 2, f.1⟩)
    else tree fs n := by
  match n with
  | 0 => rfl
  | 1 =>
    rw [if_neg (by omega), if_pos rfl]
    show some (_, rootBytes (fs ++ [f])) = _
    rw [rootBytes_snoc]
  | i + 2 =>
    have hroot : ¬ i + 2 = ROOTINO := by
      simp only [ROOTINO]
      omega
    rw [if_neg hroot]
    show (fs ++ [f])[i]?.map _ = _
    rcases Nat.lt_trichotomy i fs.length with h | rfl | h
    · rw [if_neg (by omega), List.getElem?_append_left h]
      rfl
    · rw [if_pos rfl, List.getElem?_concat_length]
      rfl
    · rw [if_neg (by omega), List.getElem?_eq_none (by rw [List.length_append, List.length_singleton]; omega)]
      show none = fs[i]?.map _
      rw [List.getElem?_eq_none (by omega)]
      rfl

theorem tree_free : tree fs (fs.length + 2) = none := by
  show fs[fs.length]?.map _ = none
  rw [List.getElem?_eq_none (Nat.le_refl _)]
  rfl

/-- The blocks for the entry, and for the bytes. -/
theorem used_snoc (data : List UInt8) : used (fs ++ [(name, data)]) + blocksFor (DESIZE * (fs.length + 2)) =
    used fs + blocksFor (DESIZE * (fs.length + 3)) + blocksFor data.length := by
  have hlen : (fs ++ [(name, data)]).length + 2 = fs.length + 3 := by
    rw [List.length_append, List.length_singleton]
  unfold used
  rw [hlen, List.map_append, List.sum_append, List.map_singleton, List.sum_singleton]
  dsimp only
  omega

theorem used_mono : used fs ≤ used (fs ++ gs) := by
  unfold used
  rw [List.map_append, List.sum_append, List.length_append]
  have := blocksFor_mono (show DESIZE * (fs.length + 2) ≤ DESIZE * (fs.length + gs.length + 2) by
    simp only [DESIZE]
    omega)
  omega

end Lists

/-! ## The loop over the files -/

variable {fs : List (Name × List UInt8)} {name : Name}

theorem blocksFor_zero : blocksFor 0 = 0 := by decide

/-- One `read` and its `iappend`. -/
theorem Built.append {data : List UInt8} (h : Built m (fs ++ [(name, data)])) (hinodes : fs.length + 3 ≤ mkfsSb.ninodes)
    (c : List UInt8) (hmax : (data ++ c).length ≤ MAXFILE * BSIZE) (hroom : used (fs ++ [(name, data ++ c)]) ≤ FSSIZE) :
    ∃ m', iappend m (fs.length + 2) (buffer c) c.length = some m' ∧ Built m' (fs ++ [(name, data ++ c)]) := by
  have hfile : fileAt (image m) (fs.length + 2) = some (UInt16.ofNat T_FILE, data) := by
    rw [h.files _ (by omega), tree_snoc, if_pos rfl]
  have hused := used_snoc fs name data
  have hused' := used_snoc fs name (data ++ c)
  have hfb := h.freeblock
  simp only [List.length_append] at hmax hused'
  obtain ⟨m', happ, hfi, hfb', hedit⟩ := iappend_file h.sound h.fresh (by omega) hfile c hmax (by omega)
  refine ⟨m', happ, hedit.sound, hedit.fresh, ?_, ?_, by omega, fun n hn => ?_⟩
  · rw [hedit.head 1 (by decide), h.super]
  · rw [hfi, h.freeinode]
    simp only [List.length_append, List.length_singleton]
  · rw [hedit.files n hn, h.files n hn, tree_snoc, tree_snoc]
    split <;> rfl

/-- All the reads of one file. -/
theorem Built.reads (hinodes : fs.length + 3 ≤ mkfsSb.ninodes) : ∀ (cs : List (List UInt8)) {m : St} {data : List UInt8},
    Built m (fs ++ [(name, data)]) → (data ++ cs.flatten).length ≤ MAXFILE * BSIZE →
    used (fs ++ [(name, data ++ cs.flatten)]) ≤ FSSIZE →
    ∃ m', cs.foldlM (fun st c => iappend st (fs.length + 2) (buffer c) c.length) m = some m' ∧
      Built m' (fs ++ [(name, data ++ cs.flatten)])
  | [], m, data, h, _, _ => by
    refine ⟨m, rfl, ?_⟩
    rw [List.flatten_nil, List.append_nil]
    exact h
  | c :: cs, m, data, h, hmax, hroom => by
    rw [List.flatten_cons, ← List.append_assoc] at hmax hroom
    -- the room for all of the file is room for a part of it
    have hpart : blocksFor (data ++ c).length ≤ blocksFor (data ++ c ++ cs.flatten).length :=
      blocksFor_mono (List.sublist_append_left _ _).length_le
    have hused := used_snoc fs name (data ++ c)
    have hused' := used_snoc fs name (data ++ c ++ cs.flatten)
    obtain ⟨m₁, happ, h₁⟩ := h.append hinodes c (by rw [List.length_append] at hmax; omega) (by omega)
    obtain ⟨m', hfold, h'⟩ := Built.reads hinodes cs h₁ hmax hroom
    refine ⟨m', ?_, ?_⟩
    · rw [List.foldlM_cons, happ]
      exact hfold
    · rw [List.flatten_cons, ← List.append_assoc]
      exact h'

/-- The inode of a new file; the root directory is as it was. -/
theorem Built.ialloc (h : Built m fs) (hinodes : fs.length + 3 ≤ mkfsSb.ninodes) :
    ∃ m₁, Mkfs.ialloc m T_FILE = some (fs.length + 2, m₁) ∧ m₁.freeinode = fs.length + 3 ∧ m₁.freeblock = used fs ∧
      Edit m m₁ (fs.length + 2) (UInt16.ofNat T_FILE, []) ∧
      fileAt (image m₁) ROOTINO = some (UInt16.ofNat T_DIR, rootBytes fs) := by
  have hfree : fileAt (image m) m.freeinode = none := by
    rw [h.freeinode, h.files _ (by omega), tree_free]
  obtain ⟨m₁, halloc, hfi, hfb, hedit⟩ := ialloc_spec h.sound h.fresh (by rw [h.freeinode]; omega) hfree
    (show UInt16.ofNat T_FILE ≠ 0 by decide)
  rw [h.freeinode] at halloc hedit hfi
  refine ⟨m₁, halloc, hfi, hfb.trans h.freeblock, hedit, ?_⟩
  have hne : ¬ ROOTINO = fs.length + 2 := by
    simp only [ROOTINO]
    omega
  rw [hedit.files _ (by decide), if_neg hne, h.files _ (by decide)]
  rfl

/-- The inode and the directory entry of a new file. -/
theorem Built.addEntry (h : Built m fs) (name : Name) (hinodes : fs.length + 3 ≤ mkfsSb.ninodes)
    (hroom : used (fs ++ [(name, [])]) ≤ FSSIZE) :
    ∃ m₁ m', Mkfs.ialloc m T_FILE = some (fs.length + 2, m₁) ∧ addEntry m₁ ROOTINO ⟨fs.length + 2, name⟩ = some m' ∧
      Built m' (fs ++ [(name, [])]) := by
  obtain ⟨m₁, halloc, hfi₁, hfb₁, hedit₁, hfile⟩ := h.ialloc hinodes
  have hused := used_snoc fs name []
  rw [List.length_nil, blocksFor_zero] at hused
  have hlen := length_rootBytes fs
  have hlen' := Dirent.length_encode ⟨fs.length + 2, name⟩
  obtain ⟨m', happ, hfi, hfb', hedit⟩ := iappend_file hedit₁.sound hedit₁.fresh (by decide) hfile
    (Dirent.encode ⟨fs.length + 2, name⟩)
    (by
      rw [hlen, hlen']
      have hmax : mkfsSb.ninodes = 200 := rfl
      simp only [MAXFILE, NDIRECT, NINDIRECT, BSIZE, DESIZE]
      omega)
    (by
      rw [hlen, hlen', show DESIZE * (fs.length + 2) + DESIZE = DESIZE * (fs.length + 3) from rfl]
      omega)
  rw [hlen'] at happ
  rw [hlen, hlen', show DESIZE * (fs.length + 2) + DESIZE = DESIZE * (fs.length + 3) from rfl] at hfb'
  refine ⟨m₁, m', halloc, happ, hedit.sound, hedit.fresh, ?_, ?_, by omega, fun n hn => ?_⟩
  · rw [hedit.head 1 (by decide), hedit₁.head 1 (by decide), h.super]
  · rw [hfi, hfi₁, List.length_append, List.length_singleton]
  · rw [hedit.files n hn, hedit₁.files n hn, h.files n hn, tree_snoc]
    by_cases hroot : n = ROOTINO
    · rw [if_pos hroot, if_neg (by simp only [ROOTINO] at hroot; omega), if_pos hroot]
    · rw [if_neg hroot, if_neg hroot]

/-- **One file.** -/
theorem addFile_spec (h : Built m fs) (f : HostFile) (hslash : slash ∉ f.name)
    (hinodes : fs.length + 3 ≤ mkfsSb.ninodes) (hmax : f.bytes.length ≤ MAXFILE * BSIZE)
    (hroom : used (fs ++ [f.named]) ≤ FSSIZE) : ∃ m', addFile m f = some m' ∧ Built m' (fs ++ [f.named]) := by
  have hused := used_snoc fs (Name.ofBytes f.fsName) []
  have hused' : used (fs ++ [f.named]) + _ = used fs + _ + blocksFor f.bytes.length := used_snoc fs _ _
  rw [List.length_nil, blocksFor_zero] at hused
  obtain ⟨m₁, m₂, halloc, hentry, h₂⟩ := h.addEntry (Name.ofBytes f.fsName) hinodes (by omega)
  obtain ⟨m', hreads, h'⟩ := h₂.reads hinodes f.reads hmax hroom
  refine ⟨m', ?_, h'⟩
  unfold addFile
  rw [if_neg hslash, halloc]
  simp only [Option.bind_eq_bind, Option.bind_some]
  rw [hentry]
  exact hreads

/-- **All files.** -/
theorem addFiles_spec : ∀ (files : List HostFile) {m : St} {fs : List (Name × List UInt8)}, Built m fs →
    (∀ f ∈ files, slash ∉ f.name) → (∀ f ∈ files, f.bytes.length ≤ MAXFILE * BSIZE) →
    fs.length + files.length + 2 ≤ mkfsSb.ninodes → used (fs ++ files.map HostFile.named) ≤ FSSIZE →
    ∃ m', files.foldlM addFile m = some m' ∧ Built m' (fs ++ files.map HostFile.named)
  | [], m, fs, h, _, _, _, _ => by
    refine ⟨m, rfl, ?_⟩
    rw [List.map_nil, List.append_nil]
    exact h
  | f :: files, m, fs, h, hslash, hmax, hinodes, hroom => by
    rw [List.map_cons, List.append_cons] at hroom ⊢
    rw [List.length_cons] at hinodes
    have hpart := used_mono (fs ++ [f.named]) (files.map HostFile.named)
    obtain ⟨m₁, hadd, h₁⟩ := addFile_spec h f (hslash f List.mem_cons_self) (by omega)
      (hmax f List.mem_cons_self) (by omega)
    obtain ⟨m', hfold, h'⟩ := addFiles_spec files h₁ (fun g hg => hslash g (List.mem_cons_of_mem _ hg))
      (fun g hg => hmax g (List.mem_cons_of_mem _ hg))
      (by rw [List.length_append, List.length_singleton]; omega) hroom
    refine ⟨m', ?_, h'⟩
    rw [List.foldlM_cons, hadd]
    exact hfold

/-! ## The root directory -/

theorem image_start {b : Nat} (h1 : b ≠ 1) (hb : b ≠ mkfsSb.bmapstart) : image start b = zeroBlock := by
  rw [image, updBlk_ne hb]
  exact updBlk_ne h1

theorem fresh_start : Fresh start where
  low := Nat.le_refl _
  high := by decide
  zero := fun b hb _ => updBlk_ne (by
    have : 1 < mkfsSb.nmeta := by decide
    have hlow : mkfsSb.nmeta ≤ b := hb
    omega)

theorem dinodeAt_start {n : Nat} (hn : n < mkfsSb.ninodes) : dinodeAt mkfsSb (image start) n = Dinode.zero := by
  have hlow : mkfsSb.inodestart ≤ mkfsSb.iblock n := Nat.le_add_left _ _
  have h1 : mkfsSb.iblock n ≠ 1 := by
    have : mkfsSb.inodestart = 32 := rfl
    omega
  rw [dinodeAt, image_start h1 (Nat.ne_of_lt (mkfsSb.iblock_lt hn)), getDinode_zeroBlock]

/-- The empty image: no inode, no block in use but the metadata. -/
theorem sound_start : Sound (image start) := by
  have hfree : ∀ n, n < mkfsSb.ninodes → ¬ (dinodeAt mkfsSb (image start) n).type ≠ 0 := by
    intro n hn ht
    rw [dinodeAt_start hn] at ht
    exact ht rfl
  have hown : ∀ k, own mkfsSb (image start) (dinodeAt mkfsSb (image start)) k = 0 :=
    fun k => if_neg fun hc => hfree _ hc.1 hc.2
  have hbit : ∀ b, b < FSSIZE → bit mkfsSb (image start) b = decide (b < mkfsSb.nmeta) := fun b hb => bit_image fresh_start hb
  refine ⟨⟨⟨fun k hk => absurd (hown k) hk, fun k l hk => absurd (hown k) hk, fun b hb => ?_, fun h => h.pos rfl⟩,
    fun b hb => ?_⟩, fun n hn ht => absurd ht (hfree n hn), fun n hn ht => absurd ht (hfree n hn),
    fun n hn ht => absurd ht (hfree n hn)⟩
  · rw [hbit b hb.2]
    refine iff_of_false (fun hc => ?_) fun ⟨k, hk⟩ => ?_
    · exact absurd (of_decide_eq_true hc) (Nat.not_lt.mpr hb.1)
    · rw [hown] at hk
      exact hb.pos hk.symm
  · have hlt : mkfsSb.nmeta ≤ FSSIZE := by decide
    rw [hbit b (by omega)]
    exact decide_eq_true hb

/-- **The root directory**, and nothing else. -/
theorem makeRoot_spec : ∃ m, makeRoot start = some m ∧ Built m [] := by
  have hnone : ∀ n, n < mkfsSb.ninodes → fileAt (image start) n = none := by
    intro n hn
    rw [fileAt_eq_none, dinodeAt_start hn]
    rfl
  obtain ⟨m₀, halloc, hfi₀, hfb₀, hedit₀⟩ := ialloc_spec sound_start fresh_start (by decide) (hnone 1 (by decide))
    (show UInt16.ofNat T_DIR ≠ 0 by decide)
  have hlen : ∀ nm, (Dirent.encode ⟨ROOTINO, nm⟩).length = DESIZE := fun nm => Dirent.length_encode _
  have hfb₀' : m₀.freeblock = mkfsSb.nmeta := hfb₀
  obtain ⟨m₁, happ₁, hfi₁, hfb₁, hedit₁⟩ := iappend_file hedit₀.sound hedit₀.fresh (show ROOTINO < mkfsSb.ninodes by decide)
    ((hedit₀.files _ (by decide)).trans (if_pos rfl)) (Dirent.encode ⟨ROOTINO, dot⟩)
    (by rw [hlen]; decide) (by rw [hlen, hfb₀']; decide)
  rw [hlen, hfb₀'] at hfb₁
  have hfb₁' : m₁.freeblock = 60 := hfb₁
  obtain ⟨m₂, happ₂, hfi₂, hfb₂, hedit₂⟩ := iappend_file hedit₁.sound hedit₁.fresh (show ROOTINO < mkfsSb.ninodes by decide)
    ((hedit₁.files _ (by decide)).trans (if_pos rfl)) (Dirent.encode ⟨ROOTINO, dotdot⟩)
    (by rw [List.length_append, hlen, hlen]; decide) (by rw [List.length_append, hlen, hlen, hfb₁']; decide)
  rw [List.length_append, hlen, hlen, hfb₁'] at hfb₂
  have hfb₂' : m₂.freeblock + 1 = used [] + 1 := hfb₂
  rw [hlen] at happ₁ happ₂
  replace halloc : ialloc start T_DIR = some (ROOTINO, m₀) := halloc
  refine ⟨m₂, ?_, hedit₂.sound, hedit₂.fresh, ?_, by rw [hfi₂, hfi₁, hfi₀]; rfl, Nat.succ.inj hfb₂', fun n hn => ?_⟩
  · unfold makeRoot
    rw [halloc]
    simp only [Option.bind_eq_bind, Option.bind_some]
    rw [if_neg (fun hc => hc rfl)]
    show (iappend m₀ ROOTINO _ _).bind _ = _
    rw [happ₁, Option.bind_some]
    exact happ₂
  · rw [hedit₂.head 1 (by decide), hedit₁.head 1 (by decide), hedit₀.head 1 (by decide)]
    exact updBlk_same (fun _ => zeroBlock) 1 superblock
  · rw [hedit₂.files n hn]
    split
    · rename_i hroot
      rw [hroot]
      rfl
    · rename_i hroot
      rw [hedit₁.files n hn, if_neg hroot, hedit₀.files n hn, if_neg (show ¬ n = start.freeinode from hroot), hnone n hn]
      match n with
      | 0 => rfl
      | 1 => exact absurd rfl hroot
      | i + 2 => rfl

/-! ## The finished image -/

/-- What `mkfs` leaves on the disk: the files `fs`, and a root directory that may be longer than its entries. -/
structure Finished (d : Disk) (fs : List (Name × List UInt8)) : Prop where
  cons : Consistent mkfsSb d (dinodeAt mkfsSb d)
  super : d 1 = superblock
  bits : ∀ b, b < FSSIZE → bit mkfsSb d b = decide (b < used fs)
  files : ∀ i (h : i < fs.length), fileAt d (i + 2) = some (UInt16.ofNat T_FILE, fs[i].2) ∧
    HoleFree d (dinodeAt mkfsSb d (i + 2))
  rootType : (dinodeAt mkfsSb d ROOTINO).type = UInt16.ofNat T_DIR
  rootSize : (dinodeAt mkfsSb d ROOTINO).size.toNat = (DESIZE * (fs.length + 2) / BSIZE + 1) * BSIZE
  rootBlock : ∀ bn, bn * BSIZE < DESIZE * (fs.length + 2) → blockOf d (dinodeAt mkfsSb d ROOTINO) bn ≠ 0
  rootByte : ∀ i (h : i < (rootBytes fs).length), fileByte d (dinodeAt mkfsSb d ROOTINO) i = (rootBytes fs)[i]

/-- The root directory, with the size that `main` gives it in the end. -/
def fixed (m : St) (fs : List (Name × List UInt8)) : Dinode :=
  { dinodeAt mkfsSb (image m) ROOTINO with size := UInt32.ofNat ((DESIZE * (fs.length + 2) / BSIZE + 1) * BSIZE) }

theorem Built.root (h : Built m fs) : (dinodeAt mkfsSb (image m) ROOTINO).type ≠ 0 ∧
    (dinodeAt mkfsSb (image m) ROOTINO).type = UInt16.ofNat T_DIR ∧
    content (image m) (dinodeAt mkfsSb (image m) ROOTINO) = rootBytes fs ∧
    (dinodeAt mkfsSb (image m) ROOTINO).size.toNat = DESIZE * (fs.length + 2) := by
  obtain ⟨hlive, htype, hcontent⟩ := fileAt_eq_some ((h.files ROOTINO (by decide)).trans rfl)
  refine ⟨hlive, htype, hcontent, ?_⟩
  rw [← length_content (image m), hcontent, length_rootBytes]

theorem finish_eq (h : Built m fs) : finish m =
    some (wsect (putInode m ROOTINO (fixed m fs)) mkfsSb.bmapstart (bitmap m.freeblock)) := by
  have hroot : ROOTINO < mkfsSb.ninodes := by decide
  have hused : m.freeblock < BPB := Nat.lt_of_le_of_lt h.fresh.high (by decide)
  unfold finish
  rw [rinode_eq hroot]
  simp only [Option.bind_eq_bind, Option.bind_some]
  rw [h.root.2.2.2, winode_eq hroot, Option.bind_some]
  exact if_pos hused

/-- **The last step.** -/
theorem finish_spec (h : Built m fs) (hinodes : fs.length + 2 ≤ mkfsSb.ninodes) :
    ∃ m', finish m = some m' ∧ Finished m'.disk fs := by
  have hroot : ROOTINO < mkfsSb.ninodes := by decide
  obtain ⟨hlive, htype, hcontent, hsize⟩ := h.root
  have hfinish := finish_eq h
  generalize hdi : fixed m fs = di at hfinish
  rw [fixed] at hdi
  have hinode := dinodeAt_putInode (m := m) hroot di
  have hself : dinodeAt mkfsSb (image (putInode m ROOTINO di)) ROOTINO = di := (hinode _).trans (if_pos rfl)
  have haddrs : di.addrs = (dinodeAt mkfsSb (image m) ROOTINO).addrs := by rw [← hdi]
  have hdata := fun b (hb : mkfsSb.IsData b) => putInode_data (m := m) hroot di hb
  have hblock : ∀ bn, blockOf (image (putInode m ROOTINO di)) di bn =
      blockOf (image m) (dinodeAt mkfsSb (image m) ROOTINO) bn :=
    fun bn => (blockOf_addrs _ haddrs bn).trans (blockOf_congr h.sound.cons hroot hlive hdata bn)
  have hbyte : ∀ i, fileByte (image (putInode m ROOTINO di)) di i =
      fileByte (image m) (dinodeAt mkfsSb (image m) ROOTINO) i := by
    intro i
    rw [← fileByte_congr h.sound.cons hroot hlive hdata]
    unfold fileByte
    rw [blockOf_addrs _ haddrs]
  have hother : ∀ i, i < fs.length → dinodeAt mkfsSb (image (putInode m ROOTINO di)) (i + 2) =
      dinodeAt mkfsSb (image m) (i + 2) := fun i _ => (hinode _).trans (if_neg (by simp only [ROOTINO]; omega))
  refine ⟨_, hfinish, ?_⟩
  show Finished (image (putInode m ROOTINO di)) fs
  refine ⟨?_, ?_, fun b hb => ?_, fun i hi => ⟨?_, ?_⟩, ?_, ?_, fun bn hbn => ?_, fun i hi => ?_⟩
  · have hcons := (h.sound.putInode hroot di).1
    refine ⟨hcons.excl.congr (own_congr_table fun n _ => ?_) fun _ _ => Iff.rfl, hcons.metadata⟩
    rw [hinode]
    split
    · rename_i hn
      rw [hn, haddrs, ← hdi]
      exact ⟨rfl, rfl⟩
    · exact ⟨rfl, rfl⟩
  · show updBlk (putInode m ROOTINO di).disk _ _ 1 = _
    rw [updBlk_ne (by decide), (Kept.putInode m ROOTINO di).head 1 (by decide), h.super]
  · rw [bit_image (h.fresh.putInode hroot di) hb, ← h.freeblock]
    rfl
  · rw [fileAt_putInode h.sound hroot di (by omega) (by simp only [ROOTINO]; omega), h.files _ (by omega)]
    show fs[i]?.map _ = _
    rw [List.getElem?_eq_getElem hi]
    rfl
  · have hfile := fileAt_eq_some ((h.files (i + 2) (by omega)).trans (show fs[i]?.map _ = some (_, fs[i].2) by
      rw [List.getElem?_eq_getElem hi]
      rfl))
    rw [hother i hi]
    have hholes := h.sound.holes (show i + 2 < mkfsSb.ninodes by omega) hfile.1
    refine ⟨hholes.size_le, fun bn hbn => ?_⟩
    rw [blockOf_congr h.sound.cons (show i + 2 < mkfsSb.ninodes by omega) hfile.1 hdata]
    exact hholes.mapped bn hbn
  · rw [hself, ← hdi]
    exact htype
  · rw [hself, ← hdi]
    refine UInt32.toNat_ofNat_of_lt' ?_
    have hmax : mkfsSb.ninodes = 200 := rfl
    show _ < 2 ^ 32
    simp only [BSIZE, DESIZE]
    omega
  · rw [hself, hblock]
    exact (h.sound.holes hroot hlive).mapped bn (by rw [hsize]; exact hbn)
  · rw [hself, hbyte]
    simp only [← hcontent, content, List.getElem_map, List.getElem_range]

/-- A slash in a name ends the program. -/
theorem addFile_slash : ∀ (files : List HostFile) (m : St), (∃ f ∈ files, slash ∈ f.name) →
    files.foldlM addFile m = none
  | [], _, h => by
    obtain ⟨f, hf, -⟩ := h
    cases hf
  | f :: files, m, h => by
    rw [List.foldlM_cons]
    cases hadd : addFile m f with
    | none => rfl
    | some m₁ =>
      refine addFile_slash files m₁ ?_
      obtain ⟨g, hg, hslash⟩ := h
      rcases List.mem_cons.mp hg with rfl | hg
      · unfold addFile at hadd
        rw [if_pos hslash] at hadd
        cases hadd
      · exact ⟨g, hg, hslash⟩

/-- **`mkfs`**, if everything fits: it fails on a slash in a name and on nothing else. -/
theorem mkfs_spec {files : List HostFile} (hmax : ∀ f ∈ files, f.bytes.length ≤ MAXFILE * BSIZE)
    (hinodes : files.length + 2 ≤ mkfsSb.ninodes) (hblocks : used (files.map HostFile.named) ≤ FSSIZE) :
    if ∃ f ∈ files, slash ∈ f.name then mkfs files = none
    else ∃ d, mkfs files = some d ∧ Finished d (files.map HostFile.named) := by
  obtain ⟨m, hmake, h⟩ := makeRoot_spec
  unfold mkfs build
  rw [hmake]
  simp only [Option.bind_eq_bind, Option.bind_some]
  split
  · rename_i hslash
    rw [addFile_slash files m hslash]
    rfl
  · rename_i hslash
    have hno : ∀ f ∈ files, slash ∉ f.name := fun f hf hs => hslash ⟨f, hf, hs⟩
    obtain ⟨m₁, hfold, h₁⟩ := addFiles_spec files h hno hmax (by rw [List.length_nil]; omega) hblocks
    rw [List.nil_append] at h₁
    obtain ⟨m₂, hfinish, h₂⟩ := finish_spec h₁ (by rw [List.length_map]; exact hinodes)
    refine ⟨m₂.disk, ?_, h₂⟩
    rw [hfold, Option.bind_some, hfinish]
    rfl

end Xv6.Mkfs
