/-
  `mkfs` writes what the kernel reads.

  Two programs with one disk between them: `mkfs` on the host (`Mkfs.Program`), and `dirlookup`, `ilock` and `readi`
  of the kernel (`Fs.Dir`, `Fs.Inode`).  Of the image only `Finished` is used here.

  1. reading entry `k` of the root directory gives entry `k` of the list (`Finished.readEntry`);
  2. the first entry with a file's name is the file's own, since the names differ (`Finished.lookup`);
  3. its inode leads to the bytes of the host file (`Finished.readFile`).
-/
import Xv6.Fs.Dir
import Xv6.Mkfs.Build

namespace Xv6.Mkfs

open ByteBuf Outcome Fs Ownership Kernel

variable {d : Disk} {fs : List (Name × List UInt8)} {s : Fs.St} {ip : Fin NINODE} {devsw : Nat → Devsw}

/-- Entry `ip` of the inode cache holds inode `n` of the disk. -/
structure Loaded (s : Fs.St) (ip : Fin NINODE) (n : Nat) : Prop where
  inum : (s.icache ip).inum = n
  di : (s.icache ip).di = dinodeAt mkfsSb s.disk n

theorem Finished.working (h : Finished s.disk fs) {n : Nat} (hl : Loaded s ip n) (hn : n < mkfsSb.ninodes)
    (ht : (dinodeAt mkfsSb s.disk n).type ≠ 0) : Working mkfsSb s ip := by
  have htable : s.table mkfsSb ip = dinodeAt mkfsSb s.disk := by
    funext k
    unfold St.table
    split
    · rename_i hk
      rw [hk, hl.di, hl.inum]
    · rfl
  refine ⟨by rw [hl.inum]; exact hn, by rw [hl.di]; exact ht, ?_⟩
  rw [htable]
  exact h.cons

/-! ## The root directory -/

/-- Entry `k` of a list of entries, in its bytes. -/
theorem slice_flatMap_encode : ∀ (es : List Dirent) (k : Nat) (hk : k < es.length),
    ((es.flatMap Dirent.encode).drop (DESIZE * k)).take DESIZE = es[k].encode
  | e :: es, 0, _ => by
    rw [Nat.mul_zero, List.drop_zero, List.flatMap_cons, List.take_append_of_le_length (by rw [Dirent.length_encode]),
      List.take_of_length_le (by rw [Dirent.length_encode])]
    rfl
  | e :: es, k + 1, hk => by
    rw [List.flatMap_cons, Nat.mul_succ, Nat.add_comm, ← List.drop_drop, ← e.length_encode, List.drop_left,
      e.length_encode]
    exact slice_flatMap_encode es k (Nat.lt_of_succ_lt_succ hk)

theorem Finished.rootContent (h : Finished d fs) :
    (content d (dinodeAt mkfsSb d ROOTINO)).take (rootBytes fs).length = rootBytes fs := by
  have hlen := length_rootBytes fs
  have hsize := h.rootSize
  have hle : (rootBytes fs).length ≤ (content d (dinodeAt mkfsSb d ROOTINO)).length := by
    rw [length_content, hsize, hlen]
    simp only [BSIZE, DESIZE]
    omega
  refine List.ext_getElem (by rw [List.length_take, Nat.min_eq_left hle]) fun i h1 h2 => ?_
  rw [List.getElem_take, ← h.rootByte i h2]
  simp only [content, List.getElem_map, List.getElem_range]

variable {k : Nat}

/-- **Reading an entry** of the root directory. -/
theorem Finished.readEntry (h : Finished s.disk fs) (hinodes : fs.length + 2 ≤ mkfsSb.ninodes)
    (hl : Loaded s ip ROOTINO) (hk : k < (entries fs).length) :
    readi mkfsSb devsw ip (UInt32.ofNat (DESIZE * k)) (UInt32.ofNat DESIZE) s =
      .ok ((DESIZE, ((entries fs)[k]).encode), s) := by
  have hcount : mkfsSb.ninodes = 200 := rfl
  have hlen := length_entries fs
  have hsize := h.rootSize
  have hlive : (dinodeAt mkfsSb s.disk ROOTINO).type ≠ 0 := by
    rw [h.rootType]
    decide
  have hoff : (UInt32.ofNat (DESIZE * k)).toNat = DESIZE * k := by
    refine UInt32.toNat_ofNat_of_lt' ?_
    show _ < 2 ^ 32
    simp only [DESIZE]
    omega
  have hn : (UInt32.ofNat DESIZE).toNat = DESIZE := rfl
  have hmapped : ∀ bn ∈ touched (UInt32.ofNat (DESIZE * k)).toNat (min (UInt32.ofNat DESIZE).toNat
      ((s.icache ip).di.size.toNat - (UInt32.ofNat (DESIZE * k)).toNat)),
      s.own mkfsSb ip (s.key ip (slotOf bn)) ≠ 0 := by
    intro bn hbn
    obtain ⟨-, -, hlt⟩ := mem_touched.mp hbn
    rw [(h.working hl (by decide) hlive).own_key, hl.di]
    refine h.rootBlock bn ?_
    rw [hoff, hn] at hlt
    simp only [BSIZE, DESIZE] at *
    omega
  have hread : readi mkfsSb devsw ip _ _ s = _ := readi_mapped (h.working hl (by decide) hlive)
    (by rw [hl.di, hsize]; simp only [MAXFILE, NDIRECT, NINDIRECT, BSIZE, DESIZE]; omega)
    (by rw [hl.di, h.rootType]; decide) _ _ hmapped
  have hfits : ¬ ((s.icache ip).di.size < UInt32.ofNat (DESIZE * k) ∨
      UInt32.ofNat (DESIZE * k) + UInt32.ofNat DESIZE < UInt32.ofNat (DESIZE * k)) := by
    rw [not_or, UInt32.lt_iff_toNat_lt, UInt32.lt_iff_toNat_lt, UInt32.toNat_add, hoff, hn, hl.di, hsize]
    simp only [BSIZE, DESIZE]
    omega
  have hbytes : ((content s.disk (s.icache ip).di).drop (UInt32.ofNat (DESIZE * k)).toNat).take (UInt32.ofNat DESIZE).toNat =
      ((entries fs)[k]).encode := by
    have hcut : min DESIZE (DESIZE * (fs.length + 2) - DESIZE * k) = DESIZE := by
      simp only [DESIZE]
      omega
    rw [hl.di, hoff, hn, ← slice_flatMap_encode (entries fs) k hk]
    show _ = ((rootBytes fs).drop _).take _
    rw [← h.rootContent, List.drop_take, List.take_take, length_rootBytes, hcut]
  rw [hread, if_neg hfits]
  dsimp only
  rw [hbytes, Dirent.length_encode]

/-! ## The names -/

variable {i : Nat}

/-- The entry of file `i`. -/
theorem entries_file (hi : i < fs.length) (h : i + 2 < (entries fs).length) :
    (entries fs)[i + 2] = ⟨i + 2, fs[i].1⟩ := by
  simp only [entries, List.getElem_cons_succ, List.getElem_mapIdx]

/-- Every entry is in use. -/
theorem entries_inum (hinodes : fs.length + 2 ≤ mkfsSb.ninodes) (hk : k < (entries fs).length) :
    (entries fs)[k].inum ≠ 0 ∧ (entries fs)[k].inum < 2 ^ 16 := by
  have hcount : mkfsSb.ninodes = 200 := rfl
  have hlen := length_entries fs
  match k with
  | 0 => exact (⟨by decide, by decide⟩ : ROOTINO ≠ 0 ∧ ROOTINO < 2 ^ 16)
  | 1 => exact (⟨by decide, by decide⟩ : ROOTINO ≠ 0 ∧ ROOTINO < 2 ^ 16)
  | i + 2 =>
    rw [entries_file (by omega)]
    have hlt : i + 2 < 2 ^ 16 := by omega
    exact ⟨Nat.succ_ne_zero _, hlt⟩

/-- No entry before that of file `i` has its name. -/
theorem entries_first (hnames : (fs.map Prod.fst).Nodup) (hdots : ∀ f ∈ fs, f.1 ≠ dot ∧ f.1 ≠ dotdot)
    (hi : i < fs.length) (hki : k < i + 2) (hk : k < (entries fs).length) : (entries fs)[k].name ≠ fs[i].1 := by
  obtain ⟨hdot, hdotdot⟩ := hdots fs[i] (List.getElem_mem hi)
  match k with
  | 0 => exact fun e => hdot e.symm
  | 1 => exact fun e => hdotdot e.symm
  | j + 2 =>
    rw [entries_file (by omega)]
    intro e
    have hne : j ≠ i := by omega
    have hj : j < (fs.map Prod.fst).length := by
      rw [List.length_map]
      omega
    have hi' : i < (fs.map Prod.fst).length := by
      rw [List.length_map]
      exact hi
    have hsame : (fs.map Prod.fst)[j] = (fs.map Prod.fst)[i] := by
      rw [List.getElem_map, List.getElem_map]
      exact e
    exact hne (hnames.getElem_inj_iff.mp hsame)

/-- **Looking a file up** in the root directory. -/
theorem Finished.lookup (h : Finished s.disk fs) (hinodes : fs.length + 2 ≤ mkfsSb.ninodes)
    (hnames : (fs.map Prod.fst).Nodup) (hdots : ∀ f ∈ fs, f.1 ≠ dot ∧ f.1 ≠ dotdot) (hsync : Synced mkfsSb s)
    (hl : Loaded s ip ROOTINO) (hi : i < fs.length) : Meets (dirlookup mkfsSb devsw ip fs[i].1 s)
      (fun r t => ∃ jp, r = some (jp, DESIZE * (i + 2)) ∧ 0 < (t.icache jp).ref ∧ (t.icache jp).inum = i + 2 ∧
        t.disk = s.disk ∧ Synced mkfsSb t)
      (fun e => e = .fs .igetNoInodes ∧ ∀ jp, (s.icache jp).ref ≠ 0) := by
  have hlen := length_entries fs
  have hentry : ∀ k (hk : k < (entries fs).length), (entries fs).getD k ⟨0, dot⟩ = (entries fs)[k] := by
    intro k hk
    rw [List.getD_eq_getElem?_getD, List.getElem?_eq_getElem hk, Option.getD_some]
  have hself : (entries fs).getD (i + 2) ⟨0, dot⟩ = ⟨i + 2, fs[i].1⟩ := by
    rw [hentry (i + 2) (by omega), entries_file hi]
  have hfound : dirlookup mkfsSb devsw ip fs[i].1 s = _ := dirlookup_found (fun k => (entries fs).getD k ⟨0, dot⟩)
    (j := i + 2) (by rw [hl.di, h.rootType])
    (by
      rw [hl.di, h.rootSize]
      simp only [BSIZE, DESIZE]
      omega)
    (fun k hk => by
      rw [hentry k (by omega)]
      exact h.readEntry hinodes hl (by omega))
    (fun k hk => by
      rw [hentry k (by omega)]
      exact entries_inum hinodes (by omega))
    (fun k hk => by
      rw [hentry k (by omega)]
      exact entries_first hnames hdots hi hk (by omega))
    (by rw [hself])
  rw [hfound, hself]
  refine (meets_lift (iget_found hsync _ _)).bind (fun jp t ht => ?_) fun e he => ?_
  · obtain ⟨-, hinum, hr, hdisk, hsync'⟩ := ht
    exact ⟨jp, rfl, hr, hinum, hdisk, hsync'⟩
  · obtain ⟨e', rfl, rfl, hfull⟩ := he
    exact ⟨rfl, hfull⟩

/-! ## The bytes -/

/-- **Reading a file.** -/
theorem Finished.readFile (h : Finished s.disk fs) (hinodes : fs.length + 2 ≤ mkfsSb.ninodes)
    (hi : i < fs.length) (hl : Loaded s ip (i + 2)) (off n : UInt32) : readi mkfsSb devsw ip off n s =
      if fs[i].2.length < off.toNat ∨ off + n < off then .ok ((-1, []), s)
      else .ok ((((fs[i].2.drop off.toNat).take n.toNat).length, (fs[i].2.drop off.toNat).take n.toNat), s) := by
  obtain ⟨hfile, hholes⟩ := h.files i hi
  obtain ⟨hlive, htype, hcontent⟩ := fileAt_eq_some hfile
  have hw := h.working hl (by omega) hlive
  have hlen : (s.icache ip).di.size.toNat = fs[i].2.length := by
    rw [hl.di, ← hcontent, length_content]
  have hread : readi mkfsSb devsw ip off n s = _ := readi_mapped hw (by rw [hl.di]; exact hholes.size_le)
    (by rw [hl.di, htype]; decide) off n (fun bn hbn => by
      obtain ⟨hne, -, hlt⟩ := mem_touched.mp hbn
      rw [hw.own_key, hl.di]
      refine hholes.mapped bn ?_
      rw [← hl.di]
      omega)
  have hpast : ((s.icache ip).di.size < off ∨ off + n < off) ↔ (fs[i].2.length < off.toNat ∨ off + n < off) := by
    rw [UInt32.lt_iff_toNat_lt, hlen]
  rw [hread, hl.di, hcontent]
  rw [hl.di] at hpast
  exact if_congr hpast rfl rfl

/-- The superblock of the image, word by word. -/
theorem word_superblock : (List.range 7).map (word superblock) = [mkfsSb.size, mkfsSb.nblocks, mkfsSb.ninodes,
    mkfsSb.nlog, mkfsSb.logstart, mkfsSb.inodestart, mkfsSb.bmapstart] := by
  refine List.ext_getElem (by simp) fun i h1 h2 => ?_
  rw [List.getElem_map, List.getElem_range]
  have hget := getLE_putWords [mkfsSb.size, mkfsSb.nblocks, mkfsSb.ninodes, mkfsSb.nlog, mkfsSb.logstart,
    mkfsSb.inodestart, mkfsSb.bmapstart] zeroBlock 0 i h2 (by decide) ?_
  · rw [Nat.zero_add] at hget
    exact hget
  · have hall : ∀ w ∈ [mkfsSb.size, mkfsSb.nblocks, mkfsSb.ninodes, mkfsSb.nlog, mkfsSb.logstart, mkfsSb.inodestart,
        mkfsSb.bmapstart], w < 2 ^ 32 := by decide
    exact hall _ (List.getElem_mem h2)

/-- **The kernel finds on the image what `mkfs` was given**: the superblock, each file under its name and with its
    bytes; and the bitmap has the blocks that are in use. -/
theorem mkfs_readable (files : List HostFile) (hnames : (files.map fun f => Name.ofBytes f.fsName).Nodup)
    (hdots : ∀ f ∈ files, Name.ofBytes f.fsName ≠ dot ∧ Name.ofBytes f.fsName ≠ dotdot)
    (hmax : ∀ f ∈ files, f.bytes.length ≤ MAXFILE * BSIZE) (hinodes : files.length + 2 ≤ mkfsSb.ninodes)
    (hblocks : used (files.map HostFile.named) ≤ mkfsSb.size) (devsw : Nat → Devsw) :
    (mkfs files = none ↔ ∃ f ∈ files, slash ∈ f.name) ∧ ∀ d, mkfs files = some d →
      (List.range 7).map (word (d 1)) = [mkfsSb.size, mkfsSb.nblocks, mkfsSb.ninodes, mkfsSb.nlog, mkfsSb.logstart,
        mkfsSb.inodestart, mkfsSb.bmapstart] ∧
      (∀ b, b < mkfsSb.size → (bit mkfsSb d b = true ↔
        b < mkfsSb.nmeta ∨ ∃ k, own mkfsSb d (dinodeAt mkfsSb d) k = b)) ∧
      ∀ s : Fs.St, s.disk = d → Synced mkfsSb s → ∀ i (h : i < files.length),
        (∀ dp, Loaded s dp ROOTINO → Meets (dirlookup mkfsSb devsw dp (Name.ofBytes files[i].fsName) s)
          (fun r t => ∃ ip, r = some (ip, DESIZE * (i + 2)) ∧ 0 < (t.icache ip).ref ∧ (t.icache ip).inum = i + 2 ∧
            t.disk = d ∧ Synced mkfsSb t)
          (fun e => e = .fs .igetNoInodes ∧ ∀ ip, (s.icache ip).ref ≠ 0)) ∧
        (∀ ip, 0 < (s.icache ip).ref → (s.icache ip).inum = i + 2 → Meets (ilock mkfsSb ip s)
          (fun _ t => Loaded t ip (i + 2) ∧ t.disk = d)
          (fun e => e = .asleep ∧ (s.icache ip).locked = true)) ∧
        (∀ ip, Loaded s ip (i + 2) → ∀ off n, readi mkfsSb devsw ip off n s =
          if files[i].bytes.length < off.toNat ∨ off + n < off then .ok ((-1, []), s)
          else .ok ((((files[i].bytes.drop off.toNat).take n.toNat).length,
            (files[i].bytes.drop off.toNat).take n.toNat), s)) := by
  have hspec := mkfs_spec hmax hinodes hblocks
  split at hspec
  · rename_i hslash
    rw [hspec]
    exact ⟨⟨fun _ => hslash, fun _ => rfl⟩, fun d hd => nomatch hd⟩
  rename_i hslash
  obtain ⟨d, hd, hfin⟩ := hspec
  rw [hd]
  refine ⟨iff_of_false (fun hc => by cases hc) hslash, fun d' hd' => ?_⟩
  obtain rfl : d = d' := Option.some.inj hd'
  have hcount : (files.map HostFile.named).length + 2 ≤ mkfsSb.ninodes := by rw [List.length_map]; exact hinodes
  have hnames' : ((files.map HostFile.named).map Prod.fst).Nodup := by
    rw [List.map_map]
    exact hnames
  have hdots' : ∀ f ∈ files.map HostFile.named, f.1 ≠ dot ∧ f.1 ≠ dotdot := by
    intro f hf
    obtain ⟨g, hg, rfl⟩ := List.mem_map.mp hf
    exact hdots g hg
  refine ⟨by rw [hfin.super]; exact word_superblock, fun b hb => ?_, fun s hs hsync i hi => ?_⟩
  · by_cases hmeta : b < mkfsSb.nmeta
    · exact iff_of_true (hfin.cons.metadata b hmeta) (.inl hmeta)
    · rw [hfin.cons.excl.exact b ⟨Nat.le_of_not_lt hmeta, hb⟩]
      exact ⟨.inr, fun h => h.resolve_left hmeta⟩
  · subst hs
    have hi' : i < (files.map HostFile.named).length := by rw [List.length_map]; exact hi
    have hget : (files.map HostFile.named)[i] = files[i].named := List.getElem_map _
    refine ⟨fun dp hl => ?_, fun ip hr hinum => ?_, fun ip hl off n => ?_⟩
    · have hlook : Meets (dirlookup mkfsSb devsw dp _ s) _ _ := hfin.lookup hcount hnames' hdots' hsync hl hi'
      rw [hget] at hlook
      exact hlook
    · have hlive := (fileAt_eq_some (hfin.files i hi').1).1
      rw [← hinum] at hlive
      refine (ilock_found hsync hr hlive).mono (fun _ t ⟨hdisk, hin, hdi⟩ => ?_) fun e he => he
      refine ⟨⟨hin.trans hinum, ?_⟩, hdisk⟩
      rw [hdi, hdisk, hinum]
    · have hread : readi mkfsSb devsw ip off n s = _ := hfin.readFile hcount hi' hl off n
      rw [hget] at hread
      exact hread

/-- `echo hi > _cat; mkfs fs.img _cat` -/
def catFile : HostFile where
  name := [underscore, 99, 97, 116]
  reads := [[104, 105, 10]]
  name_str := by decide
  reads_ok := by decide

theorem mkfs_readable_cat : (∃ d, mkfs [catFile] = some d) ∧ ∀ d, mkfs [catFile] = some d →
    ∀ (s : Fs.St) (ip : Fin NINODE), s.disk = d → Synced mkfsSb s → Loaded s ip 2 →
      readi mkfsSb (fun _ => ⟨none, none⟩) ip 0 3 s = .ok ((3, [104, 105, 10]), s) := by
  have hall := mkfs_readable [catFile] (by decide) (by decide) (by decide) (by decide) (by decide) fun _ => ⟨none, none⟩
  refine ⟨?_, fun d hd s ip hs hsync hl => ?_⟩
  · cases hd : mkfs [catFile] with
    | none => exact absurd (hall.1.mp hd) (by decide)
    | some d => exact ⟨d, rfl⟩
  · exact ((hall.2 d hd).2.2 s hs hsync 0 (by decide)).2.2 ip hl 0 3

end Xv6.Mkfs
