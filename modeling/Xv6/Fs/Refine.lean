/-
  Inode I/O refines a byte array.

  1. **The invariant** — `Inv`: the disk is consistent and hole-free; the inode cache has one entry
     per inode, and a valid entry is the inode on disk (write-through).
  2. **Write-through** — `iupdate` brings the disk up to the table that the operation worked with.
  3. **Refinement** — `readi` delivers a slice of the content, `writei` replaces one, and neither
     touches another file (`inode_io`).  The stops are exact, too: `writei` can only stop in
     `log_write`, and does not when the log has room for its calls.
-/
import Xv6.Fs.FileIO

namespace Xv6.Fs

open ByteBuf Outcome Ownership

/-- The state of the file system between two operations. -/
structure Inv (sb : Superblock) (s : St) : Prop where
  cons : Consistent sb s.disk (dinodeAt sb s.disk)
  holes : ∀ n, n < sb.ninodes → (dinodeAt sb s.disk n).type ≠ 0 →
    HoleFree s.disk (dinodeAt sb s.disk n)
  cached : ∀ ip, 0 < (s.icache ip).ref →
    (s.icache ip).dev = ROOTDEV ∧ (s.icache ip).inum < sb.ninodes
  uniq : ∀ ip jp, 0 < (s.icache ip).ref → 0 < (s.icache jp).ref →
    (s.icache ip).inum = (s.icache jp).inum → ip = jp
  synced : ∀ ip, 0 < (s.icache ip).ref → (s.icache ip).valid = true →
    (s.icache ip).di = dinodeAt sb s.disk (s.icache ip).inum ∧ (s.icache ip).di.type ≠ 0
  locked : ∀ ip, (s.icache ip).locked = true → 0 < (s.icache ip).ref ∧ (s.icache ip).valid = true

variable {sb : Superblock} {s t u : St} {ip : Fin NINODE}

section

variable (h : Inv sb s) (hr : 0 < (s.icache ip).ref) (hv : (s.icache ip).valid = true)

include h hr hv

/-- Between operations the table is the disk's. -/
theorem Inv.table : s.table sb ip = dinodeAt sb s.disk := by
  funext n
  unfold St.table
  split
  · rename_i hn
    rw [hn]
    exact (h.synced ip hr hv).1
  · rfl

theorem Inv.working : Working sb s ip where
  inum_lt := (h.cached ip hr).2
  live := (h.synced ip hr hv).2
  cons := by rw [h.table hr hv]; exact h.cons

theorem Inv.holeFree : HoleFree s.disk (s.icache ip).di := by
  obtain ⟨hdi, hlive⟩ := h.synced ip hr hv
  have hole := h.holes _ (h.cached ip hr).2 (by rw [← hdi]; exact hlive)
  rw [← hdi] at hole
  exact hole

/-- A block below the size is mapped. -/
theorem Inv.mapped {bn : Nat} (hbn : bn * BSIZE < (s.icache ip).di.size.toNat) :
    s.own sb ip (s.key ip (slotOf bn)) ≠ 0 := by
  rw [(h.working hr hv).own_key]
  exact (h.holeFree hr hv).mapped bn hbn

/-! ## Reading -/

end

/-- **The loop of `readi`**: with every block mapped, it delivers the bytes and changes nothing. -/
theorem readLoop_eq (hw : Working sb s ip) : ∀ (n off : Nat), off + n ≤ MAXFILE * BSIZE →
    (∀ bn ∈ touched off n, s.own sb ip (s.key ip (slotOf bn)) ≠ 0) → readLoop sb ip off n s =
      .ok ((List.range n).map (fun i => s.byte sb ip (s.icache ip).inum (off + i)), s) := by
  intro n
  induction n using Nat.strongRecOn with
  | _ n ih =>
  intro off hmax hmapped
  rw [readLoop]
  by_cases hn : n = 0
  · rw [dif_pos hn, hn]
    rfl
  · rw [dif_neg hn]
    obtain ⟨htouched, -⟩ := touched_step off hn
    have hsize : BSIZE = 512 := rfl
    have hpos := chunk_pos off hn
    have hle := chunk_le off n
    have hbn : off / BSIZE < MAXFILE := by
      simp only [hsize] at *
      omega
    have hhere := hmapped (off / BSIZE) (by rw [htouched]; exact Finset.mem_insert_self _ _)
    have hrest := ih (n - chunk off n) (by omega) (off + chunk off n) (by omega) fun bn hmem =>
      hmapped bn (by rw [htouched]; exact Finset.mem_insert_of_mem hmem)
    rw [bind_of_ok (bmap_mapped hw hbn hhere), bind_of_ok (bread_eq s _), bind_of_ok hrest]
    have hsplit : List.range n =
        List.range (chunk off n) ++ (List.range (n - chunk off n)).map (chunk off n + ·) := by
      rw [← List.range_add]
      congr 1
      omega
    have hhead : (List.range (chunk off n)).map (fun i =>
          ByteBuf.get (s.disk (s.own sb ip (s.key ip (slotOf (off / BSIZE))))) (off % BSIZE + i)) =
        (List.range (chunk off n)).map fun i => s.byte sb ip (s.icache ip).inum (off + i) := by
      refine List.map_congr_left fun i hi => ?_
      have hi' : i < chunk off n := List.mem_range.mp hi
      have hc : chunk off n ≤ BSIZE - off % BSIZE := Nat.min_le_right _ _
      have hdiv : (off + i) / BSIZE = off / BSIZE := by
        simp only [hsize] at *
        omega
      have hmod : (off + i) % BSIZE = off % BSIZE + i := by
        simp only [hsize] at *
        omega
      unfold St.byte
      rw [hdiv, hmod, if_neg hhere]
    rw [hhead, hsplit, List.map_append, List.map_map]
    refine congrArg (fun l => Except.ok (_ ++ l, s)) (List.map_congr_left fun i _ => ?_)
    show s.byte sb ip _ (off + chunk off n + i) = s.byte sb ip _ (off + (chunk off n + i))
    rw [Nat.add_assoc]

/-- The content of the file in slot `ip`, by its bytes. -/
theorem Working.content_eq (hw : Working sb s ip) : content s.disk (s.icache ip).di =
      (List.range (s.icache ip).di.size.toNat).map (s.byte sb ip (s.icache ip).inum) := by
  refine List.map_congr_left fun i _ => ?_
  rw [byte_eq hw.inum_lt (by rw [table_self]; exact hw.live), table_self]

/-! ## Slices of a list of values -/

variable {α : Type}

theorem slice_map_range (f : Nat → α) (z off n : Nat) : (((List.range z).map f).drop off).take n =
      (List.range (min n (z - off))).map fun i => f (off + i) := by
  refine List.ext_getElem ?_ fun i h1 h2 => ?_
  · rw [List.length_take, List.length_drop, List.length_map, List.length_range, List.length_map, List.length_range]
  · rw [List.getElem_take, List.getElem_drop, List.getElem_map, List.getElem_map,
      List.getElem_range, List.getElem_range]

variable {off : Nat}

/-- Overwriting the values at `[off, off + n)`, past the end or not. -/
theorem splice_map_range (f src : Nat → α) {z : Nat} (n : Nat) (h : off ≤ z) : (List.range (max z (off + n))).map
        (fun i => if off ≤ i ∧ i < off + n then src (i - off) else f i) =
      ((List.range z).map f).take off ++ (List.range n).map src ++
        ((List.range z).map f).drop (off + n) := by
  have hlen : (((List.range z).map f).take off).length = off := by
    rw [List.length_take, List.length_map, List.length_range]
    omega
  refine List.ext_getElem ?_ fun i h1 h2 => ?_
  · simp only [List.length_append, hlen, List.length_drop, List.length_map, List.length_range]
    omega
  · rw [List.getElem_map, List.getElem_range]
    by_cases ha : i < off
    · rw [if_neg (by omega), List.getElem_append_left (by simp; omega),
        List.getElem_append_left (by rw [hlen]; exact ha), List.getElem_take, List.getElem_map,
        List.getElem_range]
    · by_cases hb : i < off + n
      · rw [if_pos ⟨by omega, hb⟩, List.getElem_append_left (by simp; omega),
          List.getElem_append_right (by rw [hlen]; omega), List.getElem_map, List.getElem_range,
          hlen]
      · rw [if_neg (by omega), List.getElem_append_right (by simp; omega), List.getElem_drop,
          List.getElem_map, List.getElem_range]
        congr 1
        simp only [List.length_append, hlen, List.length_map, List.length_range]
        omega

/-! ## `readi` -/

variable {devsw : Nat → Devsw}

/-- A sum of two words that does not wrap. -/
theorem toNat_add_of_not_wrap {off n : UInt32} (h : ¬ off + n < off) : (off + n).toNat = off.toNat + n.toNat := by
  have h1 := off.toNat_lt
  have h2 := n.toNat_lt
  rw [UInt32.lt_iff_toNat_lt, UInt32.toNat_add] at h
  rw [UInt32.toNat_add]
  omega

/-- `readi`, where every block that it asks for is there. -/
theorem readi_mapped (hw : Working sb s ip) (hmax : (s.icache ip).di.size.toNat ≤ MAXFILE * BSIZE)
    (hdev : (s.icache ip).di.type ≠ UInt16.ofNat T_DEV) (off n : UInt32)
    (hmapped : ∀ bn ∈ touched off.toNat (min n.toNat ((s.icache ip).di.size.toNat - off.toNat)),
      s.own sb ip (s.key ip (slotOf bn)) ≠ 0) :
    readi sb devsw ip off n s =
      if (s.icache ip).di.size < off ∨ off + n < off then .ok ((-1, []), s)
      else
        let bytes := ((content s.disk (s.icache ip).di).drop off.toNat).take n.toNat
        .ok ((bytes.length, bytes), s) := by
  unfold readi
  rw [bind_of_ok (inode_eq s ip)]
  simp only [if_neg hdev]
  by_cases hbad : (s.icache ip).di.size < off ∨ off + n < off
  · rw [if_pos hbad, if_pos hbad]
    rfl
  · rw [if_neg hbad, if_neg hbad]
    rw [not_or] at hbad
    obtain ⟨hoff, hwrap⟩ := hbad
    have hsum := toNat_add_of_not_wrap hwrap
    rw [UInt32.lt_iff_toNat_lt] at hoff
    -- the number of bytes actually read
    have hn : (if (s.icache ip).di.size < off + n then (s.icache ip).di.size - off else n).toNat =
        min n.toNat ((s.icache ip).di.size.toNat - off.toNat) := by
      split
      · rename_i hlt
        rw [UInt32.lt_iff_toNat_lt, hsum] at hlt
        rw [UInt32.toNat_sub_of_le _ _ (by rw [UInt32.le_iff_toNat_le]; omega)]
        omega
      · rename_i hge
        rw [UInt32.lt_iff_toNat_lt, hsum] at hge
        omega
    rw [← hn] at hmapped
    generalize (if (s.icache ip).di.size < off + n then (s.icache ip).di.size - off else n) = m at *
    have hread := readLoop_eq hw m.toNat off.toNat (by omega) hmapped
    rw [bind_of_ok hread]
    have hbytes : (List.range m.toNat).map (fun i => s.byte sb ip (s.icache ip).inum (off.toNat + i)) =
        ((content s.disk (s.icache ip).di).drop off.toNat).take n.toNat := by
      rw [hw.content_eq, slice_map_range, hn]
    have hlen : (((content s.disk (s.icache ip).di).drop off.toNat).take n.toNat).length =
        m.toNat := by
      rw [← hbytes, List.length_map, List.length_range]
    have hint : cInt m.toNat = (m.toNat : Int) := by
      refine cInt_of_lt (Int.natCast_nonneg _) ?_
      simp only [MAXFILE, NDIRECT, NINDIRECT, BSIZE] at hmax
      omega
    rw [hbytes, hint, ← hlen]
    rfl

/-- `readi` delivers exactly the slice of the content that was asked for, and changes nothing. -/
theorem readi_eq (h : Inv sb s) (hl : (s.icache ip).locked = true)
    (hdev : (s.icache ip).di.type ≠ UInt16.ofNat T_DEV) (off n : UInt32) : readi sb devsw ip off n s =
      if (s.icache ip).di.size < off ∨ off + n < off then .ok ((-1, []), s)
      else
        let bytes := ((content s.disk (s.icache ip).di).drop off.toNat).take n.toNat
        .ok ((bytes.length, bytes), s) := by
  obtain ⟨hr, hv⟩ := h.locked ip hl
  refine readi_mapped (h.working hr hv) (h.holeFree hr hv).size_le hdev off n fun bn hbn => ?_
  obtain ⟨hne, -, hlt⟩ := mem_touched.mp hbn
  exact h.mapped hr hv (by omega)

/-! ## `iupdate` -/

/-- The in-memory inode of slot `ip` was copied to disk. -/
structure Stored (sb : Superblock) (s t : St) (ip : Fin NINODE) : Prop where
  icache : t.icache = s.icache
  inodes : ∀ n, dinodeAt sb t.disk n = s.table sb ip n
  cons : Consistent sb t.disk (dinodeAt sb t.disk)
  own : ∀ k, Fs.own sb t.disk (dinodeAt sb t.disk) k = s.own sb ip k
  data : ∀ c, sb.IsData c → t.disk c = s.disk c
  logged : Logged s t 1

theorem Stored.put (hi : (s.icache ip).inum < sb.ninodes) (hcons : Consistent sb s.disk (s.table sb ip)) :
    Stored sb s (s.put (sb.iblock (s.icache ip).inum) (putDinode (s.disk (sb.iblock (s.icache ip).inum))
      (inodeOff (s.icache ip).inum) (s.icache ip).di)) ip := by
  generalize ht : s.put (sb.iblock (s.icache ip).inum) (putDinode (s.disk (sb.iblock (s.icache ip).inum))
    (inodeOff (s.icache ip).inum) (s.icache ip).di) = t
  have hinodes : ∀ n, dinodeAt sb t.disk n = s.table sb ip n := by
    intro n
    rw [← ht, put_disk]
    exact dinodeAt_write (getDinode_putDinode (inodeOff_le _)) (fun j hj => get_putDinode_out hj) n
  have hput : Consistent sb t.disk (s.table sb ip) := by
    rw [← ht]
    exact hcons.put_inode hi _
  have htable : dinodeAt sb t.disk = s.table sb ip := funext hinodes
  have hdata : ∀ c, sb.IsData c → t.disk c = s.disk c := by
    intro c hc
    rw [← ht, put_disk, updBlk_ne (Ne.symm (hc.ne_iblock hi))]
  refine ⟨by rw [← ht, put_icache], hinodes, by rw [htable]; exact hput, fun k => ?_, hdata, ?_⟩
  · rw [htable]
    exact hcons.own_eq (fun b hb _ => hdata b hb) k
  · rw [← ht]
    exact logged_put s _ _

theorem iupdate_spec (hi : (s.icache ip).inum < sb.ninodes) (hcons : Consistent sb s.disk (s.table sb ip)) :
    Meets (iupdate sb ip s) (fun _ t => Stored sb s t ip) (LogStop s 1) := by
  unfold iupdate
  rw [bind_of_ok (inode_eq s ip), bind_of_ok (bread_eq s _)]
  refine (logWrite_spec s _ _).mono (fun _ t ht => ?_) fun e he => he
  rw [ht]
  exact Stored.put hi hcons

/-- Changing fields of the in-memory inode other than its type and pointers. -/
theorem Working.setInode (hw : Working sb s ip) {v : Inode} (hi : v.inum = (s.icache ip).inum)
    (ht : v.di.type = (s.icache ip).di.type) (ha : v.di.addrs = (s.icache ip).di.addrs) :
    Working sb (s.setInode ip v) ip ∧
      ∀ k, (s.setInode ip v).own sb ip k = s.own sb ip k := by
  have hown : ∀ k, (s.setInode ip v).own sb ip k = s.own sb ip k := by
    refine own_congr_table fun n _ => ?_
    unfold St.table
    rw [setInode_same, setInode_disk, hi]
    split
    · exact ⟨ht, ha⟩
    · exact ⟨rfl, rfl⟩
  refine ⟨⟨by rw [setInode_same, hi]; exact hw.inum_lt, by rw [setInode_same, ht]; exact hw.live, ?_⟩, hown⟩
  exact ⟨hw.cons.excl.congr hown fun _ _ => Iff.rfl, hw.cons.metadata⟩

/-- **What one slot has to satisfy.**  An operation that touches slot `ip` only, and on disk no inode
    that another slot has loaded, keeps the invariant if the new `*ip` is in order. -/
theorem Inv.update (h : Inv sb s) (hcons : Consistent sb u.disk (dinodeAt sb u.disk))
    (hholes : ∀ n, n < sb.ninodes → (dinodeAt sb u.disk n).type ≠ 0 →
      HoleFree u.disk (dinodeAt sb u.disk n))
    (hothers : ∀ j, j ≠ ip → u.icache j = s.icache j)
    (hloaded : ∀ j, j ≠ ip → 0 < (s.icache j).ref → (s.icache j).valid = true →
      dinodeAt sb u.disk (s.icache j).inum = dinodeAt sb s.disk (s.icache j).inum)
    (hcached : 0 < (u.icache ip).ref →
      (u.icache ip).dev = ROOTDEV ∧ (u.icache ip).inum < sb.ninodes)
    (hfresh : 0 < (u.icache ip).ref → ∀ j, j ≠ ip → 0 < (s.icache j).ref →
      (s.icache j).inum ≠ (u.icache ip).inum)
    (hsynced : 0 < (u.icache ip).ref → (u.icache ip).valid = true →
      (u.icache ip).di = dinodeAt sb u.disk (u.icache ip).inum ∧ (u.icache ip).di.type ≠ 0)
    (hlocked : (u.icache ip).locked = true → 0 < (u.icache ip).ref ∧ (u.icache ip).valid = true) : Inv sb u := by
  refine ⟨hcons, hholes, fun jp hj => ?_, fun jp kp h1 h2 h3 => ?_, fun jp h1 h2 => ?_, fun jp hl => ?_⟩
  · rcases eq_or_ne jp ip with rfl | hjp
    · exact hcached hj
    · rw [hothers jp hjp] at hj ⊢
      exact h.cached jp hj
  · rcases eq_or_ne jp ip with rfl | hjp <;> rcases eq_or_ne kp jp with rfl | hkp
    · rfl
    · rw [hothers kp hkp] at h2 h3
      exact absurd h3.symm (hfresh h1 kp hkp h2)
    · rfl
    · rw [hothers jp hjp] at h1 h3
      rcases eq_or_ne kp ip with rfl | hki
      · exact absurd h3 (hfresh h2 jp hjp h1)
      · rw [hothers kp hki] at h2 h3
        exact h.uniq jp kp h1 h2 h3
  · rcases eq_or_ne jp ip with rfl | hjp
    · exact hsynced h1 h2
    · rw [hothers jp hjp] at h1 h2 ⊢
      rw [hloaded jp hjp h1 h2]
      exact h.synced jp h1 h2
  · rcases eq_or_ne jp ip with rfl | hjp
    · exact hlocked hl
    · rw [hothers jp hjp] at hl ⊢
      exact h.locked jp hl

/-- An operation on the inode of one slot keeps the invariant if it leaves that inode live and on
    disk, and the other inodes alone. -/
theorem Inv.of_slot (h : Inv sb s) (hr : 0 < (s.icache ip).ref) (hcons : Consistent sb u.disk (dinodeAt sb u.disk))
    (hholes : ∀ n, n < sb.ninodes → (dinodeAt sb u.disk n).type ≠ 0 →
      HoleFree u.disk (dinodeAt sb u.disk n))
    (hslot : ∃ d, u.icache ip = { s.icache ip with di := d })
    (hself : dinodeAt sb u.disk (s.icache ip).inum = (u.icache ip).di)
    (hlive : (u.icache ip).di.type ≠ 0) (hothers : ∀ j, j ≠ ip → u.icache j = s.icache j)
    (hinodes : ∀ m, m < sb.ninodes → m ≠ (s.icache ip).inum →
      dinodeAt sb u.disk m = dinodeAt sb s.disk m) : Inv sb u := by
  obtain ⟨d, hslot⟩ := hslot
  have hne : ∀ j, j ≠ ip → 0 < (s.icache j).ref → (s.icache j).inum ≠ (s.icache ip).inum :=
    fun j hj h1 e => hj (h.uniq j ip h1 hr e)
  refine h.update hcons hholes hothers
    (fun j hj h1 _ => hinodes _ (h.cached j h1).2 (hne j hj h1)) (fun _ => ?_) (fun _ j hj h1 => ?_)
    (fun _ _ => ⟨?_, hlive⟩) fun hl => ?_
  · rw [hslot]
    exact h.cached ip hr
  · rw [hslot]
    exact hne j hj h1
  · rw [← hself, hslot]
  · rw [hslot] at hl ⊢
    exact h.locked ip hl

/-- A cache in which one inode is loaded, and locked. -/
theorem Inv.of_one {n : Nat} {d : Dinode} (hcons : Consistent sb s.disk (dinodeAt sb s.disk))
    (hholes : ∀ n, n < sb.ninodes → (dinodeAt sb s.disk n).type ≠ 0 → HoleFree s.disk (dinodeAt sb s.disk n))
    (hzero : s.icache 0 = ⟨ROOTDEV, n, 1, true, true, d⟩)
    (hothers : ∀ ip, ip ≠ 0 → s.icache ip = ⟨0, 0, 0, false, false, Dinode.zero⟩) (hn : n < sb.ninodes)
    (hdi : d = dinodeAt sb s.disk n) (hlive : d.type ≠ 0) : Inv sb s := by
  have href : ∀ ip, 0 < (s.icache ip).ref → ip = 0 := by
    intro ip hr
    by_contra h0
    rw [hothers ip h0] at hr
    exact absurd hr (by decide)
  refine ⟨hcons, hholes, fun ip hr => ?_, fun ip jp h1 h2 _ => by rw [href ip h1, href jp h2], fun ip hr _ => ?_,
    fun ip hl => ?_⟩
  · obtain rfl := href ip hr
    rw [hzero]
    exact ⟨rfl, hn⟩
  · obtain rfl := href ip hr
    rw [hzero]
    exact ⟨hdi, hlive⟩
  · rcases eq_or_ne ip 0 with rfl | h0
    · rw [hzero]
      exact ⟨show (0 : Int) < 1 by decide, rfl⟩
    · rw [hothers ip h0] at hl
      cases hl

/-! ## `writei` -/

/-- The state after `n` bytes from `src` were written at `off` of the file in slot `ip`. -/
structure Written (sb : Superblock) (s t : St) (ip : Fin NINODE) (src : Nat → UInt8) (off n : Nat) :
    Prop where
  inv : Inv sb t
  others : ∀ j, j ≠ ip → t.icache j = s.icache j
  slot : ∃ z a, t.icache ip =
    { s.icache ip with di := { (s.icache ip).di with size := z, addrs := a } }
  types : ∀ m, m < sb.ninodes → (dinodeAt sb t.disk m).type = (dinodeAt sb s.disk m).type
  contents : ∀ m, m < sb.ninodes → (dinodeAt sb s.disk m).type ≠ 0 →
    content t.disk (dinodeAt sb t.disk m) =
      let c := content s.disk (dinodeAt sb s.disk m)
      if m = (s.icache ip).inum then c.take off ++ (List.range n).map src ++ c.drop (off + n) else c

variable {z : UInt32} {n : Nat} {src : Nat → UInt8}

section

variable (h : Inv sb s) (hr : 0 < (s.icache ip).ref) (hv : (s.icache ip).valid = true) (hoff : off ≤ (s.icache ip).di.size.toNat)

include h hr hv hoff

section

variable (hmax : off + n ≤ MAXFILE * BSIZE) (hwrote : Wrote sb s t ip src off n) (hz : z.toNat = max (s.icache ip).di.size.toNat (off + n))

include hmax hwrote hz

/-- From the end of the loop (`t`) to the end of `writei` (`u`): the size is settled and the inode
    is on disk. -/
theorem Written.of_wrote (hcons : Consistent sb u.disk (dinodeAt sb u.disk))
    (hown : ∀ k, own sb u.disk (dinodeAt sb u.disk) k = t.own sb ip k) (hdata : ∀ c, sb.IsData c → u.disk c = t.disk c)
    (hslot : ∃ a, u.icache ip =
      { s.icache ip with di := { (s.icache ip).di with size := z, addrs := a } })
    (hself : dinodeAt sb u.disk (s.icache ip).inum = (u.icache ip).di)
    (hothers : ∀ j, j ≠ ip → u.icache j = s.icache j)
    (hinodes : ∀ m, m < sb.ninodes → m ≠ (s.icache ip).inum →
      dinodeAt sb u.disk m = dinodeAt sb s.disk m) : Written sb s u ip src off n := by
  obtain ⟨a, hslot⟩ := hslot
  have hsz := (h.holeFree hr hv).size_le
  obtain ⟨hdi, hlive⟩ := h.synced ip hr hv
  have htypes : ∀ m, m < sb.ninodes → (dinodeAt sb u.disk m).type = (dinodeAt sb s.disk m).type := by
    intro m hm
    by_cases hmi : m = (s.icache ip).inum
    · rw [hmi, hself, hslot, ← hdi]
    · rw [hinodes m hm hmi]
  have hblock : ∀ m, m < sb.ninodes → (dinodeAt sb s.disk m).type ≠ 0 → ∀ bn,
      blockOf u.disk (dinodeAt sb u.disk m) bn = t.own sb ip (m, slotOf bn) := by
    intro m hm ht bn
    rw [← hown, own_of_live hm (by rw [htypes m hm]; exact ht)]
    rfl
  have hold : ∀ m, m < sb.ninodes → (dinodeAt sb s.disk m).type ≠ 0 → ∀ bn,
      blockOf s.disk (dinodeAt sb s.disk m) bn = s.own sb ip (m, slotOf bn) := by
    intro m hm ht bn
    rw [St.own, h.table hr hv, own_of_live hm ht]
    rfl
  have hbyte : ∀ m, m < sb.ninodes → (dinodeAt sb s.disk m).type ≠ 0 → ∀ i,
      fileByte u.disk (dinodeAt sb u.disk m) i = t.byte sb ip m i := by
    intro m hm ht i
    unfold fileByte St.byte
    rw [hblock m hm ht]
    split
    · rfl
    · rename_i h0
      rw [hdata _ (hwrote.work.held h0).1]
  have hbyteS : ∀ m, m < sb.ninodes → (dinodeAt sb s.disk m).type ≠ 0 → ∀ i,
      fileByte s.disk (dinodeAt sb s.disk m) i = s.byte sb ip m i := by
    intro m hm ht i
    rw [byte_eq hm (by rw [h.table hr hv]; exact ht), h.table hr hv]
  have hholes : ∀ m, m < sb.ninodes → (dinodeAt sb u.disk m).type ≠ 0 →
      HoleFree u.disk (dinodeAt sb u.disk m) := by
    intro m hm ht
    rw [htypes m hm] at ht
    have hole := h.holes m hm ht
    by_cases hmi : m = (s.icache ip).inum
    · refine ⟨?_, fun bn hbn => ?_⟩
      · rw [hmi, hself, hslot]
        show z.toNat ≤ _
        omega
      · rw [hmi, hself, hslot] at hbn
        replace hbn : bn * BSIZE < z.toNat := hbn
        rw [hblock m hm ht, hmi]
        by_cases hlt : bn * BSIZE < (s.icache ip).di.size.toNat
        · have hne := h.mapped hr hv hlt
          rw [hwrote.keep _ hne]
          exact hne
        · -- past the old end, and not before `off`: a block the loop went through
          refine hwrote.mapped bn (mem_touched.mpr ?_)
          have hsize : BSIZE = 512 := rfl
          simp only [hsize] at *
          omega
    · rw [hinodes m hm hmi]
      refine ⟨hole.size_le, fun bn hbn => ?_⟩
      have hne := hole.mapped bn hbn
      rw [hold m hm ht] at hne
      rw [← hinodes m hm hmi, hblock m hm ht, hwrote.keep _ hne]
      exact hne
  refine ⟨h.of_slot hr hcons hholes ⟨_, hslot⟩ hself (by rw [hslot]; exact hlive) hothers hinodes,
    hothers, ⟨z, a, hslot⟩, htypes, fun m hm ht => ?_⟩
  by_cases hmi : m = (s.icache ip).inum
  · simp only [if_pos hmi]
    have hsizeU : (dinodeAt sb u.disk m).size = z := by rw [hmi, hself, hslot]
    have hsizeS : (dinodeAt sb s.disk m).size = (s.icache ip).di.size := by rw [hmi, ← hdi]
    unfold content
    rw [hsizeU, hsizeS, hz, ← splice_map_range (fileByte s.disk (dinodeAt sb s.disk m)) src n hoff]
    refine List.map_congr_left fun i _ => ?_
    rw [hbyte m hm ht, hwrote.bytes, hbyteS m hm ht]
    by_cases hin : off ≤ i ∧ i < off + n
    · rw [if_pos ⟨hmi, hin⟩, if_pos hin]
    · rw [if_neg fun hc => hin hc.2, if_neg hin]
  · simp only [if_neg hmi]
    unfold content
    rw [hinodes m hm hmi]
    refine List.map_congr_left fun i _ => ?_
    have hb := hbyte m hm ht i
    rw [hinodes m hm hmi] at hb
    rw [hb, hwrote.bytes, if_neg fun hc => hmi hc.1, hbyteS m hm ht]

/-- A file that has grown: its new size is set, and the inode updated on disk. -/
theorem Written.of_stored
    (hu : Stored sb (t.setInode ip { t.icache ip with di := { (t.icache ip).di with size := z } }) u ip) :
    Written sb s u ip src off n := by
  obtain ⟨a, ha⟩ := hwrote.slot
  have hown := (hwrote.work.setInode (v := { t.icache ip with di := { (t.icache ip).di with size := z } })
    rfl rfl rfl).2
  have hslot : u.icache ip = { s.icache ip with di := { (s.icache ip).di with size := z, addrs := a } } := by
    rw [hu.icache, setInode_same, ha]
  refine Written.of_wrote h hr hv hoff hmax hwrote hz hu.cons (fun k => by rw [hu.own, hown])
    (fun c hc => by rw [hu.data c hc, setInode_disk]) ⟨a, hslot⟩ ?_ (fun j hj => ?_) fun m hm hmi => ?_
  · rw [hu.inodes, St.table, setInode_same, if_pos (by rw [ha]), hu.icache, setInode_same]
  · rw [hu.icache, setInode_ne hj, hwrote.others j hj]
  · rw [hu.inodes, table_ne (by rw [setInode_same, ha]; exact hmi), setInode_disk, hwrote.inodes m hm]

end

end

/-- When the write stays within the file, no block is allocated, and the inode stays as it is. -/
theorem Wrote.slot_eq (h : Wrote sb s t ip src off n)
    (hw : Working sb s ip) (hmapped : ∀ bn ∈ touched off n, s.own sb ip (s.key ip (slotOf bn)) ≠ 0) :
    t.icache ip = s.icache ip ∧ ∀ k, t.own sb ip k = s.own sb ip k := by
  have hown : ∀ k, t.own sb ip k = s.own sb ip k := by
    intro k
    by_cases h0 : s.own sb ip k = 0
    · by_contra hne
      rw [h0] at hne
      obtain ⟨bn, hbn, hk | ⟨hk, hge⟩⟩ := h.only k h0 hne
      · exact hmapped bn hbn (by rw [← hk]; exact h0)
      · have hm := hmapped bn hbn
        rw [slotOf_indirect (by omega)] at hm
        exact hw.indirect_of_word hm (by rw [← hk]; exact h0)
    · exact h.keep k h0
  refine ⟨?_, hown⟩
  obtain ⟨a, ha⟩ := h.slot
  have haddrs : a = (s.icache ip).di.addrs := by
    funext i
    have hi := hown (s.key ip (.addr i))
    rw [hw.own_key, ← h.key, h.work.own_key, ha] at hi
    exact UInt32.toNat_inj.mp hi
  rw [ha, haddrs]

/-- **The outcome of `writei`** on a request it accepts, given enough free blocks. -/
theorem writei_spec (h : Inv sb s) (hl : (s.icache ip).locked = true)
    (hdev : (s.icache ip).di.type ≠ UInt16.ofNat T_DEV) (src : Nat → UInt8) {off n : UInt32}
    (hoff : ¬ (s.icache ip).di.size < off) (hwrap : ¬ off + n < off) (hmax : (off + n).toNat ≤ MAXFILE * BSIZE) :
    Meets (writei sb devsw ip src off n s)
      (fun r t => r = n.toNat ∧ Written sb s t ip src off.toNat n.toNat)
      (fun e => (e = .outOfBlocks ∧ s.free sb < s.need sb ip (touched off.toNat n.toNat)) ∨
        LogStop s (s.calls sb ip off.toNat n.toNat + 1) e) := by
  obtain ⟨hr, hv⟩ := h.locked ip hl
  have hw := h.working hr hv
  have hsum := toNat_add_of_not_wrap hwrap
  have hoff' : off.toNat ≤ (s.icache ip).di.size.toNat := by
    rw [UInt32.lt_iff_toNat_lt] at hoff
    omega
  rw [hsum] at hmax
  have hint : cInt n.toNat = (n.toNat : Int) := by
    refine cInt_of_lt (Int.natCast_nonneg _) ?_
    simp only [MAXFILE, NDIRECT, NINDIRECT, BSIZE] at hmax
    omega
  unfold writei
  rw [bind_of_ok (inode_eq s ip)]
  simp only [if_neg hdev]
  rw [if_neg (not_or.mpr ⟨hoff, hwrap⟩), if_neg (by rw [hsum]; omega)]
  refine (writeLoop_spec n.toNat src off.toNat hw hmax).bind ?_ ?_
  · rintro - t ⟨hwrote, hlog⟩
    obtain ⟨a, ha⟩ := hwrote.slot
    have hsize : (t.icache ip).di.size = (s.icache ip).di.size := by rw [ha]
    rw [bind_of_ok (inode_eq t ip), hsize]
    by_cases hgrow : 0 < n ∧ (s.icache ip).di.size < off + n
    · -- the file has grown: set the size and update the inode on disk
      rw [if_pos hgrow]
      rw [bind_of_ok (show modifyInode ip _ t = .ok ((), t.setInode ip _) from rfl)]
      have hwv := (hwrote.work.setInode (v := { t.icache ip with di := { (t.icache ip).di with size := off + n } })
        rfl rfl rfl).1
      have hlogv := hlog.trans (logged_setInode t ip
        { t.icache ip with di := { (t.icache ip).di with size := off + n } })
      refine (iupdate_spec hwv.inum_lt hwv.cons).bind (fun _ u hu => ?_) fun e he =>
        Or.inr (he.after hlogv)
      refine ⟨hint, Written.of_stored h hr hv hoff' hmax hwrote ?_ hu⟩
      have hlt := hgrow.2
      rw [UInt32.lt_iff_toNat_lt, hsum] at hlt
      rw [hsum]
      omega
    · -- nothing was allocated
      rw [if_neg hgrow]
      have hend : off.toNat + n.toNat ≤ (s.icache ip).di.size.toNat := by
        by_contra hlt
        refine hgrow ⟨?_, ?_⟩
        · rw [UInt32.lt_iff_toNat_lt]
          show 0 < n.toNat
          omega
        · rw [UInt32.lt_iff_toNat_lt, hsum]
          omega
      obtain ⟨hslot, hown⟩ := hwrote.slot_eq hw fun bn hbn =>
        h.mapped hr hv (Nat.lt_of_lt_of_le (mem_touched.mp hbn).2.2 hend)
      have hself : dinodeAt sb t.disk (s.icache ip).inum = (t.icache ip).di := by
        rw [hwrote.inodes _ hw.inum_lt, hslot, (h.synced ip hr hv).1]
      have htable : t.table sb ip = dinodeAt sb t.disk := by
        funext m
        unfold St.table
        split
        · rename_i hm
          rw [hm, hslot, hself, hslot]
        · rfl
      refine ⟨hint, Written.of_wrote h hr hv hoff' hmax hwrote (z := (s.icache ip).di.size) (by omega)
        (by rw [← htable]; exact hwrote.work.cons) (fun k => by rw [← htable]; rfl) (fun _ _ => rfl)
        ⟨(s.icache ip).di.addrs, hslot⟩ hself hwrote.others fun m hm _ => hwrote.inodes m hm⟩
  · rintro e (he | he)
    · exact Or.inl he
    · exact Or.inr (he.mono (by omega))

/-- A request that `writei` turns down changes nothing. -/
theorem writei_reject (hdev : (s.icache ip).di.type ≠ UInt16.ofNat T_DEV) (src : Nat → UInt8) {off n : UInt32}
    (hbad : (s.icache ip).di.size < off ∨ off + n < off ∨ MAXFILE * BSIZE < (off + n).toNat) :
    writei sb devsw ip src off n s = .ok (-1, s) := by
  unfold writei
  rw [bind_of_ok (inode_eq s ip)]
  simp only [if_neg hdev]
  by_cases h1 : (s.icache ip).di.size < off ∨ off + n < off
  · rw [if_pos h1]
    rfl
  · have h2 : MAXFILE * BSIZE < (off + n).toNat := by
      rw [← or_assoc] at hbad
      exact hbad.resolve_left h1
    rw [if_neg h1, if_pos h2]
    rfl

/-- **Inode I/O refines a byte array.**  For a locked inode that is not a device, with content `c`:
    `readi` returns `-1` exactly when `off` is past the end or `off + n` wraps, and otherwise
    delivers `c[off, off + n)`, cut at the end; `writei` returns `-1`, changing nothing, exactly when
    moreover the result would be too large, and otherwise, given enough free blocks, returns `n`
    with the content `c[0, off) ++ src[0, n) ++ c[off + n, ..)`, every other file being as before.
    The one other outcome is a stop in `log_write`, which takes a log without room for the calls
    of `log_write` that the request needs, or no open transaction. -/
theorem inode_io (devsw : Nat → Devsw) (h : Inv sb s) (hl : (s.icache ip).locked = true)
    (hdev : (s.icache ip).di.type ≠ UInt16.ofNat T_DEV) (off n : UInt32) (src : Nat → UInt8) :
    let c := content s.disk (s.icache ip).di
    readi sb devsw ip off n s =
        (if (s.icache ip).di.size < off ∨ off + n < off then .ok ((-1, []), s)
         else .ok ((((c.drop off.toNat).take n.toNat).length, (c.drop off.toNat).take n.toNat), s)) ∧
      (if (s.icache ip).di.size < off ∨ off + n < off ∨ MAXFILE * BSIZE < (off + n).toNat then
        writei sb devsw ip src off n s = .ok (-1, s)
       else s.need sb ip (touched off.toNat n.toNat) ≤ s.free sb →
        Meets (writei sb devsw ip src off n s)
          (fun r t => r = n.toNat ∧ Inv sb t ∧ dinodeAt sb t.disk (s.icache ip).inum = (t.icache ip).di ∧
            content t.disk (t.icache ip).di =
              c.take off.toNat ++ (List.range n.toNat).map src ++ c.drop (off.toNat + n.toNat) ∧
            ∀ m, m < sb.ninodes → m ≠ (s.icache ip).inum → (dinodeAt sb s.disk m).type ≠ 0 →
              content t.disk (dinodeAt sb t.disk m) = content s.disk (dinodeAt sb s.disk m))
          (LogStop s (s.calls sb ip off.toNat n.toNat + 1))) := by
  intro c
  obtain ⟨hr, hv⟩ := h.locked ip hl
  refine ⟨readi_eq h hl hdev off n, ?_⟩
  split
  · rename_i hbad
    exact writei_reject hdev src hbad
  · rename_i hok
    intro hfree
    rw [not_or, not_or] at hok
    refine (writei_spec h hl hdev src hok.1 hok.2.1 (Nat.le_of_not_lt hok.2.2)).mono ?_ ?_
    · rintro r t ⟨hr', hwritten⟩
      obtain ⟨z, a, hslot⟩ := hwritten.slot
      have hself : dinodeAt sb t.disk (s.icache ip).inum = (t.icache ip).di := by
        have := (hwritten.inv.synced ip (by rw [hslot]; exact hr) (by rw [hslot]; exact hv)).1
        rw [this, hslot]
      refine ⟨hr', hwritten.inv, hself, ?_, fun m hm hne ht => ?_⟩
      · obtain ⟨hdi, hlive⟩ := h.synced ip hr hv
        have := hwritten.contents (s.icache ip).inum (h.cached ip hr).2 (by rw [← hdi]; exact hlive)
        simp only [if_true, hself, ← hdi] at this
        exact this
      · have := hwritten.contents m hm ht
        simp only [if_neg hne] at this
        exact this
    · rintro e (⟨-, hlt⟩ | he)
      · omega
      · exact he

/-! ## A small file system -/

/-- An empty file. -/
def emptyFile : Dinode := { Dinode.zero with type := UInt16.ofNat T_FILE, nlink := 1 }

/-- A disk laid out by `mkfs` whose one inode is `di`. -/
def diskOf (di : Dinode) : Disk :=
  (List.range mkfsSb.nmeta).foldl (markUsed mkfsSb)
    (updBlk (fun _ => zeroBlock) (mkfsSb.iblock 1) (putDinode zeroBlock (inodeOff 1) di))

/-- An empty file, locked, in slot `0` of the cache; the log has the entries `lh`. -/
def smallFs (lh : List Nat) : St where
  disk := diskOf emptyFile
  log := { LogOps.Log.init 2 LOGSIZE with outstanding := 1, lh := lh }
  icache := fun ip =>
    if ip = 0 then ⟨ROOTDEV, 1, 1, true, true, emptyFile⟩ else ⟨0, 0, 0, false, false, Dinode.zero⟩

theorem bit_diskOf (di : Dinode) (c : Nat) : bit mkfsSb (diskOf di) c = decide (c < 59) := by
  have hne : mkfsSb.bblock c ≠ mkfsSb.iblock 1 := Ne.symm (mkfsSb.iblock_ne_bblock (by decide) c)
  rw [diskOf, bit_markUsed_range, bit_updBlk_ne hne, bit, testBit_zeroBlock, Bool.false_or]
  rfl

theorem dinodeAt_diskOf (di : Dinode) (hn : n < mkfsSb.ninodes) :
    dinodeAt mkfsSb (diskOf di) n = if n = 1 then di else Dinode.zero := by
  have hkeep : diskOf di (mkfsSb.iblock n) = _ := foldl_markUsed_other (mkfsSb.iblock_lt hn) _ _
  have hwrite : dinodeAt mkfsSb (updBlk (fun _ => zeroBlock) (mkfsSb.iblock 1)
      (putDinode zeroBlock (inodeOff 1) di)) n =
      if n = 1 then di else dinodeAt mkfsSb (fun _ => zeroBlock) n :=
    dinodeAt_write (getDinode_putDinode (inodeOff_le 1)) (fun j hj => get_putDinode_out hj) n
  unfold dinodeAt at hwrite ⊢
  rw [hkeep, hwrite, getDinode_zeroBlock]

/-- No block is held. -/
theorem own_diskOf_empty (k : Nat × Slot) :
    own mkfsSb (diskOf emptyFile) (dinodeAt mkfsSb (diskOf emptyFile)) k = 0 := by
  unfold own
  split
  · rename_i hk
    have hdi : (dinodeAt mkfsSb (diskOf emptyFile) k.1).addrs = fun _ => 0 := by
      rw [dinodeAt_diskOf _ hk.1]
      split <;> rfl
    have hind : (dinodeAt mkfsSb (diskOf emptyFile) k.1).indirect = 0 := congrFun hdi _
    cases k.2 with
    | addr i => exact congrArg UInt32.toNat (congrFun hdi i)
    | ind j => exact if_pos hind
  · rfl

theorem inv_smallFs (lh : List Nat) : Inv mkfsSb (smallFs lh) := by
  refine .of_one (n := 1) (d := emptyFile) ?_ ?_ rfl (fun ip h0 => if_neg h0) (by decide) ?_ (by decide)
  · refine ⟨⟨fun k hk => absurd (own_diskOf_empty k) hk, fun k l hk => absurd (own_diskOf_empty k) hk,
      fun b hb => ?_, fun h => h.pos rfl⟩, fun b hb => ?_⟩
    · show bit mkfsSb (diskOf emptyFile) b = true ↔ _
      have h1 : 59 ≤ b := hb.1
      rw [bit_diskOf, decide_eq_true_eq]
      constructor
      · intro hlt
        omega
      · rintro ⟨k, hk⟩
        have := (own_diskOf_empty k).symm.trans hk
        omega
    · show bit mkfsSb (diskOf emptyFile) b = true
      rw [bit_diskOf, decide_eq_true_eq]
      exact hb
  · intro n hn ht
    show HoleFree (diskOf emptyFile) (dinodeAt mkfsSb (diskOf emptyFile) n)
    have hsize : (dinodeAt mkfsSb (diskOf emptyFile) n).size = 0 := by
      rw [dinodeAt_diskOf _ hn]
      split <;> rfl
    refine ⟨by rw [hsize]; exact Nat.zero_le _, fun bn hbn => ?_⟩
    rw [hsize] at hbn
    exact absurd hbn (Nat.not_lt_zero _)
  · show emptyFile = dinodeAt mkfsSb (diskOf emptyFile) 1
    rw [dinodeAt_diskOf _ (by decide), if_pos rfl]

/-- One block is enough for a short write, and there are free ones. -/
theorem need_smallFs (lh : List Nat) : (smallFs lh).need mkfsSb 0 (touched 0 3) ≤ (smallFs lh).free mkfsSb := by
  have hT : touched 0 3 = {0} := by decide
  have hneed : (smallFs lh).need mkfsSb 0 (touched 0 3) ≤ 1 := by
    unfold St.need
    rw [hT, if_neg (by simp), Nat.add_zero]
    exact Finset.card_filter_le {0} _
  have hfree : 0 < (smallFs lh).free mkfsSb := by
    refine Finset.card_pos.mpr ⟨59, Finset.mem_filter.mpr ⟨Finset.mem_range.mpr ?_, ?_⟩⟩
    · show 59 < 1000
      decide
    · exact (bit_diskOf _ 59).trans (by decide)
  omega

/-- The source buffer `"hi!"`. -/
def hello (i : Nat) : UInt8 := [104, 105, 33].getD i 0

/-- Three bytes are written into the empty file. -/
theorem inode_io_hello : ∃ t, writei mkfsSb (fun _ => ⟨none, none⟩) 0 hello 0 3 (smallFs []) = .ok (3, t) ∧
      content t.disk (t.icache 0).di = [104, 105, 33] := by
  have h := (inode_io (fun _ => ⟨none, none⟩) (inv_smallFs [])
    (show ((smallFs []).icache 0).locked = true from rfl) (by decide) 0 3 hello).2
  rw [if_neg (by decide)] at h
  obtain ⟨r, t, ht, hr, -, -, hc, -⟩ := (h (need_smallFs [])).returns fun e =>
    not_logStop (by decide) (by decide) e
  refine ⟨t, by rw [ht, hr]; rfl, hc.trans (by decide)⟩

/-- **A full log.**  There is a free block for the write, the request is a good one, and yet
    `writei` does not return: `log_write` panics with "too big a transaction". -/
theorem writei_log_full : let s := smallFs (List.range 29)
    Inv mkfsSb s ∧ (s.icache 0).locked = true ∧ (s.icache 0).di.type ≠ UInt16.ofNat T_DEV ∧
      1 ≤ s.log.outstanding ∧
      ¬ ((s.icache 0).di.size < 0 ∨ (0 : UInt32) + 3 < 0 ∨ MAXFILE * BSIZE < ((0 : UInt32) + 3).toNat) ∧
      s.need mkfsSb 0 (touched 0 3) ≤ s.free mkfsSb ∧
      writei mkfsSb (fun _ => ⟨none, none⟩) 0 hello 0 3 s = .error (.log .tooBig) := by
  refine ⟨inv_smallFs _, rfl, by decide, by decide, by decide, need_smallFs _, ?_⟩
  have hballoc : balloc mkfsSb (smallFs (List.range 29)) = .error (.log .tooBig) :=
    balloc_log_full (b := 59) (by decide) (by decide) ((bit_diskOf _ 59).trans (by decide))
  have hbmap : bmap mkfsSb 0 0 (smallFs (List.range 29)) = .error (.log .tooBig) := by
    unfold bmap
    rw [dif_pos (by decide), bind_of_ok (inode_eq _ 0),
      if_pos (show ((smallFs (List.range 29)).icache 0).di.addrs _ = 0 from rfl)]
    exact bind_of_error hballoc
  have hloop : writeLoop mkfsSb 0 hello 0 3 (smallFs (List.range 29)) = .error (.log .tooBig) := by
    rw [writeLoop, dif_neg (by decide)]
    exact bind_of_error hbmap
  unfold writei
  rw [bind_of_ok (inode_eq _ 0)]
  exact bind_of_error hloop

end Xv6.Fs
