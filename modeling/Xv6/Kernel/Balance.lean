/-
  Balance: every path through the functions on inodes passes on or drops each reference it gets.

  `fs.c` from `ilock` to `namex`, `create` and the read and write paths touch nothing of a process but
  the references it HOLDS.  Their ghost is that count alone (`Hold`), and each of them has a spec of one
  line: what it does to the count, for every outcome.

  These statements say nothing about the other processes: what the ghosts mean together is the business
  of the invariant, in `Kernel.Exact`.
-/
import Xv6.Kernel.Calls

namespace Xv6.Kernel

open Threads

/-! ## References held -/

/-- How many references to each entry of the inode cache a call holds. -/
abbrev Hold := Slot → Nat

namespace Hold

variable {m : Hold} {ip e : Slot}

def gain (ip : Slot) (m : Hold) : Hold := Function.update m ip (m ip + 1)

def lose (ip : Slot) (m : Hold) : Hold := Function.update m ip (m ip - 1)

theorem gain_apply (e : Slot) : gain ip m e = m e + if e = ip then 1 else 0 := by
  unfold gain
  rcases eq_or_ne e ip with rfl | he
  · rw [Function.update_self, if_pos rfl]
  · rw [Function.update_of_ne he, if_neg he, add_zero]

theorem gain_pos : 1 ≤ gain ip m ip := by
  rw [gain_apply, if_pos rfl]
  omega

theorem lose_gain : lose ip (gain ip m) = m := by
  funext e
  unfold lose
  rcases eq_or_ne e ip with rfl | he
  · rw [Function.update_self, gain_apply, if_pos rfl, Nat.add_sub_cancel]
  · rw [Function.update_of_ne he, gain_apply, if_neg he, add_zero]

theorem gain_comm (ip e : Slot) : gain ip (gain e m) = gain e (gain ip m) := by
  funext x
  simp only [gain_apply]
  omega

/-- The actions of the functions on inodes, and what they need: `ref--` is paid for with a reference
    that the call holds. -/
def pre : Act → Hold → Prop
  | .deref ip, m => 1 ≤ m ip
  | .panic _, _ | .beginOp, _ | .endOp, _ | .iget _ _, _ | .ref _, _ | .ident _, _ => True
  | .acquiresleep _ _, _ | .holdingsleep _, _ | .releasesleep _, _ | .load _, _ | .inode _, _ => True
  | .iupdate _ _, _ | .lastRef _, _ | .ifree _, _ | .ialloc _ _, _ | .file _, _ | .setOff _ _, _ => True
  | _, _ => False

def next : (a : Act) → Hold → a.R → Hold → Prop
  | .iget _ _, m, ip, m' => m' = gain ip m
  | .deref ip, m, _, m' => m' = lose ip m
  | _, m, _, m' => m' = m

/-- The same, for code that may also start at the current directory. -/
def preDup : Act → Hold → Prop
  | .cwd, _ | .idup _, _ => True
  | a, m => pre a m

def nextDup : (a : Act) → Hold → a.R → Hold → Prop
  | .idup ip, m, _, m' => m' = gain ip m
  | a, m, r, m' => next a m r m'

end Hold

/-- The code, started with the references `m`, ends in `Q`. -/
def Holds {α : Type} (m : Hold) (c : Prog α) (Q : α → Hold → Prop) : Prop :=
  wp Hold.pre Hold.next c Q m

/-- The code gives back exactly what it takes. -/
def Keeps {α : Type} (m : Hold) (c : Prog α) : Prop := Holds m c fun _ m' => m' = m

open Hold

variable {α β : Type} {m : Hold} {ip : Slot}

variable {c : Prog α} {f : α → Prog β}

theorem Holds.bind {Q : α → Hold → Prop} {Q' : β → Hold → Prop}
    (h : Holds m c Q) (hf : ∀ x m', Q x m' → Holds m' (f x) Q') : Holds m (c >>= f) Q' := wp_bind h hf

theorem Holds.ret {x : α} {Q : α → Hold → Prop} (h : Q x m) : Holds m (pure x) Q := h

variable {Q : β → Hold → Prop}

/-- An action that neither needs a reference nor makes one. -/
def Act.silent : Act → Bool
  | .panic _ | .beginOp | .endOp | .ref _ | .ident _ | .acquiresleep _ _ | .holdingsleep _ | .releasesleep _ => true
  | .load _ | .inode _ | .iupdate _ _ | .lastRef _ | .ifree _ | .ialloc _ _ | .file _ | .setOff _ _ => true
  | _ => false

theorem Holds.silent {a : Act} {f : a.R → Prog β} (ha : a.silent = true) (hf : ∀ r, Holds m (f r) Q) :
    Holds m (act a >>= f) Q := by
  have hp : Hold.pre a m := by cases a <;> trivial
  refine wp_perform hp fun r m' hm => ?_
  have hn : m' = m := by cases a <;> first | exact hm | cases ha
  rw [hn]
  exact hf r

theorem Holds.panic {e : Panic} {Q : α → Hold → Prop} : Holds m (panic e) Q :=
  ⟨trivial, fun r => by cases r⟩

theorem Holds.panic_bind {e : Panic} : Holds m (Kernel.panic e >>= f) Q := ⟨trivial, fun r => by cases r⟩

/-- After code that gives back what it takes, one is where one was. -/
theorem Keeps.bind (h : Keeps m c) (hf : ∀ x, Holds m (f x) Q) : Holds m (c >>= f) Q :=
  Holds.bind h fun x m' hm => by rw [hm]; exact hf x

theorem Keeps.pure (x : α) : Keeps m (pure x) := rfl

/-! ## Inodes -/

theorem ilock_keeps : Keeps m (ilock ip) := by
  refine Holds.silent rfl fun ref => ?_
  split
  · exact Holds.panic
  · refine Holds.silent rfl fun _ => ?_
    exact ⟨trivial, fun _ _ => id⟩

theorem iunlock_keeps : Keeps m (iunlock ip) := by
  refine Holds.silent rfl fun holding => ?_
  refine Holds.silent rfl fun ref => ?_
  split
  · exact Holds.panic
  · exact ⟨trivial, fun _ _ => id⟩

variable {site : Site}

/-- `iput` drops one reference, whether or not it frees the inode. -/
theorem iput_holds (h : 1 ≤ m ip) : Holds m (iput ip site) fun _ m' => m' = lose ip m := by
  refine Holds.silent rfl fun _ => ?_
  refine Holds.silent rfl fun last => ?_
  have hend : Holds m (act (.releasesleep ip) >>= fun _ => act (.deref ip))
      fun _ m' => m' = lose ip m :=
    Holds.silent rfl fun _ => ⟨h, fun _ _ => id⟩
  split
  · exact Holds.silent rfl fun _ => hend
  · exact hend

theorem iunlockput_holds (h : 1 ≤ m ip) : Holds m (iunlockput ip site) fun _ m' => m' = lose ip m :=
  iunlock_keeps.bind fun _ => iput_holds h

/-- The reference just got is dropped again. -/
theorem iput_gain {f : Unit → Prog β} (hf : Holds m (f ()) Q) : Holds (gain ip m) (iput ip site >>= f) Q :=
  (iput_holds gain_pos).bind fun _ m' hm => by rw [hm, lose_gain]; exact hf

theorem iunlockput_gain {f : Unit → Prog β} (hf : Holds m (f ()) Q) : Holds (gain ip m) (iunlockput ip site >>= f) Q :=
  (iunlockput_holds gain_pos).bind fun _ m' hm => by rw [hm, lose_gain]; exact hf

theorem iallocLoop_holds (dev : Nat) (type : IType) (inums : List Nat) :
    Holds m (iallocLoop dev type inums) fun ip m' => m' = gain ip m := by
  induction inums with
  | nil => exact Holds.panic
  | cons inum rest ih =>
    refine Holds.silent rfl fun free => ?_
    split
    · exact ⟨trivial, fun _ _ => id⟩
    · exact ih

theorem ialloc_holds (dev : Nat) (type : IType) :
    Holds m (ialloc dev type) fun ip m' => m' = gain ip m := iallocLoop_holds dev type _

/-! ## Directories and paths -/

/-- What a search makes of the references: one more, to the inode found. -/
def Found (m : Hold) {γ : Type} : Option (Slot × γ) → Hold → Prop
  | some (ip, _), m' => m' = gain ip m
  | none, m' => m' = m

theorem dirlookup_holds (dp : Slot) (name : Name) : Holds m (dirlookup dp name) (Found m) := by
  refine Holds.silent rfl fun v => ?_
  split
  · exact Holds.panic
  · split
    · refine Holds.silent rfl fun dev => ?_
      refine wp_perform trivial ?_
      rintro ip _ rfl
      exact Holds.ret rfl
    · split
      · exact Holds.panic
      · exact Holds.ret rfl

theorem dirlink_keeps (dp : Slot) (name : Name) (inum : Nat) : Keeps m (dirlink dp name inum) := by
  refine (dirlookup_holds dp name).bind ?_
  rintro (- | ⟨ip, k⟩) m' rfl
  · refine Holds.silent rfl fun v => ?_
    dsimp only
    split
    · exact Holds.panic
    · split
      · exact Holds.panic
      · exact Holds.silent rfl fun _ => Holds.ret rfl
  · exact iput_gain (Holds.ret rfl)

/-- The loop of `namex`, entered with a reference to `ip`. -/
theorem walk_holds (parent : Bool) (names : List Name) (ip : Slot) (name : Name) :
    Holds (gain ip m) (walk parent names ip name) (Found m) := by
  induction names generalizing ip name with
  | nil =>
    unfold walk
    split
    · exact iput_gain (Holds.ret rfl)
    · exact Holds.ret rfl
  | cons n rest ih =>
    refine ilock_keeps.bind fun _ => ?_
    refine Holds.silent rfl fun v => ?_
    split
    · exact iunlockput_gain (Holds.ret rfl)
    · split
      · exact iunlock_keeps.bind fun _ => Holds.ret rfl
      · refine (dirlookup_holds ip n).bind ?_
        rintro (- | ⟨next, k⟩) m' rfl
        · exact iunlockput_gain (Holds.ret rfl)
        · -- the reference to `next` is what is left
          rw [gain_comm]
          exact iunlockput_gain (ih next n)

/-- `namex` returns one reference more, to the inode it returns, or none. -/
theorem namex_dup (path : List UInt8) (parent : Bool) : wp preDup nextDup (namex path parent) (Found m) m := by
  have hwalk : ∀ ip, wp preDup nextDup (walk parent (pathElems path) ip (.ofBytes [])) (Found m)
      (gain ip m) := by
    intro ip
    refine wp_mono (wp_sim (fun m d => d = m) ?_ rfl (walk_holds parent _ ip _)) ?_
    · rintro a m _ rfl hpre
      cases a
      case idup | cwd => exact hpre.elim
      all_goals exact ⟨hpre, fun r d hd => ⟨d, hd, rfl⟩⟩
    · rintro r _ ⟨m', hm, rfl⟩
      exact hm
  unfold namex pathStart
  split
  · refine wp_perform trivial ?_
    rintro ip _ rfl
    exact hwalk ip
  · refine wp_perform trivial ?_
    rintro ip _ rfl
    refine wp_perform trivial ?_
    rintro _ _ rfl
    exact hwalk ip

/-! ## Creating and linking -/

/-- What a call makes of the references when it returns an inode, or none. -/
def Got (m : Hold) : Option Slot → Hold → Prop
  | some ip, m' => m' = gain ip m
  | none, m' => m' = m

/-- `createNew`, entered with a reference to `dp`, leaves with one to the new inode. -/
theorem createNew_holds (dp : Slot) (name : Name) (type : IType) (major minor : Int) :
    Holds (gain dp m) (createNew dp name type major minor) (Got m) := by
  refine Holds.silent rfl fun dev => ?_
  refine (ialloc_holds dev.1 type).bind ?_
  rintro ip _ rfl
  refine ilock_keeps.bind fun _ => ?_
  refine Holds.silent rfl fun v => ?_
  refine Holds.silent rfl fun _ => ?_
  refine Holds.silent rfl fun ident => ?_
  have hend : Holds (gain ip (gain dp m)) (do
      if (← dirlink dp name ident.2) = false then panic .createDirlink
      else
        iunlockput dp .iputHolding
        return some ip) (Got m) := by
    refine (dirlink_keeps dp name ident.2).bind fun linked => ?_
    split
    · exact Holds.panic
    · rw [gain_comm]
      exact iunlockput_gain (Holds.ret rfl)
  dsimp only
  split
  · refine Holds.silent rfl fun d => ?_
    refine Holds.silent rfl fun _ => ?_
    refine (dirlink_keeps ip dot _).bind fun linked => ?_
    split
    · exact Holds.panic_bind
    · refine (dirlink_keeps ip dotdot _).bind fun linked' => ?_
      split
      · exact Holds.panic_bind
      · exact hend
  · exact hend

/-- The label `bad` of `sys_link`, entered with a reference to `ip`. -/
theorem linkBad_holds : Holds (gain ip m) (linkBad ip) fun _ m' => m' = m := by
  refine ilock_keeps.bind fun _ => ?_
  refine Holds.silent rfl fun v => ?_
  refine Holds.silent rfl fun _ => ?_
  refine iunlockput_gain ?_
  exact Holds.silent rfl fun _ => Holds.ret rfl

/-- The label `bad` of `sys_unlink`, entered with a reference to `dp`. -/
theorem unlinkBad_holds {dp : Slot} : Holds (gain dp m) (unlinkBad dp) fun _ m' => m' = m :=
  iunlockput_gain (Holds.silent rfl fun _ => Holds.ret rfl)

/-! ## Reading and writing -/

theorem console_keeps (r : Int) : Keeps m (console ip r) :=
  iunlock_keeps.bind fun _ => ilock_keeps.bind fun _ => Holds.ret rfl

theorem filestat_keeps (f : FileId) : Keeps m (filestat f) := by
  refine Holds.silent rfl fun ff => ?_
  split
  · refine ilock_keeps.bind fun _ => ?_
    refine Holds.silent rfl fun v => ?_
    exact iunlock_keeps.bind fun _ => Holds.ret rfl
  · exact Holds.ret rfl

/-- The end of `fileread` and of a round of `filewrite`: move the offset, unlock. -/
theorem setOff_keeps {f : FileId} {off : Nat} {r : Int} {Q : α → Hold → Prop} (hc : Holds m c Q) : Holds m (do
      if 0 < r then act (.setOff f (off + r.toNat))
      iunlock ip
      c) Q := by
  split
  · exact Holds.silent rfl fun _ => iunlock_keeps.bind fun _ => hc
  · exact iunlock_keeps.bind fun _ => hc

theorem fileread_keeps (f : FileId) (n : Nat) (input : Int) : Keeps m (fileread f n input) := by
  refine Holds.silent rfl fun ff => ?_
  split
  · exact Holds.ret rfl
  · split
    · exact Holds.ret rfl
    · exact Holds.panic
    · refine ilock_keeps.bind fun _ => ?_
      refine Holds.silent rfl fun v => ?_
      refine Holds.silent rfl fun ff' => ?_
      dsimp only
      split
      · split
        · exact (console_keeps input).bind fun r => setOff_keeps (Holds.ret rfl)
        · exact (Keeps.pure _).bind fun r => setOff_keeps (Holds.ret rfl)
      · split <;> exact (Keeps.pure _).bind fun r => setOff_keeps (Holds.ret rfl)

theorem filewriteChunk_keeps (f : FileId) (ip : Slot) (src : List UInt8) : Keeps m (filewriteChunk f ip src) := by
  refine Holds.silent rfl fun _ => ?_
  refine ilock_keeps.bind fun _ => ?_
  refine Holds.silent rfl fun v => ?_
  refine Holds.silent rfl fun ff => ?_
  have hend : ∀ r : Int, Holds m (act .endOp >>= fun _ => pure r) fun _ m' => m' = m :=
    fun r => Holds.silent rfl fun _ => Holds.ret rfl
  dsimp only
  split
  · split
    · exact (console_keeps _).bind fun r => setOff_keeps (hend r)
    · exact (Keeps.pure _).bind fun r => setOff_keeps (hend r)
  · split
    · exact (Keeps.pure _).bind fun r => setOff_keeps (hend r)
    · refine Holds.silent rfl fun _ => ?_
      exact (Keeps.pure _).bind fun r => setOff_keeps (hend r)

theorem filewriteLoop_keeps (f : FileId) (ip : Slot) (chunks : List (List UInt8)) :
    Keeps m (filewriteLoop f ip chunks) := by
  induction chunks with
  | nil => exact Holds.ret rfl
  | cons src rest ih =>
    refine (filewriteChunk_keeps f ip src).bind fun r => ?_
    split
    · exact Holds.ret rfl
    · split
      · exact Holds.panic
      · exact ih

theorem filewrite_keeps (f : FileId) (src : List UInt8) : Keeps m (filewrite f src) := by
  refine Holds.silent rfl fun ff => ?_
  split
  · exact Holds.ret rfl
  · split
    · exact Holds.ret rfl
    · exact Holds.panic
    · refine (filewriteLoop_keeps f ff.ip _).bind fun done => ?_
      split <;> exact Holds.ret rfl

end Xv6.Kernel
