/-
  What a system call knows, and that it leaves as it came.

  The ghost of a call (`Know`) has the references it holds to inodes and owns to files, its descriptors
  and directory, the files it has not yet initialised, and the child it is making.

  1. **Needs and effects** (`Know.needs`, `Know.next`) — one line per action.
  2. **Change of ghosts** (`Holds.lift`) — the specs of `Kernel.Balance` hold for a call that knows more.
  3. **The calls** (`Call.balanced`) — entered with nothing in hand, every call ends with nothing in
     hand: no inode held, no child half made, and each file reference it owns in one descriptor.
-/
import Xv6.Kernel.Balance
import Xv6.Lib.Counting

namespace Xv6.Kernel

open Threads Counting Hold
open Function (update update_idem update_self update_apply update_of_ne update_eq_self)

variable {α β : Type}

/-! ## What a call knows -/

/-- A process that `fork` is making. -/
structure Child where
  np : Pid
  ofile : Fd → Option FileId
  cwd : Option Slot

/-- What a process in a call knows: the references it holds to inodes and owns to files, its own
    descriptors and directory, the files it has not yet initialised, and its child. -/
structure Know where
  held : Hold
  cwd : Option Slot
  gone : Bool
  own : FileId → Int
  ofile : Fd → Option FileId
  fresh : FileId → Bool
  child : Option Child
  dead : Bool

namespace Know

/-- One more reference to `f`. -/
def take (f : FileId) (g : Know) : Know := { g with own := update g.own f (g.own f + 1) }

/-- One reference to `f` less. -/
def drop (f : FileId) (g : Know) : Know :=
  { g with own := update g.own f (g.own f - 1), fresh := update g.fresh f false }

/-- A file just allocated: nobody else has it, and it is not initialised. -/
def alloc (f : FileId) (g : Know) : Know := { g.take f with fresh := update g.fresh f true }

/-- The file is initialised. -/
def settle (f : FileId) (g : Know) : Know := { g with fresh := update g.fresh f false }

def setOfile (fd : Fd) (o : Option FileId) (g : Know) : Know :=
  { g with ofile := update g.ofile fd o }

def withHeld (g : Know) (m : Hold) : Know := { g with held := m }

/-- What the actions need.  Those that the functions on inodes use need what they need there. -/
def needs : Act → Know → Prop
  | .idup ip, g => g.cwd = some ip ∧ g.gone = false
  | .filedup f, g | .fileclose f, g => 1 ≤ g.own f
  | .openFile f ip _ _, g => g.fresh f = true ∧ 1 ≤ g.held ip
  | .pipeFile f _, g => g.fresh f = true
  | .takeCwd, g => g.gone = false
  | .setCwd (some ip), g => g.gone = true ∧ 1 ≤ g.held ip
  | .setCwd none, g => g.gone = true
  | .allocproc, g | .wait, g => g.child = none
  | .freeproc np, g => g.child = some ⟨np, fun _ => none, none⟩
  | .childOfile np fd f, g => (∃ c, g.child = some c ∧ c.np = np ∧ c.ofile fd = none) ∧ 1 ≤ g.own f
  | .childCwd np ip, g => (∃ c, g.child = some c ∧ c.np = np ∧ c.cwd = none) ∧ 1 ≤ g.held ip
  | .start np, g => ∃ c, g.child = some c ∧ c.np = np
  | .zombie, g => g.cwd = none ∧ g.ofile = fun _ => none
  | .filealloc, _ | .myproc, _ | .ofile _, _ | .setOfile _ _, _ | .fdalloc _, _ | .cwd, _ => True
  | .adopt _, _ => True
  | a, g => Hold.pre a g.held

/-- A process that has become a zombie does nothing any more. -/
def pre (a : Act) (g : Know) : Prop := g.dead = false ∧ needs a g

def next : (a : Act) → Know → a.R → Know → Prop
  | .idup ip, g, _, g' => g' = g.withHeld (gain ip g.held)
  | .filealloc, g, some f, g' => g.own f = 0 ∧ g' = g.alloc f
  | .filealloc, g, none, g' => g' = g
  | .filedup f, g, _, g' => g' = g.take f
  | .fileclose f, g, some ff, g' =>
    g' = (g.drop f).withHeld (if ff.type = .inode then gain ff.ip g.held else g.held)
  | .fileclose f, g, none, g' => g' = g.drop f
  | .openFile f ip _ _, g, _, g' => g' = (g.withHeld (lose ip g.held)).settle f
  | .pipeFile f _, g, _, g' => g' = g.settle f
  | .ofile fd, g, r, g' => r = g.ofile fd ∧ g' = g
  | .setOfile fd o, g, _, g' => g' = g.setOfile fd o
  | .fdalloc f, g, some fd, g' => g.ofile fd = none ∧ g' = g.setOfile fd (some f)
  | .fdalloc _, g, none, g' => g' = g
  | .cwd, g, r, g' => g.cwd = some r ∧ g' = g
  | .takeCwd, g, r, g' => g.cwd = some r ∧ g' = { g.withHeld (gain r g.held) with gone := true }
  | .setCwd (some ip), g, _, g' =>
    g' = { g.withHeld (lose ip g.held) with cwd := some ip, gone := false }
  | .setCwd none, g, _, g' => g' = { g with cwd := none, gone := false }
  | .allocproc, g, some np, g' => g' = { g with child := some ⟨np, fun _ => none, none⟩ }
  | .allocproc, g, none, g' => g' = g
  | .freeproc _, g, _, g' | .start _, g, _, g' => g' = { g with child := none }
  | .childOfile _ fd f, g, _, g' =>
    g' = { g.drop f with child := g.child.map fun c => { c with ofile := update c.ofile fd (some f) } }
  | .childCwd _ ip, g, _, g' =>
    g' = { g.withHeld (lose ip g.held) with child := g.child.map fun c => { c with cwd := some ip } }
  | .zombie, g, _, g' => g' = { g with dead := true }
  | a, g, r, g' => ∃ m, Hold.next a g.held r m ∧ g' = g.withHeld m

end Know

/-- The code, started with the knowledge `g`, ends in `Q`. -/
def Knows (g : Know) (c : Prog α) (Q : α → Know → Prop) : Prop := wp Know.pre Know.next c Q g

section

variable {g : Know} {c : Prog α} {k : α → Prog β} {Q : α → Hold → Prop} {Q' : β → Know → Prop}

theorem Knows.bind {P : α → Know → Prop} (h : Knows g c P)
    (hf : ∀ x g', P x g' → Knows g' (k x) Q') : Knows g (c >>= k) Q' := wp_bind h hf

theorem Knows.mono {P P' : α → Know → Prop} (h : Knows g c P) (hP : ∀ x g', P x g' → P' x g') :
    Knows g c P' := wp_mono h hP

/-- **Change of ghosts**: what holds for the references alone holds for a call that knows more. -/
theorem Holds.lift (hd : g.dead = false) (h : Holds g.held c Q) :
    Knows g c fun x g' => ∃ m, Q x m ∧ g' = g.withHeld m := by
  refine wp_sim (fun m g' => g' = g.withHeld m) ?_ (show g = g.withHeld g.held from rfl) h
  rintro a m _ rfl hpre
  cases a
  -- an action of the functions on inodes changes the references alone; no other meets `Hold.pre`
  case idup | filealloc | filedup | fileclose | openFile | pipeFile | myproc | ofile | setOfile
    | fdalloc | cwd | takeCwd | setCwd | allocproc | freeproc | adopt | childOfile | childCwd
    | start | zombie | wait => exact hpre.elim
  all_goals
    refine ⟨⟨hd, hpre⟩, ?_⟩
    rintro r _ ⟨m', hm', rfl⟩
    exact ⟨m', hm', rfl⟩

/-- The same, with what comes after. -/
theorem Holds.then (h : Holds g.held c Q) (hd : g.dead = false)
    (hf : ∀ x m, Q x m → Knows (g.withHeld m) (k x) Q') : Knows g (c >>= k) Q' :=
  (h.lift hd).bind fun x _ ⟨m, hm, hg⟩ => hg ▸ hf x m hm

/-- An action. -/
theorem Knows.act {a : Act} {k : a.R → Prog β} (hd : g.dead = false) (hn : Know.needs a g)
    (hk : ∀ r g', Know.next a g r g' → Knows g' (k r) Q') : Knows g (Kernel.act a >>= k) Q' :=
  wp_perform ⟨hd, hn⟩ hk

end

/-! ## Descriptors -/

/-- How many descriptors of a table refer to file `f`. -/
def slots (ofile : Fd → Option FileId) (f : FileId) : Int := ∑ fd, if ofile fd = some f then 1 else 0

section

variable {o : Fd → Option FileId} {fd : Fd} {f : FileId}

theorem slots_nonneg (o : Fd → Option FileId) (f : FileId) : 0 ≤ slots o f :=
  Finset.sum_nonneg fun fd _ => by split <;> decide

theorem slots_pos (h : o fd = some f) : 1 ≤ slots o f := by
  have h1 := le_sum (f := fun fd => if o fd = some f then (1 : Int) else 0) (fun fd => by split <;> decide) fd
  rw [if_pos h] at h1
  exact h1

/-- One descriptor is overwritten. -/
theorem slots_update (v : Option FileId) (e : FileId) : slots (update o fd v) e =
    slots o e - (if o fd = some e then 1 else 0) + if v = some e then 1 else 0 := by
  have h := sum_change (f := fun j => if o j = some e then (1 : Int) else 0)
    (g := fun j => if update o fd v j = some e then (1 : Int) else 0) fd
    fun j hj => by simp only [update_of_ne hj]
  rw [update_self] at h
  exact h

theorem slots_store (h : o fd = none) : slots (update o fd (some f)) = update (slots o) f (slots o f + 1) := by
  funext e
  rw [slots_update, h, if_neg nofun]
  rcases eq_or_ne e f with rfl | he
  · rw [update_self, if_pos rfl]
    omega
  · rw [update_of_ne he, if_neg fun h => he (Option.some.inj h).symm]
    omega

theorem slots_clear (h : o fd = some f) : slots (update o fd none) = update (slots o) f (slots o f - 1) := by
  funext e
  rw [slots_update, h, if_neg (nofun : ¬ (none : Option FileId) = some e)]
  rcases eq_or_ne e f with rfl | he
  · rw [update_self, if_pos rfl]
    omega
  · rw [update_of_ne he, if_neg fun h => he (Option.some.inj h).symm]
    omega

theorem slots_none (f : FileId) : slots (fun _ => none) f = 0 :=
  Finset.sum_eq_zero fun _ _ => if_neg nofun

end

/-! ## Nothing in hand -/

/-- How a call may end: nothing in hand. -/
structure Know.Done (g : Know) : Prop where
  own : g.own = slots g.ofile
  held : g.held = fun _ => 0
  gone : g.gone = false
  child : g.child = none

/-- How a call is entered. -/
structure Know.Ready (g : Know) : Prop extends g.Done where
  alive : g.dead = false

/-- The code, started with the knowledge `g`, ends with nothing in hand. -/
abbrev Balanced (g : Know) (c : Prog α) : Prop := Knows g c fun _ => Know.Done

variable {g : Know} {m : Hold}

/-- A new reference, dropped again. -/
theorem drop_take {f : FileId} : ((g.take f).drop f).own = g.own := by
  funext e
  simp only [Know.drop, Know.take, update_self, update_idem]
  rcases eq_or_ne e f with rfl | he
  · rw [update_self, add_sub_cancel_right]
  · rw [update_of_ne he]

/-- A call that owns the two ends of a pipe. -/
def Know.ends (rf wf : FileId) (fr : FileId → Bool) (g : Know) : Know :=
  { (g.take rf).take wf with fresh := fr }

theorem settle_ends {rf wf f : FileId} {fr : FileId → Bool} :
    (g.ends rf wf fr).settle f = g.ends rf wf (update fr f false) := rfl

/-- A descriptor is taken and given back. -/
theorem setOfile_undo {fd : Fd} {o : Option FileId} (h : g.ofile fd = none) :
    (g.setOfile fd o).setOfile fd none = g := by
  simp only [Know.setOfile, update_idem, ← h, update_eq_self]

/-- Most calls start with `begin_op`. -/
theorem beginOp_bind {k : Unit → Prog α} {Q : α → Know → Prop} (hd : g.dead = false)
    (hk : Knows g (k ()) Q) : Knows g (act .beginOp >>= k) Q := by
  refine Knows.act hd trivial ?_
  rintro _ _ ⟨_, rfl, rfl⟩
  exact hk

/-- Most calls end with `end_op`. -/
theorem endOp_holds (r : Int) : Holds m (act .endOp >>= fun _ => pure r) fun _ m' => m' = m :=
  Holds.silent rfl fun _ => Holds.ret rfl

/-- Code that works on inodes only, and gives back what was taken before it. -/
theorem Know.Ready.finish {c : Prog α} (h : g.Ready) (hc : Holds m c fun _ m' => m' = g.held) :
    Balanced (g.withHeld m) c := by
  refine (Holds.lift (g := g.withHeld m) h.alive hc).mono ?_
  rintro x _ ⟨m', rfl, rfl⟩
  exact h.toDone

/-! ## Paths -/

section

variable (hd : g.dead = false) (hg : g.gone = false) (path : List UInt8)

include hd hg path

theorem pathStart_knows : Knows g (pathStart path) fun ip g' => g' = g.withHeld (gain ip g.held) := by
  unfold pathStart
  split
  · refine ⟨⟨hd, trivial⟩, ?_⟩
    rintro ip _ ⟨m, rfl, rfl⟩
    rfl
  · refine Knows.act hd trivial ?_
    rintro cwd _ ⟨hcwd, rfl⟩
    refine Knows.act hd ⟨hcwd, hg⟩ ?_
    rintro _ _ rfl
    rfl

/-- `namex` returns one reference more, or none. -/
theorem namex_knows (parent : Bool) :
    Knows g (namex path parent) fun r g' => ∃ m, Found g.held r m ∧ g' = g.withHeld m := by
  refine (pathStart_knows hd hg path).bind ?_
  rintro ip _ rfl
  exact (walk_holds parent _ ip _).lift hd

theorem namei_knows : Knows g (namei path) fun r g' => ∃ m, Got g.held r m ∧ g' = g.withHeld m := by
  refine (namex_knows hd hg path false).bind ?_
  rintro (- | ⟨ip, name⟩) _ ⟨m, hm, rfl⟩
  · exact ⟨m, hm, rfl⟩
  · exact ⟨m, hm, rfl⟩

/-- `create` returns one reference more, or none. -/
theorem create_knows (type : IType) (major minor : Int) : Knows g (create path type major minor)
      fun r g' => ∃ m, Got g.held r m ∧ g' = g.withHeld m := by
  refine (namex_knows hd hg path true).bind ?_
  rintro (- | ⟨dp, name⟩) _ ⟨_, rfl, rfl⟩
  · exact ⟨_, rfl, rfl⟩
  · refine Holds.lift (g := g.withHeld (gain dp g.held)) hd ?_
    refine ilock_keeps.bind fun _ => ?_
    refine (dirlookup_holds dp name).bind ?_
    rintro (- | ⟨ip, k⟩) _ rfl
    · exact createNew_holds dp name type major minor
    · show Holds (gain ip (gain dp g.held)) _ _
      rw [gain_comm]
      refine iunlockput_gain ?_
      refine ilock_keeps.bind fun _ => ?_
      refine Holds.silent rfl fun v => ?_
      split
      · exact Holds.ret rfl
      · exact iunlockput_gain (Holds.ret rfl)

/-! ## Calls on descriptors -/

end

theorem argfd_knows (hd : g.dead = false) (fd : Nat) : Knows g (argfd fd) fun r g' =>
    g' = g ∧ ∀ fd' f, r = some (fd', f) → g.ofile fd' = some f := by
  unfold argfd
  split
  · rename_i h
    refine Knows.act hd trivial ?_
    rintro (- | f) _ ⟨hf, rfl⟩
    · exact ⟨rfl, nofun⟩
    · refine ⟨rfl, ?_⟩
      rintro _ _ ⟨⟩
      exact hf.symm
  · exact ⟨rfl, nofun⟩

/-- `fileclose` drops one reference to the file, and no reference to an inode stays behind. -/
theorem fileclose_knows (hd : g.dead = false) {f : FileId} (hf : 1 ≤ g.own f) :
    Knows g (fileclose f) fun _ g' => g' = g.drop f := by
  refine Knows.act hd hf ?_
  rintro (- | ff) _ rfl
  · rfl
  · cases ht : ff.type with
    | inode =>
      simp only [ht, if_true]
      have hput : Holds (gain ff.ip g.held) (do
          act .beginOp
          iput ff.ip .iput
          act .endOp) fun _ m' => m' = g.held :=
        Holds.silent rfl fun _ => iput_gain ⟨trivial, fun _ _ => id⟩
      refine (Holds.lift (g := (g.drop f).withHeld (gain ff.ip g.held)) hd hput).mono ?_
      rintro _ _ ⟨_, rfl, rfl⟩
      rfl
    | none | pipe =>
      simp only [ht, reduceCtorEq, if_false]
      rfl

section

variable (h : g.Ready)

include h

/-- A call on a descriptor. -/
theorem argfd_bind {fd : Nat} {k : Option (Fd × FileId) → Prog Int}
    (hnone : Balanced g (k none))
    (hsome : ∀ fd' f, g.ofile fd' = some f → Balanced g (k (some (fd', f)))) :
    Balanced g (argfd fd >>= k) := by
  refine (argfd_knows h.alive fd).bind ?_
  rintro (- | ⟨fd', f⟩) _ ⟨rfl, hf⟩
  · exact hnone
  · exact hsome fd' f (hf fd' f rfl)

/-- The reference in a descriptor is the call's to use. -/
theorem Know.Ready.own_pos {fd : Fd} {f : FileId} (hf : g.ofile fd = some f) : 1 ≤ g.own f := by
  rw [h.own]
  exact slots_pos hf

theorem sysDup_balanced (fd : Nat) : Balanced g (sysDup fd) := by
  refine argfd_bind h h.toDone fun fd' f hf => ?_
  refine Knows.act h.alive trivial ?_
  rintro (- | new) g' hg'
  · rw [show g' = g from hg']
    exact h.toDone
  · obtain ⟨hnew, rfl⟩ := hg'
    refine Knows.act h.alive (h.own_pos hf) ?_
    rintro _ _ rfl
    refine ⟨?_, h.held, h.gone, h.child⟩
    show update g.own f (g.own f + 1) = slots (update g.ofile new (some f))
    rw [h.own, slots_store hnew]

theorem sysClose_balanced (fd : Nat) : Balanced g (sysClose fd) := by
  refine argfd_bind h h.toDone fun fd' f hf => ?_
  refine Knows.act h.alive trivial ?_
  rintro _ _ rfl
  refine (fileclose_knows (g := g.setOfile fd' none) h.alive (h.own_pos hf)).bind ?_
  rintro _ _ rfl
  refine ⟨?_, h.held, h.gone, h.child⟩
  show update g.own f (g.own f - 1) = slots (update g.ofile fd' none)
  rw [h.own, slots_clear hf]

theorem sysRead_balanced (fd n : Nat) (input : Int) : Balanced g (sysRead fd n input) :=
  argfd_bind h h.toDone fun _ f _ => h.finish (fileread_keeps f n input)

theorem sysWrite_balanced (fd : Nat) (src : List UInt8) : Balanced g (sysWrite fd src) :=
  argfd_bind h h.toDone fun _ f _ => h.finish (filewrite_keeps f src)

theorem sysFstat_balanced (fd : Nat) : Balanced g (sysFstat fd) := by
  refine argfd_bind h h.toDone fun _ f _ => h.finish ?_
  refine (filestat_keeps f).bind fun ok => ?_
  split <;> exact Holds.ret rfl

/-! ## Calls on paths -/

/-- A call that looks up a path, and works on the inode it finds. -/
theorem namei_bind {path : List UInt8} {k : Option Slot → Prog Int}
    (hnone : Holds g.held (k none) fun _ m' => m' = g.held)
    (hsome : ∀ ip, Holds (gain ip g.held) (k (some ip)) fun _ m' => m' = g.held) :
    Balanced g (namei path >>= k) := by
  refine (namei_knows h.alive h.gone path).bind ?_
  rintro (- | ip) _ ⟨_, rfl, rfl⟩
  · exact h.finish hnone
  · exact h.finish (hsome ip)

/-- A call that looks up a path, and goes on with the inode locked. -/
theorem namei_locked {path : List UInt8} {k : Option Slot → Prog Int} {body : Slot → Ino → Prog Int}
    (hnone : Holds g.held (k none) fun _ m' => m' = g.held)
    (hsome : ∀ ip, k (some ip) = ilock ip >>= fun _ => act (.inode ip) >>= body ip)
    (hbody : ∀ ip v, Balanced (g.withHeld (gain ip g.held)) (body ip v)) :
    Balanced g (namei path >>= k) := by
  refine (namei_knows h.alive h.gone path).bind ?_
  rintro (- | ip) _ ⟨_, rfl, rfl⟩
  · exact h.finish hnone
  · rw [hsome]
    refine Holds.then (g := g.withHeld (gain ip g.held)) ilock_keeps h.alive ?_
    rintro _ _ rfl
    refine Knows.act h.alive trivial ?_
    rintro v _ ⟨_, rfl, rfl⟩
    exact hbody ip v

theorem nameiparent_bind {path : List UInt8} {k : Option (Slot × Name) → Prog Int}
    (hnone : Holds g.held (k none) fun _ m' => m' = g.held)
    (hsome : ∀ dp name, Holds (gain dp g.held) (k (some (dp, name))) fun _ m' => m' = g.held) :
    Balanced g (nameiparent path >>= k) := by
  refine (namex_knows h.alive h.gone path true).bind ?_
  rintro (- | ⟨dp, name⟩) _ ⟨_, rfl, rfl⟩
  · exact h.finish hnone
  · exact h.finish (hsome dp name)

theorem sysUnlink_balanced (path : Option (List UInt8)) :
    Balanced g (sysUnlink path) := by
  cases path with
  | none => exact h.toDone
  | some path =>
    refine beginOp_bind h.alive (nameiparent_bind h (endOp_holds _) fun dp name => ?_)
    refine ilock_keeps.bind fun _ => ?_
    split
    · exact unlinkBad_holds
    · refine (dirlookup_holds dp name).bind ?_
      rintro (- | ⟨ip, k⟩) _ rfl
      · exact unlinkBad_holds
      · refine ilock_keeps.bind fun _ => ?_
        refine Holds.silent rfl fun v => ?_
        split
        · exact Holds.panic
        split
        · exact iunlockput_gain unlinkBad_holds
        split
        · exact Holds.panic
        refine Holds.silent rfl fun d => ?_
        split
        · exact Holds.panic
        refine Holds.silent rfl fun _ => ?_
        -- both inodes are put, `dp` first
        have hend : Holds (gain ip (gain dp g.held)) (do
            iunlockput dp .iputHolding
            let v ← act (.inode ip)
            act (.iupdate ip { v with nlink := cShort (v.nlink - 1) })
            iunlockput ip .iput
            act .endOp
            return (0 : Int)) fun _ m' => m' = g.held := by
          rw [gain_comm]
          refine iunlockput_gain ?_
          refine Holds.silent rfl fun v => ?_
          refine Holds.silent rfl fun _ => ?_
          exact iunlockput_gain (endOp_holds _)
        dsimp only
        split
        · refine Holds.silent rfl fun d => ?_
          exact Holds.silent rfl fun _ => hend
        · exact hend

theorem sysLink_balanced (old new : Option (List UInt8)) :
    Balanced g (sysLink old new) := by
  unfold sysLink
  split
  · rename_i old new
    refine beginOp_bind h.alive ?_
    refine namei_locked h (endOp_holds _) (fun _ => rfl) fun ip v => ?_
    dsimp only
    split
    · exact h.finish (iunlockput_gain (endOp_holds _))
    · refine Knows.act h.alive trivial ?_
      rintro _ _ ⟨_, rfl, rfl⟩
      refine Holds.then (g := g.withHeld (gain ip g.held)) iunlock_keeps h.alive ?_
      rintro _ _ rfl
      refine (namex_knows (g := g.withHeld (gain ip g.held)) h.alive h.gone new true).bind ?_
      rintro (- | ⟨dp, name⟩) _ ⟨_, rfl, rfl⟩
      · exact h.finish linkBad_holds
      · refine h.finish (m := gain dp (gain ip g.held)) ?_
        refine ilock_keeps.bind fun _ => ?_
        refine Holds.silent rfl fun ident => ?_
        refine Holds.silent rfl fun ident' => ?_
        have hend : ∀ linked : Bool, Holds (gain dp (gain ip g.held)) (do
            if linked then
              iunlockput dp .iput
              iput ip .iput
              act .endOp
              return (0 : Int)
            else
              iunlockput dp .iput
              linkBad ip) fun _ m' => m' = g.held := by
          intro linked
          split
          · exact iunlockput_gain (iput_gain (endOp_holds _))
          · exact iunlockput_gain linkBad_holds
        split
        · exact (Keeps.pure _).bind hend
        · exact (dirlink_keeps dp name _).bind hend
  · exact h.toDone

/-- `sys_mkdir` and `sys_mknod`. -/
theorem sysCreate_balanced (path : Option (List UInt8)) (type : IType)
    (major minor : Int) : Balanced g (sysCreate path type major minor) := by
  refine beginOp_bind h.alive ?_
  cases path with
  | none => exact h.finish (endOp_holds _)
  | some path =>
    refine (create_knows h.alive h.gone path type major minor).bind ?_
    rintro (- | ip) _ ⟨_, rfl, rfl⟩
    · exact h.finish (endOp_holds _)
    · exact h.finish (iunlockput_gain (endOp_holds _))

theorem sysExec_balanced (path : Option (List UInt8)) (loads : Bool) :
    Balanced g (sysExec path loads) := by
  cases path with
  | none => exact h.toDone
  | some path =>
    refine beginOp_bind h.alive (namei_bind h (endOp_holds _) fun ip => ?_)
    refine ilock_keeps.bind fun _ => ?_
    refine Holds.silent rfl fun v => ?_
    exact iunlockput_gain (endOp_holds _)

/-- `sys_chdir`: the reference to the new directory goes into `cwd`, the one to the old is dropped. -/
theorem sysChdir_balanced (path : Option (List UInt8)) : Balanced g (sysChdir path) := by
  refine beginOp_bind h.alive ?_
  cases path with
  | none => exact h.finish (endOp_holds _)
  | some path =>
    refine namei_locked h (endOp_holds _) (fun _ => rfl) fun ip v => ?_
    split
    · exact h.finish (iunlockput_gain (endOp_holds _))
    · refine Holds.then (g := g.withHeld (gain ip g.held)) iunlock_keeps h.alive ?_
      rintro _ _ rfl
      refine Knows.act h.alive h.gone ?_
      rintro old _ ⟨-, rfl⟩
      refine Holds.then (g := { g.withHeld (gain old (gain ip g.held)) with gone := true })
        (iput_holds gain_pos) h.alive ?_
      rintro _ _ rfl
      refine Knows.act h.alive trivial ?_
      rintro _ _ ⟨_, rfl, rfl⟩
      refine Knows.act h.alive ⟨rfl, ?_⟩ ?_
      · show 1 ≤ lose old (gain old (gain ip g.held)) ip
        rw [lose_gain]
        exact gain_pos
      rintro _ _ rfl
      refine ⟨h.own, ?_, rfl, h.child⟩
      show lose ip (lose old (gain old (gain ip g.held))) = _
      rw [lose_gain, lose_gain, h.held]

/-! ## Calls that make files -/

theorem Know.Ready.take_pos (f : FileId) : 1 ≤ (g.take f).own f := by
  show 1 ≤ update g.own f (g.own f + 1) f
  rw [update_self, h.own]
  have := slots_nonneg g.ofile f
  omega

/-- `sys_open` from the locked inode on: the reference goes into the new file, or is dropped. -/
theorem openFile_balanced (ip : Slot) (omode : UInt32) :
    Balanced (g.withHeld (gain ip g.held)) (openFile ip omode) := by
  have hfailed : ∀ g' : Know, g'.Ready → Balanced (g'.withHeld (gain ip g'.held)) (do
      iunlockput ip .iput
      act .endOp
      return (-1 : Int)) :=
    fun g' hg' => hg'.finish (iunlockput_gain (endOp_holds _))
  refine Knows.act h.alive trivial ?_
  rintro (- | f) g' hg'
  · rw [show g' = g.withHeld (gain ip g.held) from hg']
    exact hfailed g h
  · obtain ⟨-, rfl⟩ := hg'
    refine Knows.act h.alive trivial ?_
    rintro (- | fd) g' hg'
    · obtain rfl : g' = (g.withHeld (gain ip g.held)).alloc f := hg'
      refine (fileclose_knows (g := (g.withHeld (gain ip g.held)).alloc f) h.alive (h.take_pos f)).bind ?_
      rintro _ _ rfl
      refine hfailed ((g.alloc f).drop f) ?_
      exact ⟨⟨drop_take.trans h.own, h.held, h.gone, h.child⟩, h.alive⟩
    · obtain ⟨hfd, rfl⟩ := hg'
      refine Holds.then iunlock_keeps h.alive ?_
      rintro _ _ rfl
      refine Knows.act h.alive trivial ?_
      rintro _ _ ⟨_, rfl, rfl⟩
      refine Knows.act h.alive ⟨update_self _ _ _, gain_pos⟩ ?_
      rintro _ _ rfl
      refine ⟨?_, ?_, h.gone, h.child⟩
      · show update g.own f (g.own f + 1) = slots (update g.ofile fd (some f))
        rw [h.own, slots_store (o := g.ofile) hfd]
      · show lose ip (gain ip g.held) = _
        rw [lose_gain, h.held]

theorem sysOpen_balanced (path : Option (List UInt8)) (omode : UInt32) :
    Balanced g (sysOpen path omode) := by
  cases path with
  | none => exact h.toDone
  | some path =>
    refine beginOp_bind h.alive ?_
    split
    · refine (create_knows h.alive h.gone path .file 0 0).bind ?_
      rintro (- | ip) _ ⟨_, rfl, rfl⟩
      · exact h.finish (endOp_holds _)
      · exact openFile_balanced h ip omode
    · refine namei_locked h (endOp_holds _) (fun _ => rfl) fun ip v => ?_
      split
      · exact h.finish (iunlockput_gain (endOp_holds _))
      · exact openFile_balanced h ip omode

/-- Both ends are closed: the error exits of `sys_pipe`. -/
theorem closeBoth_balanced {rf wf : FileId} (hne : wf ≠ rf) (fr : FileId → Bool) :
    Balanced (g.ends rf wf fr) (do
      fileclose rf
      fileclose wf
      return (-1 : Int)) := by
  have hrf := h.take_pos rf
  have hwf := h.take_pos wf
  simp only [Know.take, update_self] at hrf hwf
  refine (fileclose_knows (g := g.ends rf wf fr) h.alive ?_).bind ?_
  · simp only [Know.ends, Know.take, update_of_ne hne.symm, update_self]
    exact hrf
  rintro _ _ rfl
  refine (fileclose_knows (g := (g.ends rf wf fr).drop rf) h.alive ?_).bind ?_
  · simp only [Know.drop, Know.ends, Know.take, update_of_ne hne, update_self]
    exact hwf
  rintro _ _ rfl
  refine ⟨?_, h.held, h.gone, h.child⟩
  show _ = slots g.ofile
  rw [← h.own]
  funext e
  simp only [Know.drop, Know.ends, Know.take, update_apply]
  grind

theorem sysPipe_balanced (mem : Bool) : Balanced g (sysPipe mem) := by
  refine Knows.act h.alive trivial ?_
  rintro (- | rf) g' hg'
  · obtain rfl : g' = g := hg'
    exact h.toDone
  obtain ⟨-, rfl⟩ := hg'
  refine Knows.act h.alive trivial ?_
  rintro (- | wf) g' hg'
  · obtain rfl : g' = g.alloc rf := hg'
    refine (fileclose_knows (g := g.alloc rf) h.alive (h.take_pos rf)).bind ?_
    rintro _ _ rfl
    exact ⟨drop_take.trans h.own, h.held, h.gone, h.child⟩
  obtain ⟨hwf, rfl⟩ := hg'
  -- the second file is another one: nobody had it
  have hne : wf ≠ rf := by
    rintro rfl
    have hpos := h.take_pos wf
    replace hwf : (g.take wf).own wf = 0 := hwf
    omega
  rw [show (g.alloc rf).alloc wf = g.ends rf wf _ from rfl]
  have hd : ∀ fr, (g.ends rf wf fr).dead = false := fun _ => h.alive
  dsimp only
  split
  · exact closeBoth_balanced h hne _
  refine Knows.act (hd _) ?_ ?_
  · show update (update g.fresh rf true) wf true rf = true
    rw [update_of_ne hne.symm, update_self]
  rintro _ _ rfl
  rw [settle_ends]
  refine Knows.act (hd _) ?_ ?_
  · show update (update (update g.fresh rf true) wf true) rf false wf = true
    rw [update_of_ne hne, update_self]
  rintro _ _ rfl
  rw [settle_ends]
  refine Knows.act (hd _) trivial ?_
  rintro (- | fd) g' hg'
  · obtain rfl : g' = _ := hg'
    exact closeBoth_balanced h hne _
  obtain ⟨hfd, rfl⟩ := hg'
  refine Knows.act h.alive trivial ?_
  rintro (- | fd') g' hg'
  · obtain rfl : g' = _ := hg'
    refine Knows.act h.alive trivial ?_
    rintro _ _ rfl
    rw [setOfile_undo hfd]
    exact closeBoth_balanced h hne _
  · obtain ⟨hfd', rfl⟩ := hg'
    refine ⟨?_, h.held, h.gone, h.child⟩
    simp only [Know.setOfile, Know.ends, Know.take] at hfd hfd' ⊢
    rw [slots_store hfd', slots_store hfd, h.own]

/-! ## Processes -/

omit h in
/-- The loop of `fork` over descriptors that the child does not have yet: each reference it takes goes
    to the child. -/
theorem forkFiles_knows (np : Pid) (fds : List Fd) (hnd : fds.Nodup) (g : Know) (hd : g.dead = false)
    (hown : g.own = slots g.ofile) (o : Fd → Option FileId) (ho : ∀ fd ∈ fds, o fd = none)
    (hc : g.child = some ⟨np, o, none⟩) : Knows g (forkFiles np fds) fun _ g' =>
      ∃ o' fr, g' = { g with child := some ⟨np, o', none⟩, fresh := fr } := by
  induction fds generalizing g o with
  | nil =>
    refine ⟨o, g.fresh, ?_⟩
    rw [← hc]
  | cons fd rest ih =>
    have hrest : ∀ fd' ∈ rest, o fd' = none := fun fd' h => ho fd' (List.mem_cons_of_mem _ h)
    refine Knows.act hd trivial ?_
    rintro (- | f) g ⟨hf, rfl⟩
    · exact ih hnd.of_cons g hd hown o hrest hc
    · have hf' : 1 ≤ g.own f := by
        rw [hown]
        exact slots_pos hf.symm
      refine Knows.act hd hf' ?_
      rintro _ _ rfl
      have hpos : 1 ≤ (g.take f).own f := by
        show 1 ≤ update g.own f (g.own f + 1) f
        rw [update_self]
        omega
      refine Knows.act hd ⟨⟨_, hc, rfl, ho fd List.mem_cons_self⟩, hpos⟩ ?_
      rintro _ _ rfl
      have hsame : ((g.take f).drop f).own = g.own := drop_take
      refine (ih hnd.of_cons { (g.take f).drop f with child := g.child.map fun c =>
        { c with ofile := update c.ofile fd (some f) } } hd (hsame.trans hown) (update o fd (some f)) ?_ ?_).mono ?_
      · intro fd' h
        have hne : fd' ≠ fd := fun e => (List.nodup_cons.mp hnd).1 (e ▸ h)
        rw [update_of_ne hne]
        exact hrest fd' h
      · show Option.map _ g.child = _
        rw [hc]
        rfl
      · rintro _ _ ⟨o', fr, rfl⟩
        refine ⟨o', fr, ?_⟩
        show Know.mk g.held g.cwd g.gone ((g.take f).drop f).own g.ofile fr _ g.dead = _
        rw [hsame]

theorem sysFork_balanced (mem : Bool) : Balanced g (sysFork mem) := by
  refine Knows.act h.alive h.child ?_
  rintro (- | np) g' hg'
  · rw [show g' = g from hg']
    exact h.toDone
  · obtain rfl : g' = { g with child := some ⟨np, fun _ => none, none⟩ } := hg'
    dsimp only
    split
    · refine Knows.act h.alive rfl ?_
      rintro _ _ rfl
      exact ⟨h.own, h.held, h.gone, rfl⟩
    · refine Knows.act h.alive trivial ?_
      rintro _ _ ⟨_, rfl, rfl⟩
      refine (forkFiles_knows np _ (List.nodup_finRange NOFILE)
        { g with child := some ⟨np, fun _ => none, none⟩ } h.alive h.own _ (fun _ _ => rfl) rfl).bind ?_
      rintro _ _ ⟨o, fr, rfl⟩
      refine Knows.act h.alive trivial ?_
      rintro cwd _ ⟨hcwd, rfl⟩
      refine Knows.act h.alive ⟨hcwd, h.gone⟩ ?_
      rintro _ _ rfl
      refine Knows.act h.alive ⟨⟨_, rfl, rfl, rfl⟩, gain_pos⟩ ?_
      rintro _ _ rfl
      refine Knows.act h.alive ⟨_, rfl, rfl⟩ ?_
      rintro _ _ rfl
      refine ⟨h.own, ?_, h.gone, rfl⟩
      show lose cwd (gain cwd g.held) = _
      rw [lose_gain, h.held]

omit h in
/-- The loop of `exit` over its descriptors. -/
theorem exitFiles_knows (fds : List Fd) (g : Know) (hd : g.dead = false) (hown : g.own = slots g.ofile) :
    Knows g (exitFiles fds) fun _ g' => ∃ o fr, g' = { g with ofile := o, own := slots o, fresh := fr } ∧
      (∀ fd ∈ fds, o fd = none) ∧ ∀ fd, g.ofile fd = none → o fd = none := by
  induction fds generalizing g with
  | nil =>
    refine ⟨g.ofile, g.fresh, ?_, nofun, fun _ => id⟩
    rw [← hown]
  | cons fd rest ih =>
    refine Knows.act hd trivial ?_
    rintro (- | f) g ⟨hf, rfl⟩
    · refine (ih g hd hown).mono ?_
      rintro _ _ ⟨o, fr, rfl, hrest, hold⟩
      exact ⟨o, fr, rfl, List.forall_mem_cons.mpr ⟨hold fd hf.symm, hrest⟩, hold⟩
    · refine (fileclose_knows hd (by rw [hown]; exact slots_pos hf.symm)).bind ?_
      rintro _ _ rfl
      refine Knows.act hd trivial ?_
      rintro _ _ rfl
      refine (ih ((g.drop f).setOfile fd none) hd ?_).mono ?_
      · show update g.own f (g.own f - 1) = slots (update g.ofile fd none)
        rw [hown, slots_clear hf.symm]
      · rintro _ _ ⟨o, fr, rfl, hrest, hold⟩
        have hclear : ∀ fd', g.ofile fd' = none ∨ fd' = fd → o fd' = none := by
          intro fd' h
          refine hold fd' ?_
          show update g.ofile fd none fd' = none
          rcases eq_or_ne fd' fd with rfl | hne
          · exact update_self _ _ _
          · rw [update_of_ne hne]
            exact h.resolve_right hne
        exact ⟨o, fr, rfl, List.forall_mem_cons.mpr ⟨hclear fd (Or.inr rfl), hrest⟩, fun fd' h => hclear fd' (Or.inl h)⟩

theorem sysExit_balanced : Balanced g sysExit := by
  refine Knows.act h.alive trivial ?_
  rintro p _ ⟨_, rfl, rfl⟩
  split
  · exact ⟨⟨h.alive, trivial⟩, fun r => by cases r⟩
  · refine (exitFiles_knows _ g h.alive h.own).bind ?_
    rintro _ _ ⟨o, fr, rfl, ho, -⟩
    refine Knows.act h.alive trivial ?_
    rintro _ _ ⟨_, rfl, rfl⟩
    refine Knows.act h.alive h.gone ?_
    rintro cwd _ ⟨-, rfl⟩
    refine Holds.then (iput_holds gain_pos) h.alive ?_
    rintro _ _ rfl
    refine Knows.act h.alive trivial ?_
    rintro _ _ ⟨_, rfl, rfl⟩
    refine Knows.act h.alive rfl ?_
    rintro _ _ rfl
    refine Knows.act h.alive ⟨rfl, funext fun fd => ho fd (List.mem_finRange fd)⟩ ?_
    rintro _ _ rfl
    refine ⟨rfl, ?_, rfl, h.child⟩
    show lose cwd (gain cwd g.held) = _
    rw [lose_gain, h.held]

theorem sysWait_balanced : Balanced g sysWait := by
  refine Knows.act h.alive h.child ?_
  rintro (- | q) _ ⟨_, rfl, rfl⟩
  · exact h.toDone
  · exact h.toDone

/-- **Every call, entered with nothing in hand, ends with nothing in hand**, on every path. -/
theorem Call.balanced (c : Call) : Balanced g c.code := by
  cases c with
  | dup fd => exact sysDup_balanced h fd
  | read fd n input => exact sysRead_balanced h fd n input
  | write fd src => exact sysWrite_balanced h fd src
  | close fd => exact sysClose_balanced h fd
  | fstat fd => exact sysFstat_balanced h fd
  | link old new => exact sysLink_balanced h old new
  | unlink path => exact sysUnlink_balanced h path
  | openFile path omode => exact sysOpen_balanced h path omode
  | mkdir path => exact sysCreate_balanced h path .dir 0 0
  | mknod path major minor => exact sysCreate_balanced h path .dev major minor
  | chdir path => exact sysChdir_balanced h path
  | execProg path loads => exact sysExec_balanced h path loads
  | pipe mem => exact sysPipe_balanced h mem
  | fork mem => exact sysFork_balanced h mem
  | exit => exact sysExit_balanced h
  | wait => exact sysWait_balanced h

end

end Xv6.Kernel
