/-
  WRITERS THAT SHARE ONE OPEN FILE — any number of calls of `filewrite` through the same `struct file`, interleaved at
  will.

  `filewrite` cuts what it is given into chunks; each chunk is stored in a transaction of its own, under the lock of the
  inode, and the offset of the file is read and advanced under that lock, too.  Between two chunks everybody else may
  run.

  1. **The machine** (`writers`) — calls are numbered in the order in which they are made; the history records which call
     got the lock of the inode (`locks`) and which call stored a chunk (`stores`).
  2. **The bytes** (`woven`) — what those stores amount to: the `k`-th store of a call is its `k`-th chunk.
  3. **One call** (`filewrite_wp`) — verified with ghosts alone: the chunks that are left, and the point in the critical
     section the call has got to.
  4. **All calls** (`Inv`, `shared_writes`) — what the ghosts mean, kept by every action.
-/
import Mathlib
import Xv6.Lib.Machine
import Xv6.Kernel.Calls

namespace Xv6.Kernel

open Threads Machines
open Function (update update_self update_of_ne update_eq_self)

/-! ## Chunks -/

theorem maxWrite_eq : maxWrite = 1536 := rfl

theorem mem_chunks {src c : List UInt8} (h : c ∈ chunks src) : c ≠ [] ∧ c.length ≤ maxWrite := by
  obtain ⟨i, hi, rfl⟩ := List.mem_map.mp h
  rw [List.mem_range] at hi
  have hlen : (slice src (i * maxWrite) maxWrite).length = min maxWrite (src.length - i * maxWrite) := by
    rw [slice, List.length_take, List.length_drop]
  have hmax := maxWrite_eq
  constructor
  · intro hnil
    rw [hnil, List.length_nil] at hlen
    simp only [hmax] at *
    omega
  · omega

/-- The first `n` chunks are the first bytes. -/
theorem flatten_slices (src : List UInt8) (n : Nat) :
    ((List.range n).map fun i => slice src (i * maxWrite) maxWrite).flatten = src.take (n * maxWrite) := by
  induction n with
  | zero => rw [Nat.zero_mul, List.take_zero]; rfl
  | succ n ih =>
    rw [List.range_succ, List.map_append, List.flatten_append, ih, Nat.succ_mul, List.take_add]
    congr 1
    simp [slice]

/-- **The chunks make up what is to be written.** -/
theorem flatten_chunks (src : List UInt8) : (chunks src).flatten = src := by
  have hmax := maxWrite_eq
  rw [chunks, flatten_slices]
  apply List.take_of_length_le
  simp only [hmax]
  omega

/-! ## The machine -/

/-- A call `filewrite(f, src, n)`, with what is left of its code. -/
structure Writer where
  pid : Pid
  src : List UInt8
  code : Prog Int

/-- The call has returned. -/
def Writer.over (c : Writer) : Bool :=
  match c.code with
  | .ret _ => true
  | .act _ _ => false

structure Writing where
  st : St
  /-- The calls made so far. -/
  calls : List Writer
  /-- HISTORY: the calls that got the lock of the inode, in that order. -/
  locks : List Nat
  /-- HISTORY: the calls that stored a chunk. -/
  stores : List Nat
  halted : Option Panic

inductive WriteLabel
  /-- A process that is in no call calls `filewrite`. -/
  | call (p : Pid) (src : List UInt8)
  /-- The next action of a call. -/
  | step (i : Nat)

/-- The action locks the inode. -/
def locksInode (ip : Slot) : Act → Bool
  | .acquiresleep jp _ => jp = ip
  | _ => false

/-- The action overwrites the inode. -/
def storesInode (ip : Slot) : Act → Bool
  | .iupdate jp _ => jp = ip
  | _ => false

/-- Add a call to the history. -/
def noted (b : Bool) (i : Nat) (l : List Nat) : List Nat := if b then l ++ [i] else l

namespace Writing

variable (f : FileId) (ip : Slot)

def step (W : Writing) : WriteLabel → Option Writing
  | .call p src =>
    if W.halted = none ∧ ∀ c ∈ W.calls, c.pid = p → c.over = true then
      some { W with calls := W.calls ++ [⟨p, src, filewrite f src⟩] }
    else none
  | .step i =>
    match W.halted, W.calls[i]? with
    | none, some ⟨p, src, .act a k⟩ =>
      match exec W.st p a with
      | .ok s r => some {
          st := s
          calls := W.calls.set i ⟨p, src, k r⟩
          locks := noted (locksInode ip a) i W.locks
          stores := noted (storesInode ip a) i W.stores
          halted := none }
      | .blocked => none
      | .halt e => some { W with halted := some e }
    | _, _ => none

end Writing

/-- Calls of `filewrite` on file `f`, which is open on inode `ip`, from the state `s₀` on. -/
def writers (f : FileId) (ip : Slot) (s₀ : St) : Machine Writing WriteLabel where
  init := fun W => W = ⟨s₀, [], [], [], none⟩
  step := Writing.step f ip

/-- Everything a step can do. -/
inductive Writing.Step (f : FileId) (ip : Slot) (W : Writing) : Writing → Prop
  | call (p : Pid) (src : List UInt8) : Step f ip W { W with calls := W.calls ++ [⟨p, src, filewrite f src⟩] }
  | act {i : Nat} {p : Pid} {src : List UInt8} {a : Act} {k : a.R → Prog Int} {s : St} {r : a.R} :
      W.calls[i]? = some ⟨p, src, .act a k⟩ → exec W.st p a = .ok s r →
      Step f ip W ⟨s, W.calls.set i ⟨p, src, k r⟩, noted (locksInode ip a) i W.locks,
        noted (storesInode ip a) i W.stores, none⟩
  | halt (e : Panic) : Step f ip W { W with halted := some e }

theorem Writing.step_cases {f : FileId} {ip : Slot} {W V : Writing} {l : WriteLabel} (h : W.step f ip l = some V) :
    Writing.Step f ip W V := by
  cases l with
  | call p src =>
    simp only [Writing.step] at h
    split at h
    · cases h
      exact .call p src
    · cases h
  | step i =>
    simp only [Writing.step] at h
    split at h
    · rename_i hhalted hcall
      split at h
      · rename_i s r hexec
        cases h
        exact .act hcall hexec
      · cases h
      · rename_i e hexec
        cases h
        exact .halt e
    · cases h

/-! ## The bytes stored -/

/-- The chunks of call `i`. -/
def Writing.chunksOf (W : Writing) (i : Nat) : List (List UInt8) :=
  match W.calls[i]? with
  | some c => chunks c.src
  | none => []

/-- What the stores `l` amount to, when call `i` has the chunks `cs i`: each store takes the next chunk of its call. -/
def woven (cs : Nat → List (List UInt8)) (l : List Nat) : List UInt8 :=
  ((List.range l.length).map fun j => (cs (l.getD j 0)).getD ((l.take j).count (l.getD j 0)) []).flatten

section Woven

variable {cs cs' : Nat → List (List UInt8)} {l : List Nat}

theorem woven_snoc (i : Nat) : woven cs (l ++ [i]) = woven cs l ++ (cs i).getD (l.count i) [] := by
  have hlast : (l ++ [i]).getD l.length 0 = i := by simp
  have htake : (l ++ [i]).take l.length = l := by simp
  unfold woven
  rw [List.length_append, List.length_singleton, List.range_succ, List.map_append, List.flatten_append,
    List.map_singleton, hlast, htake, List.flatten_singleton]
  congr 2
  apply List.map_congr_left
  intro j hj
  rw [List.mem_range] at hj
  rw [List.getD_append _ _ _ _ hj, List.take_append_of_le_length (Nat.le_of_lt hj)]

/-- Only the chunks of calls that have stored something matter. -/
theorem woven_congr (h : ∀ i ∈ l, cs i = cs' i) : woven cs l = woven cs' l := by
  unfold woven
  congr 1
  apply List.map_congr_left
  intro j hj
  rw [List.mem_range] at hj
  have hmem : l.getD j 0 ∈ l := by
    rw [List.getD_eq_getElem l 0 hj]
    exact List.getElem_mem hj
  rw [h _ hmem]

end Woven

/-- Bytes written behind bytes just written. -/
theorem splice_splice {data x y : List UInt8} {off : Nat} (h : off ≤ data.length) :
    splice (splice data off x) (off + x.length) y = splice data off (x ++ y) := by
  have hlen : (data.take off ++ x).length = off + x.length := by
    rw [List.length_append, List.length_take, Nat.min_eq_left h]
  unfold splice
  rw [List.take_left' hlen, List.drop_append, List.drop_of_length_le (by rw [hlen]; omega), hlen, List.nil_append,
    List.drop_drop, List.append_assoc (data.take off) x y, List.length_append,
    show off + x.length + (off + x.length + y.length - (off + x.length)) = off + (x.length + y.length) by omega]

/-! ## One call -/

/-- The point in the critical section that a call has got to. -/
inductive Phase
  /-- Without the lock. -/
  | out
  | got
  /-- The inode has been read. -/
  | seen (v : Ino)
  /-- The offset has been read, too. -/
  | ready (v : Ino) (off : Nat)
  /-- The chunk is in the file; the new offset is still to be stored. -/
  | stored (off : Nat)
  | done
  /-- `writei` has turned the chunk down, and the lock is released. -/
  | failed

/-- The call has the lock. -/
def Phase.locked : Phase → Bool
  | .out | .failed => false
  | _ => true

/-- The call has the lock, or had it, for a chunk that it has not stored. -/
def Phase.pending : Phase → Nat
  | .got | .seen _ | .ready _ _ | .failed => 1
  | _ => 0

theorem Phase.pending_le (φ : Phase) : φ.pending ≤ 1 := by
  cases φ <;> simp [pending]

/-- What is known of a call: the chunks it has not stored, and where it is. -/
structure Ghost where
  left : List (List UInt8)
  phase : Phase

section OneCall

variable (f : FileId) (ip : Slot)

/-- The actions of `filewrite`. -/
def Ghost.pre : Act → Ghost → Prop
  | .file g, γ => g = f ∧ (γ.phase = .out ∨ ∃ v, γ.phase = .seen v)
  | .acquiresleep jp _, γ => jp = ip ∧ γ.phase = .out
  | .inode jp, γ => jp = ip ∧ γ.phase = .got
  | .iupdate jp w, γ => jp = ip ∧ ∃ v off c rest, γ = ⟨c :: rest, .ready v off⟩ ∧ c ≠ [] ∧ writei v off c = some w
  | .setOff g off, γ => g = f ∧ γ.phase = .stored off
  | .releasesleep jp, γ => jp = ip ∧ (γ.phase = .done ∨
      ∃ v off c rest, γ = ⟨c :: rest, .ready v off⟩ ∧ writei v off c = none)
  | .load jp, _ => jp = ip
  | .panic _, _ | .beginOp, _ | .endOp, _ | .ref _, _ | .holdingsleep _, _ => True
  | _, _ => False

/-- What an action does to it. -/
def Ghost.move : (a : Act) → Ghost → a.R → Ghost
  | .file _, ⟨left, .seen v⟩, ff => ⟨left, .ready v ff.off⟩
  | .acquiresleep _ _, ⟨left, _⟩, _ => ⟨left, .got⟩
  | .inode _, ⟨left, _⟩, v => ⟨left, .seen v⟩
  | .iupdate _ _, ⟨c :: rest, .ready _ off⟩, _ => ⟨rest, .stored (off + c.length)⟩
  | .setOff _ _, ⟨left, _⟩, _ => ⟨left, .done⟩
  | .releasesleep _, ⟨left, .ready _ _⟩, _ => ⟨left, .failed⟩
  | .releasesleep _, ⟨left, _⟩, _ => ⟨left, .out⟩
  | _, γ, _ => γ

/-- What is known of the replies. -/
def Ghost.fact : (a : Act) → a.R → Prop
  | .file _, ff => ff.type = .inode ∧ ff.writable = true ∧ ff.ip = ip
  | .inode _, v => v.type = .file
  | _, _ => True

theorem Ghost.move_file_out {γ : Ghost} (h : γ.phase = .out) (f : FileId) (ff : File) : γ.move (.file f) ff = γ := by
  cases γ
  cases h
  rfl

theorem Ghost.move_file_seen {γ : Ghost} {v : Ino} (h : γ.phase = .seen v) (f : FileId) (ff : File) :
    γ.move (.file f) ff = ⟨γ.left, .ready v ff.off⟩ := by
  cases γ
  cases h
  rfl

theorem Ghost.move_release_done {γ : Ghost} (h : γ.phase = .done) (ip : Slot) :
    γ.move (.releasesleep ip) () = ⟨γ.left, .out⟩ := by
  cases γ
  cases h
  rfl

def Ghost.next (a : Act) (γ : Ghost) (r : a.R) (γ' : Ghost) : Prop := Ghost.fact ip a r ∧ γ' = γ.move a r

/-- The code of a call that knows `γ`. -/
def Writes {α : Type} (c : Prog α) (Q : α → Ghost → Prop) (γ : Ghost) : Prop := wp (Ghost.pre f ip) (Ghost.next ip) c Q γ

end OneCall

section OneCall

variable {f : FileId} {ip : Slot} {α β : Type} {γ : Ghost} {left rest : List (List UInt8)} {c : List UInt8}

theorem Writes.bind {c : Prog α} {g : α → Prog β} {Q : α → Ghost → Prop} {Q' : β → Ghost → Prop}
    (h : Writes f ip c Q γ) (hg : ∀ x γ, Q x γ → Writes f ip (g x) Q' γ) : Writes f ip (c >>= g) Q' γ := wp_bind h hg

/-- An action, and what follows. -/
theorem Writes.act {a : Act} {g : a.R → Prog β} {Q : β → Ghost → Prop} (hp : Ghost.pre f ip a γ)
    (hg : ∀ r, Ghost.fact ip a r → Writes f ip (g r) Q (γ.move a r)) : Writes f ip (Kernel.act a >>= g) Q γ := by
  apply wp_perform hp
  rintro r γ' ⟨hfact, rfl⟩
  exact hg r hfact

theorem Writes.ret {x : α} {Q : α → Ghost → Prop} (h : Q x γ) : Writes f ip (pure x) Q γ := h

theorem Writes.panic {e : Panic} {Q : α → Ghost → Prop} : Writes f ip (Kernel.panic e : Prog α) Q γ :=
  ⟨trivial, fun r => by cases r⟩

theorem ilock_writes : Writes f ip (ilock ip) (fun _ γ => γ = ⟨left, .got⟩) ⟨left, .out⟩ := by
  unfold ilock
  refine Writes.act trivial fun r _ => ?_
  split
  · exact Writes.panic
  · refine Writes.act ⟨rfl, rfl⟩ fun _ _ => ?_
    rw [← Code.bind_ret (Kernel.act (.load ip))]
    exact Writes.act rfl fun _ _ => Writes.ret rfl

/-- The lock is released after the offset is stored, or after `writei` has failed. -/
theorem iunlock_writes (hp : Ghost.pre f ip (.releasesleep ip) γ) :
    Writes f ip (iunlock ip) (fun _ γ' => γ' = γ.move (.releasesleep ip) ()) γ := by
  unfold iunlock
  refine Writes.act trivial fun b _ => ?_
  refine Writes.act trivial fun r _ => ?_
  split
  · exact Writes.panic
  · rw [← Code.bind_ret (Kernel.act (.releasesleep ip))]
    exact Writes.act hp fun _ _ => Writes.ret rfl

/-- **One chunk** is stored, or turned down. -/
theorem filewriteChunk_writes (hc : c ≠ []) : Writes f ip (filewriteChunk f ip c)
    (fun r γ => r = c.length ∧ γ = ⟨rest, .out⟩ ∨ r = -1 ∧ γ = ⟨c :: rest, .failed⟩) ⟨c :: rest, .out⟩ := by
  have hpos := List.length_pos_of_ne_nil hc
  unfold filewriteChunk
  refine Writes.act trivial fun _ _ => ?_
  refine Writes.bind ilock_writes ?_
  rintro - _ rfl
  refine Writes.act ⟨rfl, rfl⟩ fun v hfile => ?_
  refine Writes.act ⟨rfl, .inr ⟨v, rfl⟩⟩ fun ff hff => ?_
  have hdev : v.type ≠ .dev := by
    intro hdev
    rw [show v.type = .file from hfile] at hdev
    cases hdev
  rw [if_neg hdev]
  cases hw : writei v ff.off c with
  | none =>
    have hrelease : Ghost.pre f ip (.releasesleep ip) ⟨c :: rest, .ready v ff.off⟩ := ⟨rfl, .inr ⟨v, ff.off, c, rest, rfl, hw⟩⟩
    dsimp only
    refine Writes.bind (Q := fun r γ => r = -1 ∧ γ = ⟨c :: rest, .ready v ff.off⟩) (Writes.ret ⟨rfl, rfl⟩) ?_
    rintro - _ ⟨rfl, rfl⟩
    rw [if_neg (by decide)]
    refine Writes.bind (iunlock_writes hrelease) ?_
    rintro - _ rfl
    refine Writes.act trivial fun _ _ => ?_
    exact Writes.ret (.inr ⟨rfl, rfl⟩)
  | some w =>
    dsimp only
    refine Writes.act ⟨rfl, v, ff.off, c, rest, rfl, hc, hw⟩ fun _ _ => ?_
    refine Writes.bind (Q := fun (r : Int) γ => r = c.length ∧ γ = ⟨rest, .stored (ff.off + c.length)⟩)
      (Writes.ret ⟨rfl, rfl⟩) ?_
    rintro - _ ⟨rfl, rfl⟩
    rw [if_pos (by omega)]
    refine Writes.act ⟨rfl, rfl⟩ fun _ _ => ?_
    refine Writes.bind (iunlock_writes ⟨rfl, .inl rfl⟩) ?_
    rintro - _ rfl
    refine Writes.act trivial fun _ _ => ?_
    exact Writes.ret (.inl ⟨rfl, rfl⟩)

theorem filewriteLoop_writes (hall : ∀ c ∈ left, c ≠ []) : Writes f ip (filewriteLoop f ip left)
    (fun b γ => b = true ∧ γ = ⟨[], .out⟩ ∨ b = false ∧ γ.phase = .failed) ⟨left, .out⟩ := by
  induction left with
  | nil => exact Writes.ret (.inl ⟨rfl, rfl⟩)
  | cons c rest ih =>
    rw [filewriteLoop]
    refine Writes.bind (filewriteChunk_writes (hall c List.mem_cons_self)) ?_
    rintro r _ (⟨rfl, rfl⟩ | ⟨rfl, rfl⟩)
    · rw [if_neg (by omega), if_neg (not_not.mpr rfl)]
      exact ih fun d hd => hall d (List.mem_cons_of_mem c hd)
    · rw [if_pos (by decide)]
      exact Writes.ret (.inr ⟨rfl, rfl⟩)

/-- A call ends with all chunks stored, or with one turned down. -/
def Ended (src : List UInt8) (r : Int) (γ : Ghost) : Prop :=
  r = src.length ∧ γ = ⟨[], .out⟩ ∨ r = -1 ∧ γ.phase = .failed

/-- **A call of `filewrite`**, whatever the others do. -/
theorem filewrite_writes (src : List UInt8) : Writes f ip (filewrite f src) (Ended src) ⟨chunks src, .out⟩ := by
  unfold filewrite
  refine Writes.act ⟨rfl, .inl rfl⟩ fun ff hff => ?_
  obtain ⟨htype, hwritable, rfl⟩ := hff
  rw [if_neg (by rw [hwritable]; decide), htype]
  have hall : ∀ c ∈ chunks src, c ≠ [] := fun c hc => (mem_chunks hc).1
  refine Writes.bind (filewriteLoop_writes hall) ?_
  rintro b γ (⟨rfl, rfl⟩ | ⟨rfl, hfailed⟩)
  · exact Writes.ret (.inl ⟨rfl, rfl⟩)
  · exact Writes.ret (.inr ⟨rfl, hfailed⟩)

end OneCall

/-! ## All calls -/

/-- What a phase says about the state, when the stores amount to an offset of `total`. -/
def Phase.Meets (f : FileId) (ip : Slot) (s : St) (total : Nat) : Phase → Prop
  | .seen v => s.inoOf ip = v
  | .ready v off => s.inoOf ip = v ∧ off = (s.ftable f).off
  | .stored off => off = total
  | _ => True

theorem Phase.meets_of_unlocked {f : FileId} {ip : Slot} {s : St} {total : Nat} {φ : Phase} (h : φ.locked = false) :
    φ.Meets f ip s total := by
  cases φ with
  | out | failed => trivial
  | _ => cases h

/-- The file is open on the regular file `ip`, which has `bytes` laid over its first content. -/
structure Content (f : FileId) (ip : Slot) (data₀ : List UInt8) (off₀ : Nat) (s : St) (bytes : List UInt8) : Prop where
  file : (s.ftable f).type = .inode ∧ (s.ftable f).writable = true ∧ (s.ftable f).ip = ip
  regular : (s.inoOf ip).type = .file
  data : (s.inoOf ip).data = splice data₀ off₀ bytes
  fits : off₀ + bytes.length ≤ MAXFILE * BSIZE

/-- What the ghost of call `i` says about the state and the history. -/
structure CallOk (f : FileId) (ip : Slot) (off₀ : Nat) (cs : Nat → List (List UInt8)) (s : St)
    (locks stores : List Nat) (i : Nat) (γ : Ghost) : Prop where
  left : γ.left = (cs i).drop (stores.count i)
  count : stores.count i ≤ (cs i).length
  lock : γ.phase.locked = true → (s.icache ip).lock ≠ none
  phase : γ.phase.Meets f ip s (off₀ + (woven cs stores).length)
  failed : γ.phase = .failed → ∃ m ≤ stores.length, (stores.take m).count i = stores.count i ∧
    ∃ c rest, γ.left = c :: rest ∧ MAXFILE * BSIZE < off₀ + (woven cs (stores.take m)).length + c.length
  pending : locks.count i = stores.count i + γ.phase.pending
  last : γ.phase.locked = true → γ.phase.pending = 1 → ∃ l, locks = l ++ [i] ∧ stores.Sublist l

/-- What the ghosts mean together.  `data₀` and `off₀` are the content and the offset at the beginning, `cs` the chunks
    of the calls. -/
structure Sound (f : FileId) (ip : Slot) (data₀ : List UInt8) (off₀ : Nat) (cs : Nat → List (List UInt8)) (s : St)
    (locks stores : List Nat) (G : Nat → Ghost) : Prop where
  call : ∀ i, CallOk f ip off₀ cs s locks stores i (G i)
  content : Content f ip data₀ off₀ s (woven cs stores)
  off : (∀ i o, (G i).phase ≠ .stored o) → (s.ftable f).off = off₀ + (woven cs stores).length
  one : ∀ i j, (G i).phase.locked = true → (G j).phase.locked = true → i = j
  sub : stores.Sublist locks

section

variable {f : FileId} {ip : Slot} {data₀ : List UInt8} {off₀ : Nat} {cs : Nat → List (List UInt8)} {s t : St}
  {locks stores locks' stores' new : List Nat} {i j : Nat} {γ : Ghost}

theorem Content.frame {bytes : List UInt8} (h : Content f ip data₀ off₀ s bytes) (hfile : t.ftable f = s.ftable f)
    (hino : t.inoOf ip = s.inoOf ip) : Content f ip data₀ off₀ t bytes := by
  refine ⟨?_, ?_, ?_, h.fits⟩
  · rw [hfile]
    exact h.file
  · rw [hino]
    exact h.regular
  · rw [hino]
    exact h.data

/-- A call without the lock has nothing to do with what the others store. -/
theorem CallOk.other (h : CallOk f ip off₀ cs s locks stores j γ) (hfree : γ.phase.locked = false)
    (hnew : stores' = stores ++ new) (hstores : stores'.count j = stores.count j)
    (hlocks : locks'.count j = locks.count j) : CallOk f ip off₀ cs t locks' stores' j γ := by
  refine ⟨?_, ?_, fun hc => ?_, Phase.meets_of_unlocked hfree, fun hc => ?_, ?_, fun hc => ?_⟩
  · rw [hstores]
    exact h.left
  · rw [hstores]
    exact h.count
  · rw [hfree] at hc
    cases hc
  · obtain ⟨m, hm, hcount, hchunk⟩ := h.failed hc
    refine ⟨m, ?_, ?_, ?_⟩
    · rw [hnew, List.length_append]
      exact Nat.le_add_right_of_le hm
    · rw [hstores, hnew, List.take_append_of_le_length hm]
      exact hcount
    · rw [hnew, List.take_append_of_le_length hm]
      exact hchunk
  · rw [hstores, hlocks]
    exact h.pending
  · rw [hfree] at hc
    cases hc

end

namespace Sound

variable {f : FileId} {ip : Slot} {data₀ : List UInt8} {off₀ : Nat} {cs : Nat → List (List UInt8)} {s t : St}
  {locks stores : List Nat} {G : Nat → Ghost} {i j : Nat} {γ : Ghost}

section

variable (h : Sound f ip data₀ off₀ cs s locks stores G)

include h

/-- While one call has the lock, no other is in a phase that says anything. -/
theorem unlocked_of_ne (hi : (G i).phase.locked = true) (j : Nat) (hj : j ≠ i) : (G j).phase.locked = false := by
  cases hlocked : (G j).phase.locked with
  | false => rfl
  | true => exact absurd (h.one j i hlocked hi) hj

/-- With the lock, and the offset in the file not behind. -/
theorem off_of_locked (hi : (G i).phase.locked = true)
    (hstored : ∀ o, (G i).phase ≠ .stored o) : (s.ftable f).off = off₀ + (woven cs stores).length := by
  apply h.off
  intro j o hj
  by_cases hji : j = i
  · rw [hji] at hj
    exact hstored o hj
  · have hfree := h.unlocked_of_ne hi j hji
    rw [hj] at hfree
    cases hfree

/-- A change of the state that none of this sees. -/
theorem frame (hfile : t.ftable f = s.ftable f)
    (hino : t.inoOf ip = s.inoOf ip) (hlock : (t.icache ip).lock = (s.icache ip).lock) :
    Sound f ip data₀ off₀ cs t locks stores G where
  call j := by
    refine { h.call j with lock := ?_, phase := ?_ }
    · rw [hlock]
      exact (h.call j).lock
    · have hphase := (h.call j).phase
      unfold Phase.Meets at hphase ⊢
      rw [hino, hfile]
      exact hphase
  content := h.content.frame hfile hino
  off := by rw [hfile]; exact h.off
  one := h.one
  sub := h.sub

/-- **A call moves on**, and no other has the lock: what is to be shown is about this call. -/
theorem change {locks' stores' new : List Nat} (hothers : ∀ j, j ≠ i → (G j).phase.locked = false) (hnew : stores' = stores ++ new)
    (hcount : ∀ j, j ≠ i → stores'.count j = stores.count j ∧ locks'.count j = locks.count j)
    (hcall : CallOk f ip off₀ cs t locks' stores' i γ) (hcontent : Content f ip data₀ off₀ t (woven cs stores'))
    (hoff : (∀ o, γ.phase ≠ .stored o) → (t.ftable f).off = off₀ + (woven cs stores').length)
    (hsub : stores'.Sublist locks') : Sound f ip data₀ off₀ cs t locks' stores' (update G i γ) := by
  have hself : update G i γ i = γ := update_self ..
  have hlocked : ∀ j, (update G i γ j).phase.locked = true → j = i := by
    intro j hj
    by_contra hne
    rw [update_of_ne hne, hothers j hne] at hj
    cases hj
  refine ⟨fun j => ?_, hcontent, fun hstored => ?_, fun j k hj hk => ?_, hsub⟩
  · by_cases hj : j = i
    · rw [hj, hself]
      exact hcall
    · rw [update_of_ne hj]
      exact (h.call j).other (hothers j hj) hnew (hcount j hj).1 (hcount j hj).2
  · apply hoff
    intro o
    have hi := hstored i o
    rwa [hself] at hi
  · rw [hlocked j hj, hlocked k hk]

/-! ### The actions -/

end

theorem count_snoc_of_ne (l : List Nat) (h : j ≠ i) : (l ++ [i]).count j = l.count j := by
  rw [List.count_append, List.count_singleton, if_neg (by simpa using h.symm), Nat.add_zero]

theorem count_snoc_self (l : List Nat) : (l ++ [i]).count i = l.count i + 1 := by
  rw [List.count_append, List.count_singleton_self]

section

variable (h : Sound f ip data₀ off₀ cs s locks stores G)

include h

omit h in
theorem inoOf_lock (o : Option Pid) : (s.setEntry ip { s.icache ip with lock := o }).inoOf ip = s.inoOf ip := by
  rw [St.inoOf, St.inoOf, St.setEntry_icache, update_self]
  rfl

/-- The lock is taken. -/
theorem acquire (p : Pid) (hout : (G i).phase = .out) (hfree : (s.icache ip).lock = none) : Sound f ip data₀ off₀ cs
      (s.setEntry ip { s.icache ip with lock := some p }) (locks ++ [i]) stores
      (update G i ⟨(G i).left, .got⟩) := by
  have hothers : ∀ j, j ≠ i → (G j).phase.locked = false := by
    intro j hj
    cases hlocked : (G j).phase.locked with
    | false => rfl
    | true => exact absurd hfree ((h.call j).lock hlocked)
  have hnone : ∀ j o, (G j).phase ≠ .stored o := by
    intro j o hj
    apply (h.call j).lock _ hfree
    rw [hj]
    rfl
  refine h.change hothers (List.append_nil _).symm (fun j hj => ⟨rfl, count_snoc_of_ne locks hj⟩)
    ⟨(h.call i).left, (h.call i).count, fun _ => ?_, trivial, nofun, ?_, fun _ _ => ⟨locks, rfl, h.sub⟩⟩
    (h.content.frame rfl (inoOf_lock _)) (fun _ => h.off hnone) (h.sub.trans (List.sublist_append_left locks [i]))
  · rw [St.setEntry_icache, update_self]
    exact Option.some_ne_none p
  · rw [count_snoc_self, (h.call i).pending, hout]
    rfl

/-- The inode, or the offset, is read. -/
theorem read {φ : Phase} (hi : (G i).phase.locked = true)
    (hpend : (G i).phase.pending = 1) (hlocked : φ.locked = true) (hpend' : φ.pending = 1)
    (hphase : φ.Meets f ip s (off₀ + (woven cs stores).length)) :
    Sound f ip data₀ off₀ cs s locks stores (update G i ⟨(G i).left, φ⟩) := by
  have hcall := h.call i
  have hstored : ∀ o, (G i).phase ≠ .stored o := by
    intro o ho
    rw [ho] at hpend
    cases hpend
  refine h.change (h.unlocked_of_ne hi) (List.append_nil _).symm (fun j _ => ⟨rfl, rfl⟩)
    ⟨hcall.left, hcall.count, fun _ => hcall.lock hi, hphase, fun hc => ?_, ?_, fun _ _ => hcall.last hi hpend⟩ h.content
    (fun _ => h.off_of_locked hi hstored) h.sub
  · have hfailed : φ = .failed := hc
    rw [hfailed] at hlocked
    cases hlocked
  · rw [hcall.pending, hpend]
    exact congrArg _ hpend'.symm

/-- The chunk is stored. -/
theorem store (hoff₀ : off₀ ≤ data₀.length) {v w : Ino} {off : Nat}
    {c : List UInt8} {rest : List (List UInt8)} (hi : G i = ⟨c :: rest, .ready v off⟩) (hw : writei v off c = some w)
    (hino : t.inoOf ip = w) (hfile : t.ftable f = s.ftable f) (hlock : (t.icache ip).lock = (s.icache ip).lock) :
    Sound f ip data₀ off₀ cs t locks (stores ++ [i]) (update G i ⟨rest, .stored (off + c.length)⟩) := by
  have hcall := h.call i
  have hlocked : (G i).phase.locked = true := by rw [hi]; rfl
  have hoff := h.off_of_locked hlocked fun o ho => by
    rw [hi] at ho
    cases ho
  have hold := hcall.lock hlocked
  rw [hi] at hcall
  obtain ⟨hv, rfl⟩ := hcall.phase
  obtain ⟨l, hlocks, hsub⟩ := hcall.last rfl rfl
  have hchunk : (cs i).getD (stores.count i) [] = c := by
    rw [List.getD_eq_getElem?_getD, ← List.head?_drop, ← hcall.left]
    rfl
  have hbytes : woven cs (stores ++ [i]) = woven cs stores ++ c := by rw [woven_snoc, hchunk]
  unfold writei at hw
  split at hw
  · cases hw
  rename_i hok
  cases hw
  refine h.change (h.unlocked_of_ne hlocked) rfl (fun j hj => ⟨count_snoc_of_ne stores hj, rfl⟩)
    ⟨?_, ?_, fun _ => ?_, ?_, nofun, ?_, nofun⟩ ⟨?_, ?_, ?_, ?_⟩ (fun hc => absurd rfl (hc _)) ?_
  · rw [count_snoc_self, ← List.tail_drop, ← hcall.left]
    rfl
  · have hlen := congrArg List.length hcall.left
    rw [List.length_drop, List.length_cons] at hlen
    rw [count_snoc_self]
    omega
  · rw [hlock]
    exact hold
  · show _ = _
    rw [hbytes, List.length_append, hoff]
    omega
  · rw [count_snoc_self]
    exact hcall.pending
  · rw [hfile]
    exact h.content.file
  · rw [hino]
    show v.type = .file
    rw [← hv]
    exact h.content.regular
  · rw [hino, hbytes]
    show splice v.data _ c = _
    rw [← hv, h.content.data, hoff, splice_splice hoff₀]
  · rw [hbytes, List.length_append]
    omega
  · rw [hlocks]
    exact hsub.append (List.Sublist.refl [i])

/-- The offset is stored. -/
theorem advance {off : Nat} (hi : (G i).phase = .stored off) :
    Sound f ip data₀ off₀ cs (s.setFile f { s.ftable f with off := off }) locks stores
      (update G i ⟨(G i).left, .done⟩) := by
  have hcall := h.call i
  have hlocked : (G i).phase.locked = true := by rw [hi]; rfl
  have hphase := hcall.phase
  have hpend := hcall.pending
  rw [hi] at hphase hpend
  have hfile : (s.setFile f { s.ftable f with off := off }).ftable f = { s.ftable f with off := off } :=
    update_self ..
  refine h.change (h.unlocked_of_ne hlocked) (List.append_nil _).symm (fun j _ => ⟨rfl, rfl⟩)
    ⟨hcall.left, hcall.count, fun _ => hcall.lock hlocked, trivial, nofun, hpend, nofun⟩
    ⟨?_, h.content.regular, h.content.data, h.content.fits⟩ (fun _ => ?_) h.sub
  · rw [hfile]
    exact h.content.file
  · rw [hfile]
    exact hphase

/-- `writei` turns a chunk down only if the file would become too long. -/
theorem too_long (hoff₀ : off₀ ≤ data₀.length) {v : Ino} {off : Nat}
    {c : List UInt8} {rest : List (List UInt8)} (hi : G i = ⟨c :: rest, .ready v off⟩) (hw : writei v off c = none) :
    MAXFILE * BSIZE < off₀ + (woven cs stores).length + c.length := by
  have hphase := (h.call i).phase
  have hoff := h.off_of_locked (i := i) (by rw [hi]; rfl) fun o ho => by
    rw [hi] at ho
    cases ho
  rw [hi] at hphase
  obtain ⟨hv, rfl⟩ := hphase
  have hlen : v.data.length = max data₀.length (off₀ + (woven cs stores).length) := by
    rw [← hv, h.content.data, length_splice hoff₀]
  have hfits := h.content.fits
  have hmax : MAXFILE * BSIZE = 71680 := rfl
  unfold writei at hw
  split at hw
  · rename_i hbad
    omega
  · cases hw

/-- The lock is released: the chunk is stored, or turned down. -/
theorem release (hoff₀ : off₀ ≤ data₀.length) {φ : Phase} (hphase : (G i).phase = .done ∧ φ = .out ∨
      ∃ v off c rest, G i = ⟨c :: rest, .ready v off⟩ ∧ writei v off c = none ∧ φ = .failed) :
    Sound f ip data₀ off₀ cs (s.setEntry ip { s.icache ip with lock := none }) locks stores
      (update G i ⟨(G i).left, φ⟩) := by
  have hcall := h.call i
  have hi : (G i).phase.locked = true ∧ (∀ o, (G i).phase ≠ .stored o) ∧ φ.locked = false ∧
      (G i).phase.pending = φ.pending := by
    rcases hphase with ⟨hdone, rfl⟩ | ⟨v, off, c, rest, hready, -, rfl⟩
    · rw [hdone]
      exact ⟨rfl, nofun, rfl, rfl⟩
    · rw [hready]
      exact ⟨rfl, nofun, rfl, rfl⟩
  obtain ⟨hlocked, hstored, hfree, hpend⟩ := hi
  have hnot : ¬ φ.locked = true := by
    rw [hfree]
    decide
  refine h.change (h.unlocked_of_ne hlocked) (List.append_nil _).symm (fun j _ => ⟨rfl, rfl⟩)
    ⟨hcall.left, hcall.count, fun hc => absurd hc hnot, Phase.meets_of_unlocked hfree, fun hc => ?_, ?_,
      fun hc => absurd hc hnot⟩ (h.content.frame rfl (inoOf_lock _)) (fun _ => h.off_of_locked hlocked hstored) h.sub
  · have hfailed : φ = .failed := hc
    rcases hphase with ⟨-, rfl⟩ | ⟨v, off, c, rest, hready, hw, -⟩
    · cases hfailed
    · refine ⟨stores.length, Nat.le_refl _, by rw [List.take_length], c, rest, by rw [hready], ?_⟩
      rw [List.take_length]
      exact h.too_long hoff₀ hready hw
  · rw [hcall.pending, hpend]

/-- **Every action of a call keeps what the ghosts mean.** -/
theorem step (hoff₀ : off₀ ≤ data₀.length) {p : Pid} {a : Act} {r : a.R}
    (hpre : Ghost.pre f ip a (G i)) (he : exec s p a = .ok t r) :
    Ghost.fact ip a r ∧ Sound f ip data₀ off₀ cs t (noted (locksInode ip a) i locks) (noted (storesInode ip a) i stores)
      (update G i ((G i).move a r)) := by
  -- most actions leave the ghost
  have hstay : ∀ {t}, Sound f ip data₀ off₀ cs t locks stores G →
      Sound f ip data₀ off₀ cs t locks stores (update G i (G i)) := by
    intro t ht
    rw [update_eq_self]
    exact ht
  cases a with
  | file g =>
    obtain ⟨rfl, hphase⟩ := hpre
    cases he
    refine ⟨h.content.file, ?_⟩
    rcases hphase with hout | ⟨v, hseen⟩
    · rw [Ghost.move_file_out hout]
      exact hstay h
    · rw [Ghost.move_file_seen hseen]
      have hv := (h.call i).phase
      rw [hseen] at hv
      exact h.read (by rw [hseen]; rfl) (by rw [hseen]; rfl) rfl rfl ⟨hv, rfl⟩
  | acquiresleep jp site =>
    obtain ⟨rfl, hout⟩ := hpre
    obtain ⟨hfree, rfl⟩ := exec_acquiresleep he
    rw [locksInode, decide_eq_true rfl]
    exact ⟨trivial, h.acquire p hout hfree⟩
  | inode jp =>
    obtain ⟨rfl, hgot⟩ := hpre
    cases he
    exact ⟨h.content.regular, h.read (by rw [hgot]; rfl) (by rw [hgot]; rfl) rfl rfl rfl⟩
  | iupdate jp w =>
    obtain ⟨rfl, v, off, c, rest, hready, -, hw⟩ := hpre
    obtain ⟨rfl, -⟩ := exec_iupdate he
    rw [storesInode, decide_eq_true rfl, hready]
    refine ⟨trivial, h.store hoff₀ hready hw ?_ rfl rfl⟩
    exact update_self ..
  | setOff g off =>
    obtain ⟨rfl, hstored⟩ := hpre
    cases he
    exact ⟨trivial, h.advance hstored⟩
  | releasesleep jp =>
    obtain ⟨rfl, hphase⟩ := hpre
    cases he
    refine ⟨trivial, ?_⟩
    rcases hphase with hdone | ⟨v, off, c, rest, hready, hw⟩
    · rw [Ghost.move_release_done hdone]
      exact h.release hoff₀ (.inl ⟨hdone, rfl⟩)
    · have hmove : (G i).move (.releasesleep jp) () = ⟨(G i).left, .failed⟩ := by rw [hready]; rfl
      rw [hmove]
      exact h.release hoff₀ (.inr ⟨v, off, c, rest, hready, hw, rfl⟩)
  | load jp =>
    obtain rfl := hpre
    refine ⟨trivial, ?_⟩
    rcases exec_load he with ⟨-, rfl⟩ | ⟨-, rfl⟩
    · exact hstay h
    · refine hstay (h.frame rfl ?_ ?_)
      · rw [St.inoOf, St.inoOf, St.setEntry_icache, update_self]
        rfl
      · rw [St.setEntry_icache, update_self]
  | beginOp =>
    obtain rfl := exec_beginOp he
    exact ⟨trivial, hstay (h.frame rfl rfl rfl)⟩
  | endOp =>
    cases he
    exact ⟨trivial, hstay (h.frame rfl rfl rfl)⟩
  | ref jp | holdingsleep jp =>
    cases he
    exact ⟨trivial, hstay h⟩
  | panic e => cases he
  | _ => exact absurd hpre id

/-- A new call changes nothing. -/
theorem enter {cs' : Nat → List (List UInt8)}
    (hcs : ∀ j, j ≠ i → cs' j = cs j) (hnew : i ∉ locks) (hi : (G i).phase = .out) :
    Sound f ip data₀ off₀ cs' s locks stores (update G i ⟨cs' i, .out⟩) := by
  have hstores : i ∉ stores := fun hmem => hnew (h.sub.subset hmem)
  have hphase : ∀ j, (update G i ⟨cs' i, .out⟩ j).phase = (G j).phase := by
    intro j
    by_cases hj : j = i
    · rw [hj, update_self, hi]
    · rw [update_of_ne hj]
  have hwoven : ∀ l, i ∉ l → woven cs' l = woven cs l := by
    intro l hl
    apply woven_congr
    intro j hj
    apply hcs
    rintro rfl
    exact hl hj
  refine ⟨fun j => ?_, ?_, ?_, ?_, h.sub⟩
  · by_cases hj : j = i
    · have hzero : stores.count i = 0 := List.count_eq_zero.mpr hstores
      have hpend := (h.call i).pending
      rw [hi] at hpend
      rw [hj, update_self]
      refine ⟨?_, ?_, nofun, trivial, nofun, hpend, nofun⟩
      · rw [hzero, List.drop_zero]
      · rw [hzero]
        exact Nat.zero_le _
    · have hcall := h.call j
      rw [update_of_ne hj]
      refine { hcall with left := ?_, count := ?_, phase := ?_, failed := fun hc => ?_ }
      · rw [hcs j hj]
        exact hcall.left
      · rw [hcs j hj]
        exact hcall.count
      · rw [hwoven stores hstores]
        exact hcall.phase
      · obtain ⟨m, hm, hcount, hchunk⟩ := hcall.failed hc
        refine ⟨m, hm, hcount, ?_⟩
        rw [hwoven _ fun hmem => hstores (List.mem_of_mem_take hmem)]
        exact hchunk
  · rw [hwoven stores hstores]
    exact h.content
  · simp only [hphase, hwoven stores hstores]
    exact h.off
  · simp only [hphase]
    exact h.one

end

end Sound

/-- File `f` is open for writing on the regular file `ip`, at an offset within it; nobody has locked the inode. -/
structure OpenOn (s : St) (f : FileId) (ip : Slot) : Prop where
  file : (s.ftable f).type = .inode ∧ (s.ftable f).writable = true ∧ (s.ftable f).ip = ip
  regular : (s.inoOf ip).type = .file
  off_le : (s.ftable f).off ≤ (s.inoOf ip).data.length
  size_le : (s.inoOf ip).data.length ≤ MAXFILE * BSIZE
  unlocked : (s.icache ip).lock = none

section AllCalls

variable {f : FileId} {ip : Slot} {s₀ : St} {W V : Writing} {G : Nat → Ghost}

/-- Every call's code is verified with its ghost, and the ghosts are right. -/
structure WriteInv (f : FileId) (ip : Slot) (s₀ : St) (W : Writing) (G : Nat → Ghost) : Prop where
  code : ∀ i c, W.calls[i]? = some c → Writes f ip c.code (Ended c.src) (G i)
  none : ∀ i, W.calls.length ≤ i → (G i).phase = .out
  known : ∀ i ∈ W.locks, i < W.calls.length
  sound : Sound f ip (s₀.inoOf ip).data (s₀.ftable f).off W.chunksOf W.st W.locks W.stores G

theorem WriteInv.start (hs : OpenOn s₀ f ip) : WriteInv f ip s₀ ⟨s₀, [], [], [], Option.none⟩ fun _ => ⟨[], .out⟩ where
  code i c hc := by cases hc
  none _ _ := rfl
  known i hi := by cases hi
  sound := by
    have hdata : (s₀.inoOf ip).data = splice (s₀.inoOf ip).data (s₀.ftable f).off [] := by
      rw [splice, List.append_nil, List.length_nil, Nat.add_zero, List.take_append_drop]
    refine ⟨fun i => ⟨rfl, Nat.zero_le _, fun hl => ?_, trivial, fun hf => ?_, rfl, fun hl => ?_⟩,
      ⟨hs.file, hs.regular, hdata, hs.off_le.trans hs.size_le⟩, fun _ => rfl, fun i j hl => ?_, List.Sublist.refl []⟩
    · cases hl
    · cases hf
    · cases hl
    · cases hl

theorem chunksOf_call (c : Writer) (j : Nat) : ({ W with calls := W.calls ++ [c] } : Writing).chunksOf j =
    if j = W.calls.length then chunks c.src else W.chunksOf j := by
  unfold Writing.chunksOf
  by_cases hj : j = W.calls.length
  · rw [if_pos hj, hj, List.getElem?_concat_length]
  · rw [if_neg hj]
    rcases Nat.lt_or_ge j W.calls.length with hlt | hge
    · rw [List.getElem?_append_left hlt]
    · have hnone : (W.calls ++ [c])[j]? = Option.none := by
        rw [List.getElem?_eq_none_iff, List.length_append, List.length_singleton]
        omega
      rw [hnone, List.getElem?_eq_none_iff.mpr hge]

theorem chunksOf_step {i : Nat} {p : Pid} {src : List UInt8} {c d : Prog Int} (h : W.calls[i]? = some ⟨p, src, c⟩)
    (s : St) (locks stores : List Nat) (e : Option Panic) :
    (⟨s, W.calls.set i ⟨p, src, d⟩, locks, stores, e⟩ : Writing).chunksOf = W.chunksOf := by
  funext j
  unfold Writing.chunksOf
  by_cases hj : j = i
  · have hlt : i < W.calls.length := (List.getElem?_eq_some_iff.mp h).1
    rw [hj, h, List.getElem?_set_self hlt]
  · rw [List.getElem?_set_ne (Ne.symm hj)]

/-- **A step of the machine.** -/
theorem WriteInv.step (h : WriteInv f ip s₀ W G) (hs : OpenOn s₀ f ip) (hstep : Writing.Step f ip W V) :
    ∃ G', WriteInv f ip s₀ V G' := by
  cases hstep with
  | call p src =>
    have hlen : W.calls.length ∉ W.locks := fun hmem => absurd (h.known _ hmem) (Nat.lt_irrefl _)
    have hcs : ∀ j, j ≠ W.calls.length →
        ({ W with calls := W.calls ++ [⟨p, src, filewrite f src⟩] } : Writing).chunksOf j = W.chunksOf j := by
      intro j hj
      rw [chunksOf_call, if_neg hj]
    have hsound := h.sound.enter hcs hlen (h.none _ (Nat.le_refl _))
    rw [chunksOf_call, if_pos rfl] at hsound
    refine ⟨_, ?_, ?_, ?_, hsound⟩
    · intro i c hc
      by_cases hi : i = W.calls.length
      · rw [hi, List.getElem?_concat_length] at hc
        cases hc
        rw [hi, update_self]
        exact filewrite_writes src
      · rw [update_of_ne hi]
        have hlt := (List.getElem?_eq_some_iff.mp hc).1
        rw [List.length_append, List.length_singleton] at hlt
        rw [List.getElem?_append_left (by omega)] at hc
        exact h.code i c hc
    · intro i hi
      rw [List.length_append, List.length_singleton] at hi
      rw [update_of_ne (by omega)]
      exact h.none i (by omega)
    · intro i hi
      rw [List.length_append]
      exact Nat.lt_add_right 1 (h.known i hi)
  | @act i p src a k s r hcall hexec =>
    obtain ⟨hpre, hcode⟩ := h.code i _ hcall
    obtain ⟨hfact, hsound⟩ := h.sound.step hs.off_le hpre hexec
    have hlt : i < W.calls.length := (List.getElem?_eq_some_iff.mp hcall).1
    refine ⟨update G i ((G i).move a r), ?_, ?_, ?_, ?_⟩
    · intro j c hc
      by_cases hj : j = i
      · rw [hj, List.getElem?_set_self hlt] at hc
        cases hc
        rw [hj, update_self]
        exact hcode r _ ⟨hfact, rfl⟩
      · rw [List.getElem?_set_ne (Ne.symm hj)] at hc
        rw [update_of_ne hj]
        exact h.code j c hc
    · intro j hj
      rw [List.length_set] at hj
      rw [update_of_ne (by omega)]
      exact h.none j hj
    · intro j hj
      rw [List.length_set]
      unfold noted at hj
      split at hj
      · rcases List.mem_append.mp hj with hj | hj
        · exact h.known j hj
        · rw [List.mem_singleton.mp hj]
          exact hlt
      · exact h.known j hj
    · rw [chunksOf_step hcall]
      exact hsound
  | halt e => exact ⟨G, h.code, h.none, h.known, h.sound⟩

theorem writeInv_reachable (hs : OpenOn s₀ f ip) (h : (writers f ip s₀).Reachable anyStep W) :
    ∃ G, WriteInv f ip s₀ W G := by
  refine Machine.invariant (I := fun W => ∃ G, WriteInv f ip s₀ W G) ?_ ?_ h
  · rintro W rfl
    exact ⟨_, WriteInv.start hs⟩
  · rintro W l V ⟨G, hinv⟩ - hstep
    exact hinv.step hs (Writing.step_cases hstep)

/-- Call `i` got the lock for its next chunk when the stores before were the first `m`, and with that chunk the file
    would have been longer than a file can be; it has stored no chunk since. -/
def Writing.TurnedDown (W : Writing) (off₀ i m : Nat) : Prop :=
  (W.stores.take m).count i = W.stores.count i ∧ ∃ c, (W.chunksOf i)[W.stores.count i]? = some c ∧
    MAXFILE * BSIZE < off₀ + (woven W.chunksOf (W.stores.take m)).length + c.length

/-- **Writers that share an open file never overwrite each other.**  In every state of every interleaving: the content is
    the one at the beginning with all chunks, in the order of the locks and each call's in order, laid over it from the
    initial offset on; the offset has advanced by their total, unless a call is about to store it.  A call that has
    returned has stored all its chunks and returned `n`, or has stored those before one that would have made the file
    too long and returned -1. -/
theorem shared_writes (hs : OpenOn s₀ f ip) (h : (writers f ip s₀).Reachable anyStep W) :
    (W.st.inoOf ip).data = splice (s₀.inoOf ip).data (s₀.ftable f).off (woven W.chunksOf W.stores) ∧
    ((W.st.icache ip).lock = none → (W.st.ftable f).off = (s₀.ftable f).off + (woven W.chunksOf W.stores).length) ∧
    W.stores.Sublist W.locks ∧ ∀ i c, W.calls[i]? = some c →
      (W.chunksOf i).flatten = c.src ∧ (∀ b ∈ W.chunksOf i, b.length ≤ maxWrite) ∧
      W.stores.count i ≤ (W.chunksOf i).length ∧
      W.stores.count i ≤ W.locks.count i ∧ W.locks.count i ≤ W.stores.count i + 1 ∧
      ∀ r, c.code = .ret r → (r = c.src.length ∨ r = -1) ∧
        (r = c.src.length ↔ W.stores.count i = (W.chunksOf i).length) ∧
        (r = -1 ↔ ∃ m ≤ W.stores.length, W.TurnedDown (s₀.ftable f).off i m) := by
  obtain ⟨G, hinv⟩ := writeInv_reachable hs h
  have hsound := hinv.sound
  refine ⟨hsound.content.data, fun hfree => ?_, hsound.sub, fun i c hc => ?_⟩
  · apply hsound.off
    intro i o hi
    apply (hsound.call i).lock _ hfree
    rw [hi]
    rfl
  · have hchunks : W.chunksOf i = chunks c.src := by
      unfold Writing.chunksOf
      rw [hc]
    have hcall := hsound.call i
    have hpend := hcall.pending
    have hone := (G i).phase.pending_le
    refine ⟨?_, ?_, hcall.count, by omega, by omega, fun r hr => ?_⟩
    · rw [hchunks, flatten_chunks]
    · rw [hchunks]
      intro b hb
      exact (mem_chunks hb).2
    · have hended : Ended c.src r (G i) := by
        have hcode := hinv.code i c hc
        rw [hr] at hcode
        exact hcode
      have hleft := hcall.left
      have hcount := hcall.count
      rcases hended with ⟨rfl, hghost⟩ | ⟨rfl, hfailed⟩
      · -- all chunks are stored, so none was turned down
        rw [hghost] at hleft
        have hall := List.drop_eq_nil_iff.mp hleft.symm
        have heq : W.stores.count i = (W.chunksOf i).length := Nat.le_antisymm hcount hall
        refine ⟨.inl rfl, iff_of_true rfl heq, iff_of_false (by omega) ?_⟩
        rintro ⟨m, -, -, b, hb, -⟩
        have hlt := (List.getElem?_eq_some_iff.mp hb).1
        omega
      · obtain ⟨m, hm, hcountm, b, rest, hb, hlong⟩ := hcall.failed hfailed
        rw [hb] at hleft
        have hget : (W.chunksOf i)[W.stores.count i]? = some b := by
          rw [← List.head?_drop, ← hleft]
          rfl
        have hlt := (List.getElem?_eq_some_iff.mp hget).1
        exact ⟨.inr rfl, iff_of_false (by omega) (by omega), iff_of_true rfl ⟨m, hm, hcountm, b, hget, hlong⟩⟩

end AllCalls

/-! ## Two writers -/

/-- All files are open on an empty regular file. -/
def emptyOpen : St := { boot (fun _ => ⟨.file, 0, 0, 1, []⟩) with ftable := fun _ => ⟨.inode, 1, true, true, 0, 0⟩ }

theorem emptyOpen_open : OpenOn emptyOpen 0 0 :=
  ⟨⟨rfl, rfl, rfl⟩, rfl, Nat.le_refl _, Nat.zero_le _, rfl⟩

/-- Two processes write one byte each; the second one is faster. -/
def twoWriters : List WriteLabel :=
  .call 0 [97] :: .call 1 [98] :: .step 0 :: (List.replicate 13 (.step 1) ++ List.replicate 12 (.step 0))

theorem twoWriters_run : ((writers 0 0 emptyOpen).run ⟨emptyOpen, [], [], [], none⟩ twoWriters).any (fun W =>
    decide (W.stores = [1, 0] ∧ W.chunksOf 0 = [[97]] ∧ W.chunksOf 1 = [[98]])) = true := by
  decide +kernel

/-- Both bytes are in the file. -/
theorem shared_writes_two : ∃ W, (writers 0 0 emptyOpen).Reachable anyStep W ∧ (W.st.inoOf 0).data = [98, 97] := by
  obtain ⟨W, hW, hstores, h0, h1⟩ := Machine.reachable_of_run (M := writers 0 0 emptyOpen) rfl twoWriters_run
  obtain ⟨hdata, -⟩ := shared_writes emptyOpen_open hW
  refine ⟨W, hW, hdata.trans ?_⟩
  have hwoven : woven W.chunksOf [1, 0] = [98, 97] := by simp [woven, List.range_succ, h0, h1]
  rw [hstores, hwoven]
  rfl

end Xv6.Kernel
