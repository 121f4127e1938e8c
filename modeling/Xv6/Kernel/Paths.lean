/-
  PATH RESOLUTION IS A FOLD — `skipelem`, `namex`, `namei` and `nameiparent` of `fs.c`.

  A path is read twice here.  THE CODE walks along the string with a name buffer of `DIRSIZ` bytes that every call of
  `skipelem` overwrites in part (`skipelemBuf`, `namexBuf`).  THE MEANING splits the string at `'/'` (`components`) and
  looks the components up one after the other (`resolve`, `resolveParent`); it knows no cache, no locks and no buffer.

  * `namexBuf_walk` — the loop over the string is the loop over the elements, `walk` of `Kernel.Calls`.
  * `pathElems_components` — the elements are the components that are not empty, cut to `DIRSIZ` bytes.
  * `walk_cons` — one round of the loop, with all its outcomes; `walk_walkTo` — all rounds.
  * `path_resolution` — the whole.
-/
import Mathlib
import Xv6.Kernel.Alone
import Xv6.Kernel.RefCounts

namespace Xv6.Kernel

open Threads Outcome

variable {s t u : St} {p : Pid} {ip : Slot} {path rest : List UInt8} {name : Name}

/-! ## Components -/

/-- What stands between slashes, except for empty strings. -/
def components (path : List UInt8) : List (List UInt8) := (path.splitOn slash).filter (· ≠ [])

theorem components_slash (path : List UInt8) : components (slash :: path) = components path := by
  rw [components, components, List.splitOn, List.splitOnP_cons_eq_if_modifyHead, if_pos (beq_self_eq_true slash)]
  rfl

theorem components_dropWhile (path : List UInt8) : components (path.dropWhile (· == slash)) = components path := by
  induction path with
  | nil => rfl
  | cons b s ih =>
    rw [List.dropWhile_cons]
    split
    · rename_i hb
      rw [ih, LawfulBEq.eq_of_beq hb, components_slash]
    · rfl

variable {c : List UInt8}

/-- A component ends at a slash or with the path. -/
theorem components_append (hc : c ≠ []) (hslash : ∀ b ∈ c, (b == slash) = false)
    (hrest : ∀ b ∈ rest.head?, b = slash) : components (c ++ rest) = c :: components rest := by
  have hkeep : decide (c ≠ []) = true := decide_eq_true hc
  cases rest with
  | nil =>
    rw [List.append_nil, components, List.splitOn, List.splitOnP_eq_singleton hslash,
      List.filter_cons_of_pos (p := fun x => decide (x ≠ [])) hkeep]
    rfl
  | cons b l =>
    obtain rfl := hrest b rfl
    rw [components_slash, components, List.splitOn, List.splitOnP_append_cons_of_forall_mem hslash slash rfl,
      List.filter_cons_of_pos (p := fun x => decide (x ≠ [])) hkeep]
    rfl

/-- The first component, and the rest. -/
theorem components_split {b : UInt8} (hb : (b == slash) = false) : components (b :: rest) =
    (b :: rest).takeWhile (· != slash) :: components (((b :: rest).dropWhile (· != slash)).dropWhile (· == slash)) := by
  rw [components_dropWhile]
  conv_lhs => rw [← List.takeWhile_append_dropWhile (p := (· != slash)) (l := b :: rest)]
  apply components_append
  · rw [List.takeWhile_cons_of_pos (by simp [bne, hb])]
    exact List.cons_ne_nil _ _
  · intro c hc
    simpa using List.mem_takeWhile_imp hc
  · intro c hc
    have hhead := List.head?_dropWhile_not (· != slash) (b :: rest)
    rw [Option.mem_def.mp hc] at hhead
    simpa using hhead

/-- **The elements of a path are its components.** -/
theorem pathElems_components (path : List UInt8) : pathElems path = (components path).map .ofBytes := by
  induction hn : path.length using Nat.strong_induction_on generalizing path with
  | _ n ih =>
    rw [pathElems_eq, ← components_dropWhile]
    cases hskip : skipelem path with
    | none =>
      unfold skipelem at hskip
      cases hdrop : path.dropWhile (· == slash) with
      | nil => rfl
      | cons b s => rw [hdrop] at hskip; cases hskip
    | some r =>
      obtain ⟨name, rest⟩ := r
      have hlt := skipelem_lt hskip
      unfold skipelem at hskip
      cases hdrop : path.dropWhile (· == slash) with
      | nil => rw [hdrop] at hskip; cases hskip
      | cons b s =>
        have hb : (b == slash) = false := by
          have hhead := List.head?_dropWhile_not (· == slash) path
          rw [hdrop] at hhead
          simpa using hhead
        rw [hdrop] at hskip
        obtain ⟨rfl, rfl⟩ := Prod.mk.inj (Option.some.inj hskip)
        rw [components_split hb, List.map_cons]
        exact congrArg _ (ih _ (hn ▸ hlt) _ rfl)

theorem subset_of_mem_splitOn (hc : c ∈ path.splitOn slash) : c ⊆ path := by
  induction path generalizing c with
  | nil =>
    rw [List.mem_singleton.mp hc]
    exact List.nil_subset _
  | cons b l ih =>
    rw [List.splitOn, List.splitOnP_cons_eq_if_modifyHead] at hc
    split at hc
    · rcases List.mem_cons.mp hc with rfl | hmem
      · exact List.nil_subset _
      · exact List.subset_cons_of_subset b (ih hmem)
    · cases hsplit : List.splitOnP (· == slash) l with
      | nil => rw [hsplit] at hc; cases hc
      | cons d ds =>
        have hall : ∀ e ∈ d :: ds, e ⊆ l := by
          intro e he
          rw [← hsplit] at he
          exact ih he
        rw [hsplit, List.modifyHead_cons] at hc
        rcases List.mem_cons.mp hc with rfl | hmem
        · exact List.cons_subset_cons b (hall d List.mem_cons_self)
        · exact List.subset_cons_of_subset b (hall c (List.mem_cons_of_mem d hmem))

/-- A component is cut to its first `DIRSIZ` bytes. -/
theorem ofBytes_val (h0 : 0 ∉ c) : (Name.ofBytes c).val = c.take DIRSIZ := by
  refine List.takeWhile_eq_self_iff.mpr ?_
  intro b hb
  apply decide_eq_true
  rintro rfl
  exact h0 (List.mem_of_mem_take hb)

/-! ## The name buffer -/

/-- `char name[DIRSIZ]` -/
structure NameBuf where
  bytes : List UInt8
  size : bytes.length = DIRSIZ

/-- The name that `namecmp` and `strncpy` see in it. -/
def NameBuf.text (name : NameBuf) : Name := .ofBytes name.bytes

/-- The two `memmove`s of `skipelem`: a long element fills the buffer and has no terminator; a short one gets one, and
    what was behind it stays. -/
def NameBuf.store (name : NameBuf) (s : List UInt8) : NameBuf :=
  if h : DIRSIZ ≤ s.length then ⟨s.take DIRSIZ, by rw [List.length_take, Nat.min_eq_left h]⟩
  else ⟨s ++ 0 :: name.bytes.drop (s.length + 1), by
    rw [List.length_append, List.length_cons, List.length_drop, name.size]
    omega⟩

/-- What was in the buffer does not show. -/
theorem NameBuf.text_store (name : NameBuf) (h0 : 0 ∉ c) : (name.store c).text = .ofBytes c := by
  by_cases hlen : DIRSIZ ≤ c.length
  · rw [store, dif_pos hlen]
    refine Subtype.ext ?_
    show ((c.take DIRSIZ).take DIRSIZ).takeWhile _ = (c.take DIRSIZ).takeWhile _
    rw [List.take_take, Nat.min_self]
  · rw [store, dif_neg hlen, text]
    have hle : c.length ≤ DIRSIZ := by omega
    have hval : (Name.ofBytes c).val = c := by rw [ofBytes_val h0, List.take_of_length_le hle]
    have hpad := (Name.ofBytes c).ofBytes_val (name.bytes.drop (c.length + 1))
    rwa [hval] at hpad

/-- `skipelem`, with the buffer. -/
def skipelemBuf (path : List UInt8) (name : NameBuf) : Option (List UInt8 × NameBuf) :=
  let path := path.dropWhile (· == slash)
  if path = [] then none
  else
    let s := path.takeWhile (· != slash)
    let path := path.dropWhile (· != slash)
    some (path.dropWhile (· == slash), name.store s)

theorem skipelemBuf_none {name : NameBuf} (h : skipelemBuf path name = none) : skipelem path = none := by
  unfold skipelemBuf at h
  unfold skipelem
  cases hdrop : path.dropWhile (· == slash) with
  | nil => rfl
  | cons b s => simp [hdrop] at h

theorem skipelemBuf_some {name name' : NameBuf} (h0 : 0 ∉ path) (h : skipelemBuf path name = some (rest, name')) :
    skipelem path = some (name'.text, rest) ∧ 0 ∉ rest := by
  unfold skipelemBuf at h
  unfold skipelem
  cases hdrop : path.dropWhile (· == slash) with
  | nil => simp [hdrop] at h
  | cons b s =>
    have hmem : 0 ∉ b :: s := by
      intro hzero
      rw [← hdrop] at hzero
      exact h0 ((List.dropWhile_suffix _).subset hzero)
    simp only [hdrop, List.cons_ne_nil, if_false, Option.some.injEq, Prod.mk.injEq] at h
    obtain ⟨rfl, rfl⟩ := h
    constructor
    · rw [NameBuf.text_store]
      intro hzero
      exact hmem ((List.takeWhile_prefix _).subset hzero)
    · intro hzero
      exact hmem ((List.dropWhile_suffix _).subset ((List.dropWhile_suffix _).subset hzero))

/-- The names that at most `n` calls of `skipelem` leave in the buffer, one after the other. -/
def namesBuf : Nat → List UInt8 → NameBuf → List NameBuf
  | 0, _, _ => []
  | n + 1, path, name =>
    match skipelemBuf path name with
    | none => []
    | some (rest, name') => name' :: namesBuf n rest name'

theorem namesBuf_text {n : Nat} {name : NameBuf} (h0 : 0 ∉ path) : (namesBuf n path name).map (·.text) = elems n path := by
  induction n generalizing path name with
  | zero => rfl
  | succ n ih =>
    simp only [namesBuf, elems]
    cases hskip : skipelemBuf path name with
    | none =>
      rw [skipelemBuf_none hskip]
      rfl
    | some r =>
      obtain ⟨rest, name'⟩ := r
      obtain ⟨helem, hrest⟩ := skipelemBuf_some h0 hskip
      rw [helem]
      exact congrArg _ (ih hrest)

/-! ## `namex` with the buffer -/

/-- The end of `namex`, when the path is used up. -/
def namexEnd (nameiparent : Bool) (ip : Slot) (name : NameBuf) : Prog (Option (Slot × NameBuf)) := do
  if nameiparent then
    iput ip .iput
    return none
  else return some (ip, name)

/-- The loop of `namex`, for at most `n` rounds; a path has no more elements than bytes. -/
def namexLoop (nameiparent : Bool) : Nat → List UInt8 → NameBuf → Slot → Prog (Option (Slot × NameBuf))
  | 0, _, name, ip => namexEnd nameiparent ip name
  | n + 1, path, name, ip =>
    match skipelemBuf path name with
    | none => namexEnd nameiparent ip name
    | some (path, name) => do
      ilock ip
      let v ← act (.inode ip)
      if v.type ≠ .dir then
        iunlockput ip .iput
        return none
      else if nameiparent ∧ path = [] then
        -- stop one level early
        iunlock ip
        return some (ip, name)
      else
        match ← dirlookup ip name.text with
        | none =>
          iunlockput ip .iput
          return none
        | some (next, _) =>
          iunlockput ip .iput
          namexLoop nameiparent n path name next

/-- `namex(path, nameiparent, name)` -/
def namexBuf (path : List UInt8) (nameiparent : Bool) (name : NameBuf) : Prog (Option (Slot × NameBuf)) := do
  let ip ← pathStart path
  namexLoop nameiparent path.length path name ip

/-- `namei(path)`; the buffer is on the stack, with whatever is there. -/
def nameiBuf (path : List UInt8) (name : NameBuf) : Prog (Option Slot) := do
  let r ← namexBuf path false name
  return r.map Prod.fst

/-- `nameiparent(path, name)` -/
def nameiparentBuf (path : List UInt8) (name : NameBuf) : Prog (Option (Slot × NameBuf)) := namexBuf path true name

/-- What is found, with the name that the buffer holds. -/
def found (r : Option (Slot × NameBuf)) : Option (Slot × Name) := r.map fun x => (x.1, x.2.text)

theorem namexEnd_walk (parent : Bool) (ip : Slot) (name : NameBuf) :
    (namexEnd parent ip name >>= fun r => pure (found r)) = walk parent [] ip name.text := by
  cases parent with
  | false => rfl
  | true =>
    show (_ >>= _ >>= _) = _
    rw [Code.bind_assoc]
    rfl

/-- **The loop over the string is the loop over the elements.** -/
theorem namexLoop_walk (parent : Bool) {n : Nat} {name : NameBuf} (h0 : 0 ∉ path) (hn : path.length ≤ n) (ip : Slot) :
    (namexLoop parent n path name ip >>= fun r => pure (found r)) = walk parent (pathElems path) ip name.text := by
  induction n generalizing path name ip with
  | zero =>
    obtain rfl := List.length_eq_zero_iff.mp (Nat.le_zero.mp hn)
    exact namexEnd_walk parent ip name
  | succ n ih =>
    rw [pathElems_eq, namexLoop]
    cases hskip : skipelemBuf path name with
    | none =>
      rw [skipelemBuf_none hskip]
      exact namexEnd_walk parent ip name
    | some r =>
      obtain ⟨rest, name'⟩ := r
      obtain ⟨helem, hrest⟩ := skipelemBuf_some h0 hskip
      have hlt := skipelem_lt helem
      have hnil := rest_eq_nil_iff helem
      rw [helem]
      simp only [walk, Code.bind_assoc]
      congr 1
      funext _
      congr 1
      funext v
      split
      · rw [Code.bind_assoc]
        rfl
      · simp only [hnil]
        split
        · rw [Code.bind_assoc]
          rfl
        · rw [Code.bind_assoc]
          congr 1
          funext x
          cases x with
          | none =>
            rw [Code.bind_assoc]
            rfl
          | some y =>
            rw [Code.bind_assoc]
            congr 1
            funext _
            exact ih hrest (by omega) y.1

theorem namexBuf_walk (path : List UInt8) (h0 : 0 ∉ path) (parent : Bool) (name : NameBuf) :
    (namexBuf path parent name >>= fun r => pure (found r)) =
      pathStart path >>= fun ip => walk parent (pathElems path) ip name.text := by
  rw [namexBuf, Code.bind_assoc]
  congr 1
  funext ip
  exact namexLoop_walk parent h0 (Nat.le_refl _) ip

/-! ## The meaning of a path -/

section Meaning

variable {ino : Nat → Ino} {n : Nat} {names : List Name}

/-- One step: the inode that directory `n` has under the name. -/
def lookup (ino : Nat → Ino) (n : Nat) (name : Name) : Option Nat :=
  if (ino n).type = .dir then (findEntry (ino n).data name).map fun k => (direntAt (ino n).data k).inum else none

/-- **The inode reached by looking up one name after the other.** -/
def resolve (ino : Nat → Ino) (n : Nat) (names : List Name) : Option Nat := names.foldlM (lookup ino) n

/-- **The directory of the last name**, reached by the names before it. -/
def resolveParent (ino : Nat → Ino) (n : Nat) (names : List Name) : Option (Nat × Name) := do
  let last ← names.getLast?
  let dir ← resolve ino n names.dropLast
  if (ino dir).type = .dir then some (dir, last) else none

theorem lookup_eq_none : lookup ino n name = none ↔ (ino n).type ≠ .dir ∨ findEntry (ino n).data name = none := by
  unfold lookup
  split
  · rename_i hdir
    rw [Option.map_eq_none_iff]
    simp [hdir]
  · rename_i hdir
    simp [hdir]

theorem resolve_cons (rest : List Name) : resolve ino n (name :: rest) = (lookup ino n name).bind fun m => resolve ino m rest :=
  rfl

/-- A path leads nowhere iff some lookup fails, or is in something other than a directory. -/
theorem resolve_eq_none : resolve ino n names = none ↔ ∃ before name after m, names = before ++ name :: after ∧
    resolve ino n before = some m ∧ ((ino m).type ≠ .dir ∨ findEntry (ino m).data name = none) := by
  simp only [← lookup_eq_none]
  constructor
  · intro h
    induction names generalizing n with
    | nil => cases h
    | cons name rest ih =>
      rw [resolve_cons] at h
      cases hlook : lookup ino n name with
      | none => exact ⟨[], name, rest, n, rfl, rfl, hlook⟩
      | some m =>
        rw [hlook] at h
        obtain ⟨before, name', after, m', rfl, hbefore, hnone⟩ := ih h
        refine ⟨name :: before, name', after, m', rfl, ?_, hnone⟩
        rw [resolve_cons, hlook]
        exact hbefore
  · rintro ⟨before, name, after, m, rfl, hbefore, hnone⟩
    rw [resolve, List.foldlM_append]
    rw [resolve] at hbefore
    rw [hbefore]
    show (lookup ino m name).bind _ = none
    rw [hnone]
    rfl

theorem resolveParent_eq_none : resolveParent ino n names = none ↔ names = [] ∨ resolve ino n names.dropLast = none ∨
    ∃ dir, resolve ino n names.dropLast = some dir ∧ (ino dir).type ≠ .dir := by
  unfold resolveParent
  cases hlast : names.getLast? with
  | none => simp [List.getLast?_eq_none_iff.mp hlast]
  | some last =>
    have hne : names ≠ [] := by
      rintro rfl
      cases hlast
    cases hdir : resolve ino n names.dropLast with
    | none => simp
    | some dir => simp [hne]

theorem resolveParent_singleton : resolveParent ino n [name] = if (ino n).type = .dir then some (n, name) else none := rfl

theorem resolveParent_cons {rest : List Name} (h : rest ≠ []) :
    resolveParent ino n (name :: rest) = (lookup ino n name).bind fun m => resolveParent ino m rest := by
  unfold resolveParent
  cases rest with
  | nil => exact absurd rfl h
  | cons name' rest' =>
    rw [List.getLast?_cons_cons, List.dropLast_cons_cons, resolve_cons]
    cases lookup ino n name with
    | none => cases (name' :: rest').getLast? <;> rfl
    | some m => rfl

/-- The loop of `namex`, without cache and locks. -/
def walkTo (ino : Nat → Ino) (parent : Bool) : List Name → Nat → Name → Option (Nat × Name)
  | [], n, name => if parent then none else some (n, name)
  | name :: rest, n, _ =>
    if (ino n).type ≠ .dir then none
    else if parent ∧ rest = [] then some (n, name)
    else (lookup ino n name).bind fun m => walkTo ino parent rest m name

theorem walkTo_false (names : List Name) (n : Nat) (name : Name) :
    (walkTo ino false names n name).map Prod.fst = resolve ino n names := by
  induction names generalizing n name with
  | nil => rfl
  | cons name' rest ih =>
    rw [walkTo, resolve_cons]
    split
    · rename_i hdir
      rw [lookup_eq_none.mpr (.inl hdir)]
      rfl
    · rw [if_neg (by simp)]
      cases lookup ino n name' with
      | none => rfl
      | some m => exact ih m name'

theorem walkTo_true (names : List Name) (n : Nat) (name : Name) : walkTo ino true names n name = resolveParent ino n names := by
  induction names generalizing n name with
  | nil => rfl
  | cons name' rest ih =>
    rw [walkTo]
    by_cases hrest : rest = []
    · simp only [hrest, resolveParent_singleton, and_self, if_true, ne_eq, ite_not]
    · rw [resolveParent_cons hrest, if_neg (c := _ ∧ _) fun h => hrest h.2]
      split
      · rename_i hdir
        rw [lookup_eq_none.mpr (.inl hdir)]
        rfl
      · cases lookup ino n name' with
        | none => rfl
        | some m => exact ih m name'

end Meaning

/-! ## One round of the loop -/

variable {dev inum : Nat}

theorem exec_iget_halt {e : Panic} (h : exec s p (.iget dev inum) = .halt e) :
    e = .igetNoInodes ∧ ∀ e, (s.icache e).ref ≠ 0 := by
  unfold exec at h
  dsimp only at h
  cases hc : s.cached dev inum with
  | some ip => rw [hc] at h; cases h
  | none =>
    rw [hc] at h
    cases hempty : s.empty with
    | some ip => simp only [hempty] at h; cases h
    | none =>
      simp only [hempty] at h
      cases h
      refine ⟨rfl, fun e => ?_⟩
      have hnone := List.find?_eq_none.mp hempty e (List.mem_finRange e)
      simpa using hnone

theorem exec_iget_blocked (h : exec s p (.iget dev inum) = .blocked) : False := by
  unfold exec at h
  dsimp only at h
  cases hc : s.cached dev inum with
  | some ip => rw [hc] at h; cases h
  | none =>
    rw [hc] at h
    cases hempty : s.empty with
    | some ip | none => simp only [hempty] at h; cases h

theorem dirlookup_meets (t : St) (p : Pid) (dp : Slot) (name : Name) : Meets (alone p (dirlookup dp name) t)
    (fun r u => r = none ∧ u = t ∧ findEntry (t.inoOf dp).data name = none ∨
      ∃ k ip, r = some (ip, k) ∧ findEntry (t.inoOf dp).data name = some k ∧
        exec t p (.iget (t.icache dp).dev (direntAt (t.inoOf dp).data k).inum) = .ok u ip)
    (fun e => e = some .notDir ∧ (t.inoOf dp).type ≠ .dir ∨
      e = some .dirlookupRead ∧ (t.inoOf dp).data.length % DESIZE ≠ 0 ∨
      e = some .igetNoInodes ∧ ∀ e, (t.icache e).ref ≠ 0) := by
  unfold dirlookup
  apply meets_act_ok (r := t.inoOf dp) rfl
  split
  · rename_i hdir
    exact meets_panic (.inl ⟨rfl, hdir⟩)
  · cases hfind : findEntry (t.inoOf dp).data name with
    | none =>
      show Meets (alone p (if _ then _ else _) t) _ _
      split
      · rename_i hlen
        exact meets_panic (.inr (.inl ⟨rfl, hlen⟩))
      · exact meets_ret (.inl ⟨rfl, rfl, rfl⟩)
    | some k =>
      apply meets_act_ok (r := ((t.icache dp).dev, (t.icache dp).inum)) rfl
      apply meets_act
      · intro u ip hget
        exact meets_ret (.inr ⟨k, ip, rfl, rfl, hget⟩)
      · intro hblocked
        exact absurd hblocked fun h => exec_iget_blocked h
      · intro e hhalt
        obtain ⟨rfl, hfull⟩ := exec_iget_halt hhalt
        exact .inr (.inr ⟨rfl, hfull⟩)

/-- The circumstances under which a round at `ip` does not end: a reference that is none, a lock that somebody else
    holds, an inode that is free, a directory with half an entry, a cache that is full. -/
inductive Stuck (t : St) (ip : Slot) : Option Panic → Prop
  | noRef (h : (t.icache ip).ref < 1) : Stuck t ip (some .ilock)
  | locked (h : (t.icache ip).lock ≠ none) : Stuck t ip none
  | free (h : (t.inoOf ip).type = .free) : Stuck t ip (some .noType)
  | half (hdir : (t.inoOf ip).type = .dir) (h : (t.inoOf ip).data.length % DESIZE ≠ 0) : Stuck t ip (some .dirlookupRead)
  | full (h : ∀ e, (t.icache e).ref ≠ 0) : Stuck t ip (some .igetNoInodes)

/-- The inode has a name, or is referred to by others. -/
def Lasting (t : St) (ip : Slot) : Prop := (t.inoOf ip).nlink ≠ 0 ∨ (t.icache ip).ref ≠ 1

theorem Lasting.not_last (h : Lasting t ip) : ¬ t.last ip := by
  rintro ⟨-, hnlink, href⟩
  exact h.elim (fun h => h hnlink) fun h => h href

/-- **One round of `namex`'s loop**, from a state in which the call holds one reference, to `ip`. -/
theorem walk_cons {parent : Bool} {rest : List Name} {old : Name} {Q : Option (Slot × Name) → St → Prop}
    {E : Option Panic → Prop} (h : Walking s t p (one ip) none)
    (hnone : ∀ u, (t.inoOf ip).type ≠ .dir ∨ ¬ (parent ∧ rest = []) ∧ findEntry (t.inoOf ip).data name = none →
      Walking s u p 0 none → (Lasting t ip → u.ino = t.ino) → Q none u)
    (hstop : ∀ u, (t.inoOf ip).type = .dir → parent ∧ rest = [] → Walking s u p (one ip) none → u.ino = t.ino →
      Steady t u → Q (some (ip, name)) u)
    (hnext : ∀ u k next, (t.inoOf ip).type = .dir → ¬ (parent ∧ rest = []) → findEntry (t.inoOf ip).data name = some k →
      Walking s u p (one next) none → (Lasting t ip → u.ino = t.ino) →
      (u.icache next).inum = (direntAt (t.inoOf ip).data k).inum → Meets (alone p (walk parent rest next name) u) Q E)
    (hE : ∀ e, Stuck t ip e → E e) : Meets (alone p (walk parent (name :: rest) ip old) t) Q E := by
  have hone : 1 ≤ one ip ip := le_of_eq (one_self ip).symm
  rw [walk]
  apply meets_bind ((h.ilock ip).mono (fun _ _ hq => hq) ?_)
  · -- locked
    rintro - v ⟨hv, hfree, href, hino, hsteady⟩
    have hsame := hsteady.inoOf hino ip
    have href' : ¬ (v.icache ip).ref < 1 := by
      rw [hv.ref ip, ← h.ref ip]
      omega
    have hput : Meets (alone p (iunlockput ip .iput) v)
        (fun _ u => Walking s u p 0 none ∧ (Lasting t ip → u.ino = t.ino)) E := by
      refine (hv.iunlockput hfree hone .iput).mono ?_ fun e he => absurd he.2 href'
      rintro - u ⟨hu, hkeep, -⟩
      rw [sub_self] at hu
      refine ⟨hu, fun hlast => ?_⟩
      have hlast' : Lasting v ip := by
        rw [Lasting, hsame, hv.ref ip, ← h.ref ip]
        exact hlast
      rw [hkeep hlast'.not_last, hino]
    apply meets_act_ok (r := v.inoOf ip) rfl
    rw [hsame]
    split
    · -- not a directory
      rename_i hdir
      apply meets_bind hput
      rintro - u ⟨hu, hkeep⟩
      exact meets_ret (hnone u (.inl hdir) hu hkeep)
    rename_i hdir
    rw [not_not] at hdir
    split
    · -- stop one level early
      rename_i hstopped
      apply meets_bind ((hv.iunlock hfree).mono (fun _ _ hq => hq) fun e he => absurd he.2 href')
      rintro - u ⟨hu, hino', hsteady'⟩
      exact meets_ret (hstop u hdir hstopped hu (hino'.trans hino) (hsteady.trans hsteady'))
    rename_i hgo
    apply meets_bind ((dirlookup_meets v p ip name).mono (fun _ _ hq => hq) ?_)
    · rintro r w (⟨rfl, rfl, hfind⟩ | ⟨k, next, rfl, hfind, hget⟩)
      · rw [hsame] at hfind
        apply meets_bind hput
        rintro - u ⟨hu, hkeep⟩
        exact meets_ret (hnone u (.inr ⟨hgo, hfind⟩) hu hkeep)
      · rw [hsame] at hfind hget
        obtain ⟨hw, hino', hinum, hident⟩ := hv.iget hget
        have hnonneg := one_nonneg next ip
        have hvref := hv.ref ip
        have htref := h.ref ip
        have hwref := hw.ref ip
        have hsum : (one ip + one next) ip = one ip ip + one next ip := rfl
        have hident' := hident ip (by omega)
        apply meets_bind ((hw.iunlockput hfree (by omega) .iput).mono (fun _ _ hq => hq) ?_)
        · rintro - u ⟨hu, hkeep, hsteady'⟩
          rw [add_sub_cancel_left] at hu
          refine hnext u k next hdir hgo hfind hu (fun hlast => ?_) ((hsteady' next).2.trans hinum)
          have hlast' : Lasting w ip := by
            have hsame' : w.inoOf ip = t.inoOf ip := by rw [St.inoOf, hident'.2, hino']; exact hsame
            rw [Lasting, hsame']
            refine hlast.imp id fun hne => ?_
            omega
          rw [hkeep hlast'.not_last, hino', hino]
        · rintro e ⟨-, hlt⟩
          omega
    · rintro e (⟨-, hne⟩ | ⟨rfl, hlen⟩ | ⟨rfl, hfull⟩)
      · exact absurd (hsame ▸ hdir) hne
      · rw [hsame] at hlen
        exact hE _ (.half hdir hlen)
      · refine hE _ (.full fun e => ?_)
        rw [h.ref e, ← hv.ref e]
        exact hfull e
  · rintro e (⟨rfl, hlt⟩ | ⟨rfl, hlock⟩ | ⟨rfl, -, hfree⟩)
    · exact hE _ (.noRef hlt)
    · exact hE _ (.locked hlock)
    · exact hE _ (.free hfree)

/-! ## All rounds -/

/-- A directory tree, on the inodes `S`: none of them is free, directories consist of whole entries, and an entry leads
    to an inode of the tree that has a name. -/
structure Tree (ino : Nat → Ino) (S : Set Nat) : Prop where
  root : ROOTINO ∈ S ∧ (ino ROOTINO).nlink ≠ 0
  used : ∀ n ∈ S, (ino n).type ≠ .free
  whole : ∀ n ∈ S, (ino n).type = .dir → (ino n).data.length % DESIZE = 0
  entries : ∀ n ∈ S, (ino n).type = .dir → ∀ name k, findEntry (ino n).data name = some k →
    (direntAt (ino n).data k).inum ∈ S ∧ (ino (direntAt (ino n).data k).inum).nlink ≠ 0

/-- No inode is locked, and process `p` has a directory of the tree. -/
structure Ready (s : St) (p : Pid) (S : Set Nat) : Prop where
  unlocked : ∀ e, (s.icache e).lock = none
  ref : ∀ e, 0 ≤ (s.icache e).ref
  cwd : ∃ c, (s.procs p).cwd = some c ∧ 1 ≤ (s.icache c).ref ∧ (s.icache c).inum ∈ S

/-- Two entries of the cache are not in use. -/
def Roomy (s : St) : Prop := ∃ e e', e ≠ e' ∧ (s.icache e).ref = 0 ∧ (s.icache e').ref = 0

/-- The cache has no two entries for the walk. -/
def Crowded (s : St) (e : Option Panic) : Prop := e = some .igetNoInodes ∧ ¬ Roomy s

/-- The references of a call that returns `r`. -/
def handed : Option Slot → Slot → Int
  | none => 0
  | some ip => one ip

variable {S : Set Nat}

/-- With one reference taken, there is an entry left. -/
theorem Walking.not_full (h : Walking s t p (one ip) none) (hfull : ∀ e, (t.icache e).ref ≠ 0) : ¬ Roomy s := by
  rintro ⟨e, e', hne, he, he'⟩
  have hother : ∀ e, (s.icache e).ref = 0 → e = ip := by
    intro e hzero
    by_contra hip
    apply hfull e
    rw [h.ref e, hzero, one_ne hip, Int.zero_add]
  exact hne ((hother e he).trans (hother e' he').symm)

/-- What the walk needs to know of the inode it has got to. -/
structure At (s t : St) (p : Pid) (S : Set Nat) (ip : Slot) : Prop where
  walking : Walking s t p (one ip) none
  ino : t.ino = s.ino
  mem : (t.icache ip).inum ∈ S
  lasting : (s.ino (t.icache ip).inum).nlink ≠ 0 ∨ 1 ≤ (s.icache ip).ref

namespace At

theorem inoOf (h : At s t p S ip) : t.inoOf ip = s.ino (t.icache ip).inum := by rw [St.inoOf, h.ino]

theorem to_lasting (h : At s t p S ip) : Lasting t ip := by
  rw [Lasting, h.inoOf]
  refine h.lasting.imp id fun href => ?_
  rw [h.walking.ref ip, one_self]
  omega

/-- A round ends unless the cache is full. -/
theorem crowded (hs : Ready s p S) (htree : Tree s.ino S) (h : At s t p S ip) {e : Option Panic} (he : Stuck t ip e) :
    Crowded s e := by
  have hsame := h.inoOf
  cases he with
  | noRef hlt =>
    rw [h.walking.ref ip, one_self] at hlt
    have hnonneg := hs.ref ip
    omega
  | locked hlock =>
    rw [h.walking.lock ip, if_neg (Option.some_ne_none _).symm] at hlock
    exact absurd (hs.unlocked ip) hlock
  | free hfree =>
    rw [hsame] at hfree
    exact absurd hfree (htree.used _ h.mem)
  | half hdir hlen =>
    rw [hsame] at hdir hlen
    exact absurd (htree.whole _ h.mem hdir) hlen
  | full hfull => exact ⟨rfl, h.walking.not_full hfull⟩

end At

/-- **The walk along the names**: it returns what `walkTo` says, with a reference to that inode and to no other. -/
theorem walk_walkTo (hs : Ready s p S) (htree : Tree s.ino S) (parent : Bool) (names : List Name) (h : At s t p S ip)
    (old : Name) : Meets (alone p (walk parent names ip old) t)
      (fun r u => Walking s u p (handed (r.map Prod.fst)) none ∧ u.ino = s.ino ∧
        r.map (fun x => ((u.icache x.1).inum, x.2)) = walkTo s.ino parent names (t.icache ip).inum old)
      (Crowded s) := by
  induction names generalizing t ip old with
  | nil =>
    rw [walk]
    cases parent with
    | false => exact meets_ret ⟨h.walking, h.ino, rfl⟩
    | true =>
      have hone : 1 ≤ one ip ip := le_of_eq (one_self ip).symm
      apply meets_bind ((h.walking.iput hone .iput).mono (fun _ _ hq => hq) ?_)
      · rintro - u ⟨hu, hkeep, -⟩
        rw [sub_self] at hu
        exact meets_ret ⟨hu, (hkeep h.to_lasting.not_last).trans h.ino, rfl⟩
      · rintro e ⟨rfl, hlock⟩
        exact At.crowded hs htree h (.locked hlock)
  | cons name rest ih =>
    have hsame := h.inoOf
    refine walk_cons h.walking ?_ ?_ ?_ fun e he => At.crowded hs htree h he
    · intro u hfail hu hkeep
      refine ⟨hu, (hkeep h.to_lasting).trans h.ino, ?_⟩
      rw [hsame] at hfail
      rw [walkTo]
      rcases hfail with hdir | ⟨hgo, hfind⟩
      · rw [if_pos hdir]
        rfl
      · rw [if_neg hgo, lookup_eq_none.mpr (.inr hfind)]
        split <;> rfl
    · intro u hdir hstop hu hino hsteady
      refine ⟨hu, hino.trans h.ino, ?_⟩
      rw [hsame] at hdir
      rw [walkTo, if_neg (not_not.mpr hdir), if_pos hstop, ← (hsteady ip).2]
      rfl
    · intro u k next hdir hgo hfind hu hkeep hinum
      rw [hsame] at hdir hfind hinum
      obtain ⟨hmem, hnlink⟩ := htree.entries _ h.mem hdir name k hfind
      have hat : At s u p S next := by
        refine ⟨hu, (hkeep h.to_lasting).trans h.ino, ?_, .inl ?_⟩
        · rw [hinum]
          exact hmem
        · rw [hinum]
          exact hnlink
      have hlook : lookup s.ino (t.icache ip).inum name = some (u.icache next).inum := by
        rw [lookup, if_pos hdir, hfind, hinum]
        rfl
      rw [walkTo, if_neg (not_not.mpr hdir), if_neg hgo, hlook]
      exact ih hat name

/-- Where a path starts: at the root, or in the current directory. -/
def startOf (s : St) (p : Pid) (path : List UInt8) : Nat :=
  if path.head? = some slash then ROOTINO
  else match (s.procs p).cwd with
    | some c => (s.icache c).inum
    | none => 0

theorem pathStart_at (hs : Ready s p S) (htree : Tree s.ino S) (path : List UInt8) :
    Meets (alone p (pathStart path) s) (fun ip t => At s t p S ip ∧ (t.icache ip).inum = startOf s p path) (Crowded s) := by
  rw [pathStart, startOf]
  split
  · rw [← Code.bind_ret (act (.iget ROOTDEV ROOTINO))]
    apply meets_act
    · intro t ip hget
      obtain ⟨ht, hino, hinum, -⟩ := (Walking.refl s p).iget hget
      rw [zero_add] at ht
      refine meets_ret ⟨⟨ht, hino, ?_, .inl ?_⟩, hinum⟩
      · rw [hinum]
        exact htree.root.1
      · rw [hinum]
        exact htree.root.2
    · intro hblocked
      exact absurd hblocked fun h => exec_iget_blocked h
    · intro e hhalt
      obtain ⟨rfl, hfull⟩ := exec_iget_halt hhalt
      refine ⟨rfl, ?_⟩
      rintro ⟨e, -, -, he, -⟩
      exact hfull e he
  · obtain ⟨c, hcwd, href, hmem⟩ := hs.cwd
    have hexec : exec s p .cwd = .ok s c := by simp only [exec, hcwd]
    have hdup : exec s p (.idup c) = .ok ((s.setEntry c { s.icache c with ref := (s.icache c).ref + 1 }).hold p c) () := rfl
    apply meets_act_ok hexec
    apply meets_act_ok hdup
    obtain ⟨ht, hino, hsteady⟩ := (Walking.refl s p).idup hdup
    rw [zero_add] at ht
    refine meets_ret ⟨⟨ht, hino, ?_, .inr href⟩, ?_⟩
    · rw [(hsteady c).2]
      exact hmem
    · rw [(hsteady c).2, hcwd]

theorem namexBuf_walkTo (hs : Ready s p S) (htree : Tree s.ino S) (h0 : 0 ∉ path) (parent : Bool) (name : NameBuf) :
    Meets (alone p (namexBuf path parent name) s)
      (fun r u => Walking s u p (handed (r.map Prod.fst)) none ∧ u.ino = s.ino ∧
        r.map (fun x => ((u.icache x.1).inum, x.2.text)) =
          walkTo s.ino parent ((components path).map .ofBytes) (startOf s p path) name.text)
      (Crowded s) := by
  have hwalk : Meets (alone p (namexBuf path parent name >>= fun r => pure (found r)) s)
      (fun r u => Walking s u p (handed (r.map Prod.fst)) none ∧ u.ino = s.ino ∧
        r.map (fun x => ((u.icache x.1).inum, x.2)) =
          walkTo s.ino parent ((components path).map .ofBytes) (startOf s p path) name.text)
      (Crowded s) := by
    rw [namexBuf_walk path h0, pathElems_components]
    apply meets_bind (pathStart_at hs htree path)
    rintro ip t ⟨hat, hstart⟩
    rw [← hstart]
    exact walk_walkTo hs htree parent _ hat name.text
  refine (meets_of_map hwalk).mono ?_ fun _ he => he
  rintro r u ⟨hu, hino, hres⟩
  simp only [found, Option.map_map] at hu hres
  exact ⟨hu, hino, hres⟩

/-- **Path resolution is a fold over components.**  The calls of `skipelem` deliver the components of the path, whatever
    is in the buffer.  `namei` returns the inode that looking them up leads to, `nameiparent` the directory of the last
    one; each with a new reference to what it returns and nothing else changed.  They stop only for want of an entry in
    the cache. -/
theorem path_resolution (path : List UInt8) (h0 : 0 ∉ path) (name : NameBuf) :
    (∀ n, path.length ≤ n → (namesBuf n path name).map (·.text.val) = (components path).map (·.take DIRSIZ)) ∧
    ∀ (s : St) (p : Pid) (S : Set Nat) (names : List Name), Ready s p S → Tree s.ino S →
      names = (components path).map .ofBytes →
      Meets (alone p (nameiBuf path name) s)
        (fun r u => Walking s u p (handed r) none ∧ u.ino = s.ino ∧
          r.map (fun ip => (u.icache ip).inum) = resolve s.ino (startOf s p path) names ∧
          (r = none ↔ ∃ before name after n, names = before ++ name :: after ∧
            resolve s.ino (startOf s p path) before = some n ∧
            ((s.ino n).type ≠ .dir ∨ findEntry (s.ino n).data name = none)))
        (Crowded s) ∧
      Meets (alone p (nameiparentBuf path name) s)
        (fun r u => Walking s u p (handed (r.map Prod.fst)) none ∧ u.ino = s.ino ∧
          r.map (fun x => ((u.icache x.1).inum, x.2.text)) = resolveParent s.ino (startOf s p path) names ∧
          (r = none ↔ names = [] ∨
            (∃ before name after n, names.dropLast = before ++ name :: after ∧
              resolve s.ino (startOf s p path) before = some n ∧
              ((s.ino n).type ≠ .dir ∨ findEntry (s.ino n).data name = none)) ∨
            ∃ dir, resolve s.ino (startOf s p path) names.dropLast = some dir ∧ (s.ino dir).type ≠ .dir))
        (Crowded s) := by
  refine ⟨fun n hn => ?_, fun s p S names hs htree hnames => ⟨?_, ?_⟩⟩
  · have htext : (namesBuf n path name).map (·.text) = (components path).map .ofBytes := by
      rw [namesBuf_text h0, elems_enough n path.length path hn (Nat.le_refl _)]
      exact pathElems_components path
    have hval := congrArg (List.map fun n : Name => n.val) htext
    rw [List.map_map, List.map_map] at hval
    refine hval.trans (List.map_congr_left ?_)
    intro c hc
    apply ofBytes_val
    intro hzero
    exact h0 (subset_of_mem_splitOn (List.mem_filter.mp hc).1 hzero)
  · rw [nameiBuf]
    apply meets_bind (namexBuf_walkTo hs htree h0 false name)
    rintro r u ⟨hu, hino, hres⟩
    have hfold : (r.map Prod.fst).map (fun ip => (u.icache ip).inum) = resolve s.ino (startOf s p path) names := by
      rw [← hnames] at hres
      rw [← walkTo_false names _ name.text, ← hres, Option.map_map, Option.map_map]
      rfl
    refine meets_ret ⟨hu, hino, hfold, ?_⟩
    rw [← resolve_eq_none, ← hfold]
    exact Option.map_eq_none_iff.symm
  · refine (namexBuf_walkTo hs htree h0 true name).mono ?_ fun _ he => he
    rintro r u ⟨hu, hino, hres⟩
    rw [← hnames, walkTo_true] at hres
    refine ⟨hu, hino, hres, ?_⟩
    rw [← resolve_eq_none, ← resolveParent_eq_none, ← hres]
    exact Option.map_eq_none_iff.symm

/-! ## A root directory with one subdirectory -/

theorem dirImage_tree : Tree dirImage {1, 2} where
  root := by decide
  used := by
    rintro n (rfl | rfl) <;> decide
  whole := by
    rintro n (rfl | rfl) - <;> decide
  entries := by
    have hone : ∀ k < 3, (direntAt (dirImage 1).data k).inum ∈ ({1, 2} : Set Nat) ∧
        (dirImage (direntAt (dirImage 1).data k).inum).nlink ≠ 0 := by decide +kernel
    have htwo : ∀ k < 2, (direntAt (dirImage 2).data k).inum ∈ ({1, 2} : Set Nat) ∧
        (dirImage (direntAt (dirImage 2).data k).inum).nlink ≠ 0 := by decide +kernel
    rintro n hn - name k hfind
    have hk := List.mem_range.mp (List.mem_of_find?_eq_some hfind)
    rcases hn with rfl | rfl
    · exact hone k hk
    · exact htwo k hk

theorem dirImage_ready : Ready (boot dirImage) initproc {1, 2} where
  unlocked := by decide
  ref := by decide
  cwd := ⟨0, rfl, by decide, by decide⟩

/-- `namei("//d/..")` leads back to the root. -/
theorem path_resolution_up : ∃ r u,
    alone initproc (nameiBuf [slash, slash, 100, slash, 46, 46] ⟨List.replicate DIRSIZ 120, rfl⟩) (boot dirImage) =
      .ok (r, u) ∧ r.map (fun ip => (u.icache ip).inum) = some 1 := by
  have hroomy : Roomy (boot dirImage) := ⟨1, 2, by decide, rfl, rfl⟩
  obtain ⟨-, hres⟩ := path_resolution [slash, slash, 100, slash, 46, 46] (by decide) ⟨List.replicate DIRSIZ 120, rfl⟩
  obtain ⟨hnamei, -⟩ := hres (boot dirImage) initproc {1, 2} _ dirImage_ready dirImage_tree rfl
  obtain ⟨r, u, hrun, -, -, hfold, -⟩ := hnamei.returns fun e he => he.2 hroomy
  refine ⟨r, u, hrun, hfold.trans ?_⟩
  decide +kernel

end Xv6.Kernel
