/-
  EVERY PAGE IS OWNED EXACTLY ONCE.

  * The calls, one by one: each keeps both accounts (`Acct`), on success and on every failure, and says which
    processes it changes.
  * `Inv` — the accounts between calls, with what the calls rely on: no process is half made, only a live one
    has open files, and a size is below `KERNBASE`.
  * `pages_owned` — from `kinit1` on, in every state that a sequence of calls reaches.
-/
import Xv6.Vm.Account
import Xv6.Vm.Boot

namespace Xv6.Vm

open Machines Outcome
open Function (update update_idem update_self update_apply update_of_ne)

variable {L : Layout} {S T U : St} {p q : Slot} {K : Page → Int} {t : Page} {hand : FileId → Int}

/-- Both accounts, with no file in the hand of a call. -/
abbrev Clean (K : Page → Int) (t : Page) (S : St) : Prop := Acct K t (fun _ => 0) S

/-! ## Calls on files -/

/-- Only descriptors of `p` have changed. -/
def Frame (p : Slot) (S T : St) : Prop :=
  (∀ q, q ≠ p → T.procs q = S.procs q) ∧ ∃ o, T.procs p = { S.procs p with ofile := o }

theorem Frame.of_eq (p : Slot) (h : T.procs = S.procs) : Frame p S T :=
  ⟨fun q _ => congrFun h q, (S.procs p).ofile, congrFun h p⟩

theorem Frame.setOfile (S : St) (p : Slot) (fd : Fd) (v : Option FileId) : Frame p S (S.setOfile p fd v) :=
  ⟨fun _ hq => update_of_ne hq .., _, update_self ..⟩

theorem Frame.trans (h : Frame p S T) (h' : Frame p T U) : Frame p S U := by
  obtain ⟨hne, o, ho⟩ := h
  obtain ⟨hne', o', ho'⟩ := h'
  refine ⟨fun q hq => (hne' q hq).trans (hne q hq), o', ?_⟩
  rw [ho', ho]

theorem pipealloc_spec (L : Layout) (h : Clean K t S) (hK : ∀ x, K x ≤ 1) :
    Ends (pipealloc L S) fun r T => T.procs = S.procs ∧
      match r with
      | none => Clean K t T
      | some (f0, f1) => Acct K t (fun g => ofFile f0 g + ofFile f1 g) T := by
  unfold pipealloc
  refine (filealloc_spec h).bind fun r T₁ hT => ?_
  obtain ⟨hp₁, hr⟩ := hT
  cases r with
  | none =>
    obtain rfl : T₁ = S := hr
    exact ⟨rfl, h⟩
  | some f0 =>
    obtain ⟨_, hnone0, _, h₁⟩ := hr
    refine (filealloc_spec h₁).bind fun r T₂ hT => ?_
    obtain ⟨hp₂, hr⟩ := hT
    cases r with
    | none =>
      obtain rfl : T₂ = T₁ := hr
      refine (fileclose_spec L h₁ f0).bind fun _ T₃ hT => ?_
      obtain ⟨hp₃, h₃⟩ := hT
      refine ⟨hp₃.trans hp₁, h₃.cast (fun _ => rfl) fun g => ?_⟩
      omega
    | some f1 =>
      obtain ⟨hzero1, hnone1, hrest, h₂⟩ := hr
      refine (inMem_spec (kalloc_spec T₂.mem)).bind ?_
      rintro r T₃ ⟨m, rfl, hm⟩
      have h₃ := h₂.mem m
      cases r with
      | none =>
        refine (fileclose_spec L h₃ f0).bind fun _ T₄ hT => ?_
        obtain ⟨hp₄, h₄⟩ := hT
        refine (fileclose_spec L h₄ f1).bind fun _ T₅ hT => ?_
        obtain ⟨hp₅, h₅⟩ := hT
        refine ⟨hp₅.trans (hp₄.trans (hp₂.trans hp₁)), h₅.cast (fun x => ?_) fun g => ?_⟩
        · have := hm x
          rw [ofOption_none] at this
          omega
        · omega
      | some v =>
        -- the first file has a reference by now, so the second is another one
        have hone0 : (0 : Int) < (T₁.files f0).ref := by
          have := h₁.files.ref f0
          have := slots_nonneg T₁ f0
          have : ofFile f0 f0 = 1 := if_pos rfl
          omega
        have hne : f0 ≠ f1 := by
          rintro rfl
          omega
        have hone1 : (0 : Int) < (T₂.files f1).ref := by
          have := h₂.files.ref f1
          have := slots_nonneg T₂ f1
          have : ofFile f1 f1 = 1 := if_pos rfl
          have : ofFile f0 f1 = 0 := if_neg hne
          omega
        have hsame := hrest f0 hne
        have hv : K v - T₂.mem.owns v + m.owns v ≤ 0 := by
          have h1 := hm v
          have h2 := hK v
          rw [ofOption_some, ofPage, if_pos rfl] at h1
          omega
        refine (pipeInit_spec h₃ hv hne ?_ hnone1 ?_ ?_).bind fun _ T₄ hT => ?_
        · show (T₂.files f0).pipe = none
          rw [hsame, hnone0]
        · show 0 < (T₂.files f0).ref
          rw [hsame]
          omega
        · show 0 < (T₂.files f1).ref
          omega
        · obtain ⟨hp₄, h₄⟩ := hT
          refine ⟨hp₄.trans (hp₂.trans hp₁), h₄.cast (fun x => ?_) fun g => ?_⟩
          · have := hm x
            rw [ofOption_some] at this
            omega
          · omega

/-- Both files of a pipe that gets no descriptors. -/
theorem fileclose_both (L : Layout) {f g : FileId} (h : Acct K t (fun i => ofFile f i + ofFile g i) S) :
    Ends ((do fileclose L f; fileclose L g; pure (-1) : SysProg Int) S) fun _ T =>
      T.procs = S.procs ∧ Clean K t T := by
  refine (fileclose_spec L h f).bind fun _ T₁ ⟨hp₁, h₁⟩ => ?_
  refine (fileclose_spec L h₁ g).bind fun _ T₂ ⟨hp₂, h₂⟩ => ?_
  refine ⟨hp₂.trans hp₁, h₂.cast (fun _ => rfl) fun i => ?_⟩
  omega

theorem sysPipe_spec (L : Layout) (p : Slot) (h : Clean K t S) (hK : ∀ x, K x ≤ 1) :
    Ends (sysPipe L p S) fun _ T => Frame p S T ∧ Clean K t T := by
  unfold sysPipe
  refine (pipealloc_spec L h hK).bind fun r T₁ h₁ => ?_
  obtain ⟨hp₁, hr⟩ := h₁
  have hf₁ := Frame.of_eq p hp₁
  cases r with
  | none => exact ⟨hf₁, hr⟩
  | some fs =>
    obtain ⟨rf, wf⟩ := fs
    refine (fdalloc_spec hr p rf).bind fun r T₂ hr₂ => ?_
    cases r with
    | none =>
      obtain rfl : T₂ = T₁ := hr₂
      exact (fileclose_both L hr).mono fun _ U hU => ⟨hf₁.trans (.of_eq p hU.1), hU.2⟩
    | some fd0 =>
      obtain ⟨_, rfl, h₂⟩ := hr₂
      have hf₂ := hf₁.trans (.setOfile T₁ p fd0 (some rf))
      refine (fdalloc_spec h₂ p wf).bind fun r T₃ hr₃ => ?_
      cases r with
      | none =>
        obtain rfl : T₃ = T₁.setOfile p fd0 (some rf) := hr₃
        have hslot : ((T₁.setOfile p fd0 (some rf)).procs p).ofile fd0 = some rf := by
          simp only [St.setOfile, St.setProc, update_self]
        have h₃ : Acct K t (fun i => ofFile rf i + ofFile wf i)
            ((T₁.setOfile p fd0 (some rf)).setOfile p fd0 none) := by
          refine (h₂.setOfile p fd0 none).cast (fun _ => rfl) fun i => ?_
          rw [hslot, ofSlot_some, ofSlot, if_neg (by simp)]
          omega
        exact (fileclose_both L h₃).mono fun _ U hU =>
          ⟨(hf₂.trans (.setOfile _ p fd0 none)).trans (.of_eq p hU.1), hU.2⟩
      | some fd1 =>
        obtain ⟨_, rfl, h₃⟩ := hr₃
        refine ⟨hf₂.trans (.setOfile _ p fd1 (some wf)), h₃.cast (fun _ => rfl) fun i => ?_⟩
        omega

theorem sysClose_spec (L : Layout) (p : Slot) (fd : Fd) (h : Clean K t S) :
    Ends (sysClose L p fd S) fun _ T => Frame p S T ∧ Clean K t T := by
  unfold sysClose
  refine Ends.get ?_
  cases hfd : (S.procs p).ofile fd with
  | none => exact ⟨.of_eq p rfl, h⟩
  | some f =>
    refine Ends.modify ?_
    refine (fileclose_spec L (h.setOfile p fd none) f).bind fun _ T₁ ⟨hp, h₁⟩ => ?_
    refine ⟨(Frame.setOfile S p fd none).trans (.of_eq p hp), h₁.cast (fun _ => rfl) fun i => ?_⟩
    rw [hfd, ofSlot_some, ofSlot, if_neg (by simp)]
    omega

theorem sysDup_spec (p : Slot) (fd : Fd) (h : Clean K t S) :
    Ends (sysDup p fd S) fun _ T => Frame p S T ∧ Clean K t T := by
  unfold sysDup
  refine Ends.get ?_
  cases hfd : (S.procs p).ofile fd with
  | none => exact ⟨.of_eq p rfl, h⟩
  | some f =>
    refine (fdalloc_spec h p f).bind fun r T₁ hr => ?_
    cases r with
    | none =>
      obtain rfl : T₁ = S := hr
      exact ⟨.of_eq p rfl, h⟩
    | some fd' =>
      obtain ⟨_, rfl, h₁⟩ := hr
      refine (filedup_spec h₁ f).bind fun _ T₂ ⟨hp, h₂⟩ => ?_
      refine ⟨(Frame.setOfile S p fd' (some f)).trans (.of_eq p hp), h₂.cast (fun _ => rfl) fun i => ?_⟩
      omega

theorem sysOpen_spec (L : Layout) (p : Slot) (h : Clean K t S) :
    Ends (sysOpen L p S) fun _ T => Frame p S T ∧ Clean K t T := by
  unfold sysOpen
  refine (filealloc_spec h).bind fun r T₁ ⟨hp₁, hr⟩ => ?_
  have hf₁ := Frame.of_eq p hp₁
  cases r with
  | none =>
    obtain rfl : T₁ = S := hr
    exact ⟨hf₁, h⟩
  | some f =>
    have h₁ := hr.2.2.2
    refine (fdalloc_spec h₁ p f).bind fun r T₂ hr₂ => ?_
    cases r with
    | none =>
      obtain rfl : T₂ = T₁ := hr₂
      refine (fileclose_spec L h₁ f).bind fun _ T₃ ⟨hp₃, h₃⟩ => ?_
      refine ⟨hf₁.trans (.of_eq p hp₃), h₃.cast (fun _ => rfl) fun i => ?_⟩
      omega
    | some fd =>
      obtain ⟨_, rfl, h₂⟩ := hr₂
      refine ⟨hf₁.trans (.setOfile T₁ p fd (some f)), h₂.cast (fun _ => rfl) fun i => ?_⟩
      omega

/-! ## Processes -/

theorem procs_setProc (S : St) (p : Slot) (f : Proc → Proc) :
    (S.setProc p f).procs = update S.procs p (f (S.procs p)) := rfl

/-- `allocproc`: a kernel stack for an UNUSED slot, or only that slot's `kstack` cleared. -/
theorem allocproc_spec (h : Acct K t hand S) :
    Ends (allocproc S) fun r T => Acct K t hand T ∧
      match r with
      | none => T.procs = S.procs ∨ ∃ np, (S.procs np).state = .unused ∧
          T.procs = update S.procs np { S.procs np with state := .unused, kstack := none }
      | some np => (S.procs np).state = .unused ∧ ∃ v,
          T.procs = update S.procs np { S.procs np with state := .embryo, kstack := some v } := by
  unfold allocproc
  refine Ends.get ?_
  cases hfind : (List.finRange NPROC).find? fun p => (S.procs p).state = .unused with
  | none => exact ⟨h, .inl rfl⟩
  | some np =>
    have hunused : (S.procs np).state = .unused := of_decide_eq_true (List.find?_some hfind :)
    have howns : ∀ x, (S.procs np).owns x = 0 := fun x => by rw [Proc.owns, hunused]
    refine Ends.modify ?_
    have h₁ := h.setProc np (fun x => { x with state := .embryo }) rfl
    refine (inMem_spec (kalloc_spec _)).bind ?_
    rintro r T ⟨m, rfl, hm⟩
    have h₂ := h₁.mem m
    cases r with
    | none =>
      have h₃ := h₂.setProc np (fun x => { x with kstack := none, state := .unused }) rfl
      refine ⟨h₃.cast (fun x => ?_) fun _ => rfl, .inr ⟨np, hunused, ?_⟩⟩
      · have hx := hm x
        rw [ofOption_none] at hx
        simp only [St.setProc, update_self] at hx ⊢
        simp only [Proc.owns, hunused]
        omega
      · simp only [St.setProc, update_self, update_idem]
    | some v =>
      have h₃ := h₂.setProc np (fun x => { x with kstack := some v }) rfl
      refine ⟨h₃.cast (fun x => ?_) fun _ => rfl, hunused, v, ?_⟩
      · have hx := hm x
        rw [ofOption_some] at hx
        simp only [St.setProc, update_self] at hx ⊢
        simp only [Proc.owns, hunused, ofOption_some]
        omega
      · simp only [St.setProc, update_self, update_idem]

/-- `fork` copies the open files into a slot that has none. -/
theorem dupFiles_spec {np : Slot} (fds : List Fd) (hfds : fds.Nodup) (S : St)
    (h : Clean K t S) (hnone : ∀ fd ∈ fds, (S.procs np).ofile fd = none) :
    Ends (dupFiles p np fds S) fun _ T => Frame np S T ∧ Clean K t T := by
  induction fds generalizing S with
  | nil => exact ⟨.of_eq np rfl, h⟩
  | cons fd fds ih =>
    obtain ⟨hfd, hfds⟩ := List.nodup_cons.mp hfds
    unfold dupFiles
    refine Ends.get ?_
    cases hofile : (S.procs p).ofile fd with
    | none => exact ih hfds S h fun i hi => hnone i (List.mem_cons_of_mem fd hi)
    | some f =>
      refine (filedup_spec h f).bind fun _ T₁ h₁ => ?_
      obtain ⟨hp₁, h₁⟩ := h₁
      refine Ends.modify ?_
      have hslot : (T₁.procs np).ofile fd = none := by
        rw [hp₁]
        exact hnone fd List.mem_cons_self
      have h₂ : Clean K t (T₁.setOfile np fd (some f)) := by
        refine (h₁.setOfile np fd (some f)).cast (fun _ => rfl) fun g => ?_
        rw [hslot, ofSlot_some, ofSlot, if_neg (by simp)]
        omega
      refine (ih hfds _ h₂ fun i hi => ?_).mono fun _ U hU => ?_
      · have hne : i ≠ fd := by
          rintro rfl
          exact hfd hi
        simp only [St.setOfile, St.setProc, update_self, update_of_ne hne]
        rw [hp₁]
        exact hnone i (List.mem_cons_of_mem fd hi)
      · exact ⟨((Frame.of_eq np hp₁).trans (.setOfile T₁ np fd (some f))).trans hU.1, hU.2⟩

/-- A process between calls.  `exact` says whether its size is kept to (see `Vm.Size`). -/
structure Proc.Ok (exact : Prop) (a : Proc) : Prop where
  settled : a.state ≠ .embryo
  idle : a.state ≠ .alive → ∀ fd, a.ofile fd = none
  space : a.state = .alive → a.pgdir ≠ none
  size : a.sz < KERNBASE
  holds : exact → a.state ≠ .unused → ∀ A, a.pgdir = some A → A.Holds a.sz

variable {exact : Prop}

/-- A slot that is not in use. -/
theorem Proc.Ok.free {a b : Proc} (h : a.Ok exact) (ha : a.state ≠ .alive) (hb : b.state = .unused)
    (hof : b.ofile = a.ofile) (hsz : b.sz = a.sz) : b.Ok exact where
  settled := by rw [hb]; nofun
  idle := by rw [hof]; exact fun _ => h.idle ha
  space := by rw [hb]; nofun
  size := by rw [hsz]; exact h.size
  holds := fun _ hne => absurd hb hne

/-- Slots other than `p` stay as they are. -/
theorem ok_update {P : Slot → Proc} {a : Proc} (h : ∀ q, (P q).Ok exact) (ha : a.Ok exact) (q : Slot) :
    (update P p a q).Ok exact := by
  rcases eq_or_ne q p with rfl | hq
  · rw [update_self]
    exact ha
  · rw [update_of_ne hq]
    exact h q

theorem Frame.ok (hf : Frame p S T) (hp : (S.procs p).state = .alive) (h : ∀ q, (S.procs q).Ok exact) (q : Slot) :
    (T.procs q).Ok exact := by
  obtain ⟨hne, o, ho⟩ := hf
  rcases eq_or_ne q p with rfl | hq
  · have hq := h q
    rw [ho]
    exact ⟨hq.settled, fun hc => absurd hp hc, hq.space, hq.size, hq.holds⟩
  · rw [hne q hq]
    exact h q

/-- `exit` closes the descriptors one by one. -/
theorem closeFiles_spec (L : Layout) (fds : List Fd) (S : St) (h : Clean K t S) :
    Ends (closeFiles L p fds S) fun _ T => Frame p S T ∧ Clean K t T ∧
      ∀ fd, (fd ∈ fds → (T.procs p).ofile fd = none) ∧
        ((S.procs p).ofile fd = none → (T.procs p).ofile fd = none) := by
  induction fds generalizing S with
  | nil => exact ⟨.of_eq p rfl, h, fun fd => ⟨fun hfd => absurd hfd List.not_mem_nil, fun hnone => hnone⟩⟩
  | cons fd fds ih =>
    unfold closeFiles
    refine Ends.get ?_
    cases hofile : (S.procs p).ofile fd with
    | none =>
      refine (ih S h).mono fun _ T hT => ?_
      obtain ⟨hf, hT, hnone⟩ := hT
      refine ⟨hf, hT, fun i => ⟨fun hi => ?_, (hnone i).2⟩⟩
      rcases List.mem_cons.mp hi with rfl | hi
      · exact (hnone i).2 hofile
      · exact (hnone i).1 hi
    | some f =>
      refine (fileclose_spec L h f).bind fun _ T₁ h₁ => ?_
      obtain ⟨hp₁, h₁⟩ := h₁
      refine Ends.modify ?_
      have h₂ : Clean K t (T₁.setOfile p fd none) := by
        refine (h₁.setOfile p fd none).cast (fun _ => rfl) fun g => ?_
        rw [hp₁, hofile, ofSlot_some, ofSlot, if_neg (by simp)]
        omega
      have hcleared : ∀ i, i = fd ∨ (S.procs p).ofile i = none →
          ((T₁.setOfile p fd none).procs p).ofile i = none := by
        intro i hi
        simp only [St.setOfile, St.setProc, update_self, update_apply]
        split
        · rfl
        · rename_i hne
          rw [hp₁]
          exact hi.resolve_left hne
      refine (ih _ h₂).mono fun _ U hU => ?_
      obtain ⟨hf, hU, hnone⟩ := hU
      refine ⟨?_, hU, fun i => ⟨fun hi => ?_, fun hi => ?_⟩⟩
      · exact ((Frame.of_eq p hp₁).trans (.setOfile T₁ p fd none)).trans hf
      · rcases List.mem_cons.mp hi with rfl | hi
        · exact (hnone i).2 (hcleared i (.inl rfl))
        · exact (hnone i).1 hi
      · exact (hnone i).2 (hcleared i (.inr hi))

/-- A change of `parent` moves no page and no file. -/
theorem Acct.reparent (h : Acct K t hand S) (c : Proc → Option Slot) :
    Acct K t hand { S with procs := fun q => { S.procs q with parent := c (S.procs q) } } :=
  ⟨h.pages, h.top, { h.files with }⟩

/-- What a call of `growproc` promises: the new size is as asked for, or nothing has changed. -/
def Grown (p : Slot) (n r : Int) (S T : St) : Prop :=
  r = 0 ∧ ((T.procs p).sz : Int) = (S.procs p).sz + n ∨
  r = -1 ∧ (T.procs p).sz = (S.procs p).sz ∧
    ∀ A, (S.procs p).pgdir = some A → ∃ B, (T.procs p).pgdir = some B ∧ A.SameUser B

theorem setProc_setProc (S : St) (p : Slot) (f g : Proc → Proc) :
    (S.setProc p f).setProc p g = S.setProc p fun y => g (f y) := by
  simp only [St.setProc, update_self, update_idem]

section Calls

variable (h : Clean K t S) (hok : ∀ q, (S.procs q).Ok exact)
include h hok

theorem wait_spec (L : Layout) :
    Ends (wait L p S) fun _ T => Clean K t T ∧ ∀ q, (T.procs q).Ok exact := by
  unfold wait
  refine Ends.get ?_
  dsimp only
  cases hfind : (List.finRange NPROC).find? fun q => (S.procs q).parent = some p ∧ (S.procs q).state = .zombie with
  | none =>
    dsimp only
    split <;> exact ⟨h, hok⟩
  | some q =>
    have hzombie : (S.procs q).state = .zombie := (of_decide_eq_true (List.find?_some hfind :)).2
    dsimp only
    cases hv : (S.procs q).kstack with
    | none => trivial
    | some v =>
      refine (inMem_spec (kfree_spec L v S.mem)).bind ?_
      rintro _ T₁ ⟨m₁, rfl, hm₁⟩
      cases hA : (S.procs q).pgdir with
      | none => trivial
      | some A =>
        refine (inMem_spec (freevm_spec L A m₁)).bind ?_
        rintro _ T₂ ⟨m₂, rfl, hm₂⟩
        refine Ends.modify ?_
        have h₂ := (h.mem m₂).setProc q (fun x => { x with kstack := none, parent := none, state := .unused }) rfl
        refine ⟨h₂.cast (fun x => ?_) fun _ => rfl, ok_update hok ?_⟩
        · have hx₁ := hm₁ x
          have hx₂ := hm₂ x
          simp only [Proc.owns, hzombie, hv, hA, ofOption_some, dirOwns]
          omega
        · exact (hok q).free (by rw [hzombie]; nofun) rfl rfl rfl

variable (hp : (S.procs p).state = .alive)
include hp

theorem fork_spec (L : Layout) :
    Ends (fork L p S) fun _ T => Clean K t T ∧ ∀ q, (T.procs q).Ok exact := by
  unfold fork
  refine (allocproc_spec h).bind fun r T₁ ⟨h₁, hr⟩ => ?_
  cases r with
  | none =>
    refine ⟨h₁, fun q => ?_⟩
    rcases hr with hr | ⟨np, hnp, hr⟩
    · rw [hr]
      exact hok q
    · rw [hr]
      refine ok_update hok ?_ q
      exact (hok np).free (by rw [hnp]; nofun) rfl rfl rfl
  | some np =>
    obtain ⟨hnp, v, hr⟩ := hr
    have hne : p ≠ np := by
      rintro rfl
      rw [hnp] at hp
      cases hp
    have hidle := (hok np).idle (by rw [hnp]; nofun)
    have hT₁p : T₁.procs p = S.procs p := by rw [hr, update_of_ne hne]
    have hT₁np : T₁.procs np = { S.procs np with state := .embryo, kstack := some v } := by
      rw [hr, update_self]
    refine Ends.get ?_
    cases hA : (T₁.procs p).pgdir with
    | none => trivial
    | some A =>
      have hsz : (T₁.procs p).sz < KERNBASE := by
        rw [hT₁p]
        exact (hok p).size
      refine (inMem_spec (copyuvm_spec L A (Nat.le_of_lt hsz) T₁.mem)).bind ?_
      rintro r T₂ ⟨m, rfl, hm⟩
      have h₂ := h₁.mem m
      cases r with
      | none =>
        refine Ends.get ?_
        dsimp only
        rw [hT₁np]
        refine (inMem_spec (kfree_spec L v _)).bind ?_
        rintro _ T₃ ⟨m', rfl, hm'⟩
        refine Ends.modify ?_
        have h₃ := (h₂.mem m').setProc np (fun y => { y with pgdir := none, kstack := none, state := .unused }) rfl
        refine ⟨h₃.cast (fun x => ?_) fun _ => rfl, fun q => ?_⟩
        · have hx := hm x
          have hx' := hm' x
          dsimp only at hx' ⊢
          rw [hT₁np]
          simp only [Proc.owns, ofOption_some]
          omega
        · rw [procs_setProc]
          dsimp only
          rw [hr, update_self, update_idem]
          refine ok_update hok ?_ q
          exact (hok np).free (by rw [hnp]; nofun) rfl rfl rfl
      | some d =>
        obtain ⟨hown, hd⟩ := hm
        refine Ends.modify ?_
        -- the copy is in the slot, but counts only once the process is alive
        have h₃ : Clean (fun x => K x - d.owns x) t ({ T₁ with mem := m }.setProc np fun y =>
            { y with pgdir := some d, sz := (T₁.procs p).sz, parent := some p }) := by
          refine (h₂.setProc np _ rfl).cast (fun x => ?_) fun _ => rfl
          have hx := hown x
          dsimp only
          rw [hT₁np]
          dsimp only [Proc.owns]
          omega
        refine (dupFiles_spec _ (List.nodup_finRange NOFILE) _ h₃ fun fd _ => ?_).bind ?_
        · rw [procs_setProc, update_self]
          show (T₁.procs np).ofile fd = none
          rw [hT₁np]
          exact hidle fd
        · rintro _ T₄ ⟨⟨hother, o, ho⟩, h₄⟩
          rw [procs_setProc, update_self] at ho
          refine ⟨(h₄.setProc np (fun y => { y with state := .alive }) rfl).cast (fun x => ?_) fun _ => rfl,
            fun q => ?_⟩
          · rw [ho]
            dsimp only
            rw [hT₁np]
            dsimp only [Proc.owns, dirOwns]
            omega
          · rw [procs_setProc]
            rcases eq_or_ne q np with rfl | hq
            · rw [update_self, ho]
              refine ⟨nofun, fun hc => absurd rfl hc, fun _ => Option.some_ne_none d, hsz, fun _ _ B hB => ?_⟩
              obtain rfl : d = B := Option.some.inj hB
              exact hd
            · rw [update_of_ne hq, hother q hq, procs_setProc, update_of_ne hq]
              show (T₁.procs q).Ok exact
              rw [hr, update_of_ne hq]
              exact hok q

theorem exit_spec (L : Layout) :
    Ends (exit L p S) fun _ T => Clean K t T ∧ ∀ q, (T.procs q).Ok exact := by
  unfold exit
  split
  · trivial
  · refine (closeFiles_spec L _ S h).bind fun _ T₁ ⟨hf, h₁, hnone⟩ => ?_
    have hok₁ := hf.ok hp hok
    have halive : (T₁.procs p).state = .alive := by
      obtain ⟨_, o, ho⟩ := hf
      rw [ho]
      exact hp
    refine Ends.modify ?_
    -- `if` outside or inside the record, it is the same process
    have hreparent : (fun q => if (T₁.procs q).parent = some p then { T₁.procs q with parent := some initproc }
        else T₁.procs q) = fun q => { T₁.procs q with
          parent := if (T₁.procs q).parent = some p then some initproc else (T₁.procs q).parent } := by
      funext q
      split <;> rfl
    rw [hreparent]
    have h₂ := h₁.reparent fun a => if a.parent = some p then some initproc else a.parent
    refine ⟨(h₂.setProc p (fun x => { x with state := .zombie }) rfl).cast (fun x => ?_) fun _ => rfl, fun q => ?_⟩
    · simp only [Proc.owns, halive]
      omega
    · rcases eq_or_ne q p with rfl | hq
      · have hq := hok₁ q
        simp only [St.setProc, update_self]
        refine ⟨by rintro ⟨⟩, fun _ fd => ?_, by rintro ⟨⟩, hq.size, fun he _ => hq.holds he ?_⟩
        · exact (hnone fd).1 (List.mem_finRange fd)
        · rw [halive]
          rintro ⟨⟩
      · simp only [St.setProc, update_of_ne hq]
        have hq := hok₁ q
        exact ⟨hq.settled, hq.idle, hq.space, hq.size, hq.holds⟩

/-- The address space of `p` is another one, and so is its size. -/
theorem resize_spec {A B : Pgdir} {m : Mem} {sz : Nat} (hA : (S.procs p).pgdir = some A)
    (hm : Keeps S.mem A m B) (hsz : sz < KERNBASE) (hB : exact → B.Holds sz) :
    Clean K t ({ S with mem := m }.setProc p fun y => { y with pgdir := some B, sz := sz }) ∧
    ∀ q, (({ S with mem := m }.setProc p fun y => { y with pgdir := some B, sz := sz }).procs q).Ok exact := by
  constructor
  · refine ((h.mem m).setProc p _ rfl).cast (fun x => ?_) fun _ => rfl
    have hx := hm x
    simp only [Proc.owns, hp, hA, dirOwns]
    omega
  · refine ok_update hok ?_
    refine ⟨(hok p).settled, fun hc => absurd hp hc, fun _ => Option.some_ne_none B, hsz, fun he _ C hC => ?_⟩
    obtain rfl : B = C := Option.some.inj hC
    exact hB he

/-- The end of `growproc`, after `allocuvm` or `deallocuvm` has returned `sz`. -/
theorem grow_end {A B : Pgdir} {m : Mem} {sz : Nat} {n : Int} (hA : (S.procs p).pgdir = some A)
    (hm : Keeps S.mem A m B) (hlt : sz < KERNBASE)
    (hfail : sz = 0 → exact → A.SameUser B) (hnew : sz ≠ 0 → exact → B.Holds sz ∧ (sz : Int) = (S.procs p).sz + n) :
    Ends ((do
      modify fun S => S.setProc p fun y => { y with pgdir := some B }
      if sz = 0 then pure (-1)
      else
        modify fun S => S.setProc p fun y => { y with sz := sz }
        pure 0 : SysProg Int) { S with mem := m }) fun r T =>
      Clean K t T ∧ (∀ q, (T.procs q).Ok exact) ∧ (exact → Grown p n r S T) := by
  refine Ends.modify ?_
  split
  · rename_i hzero
    have hsame := hfail hzero
    have hB : exact → B.Holds (S.procs p).sz := by
      intro he i hi
      rw [hsame he i hi]
      exact (hok p).holds he (by rw [hp]; nofun) A hA i hi
    obtain ⟨h₁, hok₁⟩ := resize_spec h hok hp hA hm (hok p).size hB
    refine ⟨h₁, hok₁, fun he => .inr ⟨rfl, ?_, fun C hC => ?_⟩⟩
    · simp only [procs_setProc, update_self]
    · obtain rfl : A = C := Option.some.inj (hA.symm.trans hC)
      exact ⟨B, by simp only [procs_setProc, update_self], hsame he⟩
  · rename_i hne
    refine Ends.modify ?_
    rw [setProc_setProc]
    obtain ⟨h₁, hok₁⟩ := resize_spec h hok hp hA hm hlt fun he => (hnew hne he).1
    refine ⟨h₁, hok₁, fun he => .inl ⟨rfl, ?_⟩⟩
    simp only [procs_setProc, update_self]
    exact (hnew hne he).2

/-- **`growproc`.**  With `exact`, under the condition on `n`, it does what it promises. -/
theorem growproc_spec (L : Layout) {n : Int} (hn : -2 ^ 31 ≤ n ∧ n < 2 ^ 31) (hle : exact → n < 0 → 0 < (S.procs p).sz + n) :
    Ends (growproc L p n S) fun r T => Clean K t T ∧ (∀ q, (T.procs q).Ok exact) ∧
      (exact → Grown p n r S T) := by
  have hsz := (hok p).size
  have hbound : ((S.procs p).sz : Int) < 2 ^ 31 := by
    simp only [KERNBASE] at hsz
    omega
  unfold growproc
  refine Ends.get ?_
  dsimp only
  cases hA : (S.procs p).pgdir with
  | none => trivial
  | some A =>
    have hholds : exact → A.Holds (S.procs p).sz :=
      fun he => (hok p).holds he (by rw [hp]; nofun) A hA
    dsimp only
    split
    · -- grow: the sum of two numbers below 2 ^ 31 does not wrap
      rename_i hpos
      refine (inMem_spec (allocuvm_spec L A _ _ S.mem)).bind ?_
      rintro ⟨B, sz⟩ T ⟨m, rfl, hm, hnew, hB⟩
      dsimp only at hm hnew hB ⊢
      refine grow_end h hok hp hA hm ?_ (fun hzero he => (hB (hholds he)).2 hzero) fun hne he => ?_
      · rcases eq_or_ne sz 0 with rfl | hne
        · simp only [KERNBASE]
          omega
        · have := hnew hne
          omega
      · refine ⟨(hB (hholds he)).1 hne, ?_⟩
        have := hnew hne
        omega
    · split
      · -- shrink
        rename_i _ hneg
        rcases Nat.lt_or_ge (((S.procs p).sz + n) % 2 ^ 32).toNat (S.procs p).sz with hlt | hge
        · refine (inMem_spec (deallocuvm_spec L (Nat.le_of_lt hsz) hlt A S.mem)).bind ?_
          rintro ⟨B, sz⟩ T ⟨m, rfl, hsz', hm, hB⟩
          dsimp only at hsz' hm hB ⊢
          subst hsz'
          refine grow_end h hok hp hA hm (by omega) (fun hzero he => ?_) fun hne he => ⟨fun i hi => ?_, ?_⟩
          · have := hle he hneg
            omega
          · rw [hB i (user_lt hi), mul_lt_iff_pgroundup i (Int.toNat _)]
            have hiff := hholds he i hi
            split
            · simp only [Option.isSome_none, Bool.false_eq_true, false_iff]
              omega
            · rw [hiff]
              have := mul_lt_iff_pgroundup i (((S.procs p).sz + n) % 2 ^ 32).toNat
              omega
          · have := hle he hneg
            omega
        · -- `deallocuvm` leaves a size below 0 alone
          unfold deallocuvm
          rw [if_pos hge]
          refine Ends.bind (f := inMem (pure (A, (S.procs p).sz)))
            (Q := fun r T => r = (A, (S.procs p).sz) ∧ T = { S with mem := S.mem }) ⟨rfl, rfl⟩ ?_
          rintro _ _ ⟨rfl, rfl⟩
          refine grow_end h hok hp hA (fun _ => rfl) hsz (fun _ _ _ _ => rfl) fun _ he => ⟨hholds he, ?_⟩
          have := hle he hneg
          omega
      · exact ⟨h, hok, fun _ => .inl ⟨rfl, by omega⟩⟩

theorem exec_spec (L : Layout) (segs : Option (List Seg)) (args : Bool) :
    Ends (exec L p segs args S) fun _ T => Clean K t T ∧ ∀ q, (T.procs q).Ok exact := by
  unfold exec
  refine (inMem_spec (execImage_spec L segs args S.mem)).bind ?_
  rintro r T ⟨m, rfl, hr⟩
  cases r with
  | none =>
    refine ⟨(h.mem m).cast (fun x => ?_) fun _ => rfl, hok⟩
    have := hr x
    omega
  | some r =>
    obtain ⟨B, sz⟩ := r
    obtain ⟨hown, hB, _, hsz⟩ := hr
    refine Ends.get ?_
    cases hA : (S.procs p).pgdir with
    | none => trivial
    | some A =>
      refine Ends.modify ?_
      refine (inMem_spec (freevm_spec L A m)).bind ?_
      rintro _ T ⟨m', rfl, hm'⟩
      refine resize_spec h hok hp hA (m := m') (fun x => ?_) hsz fun _ => hB
      have h1 := hown x
      have h2 := hm' x
      omega

end Calls

/-! ## `main` -/

theorem freerange_spec (L : Layout) (v k : Nat) (m : Mem) : Ends (freerange L v k m) fun _ m' =>
      ∀ x : Nat, m'.owns x = m.owns x + if v ≤ x ∧ x < v + k then 1 else 0 := by
  induction k generalizing v m with
  | zero =>
    intro x
    rw [if_neg (by omega), Int.add_zero]
  | succ k ih =>
    unfold freerange
    refine (kfree_spec L v m).ends.bind fun _ m₁ hm₁ => (ih (v + 1) m₁).mono fun _ m₂ hm₂ x => ?_
    have hone : ofPage v x = if v = x then 1 else 0 := rfl
    rw [hm₂ x, hm₁ x, hone]
    split_ifs <;> omega

theorem kvmalloc_spec (L : Layout) (h : Acct K t hand S) (hnone : S.kpgdir = none) :
    Ends (kvmalloc L S) fun _ T => Acct K t hand T ∧ T.procs = S.procs := by
  unfold kvmalloc
  refine (inMem_spec (setupkvm_spec L S.mem)).bind ?_
  rintro r T ⟨m, rfl, hr, -⟩
  cases r with
  | none => trivial
  | some A =>
    refine ⟨⟨fun x => ?_, h.top, { h.files with }⟩, rfl⟩
    have hx := hr.1 x
    have hS := h.pages x
    unfold St.owners at hS ⊢
    rw [hnone] at hS
    simp only [dirOwns] at hS ⊢
    omega

theorem startCpu_spec (h : Acct K t hand S) : Ends (startCpu S) fun _ T => Acct K t hand T ∧ T.procs = S.procs := by
  unfold startCpu
  refine (inMem_spec (kalloc_spec S.mem)).bind ?_
  rintro r T ⟨m, rfl, hr⟩
  cases r with
  | none => trivial
  | some v =>
    refine ⟨⟨fun x => ?_, h.top, { h.files with }⟩, rfl⟩
    have hx := hr x
    have hS := h.pages x
    rw [ofOption_some] at hx
    unfold St.owners at hS ⊢
    unfold ofPage at hx
    simp only [List.count_cons, beq_iff_eq, Nat.cast_add]
    split_ifs at hx ⊢ <;> omega

/-- `inituvm`, on an address space without user pages. -/
theorem inituvm_spec (A : Pgdir) (hA : A.Holds 0) (m : Mem) : Ends (inituvm A m) fun B m' => (B.pte 0).isSome = true →
      Keeps m A m' B ∧ B.Holds PGSIZE := by
  unfold inituvm
  refine (kalloc_spec m).ends.bind fun r m₁ hm₁ => ?_
  cases r with
  | none => trivial
  | some v =>
    refine (mappages_user A 0 v _ m₁ (by simp only [KERNBASE]; omega) rfl).ends.bind ?_
    rintro ⟨B, ok⟩ m₂ ⟨hr, -⟩ hsome
    dsimp only at hr hsome ⊢
    cases ok with
    | true =>
      obtain ⟨_, hown, hent⟩ := hr
      refine ⟨fun x => ?_, fun n hn => ?_⟩
      · have h1 := hown x
        have h2 := hm₁ x
        rw [ofOption_some] at h2
        omega
      · have hiff := hA n hn
        rw [hent n (user_lt hn), Nat.zero_div]
        split
        · rename_i hz
          rw [hz, Nat.zero_mul]
          exact ⟨fun _ => Nat.succ_pos _, fun _ => rfl⟩
        · rename_i hz
          rw [hiff]
          simp only [PGSIZE]
          omega
    | false =>
      have hnone : B.entry 0 = none := (hr.2 0).trans (hA.none (by decide) (Nat.zero_le _))
      rw [show B.pte 0 = none from hnone] at hsome
      cases hsome

theorem userinit_spec (L : Layout) (h : Clean K t S) (hok : ∀ q, (S.procs q).Ok exact) :
    Ends (userinit L S) fun _ T => Clean K t T ∧ ∀ q, (T.procs q).Ok exact := by
  unfold userinit
  refine (allocproc_spec h).bind fun r T₁ ⟨h₁, hr⟩ => ?_
  cases r with
  | none => trivial
  | some np =>
    obtain ⟨hnp, v, hr⟩ := hr
    have hT₁ : T₁.procs np = { S.procs np with state := .embryo, kstack := some v } := by
      rw [hr, update_self]
    refine (inMem_spec (setupkvm_spec L T₁.mem)).bind ?_
    rintro r T₂ ⟨m, rfl, hm, -⟩
    cases r with
    | none => trivial
    | some A =>
      obtain ⟨hown, hA, -⟩ := hm
      refine (inMem_spec (S := { T₁ with mem := m }) (inituvm_spec A hA m)).bind ?_
      rintro B T₃ ⟨m', rfl, hB⟩
      dsimp only
      split
      · trivial
      · rename_i hsome
        obtain ⟨hown', hholds⟩ := hB (by simpa [Option.isNone_iff_eq_none, Option.isSome_iff_ne_none] using hsome)
        have h₂ := (h₁.mem m').setProc np (fun x => { x with pgdir := some B, sz := PGSIZE, state := .alive }) rfl
        refine ⟨h₂.cast (fun x => ?_) fun _ => rfl, fun q => ?_⟩
        · have h1 := hown x
          have h2 := hown' x
          dsimp only
          rw [hT₁]
          dsimp only [Proc.owns, dirOwns]
          omega
        · show (update T₁.procs np _ q).Ok exact
          rw [hr, update_idem, update_self]
          refine ok_update hok ?_ q
          refine ⟨nofun, fun hc => absurd rfl hc, fun _ => Option.some_ne_none B, ?_, fun _ _ C hC => ?_⟩
          · simp only [PGSIZE, KERNBASE]
            omega
          · obtain rfl : B = C := Option.some.inj hC
            exact hholds

/-! ## Every run -/

/-- One, if the allocator has been given the page. -/
def managed (L : Layout) (top x : Nat) : Int := if L.first ≤ x ∧ x < top then 1 else 0

/-- Between calls. -/
structure Inv (L : Layout) (exact : Prop) (S : St) : Prop where
  acct : Clean (managed L S.top) S.top S
  procs : ∀ q, (S.procs q).Ok exact
  top : S.top = 1024 ∨ S.top = PHYSTOP / PGSIZE

/-- A process that asks for less memory keeps some. -/
def keepsSome (S : St) : Label → Prop
  | .call p (.sbrk n) _ => n < 0 → 0 < ((S.procs p).sz : Int) + n
  | _ => True

theorem Inv.of_acct (h : Inv L exact S) (hT : Clean (managed L S.top) S.top T)
    (hok : ∀ q, (T.procs q).Ok exact) : Inv L exact T := by
  have htop := hT.top
  refine ⟨?_, hok, ?_⟩
  · rw [htop]
    exact hT
  · rw [htop]
    exact h.top

/-- **A call keeps both accounts.** -/
theorem Inv.call (h : Inv L exact S) {c : Call} (hp : (S.procs p).state = .alive) (hv : c.valid = true)
    (hc : exact → ∀ n, c = .sbrk n → n < 0 → 0 < ((S.procs p).sz : Int) + n) :
    Ends (c.run L p S) fun _ T => Inv L exact T := by
  have hone : ∀ x, managed L S.top x ≤ 1 := by
    intro x
    unfold managed
    split <;> omega
  have hframe : ∀ T, Frame p S T ∧ Clean (managed L S.top) S.top T → Inv L exact T :=
    fun T ⟨hf, hT⟩ => h.of_acct hT (hf.ok hp h.procs)
  have hboth : ∀ T, Clean (managed L S.top) S.top T ∧ (∀ q, (T.procs q).Ok exact) → Inv L exact T :=
    fun T ⟨hT, hok⟩ => h.of_acct hT hok
  cases c with
  | fork => exact Ends.map ((fork_spec h.acct h.procs hp L).mono fun _ T hT => hboth T hT)
  | exec segs args => exact Ends.map ((exec_spec h.acct h.procs hp L segs args).mono fun _ T hT => hboth T hT)
  | exit => exact (exit_spec h.acct h.procs hp L).bind fun _ T hT => hboth T hT
  | wait => exact (wait_spec h.acct h.procs L).mono fun _ T hT => hboth T hT
  | sbrk n =>
    have hn : -2 ^ 31 ≤ n ∧ n < 2 ^ 31 := of_decide_eq_true hv
    exact Ends.map ((growproc_spec h.acct h.procs hp L hn fun he => hc he n rfl).mono fun _ T hT =>
      hboth T ⟨hT.1, hT.2.1⟩)
  | pipe => exact Ends.map ((sysPipe_spec L p h.acct hone).mono fun _ T hT => hframe T hT)
  | close fd => exact Ends.map ((sysClose_spec L p fd h.acct).mono fun _ T hT => hframe T hT)
  | dup fd => exact Ends.map ((sysDup_spec p fd h.acct).mono fun _ T hT => hframe T hT)
  | «open» => exact Ends.map ((sysOpen_spec L p h.acct).mono fun _ T hT => hframe T hT)

/-- The tape is no one's page. -/
theorem Inv.setTape (h : Inv L exact S) (tape : List Bool) :
    Inv L exact { S with mem := { S.mem with tape := tape } } :=
  ⟨⟨h.acct.pages, h.acct.top, { h.acct.files with }⟩,
    h.procs, h.top⟩

theorem after_spec {α : Type} {f : SysProg α} {Q : St → Prop} (h : Ends (f S) fun _ T => Q T)
    (hT : after f S = some T) : Q T := by
  unfold after at hT
  unfold Ends at h
  cases hf : f S with
  | error e =>
    rw [hf] at hT
    cases hT
  | ok r =>
    rw [hf] at h hT
    obtain rfl := Option.some.inj hT
    exact h

theorem kinit2_spec (L : Layout) (h : Inv L exact S) (htop : S.top = 1024) :
    Ends (kinit2 L S) fun _ T => Inv L exact T := by
  unfold kinit2
  refine (inMem_spec (freerange_spec L 1024 _ S.mem)).bind ?_
  rintro _ T ⟨m, rfl, hm⟩
  have hfirst := L.first_spec.1
  refine ⟨⟨fun x => ?_, rfl, ?_⟩, h.procs, .inr rfl⟩
  · have hS := h.acct.pages x
    have hx := hm x
    rw [htop] at hS
    show { S with mem := m }.owners x = managed L (PHYSTOP / PGSIZE) x
    rw [owners_mem, hS, hx]
    unfold managed
    have hcount : 1024 + (PHYSTOP / PGSIZE - 1024) = PHYSTOP / PGSIZE ∧ 1024 ≤ PHYSTOP / PGSIZE := by
      decide
    rw [hcount.1]
    generalize PHYSTOP / PGSIZE = e at hcount ⊢
    have key : ∀ y : Nat, (if L.first ≤ y ∧ y < 1024 then (1 : Int) else 0) + (if 1024 ≤ y ∧ y < e then 1 else 0) =
        if L.first ≤ y ∧ y < e then 1 else 0 := by
      intro y
      split_ifs <;> omega
    have := key x
    omega
  · exact { h.acct.files with }

/-- **One step.** -/
theorem Inv.step {l : Label} (h : Inv L exact S) (hc : exact → keepsSome S l) (hT : step L S l = some T) :
    Inv L exact T := by
  cases l with
  | kvmalloc =>
    simp only [Vm.step, Option.ite_none_right_eq_some] at hT
    refine after_spec ?_ hT.2
    have hnone : S.kpgdir = none := by simpa using hT.1
    refine (kvmalloc_spec L h.acct hnone).mono fun _ U hU => h.of_acct hU.1 fun q => ?_
    rw [hU.2]
    exact h.procs q
  | startCpu =>
    refine after_spec ?_ hT
    refine (startCpu_spec h.acct).mono fun _ U hU => h.of_acct hU.1 fun q => ?_
    rw [hU.2]
    exact h.procs q
  | kinit2 =>
    simp only [Vm.step, Option.ite_none_right_eq_some] at hT
    exact after_spec (kinit2_spec L h hT.1) hT.2
  | userinit =>
    simp only [Vm.step, Option.ite_none_right_eq_some] at hT
    refine after_spec ?_ hT.2
    exact (userinit_spec L h.acct h.procs).mono fun _ U hU => h.of_acct hU.1 hU.2
  | call p c tape =>
    simp only [Vm.step, Option.ite_none_right_eq_some] at hT
    obtain ⟨⟨hp, hv⟩, hT⟩ := hT
    have hrun := (h.setTape tape).call (p := p) hp hv fun he n hn => by
      subst hn
      exact hc he
    unfold Ends at hrun
    cases hr : c.run L p { S with mem := { S.mem with tape := tape } } with
    | error e =>
      rw [hr] at hT
      cases hT
    | ok r =>
      obtain ⟨a, U⟩ := r
      rw [hr] at hT hrun
      cases a with
      | none => cases hT
      | some a =>
        obtain rfl := Option.some.inj hT
        exact (hrun : Inv L exact U).setTape []

theorem Inv.init (h : (machine L).init S) : Inv L exact S := by
  obtain ⟨m, hm, rfl⟩ := h
  have hfree := freerange_spec L L.first (1024 - L.first) ⟨[], []⟩
  unfold Ends at hfree
  rw [hm] at hfree
  have hfirst := L.first_spec.1
  refine ⟨⟨fun x => ?_, rfl, fun f => ?_, fun v w => Finset.sum_eq_zero fun f _ => rfl, fun f _ => rfl,
    fun v y hv => (nomatch hv)⟩, fun q => ?_, .inl rfl⟩
  · have hx : m.owns x = 0 + _ := hfree x
    rw [Nat.add_sub_cancel' hfirst] at hx
    have hprocs : ∑ p, ((St.start m).procs p).owns x = 0 := Finset.sum_eq_zero fun p _ => rfl
    show m.owns x + ∑ p, ((St.start m).procs p).owns x + 0 + 0 + 0 = managed L 1024 x
    rw [hprocs, hx]
    unfold managed
    omega
  · have hslots : (St.start m).slots f = 0 := Finset.sum_eq_zero fun p _ => Finset.sum_eq_zero fun fd _ => rfl
    rw [hslots]
    rfl
  · exact ⟨nofun, fun _ _ => rfl, nofun, Nat.lt_of_lt_of_le Nat.zero_lt_one (Nat.one_le_two_pow (n := 31)),
      fun _ hne => absurd rfl hne⟩

/-- **Every run.** -/
theorem Inv.of_reachable {C : St → Label → Prop} (hC : exact → ∀ S l, C S l → keepsSome S l)
    (h : (machine L).Reachable C S) : Inv L exact S :=
  Machine.invariant (fun _ h0 => Inv.init h0) (fun _ _ _ hI hl hT => hI.step (fun he => hC he _ _ hl) hT) h

/-- A pipe whose ends are not both closed. -/
def St.livePipe (S : St) (x : Page) : Prop := ∃ f, 0 < (S.files f).ref ∧ ∃ w, (S.files f).pipe = some (x, w)

instance (S : St) (x : Page) : Decidable (S.livePipe x) := inferInstanceAs (Decidable (∃ _, _ ∧ ∃ _, _))

theorem FilesOk.livePipe_iff (h : FilesOk S hand) (x : Page) : S.livePipe x ↔ (S.pipes x).isSome = true := by
  constructor
  · rintro ⟨f, _, w, hf⟩
    obtain ⟨y, hy, _⟩ := h.isOpen hf
    rw [hy]
    rfl
  · intro hx
    obtain ⟨y, hy⟩ := Option.isSome_iff_exists.mp hx
    obtain ⟨w, hw⟩ : ∃ w, y.flag w = true := (h.live x y hy).elim (fun h => ⟨false, h⟩) fun h => ⟨true, h⟩
    have hopen : openEnd S.pipes x w = 1 := by simp [openEnd, hy, hw]
    obtain ⟨f, -, hf⟩ := Finset.exists_ne_zero_of_sum_ne_zero (((h.ends x w).trans hopen).trans_ne Int.one_ne_zero)
    have hend : (S.files f).pipe = some (x, w) := of_not_not fun hne => hf (if_neg hne)
    refine ⟨f, Nat.pos_of_ne_zero fun h0 => ?_, w, hend⟩
    rw [h.unused f h0] at hend
    cases hend

/-- In how many roles a page is: on the free list; the kernel stack of a process, a page of its page table, or
    a user page of it; of the kernel's own page table; the buffer of a live pipe; the stack of a CPU. -/
def St.roles (S : St) (x : Page) : Int :=
  S.mem.free.count x + ∑ p, (S.procs p).owns x + dirOwns S.kpgdir x + (if S.livePipe x then 1 else 0) +
    S.cpus.count x

/-- **Every page is owned exactly once.**  Those that `freerange` has given to the allocator have one role, and
    the others have none. -/
theorem pages_owned (L : Layout) (h : (machine L).Reachable anyStep S) (x : Page) :
    S.roles x = if L.first ≤ x ∧ x < S.top then 1 else 0 := by
  have hinv : Inv L False S := Inv.of_reachable (fun he => he.elim) h
  have hpages := hinv.acct.pages x
  have hpipe : (if S.livePipe x then (1 : Int) else 0) = pipeOwns S.pipes x := by
    unfold pipeOwns
    simp only [hinv.acct.files.livePipe_iff x]
  unfold St.roles
  rw [hpipe]
  exact hpages

/-- The kernel ends at one megabyte and a page. -/
def smallKernel : Layout where
  data := 0x102000
  kend := 0x103000
  aligned := by decide
  text := by decide
  data_lt := by decide
  kend_le := by decide

/-- After the boot, with the first process alive. -/
theorem pages_owned_booted : ∃ S, (machine smallKernel).Reachable anyStep S ∧
    (S.procs initproc).state = .alive ∧ ∀ x : Page, S.roles x = if 259 ≤ x ∧ x < S.top then 1 else 0 := by
  obtain ⟨S, hS, halive, _⟩ := booted smallKernel (C := anyStep) fun _ => ⟨trivial, trivial⟩
  exact ⟨S, hS, halive, fun x => pages_owned smallKernel hS x⟩

end Xv6.Vm
