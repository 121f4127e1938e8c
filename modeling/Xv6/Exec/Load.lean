/-
  THE LOADER IS TOTAL AND EXACT: for every file, `exec` comes to no panic, and what it loads is what the file says.

  1. **`Space`** — no page is in use twice: neither by the address space nor by it and the free list.  So a page that is new
     is none of those that are mapped, and a store to one page is seen at one address.
  2. **`Loaded`** — the invariant of the loader: the pages of `[0, sz)` are mapped, and hold an image that is 0 from there on.
     `allocuvm` keeps the image (the pages that it maps are cleared), `loaduvm` lays a segment over it.
  3. **`exec_loads`** — the load loop goes through all headers; the segments are checked before they are loaded, so every page
     that `loaduvm` looks up is there.
-/
import Mathlib
import Xv6.Exec.Copyout
import Xv6.Vm.Size

namespace Xv6.Exec

open Outcome Vm

variable {L : Layout} {A B : Pgdir} {m m' : Mem} {r : Ram} {sz : Nat} {img : Nat → UInt8}

variable {α : Type}

theorem onPages_meets {f : VmProg α} {Q : α → Mem → Prop} {E : Panic → Prop} (h : Meets (f r.mem) Q E) :
    Meets (onPages f r) (fun a r' => r'.bytes = r.bytes ∧ Q a r'.mem) E := by
  unfold onPages
  cases hf : f r.mem with
  | ok am =>
    rw [hf] at h
    exact ⟨rfl, h⟩
  | error e =>
    rw [hf] at h
    exact h

/-! ## Pages that are in use once -/

/-- An address space and the free pages. -/
structure Space (L : Layout) (A : Pgdir) (m : Mem) : Prop where
  once : ∀ x, m.owns x + A.owns x ≤ 1
  within : Within L A m
  kernel : A.KernelOnly

theorem Space.of_le (h : Space L A m) (hle : ∀ x, m'.owns x + B.owns x ≤ m.owns x + A.owns x) (hB : B.KernelOnly) :
    Space L B m' where
  once x := (hle x).trans (h.once x)
  within := h.within.of_le hle
  kernel := hB

variable {e : Pte}

/-- Two user pages are two pages. -/
theorem Space.inj (h : Space L A m) {n k : Nat} {f : Pte} (hn : n < KERNBASE / PGSIZE) (hk : k < KERNBASE / PGSIZE)
    (he : A.entry n = some e) (hf : A.entry k = some f) (hpage : e.page = f.page) : n = k := by
  by_contra hne
  have hsum := Counting.add_le_sum
    (f := fun n : Pgdir.UserPage => ofOption ((A.pte (n * PGSIZE)).map Pte.page) e.page)
    (fun n => ofOption_nonneg _ _) (i := ⟨n, hn⟩) (k := ⟨k, hk⟩) fun heq => hne (Fin.mk.inj heq)
  dsimp only at hsum
  rw [show A.pte (n * PGSIZE) = some e from he, show A.pte (k * PGSIZE) = some f from hf, Option.map_some, Option.map_some,
    ← hpage, ofOption_some, ofPage, if_pos rfl] at hsum
  have honce := h.once e.page
  have htables := A.tables_nonneg e.page
  have hpos := ofPage_nonneg A.page e.page
  have hfree := m.owns_nonneg e.page
  unfold Pgdir.owns Pgdir.users at honce
  omega

/-- A free page is not mapped. -/
theorem Space.not_mapped (h : Space L A m) {n : Nat} {v : Page} (hn : n < KERNBASE / PGSIZE)
    (he : A.entry n = some e) (hv : 0 < m.owns v) : e.page ≠ v := by
  rintro rfl
  have hlt : n * PGSIZE < KERNBASE := by
    simp only [KERNBASE, PGSIZE] at hn ⊢
    omega
  have hown := owns_pos hlt (Nat.mul_mod_left n PGSIZE) he
  have honce := h.once e.page
  omega

/-! ## What is loaded -/

/-- `src` is laid over `[addr, addr + len)`. -/
def overlay (img : Nat → UInt8) (addr len : Nat) (src : Nat → UInt8) (va : Nat) : UInt8 :=
  if addr ≤ va ∧ va < addr + len then src (va - addr) else img va

/-- The pages of `[0, sz)` are mapped, and hold the image. -/
structure Loaded (L : Layout) (A : Pgdir) (sz : Nat) (r : Ram) (img : Nat → UInt8) : Prop where
  space : Space L A r.mem
  holds : A.Holds sz
  perm : ∀ n, n < KERNBASE / PGSIZE → ∀ e, A.entry n = some e → e.perm = ⟨true, true⟩
  image : ∀ n, n < KERNBASE / PGSIZE → ∀ e, A.entry n = some e → ∀ o < PGSIZE, r.bytes e.page o = img (n * PGSIZE + o)
  beyond : ∀ va, pgroundup sz ≤ va → img va = 0

theorem pgroundup_of_mod {a : Nat} (ha : a % PGSIZE = 0) : pgroundup a = a := by
  simp only [pgroundup, PGSIZE] at ha ⊢
  omega

/-- A size and its last page say the same. -/
theorem Loaded.round (h : Loaded L A sz r img) : Loaded L A (pgroundup sz) r img where
  space := h.space
  holds n hn := by rw [h.holds n hn, mul_lt_iff_pgroundup]
  perm := h.perm
  image := h.image
  beyond va hva := h.beyond va (by rwa [pgroundup_of_mod (pgroundup_mod sz)] at hva)

theorem Loaded.unround (h : Loaded L A (pgroundup sz) r img) : Loaded L A sz r img where
  space := h.space
  holds n hn := by rw [h.holds n hn, ← mul_lt_iff_pgroundup]
  perm := h.perm
  image := h.image
  beyond va hva := h.beyond va (by rwa [pgroundup_of_mod (pgroundup_mod sz)])

/-! ## `allocuvm` -/

/-- One page more, which has been cleared. -/
theorem Loaded.page {a : Nat} {v : Page} {m₂ : Mem} (h : Loaded L A a r img) (ha : a % PGSIZE = 0) (hlt : a < KERNBASE)
    (hv : 0 < r.mem.owns v) (hown : ∀ x, m₂.owns x + B.owns x ≤ r.mem.owns x + A.owns x)
    (hent : ∀ n, n < 2 ^ 20 → B.entry n = if n = a / PGSIZE then some ⟨v, ⟨true, true⟩⟩ else A.entry n) :
    Loaded L B (a + PGSIZE) ⟨m₂, Function.update r.bytes v fun i => if 0 ≤ i ∧ i < 0 + PGSIZE then 0 else r.bytes v i⟩
      img := by
  have hself := pgrounddown_eq ha
  have hup := pgroundup_of_mod ha
  constructor
  · refine h.space.of_le hown fun n hn hk e he => ?_
    rw [hent n hn, if_neg (by simp only [PGSIZE, KERNBASE] at *; omega)] at he
    exact h.space.kernel n hn hk e he
  · intro n hn
    have hiff := h.holds n hn
    rw [hent n (user_lt hn)]
    split
    · rename_i heq
      rw [heq, hself]
      simp only [Option.isSome_some, true_iff, PGSIZE]
      omega
    · rename_i hne
      rw [hiff]
      simp only [PGSIZE] at *
      omega
  · intro n hn e he
    rw [hent n (user_lt hn)] at he
    split at he
    · cases he
      rfl
    · exact h.perm n hn e he
  · intro n hn e he o ho
    rw [hent n (user_lt hn)] at he
    split at he
    · rename_i heq
      cases he
      dsimp only
      rw [Function.update_self, if_pos (by omega), heq, hself, h.beyond _ (by omega)]
    · have hne := h.space.not_mapped hn he hv
      dsimp only
      rw [Function.update_of_ne hne]
      exact h.image n hn e he o ho
  · intro va hva
    refine h.beyond va ?_
    rw [pgroundup_of_mod (by simp only [PGSIZE] at *; omega)] at hva
    omega

theorem allocLoop_meets {oldsz newsz : Nat} (hn : newsz < KERNBASE) (A : Pgdir) (a : Nat) (r : Ram)
    (h : Loaded L A a r img) (ha : a % PGSIZE = 0) (hold : pgroundup oldsz ≤ a) (hnew : a ≤ pgroundup newsz) :
    Meets (allocLoop L oldsz newsz A a r) (fun x r' => (x.2 = 0 → Space L x.1 r'.mem) ∧
      (x.2 ≠ 0 → x.2 = newsz ∧ Loaded L x.1 newsz r' img)) fun _ => False := by
  have hup := le_pgroundup oldsz
  induction hk : newsz - a using Nat.strong_induction_on generalizing A a r with
  | _ k ih =>
    rw [allocLoop]
    split
    · rename_i hlt
      have hself := pgrounddown_eq ha
      -- a failure gives back the pages
      have hundo : ∀ (B : Pgdir) (s : Ram), Space L B s.mem →
          Meets (onPages (deallocuvm L B newsz oldsz) s) (fun x s' => (∀ y, s'.mem.owns y + x.1.owns y =
            s.mem.owns y + B.owns y) ∧ x.1.KernelOnly) fun _ => False := by
        intro B s hs
        refine (onPages_meets (deallocuvm_spec L (Nat.le_of_lt hn) (by omega) B s.mem)).mono ?_ fun _ he => he hs.within
        rintro x s' ⟨-, -, hown, hent⟩
        refine ⟨hown, fun n hn' hkern e he => ?_⟩
        rw [hent n hn', if_neg (by omega)] at he
        exact hs.kernel n hn' hkern e he
      refine (onPages_meets (kalloc_spec r.mem)).bind ?_ fun _ he => he
      rintro v r₁ ⟨hbytes, hm₁⟩
      cases v with
      | none =>
        have hs : Space L A r₁.mem := h.space.of_le (fun x => by
          have := hm₁ x
          rw [ofOption_none] at this
          omega) h.space.kernel
        refine (hundo A r₁ hs).bind (fun x r₂ hx => ?_) fun _ he => he
        exact ⟨fun _ => hs.of_le (fun y => (hx.1 y).le) hx.2, fun hne => absurd rfl hne⟩
      | some v =>
        have hv : ∀ x, r.mem.owns x = r₁.mem.owns x + ofPage v x := fun x => by rw [hm₁ x, ofOption_some]
        have hpos : 0 < r.mem.owns v := by
          have := hv v
          have := r₁.mem.owns_nonneg v
          have : ofPage v v = 1 := if_pos rfl
          omega
        have hnone : A.pte a = none := by
          rw [← Pgdir.entry_div ha]
          exact h.holds.none (by simp only [PGSIZE, KERNBASE] at *; omega) hself.ge
        dsimp only
        rw [bind_of_ok (show memset v 0 r₁ = .ok ((), _) from rfl)]
        refine (onPages_meets (r := ⟨r₁.mem, Function.update r₁.bytes v fun i =>
          if 0 ≤ i ∧ i < 0 + PGSIZE then 0 else r₁.bytes v i⟩) (mappages_user A a v ⟨true, true⟩ r₁.mem (by omega) ha)).bind
          ?_ fun _ he => he hnone
        rintro ⟨B, ok⟩ r₂ ⟨hbytes₂, hr, -⟩
        cases ok with
        | true =>
          rw [if_pos rfl] at hr
          obtain ⟨-, hown, hent⟩ := hr
          dsimp only at hown hent ⊢
          rw [if_pos rfl]
          have hpage : Loaded L B (a + PGSIZE) r₂ img := by
            have hle : ∀ x, r₂.mem.owns x + B.owns x ≤ r.mem.owns x + A.owns x := by
              intro x
              have := hown x
              have := hv x
              omega
            have hp := h.page ha (by omega) hpos hle hent
            obtain ⟨m₂, b₂⟩ := r₂
            dsimp only at hbytes₂
            rw [hbytes₂, hbytes]
            exact hp
          have hnext : newsz - (a + PGSIZE) < k ∧ (a + PGSIZE) % PGSIZE = 0 ∧ pgroundup oldsz ≤ a + PGSIZE ∧
              a + PGSIZE ≤ pgroundup newsz := by
            simp only [PGSIZE, pgroundup] at *
            omega
          exact ih _ hnext.1 B _ r₂ hpage hnext.2.1 hnext.2.2.1 hnext.2.2.2 rfl
        | false =>
          rw [if_neg Bool.false_ne_true] at hr
          obtain ⟨hown, hent⟩ := hr
          dsimp only at hown hent ⊢
          rw [if_neg Bool.false_ne_true]
          have hs : Space L B r₂.mem := h.space.of_le (fun x => by
            have := hown x
            have := hv x
            have := ofPage_nonneg v x
            omega) fun n hn' hkern e he => h.space.kernel n hn' hkern e (by rw [← hent n]; exact he)
          refine (hundo B r₂ hs).bind (fun x r₃ hx => ?_) fun _ he => he
          have hrange : InRange L v := h.space.within v (by
            have := A.owns_nonneg v
            omega)
          refine (onPages_meets (kfree_spec L v r₃.mem)).bind ?_ fun _ he => he hrange
          rintro - r₄ ⟨-, hm₄⟩
          refine ⟨fun _ => h.space.of_le (fun y => ?_) hx.2, fun hne => absurd rfl hne⟩
          have h1 := hx.1 y
          have h2 := hm₄ y
          have h3 := hown y
          have h4 := hv y
          dsimp only
          omega
    · rename_i hge
      have hlast : a = pgroundup newsz := by
        simp only [PGSIZE, pgroundup] at *
        omega
      rw [hlast] at h
      exact ⟨fun _ => h.space, fun _ => ⟨rfl, h.unround⟩⟩

/-- **`allocuvm` keeps the image.** -/
theorem allocuvm_meets (newsz : Nat) (h : Loaded L A sz r img) :
    Meets (allocuvm L A sz newsz r) (fun x r' => (x.2 = 0 → Space L x.1 r'.mem) ∧
      (x.2 ≠ 0 → Loaded L x.1 x.2 r' img ∧ (x.2 = newsz ∧ newsz < KERNBASE ∨ newsz < sz ∧ x.2 = sz))) fun _ => False := by
  unfold allocuvm
  split
  · exact ⟨fun _ => h.space, fun hne => absurd rfl hne⟩
  split
  · rename_i hlt
    exact ⟨fun _ => h.space, fun _ => ⟨h, .inr ⟨hlt, rfl⟩⟩⟩
  · rename_i hk hle
    refine (allocLoop_meets (by omega) A _ r h.round (pgroundup_mod sz) (Nat.le_refl _)
      (by simp only [pgroundup, PGSIZE]; omega)).mono ?_ fun _ he => he
    rintro x r' ⟨hzero, hne⟩
    refine ⟨hzero, fun hx => ?_⟩
    obtain ⟨hsz, hloaded⟩ := hne hx
    rw [hsz]
    exact ⟨hloaded, .inl ⟨rfl, by omega⟩⟩

/-! ## `loaduvm` -/

variable {ip : Inode}

/-- All that was asked for has been read. -/
theorem readi_all {off n : Nat} (h : readi ip off n = some n) (hoff : off < 2 ^ 32) (hn : n < 2 ^ 32)
    (hpos : 0 < n) : off + n ≤ ip.size := by
  unfold readi at h
  split at h
  · cases h
  · rename_i hok
    split at h
    · have hrest := Option.some.inj h
      omega
    · omega

/-- A store to one page: `n` bytes of `src`, from `addr + i` on. -/
theorem Loaded.store {addr i n : Nat} {src : Nat → UInt8} (h : Loaded L A sz r (overlay img addr i src))
    (hal : (addr + i) % PGSIZE = 0) (hn : n ≤ PGSIZE) (hfits : addr + i + n ≤ sz) (hk : addr + i < KERNBASE)
    (he : A.entry ((addr + i) / PGSIZE) = some e) : Loaded L A sz ⟨r.mem, Function.update r.bytes e.page fun j =>
      if 0 ≤ j ∧ j < 0 + n then src (i + (j - 0)) else r.bytes e.page j⟩ (overlay img addr (i + n) src) := by
  have hself := pgrounddown_eq hal
  have huser : (addr + i) / PGSIZE < KERNBASE / PGSIZE := by
    simp only [PGSIZE, KERNBASE] at *
    omega
  refine ⟨h.space, h.holds, h.perm, fun k hk e' he' o ho => ?_, fun va hva => ?_⟩
  · have hold := h.image k hk e' he' o ho
    rcases eq_or_ne k ((addr + i) / PGSIZE) with rfl | hne
    · rw [he] at he'
      cases he'
      dsimp only
      rw [hself] at hold ⊢
      rw [Function.update_self]
      by_cases hin : o < n
      · rw [if_pos (by omega), overlay, if_pos (by omega)]
        congr 1
        omega
      · rw [if_neg (by omega), hold, overlay, overlay]
        exact if_congr (by omega) rfl rfl
    · have hpage : e'.page ≠ e.page := fun heq => hne (h.space.inj hk huser he' he heq)
      dsimp only
      rw [Function.update_of_ne hpage, hold, overlay, overlay]
      refine if_congr ?_ rfl rfl
      simp only [PGSIZE] at *
      omega
  · have hold := h.beyond va hva
    have hle := le_pgroundup sz
    unfold overlay at hold ⊢
    rw [if_neg (by omega)] at hold ⊢
    exact hold

theorem loadLoop_meets {addr offset fsz : Nat} (hal : addr % PGSIZE = 0) (hfits : addr + fsz ≤ sz)
    (hsz : sz < KERNBASE) (i : Nat) (r : Ram) (hi : i % PGSIZE = 0) (hoff : i < fsz → offset + i < 2 ^ 32)
    (h : Loaded L A sz r (overlay img addr (min i fsz) fun j => ip.data (offset + j))) :
    Meets (loadLoop A addr ip offset fsz i r) (fun ok r' => r'.mem = r.mem ∧
      (ok = true → Loaded L A sz r' (overlay img addr fsz fun j => ip.data (offset + j)))) fun _ => False := by
  induction hk : fsz - i using Nat.strong_induction_on generalizing i r with
  | _ k ih =>
    rw [loadLoop]
    split
    · rename_i hlt
      have haddr : (addr + i) % PGSIZE = 0 ∧ (addr + i) / PGSIZE < KERNBASE / PGSIZE ∧
          (addr + i) / PGSIZE * PGSIZE < sz := by
        simp only [PGSIZE, KERNBASE] at *
        omega
      obtain ⟨e, he⟩ := Option.isSome_iff_exists.mp ((h.holds _ haddr.2.1).mpr haddr.2.2)
      have hpte : A.pte (addr + i) = some e := by rw [← Pgdir.entry_div haddr.1, he]
      cases hpde : A.pde (pdx (addr + i)) with
      | none =>
        rw [Pgdir.pte, hpde] at hpte
        cases hpte
      | some t =>
        dsimp only
        rw [hpte, Option.map_some, Option.getD_some]
        generalize hndef : (if fsz - i < PGSIZE then fsz - i else PGSIZE) = n
        have hn : 0 < n ∧ n ≤ PGSIZE ∧ i + n ≤ fsz ∧ (n = PGSIZE ∨ i + n = fsz) := by
          have hpage : PGSIZE = 4096 := rfl
          rw [← hndef]
          split <;> omega
        rw [Nat.mod_eq_of_lt (hoff hlt)]
        cases hread : readi ip (offset + i) n with
        | none => exact ⟨rfl, fun hc => by cases hc⟩
        | some got =>
          dsimp only
          rw [bind_of_ok (show memmove e.page 0 (fun j => ip.data (offset + i + j)) got r = .ok ((), _) from rfl)]
          split
          · exact ⟨rfl, fun hc => by cases hc⟩
          · rename_i hall
            rw [not_not] at hall
            subst hall
            have hsize := readi_all hread (hoff hlt) (by simp only [PGSIZE] at hn; omega) hn.1
            have hsizelt := ip.size_lt
            rw [Nat.min_eq_left hlt.le] at h
            have hstore := h.store haddr.1 hn.2.1 (by omega) (by simp only [PGSIZE, KERNBASE] at *; omega) he
            simp only [← Nat.add_assoc] at hstore
            have hnext : fsz - (i + PGSIZE) < k ∧ (i + PGSIZE) % PGSIZE = 0 ∧ min (i + PGSIZE) fsz = i + got ∧
                (i + PGSIZE < fsz → offset + (i + PGSIZE) < 2 ^ 32) := by
              simp only [PGSIZE] at *
              omega
            refine ih _ hnext.1 (i + PGSIZE) _ hnext.2.1 hnext.2.2.2 ?_ rfl
            rw [hnext.2.2.1]
            simp only [Nat.sub_zero] at hstore ⊢
            exact hstore
    · rename_i hge
      rw [Nat.min_eq_right (by omega)] at h
      exact ⟨rfl, fun _ => h⟩

/-- **`loaduvm` lays the segment over the image.** -/
theorem loaduvm_meets {addr offset fsz : Nat} (h : Loaded L A sz r img) (hal : addr % PGSIZE = 0)
    (hoff : offset < 2 ^ 32) (hfits : addr + fsz ≤ sz) (hsz : sz < KERNBASE) :
    Meets (loaduvm A addr ip offset fsz r) (fun ok r' => r'.mem = r.mem ∧
      (ok = true → Loaded L A sz r' (overlay img addr fsz fun j => ip.data (offset + j)))) fun _ => False := by
  unfold loaduvm
  rw [if_neg (not_not.mpr hal)]
  refine loadLoop_meets hal hfits hsz 0 r rfl (fun _ => hoff) ?_
  have hempty : overlay img addr (min 0 fsz) (fun j => ip.data (offset + j)) = img := by
    funext va
    rw [overlay, if_neg (by omega)]
  rw [hempty]
  exact h

/-! ## The headers -/

theorem le_lt (f : Nat → UInt8) (k off : Nat) : le f k off < 256 ^ k := by
  induction k generalizing off with
  | zero => exact Nat.one_pos
  | succ k ih =>
    have hbyte := (f off).toNat_lt
    have hrest := ih (off + 1)
    rw [le, Nat.pow_succ]
    omega

/-- The segments to be loaded, of the `n` headers from `off` on. -/
def segments (ip : Inode) : Nat → Nat → List Proghdr
  | 0, _ => []
  | n + 1, off =>
    if (proghdr ip.data off).type = ELF_PROG_LOAD then
      proghdr ip.data off :: segments ip n ((off + sizeofProghdr) % 2 ^ 32)
    else segments ip n ((off + sizeofProghdr) % 2 ^ 32)

/-- One segment after the other is laid over the image. -/
def laid (ip : Inode) (img : Nat → UInt8) (phs : List Proghdr) : Nat → UInt8 :=
  phs.foldl (fun img ph => overlay img ph.vaddr ph.filesz fun j => ip.data (ph.off + j)) img

theorem loadSegments_meets (ip : Inode) (n off : Nat) (A : Pgdir) (sz : Nat) (r : Ram) (img : Nat → UInt8)
    (h : Loaded L A sz r img) (hsz : sz < KERNBASE) :
    Meets (loadSegments L ip n off A sz r) (fun x r' => Space L x.1 r'.mem ∧
      ∀ sz', x.2 = some sz' → sz' < KERNBASE ∧ Loaded L x.1 sz' r' (laid ip img (segments ip n off))) fun _ => False := by
  have hnone : ∀ (B : Pgdir) (s : Ram) (img' : Nat → UInt8), Space L B s.mem → Space L B s.mem ∧
      ∀ sz', (none : Option Nat) = some sz' → sz' < KERNBASE ∧ Loaded L B sz' s img' :=
    fun B s img' hs => ⟨hs, fun sz' hc => by cases hc⟩
  induction n generalizing off A sz r img with
  | zero =>
    refine ⟨h.space, fun sz' hs => ?_⟩
    cases hs
    exact ⟨hsz, h⟩
  | succ n ih =>
    unfold loadSegments segments
    split
    · exact hnone A r _ h.space
    dsimp only
    generalize hph : proghdr ip.data off = ph
    have hoff : ph.off < 2 ^ 32 ∧ ph.vaddr < 2 ^ 32 ∧ ph.memsz < 2 ^ 32 := by
      rw [← hph]
      exact ⟨le_lt _ _ _, le_lt _ _ _, le_lt _ _ _⟩
    by_cases htype : ph.type ≠ ELF_PROG_LOAD
    · rw [if_pos htype, if_neg htype]
      exact ih _ A sz r img h hsz
    rw [if_neg htype, if_pos (not_not.mp htype)]
    split
    · exact hnone A r _ h.space
    split
    · exact hnone A r _ h.space
    refine (allocuvm_meets _ h).bind ?_ fun _ he => he
    rintro ⟨B, sz₁⟩ r₁ ⟨hzero, hgrown⟩
    dsimp only at hzero hgrown ⊢
    split
    · rename_i hz
      exact hnone B r₁ _ (hzero hz)
    rename_i hne
    obtain ⟨hB, hsz₁⟩ := hgrown hne
    split
    · exact hnone B r₁ _ hB.space
    rename_i hal
    have hlt : sz₁ < KERNBASE := by omega
    refine (loaduvm_meets hB (not_not.mp hal) hoff.1 (by omega) hlt).bind ?_ fun _ he => he
    rintro ok r₂ ⟨hmem, hok⟩
    cases ok with
    | false =>
      refine hnone B r₂ _ ?_
      rw [hmem]
      exact hB.space
    | true => exact ih _ B sz₁ r₂ _ (hok rfl) hlt

/-- The image that the file describes. -/
def imageOf (ip : Inode) : Nat → UInt8 :=
  laid ip (fun _ => 0) (segments ip (elfhdr ip.data).phnum (elfhdr ip.data).phoff)

/-- An address space with an image, a guard page and a stack. -/
structure Ready (L : Layout) (ip : Inode) (A : Pgdir) (sz : Nat) (r : Ram) : Prop where
  space : Space L A r.mem
  aligned : sz % PGSIZE = 0
  stack : 2 * PGSIZE ≤ sz
  below : sz < KERNBASE
  holds : A.Holds sz
  perm : ∀ n, n < KERNBASE / PGSIZE → ∀ e, A.entry n = some e → e.perm = ⟨true, decide (n ≠ sz / PGSIZE - 2)⟩
  image : ∀ n, n < KERNBASE / PGSIZE → ∀ e, A.entry n = some e →
    ∀ o < PGSIZE, r.bytes e.page o = imageOf ip (n * PGSIZE + o)

/-- The free pages are free once, and may be freed. -/
structure Sane (L : Layout) (m : Mem) : Prop where
  once : ∀ x, m.owns x ≤ 1
  range : ∀ x, 0 < m.owns x → InRange L x

/-- An address space without user pages. -/
theorem Sane.start (hm : Sane L m) (hown : ∀ x, r.mem.owns x + A.owns x = m.owns x) (hholds : A.Holds 0)
    (hkern : A.KernelOnly) : Loaded L A 0 r fun _ => 0 := by
  have hempty : ∀ n, n < KERNBASE / PGSIZE → ∀ e, A.entry n ≠ some e := by
    intro n hn e he
    rw [hholds.none hn (Nat.zero_le _)] at he
    cases he
  refine ⟨⟨fun x => ?_, fun x hpos => ?_, hkern⟩, hholds, fun n hn e he => absurd he (hempty n hn e),
    fun n hn e he => absurd he (hempty n hn e), fun _ _ => rfl⟩
  · rw [hown x]
    exact hm.once x
  · rw [hown x] at hpos
    exact hm.range x hpos

theorem bad_meets (h : Space L A r.mem) : Meets (bad (α := α) L A r) (fun x _ => x = none) fun _ => False :=
  (onPages_meets (freevm_spec L A r.mem)).bind (fun _ _ _ => rfl) fun _ he => he h.within

/-- Two pages more, the first of them not for the user. -/
theorem Loaded.ready {sz₁ : Nat} (h : Loaded L A sz₁ r (imageOf ip)) (hal : sz₁ % PGSIZE = 0)
    (hstack : 2 * PGSIZE ≤ sz₁) (hlt : sz₁ < KERNBASE) :
    Meets (onPages (clearpteu A (sz₁ - 2 * PGSIZE)) r) (fun B r' => Ready L ip B sz₁ r') fun _ => False := by
  have hguard : (sz₁ - 2 * PGSIZE) / PGSIZE = sz₁ / PGSIZE - 2 ∧ (sz₁ - 2 * PGSIZE) / PGSIZE < KERNBASE / PGSIZE ∧
      (sz₁ - 2 * PGSIZE) / PGSIZE * PGSIZE < sz₁ ∧ sz₁ - 2 * PGSIZE < KERNBASE ∧ KERNBASE < 2 ^ 32 := by
    simp only [PGSIZE, KERNBASE] at *
    omega
  obtain ⟨e, he⟩ := Option.isSome_iff_exists.mp ((h.holds _ hguard.2.1).mpr hguard.2.2.1)
  obtain ⟨B, hrun, hent⟩ := clearpteu_flat (by omega) he r.mem
  have hown := Meets.of_ok (clearpteu_spec A _ hguard.2.2.2.1 r.mem) hrun
  have hmeets : Meets (clearpteu A (sz₁ - 2 * PGSIZE) r.mem) (fun C m => C = B ∧ m = r.mem) fun _ => False := by
    rw [hrun]
    exact ⟨rfl, rfl⟩
  rw [hguard.1] at hent he
  refine (onPages_meets hmeets).mono ?_ fun _ hf => hf
  rintro C ⟨m, b⟩ ⟨hbytes, rfl, hmem⟩
  dsimp only at hbytes hmem
  subst hbytes hmem
  -- an entry of the new directory is one of the old, but for its permissions
  have hpage : ∀ n, n < KERNBASE / PGSIZE → ∀ f, C.entry n = some f → ∃ f', A.entry n = some f' ∧ f.page = f'.page ∧
      f.perm = ⟨true, decide (n ≠ sz₁ / PGSIZE - 2)⟩ := by
    intro n hn f hf
    rw [hent n (user_lt hn)] at hf
    split at hf
    · rename_i heq
      cases hf
      refine ⟨e, by rw [heq]; exact he, rfl, ?_⟩
      rw [h.perm n hn e (by rw [heq]; exact he), decide_eq_false (not_not.mpr heq)]
    · rename_i hne
      exact ⟨f, hf, rfl, by rw [h.perm n hn f hf, decide_eq_true hne]⟩
  refine ⟨h.space.of_le (fun x => by rw [hown.2.1 x]) fun n hn hk f hf => ?_, hal, hstack, hlt, fun n hn => ?_, ?_, ?_⟩
  · rw [hent n hn] at hf
    split at hf
    · cases hf
      rfl
    · exact h.space.kernel n hn hk f hf
  · rw [hown.2.2 n hn]
    exact h.holds n hn
  · intro n hn f hf
    obtain ⟨f', -, -, hperm⟩ := hpage n hn f hf
    exact hperm
  · intro n hn f hf o ho
    obtain ⟨f', hf', hp, -⟩ := hpage n hn f hf
    rw [hp]
    exact h.image n hn f' hf' o ho

/-- **The load phase returns**, and what it returns is ready. -/
theorem loadImage_meets (ip : Inode) (hm : Sane L r.mem) :
    Meets (loadImage L ip r) (fun x r' => ∀ A sz, x = some (A, sz) → Ready L ip A sz r') fun _ => False := by
  have hnone : ∀ s : Ram, ∀ A sz, (none : Option (Pgdir × Nat)) = some (A, sz) → Ready L ip A sz s :=
    fun s A sz hc => by cases hc
  unfold loadImage
  split
  · exact hnone r
  split
  · exact hnone r
  refine (onPages_meets (setupkvm_spec L r.mem)).bind ?_ fun _ he => he.1 hm.range
  rintro x r₁ ⟨-, hx, -⟩
  cases x with
  | none => exact hnone r₁
  | some A =>
    obtain ⟨hown, hholds, hkern⟩ := hx
    refine (loadSegments_meets ip _ _ A 0 r₁ _ (hm.start hown hholds hkern) (by simp only [KERNBASE]; omega)).bind ?_ fun _ he => he
    rintro ⟨B, x⟩ r₂ ⟨hB, hload⟩
    dsimp only at hB hload ⊢
    have hbad : ∀ (C : Pgdir) (s : Ram), Space L C s.mem →
        Meets (bad L C s) (fun x r' => ∀ A sz, x = some (A, sz) → Ready L ip A sz r') fun _ => False :=
      fun C s hC => (bad_meets hC).mono (fun x s' hx A sz hs => by rw [hx] at hs; cases hs) fun _ he => he
    cases x with
    | none => exact hbad B r₂ hB
    | some sz =>
      have hloaded := (hload sz rfl).2
      dsimp only
      generalize hnew : pgroundup sz + 2 * PGSIZE = new
      refine (allocuvm_meets new hloaded.round).bind ?_ fun _ he => he
      rintro ⟨C, sz₁⟩ r₃ ⟨hzero, hgrown⟩
      dsimp only at hzero hgrown ⊢
      split
      · rename_i hz
        exact hbad C r₃ (hzero hz)
      rename_i hne
      obtain ⟨hC, hsz₁⟩ := hgrown hne
      have hup := pgroundup_mod sz
      refine (hC.ready (by simp only [PGSIZE] at *; omega) (by omega) (by omega)).bind (fun D r₄ hD => ?_) fun _ he => he
      intro A' sz' hs
      cases hs
      exact hD

/-! ## `exec` -/

theorem pushStrings_meets (argv : List (List UInt8)) (sp : Nat) (ptrs : List Nat) (r : Ram) :
    Meets (pushStrings A argv sp ptrs r) (fun _ r' => r'.mem = r.mem) fun e => e = .trap := by
  induction argv generalizing sp ptrs r with
  | nil => rfl
  | cons s argv ih =>
    unfold pushStrings
    split
    · rfl
    refine (copyout_spec (by omega) _ r).bind (fun ret r' hr => ?_) fun e he => he.1
    split
    · exact hr.1
    · exact (ih _ _ r').mono (fun _ r'' hr'' => hr''.trans hr.1) fun _ he => he

theorem pushArgs_meets (argv : List (List UInt8)) (r : Ram) :
    Meets (pushArgs A argv sz r) (fun _ r' => r'.mem = r.mem) fun e => e = .trap := by
  unfold pushArgs
  refine (pushStrings_meets argv sz [] r).bind (fun x r₁ hr₁ => ?_) fun _ he => he
  cases x with
  | none => exact hr₁
  | some y =>
    obtain ⟨sp, ptrs⟩ := y
    refine (copyout_spec (Nat.mod_lt _ (by decide)) _ r₁).bind (fun ret r₂ hr₂ => ?_) fun e he => he.1
    split
    · exact hr₂.1.trans hr₁
    · exact hr₂.1.trans hr₁

theorem exec_meets (ip : Inode) (argv : List (List UInt8)) (hm : Sane L r.mem) :
    Meets (exec L ip argv r) (fun _ _ => True) fun e => e = .trap := by
  unfold exec
  refine (loadImage_meets ip hm).bind (fun x r₁ hx => ?_) fun _ he => he.elim
  cases x with
  | none => trivial
  | some y =>
    obtain ⟨A, sz⟩ := y
    have hready := hx A sz rfl
    refine (pushArgs_meets argv r₁).bind (fun z r₂ hmem => ?_) fun _ he => he
    cases z with
    | none =>
      refine (bad_meets ?_).mono (fun _ _ _ => trivial) fun _ he => he.elim
      rw [hmem]
      exact hready.space
    | some _ => trivial

/-- **The loader is total and exact.**  For every file, with any free pages: `exec` comes to no panic (a null pointer of
    `copyout` apart); the load phase returns, and if it succeeds, `[0, sz)` holds the image that the file describes, and
    every page below the stack guard is present and the user may write to it. -/
theorem exec_loads (L : Layout) (ip : Inode) (r : Ram) (hm : Sane L r.mem) :
    (∀ argv e, exec L ip argv r = .error e → e = .trap) ∧
    ∃ x r', loadImage L ip r = .ok (x, r') ∧ ∀ A sz, x = some (A, sz) →
      (∀ va < sz, ∃ e, A.pte va = some e ∧ r'.bytes e.page (va % PGSIZE) = imageOf ip va) ∧
      ∀ va < sz - 2 * PGSIZE, ∃ e, A.pte va = some e ∧ e.perm = ⟨true, true⟩ := by
  refine ⟨fun argv e he => Meets.of_error (E := fun e => e = .trap) (exec_meets ip argv hm) he, ?_⟩
  obtain ⟨x, r', hrun, hx⟩ := (loadImage_meets ip hm).returns fun _ he => he
  refine ⟨x, r', hrun, fun A sz hs => ?_⟩
  have hready := hx A sz hs
  have hbelow := hready.below
  -- the entry of an address below the size
  have hentry : ∀ va < sz, va / PGSIZE < KERNBASE / PGSIZE ∧ ∃ e, A.entry (va / PGSIZE) = some e ∧ A.pte va = some e := by
    intro va hva
    have hn : va / PGSIZE < KERNBASE / PGSIZE ∧ va / PGSIZE * PGSIZE < sz ∧ va < 2 ^ 32 ∧
        va / PGSIZE * PGSIZE < 2 ^ 32 ∧ va / PGSIZE * PGSIZE / PGSIZE = va / PGSIZE := by
      simp only [PGSIZE, KERNBASE] at *
      omega
    obtain ⟨e, he⟩ := Option.isSome_iff_exists.mp ((hready.holds _ hn.1).mpr hn.2.1)
    refine ⟨hn.1, e, he, ?_⟩
    rw [← (pte_page hn.2.2.2.1 hn.2.2.1 hn.2.2.2.2).1]
    exact he
  refine ⟨fun va hva => ?_, fun va hva => ?_⟩
  · obtain ⟨hn, e, he, hpte⟩ := hentry va hva
    refine ⟨e, hpte, ?_⟩
    rw [hready.image _ hn e he _ (Nat.mod_lt _ (by decide)), Nat.div_add_mod']
  · obtain ⟨hn, e, he, hpte⟩ := hentry va (by omega)
    refine ⟨e, hpte, ?_⟩
    have hal := hready.aligned
    rw [hready.perm _ hn e he, decide_eq_true]
    simp only [PGSIZE] at *
    omega

/-! ## A program -/

/-- A program of four bytes, to be loaded at 0. -/
def tinyElf : Inode where
  size := 88
  data i :=
    if i = 0 then 0x7f else if i = 1 then 0x45 else if i = 2 then 0x4c else if i = 3 then 0x46
    -- `phoff` and `phnum`
    else if i = 28 then 52 else if i = 44 then 1
    -- `type`, `off`, `filesz` and `memsz`
    else if i = 52 then 1 else if i = 56 then 84 else if i = 68 then 4 else if i = 72 then 4
    else if 84 ≤ i then 0x90 else 0
  size_lt := by decide

example : segments tinyElf 1 52 = [⟨1, 84, 0, 4, 4⟩] := rfl

end Xv6.Exec
