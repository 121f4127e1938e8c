/-
  THE ARGUMENT STACK — what `exec` leaves for `main(argc, argv)`.

  `exec` takes the length of a string off the stack pointer without a look at it; only `copyout` stands between a long string
  and the program, for the guard page below the stack is not the user's.

  1. **`Ready.place_iff`** — the addresses that `copyout` takes: the program and the stack, and nothing else.
  2. **`Ready.push_string`, `Ready.push_words`** — a copy of at least the bytes between the old and the new stack pointer
     that succeeds is inside the stack page: otherwise it has a byte in the guard page, or wraps and has one beyond the size.
  3. **`Stacked`** — the invariant of the loop: below one another, the strings that are done; the rest of the memory as it
     was.  A copy to below the stack pointer keeps it (`Ready.copy`), for no page is mapped twice.
-/
import Mathlib
import Xv6.Exec.Load

namespace Xv6.Exec

open Outcome Vm

/-- The byte at a virtual address. -/
def byte (A : Pgdir) (b : Page → Nat → UInt8) (va : Nat) : Option UInt8 :=
  (A.pte va).map fun e => b e.page (va % PGSIZE)

/-- The word at a virtual address. -/
def word (A : Pgdir) (b : Page → Nat → UInt8) (va : Nat) : Option Nat := do
  let b0 ← byte A b va
  let b1 ← byte A b (va + 1)
  let b2 ← byte A b (va + 2)
  let b3 ← byte A b (va + 3)
  pure (b0.toNat + 256 * (b1.toNat + 256 * (b2.toNat + 256 * b3.toNat)))

variable {L : Layout} {ip : Inode} {A : Pgdir} {sz sp : Nat} {r : Ram} {b b' b₀ : Page → Nat → UInt8} {p img : Nat → UInt8}

/-! ## Where `copyout` copies to -/

variable {va : Nat}

/-- The user's pages: the program and the stack. -/
theorem Ready.place_iff (h : Ready L ip A sz r) (hva : va < 2 ^ 32) :
    (place A va).isSome = true ↔ va < sz - 2 * PGSIZE ∨ sz - PGSIZE ≤ va ∧ va < sz := by
  obtain ⟨hal, hstack, hbelow⟩ := And.intro h.aligned (And.intro h.stack h.below)
  have hpte : A.pte va = A.entry (va / PGSIZE) := by
    have hn : va / PGSIZE * PGSIZE < 2 ^ 32 ∧ va / PGSIZE * PGSIZE / PGSIZE = va / PGSIZE := by
      simp only [PGSIZE]
      omega
    exact (pte_page hva hn.1 hn.2.symm).1
  rw [place, hpte]
  rcases Nat.lt_or_ge (va / PGSIZE) (KERNBASE / PGSIZE) with hn | hn
  · have hiff := h.holds _ hn
    cases he : A.entry (va / PGSIZE) with
    | none =>
      rw [he] at hiff
      simp only [Option.isSome_none, Bool.false_eq_true, false_iff] at hiff ⊢
      simp only [PGSIZE] at *
      omega
    | some e =>
      rw [he] at hiff
      have hperm := h.perm _ hn e he
      simp only [Option.isSome_some, true_iff, hperm] at hiff ⊢
      by_cases hguard : va / PGSIZE = sz / PGSIZE - 2
      · rw [if_pos (decide_eq_false (not_not.mpr hguard))]
        simp only [Option.isSome_none, Bool.false_eq_true, false_iff]
        simp only [PGSIZE] at *
        omega
      · rw [if_neg (by rw [decide_eq_true hguard]; decide)]
        simp only [Option.isSome_some, true_iff]
        simp only [PGSIZE] at *
        omega
  · have hout : ¬ (va < sz - 2 * PGSIZE ∨ sz - PGSIZE ≤ va ∧ va < sz) := by
      simp only [PGSIZE, KERNBASE] at *
      omega
    have hlt : va / PGSIZE < 2 ^ 20 := by
      simp only [PGSIZE]
      omega
    cases he : A.entry (va / PGSIZE) with
    | none => simpa using hout
    | some e =>
      have hkern := h.space.kernel _ hlt (by simp only [PGSIZE, KERNBASE] at *; omega) e he
      simpa [hkern] using hout

variable {v : Page} {o : Nat}

theorem byte_of_place (h : place A va = some (v, o)) : byte A b va = some (b v o) := by
  obtain ⟨e, he, rfl, rfl⟩ := pte_of_place h
  rw [byte, he, Option.map_some]

/-- No page is mapped twice below `KERNBASE`. -/
theorem Ready.pte_inj (h : Ready L ip A sz r) {vb : Nat} {e f : Pte} (ha : va < KERNBASE) (hb : vb < KERNBASE)
    (he : A.pte va = some e) (hf : A.pte vb = some f) (hpage : e.page = f.page) : va / PGSIZE = vb / PGSIZE := by
  have hentry : ∀ c < KERNBASE, A.entry (c / PGSIZE) = A.pte c ∧ c / PGSIZE < KERNBASE / PGSIZE := by
    intro c hc
    have hn : c / PGSIZE * PGSIZE < 2 ^ 32 ∧ c / PGSIZE * PGSIZE / PGSIZE = c / PGSIZE ∧ c < 2 ^ 32 ∧
        c / PGSIZE < KERNBASE / PGSIZE := by
      simp only [PGSIZE, KERNBASE] at *
      omega
    exact ⟨(pte_page hn.1 hn.2.2.1 hn.2.1).1, hn.2.2.2⟩
  obtain ⟨hea, hna⟩ := hentry va ha
  obtain ⟨heb, hnb⟩ := hentry vb hb
  exact h.space.inj hna hnb (hea.trans he) (heb.trans hf) hpage

/-- Two addresses of the user have two places. -/
theorem Ready.place_inj (h : Ready L ip A sz r) {vb : Nat} (ha : va < 2 ^ 32) (hb : vb < 2 ^ 32)
    (hva : place A va = some (v, o)) (hvb : place A vb = some (v, o)) : va = vb := by
  have hbelow := h.below
  have hlt : va < KERNBASE ∧ vb < KERNBASE := by
    have hia := (h.place_iff ha).mp (by rw [hva]; rfl)
    have hib := (h.place_iff hb).mp (by rw [hvb]; rfl)
    omega
  obtain ⟨e, he, hev, heo⟩ := pte_of_place hva
  obtain ⟨f, hf, hfv, hfo⟩ := pte_of_place hvb
  have hpage := h.pte_inj hlt.1 hlt.2 he hf (hev.trans hfv.symm)
  rw [← Nat.div_add_mod' va PGSIZE, ← Nat.div_add_mod' vb PGSIZE, hpage, heo, hfo]

variable {n : Nat}

/-- A copy that succeeds, inside the size: what is at every address then. -/
theorem Ready.copy (h : Ready L ip A sz r) (hlo : sz - PGSIZE ≤ va) (hhi : va + n ≤ sz) (hw : Written A va p n b b') :
    (∀ i < n, byte A b' (va + i) = some (p i)) ∧
    (∀ c, c < va ∨ va + n ≤ c → sz - PGSIZE ≤ c → c < sz → byte A b' c = byte A b c) ∧
    ∀ v o, (∀ c, sz - PGSIZE ≤ c → c < sz → place A c ≠ some (v, o)) → b' v o = b v o := by
  have hbelow := h.below
  have hkern : KERNBASE < 2 ^ 32 := by decide
  have hmod : ∀ i < n, (va + i) % 2 ^ 32 = va + i := fun i hi => Nat.mod_eq_of_lt (by omega)
  have hplace : ∀ c, sz - PGSIZE ≤ c → c < sz → ∃ v o, place A c = some (v, o) := by
    intro c hc hc'
    obtain ⟨⟨v, o⟩, hvo⟩ := Option.isSome_iff_exists.mp ((h.place_iff (by omega)).mpr (.inr ⟨hc, hc'⟩))
    exact ⟨v, o, hvo⟩
  refine ⟨fun i hi => ?_, fun c hout hc hc' => ?_, fun v o hno => hw.elsewhere v o fun i hi => ?_⟩
  · obtain ⟨v, o, hvo⟩ := hplace (va + i) (by omega) (by omega)
    rw [byte_of_place hvo, hw.there i hi v o (by rw [hmod i hi]; exact hvo)]
    intro j hij hj hvo'
    rw [hmod j hj] at hvo'
    have := h.place_inj (by omega) (by omega) hvo hvo'
    omega
  · obtain ⟨v, o, hvo⟩ := hplace c hc hc'
    rw [byte_of_place hvo, byte_of_place hvo, hw.elsewhere v o]
    intro i hi hvo'
    rw [hmod i hi] at hvo'
    have := h.place_inj (by omega) (by omega) hvo hvo'
    omega
  · rw [hmod i hi]
    exact hno (va + i) (by omega) (by omega)

/-! ## The stack pointer -/

variable {sp' : Nat}

/-- A string that has been copied is in the stack page: a longer one has a byte in the guard page, or beyond the size. -/
theorem Ready.push_string (h : Ready L ip A sz r) (hn : 0 < n) (hlo : sz - PGSIZE ≤ sp) (hhi : sp ≤ sz)
    (hsp : sp' = (sp + 2 ^ 32 - n) % 2 ^ 32 / 4 * 4) (hal : sp % 4 = 0)
    (hgood : ∀ i < n, (place A ((sp' + i) % 2 ^ 32)).isSome = true) : sz - PGSIZE ≤ sp' ∧ sp' + n ≤ sp := by
  obtain ⟨hstack, hbelow⟩ := And.intro h.stack h.below
  have hbyte : ∀ i < n, (sp' + i) % 2 ^ 32 < sz - 2 * PGSIZE ∨
      sz - PGSIZE ≤ (sp' + i) % 2 ^ 32 ∧ (sp' + i) % 2 ^ 32 < sz :=
    fun i hi => (h.place_iff (Nat.mod_lt _ (by decide))).mp (hgood i hi)
  have h0 := hbyte 0 hn
  simp only [PGSIZE, KERNBASE] at *
  by_cases hfits : n ≤ sp
  · -- the byte right below the stack, if the string starts below it
    by_contra hcon
    have hg := hbyte (sz - 4096 - 4 - sp')
    omega
  · -- the byte right above the size
    have hg := hbyte (sz - sp')
    omega

/-- The words are at most 144 bytes. -/
theorem Ready.push_words (h : Ready L ip A sz r) (hn : 0 < n) (hle : n ≤ PGSIZE) (hlo : sz - PGSIZE ≤ sp)
    (hhi : sp ≤ sz) (hsp : sp' = (sp + 2 ^ 32 - n) % 2 ^ 32)
    (hgood : ∀ i < n, (place A ((sp' + i) % 2 ^ 32)).isSome = true) : sz - PGSIZE ≤ sp' ∧ sp' + n = sp := by
  obtain ⟨hstack, hbelow⟩ := And.intro h.stack h.below
  have h0 := (h.place_iff (Nat.mod_lt _ (by decide))).mp (hgood 0 hn)
  simp only [PGSIZE, KERNBASE] at *
  omega

/-! ## The strings -/

/-- What is there when the strings `argv` have been pushed, and nothing else of the memory has changed. -/
structure Stacked (A : Pgdir) (sz : Nat) (b₀ b : Page → Nat → UInt8) (sp : Nat) (args : List Nat)
    (argv : List (List UInt8)) : Prop where
  len : args.length = argv.length
  lo : sz - PGSIZE ≤ sp
  hi : sp ≤ sz
  aligned : sp % 4 = 0
  strings : ∀ x ∈ args.zip argv, sp ≤ x.1 ∧ x.1 + (x.2.length + 1) ≤ sz ∧
    ∀ j ≤ x.2.length, byte A b (x.1 + j) = some (cstr x.2 j)
  apart : (args.zip argv).Pairwise fun x y => y.1 + (y.2.length + 1) ≤ x.1
  rest : ∀ v o, (∀ c, sz - PGSIZE ≤ c → c < sz → place A c ≠ some (v, o)) → b v o = b₀ v o

variable {args : List Nat} {argv : List (List UInt8)}

theorem Stacked.pointer {a : Nat} (hs : Stacked A sz b₀ b sp args argv) (ha : a ∈ args) : a < sz := by
  rw [← List.map_fst_zip (Nat.le_of_eq hs.len), List.mem_map] at ha
  obtain ⟨x, hx, rfl⟩ := ha
  have := (hs.strings x hx).2.1
  omega

/-- A copy to below the stack pointer leaves the strings. -/
theorem Stacked.below (h : Ready L ip A sz r)
    (hs : Stacked A sz b₀ b sp args argv) (hlo : sz - PGSIZE ≤ va) (hhi : va + n ≤ sp) (hw : Written A va p n b b') :
    Stacked A sz b₀ b' sp args argv := by
  have htop := hs.hi
  obtain ⟨-, hkeep, hrest⟩ := h.copy hlo (by omega) hw
  refine ⟨hs.len, hs.lo, hs.hi, hs.aligned, fun x hx => ?_, hs.apart, fun v o hno => (hrest v o hno).trans (hs.rest v o hno)⟩
  obtain ⟨hsp, hsz, hbytes⟩ := hs.strings x hx
  refine ⟨hsp, hsz, fun j hj => ?_⟩
  rw [hkeep (x.1 + j) (.inr (by omega)) (by omega) (by omega)]
  exact hbytes j hj

/-- One more string. -/
theorem Stacked.push {str : List UInt8} (h : Ready L ip A sz r)
    (hs : Stacked A sz b₀ b sp args argv) (hsp : sp' = (sp + 2 ^ 32 - (str.length + 1)) % 2 ^ 32 / 4 * 4)
    (hgood : ∀ i < str.length + 1, (place A ((sp' + i) % 2 ^ 32)).isSome = true)
    (hw : Written A sp' (cstr str) (str.length + 1) b b') : Stacked A sz b₀ b' sp' (args ++ [sp']) (argv ++ [str]) := by
  obtain ⟨hlo, hfits⟩ := h.push_string (Nat.succ_pos _) hs.lo hs.hi hsp hs.aligned hgood
  have htop := hs.hi
  have hold := hs.below h hlo hfits hw
  obtain ⟨hnew, -, -⟩ := h.copy hlo (by omega) hw
  have hzip : (args ++ [sp']).zip (argv ++ [str]) = args.zip argv ++ [(sp', str)] := List.zip_append hs.len
  refine ⟨by simp [hs.len], hlo, by omega, by omega, fun x hx => ?_, ?_, hold.rest⟩
  · rw [hzip, List.mem_append, List.mem_singleton] at hx
    rcases hx with hx | rfl
    · obtain ⟨hx1, hx2⟩ := hold.strings x hx
      exact ⟨by omega, hx2⟩
    · exact ⟨Nat.le_refl _, by dsimp only; omega, fun j hj => hnew j (Nat.lt_succ_of_le hj)⟩
  · rw [hzip, List.pairwise_append]
    refine ⟨hs.apart, List.pairwise_singleton _ _, fun x hx y hy => ?_⟩
    rw [List.mem_singleton] at hy
    subst hy
    have := (hs.strings x hx).1
    dsimp only
    omega

/-- **The loop of `exec` over `argv`.** -/
theorem pushStrings_stacked (h : Ready L ip A sz r) (argv : List (List UInt8)) (dn : List (List UInt8)) (sp : Nat)
    (args : List Nat) (q : Ram) (hmax : args.length ≤ MAXARG) (hs : Stacked A sz b₀ q.bytes sp args dn) :
    Meets (pushStrings A argv sp args q) (fun x q' => ∀ sp' args', x = some (sp', args') →
      args'.length ≤ MAXARG ∧ Stacked A sz b₀ q'.bytes sp' args' (dn ++ argv)) fun _ => True := by
  induction argv generalizing dn sp args q with
  | nil =>
    intro sp' args' hx
    cases hx
    rw [List.append_nil]
    exact ⟨hmax, hs⟩
  | cons str argv ih =>
    have hnone : ∀ q' : Ram, ∀ sp' args', (none : Option (Nat × List Nat)) = some (sp', args') →
        args'.length ≤ MAXARG ∧ Stacked A sz b₀ q'.bytes sp' args' (dn ++ str :: argv) := fun _ _ _ hx => by cases hx
    unfold pushStrings
    split
    · exact hnone q
    rename_i hroom
    refine (copyout_spec (by omega) _ q).bind (fun ret q' hq => ?_) fun _ _ => trivial
    rcases hq.2.1 with ⟨rfl, hgood, hw⟩ | ⟨rfl, -⟩
    · rw [if_neg (Int.lt_irrefl 0)]
      have hnext := ih (dn ++ [str]) _ (args ++ [_]) q' (by rw [List.length_append, List.length_singleton]; omega)
        (hs.push h rfl hgood hw)
      rw [List.append_assoc] at hnext
      exact hnext
    · rw [if_pos (by decide)]
      exact hnone q'

/-! ## The words -/

/-- A word from its bytes. -/
theorem word_of_bytes {w : Nat} (hw : w < 2 ^ 32)
    (h : ∀ k < 4, byte A b (va + k) = some (UInt8.ofNat (w / 256 ^ k))) : word A b va = some w := by
  have h0 := h 0 (by decide)
  rw [Nat.add_zero, Nat.pow_zero, Nat.div_one] at h0
  unfold word
  rw [h0, h 1 (by decide), h 2 (by decide), h 3 (by decide)]
  simp only [Option.bind_eq_bind, Option.bind_some, Option.pure_def, Option.some.injEq, UInt8.toNat_ofNat']
  omega

theorem wordBytes_apply {ws : List Nat} {i k w : Nat} (hw : ws[i]? = some w) (hk : k < 4) :
    wordBytes ws (4 * i + k) = UInt8.ofNat (w / 256 ^ k) := by
  unfold wordBytes
  rw [show (4 * i + k) / 4 = i by omega, show (4 * i + k) % 4 = k by omega, List.getD_eq_getElem?_getD, hw, Option.getD_some]

/-- What `main` finds. -/
structure ArgStack (A : Pgdir) (sz : Nat) (b : Page → Nat → UInt8) (sp : Nat) (args : List Nat)
    (argv : List (List UInt8)) : Prop where
  /-- The stack pointer is in the top page. -/
  lo : sz - PGSIZE ≤ sp
  hi : sp < sz
  /-- The words at the stack pointer: fake return PC, argc, argv, and what argv points to. -/
  words : ∀ i w, ([0xffffffff, argv.length, sp + 12] ++ args ++ [0])[i]? = some w → word A b (sp + 4 * i) = some w
  len : args.length = argv.length
  /-- A pointer addresses a copy of its string. -/
  strings : ∀ x ∈ args.zip argv, ∀ j ≤ x.2.length, byte A b (x.1 + j) = some (cstr x.2 j)
  /-- All areas are inside the top page. -/
  inside : ∀ x ∈ args.zip argv, sz - PGSIZE ≤ x.1 ∧ x.1 + (x.2.length + 1) ≤ sz
  /-- No two of them overlap. -/
  below : ∀ x ∈ args.zip argv, sp + 4 * (argv.length + 4) ≤ x.1
  apart : (args.zip argv).Pairwise fun x y => y.1 + (y.2.length + 1) ≤ x.1

/-- **The arguments**, when `pushArgs` returns a stack pointer. -/
theorem pushArgs_stack (h : Ready L ip A sz r) (argv : List (List UInt8)) :
    Meets (pushArgs A argv sz r) (fun x r' => ∀ sp args, x = some (sp, args) → ArgStack A sz r'.bytes sp args argv ∧
      ∀ v o, (∀ c, sz - PGSIZE ≤ c → c < sz → place A c ≠ some (v, o)) → r'.bytes v o = r.bytes v o) fun _ => True := by
  have hstart : Stacked A sz r.bytes r.bytes sz [] [] := ⟨rfl, Nat.sub_le _ _, Nat.le_refl _,
    by have := h.aligned; simp only [PGSIZE] at this; omega, fun x hx => absurd hx List.not_mem_nil, List.Pairwise.nil,
    fun _ _ _ => rfl⟩
  unfold pushArgs
  refine (pushStrings_stacked h argv [] sz [] r (Nat.zero_le _) hstart).bind (fun x q hx => ?_) fun _ _ => trivial
  cases x with
  | none => exact fun _ _ hx => by cases hx
  | some y =>
    obtain ⟨sp, args⟩ := y
    obtain ⟨hmax, hs⟩ := hx sp args rfl
    rw [List.nil_append] at hs
    dsimp only
    generalize hsp' : (sp + 2 ^ 32 - (3 + args.length + 1) * 4) % 2 ^ 32 = sp'
    refine (copyout_spec (by omega) _ q).bind (fun ret q' hq => ?_) fun _ _ => trivial
    rcases hq.2.1 with ⟨rfl, hgood, hw⟩ | ⟨rfl, -⟩
    · rw [if_neg (Int.lt_irrefl 0)]
      intro sp₁ args₁ hx
      cases hx
      have hstack := h.stack
      have hbelow := h.below
      obtain ⟨hlo, hsum⟩ := h.push_words (by omega) (by simp only [PGSIZE, MAXARG] at *; omega) hs.lo hs.hi hsp'.symm hgood
      have htop := hs.hi
      obtain ⟨hnew, -, -⟩ := h.copy hlo (by omega) hw
      have hold := hs.below h hlo (by omega) hw
      have hlen := hs.len
      have hustack : ustack sp args = [0xffffffff, argv.length, sp' + 12] ++ args ++ [0] := by
        unfold ustack
        rw [hlen, show (sp + 2 ^ 32 - (argv.length + 1) * 4) % 2 ^ 32 = sp' + 12 by
          simp only [PGSIZE, KERNBASE, MAXARG] at *
          omega]
      refine ⟨⟨hlo, by omega, fun i w hw => ?_, hlen, fun x hx => (hold.strings x hx).2.2, fun x hx => ?_, fun x hx => ?_,
        hold.apart⟩, hold.rest⟩
      · rw [← hustack] at hw
        have hi : i < (ustack sp args).length := (List.getElem?_eq_some_iff.mp hw).1
        have hlength : (ustack sp args).length = 3 + args.length + 1 := by simp [ustack]; omega
        refine word_of_bytes ?_ fun k hk => ?_
        · -- a pointer is below the size
          rw [hustack] at hw
          have hmem := List.mem_of_getElem? hw
          simp only [List.cons_append, List.nil_append, List.mem_cons, List.mem_append, List.not_mem_nil, or_false] at hmem
          simp only [PGSIZE, KERNBASE, MAXARG] at *
          rcases hmem with rfl | rfl | rfl | hmem | rfl
          · decide
          · omega
          · omega
          · have := hold.pointer hmem
            omega
          · decide
        · rw [Nat.add_assoc, hnew (4 * i + k) (by omega), wordBytes_apply hw hk]
      · obtain ⟨hx1, hx2, -⟩ := hold.strings x hx
        have := hs.lo
        exact ⟨by omega, hx2⟩
      · obtain ⟨hx1, -, -⟩ := hold.strings x hx
        omega
    · rw [if_pos (by decide)]
      exact fun _ _ hx => by cases hx

/-- **The argument stack.**  If `exec` returns 0: the stack pointer is in the top page; there are 0xffffffff, argc, a
    pointer to the argv array that follows, argc pointers and a 0; each pointer addresses a copy of its argument; these
    areas are inside the top page and do not overlap; and the copy has changed no byte below that page, nor any other byte
    outside of it. -/
theorem exec_args (L : Layout) (ip : Inode) (argv : List (List UInt8)) (r r' : Ram) (hm : Sane L r.mem) (img : Image)
    (h : exec L ip argv r = .ok (some img, r')) : ArgStack img.pgdir img.sz r'.bytes img.esp img.args argv ∧
    ∃ r₁, loadImage L ip r = .ok (some (img.pgdir, img.sz), r₁) ∧
      (∀ va < img.sz - PGSIZE, byte img.pgdir r'.bytes va = byte img.pgdir r₁.bytes va) ∧
      ∀ v o, (∀ c, img.sz - PGSIZE ≤ c → c < img.sz → place img.pgdir c ≠ some (v, o)) → r'.bytes v o = r₁.bytes v o := by
  obtain ⟨x, r₁, hload, hx⟩ := (loadImage_meets ip hm).returns fun _ he => he
  unfold exec at h
  rw [bind_of_ok hload] at h
  cases x with
  | none => cases h
  | some y =>
    obtain ⟨A, sz⟩ := y
    have hready := hx A sz rfl
    dsimp only at h
    cases hpush : pushArgs A argv sz r₁ with
    | error e =>
      rw [bind_of_error hpush] at h
      cases h
    | ok z =>
      obtain ⟨z, r₂⟩ := z
      rw [bind_of_ok hpush] at h
      cases z with
      | none =>
        have hbad : Meets (bad (α := Image) L A r₂) (fun x _ => x = none) fun _ => False := by
          refine bad_meets ?_
          rw [Meets.of_ok (pushArgs_meets argv r₁) hpush]
          exact hready.space
        cases Meets.of_ok hbad h
      | some w =>
        obtain ⟨sp, args⟩ := w
        cases h
        obtain ⟨hstack, hrest⟩ := Meets.of_ok (pushArgs_stack hready argv) hpush sp args rfl
        refine ⟨hstack, r₁, hload, fun va hva => ?_, hrest⟩
        have hbelow := hready.below
        dsimp only at hva ⊢
        unfold byte
        cases he : A.pte va with
        | none => rfl
        | some e =>
          rw [Option.map_some, Option.map_some, hrest]
          -- the page is none of the top page
          intro c hc hc' hplace
          obtain ⟨f, hf, hfpage, -⟩ := pte_of_place hplace
          have hpage := hready.pte_inj (by omega) (by omega) he hf hfpage.symm
          have hal := hready.aligned
          simp only [PGSIZE] at *
          omega

/-! ## A program with an argument -/

theorem onPages_ok {α : Type} {f : VmProg α} {a : α} {m : Mem} (h : f r.mem = .ok (a, m)) :
    onPages f r = .ok (a, ⟨m, r.bytes⟩) := by
  unfold onPages
  rw [h]

/-- `allocuvm` finds its pages. -/
theorem allocLoop_ok {oldsz newsz k : Nat} (hn : newsz < KERNBASE) (A : Pgdir) (a : Nat) (r : Ram) (ha : a % PGSIZE = 0)
    (hle : newsz ≤ a + n * PGSIZE) (hroom : Room (k + n) A r.mem)
    (habs : ∀ i, a ≤ i * PGSIZE → i * PGSIZE < KERNBASE → A.entry i = none) :
    ∃ B r', allocLoop L oldsz newsz A a r = .ok ((B, newsz), r') ∧ Room k B r'.mem := by
  induction n generalizing A a r with
  | zero => exact ⟨A, r, by rw [allocLoop, if_neg (by omega)]; rfl, hroom⟩
  | succ n ih =>
    rw [allocLoop]
    split
    · rename_i hlt
      have hpages := hroom.pages
      have hnonneg : 0 ≤ A.missing := Finset.sum_nonneg fun i _ => by split <;> omega
      obtain ⟨v, m₁, hk, htape, hlen⟩ := kalloc_ok hroom.tape (by omega)
      have hroom₁ : Room (k + n) A m₁ := ⟨htape, by omega⟩
      have hnone : A.pte a = none := by
        rw [← Pgdir.entry_div ha]
        have hself := pgrounddown_eq ha
        exact habs _ (by omega) (by omega)
      obtain ⟨⟨B, ok⟩, m₂, hmap, hr, hok⟩ := (mappages_user A a v ⟨true, true⟩ m₁ (by omega) ha).returns fun _ he => he hnone
      obtain ⟨rfl, hroom₂⟩ := hok _ hroom₁
      obtain ⟨-, -, hent⟩ := hr
      rw [bind_of_ok (onPages_ok hk)]
      dsimp only
      rw [bind_of_ok (show memset v 0 ⟨m₁, r.bytes⟩ = .ok ((), ⟨m₁, _⟩) from rfl), bind_of_ok (onPages_ok hmap)]
      dsimp only
      rw [if_pos rfl]
      refine ih B (a + PGSIZE) _ (by simp only [PGSIZE] at *; omega) (by simp only [PGSIZE] at *; omega) hroom₂
        fun i hi hi' => ?_
      rw [hent i (by simp only [PGSIZE, KERNBASE] at *; omega), if_neg (by simp only [PGSIZE] at *; omega)]
      exact habs i (by omega) hi'
    · refine ⟨A, r, rfl, hroom.tape, ?_⟩
      have := hroom.pages
      omega

theorem allocuvm_ok {oldsz k : Nat} (newsz n : Nat) (hn : newsz < KERNBASE) (h : Loaded L A oldsz r img) (hle : oldsz ≤ newsz)
    (hfits : newsz ≤ pgroundup oldsz + n * PGSIZE) (hroom : Room (k + n) A r.mem) :
    ∃ B r', allocuvm L A oldsz newsz r = .ok ((B, newsz), r') ∧ Room k B r'.mem := by
  unfold allocuvm
  rw [if_neg (by omega), if_neg (by omega)]
  refine allocLoop_ok hn A _ r (pgroundup_mod oldsz) hfits hroom fun i hi hi' => ?_
  have hiff := h.holds i (by simp only [PGSIZE, KERNBASE] at *; omega)
  have hup := le_pgroundup oldsz
  cases he : A.entry i with
  | none => rfl
  | some e =>
    rw [he] at hiff
    simp only [Option.isSome_some, true_iff] at hiff
    omega

/-- `copyout` to the stack. -/
theorem Ready.copyout_ok (h : Ready L ip A sz r) (p : Nat → UInt8) (va n : Nat) (hlo : sz - PGSIZE ≤ va) (hhi : va + n ≤ sz) (q : Ram) :
    ∃ q', copyout A va p n q = .ok (0, q') := by
  have hbelow := h.below
  have hkern : KERNBASE < 2 ^ 32 := by decide
  have hgood : ∀ i < n, (place A ((va + i) % 2 ^ 32)).isSome = true := by
    intro i hi
    rw [Nat.mod_eq_of_lt (by omega)]
    exact (h.place_iff (by omega)).mpr (.inr (by omega))
  rcases Nat.eq_zero_or_pos n with rfl | hn
  · exact ⟨q, copyoutLoop_zero A p va 0 q⟩
  obtain ⟨ret, q', hrun, -, ⟨rfl, -⟩ | ⟨-, k, hk, -, hnone, -⟩, -⟩ := (copyout_spec (A := A) (p := p) (by omega) n q).returns
    fun e he => he.2 (walkable_of_user hgood)
  · exact ⟨q', hrun⟩
  · have hsome := hgood k hk
    rw [hnone] at hsome
    cases hsome

/-- The program of `tinyElf` is loaded, if there is memory for it. -/
theorem loadImage_tiny (hm : Sane L r.mem) (htape : r.mem.tape = []) (hfree : 1028 ≤ r.mem.free.length) :
    ∃ A r', loadImage L tinyElf r = .ok (some (A, 3 * PGSIZE), r') := by
  obtain ⟨x, m₁, hsetup, hx, hok⟩ := (setupkvm_spec L r.mem).returns fun _ he => he.1 hm.range
  obtain ⟨A, rfl, hroom⟩ := hok 3 htape hfree
  obtain ⟨hown, hholds, hkern⟩ := hx
  have hstart : Loaded L A 0 ⟨m₁, r.bytes⟩ fun _ => 0 := hm.start hown hholds hkern
  -- the segment
  obtain ⟨B, r₂, halloc, hroom₂⟩ := allocuvm_ok (k := 2) 4 1 (by decide) hstart (by decide) (by decide) hroom
  have hB : Loaded L B 4 r₂ _ := ((Meets.of_ok (allocuvm_meets 4 hstart) halloc).2 (Nat.succ_ne_zero 3)).1
  have hload : Meets (loaduvm B 0 tinyElf 84 4 r₂) (fun ok _ => ok = true) fun _ => False := by
    obtain ⟨e, he⟩ := Option.isSome_iff_exists.mp ((hB.holds 0 (by decide)).mpr (Nat.succ_pos 3))
    obtain ⟨t, ht, -⟩ := Option.bind_eq_some_iff.mp he
    rw [Nat.zero_mul] at ht
    unfold loaduvm
    rw [if_neg (by decide), loadLoop, if_pos (by decide), Nat.add_zero, ht]
    dsimp only
    rw [show readi tinyElf ((84 + 0) % 2 ^ 32) (if 4 - 0 < PGSIZE then 4 - 0 else PGSIZE) = some 4 from rfl]
    dsimp only
    rw [bind_of_ok (show memmove _ 0 _ 4 r₂ = .ok ((), _) from rfl), if_neg (by decide), loadLoop, if_neg (by decide)]
    rfl
  obtain ⟨ok, r₃, hrun₃, rfl⟩ := hload.returns fun _ he => he
  have hsegs : loadSegments L tinyElf 1 52 A 0 ⟨m₁, r.bytes⟩ = .ok ((B, some 4), r₃) := by
    rw [loadSegments, if_neg (by decide)]
    dsimp only
    rw [show proghdr tinyElf.data 52 = ⟨1, 84, 0, 4, 4⟩ from rfl]
    dsimp only
    rw [if_neg (by decide), if_neg (by decide), if_neg (by decide), show (0 + 4) % 2 ^ 32 = 4 from rfl, bind_of_ok halloc]
    dsimp only
    rw [if_neg (by decide), if_neg (by decide), bind_of_ok hrun₃]
    rfl
  obtain ⟨hmem, hok⟩ := Meets.of_ok (loaduvm_meets hB rfl (by decide) (Nat.le_refl 4) (by decide)) hrun₃
  -- the stack
  have hroom₃ : Room (0 + 2) B r₃.mem := by
    rw [hmem]
    exact hroom₂
  have hC := (hok rfl).round
  obtain ⟨C, r₄, halloc₂, -⟩ := allocuvm_ok (3 * PGSIZE) 2 (by decide) hC (by decide) (by decide) hroom₃
  have hD : Loaded L C (3 * PGSIZE) r₄ (imageOf tinyElf) :=
    ((Meets.of_ok (allocuvm_meets (3 * PGSIZE) hC) halloc₂).2 (Nat.succ_ne_zero _)).1
  obtain ⟨D, r₅, hclear, -⟩ := (hD.ready (by decide) (by decide) (by decide)).returns fun _ he => he
  refine ⟨D, r₅, ?_⟩
  unfold loadImage
  rw [if_neg (by decide), if_neg (by decide), bind_of_ok (onPages_ok hsetup)]
  dsimp only
  rw [show (elfhdr tinyElf.data).phnum = 1 from rfl, show (elfhdr tinyElf.data).phoff = 52 from rfl, bind_of_ok hsegs]
  dsimp only
  rw [show pgroundup 4 + 2 * PGSIZE = 3 * PGSIZE from rfl, bind_of_ok halloc₂]
  dsimp only
  rw [if_neg (by decide), bind_of_ok hclear]
  rfl

/-- Enough pages. -/
def manyPages : Mem := ⟨List.range' 2000 1100, []⟩

theorem manyPages_sane : Sane smallKernel manyPages := by
  constructor
  · intro x
    have hcount : manyPages.free.count x ≤ 1 := List.nodup_iff_count_le_one.mp List.nodup_range' x
    unfold Mem.owns
    omega
  · intro x hx
    have hmem : x ∈ manyPages.free := List.count_pos_iff.mp (by unfold Mem.owns at hx; omega)
    rw [manyPages, List.mem_range'_1] at hmem
    constructor
    · exact (show smallKernel.kend ≤ 2000 * PGSIZE by decide).trans (Nat.mul_le_mul_right _ hmem.1)
    · exact Nat.lt_of_le_of_lt (Nat.mul_le_mul_right _ hmem.2.le) (by decide)

theorem loadImage_manyPages : ∃ A r', loadImage smallKernel tinyElf ⟨manyPages, fun _ _ => 0⟩ =
    .ok (some (A, 3 * PGSIZE), r') :=
  loadImage_tiny manyPages_sane rfl (by rw [manyPages, List.length_range']; decide)

/-- The program is loaded: its first byte is at address 0, on a page that the user may write to. -/
theorem exec_loads_tiny : ∃ A r', loadImage smallKernel tinyElf ⟨manyPages, fun _ _ => 0⟩ =
      .ok (some (A, 3 * PGSIZE), r') ∧
    ∃ e, A.pte 0 = some e ∧ r'.bytes e.page 0 = 0x90 ∧ e.perm = ⟨true, true⟩ := by
  obtain ⟨A, r', hload⟩ := loadImage_manyPages
  obtain ⟨-, x, r₁, hrun, himage⟩ := exec_loads smallKernel tinyElf ⟨manyPages, fun _ _ => 0⟩ manyPages_sane
  rw [hload] at hrun
  cases hrun
  obtain ⟨hbytes, hperm⟩ := himage A _ rfl
  obtain ⟨e, he, hbyte⟩ := hbytes 0 (by decide)
  obtain ⟨f, hf, hfperm⟩ := hperm 0 (by decide)
  obtain rfl : e = f := Option.some.inj (he.symm.trans hf)
  exact ⟨A, r', hload, e, he, hbyte.trans (by decide), hfperm⟩

/-- The program is run with one argument. -/
theorem exec_args_tiny : ∃ img r', exec smallKernel tinyElf [[97]] ⟨manyPages, fun _ _ => 0⟩ = .ok (some img, r') ∧
    ∃ a, word img.pgdir r'.bytes (img.esp + 4) = some 1 ∧ word img.pgdir r'.bytes (img.esp + 12) = some a ∧
      byte img.pgdir r'.bytes a = some 97 ∧ byte img.pgdir r'.bytes (a + 1) = some 0 := by
  obtain ⟨A, r₁, hload⟩ := loadImage_manyPages
  have hready : Ready smallKernel tinyElf A (3 * PGSIZE) r₁ := Meets.of_ok (loadImage_meets tinyElf manyPages_sane) hload _ _ rfl
  obtain ⟨r₂, hstr⟩ := hready.copyout_ok (cstr [97]) 12284 2 (by decide) (by decide) r₁
  obtain ⟨r₃, hwords⟩ := hready.copyout_ok (wordBytes (ustack 12284 [12284])) 12264 20 (by decide) (by decide) r₂
  have hpush : pushArgs A [[97]] (3 * PGSIZE) r₁ = .ok (some (12264, [12284]), r₃) := by
    have hstrings : pushStrings A [[97]] (3 * PGSIZE) [] r₁ = .ok (some (12284, [12284]), r₂) := by
      rw [pushStrings, if_neg (by decide)]
      exact (bind_of_ok hstr).trans rfl
    unfold pushArgs
    rw [bind_of_ok hstrings]
    exact (bind_of_ok hwords).trans rfl
  have hexec : exec smallKernel tinyElf [[97]] ⟨manyPages, fun _ _ => 0⟩ =
      .ok (some ⟨A, 3 * PGSIZE, (elfhdr tinyElf.data).entry, 12264, [12284]⟩, r₃) := by
    unfold exec
    rw [bind_of_ok hload]
    dsimp only
    rw [bind_of_ok hpush]
    rfl
  obtain ⟨hstack, -⟩ := exec_args smallKernel tinyElf [[97]] _ _ manyPages_sane _ hexec
  refine ⟨_, _, hexec, 12284, hstack.words 1 1 rfl, hstack.words 3 12284 rfl, ?_, ?_⟩
  · exact hstack.strings (12284, [97]) (List.mem_singleton.mpr rfl) 0 (by decide)
  · exact hstack.strings (12284, [97]) (List.mem_singleton.mpr rfl) 1 (by decide)

end Xv6.Exec
