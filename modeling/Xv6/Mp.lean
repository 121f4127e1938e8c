/-
  THE MP TABLE — `mpinit` walks over the entries of a table that the firmware has left in memory.

  The loop ends because every case moves `p` by the size of its entry — every case but the last: `break` leaves the
  `switch` and not the loop, so that an entry of a type that is not known is looked at for ever (`mpinit_stuck`).  And
  an entry that begins before the end need not end before it.  `Entries` says of the table alone which entries may
  follow one another: of a known type, and with a second byte within the table where the loop reads one.  The loop ends,
  and has read nothing beyond the end, exactly on these tables (`mpinit_ends`).

  Addresses count from `conf` on; of the table, `mpconfig` looks at the signature, the length, the version and the sum.
-/
import Mathlib

namespace Xv6.Mp

abbrev NCPU : Nat := 8

/-- `sizeof(struct mpconf)` -/
abbrev headerSize : Nat := 44

/-- The bytes from `conf` on. -/
abbrev Table := Nat → UInt8

/-- `conf->length` -/
def length (t : Table) : Nat := (t 4).toNat + 256 * (t 5).toNat

/-- `sum`, which returns a `uchar` -/
def sum (t : Table) (len : Nat) : UInt8 := ((List.range len).map t).sum

/-- `mpconfig`: is the table accepted? -/
def mpconfig (t : Table) : Bool :=
  (List.range 4).map t = [80, 67, 77, 80] && (t 6 = 1 || t 6 = 4) && sum t (length t) = 0

/-- The variables of `mpinit`, and the places that the loop has read. -/
structure Walk where
  p : Nat
  ncpu : Nat
  /-- `cpus[i].apicid` -/
  apicid : Nat → UInt8
  ioapicid : UInt8
  ismp : Bool
  reads : List Nat

/-- `switch(*p)` -/
def entry (t : Table) (w : Walk) : Walk :=
  let w' := { w with reads := w.reads ++ [w.p] }
  match t w.p with
  | 0 =>
    -- `MPPROC`
    if w.ncpu < NCPU then
      { w' with
        apicid := Function.update w.apicid w.ncpu (t (w.p + 1))
        ncpu := w.ncpu + 1
        reads := w'.reads ++ [w.p + 1]
        p := w.p + 20 }
    else { w' with p := w.p + 20 }
  -- `MPIOAPIC`
  | 2 => { w' with ioapicid := t (w.p + 1), reads := w'.reads ++ [w.p + 1], p := w.p + 8 }
  -- `MPBUS`, `MPIOINTR`, `MPLINTR`
  | 1 | 3 | 4 => { w' with p := w.p + 8 }
  | _ => { w' with ismp := false }

/-- The loop `for(p = conf+1; p < e; )` from `w` on, after `n` rounds or where it has ended before. -/
def walk (t : Table) (w : Walk) : Nat → Walk
  | 0 => w
  | n + 1 => if w.p < length t then walk t (entry t w) n else w

/-- The variables before the loop. -/
def start : Walk := ⟨headerSize, 0, fun _ => 0, 0, true, []⟩

/-- `mpinit`: the variables after the loop, if it ends within `n` rounds. -/
def mpinit (t : Table) (n : Nat) : Option Walk :=
  if mpconfig t = true ∧ length t ≤ (walk t start n).p then some (walk t start n) else none

/-! ## Tables that can be walked -/

/-- The entries from `p` on, with `c` processors before: each is of a known type, and its second byte is within the
    table if it is an I/O APIC's or that of a processor for which there is room in `cpus`. -/
inductive Entries (t : Table) : Nat → Nat → Prop
  | done {p c : Nat} (hend : length t ≤ p) : Entries t p c
  | proc {p c : Nat} (htype : t p = 0) (hid : c < NCPU → p + 1 < length t)
      (hrest : Entries t (p + 20) (if c < NCPU then c + 1 else c)) : Entries t p c
  | ioapic {p c : Nat} (htype : t p = 2) (hid : p + 1 < length t) (hrest : Entries t (p + 8) c) : Entries t p c
  | other {p c : Nat} (htype : t p = 1 ∨ t p = 3 ∨ t p = 4) (hrest : Entries t (p + 8) c) : Entries t p c

variable {t : Table} {w : Walk}

/-- One round: where the cursor is, how many processors there are, and what has been read. -/
theorem entry_cases (t : Table) (w : Walk) :
    (t w.p = 0 ∧ (entry t w).p = w.p + 20 ∧ (entry t w).ncpu = (if w.ncpu < NCPU then w.ncpu + 1 else w.ncpu) ∧
      (entry t w).reads = w.reads ++ w.p :: if w.ncpu < NCPU then [w.p + 1] else []) ∨
    (t w.p = 2 ∧ (entry t w).p = w.p + 8 ∧ (entry t w).ncpu = w.ncpu ∧
      (entry t w).reads = w.reads ++ [w.p, w.p + 1]) ∨
    ((t w.p = 1 ∨ t w.p = 3 ∨ t w.p = 4) ∧ (entry t w).p = w.p + 8 ∧ (entry t w).ncpu = w.ncpu ∧
      (entry t w).reads = w.reads ++ [w.p]) ∨
    (4 < t w.p ∧ (entry t w).p = w.p ∧ (entry t w).ncpu = w.ncpu ∧ (entry t w).reads = w.reads ++ [w.p]) := by
  unfold entry
  split
  · split <;> simp_all
  · simp_all
  · simp_all
  · simp_all
  · simp_all
  · grind

theorem reads_entry : w.reads <+: (entry t w).reads := by
  obtain ⟨-, -, -, h⟩ | ⟨-, -, -, h⟩ | ⟨-, -, -, h⟩ | ⟨-, -, -, h⟩ := entry_cases t w
  all_goals
    rw [h]
    exact List.prefix_append _ _

theorem reads_walk (n : Nat) : w.reads <+: (walk t w n).reads := by
  induction n generalizing w with
  | zero => exact List.prefix_rfl
  | succ n ih =>
    rw [walk]
    split
    · exact reads_entry.trans ih
    · exact List.prefix_rfl

/-- One round more. -/
theorem ends_of_entry (hcpu : w.ncpu ≤ NCPU) (hreads : ∀ i ∈ w.reads, i < length t)
    (h : w.p < length t → ∃ n, length t ≤ (walk t (entry t w) n).p ∧ (walk t (entry t w) n).ncpu ≤ NCPU ∧
      ∀ i ∈ (walk t (entry t w) n).reads, i < length t) :
    ∃ n, length t ≤ (walk t w n).p ∧ (walk t w n).ncpu ≤ NCPU ∧ ∀ i ∈ (walk t w n).reads, i < length t := by
  by_cases hlt : w.p < length t
  · obtain ⟨n, hn⟩ := h hlt
    exact ⟨n + 1, by rw [walk, if_pos hlt]; exact hn⟩
  · exact ⟨0, Nat.not_lt.mp hlt, hcpu, hreads⟩

/-- The loop comes to the end of such a table. -/
theorem Entries.ends {p c : Nat} (h : Entries t p c) (hp : w.p = p) (hc : w.ncpu = c) (hcpu : w.ncpu ≤ NCPU)
    (hreads : ∀ i ∈ w.reads, i < length t) : ∃ n, length t ≤ (walk t w n).p ∧ (walk t w n).ncpu ≤ NCPU ∧
      ∀ i ∈ (walk t w n).reads, i < length t := by
  induction h generalizing w with
  | done hend => exact ⟨0, hp ▸ hend, hcpu, hreads⟩
  | proc htype hid hrest ih =>
    subst hp hc
    have hentry := entry_cases t w
    exact ends_of_entry hcpu hreads fun hlt =>
      ih (by grind) (by grind) (by grind) (by grind)
  | ioapic htype hid hrest ih =>
    subst hp hc
    have hentry := entry_cases t w
    exact ends_of_entry hcpu hreads fun hlt => ih (by grind) (by grind) (by grind) (by grind)
  | other htype hrest ih =>
    subst hp hc
    have hentry := entry_cases t w
    exact ends_of_entry hcpu hreads fun hlt => ih (by grind) (by grind) (by grind) (by grind)

/-- A table whose end the loop comes to, without a look beyond it, is such a table. -/
theorem entries_of_walk {n : Nat} (hend : length t ≤ (walk t w n).p)
    (hreads : ∀ i ∈ (walk t w n).reads, i < length t) : Entries t w.p w.ncpu := by
  induction n generalizing w with
  | zero => exact .done hend
  | succ n ih =>
    by_cases hlt : w.p < length t
    · rw [walk, if_pos hlt] at hend hreads
      have hrest := ih hend hreads
      have hread : ∀ i ∈ (entry t w).reads, i < length t := fun i hi => hreads i ((reads_walk n).subset hi)
      obtain ⟨htype, hp, hc, hr⟩ | ⟨htype, hp, hc, hr⟩ | ⟨htype, hp, hc, hr⟩ | ⟨-, hp, hc, -⟩ := entry_cases t w
      · rw [hp, hc] at hrest
        refine .proc htype (fun hroom => hread _ ?_) hrest
        rw [hr, if_pos hroom]
        simp
      · rw [hp, hc] at hrest
        refine .ioapic htype (hread _ ?_) hrest
        rw [hr]
        simp
      · rw [hp, hc] at hrest
        exact .other htype hrest
      · -- an entry of no known type: the loop has not moved
        rwa [hp, hc] at hrest
    · exact .done (Nat.not_lt.mp hlt)

/-- The loop ends, with at most `NCPU` CPUs and without a look beyond the end of the table, if and only if the table
    holds such entries. -/
theorem mpinit_ends (hconf : mpconfig t = true) :
    (∃ n w, mpinit t n = some w ∧ w.ncpu ≤ NCPU ∧ ∀ i ∈ w.reads, i < length t) ↔ Entries t headerSize 0 := by
  constructor
  · rintro ⟨n, w, hinit, -, hreads⟩
    unfold mpinit at hinit
    split at hinit
    · rename_i hend
      cases hinit
      exact entries_of_walk hend.2 hreads
    · cases hinit
  · intro h
    obtain ⟨n, hend, hcpu, hreads⟩ 
      := h.ends (w := start) rfl rfl (Nat.zero_le _) fun i hi => absurd hi List.not_mem_nil
    exact ⟨n, walk t start n, if_pos ⟨hconf, hend⟩, hcpu, hreads⟩

/-- A table with a header and the bytes of one entry. -/
def table (checksum length : UInt8) (entry : List UInt8) : Table := fun i =>
  ([80, 67, 77, 80, length, 0, 4, checksum] ++ List.replicate 36 0 ++ entry).getD i 0

/-- One I/O APIC. -/
theorem mpinit_ends_ioapic : ∃ n w, mpinit (table 150 52 [2]) n = some w ∧ w.ncpu ≤ NCPU ∧ ∀ i ∈ w.reads, i < 52 :=
  (mpinit_ends (by decide)).2 (.ioapic rfl (by decide) (.done (by decide)))

/-- An entry of a type that is not known is not left. -/
theorem walk_stuck (h : 4 < t w.p) (n : Nat) : (walk t w n).p = w.p := by
  induction n generalizing w with
  | zero => rfl
  | succ n ih =>
    have hstay : (entry t w).p = w.p := by
      unfold entry
      grind
    rw [walk]
    split
    · rw [ih (by rw [hstay]; exact h), hstay]
    · rfl

/-- The loop does not end at an entry of type 5; and the apicid of a processor is read although the table ends before it. -/
theorem mpinit_stuck : (mpconfig (table 154 45 [5]) = true ∧ ∀ n, mpinit (table 154 45 [5]) n = none) ∧
    (∃ w, mpinit (table 159 45 [0]) 1 = some w ∧ ∃ i ∈ w.reads, length (table 159 45 [0]) ≤ i) := by
  refine ⟨⟨by decide, fun n => if_neg fun h => ?_⟩, _, rfl, 45, by decide, by decide⟩
  rw [walk_stuck (by decide) n] at h
  exact absurd h.2 (by decide)

end Xv6.Mp
