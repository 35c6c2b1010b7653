import Xv6.Lib.Memory

set_option autoImplicit false

/-!
# The MP configuration table

`mp.c`: the search for the table of the firmware, and the loop of `mpinit` over its entries. Memory is
physical memory; the loop has a bound on its rounds.
-/

namespace Xv6.Mp

open Memory

abbrev NCPU : Nat := 8

abbrev MPPROC : UInt8 := 0x00
abbrev MPBUS : UInt8 := 0x01
abbrev MPIOAPIC : UInt8 := 0x02
abbrev MPIOINTR : UInt8 := 0x03
abbrev MPLINTR : UInt8 := 0x04

abbrev MPBOOT : UInt8 := 0x02

-- `sizeof` of the structures of `mp.h`.
abbrev MP : Nat := 16
abbrev CONF : Nat := 44
abbrev PROC : Nat := 20
abbrev IOAPIC : Nat := 8

-- The sum is returned as an `uchar`.
def sum (mem : Mem) (addr len : Nat) : UInt8 := (bytesAt mem addr len).sum

-- A `ushort` field.
def halfAt (mem : Mem) (a : Nat) : Nat := (mem a).toNat + 256 * (mem (a + 1)).toNat

-- "_MP_"
def isMp (mem : Mem) (p : Nat) : Bool := bytesAt mem p 4 = [95, 77, 80, 95] ∧ sum mem p MP = 0

-- The loop of `mpsearch1` over the structures that are left.
def searchFrom (mem : Mem) : Nat → Nat → Option Nat
  | 0, _ => none
  | left + 1, p => if isMp mem p then some p else searchFrom mem left (p + MP)

def mpsearch1 (mem : Mem) (a len : Nat) : Option Nat := searchFrom mem ((len + MP - 1) / MP) a

def mpsearch (mem : Mem) : Option Nat :=
  let p := halfAt mem (0x400 + 0x0E) * 16
  let first :=
    if p ≠ 0 then mpsearch1 mem p 1024
    -- `p - 1024` is taken on 32-bit words.
    else mpsearch1 mem ((halfAt mem (0x400 + 0x13) * 1024 + 2 ^ 32 - 1024) % 2 ^ 32) 1024
  first.orElse fun _ => mpsearch1 mem 0xF0000 0x10000

-- The pointer structure and the table.
def mpconfig (mem : Mem) : Option (Nat × Nat) :=
  match mpsearch mem with
  | none => none
  | some mp =>
    let conf := (wordAt mem (mp + 4)).toNat
    if conf = 0 then none
    -- "PCMP"
    else if bytesAt mem conf 4 ≠ [80, 67, 77, 80] then none
    else if mem (conf + 6) ≠ 1 ∧ mem (conf + 6) ≠ 4 then none
    else if sum mem conf (halfAt mem (conf + 4)) ≠ 0 then none
    else some (mp, conf)

inductive Message where
  -- "mpinit: ncpu=%d apicid=%d\n"
  | apicid (ncpu : Nat) (apicid : UInt8)
  -- "mpinit: unknown config type %x\n"
  | unknownType (type : UInt8)
deriving DecidableEq

structure State where
  -- `cpus[i].id`
  id : Nat → UInt8
  bcpu : Nat
  ismp : Bool
  ncpu : Nat
  lapic : UInt32
  ioapicid : UInt8
  -- External interrupts are masked in the IMCR.
  imcr : Bool
  printed : List Message
  -- The indices with which `cpus` has been accessed.
  accessed : List Nat

def processor (mem : Mem) (p : Nat) (s : State) : State :=
  let apicid := mem (p + 1)
  let s :=
    if s.ncpu ≠ apicid.toNat then { s with printed := s.printed ++ [.apicid s.ncpu apicid], ismp := false } else s
  let s :=
    if mem (p + 3) &&& MPBOOT ≠ 0 then { s with bcpu := s.ncpu, accessed := s.accessed ++ [s.ncpu] } else s
  { s with
    id := Function.update s.id s.ncpu (UInt8.ofNat s.ncpu)
    accessed := s.accessed ++ [s.ncpu]
    ncpu := s.ncpu + 1 }

-- One round of the loop, with `p` at its end. An unknown entry is not skipped.
def entry (mem : Mem) (p : Nat) (s : State) : Nat × State :=
  if mem p = MPPROC then (p + PROC, processor mem p s)
  else if mem p = MPIOAPIC then (p + IOAPIC, { s with ioapicid := mem (p + 1) })
  else if mem p = MPBUS ∨ mem p = MPIOINTR ∨ mem p = MPLINTR then (p + 8, s)
  else (p, { s with printed := s.printed ++ [.unknownType (mem p)], ismp := false })

def scan (mem : Mem) (e : Nat) : Nat → Nat → State → Option State
  | 0, p, s => if p < e then none else some s
  | rounds + 1, p, s =>
    if p < e then
      let next := entry mem p s
      scan mem e rounds next.1 next.2
    else some s

-- The global variables, with `bcpu = &cpus[0]` done.
def start : State where
  id := fun _ => 0
  bcpu := 0
  ismp := false
  ncpu := 0
  lapic := 0
  ioapicid := 0
  imcr := false
  printed := []
  accessed := [0]

def tableEnd (mem : Mem) (conf : Nat) : Nat := conf + halfAt mem (conf + 4)

def settle (mem : Mem) (mp : Nat) (s : State) : State :=
  if s.ismp then { s with imcr := decide (mem (mp + 12) ≠ 0) }
  else { s with ncpu := 1, lapic := 0, ioapicid := 0 }

def mpinit (mem : Mem) (rounds : Nat) : Option State :=
  match mpconfig mem with
  | none => some start
  | some (mp, conf) =>
    let s := { start with ismp := true, lapic := wordAt mem (conf + 36) }
    (scan mem (tableEnd mem conf) rounds (conf + CONF) s).map (settle mem mp)

section Entries

variable {mem : Mem} {e p : Nat} {types : List UInt8}

def size (type : UInt8) : Nat := if type = MPPROC then PROC else 8

/-- From `p` on the table holds entries of these types, all of them known. -/
inductive Entries (mem : Mem) (e : Nat) : Nat → List UInt8 → Prop where
  | done {p : Nat} (past : e ≤ p) : Entries mem e p []
  | next {p : Nat} {types : List UInt8} (more : p < e) (known : mem p ≤ MPLINTR)
      (rest : Entries mem e (p + size (mem p)) types) : Entries mem e p (mem p :: types)

theorem known_iff (type : UInt8) :
    type ≤ MPLINTR ↔ type = MPPROC ∨ type = MPIOAPIC ∨ type = MPBUS ∨ type = MPIOINTR ∨ type = MPLINTR := by
  simp only [UInt8.le_iff_toNat_le, ← UInt8.toNat_inj, MPPROC, MPIOAPIC, MPBUS, MPIOINTR, MPLINTR,
    UInt8.reduceToNat]
  omega

theorem entry_known (s : State) (known : mem p ≤ MPLINTR) : (entry mem p s).1 = p + size (mem p) := by
  rw [entry, size]
  by_cases type : mem p = MPPROC
  · rw [if_pos type, if_pos type]
  · have rest := ((known_iff _).mp known).resolve_left type
    rw [if_neg type, if_neg type]
    by_cases ioapic : mem p = MPIOAPIC
    · rw [if_pos ioapic]
    · rw [if_neg ioapic, if_pos (rest.resolve_left ioapic)]

theorem entry_unknown (s : State) (unknown : ¬ mem p ≤ MPLINTR) : (entry mem p s).1 = p := by
  rw [known_iff, not_or, not_or] at unknown
  obtain ⟨notProc, notIoapic, other⟩ := unknown
  rw [entry, if_neg notProc, if_neg notIoapic, if_neg other]

theorem scan_past (past : e ≤ p) (rounds : Nat) (s : State) : scan mem e rounds p s = some s := by
  cases rounds <;> rw [scan, if_neg (Nat.not_lt.mpr past)]

theorem scan_stuck (more : p < e) (unknown : ¬ mem p ≤ MPLINTR) (rounds : Nat) (s : State) :
    scan mem e rounds p s = none := by
  induction rounds generalizing s with
  | zero => rw [scan, if_pos more]
  | succ rounds ih =>
    rw [scan, if_pos more]
    simp only [entry_unknown s unknown]
    exact ih _

/-- What the scan of known entries leaves. -/
structure Scanned (s : State) (types : List UInt8) (s' : State) : Prop where
  ncpu : s'.ncpu = s.ncpu + types.count MPPROC
  accessed : ∀ i, i ∈ s'.accessed ↔ i ∈ s.accessed ∨ s.ncpu ≤ i ∧ i < s'.ncpu
  ismp : MPPROC ∉ types → s'.ismp = s.ismp

theorem processor_scanned (p : Nat) (s : State) : Scanned s [MPPROC] (processor mem p s) := by
  refine ⟨?_, ?_, fun absent => absurd List.mem_cons_self absent⟩
  · rw [processor]
    split_ifs <;> rfl
  · intro i
    have own : i = s.ncpu ↔ s.ncpu ≤ i ∧ i < s.ncpu + 1 := by omega
    rw [processor]
    split_ifs <;> simp [own]

theorem entry_scanned (s : State) (known : mem p ≤ MPLINTR) : Scanned s [mem p] (entry mem p s).2 := by
  rw [entry]
  by_cases type : mem p = MPPROC
  · rw [if_pos type, type]
    exact processor_scanned p s
  · have rest := ((known_iff _).mp known).resolve_left type
    have none_ : [mem p].count MPPROC = 0 := List.count_eq_zero_of_not_mem (by simpa using Ne.symm type)
    have unchanged : ∀ i, i ∈ s.accessed ↔ i ∈ s.accessed ∨ s.ncpu ≤ i ∧ i < s.ncpu := by simp
    rw [if_neg type]
    by_cases ioapic : mem p = MPIOAPIC
    · rw [if_pos ioapic]
      exact ⟨by rw [none_]; rfl, unchanged, fun _ => rfl⟩
    · rw [if_neg ioapic, if_pos (rest.resolve_left ioapic)]
      exact ⟨by rw [none_]; rfl, unchanged, fun _ => rfl⟩

theorem Scanned.trans {s s₁ s₂ : State} {type : UInt8} {types : List UInt8} (first : Scanned s [type] s₁)
    (rest : Scanned s₁ types s₂) : Scanned s (type :: types) s₂ where
  ncpu := by
    have split : (type :: types).count MPPROC = [type].count MPPROC + types.count MPPROC := by
      rw [← List.count_append, List.singleton_append]
    rw [rest.ncpu, first.ncpu, split, Nat.add_assoc]
  accessed := by
    intro i
    have one := first.ncpu
    have more := rest.ncpu
    rw [rest.accessed, first.accessed, or_assoc]
    refine or_congr_right ?_
    omega
  ismp := by
    intro absent
    rw [List.mem_cons, not_or] at absent
    rw [rest.ismp absent.2, first.ismp (by simpa using absent.1)]

theorem Scanned.refl (s : State) : Scanned s [] s := ⟨rfl, by simp, fun _ => rfl⟩

theorem scan_scanned {rounds : Nat} {s s' : State} (ends : scan mem e rounds p s = some s') :
    ∃ types, Entries mem e p types ∧ Scanned s types s' := by
  induction rounds generalizing p s with
  | zero =>
    rw [scan] at ends
    split at ends
    · cases ends
    next past =>
      cases ends
      exact ⟨[], .done (Nat.not_lt.mp past), .refl _⟩
  | succ rounds ih =>
    by_cases more : p < e
    · by_cases known : mem p ≤ MPLINTR
      · rw [scan, if_pos more] at ends
        simp only [entry_known s known] at ends
        obtain ⟨types, rest, scanned⟩ := ih ends
        exact ⟨mem p :: types, .next more known rest, (entry_scanned s known).trans scanned⟩
      · rw [scan_stuck more known] at ends
        cases ends
    · rw [scan_past (Nat.not_lt.mp more)] at ends
      cases ends
      exact ⟨[], .done (Nat.not_lt.mp more), .refl _⟩

theorem scan_ends (entries : Entries mem e p types) (s : State) : ∃ s', scan mem e types.length p s = some s' := by
  induction entries generalizing s with
  | done past => exact ⟨s, scan_past past _ s⟩
  | @next p types more known rest ih =>
    rw [List.length_cons, scan, if_pos more]
    simp only [entry_known s known]
    exact ih _

end Entries

section Results

/-- The loop of `mpinit` ends exactly if the table holds known entries only. -/
theorem mp_scan_ends_iff (mem : Mem) (mp conf : Nat) (accepted : mpconfig mem = some (mp, conf)) :
    (∃ rounds, (mpinit mem rounds).isSome = true) ↔
      ∃ types, Entries mem (tableEnd mem conf) (conf + CONF) types := by
  simp only [mpinit, accepted, Option.isSome_map]
  constructor
  · rintro ⟨rounds, ends⟩
    obtain ⟨s, run⟩ := Option.isSome_iff_exists.mp ends
    obtain ⟨types, entries, -⟩ := scan_scanned run
    exact ⟨types, entries⟩
  · rintro ⟨types, entries⟩
    exact ⟨types.length, Option.isSome_iff_exists.mpr (scan_ends entries _)⟩

-- A memory with the pointer structure at 0x9FC00, which the EBDA segment leads to, and the table behind it.
def firmware (checksum : UInt8) (entries : List UInt8) : Mem :=
  let length := CONF + entries.length
  let header := [80, 67, 77, 80, UInt8.ofNat length, UInt8.ofNat (length / 256), 1, checksum] ++ List.replicate 36 0
  stores (fun _ => 0)
    [⟨0x40E, [0xC0, 0x9F]⟩, ⟨0x9FC00, [95, 77, 80, 95, 0x10, 0xFC, 0x09, 0, 1, 4, 139, 0, 0, 0, 0, 0]⟩,
      ⟨0x9FC10, header ++ entries⟩]

def cpuEntry (apicid flags : UInt8) : List UInt8 := [MPPROC, apicid, 0, flags] ++ List.replicate 16 0

def oneCpu : Mem := firmware 140 (cpuEntry 0 3)

theorem mp_scan_ends_iff_one : mpconfig oneCpu = some (0x9FC00, 0x9FC10) ∧
    ∃ types, Entries oneCpu (tableEnd oneCpu 0x9FC10) (0x9FC10 + CONF) types := by
  have accepted : mpconfig oneCpu = some (0x9FC00, 0x9FC10) := by decide +kernel
  exact ⟨accepted, (mp_scan_ends_iff oneCpu _ _ accepted).mp ⟨1, by decide +kernel⟩⟩

def unknownEntry : Mem := firmware 157 [5]

theorem mp_scan_loops : mpconfig unknownEntry = some (0x9FC00, 0x9FC10) ∧ ∀ rounds, mpinit unknownEntry rounds = none := by
  have accepted : mpconfig unknownEntry = some (0x9FC00, 0x9FC10) := by decide +kernel
  refine ⟨accepted, fun rounds => ?_⟩
  have more : 0x9FC10 + CONF < tableEnd unknownEntry 0x9FC10 := by decide +kernel
  have unknown : ¬ unknownEntry (0x9FC10 + CONF) ≤ MPLINTR := by decide +kernel
  simp only [mpinit, accepted, scan_stuck more unknown, Option.map_none]

/-- Every index used is below `NCPU`, and so is the number of CPUs, which is not 0. -/
def InBounds (s : State) : Prop := (∀ i ∈ s.accessed, i < NCPU) ∧ 1 ≤ s.ncpu ∧ s.ncpu ≤ NCPU

theorem settle_accessed (mem : Mem) (mp : Nat) (s : State) : (settle mem mp s).accessed = s.accessed := by
  rw [settle]
  split <;> rfl

theorem settle_ncpu (mem : Mem) (mp : Nat) (s : State) : (settle mem mp s).ncpu = if s.ismp then s.ncpu else 1 := by
  rw [settle]
  split <;> rfl

/-- `cpus` is not overrun exactly if there are at least one and at most `NCPU` processor entries. -/
theorem mp_cpus_in_bounds_iff (mem : Mem) (mp conf : Nat) (accepted : mpconfig mem = some (mp, conf)) (rounds : Nat)
    (s : State) (ends : mpinit mem rounds = some s) :
    ∃ types, Entries mem (tableEnd mem conf) (conf + CONF) types ∧
      (InBounds s ↔ 1 ≤ types.count MPPROC ∧ types.count MPPROC ≤ NCPU) := by
  rw [mpinit, accepted] at ends
  obtain ⟨s₁, run, rfl⟩ := Option.map_eq_some_iff.mp ends
  obtain ⟨types, entries, scanned⟩ := scan_scanned run
  refine ⟨types, entries, ?_⟩
  have count : s₁.ncpu = types.count MPPROC := scanned.ncpu.trans (Nat.zero_add _)
  have indices : (∀ i ∈ s₁.accessed, i < NCPU) ↔ types.count MPPROC ≤ NCPU := by
    simp only [scanned.accessed, start, List.mem_singleton, count]
    constructor
    · intro below
      by_contra exceeded
      exact absurd (below NCPU (.inr ⟨Nat.zero_le _, by omega⟩)) (Nat.lt_irrefl _)
    · rintro few i (rfl | ⟨-, below⟩)
      · decide
      · omega
  -- Without processor entries nothing has cleared `ismp`.
  have single : types.count MPPROC = 0 → s₁.ismp = true := fun none_ => scanned.ismp (List.count_eq_zero.mp none_)
  rw [InBounds, settle_accessed, settle_ncpu, indices, count]
  cases mode : s₁.ismp with
  | true => simp only [if_true]; omega
  | false =>
    have some_ : types.count MPPROC ≠ 0 := by
      intro none_
      rw [single none_] at mode
      cases mode
    simp only [Bool.false_eq_true, if_false, NCPU]
    omega

theorem mp_cpus_in_bounds_iff_one : ∃ s, mpinit oneCpu 1 = some s ∧
    ∃ types, Entries oneCpu (tableEnd oneCpu 0x9FC10) (0x9FC10 + CONF) types ∧
      (InBounds s ↔ 1 ≤ types.count MPPROC ∧ types.count MPPROC ≤ NCPU) := by
  have accepted : mpconfig oneCpu = some (0x9FC00, 0x9FC10) := by decide +kernel
  have ends : (mpinit oneCpu 1).isSome = true := by decide +kernel
  obtain ⟨s, run⟩ := Option.isSome_iff_exists.mp ends
  exact ⟨s, run, mp_cpus_in_bounds_iff oneCpu _ _ accepted 1 s run⟩

-- Nine processors with the ids that are expected.
def nineCpus : Mem := firmware 194 ((List.range 9).flatMap fun i => cpuEntry (UInt8.ofNat i) 1)

theorem mp_cpus_overrun : mpconfig nineCpus = some (0x9FC00, 0x9FC10) ∧
    ∃ s, mpinit nineCpus 9 = some s ∧ s.ncpu = 9 ∧ ¬ InBounds s := by
  have accepted : mpconfig nineCpus = some (0x9FC00, 0x9FC10) := by decide +kernel
  have overrun : (mpinit nineCpus 9).any (fun s => 8 ∈ s.accessed ∧ s.ncpu = 9) = true := by decide +kernel
  obtain ⟨s, run, found⟩ := (Option.any_eq_true _ _).mp overrun
  rw [decide_eq_true_iff] at found
  exact ⟨accepted, s, run, found.2, fun bounds => absurd (bounds.1 8 found.1) (by decide)⟩

end Results

end Xv6.Mp
