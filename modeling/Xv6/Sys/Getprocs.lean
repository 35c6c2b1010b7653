import Xv6.Proc.Getproc
import Xv6.Sys.Args

set_option autoImplicit false

/-!
# `sys_getprocs`

The call passes the null pointer `table` itself to `argptr`, which stores the fetched pointer through
it: four bytes at user address 0. The table that `getproc` fills is read back from there.
-/

namespace Xv6.Sys

open Memory Ptable

-- The value returned and the stores into user memory.
def sysGetprocs (c : Caller) (t : Table) : Int × List Store :=
  match argint c 0 with
  | none => (-1, [])
  | some size =>
    match argptr c 1 4 with
    | none => (-1, [])
    | some p =>
      let pointer := wordStore 0 p
      let mem := store c.mem pointer
      let filled := getproc t (int size) (wordAt mem 0).toNat mem
      (filled.1, pointer :: filled.2)

/-- The address belongs to the table of `max` entries at `p`. -/
def InTable (p : UInt32) (max : Int) (a : Nat) : Prop := p.toNat ≤ a ∧ (a : Int) < p.toNat + max * UPROC

def Below (c : Caller) (p : UInt32) (max : Int) : Prop := ∀ a, InTable p max a → a < c.sz.toNat

-- What the call may do with a count and a pointer that it could fetch.
def Confined (c : Caller) (t : Table) (max : Int) (p : UInt32) : Prop :=
  ((sysGetprocs c t).1 ≠ -1 →
      (∀ s ∈ (sysGetprocs c t).2, ∀ a, s.addr ≤ a → a < s.stop → InTable p max a) ∧ Below c p max) ∧
    (¬ Below c p max → sysGetprocs c t = (-1, []))

/-- Only the caller's table is written, and nothing when the table is not the caller's memory. -/
def TableOnly (c : Caller) (t : Table) : Prop :=
  (argint c 0 = none ∨ argint c 1 = none → sysGetprocs c t = (-1, [])) ∧
    ∀ size p, argint c 0 = some size → argint c 1 = some p → Confined c t (int size) p

theorem sysGetprocs_unfetched (c : Caller) (t : Table) (missing : argint c 0 = none ∨ argint c 1 = none) :
    sysGetprocs c t = (-1, []) := by
  rcases missing with count | pointer
  · simp [sysGetprocs, count]
  · cases first : argint c 0 <;> simp [sysGetprocs, first, argptr, pointer]

theorem sysGetprocs_refused (c : Caller) (t : Table) (p : UInt32) (pointer : argint c 1 = some p)
    (outside : ¬ p.toNat + 4 ≤ c.sz.toNat) : sysGetprocs c t = (-1, []) := by
  have small := c.user
  have refused : argptr c 1 4 = none := by
    by_contra accepted
    obtain ⟨q, given⟩ := Option.ne_none_iff_exists'.mp accepted
    have bounds := (argptr_eq_some_iff c 1 4 p q pointer).mp given
    simp only [UInt32.reduceToNat, KERNBASE] at bounds small
    omega
  cases first : argint c 0 <;> simp [sysGetprocs, first, refused]

theorem sysGetprocs_accepted (c : Caller) (t : Table) (size p : UInt32) (count : argint c 0 = some size)
    (pointer : argint c 1 = some p) (inside : p.toNat + 4 ≤ c.sz.toNat) :
    sysGetprocs c t =
      ((getproc t (int size) p.toNat (store c.mem (wordStore 0 p))).1,
        wordStore 0 p :: (getproc t (int size) p.toNat (store c.mem (wordStore 0 p))).2) := by
  have small := c.user
  have accepted : argptr c 1 4 = some p := by
    rw [argptr_eq_some_iff c 1 4 p p pointer]
    simp only [UInt32.reduceToNat, KERNBASE, true_and] at small ⊢
    omega
  have readBack : wordAt (store c.mem (wordStore 0 p)) 0 = p :=
    wordAt_stores_kept c.mem [wordStore 0 p] (List.pairwise_singleton _ _) 0 p List.mem_cons_self
  simp [sysGetprocs, count, accepted, readBack]

/-- The pointer is null and the table that it points to fits. -/
def FitsAtZero (c : Caller) (max : Int) (p : UInt32) : Prop := p = 0 ∧ 1 ≤ max ∧ max * UPROC ≤ c.sz.toNat

theorem confined_iff (c : Caller) (t : Table) (size p : UInt32) (count : argint c 0 = some size)
    (pointer : argint c 1 = some p) :
    Confined c t (int size) p ↔ (p.toNat + 4 ≤ c.sz.toNat → FitsAtZero c (int size) p) := by
  by_cases inside : p.toNat + 4 ≤ c.sz.toNat
  · have run := sysGetprocs_accepted c t size p count pointer inside
    have listing := getproc_inside t (int size) p.toNat (store c.mem (wordStore 0 p))
    have most := getproc_count_le t (int size)
    have returned : (sysGetprocs c t).1 ≠ -1 := by
      rw [run, getproc_count]
      omega
    constructor
    · intro confined _
      obtain ⟨written, below⟩ := confined.1 returned
      -- The pointer's own store covers address 0, so the table starts there and is not empty.
      have first := written (wordStore 0 p) (by rw [run]; exact List.mem_cons_self) 0 (Nat.le_refl 0)
        (by simp [Store.stop])
      obtain ⟨start, room⟩ := first
      have zero : p.toNat = 0 := Nat.le_zero.mp start
      have one : 1 ≤ int size := by
        simp only [UPROC] at room
        omega
      have last := below (int size * UPROC - 1).toNat ⟨by omega, by simp only [UPROC]; omega⟩
      exact ⟨UInt32.toNat_inj.mp zero, one, by simp only [UPROC] at last ⊢; omega⟩
    · intro given
      obtain ⟨rfl, one, fits⟩ := given inside
      have below : Below c 0 (int size) := by
        rintro a ⟨-, high⟩
        simp only [UInt32.toNat_zero, UPROC] at high fits
        omega
      refine ⟨fun _ => ⟨?_, below⟩, fun outside => (outside below).elim⟩
      intro s member a low high
      rw [run] at member
      rcases List.mem_cons.mp member with rfl | entry
      · simp only [Store.stop, wordStore_addr, wordStore_bytes, wordBytes_length] at high
        exact ⟨Nat.zero_le a, by simp only [UInt32.toNat_zero, UPROC]; omega⟩
      · have within := (listing s entry).2
        have few := most (by omega) (0 : UInt32).toNat (store c.mem (wordStore 0 0))
        refine ⟨Nat.zero_le a, ?_⟩
        simp only [UInt32.toNat_zero, UPROC] at within few ⊢
        omega
  · have run := sysGetprocs_refused c t p pointer inside
    constructor
    · exact fun _ holds => (inside holds).elim
    · exact fun _ => ⟨fun returned => (returned (by rw [run])).elim, fun _ => run⟩

theorem sys_getprocs_table_only_iff (c : Caller) (t : Table) :
    TableOnly c t ↔
      ∀ size p, argint c 0 = some size → argint c 1 = some p →
        p.toNat + 4 ≤ c.sz.toNat → FitsAtZero c (int size) p := by
  constructor
  · intro only size p count pointer
    exact (confined_iff c t size p count pointer).mp (only.2 size p count pointer)
  · intro fits
    refine ⟨sysGetprocs_unfetched c t, ?_⟩
    intro size p count pointer
    exact (confined_iff c t size p count pointer).mpr (fits size p count pointer)

-- One page of memory; the arguments are one entry and a table four bytes before the end of the page.
def lastWord : Caller where
  sz := 4096
  user := onePage_user
  esp := 0
  mem := stores (fun _ => 0) [wordStore 4 1, wordStore 8 4092]

theorem sys_getprocs_overruns : ¬ TableOnly lastWord userinit.table := by
  intro only
  have count : argint lastWord 0 = some 1 := by decide +kernel
  have pointer : argint lastWord 1 = some 4092 := by decide +kernel
  have fits := (confined_iff lastWord userinit.table 1 4092 count pointer).mp (only.2 1 4092 count pointer)
    (by decide)
  exact absurd fits.1 (by decide)

end Xv6.Sys
