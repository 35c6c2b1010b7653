import Mathlib

set_option autoImplicit false

/-!
# A ring buffer with free-running counters

An array of `size` elements and two 32-bit counters that only ever grow and wrap around: how many
elements have been taken and how many have been stored. If `size` divides the range of the counters,
the index of a counter in the array survives the wrap.
-/

structure RingBuf (α : Type) where
  data : Nat → α
  first : UInt32
  last : UInt32

namespace RingBuf

variable {α : Type} (size : Nat) (r : RingBuf α)

def count : Nat := (r.last - r.first).toNat

/-- The elements in the buffer, the oldest one first. -/
def contents : List α := (List.range r.count).map fun i => r.data ((r.first.toNat + i) % size)

def push (x : α) : RingBuf α :=
  { r with data := Function.update r.data (r.last.toNat % size) x, last := r.last + 1 }

def front : α := r.data (r.first.toNat % size)

def pop : RingBuf α := { r with first := r.first + 1 }

def back : α := r.data ((r.last - 1).toNat % size)

def unpush : RingBuf α := { r with last := r.last - 1 }

@[simp] theorem contents_length : (r.contents size).length = r.count := by simp [contents]

theorem count_eq_zero_iff : r.count = 0 ↔ r.first = r.last := by
  rw [count, ← UInt32.toNat_zero, UInt32.toNat_inj, sub_eq_zero, eq_comm]

theorem last_eq : r.last = r.first + UInt32.ofNat r.count := by
  rw [count, UInt32.ofNat_toNat, add_sub_cancel]

theorem count_eq_size_iff (small : size < 2 ^ 32) : r.count = size ↔ r.last = r.first + UInt32.ofNat size := by
  have size_toNat : (UInt32.ofNat size).toNat = size := by
    rw [UInt32.toNat_ofNat']
    exact Nat.mod_eq_of_lt small
  constructor
  · rintro rfl
    exact r.last_eq
  · intro equal
    rw [count, equal, add_sub_cancel_left, size_toNat]

variable {size} (divides : size ∣ 2 ^ 32)

include divides

theorem index_add (c : UInt32) (i : Nat) : (c + UInt32.ofNat i).toNat % size = (c.toNat + i) % size := by
  rw [UInt32.toNat_add, UInt32.toNat_ofNat', Nat.add_mod_mod, Nat.mod_mod_of_dvd _ divides]

theorem index_last : r.last.toNat % size = (r.first.toNat + r.count) % size := by
  rw [r.last_eq, index_add divides]

theorem push_contents (small : size < 2 ^ 32) (x : α) (room : r.count < size) :
    (r.push size x).count = r.count + 1 ∧ (r.push size x).contents size = r.contents size ++ [x] := by
  have count : (r.push size x).count = r.count + 1 := by
    have shifted : r.last + 1 - r.first = r.last - r.first + 1 := (sub_add_eq_add_sub ..).symm
    have below : (r.last - r.first).toNat < size := room
    rw [RingBuf.count, push, shifted, UInt32.toNat_add, UInt32.toNat_one, Nat.mod_eq_of_lt (by omega), RingBuf.count]
  refine ⟨count, ?_⟩
  rw [contents, count, List.range_succ, List.map_append, List.map_singleton]
  congr 1
  · -- The older elements are at other indices.
    apply List.map_congr_left
    intro i member
    have old := List.mem_range.mp member
    have other : (r.first.toNat + i) % size ≠ r.last.toNat % size := by
      rw [index_last r divides]
      intro same
      have wrap := (Nat.modEq_iff_dvd' (by omega)).mp (Nat.ModEq.add_left_cancel' _ same)
      have := Nat.le_of_dvd (by omega) wrap
      omega
    exact Function.update_of_ne other _ _
  · simp only [push, ← index_last r divides, Function.update_self]

theorem pop_contents (some_ : 0 < r.count) :
    (r.pop).count + 1 = r.count ∧ r.contents size = r.front size :: r.pop.contents size := by
  have count : (r.pop).count + 1 = r.count := by
    have shifted : r.last - (r.first + 1) = r.last - r.first - 1 := sub_add_eq_sub_sub ..
    have one : (1 : UInt32) ≤ r.last - r.first := by
      rw [UInt32.le_iff_toNat_le, UInt32.toNat_one]
      exact some_
    rw [RingBuf.count, pop, shifted, UInt32.toNat_sub_of_le _ _ one, UInt32.toNat_one]
    exact Nat.sub_add_cancel some_
  refine ⟨count, ?_⟩
  rw [contents, ← count, List.range_succ_eq_map, List.map_cons, List.map_map]
  congr 1
  apply List.map_congr_left
  intro i _
  have step := index_add divides r.first 1
  simp only [Function.comp_apply, pop, Nat.succ_eq_add_one]
  rw [show r.first.toNat + (i + 1) = r.first.toNat + 1 + i by omega, Nat.add_mod, ← step]
  rw [← Nat.add_mod]
  rfl

theorem unpush_contents (some_ : 0 < r.count) :
    (r.unpush).count + 1 = r.count ∧ r.contents size = r.unpush.contents size ++ [r.back size] := by
  have count : (r.unpush).count + 1 = r.count := by
    have shifted : r.last - 1 - r.first = r.last - r.first - 1 := sub_right_comm ..
    have one : (1 : UInt32) ≤ r.last - r.first := by
      rw [UInt32.le_iff_toNat_le, UInt32.toNat_one]
      exact some_
    rw [RingBuf.count, unpush, shifted, UInt32.toNat_sub_of_le _ _ one, UInt32.toNat_one]
    exact Nat.sub_add_cancel some_
  refine ⟨count, ?_⟩
  have index := index_last r.unpush divides
  rw [contents, ← count, List.range_succ, List.map_append, List.map_singleton, back]
  simp only [unpush] at index ⊢
  rw [index]
  rfl

theorem contents_split (m : Nat) (within : m ≤ r.count) :
    r.contents size =
      (RingBuf.mk r.data r.first (r.first + UInt32.ofNat m)).contents size ++
        (RingBuf.mk r.data (r.first + UInt32.ofNat m) r.last).contents size := by
  have below : r.count < 2 ^ 32 := (r.last - r.first).toNat_lt
  have m_toNat : (UInt32.ofNat m).toNat = m := by
    rw [UInt32.toNat_ofNat']
    exact Nat.mod_eq_of_lt (by omega)
  have left : (RingBuf.mk r.data r.first (r.first + UInt32.ofNat m)).count = m := by
    rw [count, add_sub_cancel_left, m_toNat]
  have right : (RingBuf.mk r.data (r.first + UInt32.ofNat m) r.last).count = r.count - m := by
    have fits : UInt32.ofNat m ≤ r.last - r.first := by
      rw [UInt32.le_iff_toNat_le, m_toNat]
      exact within
    rw [count, sub_add_eq_sub_sub, UInt32.toNat_sub_of_le _ _ fits, m_toNat, count]
  rw [contents, contents, contents, left, right]
  have total : r.count = m + (r.count - m) := by omega
  conv_lhs => rw [total, List.range_add, List.map_append, List.map_map]
  congr 1
  apply List.map_congr_left
  intro i _
  have step := index_add divides r.first m
  simp only [Function.comp_apply]
  rw [← Nat.add_assoc, Nat.add_mod, ← step, ← Nat.add_mod]

end RingBuf
