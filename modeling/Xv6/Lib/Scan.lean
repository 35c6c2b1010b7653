import Mathlib

set_option autoImplicit false

/-!
# Scans of a table

A loop over the slots of a table in order that stops at the first slot failing its test, compared
with the filter that looks at all of them.
-/

namespace Scan

variable {n : Nat}

def scan (test : Fin n → Bool) : List (Fin n) := (List.finRange n).takeWhile test

/-- Where the scan stops: the first slot that fails the test, or the end of the table. -/
def stop (test : Fin n → Bool) : Nat := (List.finRange n).findIdx fun i => !test i

theorem stop_le (test : Fin n → Bool) : stop test ≤ n := by
  have bound : stop test ≤ (List.finRange n).length := List.findIdx_le_length
  simpa using bound

theorem scan_eq_take (test : Fin n → Bool) : scan test = (List.finRange n).take (stop test) :=
  List.takeWhile_eq_take_findIdx_not

theorem scan_length (test : Fin n → Bool) : (scan test).length = stop test := by
  have bound := stop_le test
  rw [scan_eq_take, List.length_take, List.length_finRange]
  omega

theorem test_of_lt_stop (test : Fin n → Bool) (i : Fin n) (below : i.val < stop test) : test i = true := by
  have passed := List.not_of_lt_findIdx below
  simpa using passed

theorem not_test_at_stop (test : Fin n → Bool) (i : Fin n) (at_ : i.val = stop test) : test i = false := by
  have inside : ((List.finRange n).findIdx fun i => !test i) < (List.finRange n).length := by
    change stop test < _
    rw [List.length_finRange, ← at_]
    exact i.isLt
  have failed := @List.findIdx_getElem _ (fun i => !test i) (List.finRange n) inside
  have same : (List.finRange n)[(List.finRange n).findIdx fun i => !test i] = i := by
    rw [List.getElem_finRange]
    exact Fin.ext at_.symm
  rw [same] at failed
  simpa using failed

/-- The filter finds what the scan finds, and then whatever lies behind the place where it stops. -/
theorem filter_eq_scan_append (test keep : Fin n → Bool) (kept : ∀ i, test i = true → keep i = true) :
    (List.finRange n).filter keep = scan test ++ ((List.finRange n).drop (stop test)).filter keep := by
  have front : (scan test).filter keep = scan test := by
    apply List.filter_eq_self.mpr
    intro i member
    exact kept i (List.mem_takeWhile_imp member)
  conv_lhs => rw [← List.take_append_drop (stop test) (List.finRange n)]
  rw [List.filter_append, ← scan_eq_take, front]

theorem mem_drop_finRange (k : Nat) (i : Fin n) : i ∈ (List.finRange n).drop k ↔ k ≤ i.val := by
  rw [List.mem_drop_iff_getElem]
  constructor
  · rintro ⟨j, inside, same⟩
    rw [List.getElem_finRange] at same
    rw [← same]
    simp
  · intro le
    have inside : i.val - k + k < (List.finRange n).length := by
      rw [List.length_finRange]
      omega
    refine ⟨i.val - k, inside, ?_⟩
    rw [List.getElem_finRange]
    apply Fin.ext
    simp
    omega

theorem filter_length_le_iff (test keep : Fin n → Bool) (kept : ∀ i, test i = true → keep i = true) :
    ((List.finRange n).filter keep).length ≤ stop test ↔ ∀ i : Fin n, stop test ≤ i.val → keep i = false := by
  rw [filter_eq_scan_append test keep kept, List.length_append, scan_length]
  have empty : stop test + (((List.finRange n).drop (stop test)).filter keep).length ≤ stop test ↔
      ((List.finRange n).drop (stop test)).filter keep = [] := by
    rw [← List.length_eq_zero_iff]
    omega
  rw [empty, List.filter_eq_nil_iff]
  simp only [mem_drop_finRange, Bool.not_eq_true]

end Scan
