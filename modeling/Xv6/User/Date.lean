import Mathlib

set_option autoImplicit false

/-!
# The day of the week

`dayofweek` of `date.c` against the Gregorian calendar.
-/

namespace Xv6.Date

-- The assignment before the comma changes `d` and, in January and February, `y`.
def dayofweek (y m d : Int32) : Int32 :=
  let (d, y) := if m < 3 then (d + y, y - 1) else (d + (y - 2), y)
  (23 * m / 9 + d + 4 + y / 4 - y / 100 + y / 400) % 7

section Calendar

def Leap (y : Nat) : Prop := 4 ∣ y ∧ (¬ 100 ∣ y ∨ 400 ∣ y)

instance (y : Nat) : Decidable (Leap y) := by
  unfold Leap
  infer_instance

def monthDays (y m : Nat) : Nat :=
  if m = 2 then (if Leap y then 29 else 28) else if m = 4 ∨ m = 6 ∨ m = 9 ∨ m = 11 then 30 else 31

def yearDays (y : Nat) : Nat := ∑ k ∈ Finset.range 12, monthDays y (k + 1)

structure Valid (y m d : Nat) : Prop where
  year : 1 ≤ y
  month : 1 ≤ m ∧ m ≤ 12
  day : 1 ≤ d ∧ d ≤ monthDays y m

-- The days up to and with this one, from the first of January of the year 1.
def dayNumber (y m d : Nat) : Nat :=
  ∑ i ∈ Finset.range (y - 1), yearDays (i + 1) + ∑ k ∈ Finset.range (m - 1), monthDays y (k + 1) + d

def tomorrow (y m d : Nat) : Nat × Nat × Nat :=
  if d < monthDays y m then (y, m, d + 1) else if m < 12 then (y, m + 1, 1) else (y + 1, 1, 1)

theorem yearDays_eq (y : Nat) : yearDays y = if Leap y then 366 else 365 := by
  by_cases leap : Leap y <;> simp [yearDays, Finset.sum_range_succ, monthDays, leap]

theorem dayNumber_tomorrow (y m d : Nat) (valid : Valid y m d) :
    dayNumber (tomorrow y m d).1 (tomorrow y m d).2.1 (tomorrow y m d).2.2 = dayNumber y m d + 1 := by
  obtain ⟨year, month, day⟩ := valid
  obtain ⟨j, rfl⟩ : ∃ j, y = j + 1 := ⟨y - 1, by omega⟩
  obtain ⟨k, rfl⟩ : ∃ k, m = k + 1 := ⟨m - 1, by omega⟩
  unfold tomorrow
  split
  next => rfl
  next last =>
    have full : d = monthDays (j + 1) (k + 1) := by omega
    split
    next =>
      simp only [dayNumber, Nat.add_sub_cancel, Finset.sum_range_succ _ k, full]
      omega
    next december =>
      have twelve : k = 11 := by omega
      have year_ : yearDays (j + 1) = ∑ i ∈ Finset.range 11, monthDays (j + 1) (i + 1) + monthDays (j + 1) (11 + 1) :=
        Finset.sum_range_succ _ 11
      simp only [dayNumber, Nat.add_sub_cancel, Finset.sum_range_succ _ j, full, twelve, year_]
      simp only [Nat.sub_self, Finset.sum_range_zero]
      omega

theorem tomorrow_valid (y m d : Nat) (valid : Valid y m d) :
    Valid (tomorrow y m d).1 (tomorrow y m d).2.1 (tomorrow y m d).2.2 := by
  obtain ⟨year, month, day⟩ := valid
  have positive : ∀ y m, 1 ≤ monthDays y m := by
    intro y m
    unfold monthDays
    split_ifs <;> omega
  unfold tomorrow
  split
  next inside => exact ⟨year, month, Nat.succ_pos d, inside⟩
  next =>
    split
    next early => exact ⟨year, ⟨Nat.succ_pos m, early⟩, le_rfl, positive _ _⟩
    next => exact ⟨Nat.succ_pos y, ⟨le_rfl, show 1 ≤ 12 by decide⟩, le_rfl, positive _ _⟩

def leaps (y : Nat) : Int := y / 4 - y / 100 + y / 400

theorem leaps_succ (y : Nat) : leaps (y + 1) = leaps y + if Leap (y + 1) then 1 else 0 := by
  by_cases leap : Leap (y + 1)
  · rw [if_pos leap]
    unfold leaps
    unfold Leap at leap
    omega
  · rw [if_neg leap]
    unfold leaps
    unfold Leap at leap
    omega

theorem years_eq (y : Nat) : ((∑ i ∈ Finset.range y, yearDays (i + 1) : Nat) : Int) = 365 * y + leaps y := by
  induction y with
  | zero => rfl
  | succ y ih =>
    rw [Finset.sum_range_succ, Nat.cast_add, ih, yearDays_eq, leaps_succ]
    split <;> push_cast <;> ring

/-- The months before `m`, in a common year. -/
def common (m : Nat) : Nat := [0, 31, 59, 90, 120, 151, 181, 212, 243, 273, 304, 334].getD (m - 1) 0

theorem months_eq (y m : Nat) (month : 1 ≤ m ∧ m ≤ 12) :
    ∑ k ∈ Finset.range (m - 1), monthDays y (k + 1) = common m + if 3 ≤ m ∧ Leap y then 1 else 0 := by
  obtain ⟨low, high⟩ := month
  by_cases leap : Leap y <;> interval_cases m <;> simp [Finset.sum_range_succ, monthDays, leap, common]

theorem dayNumber_eq (y m d : Nat) (valid : Valid y m d) : (dayNumber y m d : Int) =
    365 * ((y : Int) - 1) + (if m < 3 then leaps (y - 1) else leaps y) + common m + d := by
  have year := valid.year
  have here := leaps_succ (y - 1)
  rw [Nat.sub_add_cancel year] at here
  rw [dayNumber, Nat.cast_add, Nat.cast_add, years_eq, months_eq y m valid.month, Nat.cast_sub year]
  by_cases early : m < 3
  · simp [early, show ¬ 3 ≤ m by omega]
  · by_cases leap : Leap y <;> simp [early, leap, show 3 ≤ m by omega] at here ⊢ <;> omega

end Calendar

section Code

theorem ofInt_div (a b : Int) (nonneg : 0 ≤ a) (small : a < 2 ^ 31) (positive : 0 < b) (word : b < 2 ^ 31) :
    Int32.ofInt a / Int32.ofInt b = Int32.ofInt (a / b) := by
  rw [← Int.tdiv_eq_ediv_of_nonneg nonneg]
  exact (Int32.ofInt_tdiv (show -2 ^ 31 ≤ a by omega) (show a ≤ 2 ^ 31 - 1 by omega) (show -2 ^ 31 ≤ b by omega)
    (show b ≤ 2 ^ 31 - 1 by omega)).symm

theorem ofInt_mod (a b : Int) (nonneg : 0 ≤ a) (small : a < 2 ^ 31) (positive : 0 < b) (word : b < 2 ^ 31) :
    Int32.ofInt a % Int32.ofInt b = Int32.ofInt (a % b) := by
  rw [← Int.tmod_eq_emod_of_nonneg nonneg]
  exact (Int32.ofInt_tmod (show -2 ^ 31 ≤ a by omega) (show a ≤ 2 ^ 31 - 1 by omega) (show -2 ^ 31 ≤ b by omega)
    (show b ≤ 2 ^ 31 - 1 by omega)).symm

-- The year that the formula counts with, what it adds to the day, and the largest sum on the way.
def shifted (y m : Nat) : Int := if m < 3 then (y : Int) - 1 else y

def added (y m : Nat) : Int := if m < 3 then y else (y : Int) - 2

def peak (y m d : Nat) : Int := 23 * m / 9 + (d + added y m) + 4 + shifted y m / 4

theorem formula_eq (m D Y : Int) (month : 0 ≤ m ∧ m ≤ 12) (year : 0 ≤ Y ∧ Y < 2 ^ 31)
    (nonneg : 0 ≤ 23 * m / 9 + D + 4 + Y / 4 - Y / 100) (fits : 23 * m / 9 + D + 4 + Y / 4 < 2 ^ 31) :
    (23 * Int32.ofInt m / 9 + Int32.ofInt D + 4 + Int32.ofInt Y / 4 - Int32.ofInt Y / 100 + Int32.ofInt Y / 400) % 7 =
      Int32.ofInt ((23 * m / 9 + D + 4 + Y / 4 - Y / 100 + Y / 400) % 7) := by
  have months : 23 * Int32.ofInt m / 9 = Int32.ofInt (23 * m / 9) := by
    rw [← ofInt_div (23 * m) 9 (by omega) (by omega) (by decide) (by decide), Int32.ofInt_mul]
    rfl
  have quarter : Int32.ofInt Y / 4 = Int32.ofInt (Y / 4) := ofInt_div Y 4 year.1 year.2 (by decide) (by decide)
  have century : Int32.ofInt Y / 100 = Int32.ofInt (Y / 100) := ofInt_div Y 100 year.1 year.2 (by decide) (by decide)
  have fourth : Int32.ofInt Y / 400 = Int32.ofInt (Y / 400) := ofInt_div Y 400 year.1 year.2 (by decide) (by decide)
  rw [months, quarter, century, fourth, ← Int32.ofInt_add, show (4 : Int32) = Int32.ofInt 4 from rfl,
    ← Int32.ofInt_add, ← Int32.ofInt_add, ← Int32.ofInt_sub, ← Int32.ofInt_add]
  exact ofInt_mod _ 7 (by omega) (by omega) (by decide) (by decide)

theorem dayofweek_eq (y m d : Nat) (valid : Valid y m d) (fits : peak y m d < 2 ^ 31) :
    dayofweek (Int32.ofInt y) (Int32.ofInt m) (Int32.ofInt d) =
      Int32.ofInt ((peak y m d - shifted y m / 100 + shifted y m / 400) % 7) := by
  obtain ⟨year, month, day⟩ := valid
  have early : Int32.ofInt m < 3 ↔ m < 3 := by
    have less : Int32.ofInt m < Int32.ofInt 3 ↔ (m : Int) < 3 := Int32.ofInt_lt_iff_lt (show -2 ^ 31 ≤ (m : Int) by omega)
      (show (m : Int) ≤ 2 ^ 31 - 1 by omega) (show (-2 : Int) ^ 31 ≤ 3 by decide) (show (3 : Int) ≤ 2 ^ 31 - 1 by decide)
    exact less.trans (by omega)
  have months : (0 : Int) ≤ m ∧ (m : Int) ≤ 12 := by omega
  unfold dayofweek
  by_cases first : m < 3
  · simp only [peak, shifted, added, if_pos first] at fits ⊢
    rw [if_pos (early.mpr first), show (1 : Int32) = Int32.ofInt 1 from rfl, ← Int32.ofInt_sub, ← Int32.ofInt_add]
    exact formula_eq m (d + y) (y - 1) months (by omega) (by omega) fits
  · simp only [peak, shifted, added, if_neg first] at fits ⊢
    rw [if_neg (mt early.mp first), show (2 : Int32) = Int32.ofInt 2 from rfl, ← Int32.ofInt_sub, ← Int32.ofInt_add]
    exact formula_eq m (d + (y - 2)) y months (by omega) (by omega) fits

theorem formula_days (y m d : Nat) (valid : Valid y m d) :
    (peak y m d - shifted y m / 100 + shifted y m / 400) % 7 = (dayNumber y m d : Int) % 7 := by
  have number := dayNumber_eq y m d valid
  obtain ⟨year, ⟨low, high⟩, day⟩ := valid
  have before : leaps (y - 1) = ((y : Int) - 1) / 4 - ((y : Int) - 1) / 100 + ((y : Int) - 1) / 400 := by
    rw [leaps, Nat.cast_sub year, Nat.cast_one]
  rw [number, before]
  simp only [leaps, peak, shifted, added]
  interval_cases m <;> simp only [common] <;> norm_num <;> omega

theorem sunday : (dayNumber 2000 1 2 : Int) % 7 = 0 := by
  rw [dayNumber_eq 2000 1 2 ⟨by decide, by decide, by decide⟩]
  decide

end Code

/-- The second of January of the year 2000 was a Sunday. -/
theorem dayofweek_gregorian (y m d : Nat) (valid : Valid y m d) (fits : peak y m d < 2 ^ 31) :
    (0 ≤ (dayofweek (Int32.ofInt y) (Int32.ofInt m) (Int32.ofInt d)).toInt ∧
      (dayofweek (Int32.ofInt y) (Int32.ofInt m) (Int32.ofInt d)).toInt ≤ 6) ∧
    (dayofweek (Int32.ofInt y) (Int32.ofInt m) (Int32.ofInt d)).toInt =
      ((dayNumber y m d : Int) - dayNumber 2000 1 2) % 7 ∧
    ∀ y' m' d', tomorrow y m d = (y', m', d') → peak y' m' d' < 2 ^ 31 →
      (dayofweek (Int32.ofInt y') (Int32.ofInt m') (Int32.ofInt d')).toInt =
        ((dayofweek (Int32.ofInt y) (Int32.ofInt m) (Int32.ofInt d)).toInt + 1) % 7 := by
  have day : ∀ y m d, Valid y m d → peak y m d < 2 ^ 31 →
      (dayofweek (Int32.ofInt y) (Int32.ofInt m) (Int32.ofInt d)).toInt = (dayNumber y m d : Int) % 7 := by
    intro y m d valid fits
    rw [dayofweek_eq y m d valid fits, formula_days y m d valid]
    exact Int32.toInt_ofInt_of_le (by omega) (by omega)
  have known := sunday
  have here := day y m d valid fits
  refine ⟨by omega, by omega, fun y' m' d' next_ fits' => ?_⟩
  have valid' := tomorrow_valid y m d valid
  have number := dayNumber_tomorrow y m d valid
  rw [next_] at valid' number
  rw [day y' m' d' valid' fits', here, number]
  omega

/-- From the last day of a century to the first of the next. -/
theorem dayofweek_gregorian_century : Valid 2000 12 31 ∧ peak 2000 12 31 < 2 ^ 31 ∧
    (dayofweek 2000 12 31).toInt = ((dayNumber 2000 12 31 : Int) - dayNumber 2000 1 2) % 7 ∧
    (dayofweek 2001 1 1).toInt = ((dayofweek 2000 12 31).toInt + 1) % 7 := by
  have valid : Valid 2000 12 31 := ⟨by decide, by decide, by decide⟩
  have fits : peak 2000 12 31 < 2 ^ 31 := by decide
  obtain ⟨-, number, step⟩ := dayofweek_gregorian 2000 12 31 valid fits
  exact ⟨valid, fits, number, step 2001 1 1 (by decide) (by decide)⟩

end Xv6.Date
