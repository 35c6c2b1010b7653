import Xv6.User.Printf

set_option autoImplicit false

/-!
# Printed durations

`ps`, `procdump` and `time` print a number of ticks as seconds, each with its own split into a whole
and a fractional part.
-/

namespace Xv6.Printf

def TPS : Nat := 1000

-- The columns `Elapsed` and `Total` of `ps`.
def psTicks (ticks : UInt32) : Option (List UInt8) :=
  printf (fun _ => []) false [9, 37, 100, 46, 37, 100] [ticks / 1000, ticks % 1000]

-- The column `Elapsed` of `procdump`.
def procdumpTicks (ticks startTicks : UInt32) : Option (List UInt8) :=
  cprintf (fun _ => []) [37, 100, 46, 37, 100, 9] [(ticks - startTicks) / 1000, (ticks - startTicks) % 1000]

theorem sub_hundred (part : Int32) (large : 100 ≤ part) : (part - 100).toInt = part.toInt - 100 ∧ 100 ≤ part.toInt := by
  have bound : 100 ≤ part.toInt := Int32.le_iff_toInt_le.mp large
  have high := part.toInt_lt
  refine ⟨?_, bound⟩
  rw [Int32.toInt_sub, show Int32.toInt 100 = 100 from rfl]
  exact Int.bmod_eq_of_le (by omega) (by omega)

def printTimeLoop (whole part : Int32) : Int32 × Int32 :=
  if large : 100 ≤ part then printTimeLoop (whole + 1) (part - 100) else (whole, part)
termination_by part.toInt.toNat
decreasing_by
  obtain ⟨less, bound⟩ := sub_hundred part large
  omega

def printTime (start finish : Int32) : Option (List UInt8) :=
  let (whole, part) := printTimeLoop 0 (finish - start)
  if part < 10 then printf (fun _ => []) false [37, 100, 46, 48, 37, 100] [whole.toUInt32, part.toUInt32]
  else printf (fun _ => []) false [37, 100, 46, 37, 100] [whole.toUInt32, part.toUInt32]

section Values

def number (s : List UInt8) : Nat := s.foldl (fun n c => 10 * n + (c.toNat - 48)) 0

-- What a decimal numeral with a point denotes.
def value (text : List UInt8) : Option ℚ :=
  let whole := text.takeWhile isDigit
  match text.dropWhile isDigit with
  | 46 :: frac =>
    if whole ≠ [] ∧ frac ≠ [] ∧ frac.all isDigit then some ((number whole : ℚ) + number frac / 10 ^ frac.length) else none
  | _ => none

theorem number_digit (s : List UInt8) (d : Nat) (small : d < 10) :
    number (s ++ [UInt8.ofNat (48 + d)]) = 10 * number s + d := by
  have byte : (UInt8.ofNat (48 + d)).toNat = 48 + d := UInt8.toNat_ofNat_of_lt' (by simp only [UInt8.size]; omega)
  rw [number, List.foldl_append, List.foldl_cons, List.foldl_nil, byte, Nat.add_sub_cancel_left]
  rfl

theorem number_numeral (n : Nat) : number (numeral n) = n := by
  induction n using numeral_induction with
  | digit n small =>
    have digit := number_digit [] n small
    rw [numeral_digit n small]
    simpa [number] using digit
  | step n large ih =>
    rw [numeral_step n large, number_digit _ _ (Nat.mod_lt n (by decide)), ih]
    omega

theorem value_eq (w : Nat) (frac : List UInt8) : value (numeral w ++ 46 :: frac) =
    if frac ≠ [] ∧ frac.all isDigit then some ((w : ℚ) + number frac / 10 ^ frac.length) else none := by
  obtain ⟨c, s, text, -⟩ := numeral_head w
  have before : (numeral w ++ 46 :: frac).takeWhile isDigit = numeral w := by
    rw [List.takeWhile_append_of_pos (numeral_all w)]
    simp [isDigit]
  have after : (numeral w ++ 46 :: frac).dropWhile isDigit = 46 :: frac := by
    rw [List.dropWhile_append_of_pos (numeral_all w)]
    simp [isDigit]
  have some_ : numeral w ≠ [] := by
    rw [text]
    exact List.cons_ne_nil c s
  rw [value, before, after]
  simp only [some_, ne_eq, not_false_eq_true, true_and, number_numeral]

theorem value_point (w : Nat) (frac : List UInt8) (some_ : frac ≠ []) (all : ∀ c ∈ frac, isDigit c = true) :
    value (numeral w ++ 46 :: frac) = some ((w : ℚ) + number frac / 10 ^ frac.length) := by
  rw [value_eq, if_pos ⟨some_, List.all_eq_true.mpr all⟩]

theorem numeral_ne_nil (n : Nat) : numeral n ≠ [] := by
  obtain ⟨c, s, text, -⟩ := numeral_head n
  rw [text]
  exact List.cons_ne_nil c s

theorem fraction_iff (w r : Nat) (b : ℚ) (few : b = 10 ∨ b = 100) :
    (w : ℚ) + r / b = (1000 * w + r) / 1000 ↔ r = 0 := by
  constructor
  · intro equal
    have zero : (r : ℚ) = 0 := by rcases few with rfl | rfl <;> linarith
    exact_mod_cast zero
  · rintro rfl
    push_cast
    ring

theorem value_unpadded_iff (t : Nat) :
    value (numeral (t / 1000) ++ 46 :: numeral (t % 1000)) = some ((t : ℚ) / TPS) ↔ t % 1000 = 0 ∨ 100 ≤ t % 1000 := by
  rw [value_point _ _ (numeral_ne_nil _) (numeral_all _), number_numeral, Option.some.injEq]
  have parts : (t : ℚ) = 1000 * (t / 1000 : Nat) + (t % 1000 : Nat) := by exact_mod_cast (Nat.div_add_mod t 1000).symm
  have below : t % 1000 < 1000 := Nat.mod_lt t (by decide)
  generalize t / 1000 = w, t % 1000 = r at parts below
  have one : r < 10 → (numeral r).length = 1 := fun small => by rw [numeral_digit r small]; rfl
  have two : 10 ≤ r → r < 100 → (numeral r).length = 2 := fun low high => by
    rw [numeral_step r low, numeral_digit (r / 10) (by omega)]
    rfl
  have three : 100 ≤ r → (numeral r).length = 3 := fun low => by
    rw [numeral_step r (by omega), numeral_step (r / 10) (by omega), numeral_digit (r / 10 / 10) (by omega)]
    rfl
  rw [parts, TPS, Nat.cast_ofNat]
  rcases Nat.lt_or_ge r 10 with small | large
  · rw [one small, show r = 0 ∨ 100 ≤ r ↔ r = 0 by omega]
    exact fraction_iff w r _ (by norm_num)
  · rcases Nat.lt_or_ge r 100 with middle | full
    · rw [two large middle, show r = 0 ∨ 100 ≤ r ↔ r = 0 by omega]
      exact fraction_iff w r _ (by norm_num)
    · rw [three full]
      refine ⟨fun _ => Or.inr full, fun _ => ?_⟩
      norm_num
      ring

end Values

section Texts

theorem toInt32_small (a : UInt32) (small : a.toNat < 2 ^ 31) : a.toInt32.toInt = a.toNat := by
  have whole : a.toInt32.toInt = (a.toNat : Int).bmod (2 ^ 32) := BitVec.toInt_eq_toNat_bmod _
  rw [whole]
  exact Int.bmod_eq_of_le (by omega) (by omega)

theorem printint_word (a : UInt32) (small : a.toNat < 2 ^ 31) :
    printint a.toInt32 10 true = some (numeral a.toNat) ∧ consolePrintint a.toInt32 10 true = some (numeral a.toNat) := by
  have user := printint_decimal a.toInt32
  have console := consolePrintint_decimal a.toInt32
  rw [toInt32_small a small, decimal_natCast] at user console
  exact ⟨user, console⟩

theorem words_small (t : UInt32) : (t / 1000).toNat = t.toNat / 1000 ∧ (t % 1000).toNat = t.toNat % 1000 ∧
    (t / 1000).toNat < 2 ^ 31 ∧ (t % 1000).toNat < 2 ^ 31 := by
  have quotient : (t / 1000).toNat = t.toNat / 1000 := UInt32.toNat_div ..
  have rest : (t % 1000).toNat = t.toNat % 1000 := UInt32.toNat_mod ..
  have := t.toNat_lt
  omega

theorem psTicks_eq (t : UInt32) :
    psTicks t = some (9 :: (numeral (t.toNat / 1000) ++ 46 :: numeral (t.toNat % 1000))) := by
  obtain ⟨quotient, rest, small, small'⟩ := words_small t
  have whole := (printint_word _ small).1
  have part := (printint_word _ small').1
  rw [quotient] at whole
  rw [rest] at part
  simp [psTicks, printf, takesWord, convert, whole, part]

theorem procdumpTicks_eq (now start : UInt32) :
    procdumpTicks now start = some (numeral ((now - start).toNat / 1000) ++
      46 :: numeral ((now - start).toNat % 1000) ++ [9]) := by
  obtain ⟨quotient, rest, small, small'⟩ := words_small (now - start)
  have whole := (printint_word _ small).2
  have part := (printint_word _ small').2
  rw [quotient] at whole
  rw [rest] at part
  simp [procdumpTicks, cprintf, takesWord, convert, whole, part]

theorem printTimeLoop_spec (n : Nat) (whole part : Int32) (left : part.toInt = n) (nonneg : 0 ≤ whole.toInt)
    (room : whole.toInt + n < 2 ^ 31) :
    (printTimeLoop whole part).1.toInt = whole.toInt + n / 100 ∧ (printTimeLoop whole part).2.toInt = n % 100 := by
  induction n using Nat.strong_induction_on generalizing whole part with
  | _ n ih =>
    rw [printTimeLoop]
    split
    next large =>
      obtain ⟨less, bound⟩ := sub_hundred part large
      have more : (whole + 1).toInt = whole.toInt + 1 := by
        rw [Int32.toInt_add, show Int32.toInt 1 = 1 from rfl]
        exact Int.bmod_eq_of_le (by omega) (by omega)
      obtain ⟨first, second⟩ := ih (n - 100) (by omega) (whole + 1) (part - 100) (by omega) (by omega) (by omega)
      omega
    next small =>
      have bound : part.toInt < 100 := lt_of_not_ge fun large => small (Int32.le_iff_toInt_le.mpr large)
      dsimp only
      omega

theorem printTime_value (start finish : Int32) (n : Nat) (left : (finish - start).toInt = n) :
    ∃ text, printTime start finish = some text ∧ value text = some ((n : ℚ) / 100) := by
  have high := (finish - start).toInt_lt
  obtain ⟨first, second⟩ := printTimeLoop_spec n 0 (finish - start) left le_rfl (by simp only [Int32.toInt_zero]; omega)
  rcases ends : printTimeLoop 0 (finish - start) with ⟨whole, part⟩
  rw [ends] at first second
  simp only [Int32.toInt_zero, zero_add] at first second
  have wholes : printint whole 10 true = some (numeral (n / 100)) := by
    rw [printint_decimal, first, ← decimal_natCast, Int.natCast_div, Nat.cast_ofNat]
  have parts : printint part 10 true = some (numeral (n % 100)) := by
    rw [printint_decimal, second, ← decimal_natCast, Int.natCast_mod, Nat.cast_ofNat]
  have sum : (n : ℚ) = 100 * (n / 100 : Nat) + (n % 100 : Nat) := by exact_mod_cast (Nat.div_add_mod n 100).symm
  by_cases small : part < 10
  · have bound : part.toInt < 10 := Int32.lt_iff_toInt_lt.mp small
    have digit := numeral_digit (n % 100) (by omega)
    have padded : number (48 :: numeral (n % 100)) = n % 100 := by
      rw [digit]
      simpa [number] using number_digit [48] (n % 100) (by omega)
    refine ⟨numeral (n / 100) ++ 46 :: 48 :: numeral (n % 100), ?_, ?_⟩
    · simp [printTime, ends, small, printf, takesWord, convert, wholes, parts]
    · rw [value_point _ _ (List.cons_ne_nil _ _), padded, digit, sum]
      · norm_num
        ring
      · rintro c (_ | ⟨_, later⟩)
        · rfl
        · exact numeral_all _ c later
  · have bound : 10 ≤ part.toInt := le_of_not_gt fun less => small (Int32.lt_iff_toInt_lt.mpr less)
    have two : (numeral (n % 100)).length = 2 := by
      rw [numeral_step _ (by omega), numeral_digit _ (by omega)]
      rfl
    refine ⟨numeral (n / 100) ++ 46 :: numeral (n % 100), ?_, ?_⟩
    · simp [printTime, ends, small, printf, takesWord, convert, wholes, parts]
    · rw [value_point _ _ (numeral_ne_nil _) (numeral_all _), number_numeral, two, sum]
      norm_num
      ring

/-- A difference that has wrapped around is printed with a sign in its fraction. -/
theorem printTime_negative (start finish : Int32) (negative : (finish - start).toInt < 0) :
    ∃ text, printTime start finish = some text ∧ value text = none := by
  have ends : printTimeLoop 0 (finish - start) = (0, finish - start) := by
    rw [printTimeLoop, dif_neg]
    intro large
    have bound : 100 ≤ (finish - start).toInt := Int32.le_iff_toInt_le.mp large
    omega
  have small : finish - start < 10 := Int32.lt_iff_toInt_lt.mpr (show _ < 10 by omega)
  have parts : printint (finish - start) 10 true = some (45 :: numeral (-(finish - start).toInt).toNat) := by
    rw [printint_decimal, ← decimal_neg _ (by omega), Int.toNat_of_nonneg (by omega), neg_neg]
  have wholes : printint 0 10 true = some (numeral 0) := by
    rw [printint_decimal, ← decimal_natCast]
    rfl
  refine ⟨numeral 0 ++ 46 :: 48 :: 45 :: numeral (-(finish - start).toInt).toNat, ?_, ?_⟩
  · simp [printTime, ends, small, printf, takesWord, convert, wholes, parts]
  · rw [value_eq, if_neg]
    simp [isDigit]

end Texts

/-- What is printed denotes the number of ticks divided by `TPS`, for `ps` and `procdump` just when the last three
digits are 0 or need no padding; `time` divides by 100 and is right for no ticks at all. -/
theorem durations_right_iff (t now began : UInt32) (start finish : Int32) :
    ((∃ text, psTicks t = some (9 :: text) ∧ value text = some ((t.toNat : ℚ) / TPS)) ↔
      t.toNat % 1000 = 0 ∨ 100 ≤ t.toNat % 1000) ∧
    ((∃ text, procdumpTicks now began = some (text ++ [9]) ∧ value text = some (((now - began).toNat : ℚ) / TPS)) ↔
      (now - began).toNat % 1000 = 0 ∨ 100 ≤ (now - began).toNat % 1000) ∧
    ((∃ text, printTime start finish = some text ∧
        value text = some ((((finish - start).toInt * 100 / TPS : Int) : ℚ) / 100)) ↔ start = finish) := by
  refine ⟨?_, ?_, ?_⟩
  · rw [psTicks_eq, ← value_unpadded_iff]
    simp
  · rw [procdumpTicks_eq, ← value_unpadded_iff]
    constructor
    · rintro ⟨text, printed, right⟩
      rw [Option.some.injEq, List.append_cancel_right_eq] at printed
      rwa [printed]
    · exact fun right => ⟨_, rfl, right⟩
  · rcases lt_or_ge (finish - start).toInt 0 with negative | nonneg
    · obtain ⟨text, printed, wrong⟩ := printTime_negative start finish negative
      constructor
      · rintro ⟨_, same, right⟩
        rw [printed, Option.some.injEq] at same
        rw [← same, wrong] at right
        cases right
      · rintro rfl
        simp at negative
    · obtain ⟨n, left⟩ := Int.eq_ofNat_of_zero_le nonneg
      obtain ⟨text, printed, shown⟩ := printTime_value start finish n left
      have hundredths : value text = some ((((finish - start).toInt * 100 / TPS : Int) : ℚ) / 100) ↔ n = 0 := by
        rw [shown, left, Option.some.injEq, TPS]
        constructor
        · intro equal
          have whole : (n : Int) = n * 100 / (1000 : Nat) := by
            have : (n : ℚ) = ((n * 100 / (1000 : Nat) : Int) : ℚ) := by linarith
            exact_mod_cast this
          omega
        · rintro rfl
          norm_num
      have same : start = finish ↔ n = 0 := by
        rw [← Int.natCast_eq_zero, ← left]
        constructor
        · rintro rfl
          simp
        · intro zero
          have difference : finish - start = 0 := Int32.toInt_inj.mp (by rw [zero]; rfl)
          have whole := Int32.sub_add_cancel finish start
          rwa [difference, Int32.zero_add] at whole
      rw [same, ← hundredths]
      constructor
      · rintro ⟨_, again, right⟩
        rw [printed, Option.some.injEq] at again
        rwa [again]
      · exact fun right => ⟨text, printed, right⟩

/-- 1005 ticks are 1.5 seconds to `ps` and `procdump`, and one second is ten to `time`. -/
theorem durations_wrong :
    (psTicks 1005 = some [9, 49, 46, 53] ∧ procdumpTicks 1005 0 = some [49, 46, 53, 9] ∧
      value [49, 46, 53] = some (3 / 2)) ∧
    ∃ text, printTime 0 1000 = some text ∧ value text = some 10 := by
  refine ⟨⟨by decide, by decide, ?_⟩, ?_⟩
  · have shown := value_point 1 [53] (by decide) (by simp [isDigit])
    rw [numeral_digit 1 (by decide)] at shown
    refine shown.trans ?_
    rw [show number [53] = 5 by decide]
    norm_num
  · obtain ⟨text, printed, shown⟩ := printTime_value 0 1000 1000 rfl
    exact ⟨text, printed, by rw [shown]; norm_num⟩

end Xv6.Printf
