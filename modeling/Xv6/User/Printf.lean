import Mathlib

set_option autoImplicit false

/-!
# Printing and parsing numbers

`printint` of `printf.c` and of `console.c`, with the formats that call them, and `atoi` of `ulib.c`.
A string is the list of its characters before the NUL.
-/

namespace Xv6.Printf

section Printint

def upper : List UInt8 := [48, 49, 50, 51, 52, 53, 54, 55, 56, 57, 65, 66, 67, 68, 69, 70]

def lower : List UInt8 := [48, 49, 50, 51, 52, 53, 54, 55, 56, 57, 97, 98, 99, 100, 101, 102]

-- The loop over the digits with `room` bytes left in the buffer. A store past its end has no result.
def putDigits (digits : List UInt8) (base : UInt32) : Nat → UInt32 → Option (List UInt8)
  | 0, _ => none
  | room + 1, x =>
    let c := digits.getD (x % base).toNat 0
    if x / base = 0 then some [c] else (putDigits digits base room (x / base)).map (c :: ·)

-- The bytes of `buf`, in the order in which they are stored.
def fill (digits : List UInt8) (base x : UInt32) (neg : Bool) : Option (List UInt8) := do
  let buf ← putDigits digits base 16 x
  if neg then (if buf.length < 16 then some (buf ++ [45]) else none) else some buf

-- `buf` in `printf.c`.
def userBuf (xx : Int32) (base : UInt32) (sgn : Bool) : Option (List UInt8) :=
  if sgn ∧ xx < 0 then fill upper base (-xx).toUInt32 true else fill upper base xx.toUInt32 false

-- `buf` in `console.c`, where the test of the sign assigns it.
def consoleBuf (xx : Int32) (base : UInt32) (sign : Bool) : Option (List UInt8) :=
  let sign := if sign then decide (xx < 0) else sign
  fill lower base (if sign then (-xx).toUInt32 else xx.toUInt32) sign

-- What is written is the buffer from its end.
def printint (xx : Int32) (base : UInt32) (sgn : Bool) : Option (List UInt8) :=
  (userBuf xx base sgn).map List.reverse

def consolePrintint (xx : Int32) (base : UInt32) (sign : Bool) : Option (List UInt8) :=
  (consoleBuf xx base sign).map List.reverse

end Printint

section Formats

-- `%d`, `%x`, `%p` and `%s`: what is written, and the arguments that are left. `text a` is the string at `a`.
def convert (printint : Int32 → UInt32 → Bool → Option (List UInt8)) (text : UInt32 → List UInt8) (c : UInt8) :
    List UInt32 → Option (List UInt8 × List UInt32)
  | [] => none
  | a :: args =>
    if c = 100 then (printint a.toInt32 10 true).map (·, args)
    else if c = 120 ∨ c = 112 then (printint a.toInt32 16 false).map (·, args)
    else some (if a = 0 then [40, 110, 117, 108, 108, 41] else text a, args)

def takesWord (c : UInt8) : Bool := c = 100 ∨ c = 120 ∨ c = 112 ∨ c = 115

-- `state` is set behind a `%`.
def printf (text : UInt32 → List UInt8) : Bool → List UInt8 → List UInt32 → Option (List UInt8)
  | _, [], _ => some []
  | false, c :: fmt, args =>
    if c = 37 then printf text true fmt args else (printf text false fmt args).map (c :: ·)
  | true, c :: fmt, args =>
    if takesWord c then do
      let (out, args) ← convert printint text c args
      return out ++ (← printf text false fmt args)
    else if c = 99 then do
      let a ← args.head?
      return a.toUInt8 :: (← printf text false fmt args.tail)
    else if c = 37 then (printf text false fmt args).map (c :: ·)
    else (printf text false fmt args).map ([37, c] ++ ·)

-- There is no `%c` here.
def cprintf (text : UInt32 → List UInt8) : List UInt8 → List UInt32 → Option (List UInt8)
  | [], _ => some []
  | [c], _ => if c = 37 then some [] else some [c]
  | c :: d :: fmt, args =>
    if c ≠ 37 then (cprintf text (d :: fmt) args).map (c :: ·)
    else if takesWord d then do
      let (out, args) ← convert consolePrintint text d args
      return out ++ (← cprintf text fmt args)
    else if d = 37 then (cprintf text fmt args).map (d :: ·)
    else (cprintf text fmt args).map ([37, d] ++ ·)

end Formats

section Atoi

def isDigit (c : UInt8) : Bool := 48 ≤ c ∧ c ≤ 57

def atoiLoop (n : Int32) : List UInt8 → Int32
  | [] => n
  | c :: s => if isDigit c then atoiLoop (n * 10 + Int32.ofInt c.toNat - 48) s else n

def atoi (s : List UInt8) : Int32 :=
  let s := s.dropWhile (· = 32)
  let sign : Int32 := if s.head? = some 45 then -1 else 1
  let s := if s.head? = some 43 ∨ s.head? = some 45 then s.tail else s
  sign * atoiLoop 0 s

end Atoi

section Numerals

def numeral (n : Nat) : List UInt8 := (Nat.toDigits 10 n).map fun c => UInt8.ofNat c.toNat

-- The decimal numeral of an integer.
def decimal (x : Int) : List UInt8 := x.repr.toList.map fun c => UInt8.ofNat c.toNat

theorem decimal_natCast (n : Nat) : decimal n = numeral n := by
  simp [decimal, numeral, Int.repr, Nat.repr]

theorem decimal_neg (n : Nat) (positive : 0 < n) : decimal (-n) = 45 :: numeral n := by
  obtain ⟨m, rfl⟩ := Nat.exists_eq_succ_of_ne_zero positive.ne'
  change decimal (Int.negSucc m) = _
  simp [decimal, numeral, Int.repr, Nat.repr]

theorem digitChar_byte (d : Nat) (small : d < 10) : UInt8.ofNat (Nat.digitChar d).toNat = UInt8.ofNat (48 + d) := by
  rw [Nat.toNat_digitChar_of_lt_ten small]

theorem numeral_digit (n : Nat) (small : n < 10) : numeral n = [UInt8.ofNat (48 + n)] := by
  rw [numeral, Nat.toDigits_of_lt_base small, List.map_singleton, digitChar_byte n small]

theorem numeral_step (n : Nat) (large : 10 ≤ n) : numeral n = numeral (n / 10) ++ [UInt8.ofNat (48 + n % 10)] := by
  rw [numeral, Nat.toDigits_of_base_le (by decide) large, List.map_append, List.map_singleton,
    digitChar_byte _ (Nat.mod_lt n (by decide))]
  rfl

theorem numeral_induction {P : Nat → Prop} (digit : ∀ n < 10, P n) (step : ∀ n, 10 ≤ n → P (n / 10) → P n) (n : Nat) :
    P n := by
  induction n using Nat.strong_induction_on with
  | _ n ih =>
    rcases Nat.lt_or_ge n 10 with small | large
    · exact digit n small
    · exact step n large (ih (n / 10) (by omega))

theorem isDigit_byte (d : Nat) (small : d < 10) : isDigit (UInt8.ofNat (48 + d)) = true := by
  interval_cases d <;> rfl

theorem numeral_all (n : Nat) : ∀ c ∈ numeral n, isDigit c = true := by
  induction n using numeral_induction with
  | digit n small => simpa [numeral_digit n small] using isDigit_byte n small
  | step n large ih =>
    rw [numeral_step n large]
    intro c member
    rcases List.mem_append.mp member with before | last
    · exact ih c before
    · rw [List.mem_singleton.mp last]
      exact isDigit_byte _ (Nat.mod_lt n (by decide))

end Numerals

section Buffer

variable {digits : List UInt8} {base : UInt32}

theorem putDigits_length (k : Nat) (x : UInt32) (small : x.toNat < base.toNat ^ (k + 1))
    (room : Nat) (fits : k < room) :
    ∃ buf, putDigits digits base room x = some buf ∧ buf.length ≤ k + 1 := by
  induction k generalizing x room with
  | zero =>
    obtain ⟨room, rfl⟩ := Nat.exists_eq_succ_of_ne_zero (Nat.ne_of_gt fits)
    have last : x / base = 0 := by
      apply UInt32.toNat_inj.mp
      rw [UInt32.toNat_div]
      exact Nat.div_eq_of_lt (by simpa using small)
    exact ⟨_, by rw [putDigits, if_pos last], le_rfl⟩
  | succ k ih =>
    obtain ⟨room, rfl⟩ := Nat.exists_eq_succ_of_ne_zero (Nat.ne_of_gt (Nat.zero_lt_of_lt fits))
    rw [putDigits]
    split
    next => exact ⟨_, rfl, by simp⟩
    next =>
      have less : (x / base).toNat < base.toNat ^ (k + 1) := by
        rw [UInt32.toNat_div]
        exact Nat.div_lt_of_lt_mul (by rwa [← pow_succ'])
      obtain ⟨buf, stored, short⟩ := ih (x / base) less room (by omega)
      exact ⟨_, by rw [stored]; rfl, by simpa using short⟩

theorem fill_length (k : Nat) (x : UInt32) (small : x.toNat < base.toNat ^ (k + 1))
    (fits : k + 1 < 16) (neg : Bool) :
    ∃ buf, fill digits base x neg = some buf ∧ buf.length ≤ k + 1 + neg.toNat := by
  obtain ⟨buf, stored, short⟩ : ∃ buf, putDigits digits base 16 x = some buf ∧ buf.length ≤ k + 1 :=
    putDigits_length k x small 16 (by omega)
  cases neg with
  | false => exact ⟨buf, by simp [fill, stored], short⟩
  | true => exact ⟨buf ++ [45], by simp [fill, stored, show buf.length < 16 by omega], by simpa using short⟩

theorem putDigits_numeral (plain : ∀ d, d < 10 → digits.getD d 0 = UInt8.ofNat (48 + d)) (room : Nat) (x : UInt32)
    (buf : List UInt8) (stored : putDigits digits 10 room x = some buf) : buf.reverse = numeral x.toNat := by
  induction room generalizing x buf with
  | zero => cases stored
  | succ room ih =>
    have rest : (x % 10).toNat = x.toNat % 10 := UInt32.toNat_mod ..
    have quotient : (x / 10).toNat = x.toNat / 10 := UInt32.toNat_div ..
    rw [putDigits, rest, plain _ (Nat.mod_lt _ (by decide))] at stored
    split at stored
    next last =>
      cases stored
      rw [last] at quotient
      have small : x.toNat < 10 := by
        have : (0 : UInt32).toNat = 0 := rfl
        omega
      rw [numeral_digit _ small, Nat.mod_eq_of_lt small]
      rfl
    next more =>
      obtain ⟨tail, later, rfl⟩ := Option.map_eq_some_iff.mp stored
      have large : 10 ≤ x.toNat := by
        by_contra small
        exact more (UInt32.toNat_inj.mp (by rw [quotient, Nat.div_eq_of_lt (Nat.lt_of_not_le small)]; rfl))
      rw [List.reverse_cons, ih _ _ later, quotient, ← numeral_step _ large]

end Buffer

section Signs

theorem toUInt32_toNat (x : Int32) : (x.toUInt32.toNat : Int) = x.toInt % (2 ^ 32 : Nat) := by
  have whole : x.toInt = (x.toUInt32.toNat : Int).bmod (2 ^ 32) := BitVec.toInt_eq_toNat_bmod _
  have below : x.toUInt32.toNat < 2 ^ 32 := x.toUInt32.toNat_lt
  rw [whole, Int.bmod_emod]
  omega

theorem magnitude_neg (x : Int32) (negative : x < 0) : x.toInt = -((-x).toUInt32.toNat : Int) := by
  have sign := Int32.lt_iff_toInt_lt.mp negative
  have low := x.le_toInt
  have size := toUInt32_toNat (-x)
  rw [Int32.toInt_neg, Int.bmod_emod] at size
  simp only [Int32.toInt_zero] at sign
  omega

theorem magnitude_nonneg (x : Int32) (positive : ¬ x < 0) : x.toInt = (x.toUInt32.toNat : Int) := by
  have sign := mt Int32.lt_iff_toInt_lt.mpr positive
  have high := x.toInt_lt
  have size := toUInt32_toNat x
  simp only [Int32.toInt_zero] at sign
  omega

theorem userBuf_signed (x : Int32) (base : UInt32) :
    userBuf x base true = fill upper base (if x < 0 then -x else x).toUInt32 (decide (x < 0)) := by
  by_cases negative : x < 0 <;> simp [userBuf, negative]

theorem consoleBuf_signed (x : Int32) (base : UInt32) :
    consoleBuf x base true = fill lower base (if x < 0 then -x else x).toUInt32 (decide (x < 0)) := by
  by_cases negative : x < 0 <;> simp [consoleBuf, negative]

theorem fill_decimal (digits : List UInt8) (plain : ∀ d, d < 10 → digits.getD d 0 = UInt8.ofNat (48 + d)) (x : Int32) :
    ∃ buf, fill digits 10 (if x < 0 then -x else x).toUInt32 (decide (x < 0)) = some buf ∧ buf.length ≤ 11 ∧
      buf.reverse = decimal x.toInt := by
  have low := x.le_toInt
  have high := x.toInt_lt
  set m := (if x < 0 then -x else x).toUInt32 with magnitude
  have value : x.toInt = if x < 0 then -(m.toNat : Int) else m.toNat := by
    rw [magnitude]
    by_cases negative : x < 0
    · simpa [negative] using magnitude_neg x negative
    · simpa [negative] using magnitude_nonneg x negative
  have small : m.toNat < (10 : UInt32).toNat ^ (9 + 1) := by
    have ten : (10 : UInt32).toNat ^ (9 + 1) = 10000000000 := by decide
    have := m.toNat_lt
    omega
  obtain ⟨buf, stored, short⟩ : ∃ buf, putDigits digits 10 16 m = some buf ∧ buf.length ≤ 9 + 1 :=
    putDigits_length 9 m small 16 (by decide)
  have text := putDigits_numeral plain 16 m buf stored
  by_cases negative : x < 0
  · refine ⟨buf ++ [45], by simp [fill, stored, negative, show buf.length < 16 by omega], ?_, ?_⟩
    · rw [List.length_append, List.length_singleton]
      omega
    have positive : 0 < m.toNat := by
      have sign := Int32.lt_iff_toInt_lt.mp negative
      rw [if_pos negative] at value
      simp only [Int32.toInt_zero] at sign
      omega
    rw [value, if_pos negative, decimal_neg _ positive, List.reverse_append, text]
    rfl
  · refine ⟨buf, by simp [fill, stored, negative], by omega, ?_⟩
    rw [value, if_neg negative, decimal_natCast, text]

theorem printint_decimal (x : Int32) : printint x 10 true = some (decimal x.toInt) := by
  obtain ⟨buf, stored, -, text⟩ := fill_decimal upper (by decide) x
  rw [printint, userBuf_signed, stored, Option.map_some, text]

theorem consolePrintint_decimal (x : Int32) : consolePrintint x 10 true = some (decimal x.toInt) := by
  obtain ⟨buf, stored, -, text⟩ := fill_decimal lower (by decide) x
  rw [consolePrintint, consoleBuf_signed, stored, Option.map_some, text]

end Signs

section RoundTrip

theorem atoiLoop_append (n : Int32) (s t : List UInt8) (all : ∀ c ∈ s, isDigit c = true) :
    atoiLoop n (s ++ t) = atoiLoop (atoiLoop n s) t := by
  induction s generalizing n with
  | nil => rfl
  | cons c s ih =>
    rw [List.cons_append, atoiLoop, atoiLoop, if_pos (all c List.mem_cons_self), if_pos (all c List.mem_cons_self)]
    exact ih _ fun d later => all d (List.mem_cons_of_mem c later)

theorem atoiLoop_digit (n : Int) (d : Nat) (small : d < 10) :
    atoiLoop (Int32.ofInt n) [UInt8.ofNat (48 + d)] = Int32.ofInt (n * 10 + d) := by
  have byte : (UInt8.ofNat (48 + d)).toNat = 48 + d := UInt8.toNat_ofNat_of_lt' (by simp only [UInt8.size]; omega)
  have sum : n * 10 + d = n * 10 + ((48 + d : Nat) : Int) - 48 := by omega
  rw [atoiLoop, if_pos (isDigit_byte d small), atoiLoop, byte, sum, Int32.ofInt_sub, Int32.ofInt_add, Int32.ofInt_mul]
  rfl

theorem atoiLoop_numeral (n : Nat) : atoiLoop 0 (numeral n) = Int32.ofInt n := by
  induction n using numeral_induction with
  | digit n small =>
    have digit := atoiLoop_digit 0 n small
    rw [zero_mul, zero_add] at digit
    rw [numeral_digit n small]
    exact digit
  | step n large ih =>
    have value : (n : Int) = ((n / 10 : Nat) : Int) * 10 + ((n % 10 : Nat) : Int) := by omega
    rw [numeral_step n large, atoiLoop_append _ _ _ (numeral_all _), ih, atoiLoop_digit _ _ (Nat.mod_lt n (by decide)),
      ← value]

theorem numeral_head (n : Nat) : ∃ c s, numeral n = c :: s ∧ isDigit c = true := by
  have all := numeral_all n
  cases text : numeral n with
  | nil =>
    rcases Nat.lt_or_ge n 10 with small | large
    · simp [numeral_digit n small] at text
    · simp [numeral_step n large] at text
  | cons c s => exact ⟨c, s, rfl, all c (by rw [text]; exact List.mem_cons_self)⟩

theorem atoi_numeral (n : Nat) : atoi (numeral n) = Int32.ofInt n := by
  obtain ⟨c, s, text, digit⟩ := numeral_head n
  have plain : c ≠ 32 ∧ c ≠ 43 ∧ c ≠ 45 := by
    refine ⟨?_, ?_, ?_⟩ <;> rintro rfl <;> exact absurd digit (by decide)
  have loop := atoiLoop_numeral n
  rw [text] at loop ⊢
  simp only [atoi, List.dropWhile_cons, decide_eq_true_eq, if_neg plain.1, List.head?_cons, Option.some.injEq, plain.2.1,
    plain.2.2, or_self, if_false, loop]
  exact Int32.one_mul _

theorem atoi_neg_numeral (n : Nat) : atoi (45 :: numeral n) = Int32.ofInt (-n) := by
  have sign : atoi (45 :: numeral n) = -1 * atoiLoop 0 (numeral n) := rfl
  rw [sign, atoiLoop_numeral, show (-1 : Int32) = Int32.ofInt (-1) from rfl, ← Int32.ofInt_mul, neg_one_mul]

theorem atoi_decimal (x : Int32) : atoi (decimal x.toInt) = x := by
  rcases le_or_gt 0 x.toInt with nonneg | negative
  · obtain ⟨n, value⟩ := Int.eq_ofNat_of_zero_le nonneg
    rw [value, decimal_natCast, atoi_numeral, ← value, Int32.ofInt_toInt]
  · obtain ⟨n, value⟩ := Int.eq_ofNat_of_zero_le (Int.neg_nonneg_of_nonpos negative.le)
    have opposite : x.toInt = -(n : Int) := by omega
    rw [opposite, decimal_neg n (by omega), atoi_neg_numeral, ← opposite, Int32.ofInt_toInt]

end RoundTrip

/-- Both kernels of `%d` write the decimal numeral within 11 bytes of the buffer, those of `%x` need 8, and
`atoi` reads the numeral back. -/
theorem print_parse_inverse (x : Int32) :
    printint x 10 true = some (decimal x.toInt) ∧ consolePrintint x 10 true = some (decimal x.toInt) ∧
      (∃ buf, userBuf x 10 true = some buf ∧ buf.length ≤ 11) ∧
      (∃ buf, consoleBuf x 10 true = some buf ∧ buf.length ≤ 11) ∧
      (∃ buf, userBuf x 16 false = some buf ∧ buf.length ≤ 8) ∧
      (∃ buf, consoleBuf x 16 false = some buf ∧ buf.length ≤ 8) ∧ atoi (decimal x.toInt) = x := by
  obtain ⟨buf, user, short, -⟩ := fill_decimal upper (by decide) x
  obtain ⟨buf', console, short', -⟩ := fill_decimal lower (by decide) x
  rw [← userBuf_signed] at user
  rw [← consoleBuf_signed] at console
  have hex : x.toUInt32.toNat < (16 : UInt32).toNat ^ (7 + 1) := x.toUInt32.toNat_lt
  refine ⟨printint_decimal x, consolePrintint_decimal x, ⟨buf, user, short⟩, ⟨buf', console, short'⟩, ?_, ?_,
    atoi_decimal x⟩
  · simpa [userBuf] using fill_length 7 x.toUInt32 hex (by decide) false
  · simpa [consoleBuf] using fill_length 7 x.toUInt32 hex (by decide) false

end Xv6.Printf
