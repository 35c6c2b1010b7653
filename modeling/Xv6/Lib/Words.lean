import Mathlib

set_option autoImplicit false

/-!
# Machine words

A word of `w` bits is a natural number below `2 ^ w`; a signed value is the integer it stands for
in two's complement. Arithmetic is done on numbers and cut back to the width where it can wrap.
-/

namespace Word

/-- Read the low `w` bits of an integer as a two's complement value. -/
def signed (w : Nat) (x : Int) : Int := x.bmod (2 ^ w)

theorem signed_of_range (w : Nat) (x : Int) (low : -(2 ^ w : Int) ≤ 2 * x) (high : 2 * x < 2 ^ w) :
    signed w x = x := by
  rw [signed]
  apply Int.bmod_eq_of_le_mul_two
  · push_cast
    linarith
  · push_cast
    linarith

end Word
