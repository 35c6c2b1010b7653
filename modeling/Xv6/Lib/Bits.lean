import Mathlib
import Xv6.Lib.Bytes

set_option autoImplicit false

/-!
# Bitmaps

The bits of a byte buffer, read and changed through masks, lowest bit of each byte first.
-/

namespace Bytes

variable {n : Nat}

def mask (i : Nat) : UInt8 := UInt8.ofNat (2 ^ (i % 8))

def getBit (b : Buf n) (i : Nat) : Bool := getByte b (i / 8) &&& mask i != 0

def setBit (b : Buf n) (i : Nat) : Buf n :=
  putBytes b (i / 8) 1 fun _ => getByte b (i / 8) ||| mask i

def clearBit (b : Buf n) (i : Nat) : Buf n :=
  putBytes b (i / 8) 1 fun _ => getByte b (i / 8) &&& ~~~ mask i

theorem mask_toNat (i : Nat) : (mask i).toNat = 2 ^ (i % 8) := by
  have small : 2 ^ (i % 8) < 2 ^ 8 := Nat.pow_lt_pow_right (by decide) (Nat.mod_lt i (by decide))
  rw [mask, UInt8.toNat_ofNat']
  exact Nat.mod_eq_of_lt small

theorem and_mask_ne_zero (x : UInt8) (i : Nat) : (x &&& mask i != 0) = x.toNat.testBit (i % 8) := by
  have value : (x &&& mask i).toNat = (x.toNat.testBit (i % 8)).toNat * 2 ^ (i % 8) := by
    rw [UInt8.toNat_and, mask_toNat, Nat.and_two_pow]
  have zero : x &&& mask i = 0 ↔ (x &&& mask i).toNat = 0 := by
    rw [← UInt8.toNat_inj]
    rfl
  have power : 2 ^ (i % 8) ≠ 0 := by positivity
  cases bit : x.toNat.testBit (i % 8) <;> simp [bne_iff_ne, zero, value, bit]

theorem or_mask_testBit (x : UInt8) (i j : Nat) :
    (x ||| mask i).toNat.testBit (j % 8) = (decide (i % 8 = j % 8) || x.toNat.testBit (j % 8)) := by
  rw [UInt8.toNat_or, mask_toNat, Nat.testBit_or, Nat.testBit_two_pow, Bool.or_comm]

theorem getBit_setBit (b : Buf n) (i j : Nat) (inside : i < 8 * n) :
    getBit (setBit b i) j = (decide (i = j) || getBit b j) := by
  rw [getBit, setBit, getByte_putBytes]
  split
  next hit =>
    have same : j / 8 = i / 8 := by omega
    rw [and_mask_ne_zero, or_mask_testBit, getBit, and_mask_ne_zero, same]
    congr 1
    simp only [decide_eq_decide]
    omega
  next miss =>
    have other : i ≠ j := by omega
    simp [getBit, other]

end Bytes
