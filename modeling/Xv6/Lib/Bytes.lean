import Mathlib

set_option autoImplicit false

/-!
# Byte buffers

A buffer of fixed size, read and written as little-endian numbers of any width. Two accesses
interact only where their byte ranges meet, which is all that the codecs built on top need.
-/

namespace Bytes

abbrev Buf (n : Nat) := Fin n → UInt8

variable {n : Nat}

def getByte (b : Buf n) (i : Nat) : UInt8 :=
  if h : i < n then b ⟨i, h⟩ else 0

/-- Overwrite the `w` bytes from `off` on with the values of `f`. -/
def putBytes (b : Buf n) (off w : Nat) (f : Nat → UInt8) : Buf n :=
  fun i => if off ≤ i.val ∧ i.val < off + w then f (i.val - off) else b i

def getLE (b : Buf n) (off : Nat) : Nat → Nat
  | 0 => 0
  | w + 1 => (getByte b off).toNat + 256 * getLE b (off + 1) w

def putLE (b : Buf n) (off w v : Nat) : Buf n :=
  putBytes b off w (fun k => UInt8.ofNat (v / 256 ^ k))

theorem getByte_putBytes (b : Buf n) (off w i : Nat) (f : Nat → UInt8) :
    getByte (putBytes b off w f) i =
      if off ≤ i ∧ i < off + w ∧ i < n then f (i - off) else getByte b i := by
  by_cases inside : i < n <;> simp [getByte, putBytes, inside]

theorem getLE_congr (a b : Buf n) (off w : Nat)
    (same : ∀ i, off ≤ i → i < off + w → getByte a i = getByte b i) :
    getLE a off w = getLE b off w := by
  induction w generalizing off with
  | zero => rfl
  | succ w ih =>
    have rest := ih (off + 1) (fun i low high => same i (by omega) (by omega))
    simp only [getLE, same off (le_refl _) (by omega), rest]

theorem getLE_lt (b : Buf n) (off w : Nat) : getLE b off w < 256 ^ w := by
  induction w generalizing off with
  | zero => simp [getLE]
  | succ w ih =>
    have head := (getByte b off).toNat_lt
    have rest := ih (off + 1)
    simp only [getLE, pow_succ]
    omega

theorem getLE_putBytes_disjoint (b : Buf n) (off w off' w' : Nat) (f : Nat → UInt8)
    (apart : off' + w' ≤ off ∨ off + w ≤ off') :
    getLE (putBytes b off w f) off' w' = getLE b off' w' := by
  apply getLE_congr
  intro i low high
  rw [getByte_putBytes, if_neg]
  omega

theorem getLE_digits (b : Buf n) (off w v : Nat)
    (digits : ∀ i, off ≤ i → i < off + w → getByte b i = UInt8.ofNat (v / 256 ^ (i - off))) :
    getLE b off w = v % 256 ^ w := by
  induction w generalizing off v with
  | zero => simp [getLE, Nat.mod_one]
  | succ w ih =>
    have rest := ih (off + 1) (v / 256) (fun i low high => by
      rw [digits i (by omega) (by omega), Nat.div_div_eq_div_mul, ← pow_succ']
      congr 3
      omega)
    have head := digits off (le_refl _) (by omega)
    simp only [Nat.sub_self, pow_zero, Nat.div_one] at head
    have low : (UInt8.ofNat v).toNat = v % 256 := UInt8.toNat_ofNat'
    rw [getLE, head, rest, low, pow_succ' 256 w, Nat.mod_mul]

@[simp] theorem getLE_putLE_same (b : Buf n) (off w v : Nat) (fits : off + w ≤ n) :
    getLE (putLE b off w v) off w = v % 256 ^ w := by
  apply getLE_digits
  intro i low high
  rw [putLE, getByte_putBytes, if_pos (by omega)]

theorem getLE_putLE_disjoint (b : Buf n) (off w off' w' v : Nat)
    (apart : off' + w' ≤ off ∨ off + w ≤ off') :
    getLE (putLE b off w v) off' w' = getLE b off' w' :=
  getLE_putBytes_disjoint b off w off' w' _ apart

end Bytes
