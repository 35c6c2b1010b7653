import Mathlib

set_option autoImplicit false

/-!
# Copies between overlapping regions

`memmove` of `string.c`, which the kernel uses, and of `ulib.c`, the library of user programs.
-/

namespace Xv6.Memmove

abbrev Ram := UInt32 → UInt8

def copyUp : Nat → UInt32 → UInt32 → Ram → Ram
  | 0, _, _, m => m
  | n + 1, d, s, m => copyUp n (d + 1) (s + 1) (Function.update m d (m s))

def copyDown : Nat → UInt32 → UInt32 → Ram → Ram
  | 0, _, _, m => m
  | n + 1, d, s, m => copyDown n (d - 1) (s - 1) (Function.update m (d - 1) (m (s - 1)))

def memmove (dst src n : UInt32) (m : Ram) : Ram :=
  if src < dst ∧ src + n > dst then copyDown n.toNat (dst + n) (src + n) m else copyUp n.toNat dst src m

-- `memmove` of `ulib.c`: `n` is signed, and there is one direction only.
def userMemmove (dst src : UInt32) (n : Int32) (m : Ram) : Ram := copyUp n.toInt.toNat dst src m

section Regions

-- The `n` bytes at `dst` are given by their offsets, everything else is unchanged.
def place (dst : UInt32) (n : Nat) (byte : Nat → UInt8) (m : Ram) : Ram :=
  fun a => if (a - dst).toNat < n then byte (a - dst).toNat else m a

-- The destination holds the bytes of the source.
def moved (dst src : UInt32) (n : Nat) (m : Ram) : Ram := place dst n (fun i => m (src + UInt32.ofNat i)) m

variable {m : Ram} {p : UInt32} {n : Nat} {byte : Nat → UInt8}

theorem offset_add (p : UInt32) (i : Nat) (small : i < 2 ^ 32) : (p + UInt32.ofNat i - p).toNat = i := by
  rw [UInt32.toNat_sub, UInt32.toNat_add, UInt32.toNat_ofNat']
  have := p.toNat_lt
  omega

theorem offset_eq_iff (a p : UInt32) (i : Nat) (small : i < 2 ^ 32) : (a - p).toNat = i ↔ a = p + UInt32.ofNat i := by
  constructor
  · rintro rfl
    rw [UInt32.ofNat_toNat, UInt32.add_comm, UInt32.sub_add_cancel]
  · rintro rfl
    exact offset_add p i small

theorem place_append (small : n < 2 ^ 32) :
    Function.update (place p n byte m) (p + UInt32.ofNat n) (byte n) = place p (n + 1) byte m := by
  funext a
  have last := offset_eq_iff a p n small
  by_cases here : a = p + UInt32.ofNat n
  · rw [here, Function.update_self, place, offset_add p n small, if_pos (Nat.lt_succ_self n)]
  · rw [Function.update_of_ne here, place, place]
    have other : (a - p).toNat ≠ n := mt last.mp here
    by_cases inside : (a - p).toNat < n
    · rw [if_pos inside, if_pos (by omega)]
    · rw [if_neg inside, if_neg (by omega)]

theorem place_prepend (small : n + 1 < 2 ^ 32) :
    Function.update (place (p + 1) n (fun i => byte (i + 1)) m) p (byte 0) = place p (n + 1) byte m := by
  funext a
  have whole := (a - p).toNat_lt
  have shorter : (a - (p + 1)).toNat = (2 ^ 32 - 1 + (a - p).toNat) % 2 ^ 32 := by
    have one : (1 : UInt32).toNat = 1 := rfl
    rw [UInt32.toNat_sub, UInt32.toNat_sub, UInt32.toNat_add, one]
    have := a.toNat_lt
    have := p.toNat_lt
    omega
  by_cases here : a = p
  · subst here
    rw [Function.update_self, place, UInt32.sub_self]
    rfl
  · have some_ : (a - p).toNat ≠ 0 := fun zero => here (by simpa using (offset_eq_iff a p 0 (by decide)).mp zero)
    rw [Function.update_of_ne here, place, place]
    by_cases inside : (a - p).toNat < n + 1
    · rw [if_pos inside, if_pos (by omega), show (a - (p + 1)).toNat + 1 = (a - p).toNat by omega]
    · rw [if_neg inside, if_neg (by omega)]

theorem place_inj {byte' : Nat → UInt8} (small : n ≤ 2 ^ 32) :
    place p n byte m = place p n byte' m ↔ ∀ i < n, byte i = byte' i := by
  constructor
  · intro same i inside
    have here := congrFun same (p + UInt32.ofNat i)
    rwa [place, place, offset_add p i (by omega), if_pos inside, if_pos inside] at here
  · intro same
    funext a
    rw [place, place]
    split
    next inside => exact same _ inside
    next => rfl

theorem place_outside (a : UInt32) (outside : n ≤ (a - p).toNat) : place p n byte m a = m a := if_neg (Nat.not_lt.mpr outside)

end Regions

section Loops

theorem copyUp_succ (n : Nat) (d s : UInt32) (m : Ram) : copyUp (n + 1) d s m =
    Function.update (copyUp n d s m) (d + UInt32.ofNat n) (copyUp n d s m (s + UInt32.ofNat n)) := by
  induction n generalizing d s m with
  | zero => simp [copyUp]
  | succ n ih =>
    have next_ : ∀ p : UInt32, p + 1 + UInt32.ofNat n = p + UInt32.ofNat (n + 1) := by
      intro p
      rw [UInt32.ofNat_add, UInt32.add_assoc, UInt32.add_comm 1]
      rfl
    rw [copyUp, ih, next_, next_, ← copyUp]

theorem copyDown_succ (n : Nat) (d s : UInt32) (m : Ram) : copyDown (n + 1) d s m =
    Function.update (copyDown n d s m) (d - UInt32.ofNat (n + 1)) (copyDown n d s m (s - UInt32.ofNat (n + 1))) := by
  induction n generalizing d s m with
  | zero => rfl
  | succ n ih =>
    have next_ : ∀ p : UInt32, p - 1 - UInt32.ofNat (n + 1) = p - UInt32.ofNat (n + 1 + 1) := by
      intro p
      have one : (1 : UInt32).toNat = 1 := rfl
      have := p.toNat_lt
      apply UInt32.toNat_inj.mp
      simp only [UInt32.toNat_sub, UInt32.toNat_ofNat', one]
      omega
    rw [copyDown, ih, next_, next_, ← copyDown]

variable (m : Ram) (dst src : UInt32) (n : Nat)

/-- A copy upwards is right if the source is not overwritten before it is read. -/
theorem copyUp_moves (source : src.toNat + n ≤ 2 ^ 32) (target : dst.toNat + n ≤ 2 ^ 32)
    (apart : dst.toNat ≤ src.toNat ∨ src.toNat + n ≤ dst.toNat) : copyUp n dst src m = moved dst src n m := by
  induction n with
  | zero => rfl
  | succ n ih =>
    have unread : n ≤ (src + UInt32.ofNat n - dst).toNat := by
      rw [UInt32.toNat_sub, UInt32.toNat_add, UInt32.toNat_ofNat']
      omega
    rw [copyUp_succ, ih (by omega) (by omega) (by omega), moved, place_outside _ unread]
    exact place_append (by omega)

theorem copyDown_moves (target : dst.toNat + n ≤ 2 ^ 32) (behind : src.toNat < dst.toNat) (j : Nat) (turns : j ≤ n) :
    copyDown j (dst + UInt32.ofNat n) (src + UInt32.ofNat n) m =
      moved (dst + UInt32.ofNat (n - j)) (src + UInt32.ofNat (n - j)) j m := by
  have one : (1 : UInt32).toNat = 1 := rfl
  have low := src.toNat_lt
  have high := dst.toNat_lt
  induction j with
  | zero => rfl
  | succ j ih =>
    have back : ∀ p : UInt32, p + UInt32.ofNat n - UInt32.ofNat (j + 1) = p + UInt32.ofNat (n - (j + 1)) := by
      intro p
      have := p.toNat_lt
      apply UInt32.toNat_inj.mp
      simp only [UInt32.toNat_sub, UInt32.toNat_add, UInt32.toNat_ofNat']
      omega
    have next_ : ∀ p : UInt32, p + UInt32.ofNat (n - j) = p + UInt32.ofNat (n - (j + 1)) + 1 := by
      intro p
      have := p.toNat_lt
      apply UInt32.toNat_inj.mp
      simp only [UInt32.toNat_add, UInt32.toNat_ofNat', one]
      omega
    have unread : j ≤ (src + UInt32.ofNat (n - (j + 1)) - (dst + UInt32.ofNat (n - (j + 1)) + 1)).toNat := by
      simp only [UInt32.toNat_sub, UInt32.toNat_add, UInt32.toNat_ofNat', one]
      omega
    have later : ∀ p : UInt32, ∀ i, p + 1 + UInt32.ofNat i = p + UInt32.ofNat (i + 1) := by
      intro p i
      rw [UInt32.ofNat_add, UInt32.add_assoc, UInt32.add_comm 1]
      rfl
    have first : ∀ p : UInt32, p + UInt32.ofNat 0 = p := UInt32.add_zero
    rw [copyDown_succ, ih (by omega), back, back, next_, next_, moved, place_outside _ unread, moved,
      ← place_prepend (by omega), first]
    simp only [later]

/-- Where the destination begins inside the source, a copy upwards repeats the bytes before it. -/
theorem copyUp_repeats (source : src.toNat + n ≤ 2 ^ 32) (target : dst.toNat + n ≤ 2 ^ 32)
    (behind : src.toNat < dst.toNat) :
    copyUp n dst src m = place dst n (fun i => m (src + UInt32.ofNat (i % (dst.toNat - src.toNat)))) m := by
  induction n with
  | zero => rfl
  | succ n ih =>
    have read : copyUp n dst src m (src + UInt32.ofNat n) =
        m (src + UInt32.ofNat (n % (dst.toNat - src.toNat))) := by
      have above := dst.toNat_lt
      have offset : (src + UInt32.ofNat n - dst).toNat = (2 ^ 32 + n - (dst.toNat - src.toNat)) % 2 ^ 32 := by
        rw [UInt32.toNat_sub, UInt32.toNat_add, UInt32.toNat_ofNat']
        omega
      rw [ih (by omega) (by omega), place, offset]
      by_cases early : n < dst.toNat - src.toNat
      · rw [if_neg (by omega), Nat.mod_eq_of_lt early]
      · have inside : (2 ^ 32 + n - (dst.toNat - src.toNat)) % 2 ^ 32 = n - (dst.toNat - src.toNat) := by omega
        rw [inside, if_pos (by omega), ← Nat.mod_eq_sub_mod (by omega)]
    rw [copyUp_succ, read, ih (by omega) (by omega)]
    exact place_append (by omega)

end Loops

/-- The kernel's function copies every region. The user's does unless the destination begins inside the
source; there it does if the source repeats itself at that distance. -/
theorem memmove_copies_iff (m : Ram) (dst src : UInt32) :
    (∀ n : UInt32, src.toNat + n.toNat ≤ 2 ^ 32 → dst.toNat + n.toNat ≤ 2 ^ 32 →
      memmove dst src n m = moved dst src n.toNat m) ∧
    ∀ n : Int32, 0 ≤ n.toInt → src.toNat + n.toInt ≤ 2 ^ 32 → dst.toNat + n.toInt ≤ 2 ^ 32 →
      (userMemmove dst src n m = moved dst src n.toInt.toNat m ↔
        (src.toNat < dst.toNat ∧ dst.toNat < src.toNat + n.toInt →
          ∀ i < n.toInt.toNat, m (src + UInt32.ofNat (i % (dst.toNat - src.toNat))) = m (src + UInt32.ofNat i))) := by
  refine ⟨fun n source target => ?_, fun n nonneg source target => ?_⟩
  · have sum : (src + n).toNat = (src.toNat + n.toNat) % 2 ^ 32 := UInt32.toNat_add ..
    have high := dst.toNat_lt
    unfold memmove
    split
    next overlap =>
      obtain ⟨behind, -⟩ := overlap
      have down := copyDown_moves m dst src n.toNat target (UInt32.lt_iff_toNat_lt.mp behind) n.toNat le_rfl
      simpa using down
    next other =>
      refine copyUp_moves m dst src n.toNat source target ?_
      simp only [gt_iff_lt, UInt32.lt_iff_toNat_lt, sum] at other
      omega
  · set k := n.toInt.toNat with length
    rw [userMemmove]
    by_cases overlap : src.toNat < dst.toNat ∧ dst.toNat < src.toNat + n.toInt
    · rw [← length, copyUp_repeats m dst src k (by omega) (by omega) overlap.1, moved, place_inj (by omega)]
      exact ⟨fun same _ => same, fun same => same overlap⟩
    · rw [← length, copyUp_moves m dst src k (by omega) (by omega) (by omega)]
      exact ⟨fun _ inside => absurd inside overlap, fun _ => rfl⟩

/-- Two bytes moved up by one: the first is read again after it has been copied. -/
theorem userMemmove_repeats : moved 1 0 2 (fun a => a.toUInt8) 2 = 1 ∧
    userMemmove 1 0 2 (fun a => a.toUInt8) 2 = 0 ∧ memmove 1 0 2 (fun a => a.toUInt8) 2 = 1 := by
  decide

end Xv6.Memmove
