import Mathlib

set_option autoImplicit false

/-!
# Exact bookkeeping of resources

Resources are numbered; some are reserved, and each of the others belongs to at most one holder.
The bookkeeping is exact when a resource is marked as used just when it is reserved or held.
-/

namespace Owners

variable {κ : Type}

structure Exact (reserved : Nat → Prop) (size : Nat) (own : κ → Option Nat) (used : Nat → Bool) : Prop where
  inside : ∀ k b, own k = some b → b < size ∧ ¬ reserved b
  once : ∀ k l b, own k = some b → own l = some b → k = l
  used_iff : ∀ b, b < size → (used b = true ↔ reserved b ∨ ∃ k, own k = some b)

variable {reserved : Nat → Prop} {size : Nat} {own : κ → Option Nat} {used : Nat → Bool}

theorem Exact.used_of_own (exact : Exact reserved size own used) (k : κ) (b : Nat) (held : own k = some b) :
    used b = true :=
  (exact.used_iff b (exact.inside k b held).1).mpr (Or.inr ⟨k, held⟩)

theorem Exact.unheld (exact : Exact reserved size own used) (b : Nat) (block : b < size)
    (unused : used b = false) : ¬ reserved b ∧ ∀ k, own k ≠ some b := by
  have marked := exact.used_iff b block
  simp only [unused, Bool.false_eq_true, false_iff, not_or, not_exists] at marked
  exact marked

variable [DecidableEq κ]

theorem Exact.take (exact : Exact reserved size own used) (k : κ) (b : Nat) (empty : own k = none)
    (block : b < size) (unused : used b = false) :
    Exact reserved size (Function.update own k (some b)) (Function.update used b true) := by
  obtain ⟨plain, nobody⟩ := exact.unheld b block unused
  constructor
  case inside =>
    intro l c held
    by_cases same : l = k
    · subst same
      simp only [Function.update_self, Option.some.injEq] at held
      exact held ▸ ⟨block, plain⟩
    · exact exact.inside l c (by simpa [same] using held)
  case once =>
    intro l m c first second
    by_cases one : l = k <;> by_cases two : m = k
    · rw [one, two]
    · subst one
      simp only [Function.update_self, Option.some.injEq, Function.update_of_ne two] at first second
      exact absurd (first ▸ second) (nobody m)
    · subst two
      simp only [Function.update_self, Option.some.injEq, Function.update_of_ne one] at first second
      exact absurd (second ▸ first) (nobody l)
    · exact exact.once l m c (by simpa [one] using first) (by simpa [two] using second)
  case used_iff =>
    intro c inside
    by_cases same : c = b
    · subst same
      simp only [Function.update_self, true_iff]
      exact Or.inr ⟨k, Function.update_self ..⟩
    · rw [Function.update_of_ne same, exact.used_iff c inside]
      constructor
      · rintro (meta_ | ⟨l, held⟩)
        · exact Or.inl meta_
        · have other : l ≠ k := by
            rintro rfl
            simp [empty] at held
          exact Or.inr ⟨l, by simpa [other] using held⟩
      · rintro (meta_ | ⟨l, held⟩)
        · exact Or.inl meta_
        · by_cases key : l = k
          · subst key
            simp only [Function.update_self, Option.some.injEq] at held
            exact absurd held.symm same
          · exact Or.inr ⟨l, by simpa [key] using held⟩

end Owners
