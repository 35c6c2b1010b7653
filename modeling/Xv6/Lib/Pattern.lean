import Mathlib

set_option autoImplicit false

/-!
# Patterns

A pattern is a list of items over an alphabet: one symbol, any number of symbols, or the end of the
text. What a pattern derives depends on what is left of the text behind it.
-/

namespace Pattern

variable {α : Type}

inductive Item (α : Type) where
  | one (ok : α → Bool)
  | many (ok : α → Bool)
  | stop

/-- The items derive `sub` where `after` is left of the text behind it. -/
inductive Derives : List (Item α) → List α → List α → Prop where
  | nil {after : List α} : Derives [] [] after
  | one {ok : α → Bool} {t : α} {items : List (Item α)} {sub after : List α} (passes : ok t = true)
      (rest : Derives items sub after) : Derives (.one ok :: items) (t :: sub) after
  | many {ok : α → Bool} {run : List α} {items : List (Item α)} {sub after : List α} (passes : ∀ t ∈ run, ok t = true)
      (rest : Derives items sub after) : Derives (.many ok :: items) (run ++ sub) after
  | stop {items : List (Item α)} (rest : Derives items [] []) : Derives (.stop :: items) [] []

/-- A text starts with something that the items derive. -/
def Starts (items : List (Item α)) (text : List α) : Prop :=
  ∃ sub after, text = sub ++ after ∧ Derives items sub after

section Starts

variable {items : List (Item α)} {ok : α → Bool} {t : α} {text : List α}

theorem starts_nil (text : List α) : Starts [] text := ⟨[], text, rfl, .nil⟩

theorem not_starts_one_nil : ¬ Starts (.one ok :: items) [] := by
  rintro ⟨sub, after, split, derived⟩
  cases derived
  cases split

theorem starts_one_cons : Starts (.one ok :: items) (t :: text) ↔ ok t = true ∧ Starts items text := by
  constructor
  · rintro ⟨sub, after, split, derived⟩
    cases derived with
    | one passes rest =>
      obtain ⟨rfl, rfl⟩ := List.cons.inj split
      exact ⟨passes, _, after, rfl, rest⟩
  · rintro ⟨passes, sub, after, rfl, rest⟩
    exact ⟨t :: sub, after, rfl, .one passes rest⟩

theorem starts_stop : Starts [.stop] text ↔ text = [] := by
  constructor
  · rintro ⟨sub, after, rfl, derived⟩
    cases derived
    rfl
  · rintro rfl
    exact ⟨[], [], rfl, .stop .nil⟩

-- Either no symbol belongs to the run, or the first one does.
theorem starts_many_nil : Starts (.many ok :: items) [] ↔ Starts items [] := by
  constructor
  · rintro ⟨sub, after, split, derived⟩
    cases derived with
    | @many _ run _ sub _ passes rest =>
      rw [List.append_assoc] at split
      exact ⟨sub, after, (List.append_eq_nil_iff.mp split.symm).2.symm, rest⟩
  · rintro ⟨sub, after, split, rest⟩
    exact ⟨[] ++ sub, after, split, .many nofun rest⟩

theorem starts_many_cons : Starts (.many ok :: items) (t :: text) ↔
    Starts items (t :: text) ∨ ok t = true ∧ Starts (.many ok :: items) text := by
  constructor
  · rintro ⟨sub, after, split, derived⟩
    cases derived with
    | @many _ run _ sub _ passes rest =>
      cases run with
      | nil => exact .inl ⟨sub, after, split, rest⟩
      | cons u run =>
        obtain ⟨rfl, rfl⟩ := List.cons.inj split
        have later : ∀ v ∈ run, ok v = true := fun v member => passes v (.tail _ member)
        exact .inr ⟨passes t (.head _), run ++ sub, after, rfl, .many later rest⟩
  · rintro (⟨sub, after, split, rest⟩ | ⟨passes, sub, after, rfl, derived⟩)
    · exact ⟨[] ++ sub, after, split, .many nofun rest⟩
    · cases derived with
      | @many _ run _ sub _ later rest =>
        refine ⟨t :: run ++ sub, after, rfl, .many ?_ rest⟩
        exact List.forall_mem_cons.mpr ⟨passes, later⟩

end Starts

end Pattern
