import Mathlib

set_option autoImplicit false

/-!
# Lines

A text is a sequence of lines, each ended by a terminator, and what is left behind the last
terminator.
-/

namespace Lines

variable {α : Type} [DecidableEq α] (nl : α)

/-- The lines of a text, without their terminators. -/
def bodies : List α → List (List α)
  | [] => []
  | c :: text =>
    if c = nl then [] :: bodies text
    else
      match bodies text with
      | [] => []
      | line :: lines => (c :: line) :: lines

/-- What comes behind the last terminator. -/
def tail : List α → List α
  | [] => []
  | c :: text => if nl ∈ c :: text then tail text else c :: text

variable {nl} {a text : List α}

theorem bodies_open (unfinished : nl ∉ a) : bodies nl a = [] := by
  induction a with
  | nil => rfl
  | cons c a ih =>
    rw [List.mem_cons, not_or] at unfinished
    rw [bodies, if_neg (Ne.symm unfinished.1), ih unfinished.2]

theorem bodies_line (unfinished : nl ∉ a) (text : List α) : bodies nl (a ++ nl :: text) = a :: bodies nl text := by
  induction a with
  | nil => rw [List.nil_append, bodies, if_pos rfl]
  | cons c a ih =>
    rw [List.mem_cons, not_or] at unfinished
    rw [List.cons_append, bodies, if_neg (Ne.symm unfinished.1), ih unfinished.2]

theorem tail_open (unfinished : nl ∉ a) : tail nl a = a := by
  cases a with
  | nil => rfl
  | cons c a => rw [tail, if_neg unfinished]

theorem tail_line (a text : List α) : tail nl (a ++ nl :: text) = tail nl text := by
  induction a with
  | nil => rw [List.nil_append, tail, if_pos List.mem_cons_self]
  | cons c a ih =>
    rw [List.cons_append, tail, if_pos, ih]
    exact List.mem_cons_of_mem c (List.mem_append_right a List.mem_cons_self)

theorem not_mem_tail (text : List α) : nl ∉ tail nl text := by
  induction text with
  | nil => exact List.not_mem_nil
  | cons c text ih =>
    rw [tail]
    split
    · exact ih
    · assumption

theorem tail_subset (text : List α) : tail nl text ⊆ text := by
  induction text with
  | nil => exact List.nil_subset []
  | cons c text ih =>
    rw [tail]
    split
    · exact List.subset_cons_of_subset c ih
    · exact List.Subset.refl _

theorem length_tail_lt (more : nl ∈ text) : (tail nl text).length < text.length := by
  induction text with
  | nil => cases more
  | cons c text ih =>
    rw [tail, if_pos more, List.length_cons]
    by_cases later : nl ∈ text
    · exact Nat.lt_succ_of_lt (ih later)
    · rw [tail_open later]
      exact Nat.lt_succ_self _

theorem tail_append (s : List α) {t : List α} (more : nl ∈ t) : tail nl (s ++ t) = tail nl t := by
  induction s with
  | nil => rfl
  | cons c s ih =>
    rw [List.cons_append, tail, if_pos, ih]
    exact List.mem_cons_of_mem c (List.mem_append_right s more)

theorem line_induction (nl : α) {P : List α → Prop} (unfinished : ∀ a, nl ∉ a → P a)
    (line : ∀ a text, nl ∉ a → P text → P (a ++ nl :: text)) (text : List α) : P text := by
  induction len : text.length using Nat.strong_induction_on generalizing text with
  | _ n ih =>
    by_cases more : nl ∈ text
    · obtain ⟨a, rest, rfl, clean⟩ := List.eq_append_cons_of_mem more
      rw [List.length_append, List.length_cons] at len
      exact line a rest clean (ih _ (by omega) rest rfl)
    · exact unfinished text more

/-- The lines of two pieces: the second piece goes on with the tail of the first. -/
theorem bodies_append (s t : List α) : bodies nl (s ++ t) = bodies nl s ++ bodies nl (tail nl s ++ t) := by
  induction s using line_induction nl with
  | unfinished a clean => rw [bodies_open clean, tail_open clean, List.nil_append]
  | line a text clean ih =>
    rw [List.append_assoc, List.cons_append, bodies_line clean, bodies_line clean, tail_line, ih, List.cons_append]

theorem length_bodies (s : List α) :
    ((bodies nl s).map fun line => line ++ [nl]).flatten.length + (tail nl s).length = s.length := by
  induction s using line_induction nl with
  | unfinished a clean => simp [bodies_open clean, tail_open clean]
  | line a text clean ih =>
    rw [bodies_line clean, tail_line]
    simp only [List.map_cons, List.flatten_cons, List.length_append, List.length_cons, List.length_nil] at ih ⊢
    omega

end Lines
