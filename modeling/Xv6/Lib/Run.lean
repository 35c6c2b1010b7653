import Mathlib

set_option autoImplicit false

/-!
# Runs

A machine is a partial step function on states and labels; a run is a list of labels. An invariant
that one step preserves holds at the end of every run.
-/

namespace Run

variable {S L : Type}

def exec (step : S → L → Option S) (s : S) (labels : List L) : Option S :=
  labels.foldlM step s

@[simp] theorem exec_nil (step : S → L → Option S) (s : S) : exec step s [] = some s := rfl

theorem exec_cons (step : S → L → Option S) (s : S) (label : L) (labels : List L) :
    exec step s (label :: labels) = (step s label).bind fun t => exec step t labels := rfl

theorem exec_append (step : S → L → Option S) (s : S) (before after : List L) :
    exec step s (before ++ after) = (exec step s before).bind fun t => exec step t after := by
  induction before generalizing s with
  | nil => rfl
  | cons label before ih =>
    rw [List.cons_append, exec_cons, exec_cons]
    cases step s label with
    | none => rfl
    | some t => exact ih t

theorem exec_invariant (step : S → L → Option S) (inv : S → Prop)
    (preserved : ∀ s label t, inv s → step s label = some t → inv t)
    (s t : S) (labels : List L) (start : inv s) (run : exec step s labels = some t) : inv t := by
  induction labels generalizing s with
  | nil =>
    cases run
    exact start
  | cons label labels ih =>
    rw [exec_cons] at run
    cases moved : step s label with
    | none => simp [moved] at run
    | some u =>
      rw [moved, Option.bind_some] at run
      exact ih u (preserved s label u start moved) run

section Conditions

/-- Every step of the run is taken under the condition. -/
def Meets (step : S → L → Option S) (cond : S → L → Prop) : S → List L → Prop
  | _, [] => True
  | s, label :: labels =>
    cond s label ∧
      match step s label with
      | some t => Meets step cond t labels
      | none => True

instance Meets.decidable (step : S → L → Option S) (cond : S → L → Prop) [∀ s label, Decidable (cond s label)] :
    (s : S) → (labels : List L) → Decidable (Meets step cond s labels)
  | _, [] => isTrue trivial
  | s, label :: labels =>
    have : Decidable (match step s label with
        | some t => Meets step cond t labels
        | none => True) :=
      match step s label with
      | some t => Meets.decidable step cond t labels
      | none => isTrue trivial
    inferInstanceAs (Decidable (_ ∧ _))

theorem meets_append (step : S → L → Option S) (cond : S → L → Prop) (s t : S) (before after : List L)
    (run : exec step s before = some t) (meets : Meets step cond s (before ++ after)) :
    Meets step cond s before ∧ Meets step cond t after := by
  induction before generalizing s with
  | nil =>
    cases run
    exact ⟨trivial, meets⟩
  | cons label before ih =>
    rw [exec_cons] at run
    rw [List.cons_append, Meets] at meets
    rw [Meets]
    cases moved : step s label with
    | none => simp [moved] at run
    | some u =>
      rw [moved] at run meets
      obtain ⟨first, rest⟩ := ih u run meets.2
      exact ⟨⟨meets.1, first⟩, rest⟩

theorem exec_invariant_of_meets (step : S → L → Option S) (cond : S → L → Prop) (inv : S → Prop)
    (preserved : ∀ s label t, inv s → cond s label → step s label = some t → inv t)
    (s t : S) (labels : List L) (start : inv s) (run : exec step s labels = some t)
    (meets : Meets step cond s labels) : inv t := by
  induction labels generalizing s with
  | nil =>
    cases run
    exact start
  | cons label labels ih =>
    rw [exec_cons] at run
    rw [Meets] at meets
    cases moved : step s label with
    | none => simp [moved] at run
    | some u =>
      rw [moved] at run meets
      exact ih u (preserved s label u start meets.1 moved) run meets.2

theorem exec_simulation_of_meets {S' : Type} (step : S → L → Option S) (step' : S' → L → Option S')
    (cond : S → L → Prop) (rel : S → S' → Prop)
    (matched : ∀ s s' label t, rel s s' → cond s label → step s label = some t →
      ∃ t', step' s' label = some t' ∧ rel t t')
    (s t : S) (s' : S') (labels : List L) (start : rel s s') (run : exec step s labels = some t)
    (meets : Meets step cond s labels) : ∃ t', exec step' s' labels = some t' ∧ rel t t' := by
  induction labels generalizing s s' with
  | nil =>
    cases run
    exact ⟨s', rfl, start⟩
  | cons label labels ih =>
    rw [exec_cons] at run
    rw [Meets] at meets
    cases moved : step s label with
    | none => simp [moved] at run
    | some u =>
      rw [moved] at run meets
      obtain ⟨u', moved', related⟩ := matched s s' label u start meets.1 moved
      obtain ⟨t', run', final⟩ := ih u u' related run meets.2
      exact ⟨t', by rw [exec_cons, moved', Option.bind_some, run'], final⟩

end Conditions

section Tables

variable {ι V M : Type} [Fintype ι] [DecidableEq ι] [AddCommMonoid M]

theorem sum_update (weight : V → M) (table : ι → V) (i : ι) (v : V) :
    (∑ j, weight (Function.update table i v j)) + weight (table i) =
      (∑ j, weight (table j)) + weight v := by
  have updated : ∑ j, weight (Function.update table i v j) =
      weight v + ∑ j ∈ Finset.univ \ {i}, weight (table j) := by
    have moved : (fun j => weight (Function.update table i v j)) =
        Function.update (fun j => weight (table j)) i (weight v) := by
      funext j
      by_cases same : j = i <;> simp [Function.update, same]
    rw [moved, Finset.sum_update_of_mem (Finset.mem_univ i)]
  have split : ∑ j, weight (table j) =
      weight (table i) + ∑ j ∈ Finset.univ \ {i}, weight (table j) := by
    rw [← Finset.sum_update_of_mem (Finset.mem_univ i) (fun j => weight (table j)) (weight (table i))]
    simp
  rw [updated, split]
  abel

end Tables

end Run
