import Mathlib

set_option autoImplicit false

/-!
# Circular doubly linked lists

Nodes with links in both directions. From a head node the links run through all nodes of the list and
back to the head, and backwards in the other direction.
-/

structure Links (α : Type) where
  prev : α → α
  next : α → α

namespace Links

variable {α : Type}

/-- The links lead from `x` through the list to `y` and back. -/
def Path (k : Links α) : α → List α → α → Prop
  | x, [], y => k.next x = y ∧ k.prev y = x
  | x, a :: l, y => (k.next x = a ∧ k.prev a = x) ∧ Path k a l y

structure Circle (k : Links α) (h : α) (l : List α) : Prop where
  path : k.Path h l h
  distinct : (h :: l).Nodup

section Paths

variable {k : Links α} {x y : α} {l : List α}

theorem path_congr {k' : Links α} (path : k.Path x l y) (next : ∀ a ∈ x :: l, k'.next a = k.next a)
    (prev : ∀ a ∈ y :: l, k'.prev a = k.prev a) : k'.Path x l y := by
  induction l generalizing x with
  | nil => exact ⟨(next x (by simp)).trans path.1, (prev y (by simp)).trans path.2⟩
  | cons a l ih =>
    refine ⟨⟨(next x (by simp)).trans path.1.1, (prev a (by simp)).trans path.1.2⟩, ih path.2 ?_ ?_⟩
    · exact fun c member => next c (List.mem_cons_of_mem x member)
    · intro c member
      rcases List.mem_cons.mp member with rfl | member
      · exact prev c (by simp)
      · exact prev c (by simp [member])

theorem path_append (b : α) (before after : List α) :
    k.Path x (before ++ b :: after) y ↔ k.Path x before b ∧ k.Path b after y := by
  induction before generalizing x with
  | nil => rfl
  | cons a before ih => simp only [List.cons_append, Path, ih, and_assoc]

theorem path_next_mem (path : k.Path x l y) : k.next x ∈ l ++ [y] := by
  cases l with
  | nil => simp [path.1]
  | cons a l => simp [path.1.1]

theorem path_prev_mem (path : k.Path x l y) : k.prev y ∈ x :: l := by
  induction l generalizing x with
  | nil => simp [path.2]
  | cons a l ih => exact List.mem_cons_of_mem x (ih path.2)

end Paths

section Scan

-- The loop that follows the links until it is back at `stop`.
def scan [DecidableEq α] (link : α → α) (stop : α) (p : α → Bool) : Nat → α → Option (Option α)
  | 0, _ => none
  | fuel + 1, a =>
    if a = stop then some none else if p a then some (some a) else scan link stop p fuel (link a)

variable [DecidableEq α] {k : Links α} {h x y : α} {l : List α} (p : α → Bool)

theorem scan_next (fuel : Nat) (path : k.Path x l h) (away : h ∉ l) (enough : l.length < fuel) :
    scan k.next h p fuel (k.next x) = some (l.find? p) := by
  induction l generalizing x fuel with
  | nil =>
    obtain ⟨n, rfl⟩ : ∃ n, fuel = n + 1 := ⟨fuel - 1, by omega⟩
    simp [scan, path.1]
  | cons a l ih =>
    simp only [List.length_cons] at enough
    obtain ⟨n, rfl⟩ : ∃ n, fuel = n + 1 := ⟨fuel - 1, by omega⟩
    simp only [List.mem_cons, not_or] at away
    rw [path.1.1, scan, if_neg (Ne.symm away.1), List.find?_cons, ih n path.2 away.2 (by omega)]
    cases p a <;> rfl

theorem scan_prev (fuel : Nat) (path : k.Path h l y) (away : h ∉ l) (enough : l.length < fuel) :
    scan k.prev h p fuel (k.prev y) = some (l.reverse.find? p) := by
  induction l using List.reverseRecOn generalizing y fuel with
  | nil =>
    obtain ⟨n, rfl⟩ : ∃ n, fuel = n + 1 := ⟨fuel - 1, by omega⟩
    simp [scan, path.2]
  | append_singleton l a ih =>
    simp only [List.length_append, List.length_singleton] at enough
    obtain ⟨n, rfl⟩ : ∃ n, fuel = n + 1 := ⟨fuel - 1, by omega⟩
    simp only [List.mem_append, List.mem_singleton, not_or] at away
    obtain ⟨before, last⟩ := (path_append a l []).mp path
    rw [last.2, scan, if_neg (Ne.symm away.2), List.reverse_append, List.reverse_singleton,
      List.singleton_append, List.find?_cons, ih n before away.1 (by omega)]
    cases p a <;> rfl

end Scan

section Surgery

variable [DecidableEq α]

def setPrev (k : Links α) (a b : α) : Links α := { k with prev := Function.update k.prev a b }

def setNext (k : Links α) (a b : α) : Links α := { k with next := Function.update k.next a b }

-- The neighbours of `b` are linked to each other.
def remove (k : Links α) (b : α) : Links α :=
  let k := k.setPrev (k.next b) (k.prev b)
  k.setNext (k.prev b) (k.next b)

-- `b` is put behind the head.
def insertFront (k : Links α) (h b : α) : Links α :=
  let k := k.setNext b (k.next h)
  let k := k.setPrev b h
  let k := k.setPrev (k.next h) b
  k.setNext h b

variable {k : Links α} {h b x y : α}

theorem insertFront_eq (other : b ≠ h) :
    k.insertFront h b =
      ⟨Function.update (Function.update k.prev b h) (k.next h) b,
        Function.update (Function.update k.next b (k.next h)) h b⟩ := by
  simp [insertFront, setNext, setPrev, Ne.symm other]

theorem remove_eq (other : k.next b ≠ b) :
    k.remove b =
      ⟨Function.update k.prev (k.next b) (k.prev b), Function.update k.next (k.prev b) (k.next b)⟩ := by
  simp [remove, setNext, setPrev, Ne.symm other]

theorem Circle.insertFront {l : List α} (circle : k.Circle h l) (new : b ∉ h :: l) :
    (k.insertFront h b).Circle h (b :: l) := by
  obtain ⟨other, absent⟩ := not_or.mp (List.mem_cons.not.mp new)
  obtain ⟨apart, distinct⟩ := List.nodup_cons.mp circle.distinct
  rw [insertFront_eq other]
  refine ⟨⟨⟨Function.update_self .., ?_⟩, ?_⟩, ?_⟩
  · have moved : b ≠ k.next h := by
      intro same
      have := path_next_mem circle.path
      simp [← same, absent, other] at this
    simp [Function.update_of_ne moved]
  · cases l with
    | nil =>
      have first : k.next h = h := circle.path.1
      simp [Path, first, other]
    | cons a l =>
      obtain ⟨⟨first, -⟩, rest⟩ := circle.path
      simp only [List.mem_cons, not_or] at apart absent
      refine ⟨by simp [first, other], path_congr rest ?_ ?_⟩
      · intro c member
        have away : c ≠ h ∧ c ≠ b := by grind
        simp [away]
      · intro c member
        have away : c ≠ a ∧ c ≠ b := by grind
        simp [first, away]
  · simp only [List.nodup_cons, List.mem_cons, not_or] at distinct apart absent ⊢
    exact ⟨⟨Ne.symm other, apart⟩, absent, distinct⟩

theorem path_remove {before after : List α} (front : k.Path x before b) (back : k.Path b after y)
    (distinct : (x :: before ++ b :: after).Nodup) (apart : y ∉ before ++ b :: after) :
    Path ⟨Function.update k.prev (k.next b) (k.prev b), Function.update k.next (k.prev b) (k.next b)⟩
      x (before ++ after) y := by
  induction before generalizing x with
  | nil =>
    obtain ⟨-, last⟩ := front
    cases after with
    | nil => simp [Path, last, back.1]
    | cons a after =>
      obtain ⟨⟨first, -⟩, rest⟩ := back
      refine ⟨by simp [last, first], path_congr rest ?_ ?_⟩
      · intro c member
        have away : c ≠ x := by grind
        simp [last, away]
      · intro c member
        have away : c ≠ a := by grind
        simp [first, away]
  | cons a before ih =>
    obtain ⟨⟨next, prev⟩, rest⟩ := front
    have last := path_prev_mem rest
    have first := path_next_mem back
    have away : x ≠ k.prev b := by grind
    have away' : a ≠ k.next b := by grind
    refine ⟨by simp [away, away', next, prev], ih rest ?_ ?_⟩
    · exact (List.nodup_cons.mp distinct).2
    · exact fun member => apart (List.mem_cons_of_mem a member)

theorem Circle.remove {before after : List α} (circle : k.Circle h (before ++ b :: after)) :
    (k.remove b).Circle h (before ++ after) := by
  obtain ⟨front, back⟩ := (path_append b before after).mp circle.path
  have distinct := circle.distinct
  have first := path_next_mem back
  have other : k.next b ≠ b := by grind
  rw [remove_eq other]
  refine ⟨path_remove front back distinct (List.nodup_cons.mp distinct).1, ?_⟩
  grind

end Surgery

end Links
