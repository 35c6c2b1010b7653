import Mathlib

set_option autoImplicit false

/-!
# Circular singly linked lists

A function `link` gives each node its successor. It leads around a list if it maps the list to its
rotation by one, so a list may be entered at any of its nodes.
-/

namespace LinkRing

variable {α : Type} {link link' : α → α} {a b : α} {l : List α}

/-- The links lead from each node of the list to the next one, and from the last one to the first. -/
def Around (link : α → α) (l : List α) : Prop := l.map link = l.rotate 1

theorem around_cons : Around link (a :: l) ↔ link a :: l.map link = l ++ [a] := by
  simp [Around]

theorem Around.rotate (around : Around link l) (n : Nat) : Around link (l.rotate n) := by
  unfold Around at around ⊢
  rw [List.map_rotate, around, List.rotate_rotate, List.rotate_rotate, Nat.add_comm]

theorem Around.isRotated {l' : List α} (around : Around link l) (rotated : l ~r l') : Around link l' := by
  obtain ⟨n, rfl⟩ := rotated
  exact around.rotate n

theorem Around.congr (around : Around link l) (same : ∀ c ∈ l, link' c = link c) : Around link' l := by
  unfold Around at around ⊢
  rw [← around]
  exact List.map_congr_left same

theorem around_single : Around link [a] ↔ link a = a := by
  simp [around_cons]

theorem Around.enter {front back : List α} (around : Around link (front ++ a :: back)) :
    Around link (a :: (back ++ front)) := by
  have turned := around.rotate front.length
  rwa [List.rotate_append_length_eq, List.cons_append] at turned

theorem Around.next {front back : List α} (around : Around link (front ++ a :: b :: back)) : link a = b := by
  have turned := around_cons.mp around.enter
  exact (List.cons.inj turned).1

theorem Around.next_last {front : List α} (around : Around link (b :: l)) (last : b :: l = front ++ [a]) :
    link a = b := by
  have turned := around_cons.mp around
  have mapped : (b :: l).map link = l ++ [b] := turned
  rw [last, List.map_append, List.map_singleton] at mapped
  exact List.singleton_inj.mp (List.append_inj_right' mapped rfl)

theorem Around.remove (around : Around link (a :: b :: l)) (first : link' a = link b)
    (same : ∀ c ∈ l, link' c = link c) : Around link' (a :: l) := by
  rw [around_cons] at around ⊢
  rw [first, List.map_congr_left same]
  exact (List.cons.inj around).2

theorem rotation_unique {l' : List α} (distinct : (a :: l).Nodup) (rotated : (a :: l) ~r (a :: l')) : l = l' := by
  obtain ⟨n, turned⟩ := rotated
  rw [← List.rotate_mod] at turned
  have below : n % (a :: l).length < (a :: l).length := Nat.mod_lt _ (by simp)
  have head := congrArg List.head? turned
  rw [List.head?_rotate below, List.head?_cons, List.getElem?_eq_getElem below, Option.some.injEq] at head
  have zero : n % (a :: l).length = 0 := by
    have first : (a :: l)[n % (a :: l).length] = (a :: l)[0] := head
    exact (distinct.getElem_inj_iff).mp first
  rw [zero, List.rotate_zero] at turned
  exact (List.cons.inj turned).2

section Walk

-- The loop that follows the links until the test succeeds.
def walk (link : α → α) (stop : α → Bool) : Nat → α → Option α
  | 0, _ => none
  | fuel + 1, a => if stop a then some a else walk link stop fuel (link a)

variable {stop : α → Bool}

theorem walk_around {front back : List α} (around : Around link (front ++ b :: back)) (hit : stop b = true)
    (pass : ∀ c ∈ front, stop c = false) (start : (front ++ [b]).head? = some a) (fuel : Nat)
    (enough : front.length < fuel) : walk link stop fuel a = some b := by
  induction front generalizing back a fuel with
  | nil =>
    obtain ⟨n, rfl⟩ : ∃ n, fuel = n + 1 := ⟨fuel - 1, by simp at enough; omega⟩
    simp only [List.nil_append, List.head?_cons, Option.some.injEq] at start
    rw [walk, ← start, if_pos hit]
  | cons c front ih =>
    simp only [List.length_cons] at enough
    obtain ⟨n, rfl⟩ : ∃ n, fuel = n + 1 := ⟨fuel - 1, by omega⟩
    simp only [List.cons_append, List.head?_cons, Option.some.injEq] at start
    subst start
    have step : (front ++ [b]).head? = some (link c) := by
      have turned := congrArg List.head? (around_cons.mp around)
      cases front <;> simpa using turned.symm
    have later : Around link (front ++ b :: (back ++ [c])) := by
      have turned := around.rotate 1
      simpa using turned
    have missed : ¬ stop c = true := by simp [pass c List.mem_cons_self]
    rw [walk, if_neg missed]
    exact ih later (fun d member => pass d (List.mem_cons_of_mem c member)) step n (by omega)

theorem walk_only (around : Around link l) (start : a ∈ l) (target : b ∈ l)
    (only : ∀ c ∈ l, stop c = true ↔ c = b) (fuel : Nat) (enough : l.length ≤ fuel) :
    walk link stop fuel a = some b := by
  obtain ⟨x, y, rfl⟩ := List.append_of_mem start
  have turned := around.enter
  have members : ∀ c, c ∈ a :: (y ++ x) → c ∈ x ++ a :: y := by
    intro c member
    simp only [List.mem_cons, List.mem_append] at member ⊢
    tauto
  have inside : b ∈ a :: (y ++ x) := by
    simp only [List.mem_cons, List.mem_append] at target ⊢
    tauto
  -- the part before the first node that passes
  obtain ⟨front, back, split, before⟩ := List.eq_append_cons_of_mem inside
  have length : (a :: (y ++ x)).length = (x ++ a :: y).length := by simp; omega
  have first : (front ++ [b]).head? = some a := by
    have head := congrArg List.head? split
    cases front <;> simpa using head.symm
  have shorter : front.length < fuel := by
    rw [split, List.length_append, List.length_cons] at length
    omega
  rw [split] at turned members
  refine walk_around turned ((only b target).mpr rfl) ?_ first fuel shorter
  intro c member
  have other : c ≠ b := by
    rintro rfl
    exact before member
  have miss := mt (only c (members c (by simp [member]))).mp other
  simpa using miss

end Walk

end LinkRing
