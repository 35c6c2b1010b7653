import Mathlib

set_option autoImplicit false

/-!
# A queue linked through its elements

Every element has a link to the one behind it, and an element is in the queue if it can be reached
from the head. Whoever appends walks along the links to the null link at the end; the walk has fuel,
which a queue without cycles never uses up.
-/

structure LinkQueue (α : Type) where
  head : Option α
  next : α → Option α

namespace LinkQueue

variable {α : Type}

/-- The elements that are reached from `start`. -/
def Chain (next : α → Option α) : Option α → List α → Prop
  | start, [] => start = none
  | start, a :: rest => start = some a ∧ Chain next (next a) rest

def Holds (q : LinkQueue α) (l : List α) : Prop := Chain q.next q.head l

-- The element whose link is null.
def lastFrom (next : α → Option α) : Nat → α → Option α
  | 0, _ => none
  | fuel + 1, a =>
    match next a with
    | none => some a
    | some b => lastFrom next fuel b

variable [DecidableEq α]

def enqueue (fuel : Nat) (q : LinkQueue α) (b : α) : Option (LinkQueue α) :=
  let next := Function.update q.next b none
  match q.head with
  | none => some ⟨some b, next⟩
  | some a => (lastFrom next fuel a).map fun last => ⟨q.head, Function.update next last (some b)⟩

section Chains

variable {next : α → Option α} {start : Option α} {l : List α}

omit [DecidableEq α] in
theorem chain_congr {next' : α → Option α} (chain : Chain next start l) (same : ∀ a ∈ l, next' a = next a) :
    Chain next' start l := by
  induction l generalizing start with
  | nil => exact chain
  | cons a rest ih =>
    obtain ⟨first, later⟩ := chain
    refine ⟨first, ?_⟩
    rw [same a List.mem_cons_self]
    exact ih later fun b member => same b (List.mem_cons_of_mem a member)

omit [DecidableEq α] in
theorem lastFrom_chain (fuel : Nat) (a : α) (rest : List α) (chain : Chain next (next a) rest)
    (enough : rest.length < fuel) :
    lastFrom next fuel a = some ((a :: rest).getLast (List.cons_ne_nil a rest)) := by
  induction rest generalizing a fuel with
  | nil =>
    obtain ⟨n, rfl⟩ : ∃ n, fuel = n + 1 := ⟨fuel - 1, by omega⟩
    have null : next a = none := chain
    simp only [lastFrom, null, List.getLast_singleton]
  | cons b rest ih =>
    simp only [List.length_cons] at enough
    obtain ⟨n, rfl⟩ : ∃ n, fuel = n + 1 := ⟨fuel - 1, by omega⟩
    obtain ⟨first, later⟩ := chain
    simp only [lastFrom, first, ih n b later (by omega), List.getLast_cons (List.cons_ne_nil b rest)]

theorem chain_append (b : α) (chain : Chain next start l) (distinct : l.Nodup) (new : b ∉ l)
    (null : next b = none) (some_ : l ≠ []) :
    Chain (Function.update next (l.getLast some_) (some b)) start (l ++ [b]) := by
  induction l generalizing start with
  | nil => exact absurd rfl some_
  | cons a rest ih =>
    obtain ⟨first, later⟩ := chain
    obtain ⟨other, distinct⟩ := List.nodup_cons.mp distinct
    have differs : b ≠ a := fun same => new (same ▸ List.mem_cons_self)
    cases rest with
    | nil => simp [Chain, first, differs, null]
    | cons c rest =>
      have away : a ≠ (c :: rest).getLast (List.cons_ne_nil c rest) := fun same =>
        other (same ▸ List.getLast_mem (List.cons_ne_nil c rest))
      refine ⟨first, ?_⟩
      rw [List.getLast_cons (List.cons_ne_nil c rest), Function.update_of_ne away]
      exact ih later distinct (fun member => new (List.mem_cons_of_mem a member)) (List.cons_ne_nil c rest)

theorem chain_unlink {before after : List α} {a b : α} (chain : Chain next start (before ++ a :: b :: after))
    (distinct : (before ++ a :: b :: after).Nodup) :
    Chain (Function.update (Function.update next a (next b)) b none) start (before ++ a :: after) := by
  induction before generalizing start with
  | nil =>
    obtain ⟨first, second, later⟩ := chain
    simp only [List.nil_append, List.nodup_cons, List.mem_cons, not_or] at distinct
    obtain ⟨⟨differs, notFirst⟩, notSecond, -⟩ := distinct
    refine ⟨first, ?_⟩
    rw [Function.update_of_ne differs, Function.update_self]
    refine chain_congr later fun c member => ?_
    have notA : c ≠ a := fun same => notFirst (same ▸ member)
    have notB : c ≠ b := fun same => notSecond (same ▸ member)
    rw [Function.update_of_ne notB, Function.update_of_ne notA]
  | cons c before ih =>
    obtain ⟨first, later⟩ := chain
    obtain ⟨other, distinct⟩ := List.nodup_cons.mp distinct
    have notFirst : c ≠ a := fun same => other (by simp [same])
    have notSecond : c ≠ b := fun same => other (by simp [same])
    refine ⟨first, ?_⟩
    rw [Function.update_of_ne notSecond, Function.update_of_ne notFirst]
    exact ih later distinct

omit [DecidableEq α] in
theorem chain_getLast {a : α} (chain : Chain next start l) (last : l.getLast? = some a) : next a = none := by
  induction l generalizing start with
  | nil => cases last
  | cons b rest ih =>
    cases rest with
    | nil =>
      cases last
      exact chain.2
    | cons c rest => exact ih chain.2 (by rwa [List.getLast?_cons_cons] at last)

end Chains

variable {q : LinkQueue α} {l : List α}

theorem enqueue_holds (fuel : Nat) (b : α) (holds : q.Holds l) (distinct : l.Nodup) (new : b ∉ l)
    (enough : l.length ≤ fuel) : ∃ q', q.enqueue fuel b = some q' ∧ q'.Holds (l ++ [b]) := by
  have kept : Chain (Function.update q.next b none) q.head l := by
    apply chain_congr holds
    intro a member
    have other : a ≠ b := fun same => new (same ▸ member)
    exact Function.update_of_ne other _ _
  cases l with
  | nil =>
    have empty : q.head = none := holds
    refine ⟨⟨some b, Function.update q.next b none⟩, by simp only [enqueue, empty], ?_⟩
    simp [Holds, Chain]
  | cons a rest =>
    simp only [List.length_cons] at enough
    have last := lastFrom_chain fuel a rest kept.2 (by omega)
    refine ⟨_, by simp only [enqueue, kept.1, last, Option.map_some]; rfl, ?_⟩
    rw [Holds, ← kept.1]
    exact chain_append b kept distinct new (Function.update_self ..) (List.cons_ne_nil a rest)

end LinkQueue
