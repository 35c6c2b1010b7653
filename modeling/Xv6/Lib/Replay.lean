import Mathlib

set_option autoImplicit false

/-!
# Replaying writes

A store is a function from addresses to values; a device applies a list of writes to it in order.
A crash keeps a prefix of the list. The lemmas say when two stores agree after the same writes,
which is what makes repeating an interrupted list of writes harmless.
-/

namespace Replay

variable {A B : Type} [DecidableEq A]

def write (store : A → B) (w : A × B) : A → B :=
  Function.update store w.1 w.2

def replay (store : A → B) (ws : List (A × B)) : A → B :=
  ws.foldl write store

/-- The store left by a crash after `cut` of the writes have reached the device. -/
def crash (store : A → B) (ws : List (A × B)) (cut : Nat) : A → B :=
  replay store (ws.take cut)

@[simp] theorem replay_nil (store : A → B) : replay store [] = store := rfl

@[simp] theorem replay_cons (store : A → B) (w : A × B) (ws : List (A × B)) :
    replay store (w :: ws) = replay (write store w) ws := rfl

theorem replay_append (store : A → B) (ws vs : List (A × B)) :
    replay store (ws ++ vs) = replay (replay store ws) vs := by
  simp [replay, List.foldl_append]

theorem replay_snoc (store : A → B) (ws : List (A × B)) (w : A × B) :
    replay store (ws ++ [w]) = write (replay store ws) w := by
  simp [replay_append]

theorem write_same (store : A → B) (a : A) (v : B) : write store (a, v) a = v := by
  simp [write]

theorem write_other (store : A → B) (w : A × B) (a : A) (other : a ≠ w.1) :
    write store w a = store a := by
  simp [write, Function.update_of_ne other]

theorem replay_untouched (store : A → B) (ws : List (A × B)) (a : A)
    (untouched : a ∉ ws.map Prod.fst) : replay store ws a = store a := by
  induction ws generalizing store with
  | nil => rfl
  | cons w ws ih =>
    simp only [List.map_cons, List.mem_cons, not_or] at untouched
    rw [replay_cons, ih (write store w) untouched.2, write_other store w a untouched.1]

theorem replay_written (store : A → B) (ws : List (A × B)) (distinct : (ws.map Prod.fst).Nodup)
    (a : A) (v : B) (member : (a, v) ∈ ws) : replay store ws a = v := by
  induction ws generalizing store with
  | nil => simp at member
  | cons w ws ih =>
    simp only [List.map_cons, List.nodup_cons] at distinct
    rcases List.mem_cons.mp member with rfl | later
    · rw [replay_cons, replay_untouched _ ws a distinct.1, write_same]
    · rw [replay_cons]
      exact ih (write store w) distinct.2 later

theorem crash_untouched (store : A → B) (ws : List (A × B)) (cut : Nat) (a : A)
    (untouched : a ∉ ws.map Prod.fst) : crash store ws cut a = store a := by
  apply replay_untouched
  intro member
  obtain ⟨w, taken, rfl⟩ := List.mem_map.mp member
  exact untouched (List.mem_map_of_mem (List.mem_of_mem_take taken))

theorem crash_append_of_le (store : A → B) (ws vs : List (A × B)) (cut : Nat)
    (within : cut ≤ ws.length) : crash store (ws ++ vs) cut = crash store ws cut := by
  rw [crash, crash, List.take_append_of_le_length within]

theorem crash_append_of_ge (store : A → B) (ws vs : List (A × B)) (cut : Nat)
    (beyond : ws.length ≤ cut) :
    crash store (ws ++ vs) cut = crash (replay store ws) vs (cut - ws.length) := by
  rw [crash, crash, List.take_append, List.take_of_length_le beyond, replay_append]

theorem crash_all (store : A → B) (ws : List (A × B)) (cut : Nat) (all : ws.length ≤ cut) :
    crash store ws cut = replay store ws := by
  rw [crash, List.take_of_length_le all]

end Replay
