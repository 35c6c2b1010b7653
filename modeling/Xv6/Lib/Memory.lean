import Mathlib

set_option autoImplicit false

/-!
# Byte-addressed memory

Memory is a function from addresses to bytes, changed by a list of stores. A range keeps what was
last stored there as long as the later stores stay away from it.
-/

namespace Memory

abbrev Mem := Nat → UInt8

structure Store where
  addr : Nat
  bytes : List UInt8

def Store.stop (s : Store) : Nat := s.addr + s.bytes.length

def store (m : Mem) (s : Store) : Mem :=
  fun a => if s.addr ≤ a ∧ a < s.stop then s.bytes.getD (a - s.addr) 0 else m a

def stores (m : Mem) (l : List Store) : Mem := l.foldl store m

@[simp] theorem stores_nil (m : Mem) : stores m [] = m := rfl

@[simp] theorem stores_cons (m : Mem) (s : Store) (l : List Store) :
    stores m (s :: l) = stores (store m s) l := rfl

theorem stores_append (m : Mem) (before after : List Store) :
    stores m (before ++ after) = stores (stores m before) after := List.foldl_append

def bytesAt (m : Mem) (a n : Nat) : List UInt8 := (List.range n).map fun k => m (a + k)

@[simp] theorem bytesAt_length (m : Mem) (a n : Nat) : (bytesAt m a n).length = n := by
  simp [bytesAt]

/-- A store is away from the `n` bytes at `a`. -/
def Store.Away (s : Store) (a n : Nat) : Prop := s.stop ≤ a ∨ a + n ≤ s.addr

theorem bytesAt_store_same (m : Mem) (s : Store) : bytesAt (store m s) s.addr s.bytes.length = s.bytes := by
  apply List.ext_getElem
  · simp
  · intro k below inside
    simp [bytesAt, store, Store.stop, inside]

theorem bytesAt_store_away (m : Mem) (s : Store) (a n : Nat) (away : s.Away a n) :
    bytesAt (store m s) a n = bytesAt m a n := by
  apply List.map_congr_left
  intro k member
  have below := List.mem_range.mp member
  have outside : ¬ (s.addr ≤ a + k ∧ a + k < s.stop) := by
    rcases away with low | high <;> omega
  rw [store, if_neg outside]

theorem bytesAt_stores_away (m : Mem) (l : List Store) (a n : Nat) (away : ∀ s ∈ l, s.Away a n) :
    bytesAt (stores m l) a n = bytesAt m a n := by
  induction l generalizing m with
  | nil => rfl
  | cons s l ih =>
    rw [stores_cons, ih _ fun later member => away later (List.mem_cons_of_mem s member)]
    exact bytesAt_store_away m s a n (away s List.mem_cons_self)

/-- No store of the list is undone by a later one. -/
def Kept (l : List Store) : Prop := l.Pairwise fun s later => later.Away s.addr s.bytes.length

theorem bytesAt_stores_kept (m : Mem) (l : List Store) (kept : Kept l) (s : Store) (member : s ∈ l) :
    bytesAt (stores m l) s.addr s.bytes.length = s.bytes := by
  induction l generalizing m with
  | nil => cases member
  | cons first rest ih =>
    obtain ⟨away, later⟩ := List.pairwise_cons.mp kept
    rw [stores_cons]
    rcases List.mem_cons.mp member with same | inRest
    · rw [same, bytesAt_stores_away _ rest _ _ away, bytesAt_store_same]
    · exact ih (store m first) later inRest

theorem bytesAt_take (m : Mem) (a k n : Nat) (le : k ≤ n) : (bytesAt m a n).take k = bytesAt m a k := by
  rw [bytesAt, ← List.map_take, List.take_range, Nat.min_eq_left le, bytesAt]

-- The C string in a field of `n` bytes.
def cstringAt (m : Mem) (a n : Nat) : List UInt8 := (bytesAt m a n).takeWhile (· ≠ 0)

theorem cstringAt_stores_kept (m : Mem) (l : List Store) (kept : Kept l) (s : Store) (member : s ∈ l) (n : Nat)
    (fits : s.bytes.length ≤ n) (ended : 0 ∈ s.bytes) :
    cstringAt (stores m l) s.addr n = s.bytes.takeWhile (· ≠ 0) := by
  have front := bytesAt_take (stores m l) s.addr _ n fits
  rw [bytesAt_stores_kept m l kept s member] at front
  have stops : (s.bytes.takeWhile (· ≠ 0)).length ≠ s.bytes.length := by
    intro all
    have whole := (List.takeWhile_prefix (p := (· ≠ 0)) (l := s.bytes)).eq_of_length all
    have passed := List.takeWhile_eq_self_iff.mp whole 0 ended
    simp at passed
  rw [cstringAt, ← List.take_append_drop s.bytes.length (bytesAt _ _ n), front, List.takeWhile_append,
    if_neg stops]

-- Words are stored little-endian.
def wordBytes (w : UInt32) : List UInt8 :=
  [UInt8.ofNat w.toNat, UInt8.ofNat (w.toNat / 256), UInt8.ofNat (w.toNat / 65536),
    UInt8.ofNat (w.toNat / 16777216)]

@[simp] theorem wordBytes_length (w : UInt32) : (wordBytes w).length = 4 := rfl

def bytesWord : List UInt8 → UInt32
  | [a, b, c, d] => UInt32.ofNat (a.toNat + 256 * b.toNat + 65536 * c.toNat + 16777216 * d.toNat)
  | _ => 0

@[simp] theorem bytesWord_wordBytes (w : UInt32) : bytesWord (wordBytes w) = w := by
  have bound := w.toNat_lt
  apply UInt32.toNat_inj.mp
  simp only [wordBytes, bytesWord, UInt8.toNat_ofNat', UInt32.toNat_ofNat']
  omega

def wordAt (m : Mem) (a : Nat) : UInt32 := bytesWord (bytesAt m a 4)

def wordStore (a : Nat) (w : UInt32) : Store := ⟨a, wordBytes w⟩

@[simp] theorem wordStore_addr (a : Nat) (w : UInt32) : (wordStore a w).addr = a := rfl

@[simp] theorem wordStore_bytes (a : Nat) (w : UInt32) : (wordStore a w).bytes = wordBytes w := rfl

theorem wordAt_store_same (m : Mem) (a : Nat) (w : UInt32) : wordAt (store m (wordStore a w)) a = w := by
  have same := bytesAt_store_same m (wordStore a w)
  rw [wordStore_bytes, wordBytes_length, wordStore_addr] at same
  rw [wordAt, same, bytesWord_wordBytes]

theorem wordAt_store_away (m : Mem) (s : Store) (a : Nat) (away : s.Away a 4) :
    wordAt (store m s) a = wordAt m a := by
  rw [wordAt, wordAt, bytesAt_store_away m s a 4 away]

theorem wordAt_stores_kept (m : Mem) (l : List Store) (kept : Kept l) (a : Nat) (w : UInt32)
    (member : wordStore a w ∈ l) : wordAt (stores m l) a = w := by
  have same := bytesAt_stores_kept m l kept (wordStore a w) member
  rw [wordStore_bytes, wordBytes_length, wordStore_addr] at same
  rw [wordAt, same, bytesWord_wordBytes]

end Memory
