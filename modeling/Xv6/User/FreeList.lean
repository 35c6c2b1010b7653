import Xv6.User.Umalloc

set_option autoImplicit false

/-!
# The free list

The circle of free blocks as a list of extents in the order of their addresses. `free` puts a block in
its place and joins it with the neighbours that it touches.
-/

namespace Xv6.Umalloc

open Memory LinkRing

section Headers

def Apart (a b : Nat) : Prop := a + HEADER ≤ b ∨ b + HEADER ≤ a

theorem Apart.symm {a b : Nat} (apart : Apart a b) : Apart b a := Or.symm apart

-- The header at `a` is the same in both memories.
def SameHeader (m m' : Mem) (a : Nat) : Prop := ptr m' a = ptr m a ∧ size m' a = size m a

theorem SameHeader.trans {m m' m'' : Mem} {a : Nat} (first : SameHeader m m' a) (second : SameHeader m' m'' a) :
    SameHeader m m'' a := ⟨second.1.trans first.1, second.2.trans first.2⟩

variable (m : Mem) {a b v : Nat}

theorem ptr_lt (a : Nat) : ptr m a < 2 ^ 32 := (wordAt m a).toNat_lt

theorem store_sameHeader (s : Store) (away : s.Away a HEADER) : SameHeader m (store m s) a := by
  have low : s.Away a 4 := away.imp_right fun h => by simp only [HEADER] at h; omega
  have high : s.Away (a + 4) 4 := away.imp (fun h => by omega) fun h => by simp only [HEADER] at h; omega
  exact ⟨congrArg UInt32.toNat (wordAt_store_away m s a low),
    congrArg UInt32.toNat (wordAt_store_away m s (a + 4) high)⟩

theorem setPtr_sameHeader (apart : Apart a b) : SameHeader m (setPtr m a v) b := by
  apply store_sameHeader
  rcases apart with below | above <;> simp only [HEADER] at *
  · exact Or.inl (by simp only [Store.stop, wordStore_addr, wordStore_bytes, wordBytes_length]; omega)
  · exact Or.inr above

theorem setSize_sameHeader (apart : Apart a b) : SameHeader m (setSize m a v) b := by
  apply store_sameHeader
  rcases apart with below | above <;> simp only [HEADER] at *
  · exact Or.inl (by simp only [Store.stop, wordStore_addr, wordStore_bytes, wordBytes_length]; omega)
  · exact Or.inr (by simp only [wordStore_addr]; omega)

theorem ptr_setPtr (small : v < 2 ^ 32) : ptr (setPtr m a v) a = v := by
  rw [ptr, setPtr, wordAt_store_same, UInt32.toNat_ofNat']
  exact Nat.mod_eq_of_lt small

theorem size_setSize (small : v < 2 ^ 32) : size (setSize m a v) a = v := by
  rw [size, setSize, wordAt_store_same, UInt32.toNat_ofNat']
  exact Nat.mod_eq_of_lt small

theorem ptr_setSize : ptr (setSize m a v) a = ptr m a :=
  congrArg UInt32.toNat (wordAt_store_away _ _ _ (Or.inr (by simp)))

theorem size_setPtr : size (setPtr m a v) a = size m a :=
  congrArg UInt32.toNat (wordAt_store_away _ _ _ (Or.inl (by simp [Store.stop])))

theorem plus_of_lt {p units : Nat} (small : p + HEADER * units < 2 ^ 32) : plus p units = p + HEADER * units :=
  Nat.mod_eq_of_lt small

end Headers

section Joins

variable (m : Mem) {bp p : Nat} (apart : Apart bp p)

theorem joinRight_frame (p : Nat) {c : Nat} (other : Apart bp c) : SameHeader m (joinRight m bp p) c := by
  unfold joinRight
  split
  next => exact (setSize_sameHeader m other).trans (setPtr_sameHeader _ other)
  next => exact setPtr_sameHeader m other

theorem joinLeft_frame {c : Nat} (other : Apart p c) : SameHeader m (joinLeft m bp p) c := by
  unfold joinLeft
  split
  next => exact (setSize_sameHeader m other).trans (setPtr_sameHeader _ other)
  next => exact setPtr_sameHeader m other

include apart

theorem joinRight_touching (touches : plus bp (size m bp) = ptr m p) (next : Apart bp (ptr m p))
    (small : size m bp + size m (ptr m p) < 2 ^ 32) :
    ptr (joinRight m bp p) bp = ptr m (ptr m p) ∧
      size (joinRight m bp p) bp = size m bp + size m (ptr m p) := by
  have kept (v : Nat) : ptr (setSize m bp v) p = ptr m p := (setSize_sameHeader m apart).1
  have beyond (v : Nat) : ptr (setSize m bp v) (ptr m p) = ptr m (ptr m p) := (setSize_sameHeader m next).1
  rw [joinRight, if_pos touches]
  simp only [kept, beyond]
  exact ⟨ptr_setPtr _ (ptr_lt m _), by rw [size_setPtr, size_setSize m small]⟩

omit apart in
theorem joinRight_clear (clear : plus bp (size m bp) ≠ ptr m p) :
    ptr (joinRight m bp p) bp = ptr m p ∧ size (joinRight m bp p) bp = size m bp := by
  rw [joinRight, if_neg clear]
  exact ⟨ptr_setPtr _ (ptr_lt m _), size_setPtr m⟩

theorem joinLeft_touching (touches : plus p (size m p) = bp) (small : size m p + size m bp < 2 ^ 32) :
    ptr (joinLeft m bp p) p = ptr m bp ∧ size (joinLeft m bp p) p = size m p + size m bp := by
  have kept (v : Nat) : ptr (setSize m p v) bp = ptr m bp := (setSize_sameHeader m apart.symm).1
  rw [joinLeft, if_pos touches]
  simp only [kept]
  exact ⟨ptr_setPtr _ (ptr_lt m _), by rw [size_setPtr, size_setSize m small]⟩

omit apart in
theorem joinLeft_clear (clear : plus p (size m p) ≠ bp) (small : bp < 2 ^ 32) :
    ptr (joinLeft m bp p) p = bp ∧ size (joinLeft m bp p) p = size m p := by
  rw [joinLeft, if_neg clear]
  exact ⟨ptr_setPtr _ small, size_setPtr m⟩

end Joins

section Lists

/-- The headers in memory link the blocks in a circle that `freep` is on. -/
structure FreeList (m : Mem) (freep : Nat) (l : List Extent) : Prop where
  around : Around (ptr m) (l.map Extent.addr)
  sizes : ∀ e ∈ l, size m e.addr = e.units
  start : freep ∈ l.map Extent.addr

theorem FreeList.isRotated {m : Mem} {freep : Nat} {l l' : List Extent} (list : FreeList m freep l)
    (rotated : l ~r l') : FreeList m freep l' where
  around := list.around.isRotated (rotated.map _)
  sizes := fun e member => list.sizes e (rotated.mem_iff.mpr member)
  start := (rotated.map Extent.addr).mem_iff.mp list.start

/-- In the order of the addresses, with something between any two blocks. -/
def Spaced (l : List Extent) : Prop := l.Pairwise fun e g => e.stop < g.addr ∧ e.addr + HEADER ≤ g.addr

-- A block in front of others takes over the first of them if it touches it.
def absorb (b : Extent) : List Extent → Extent × List Extent
  | [] => (b, [])
  | n :: rest => if b.stop = n.addr then (⟨b.addr, b.units + n.units⟩, rest) else (b, n :: rest)

def attach (p b : Extent) (rest : List Extent) : List Extent :=
  if p.stop = b.addr then ⟨p.addr, p.units + b.units⟩ :: rest else p :: b :: rest

/-- What `free` makes of the list behind the place `p` of the block. -/
def settle (p b : Extent) (rest : List Extent) : List Extent := attach p (absorb b rest).1 (absorb b rest).2

-- The place of a block between two parts of the list.
structure Place (b p : Extent) (rest : List Extent) : Prop where
  left : p.stop ≤ b.addr
  header : p.addr + HEADER ≤ b.addr
  right : ∀ e ∈ rest, b.stop ≤ e.addr
  positive : 0 < b.units

theorem Extent.lt_stop (e : Extent) (positive : 0 < e.units) : e.addr + HEADER ≤ e.stop := by
  simp only [Extent.stop, HEADER]
  omega

section Spacing

variable {b p : Extent} {front rest : List Extent}

theorem absorb_addr : (absorb b rest).1.addr = b.addr := by
  cases rest with
  | nil => rfl
  | cons n rest =>
    rw [absorb]
    split <;> rfl

theorem absorb_spaced (place : Place b p rest) (spaced : Spaced rest) :
    Spaced ((absorb b rest).1 :: (absorb b rest).2) := by
  have header := b.lt_stop place.positive
  cases rest with
  | nil => exact List.pairwise_singleton _ _
  | cons n rest =>
    obtain ⟨after, others⟩ := List.pairwise_cons.mp spaced
    have here := place.right n List.mem_cons_self
    rw [absorb]
    split
    next touches =>
      refine List.pairwise_cons.mpr ⟨?_, others⟩
      intro e member
      have beyond := (after e member).1
      have later := place.right e (List.mem_cons_of_mem n member)
      simp only [Extent.stop, HEADER] at *
      exact ⟨by omega, by omega⟩
    next clear =>
      refine List.pairwise_cons.mpr ⟨?_, spaced⟩
      intro e member
      change b.stop < e.addr ∧ b.addr + HEADER ≤ e.addr
      rcases List.mem_cons.mp member with rfl | member
      · exact ⟨by omega, by omega⟩
      · have beyond := (after e member).2
        simp only [HEADER] at *
        exact ⟨by omega, by omega⟩

theorem attach_spaced {b' : Extent} (left : p.stop ≤ b'.addr) (header : p.addr + HEADER ≤ b'.addr)
    (spaced : Spaced (b' :: rest)) : Spaced (attach p b' rest) := by
  obtain ⟨after, others⟩ := List.pairwise_cons.mp spaced
  unfold attach
  split
  next touches =>
    refine List.pairwise_cons.mpr ⟨?_, others⟩
    intro e member
    obtain ⟨beyond, -⟩ := after e member
    simp only [Extent.stop, HEADER] at *
    exact ⟨by omega, by omega⟩
  next clear =>
    refine List.pairwise_cons.mpr ⟨?_, spaced⟩
    intro e member
    rcases List.mem_cons.mp member with rfl | member
    · exact ⟨by omega, header⟩
    · obtain ⟨-, beyond⟩ := after e member
      simp only [HEADER] at *
      exact ⟨by omega, by omega⟩

theorem attach_addr {b' : Extent} (header : p.addr + HEADER ≤ b'.addr) (spaced : Spaced (b' :: rest)) :
    ∀ e ∈ attach p b' rest, p.addr ≤ e.addr := by
  intro e member
  have behind : ∀ g ∈ b' :: rest, p.addr ≤ g.addr := by
    intro g inside
    rcases List.mem_cons.mp inside with rfl | inside
    · omega
    · have := ((List.pairwise_cons.mp spaced).1 g inside).2
      omega
  unfold attach at member
  split at member
  next =>
    rcases List.mem_cons.mp member with rfl | member
    · exact le_refl _
    · exact behind e (List.mem_cons_of_mem b' member)
  next =>
    rcases List.mem_cons.mp member with rfl | member
    · exact le_refl _
    · exact behind e member

theorem settle_spaced (place : Place b p rest) (spaced : Spaced (front ++ p :: rest)) :
    Spaced (front ++ settle p b rest) := by
  obtain ⟨before, here, across⟩ := List.pairwise_append.mp spaced
  have tail := absorb_spaced place (List.pairwise_cons.mp here).2
  have left : p.stop ≤ (absorb b rest).1.addr := by
    rw [absorb_addr]
    exact place.left
  have header : p.addr + HEADER ≤ (absorb b rest).1.addr := by
    rw [absorb_addr]
    exact place.header
  refine List.pairwise_append.mpr ⟨before, attach_spaced left header tail, ?_⟩
  intro e member g inside
  obtain ⟨stop, apart⟩ := across e member p List.mem_cons_self
  have beyond := attach_addr header tail g inside
  exact ⟨by omega, by omega⟩

end Spacing

section Contents

def Extent.bytes (e : Extent) : Set Nat := Set.Ico e.addr e.stop

def covered (l : List Extent) : Set Nat := { x | ∃ e ∈ l, x ∈ e.bytes }

def units (l : List Extent) : Nat := (l.map Extent.units).sum

@[simp] theorem units_nil : units [] = 0 := rfl

@[simp] theorem units_cons (e : Extent) (l : List Extent) : units (e :: l) = e.units + units l := by
  simp [units]

@[simp] theorem units_append (l l' : List Extent) : units (l ++ l') = units l + units l' := by
  simp [units]

@[simp] theorem covered_nil : covered [] = ∅ := by
  simp [covered]

@[simp] theorem covered_cons (e : Extent) (l : List Extent) : covered (e :: l) = e.bytes ∪ covered l := by
  ext x
  simp [covered]

@[simp] theorem covered_append (l l' : List Extent) : covered (l ++ l') = covered l ∪ covered l' := by
  ext x
  simp only [covered, List.mem_append, Set.mem_ofPred_eq, Set.mem_union]
  constructor
  · rintro ⟨e, member | member, inside⟩
    · exact Or.inl ⟨e, member, inside⟩
    · exact Or.inr ⟨e, member, inside⟩
  · rintro (⟨e, member, inside⟩ | ⟨e, member, inside⟩)
    · exact ⟨e, Or.inl member, inside⟩
    · exact ⟨e, Or.inr member, inside⟩

theorem bytes_glue (e g : Extent) (touches : e.stop = g.addr) :
    (Extent.mk e.addr (e.units + g.units)).bytes = e.bytes ∪ g.bytes := by
  have whole : (Extent.mk e.addr (e.units + g.units)).stop = g.stop := by
    simp only [Extent.stop, HEADER] at touches ⊢
    omega
  have left : e.addr ≤ g.addr := by
    rw [← touches]
    exact Nat.le_add_right ..
  have right : g.addr ≤ g.stop := Nat.le_add_right ..
  rw [Extent.bytes, whole, Extent.bytes, Extent.bytes, touches]
  exact (Set.Ico_union_Ico_eq_Ico left right).symm

variable (p b : Extent) (rest : List Extent)

theorem absorb_contents :
    covered ((absorb b rest).1 :: (absorb b rest).2) = covered (b :: rest) ∧
      units ((absorb b rest).1 :: (absorb b rest).2) = units (b :: rest) := by
  cases rest with
  | nil => exact ⟨rfl, rfl⟩
  | cons n rest =>
    rw [absorb]
    split
    next touches =>
      constructor
      · rw [covered_cons, bytes_glue b n touches, covered_cons, covered_cons, Set.union_assoc]
      · simp only [units_cons]
        omega
    next => exact ⟨rfl, rfl⟩

theorem attach_contents :
    covered (attach p b rest) = covered (p :: b :: rest) ∧ units (attach p b rest) = units (p :: b :: rest) := by
  unfold attach
  split
  next touches =>
    constructor
    · rw [covered_cons, bytes_glue p b touches, covered_cons, covered_cons, Set.union_assoc]
    · simp only [units_cons]
      omega
  next => exact ⟨rfl, rfl⟩

theorem settle_contents :
    covered (settle p b rest) = p.bytes ∪ (b.bytes ∪ covered rest) ∧
      units (settle p b rest) = p.units + (b.units + units rest) := by
  obtain ⟨joined, sum⟩ := attach_contents p (absorb b rest).1 (absorb b rest).2
  obtain ⟨joined', sum'⟩ := absorb_contents b rest
  constructor
  · rw [settle, joined, covered_cons, joined', covered_cons]
  · rw [settle, sum, units_cons, sum', units_cons]

end Contents

section Free

variable {m : Mem} {freep : Nat} {front rest : List Extent} {p b : Extent}

theorem Place.apart (place : Place b p rest) (spaced : Spaced (front ++ p :: rest)) (e : Extent)
    (member : e ∈ front ++ p :: rest) : Apart b.addr e.addr := by
  have header := place.header
  rcases List.mem_append.mp member with before | here
  · have left := ((List.pairwise_append.mp spaced).2.2 e before p List.mem_cons_self).2
    exact Or.inr (by simp only [HEADER] at *; omega)
  · rcases List.mem_cons.mp here with rfl | after
    · exact Or.inr header
    · exact Or.inl (le_trans (b.lt_stop place.positive) (place.right e after))

theorem Spaced.apart (spaced : Spaced (front ++ p :: rest)) (e : Extent) (member : e ∈ rest ++ front) :
    Apart p.addr e.addr := by
  obtain ⟨-, here, across⟩ := List.pairwise_append.mp spaced
  rcases List.mem_append.mp member with after | before
  · exact Or.inl ((List.pairwise_cons.mp here).1 e after).2
  · exact Or.inr (across e before p List.mem_cons_self).2

theorem joinRight_absorbs (list : FreeList m freep (front ++ p :: rest)) (spaced : Spaced (front ++ p :: rest))
    (place : Place b p rest) (held : size m b.addr = b.units)
    (bound : ∀ e ∈ b :: (front ++ p :: rest), e.stop < 2 ^ 32) :
    size (joinRight m b.addr p.addr) b.addr = (absorb b rest).1.units ∧
      (absorb b rest).1.stop < 2 ^ 32 ∧
      ptr (joinRight m b.addr p.addr) b.addr ::
          (((absorb b rest).2 ++ front).map Extent.addr).map (ptr m) =
        ((absorb b rest).2 ++ front).map Extent.addr ++ [p.addr] := by
  have turned : Around (ptr m) (p.addr :: (rest ++ front).map Extent.addr) := by
    have mapped := list.around
    rw [List.map_append, List.map_cons] at mapped
    rw [List.map_append]
    exact mapped.enter
  rw [around_cons] at turned
  have below := bound b List.mem_cons_self
  have stop : plus b.addr (size m b.addr) = b.stop := by
    rw [held]
    exact plus_of_lt below
  have apart := place.apart spaced
  cases rest with
  | nil =>
    -- the successor of the highest block is the lowest one
    have lowest : ptr m p.addr ≤ p.addr := by
      have member : ptr m p.addr ∈ front.map Extent.addr ++ [p.addr] := by
        rw [← List.nil_append front, ← turned]
        exact List.mem_cons_self
      rcases List.mem_append.mp member with before | here
      · obtain ⟨e, inside, same⟩ := List.mem_map.mp before
        have := ((List.pairwise_append.mp spaced).2.2 e inside p List.mem_cons_self).2
        omega
      · exact le_of_eq (List.mem_singleton.mp here)
    have clear : plus b.addr (size m b.addr) ≠ ptr m p.addr := by
      have header := b.lt_stop place.positive
      have left := place.header
      simp only [HEADER] at *
      omega
    obtain ⟨next, units⟩ := joinRight_clear m clear
    exact ⟨units.trans held, below, by rw [next]; exact turned⟩
  | cons n rest =>
    have next : ptr m p.addr = n.addr := (List.cons.inj turned).1
    have after := bound n (by simp)
    have there := list.sizes n (by simp)
    rw [absorb]
    by_cases touches : b.stop = n.addr
    · rw [if_pos touches]
      have sum : b.addr + HEADER * (b.units + n.units) < 2 ^ 32 := by
        simp only [Extent.stop, HEADER] at *
        omega
      obtain ⟨link, units⟩ := joinRight_touching m (apart p (by simp)) (by rw [stop, touches, next])
        (by rw [next]; exact apart n (by simp)) (by rw [next, held, there]; simp only [HEADER] at sum; omega)
      rw [next] at link units
      refine ⟨by rw [units, held, there], sum, ?_⟩
      rw [link]
      exact (List.cons.inj turned).2
    · rw [if_neg touches]
      obtain ⟨link, units⟩ := @joinRight_clear m b.addr p.addr (by rw [stop, next]; exact touches)
      exact ⟨units.trans held, below, by rw [link]; exact turned⟩

theorem joins_settle (list : FreeList m freep (front ++ p :: rest)) (spaced : Spaced (front ++ p :: rest))
    (place : Place b p rest) (held : size m b.addr = b.units)
    (bound : ∀ e ∈ b :: (front ++ p :: rest), e.stop < 2 ^ 32) :
    FreeList (joinLeft (joinRight m b.addr p.addr) b.addr p.addr) p.addr (front ++ settle p b rest) := by
  obtain ⟨units, stop, turned⟩ := joinRight_absorbs list spaced place held bound
  have apart := place.apart spaced
  set m₁ := joinRight m b.addr p.addr with right
  set b' := (absorb b rest).1 with block
  set rest' := (absorb b rest).2 with later
  have home : b'.addr = b.addr := absorb_addr
  have shorter : ∀ e ∈ rest', e ∈ rest := by
    intro e member
    rw [later] at member
    cases rest with
    | nil => exact member
    | cons n rest =>
      rw [absorb] at member
      split at member
      next => exact List.mem_cons_of_mem n member
      next => exact member
  have others : ∀ e ∈ rest' ++ front, e ∈ front ++ p :: rest ∧ Apart p.addr e.addr := by
    intro e member
    refine ⟨?_, spaced.apart e ?_⟩
    · rcases List.mem_append.mp member with after | before
      · simp [shorter e after]
      · simp [before]
    · exact List.mem_append.mpr ((List.mem_append.mp member).imp_left (shorter e))
  have unchanged : ∀ e ∈ front ++ p :: rest, SameHeader m m₁ e.addr :=
    fun e member => joinRight_frame m p.addr (apart e member)
  have kept : ∀ e ∈ rest' ++ front, SameHeader m (joinLeft m₁ b.addr p.addr) e.addr :=
    fun e member => (unchanged e (others e member).1).trans (joinLeft_frame m₁ (others e member).2)
  have keptBlock : SameHeader m₁ (joinLeft m₁ b.addr p.addr) b.addr :=
    joinLeft_frame m₁ (apart p (by simp)).symm
  have before : size m₁ p.addr = p.units := (unchanged p (by simp)).2.trans (list.sizes p (by simp))
  have links : ((rest' ++ front).map Extent.addr).map (ptr (joinLeft m₁ b.addr p.addr)) =
      ((rest' ++ front).map Extent.addr).map (ptr m) := by
    rw [List.map_map, List.map_map]
    exact List.map_congr_left fun e member => (kept e member).1
  have ends : plus p.addr (size m₁ p.addr) = p.stop := by
    rw [before]
    exact plus_of_lt (bound p (by simp))
  have sizes : ∀ e ∈ rest' ++ front, size (joinLeft m₁ b.addr p.addr) e.addr = e.units :=
    fun e member => (kept e member).2.trans (list.sizes e (others e member).1)
  suffices joined : FreeList (joinLeft m₁ b.addr p.addr) p.addr (attach p b' rest' ++ front) from
    joined.isRotated List.isRotated_append
  by_cases touches : p.stop = b.addr
  · have sum : p.units + b'.units < 2 ^ 32 := by
      simp only [Extent.stop, HEADER] at *
      omega
    obtain ⟨link, size⟩ := joinLeft_touching m₁ (apart p (by simp)) (ends.trans touches) (by rw [before, units]; exact sum)
    rw [attach, if_pos (touches.trans home.symm)]
    refine ⟨?_, ?_, by simp⟩
    · rw [List.cons_append, List.map_cons, around_cons, links]
      simp only
      rw [link]
      exact turned
    · intro e member
      rcases List.mem_cons.mp member with rfl | member
      · rw [size, before, units]
      · exact sizes e member
  · have small : b.addr < 2 ^ 32 := by
      have := bound b List.mem_cons_self
      have := b.lt_stop place.positive
      omega
    obtain ⟨link, size⟩ := joinLeft_clear m₁ (fun same => touches (ends.symm.trans same)) small
    rw [attach, if_neg (fun same => touches (same.trans home))]
    refine ⟨?_, ?_, by simp⟩
    · rw [List.cons_append, List.cons_append, List.map_cons, List.map_cons, around_cons, List.map_cons, links, link, home,
        keptBlock.1, turned, List.cons_append]
    · intro e member
      rcases List.mem_cons.mp member with rfl | member
      · rw [size, before]
      · rcases List.mem_cons.mp member with rfl | member
        · rw [home, keptBlock.2, units]
        · exact sizes e member

theorem Spaced.lt (spaced : Spaced (front ++ p :: rest)) (e : Extent) (before : e ∈ front) :
    e.addr < p.addr := by
  have := ((List.pairwise_append.mp spaced).2.2 e before p List.mem_cons_self).2
  simp only [HEADER] at this
  omega

theorem FreeList.wraps (list : FreeList m freep (front ++ [p])) (spaced : Spaced (front ++ [p])) :
    ∃ lowest, (front ++ [p]).head? = some lowest ∧ ptr m p.addr = lowest.addr ∧
      ∀ e ∈ front ++ [p], lowest.addr ≤ e.addr := by
  have around := list.around
  cases front with
  | nil =>
    simp only [List.nil_append, List.map_cons, List.map_nil] at around
    exact ⟨p, rfl, around_single.mp around, by simp⟩
  | cons h front =>
    refine ⟨h, rfl, ?_, ?_⟩
    · rw [List.cons_append, List.map_cons] at around
      exact @Around.next_last _ _ _ _ _ ((h :: front).map Extent.addr) around (by simp)
    · intro e member
      rw [List.cons_append] at member spaced
      rcases List.mem_cons.mp member with rfl | member
      · exact le_refl _
      · have := ((List.pairwise_cons.mp spaced).1 e member).2
        omega

theorem FreeList.next {e d : Extent} {before after : List Extent}
    (list : FreeList m freep (before ++ e :: d :: after)) : ptr m e.addr = d.addr := by
  have around := list.around
  rw [List.map_append, List.map_cons, List.map_cons] at around
  exact around.next

theorem FreeList.next_first {e d : Extent} {after : List Extent} (list : FreeList m freep (e :: d :: after)) :
    ptr m e.addr = d.addr := by
  rw [← List.nil_append (e :: d :: after)] at list
  exact list.next

/-- The loop of `free` stops at the place of the block and nowhere else. -/
theorem atPlace_iff (list : FreeList m freep (front ++ p :: rest)) (spaced : Spaced (front ++ p :: rest))
    (place : Place b p rest) (e : Extent) (member : e ∈ front ++ p :: rest) :
    atPlace m b.addr e.addr = true ↔ e.addr = p.addr := by
  have header := place.header
  have inside := b.lt_stop place.positive
  simp only [atPlace, decide_eq_true_eq]
  rcases List.mem_append.mp member with before | here
  · -- a block before `p` is followed by one that is not behind the place
    obtain ⟨x, z, rfl⟩ := List.append_of_mem before
    have lower := spaced.lt e before
    obtain ⟨d, after, split, low⟩ : ∃ d after, z ++ p :: rest = d :: after ∧ d.addr ≤ p.addr := by
      cases z with
      | nil => exact ⟨p, rest, rfl, le_refl _⟩
      | cons d z => exact ⟨d, z ++ p :: rest, rfl, le_of_lt (spaced.lt d (by simp))⟩
    rw [List.append_assoc, List.cons_append, split] at list spaced
    have next := list.next
    have step : e.addr < d.addr := by
      have := ((List.pairwise_cons.mp (List.pairwise_append.mp spaced).2.1).1 d List.mem_cons_self).2
      simp only [HEADER] at this
      omega
    simp only [HEADER] at *
    omega
  · rcases List.mem_cons.mp here with rfl | after
    · refine ⟨fun _ => rfl, fun _ => ?_⟩
      cases rest with
      | nil =>
        obtain ⟨lowest, -, next, lower⟩ := list.wraps spaced
        have := lower e (by simp)
        simp only [HEADER] at *
        omega
      | cons d rest =>
        have next := list.next
        have beyond := place.right d List.mem_cons_self
        simp only [HEADER] at *
        omega
    · have beyond := place.right e after
      obtain ⟨z, y, rfl⟩ := List.append_of_mem after
      have step : ptr m e.addr < b.addr ∨ e.addr < ptr m e.addr := by
        rw [← List.cons_append, ← List.append_assoc] at list spaced
        cases y with
        | nil =>
          obtain ⟨lowest, -, next, lower⟩ := list.wraps spaced
          have := lower p (by simp)
          simp only [HEADER] at *
          omega
        | cons d y =>
          have next := list.next
          have := ((List.pairwise_cons.mp (List.pairwise_append.mp spaced).2.1).1 d List.mem_cons_self).2
          simp only [HEADER] at *
          omega
      simp only [HEADER] at *
      omega

theorem free_settles (list : FreeList m freep (front ++ p :: rest)) (spaced : Spaced (front ++ p :: rest))
    (place : Place b p rest) (regions : List Extent) (fuel : Nat)
    (enough : (front ++ p :: rest).length ≤ fuel) :
    free fuel ⟨m, some freep, regions⟩ (b.addr + HEADER) =
      some ⟨joinLeft (joinRight m b.addr p.addr) b.addr p.addr, some p.addr, regions⟩ := by
  have found : walk (ptr m) (atPlace m b.addr) fuel freep = some p.addr := by
    apply walk_only list.around list.start (by simp) ?_ fuel (by simpa using enough)
    intro a member
    obtain ⟨e, inside, rfl⟩ := List.mem_map.mp member
    exact atPlace_iff list spaced place e inside
  simp only [free, Nat.add_sub_cancel]
  change (walk (ptr m) (atPlace m b.addr) fuel freep).bind _ = _
  rw [found]
  rfl

theorem exists_place (l : List Extent) (spaced : Spaced l) (positive : 0 < b.units)
    (beside : ∀ e ∈ l, e.stop ≤ b.addr ∧ e.addr + HEADER ≤ b.addr ∨ b.stop ≤ e.addr)
    (below : ∃ e ∈ l, e.addr < b.addr) : ∃ front p rest, l = front ++ p :: rest ∧ Place b p rest := by
  have inside := b.lt_stop positive
  induction l with
  | nil =>
    obtain ⟨e, member, -⟩ := below
    cases member
  | cons e l ih =>
    obtain ⟨first, others⟩ := List.pairwise_cons.mp spaced
    by_cases more : ∃ g ∈ l, g.addr < b.addr
    · obtain ⟨front, p, rest, rfl, place⟩ := ih others (fun g member => beside g (List.mem_cons_of_mem e member)) more
      exact ⟨e :: front, p, rest, rfl, place⟩
    · obtain ⟨g, member, lower⟩ := below
      rcases List.mem_cons.mp member with rfl | member
      · rcases beside g List.mem_cons_self with ⟨left, header⟩ | right
        · refine ⟨[], g, l, rfl, left, header, ?_, positive⟩
          intro d later
          rcases beside d (List.mem_cons_of_mem g later) with ⟨-, low⟩ | high
          · exact absurd ⟨d, later, by simp only [HEADER] at low; omega⟩ more
          · exact high
        · omega
      · exact absurd ⟨g, member, lower⟩ more

end Free

end Lists

end Xv6.Umalloc
