import Xv6.User.Heap

set_option autoImplicit false

/-!
# The invariant of the user's heap

Free blocks and allocated blocks share the memory obtained from `sbrk` between them. `malloc` moves
units from the free list to the program, `free` moves them back, and writes of the program to its
blocks leave the headers alone.
-/

namespace Xv6.Umalloc

open Memory LinkRing

section Rounds

/-! More rounds than needed change nothing. -/

theorem walk_mono {link : Nat → Nat} {stop : Nat → Bool} {fuel fuel' a b : Nat} (le : fuel ≤ fuel')
    (found : walk link stop fuel a = some b) : walk link stop fuel' a = some b := by
  induction fuel generalizing fuel' a with
  | zero => cases found
  | succ fuel ih =>
    obtain ⟨k, rfl⟩ : ∃ k, fuel' = k + 1 := ⟨fuel' - 1, by omega⟩
    rw [walk] at found ⊢
    split at found
    next hit => rw [if_pos hit, found]
    next miss =>
      rw [if_neg miss]
      exact ih (by omega) found

theorem free_mono {fuel fuel' : Nat} {h h' : Heap} {ap : Nat} (le : fuel ≤ fuel')
    (returned : free fuel h ap = some h') : free fuel' h ap = some h' := by
  cases start : h.freep with
  | none => simp [free, start] at returned
  | some freep =>
    cases found : walk (ptr h.mem) (atPlace h.mem (ap - HEADER)) fuel freep with
    | none => simp [free, start, found] at returned
    | some p =>
      simp only [free, start, Option.bind_eq_bind, Option.bind_some, found, walk_mono le found] at returned ⊢
      exact returned

theorem morecore_mono {fuel fuel' : Nat} {sbrk : Sbrk} {h : Heap} {nu : Nat} {r : Heap × Option Nat}
    (le : fuel ≤ fuel') (returned : morecore fuel sbrk h nu = some r) : morecore fuel' sbrk h nu = some r := by
  simp only [morecore] at returned ⊢
  split at returned
  next => exact returned
  next p answer =>
    obtain ⟨h', freed, result⟩ := Option.map_eq_some_iff.mp returned
    simp only [free_mono le freed, Option.map_some, result]

theorem mallocLoop_mono {fuel fuel' : Nat} {sbrk : Sbrk} {n : Nat} {h : Heap} {prevp p : Nat} {r : Heap × Nat}
    (le : fuel ≤ fuel') (returned : mallocLoop sbrk n fuel h prevp p = some r) :
    mallocLoop sbrk n fuel' h prevp p = some r := by
  induction fuel generalizing fuel' h prevp p with
  | zero => cases returned
  | succ fuel ih =>
    obtain ⟨k, rfl⟩ : ∃ k, fuel' = k + 1 := ⟨fuel' - 1, by omega⟩
    rw [mallocLoop] at returned ⊢
    split at returned
    next fits => rw [if_pos fits, returned]
    next small =>
      rw [if_neg small]
      split at returned
      next around =>
        rw [if_pos around]
        cases more : morecore fuel sbrk h n with
        | none => simp [more] at returned
        | some result =>
          rw [more] at returned
          rw [morecore_mono (by omega : fuel ≤ k) more]
          obtain ⟨h', _ | p'⟩ := result
          · exact returned
          · exact ih (by omega) returned
      next later =>
        rw [if_neg later]
        exact ih (by omega) returned

theorem malloc_mono {base fuel fuel' : Nat} {sbrk : Sbrk} {h : Heap} {nbytes : Nat} {r : Heap × Nat} (le : fuel ≤ fuel')
    (returned : malloc base fuel sbrk h nbytes = some r) : malloc base fuel' sbrk h nbytes = some r := by
  unfold malloc at returned ⊢
  split at returned <;> exact mallocLoop_mono le returned

end Rounds

/-- The memory from `sbrk` is shared between the pool and the program. -/
structure Holds (base : Nat) (m : Mem) (freep : Nat) (l allocated regions : List Extent) : Prop where
  pool : Pool base m freep l
  sizes : ∀ e ∈ allocated, size m e.addr = e.units
  positive : ∀ e ∈ allocated, 0 < e.units
  apart : allocated.Pairwise fun e g => Disjoint e.bytes g.bytes
  free : Disjoint (covered allocated) (covered l)
  inside : covered l ∪ covered allocated ⊆ covered regions
  range : ∀ r ∈ regions, base + HEADER ≤ r.addr ∧ r.stop < 2 ^ 32
  total : units l + units allocated = units regions

section Operations

variable {base : Nat} {m m' : Mem} {freep freep' : Nat} {l l' allocated regions : List Extent}

theorem Holds.above (holds : Holds base m freep l allocated regions) (e : Extent) (member : e ∈ allocated) :
    base + HEADER ≤ e.addr ∧ e.stop < 2 ^ 32 := by
  have within : e.bytes ⊆ covered regions :=
    (covered_mono member).trans (Set.subset_union_right.trans holds.inside)
  obtain ⟨⟨r, first, low, -⟩, r', last, high⟩ := bounds_of_covered (holds.positive e member) within
  have := (holds.range r first).1
  have := (holds.range r' last).2
  exact ⟨by omega, by omega⟩

theorem Holds.disjoint (holds : Holds base m freep l allocated regions) (e : Extent) (member : e ∈ allocated) :
    Disjoint e.bytes (covered l) := holds.free.mono_left (covered_mono member)

theorem Holds.others (holds : Holds base m freep l allocated regions) (e : Extent) (member : e ∈ allocated) :
    (∀ g ∈ allocated.erase e, Disjoint e.bytes g.bytes) ∧
      (allocated.erase e).Pairwise fun e g => Disjoint e.bytes g.bytes :=
  List.pairwise_cons.mp (((List.perm_cons_erase member).pairwise_iff fun {_ _} disjoint => Disjoint.symm disjoint).mp
    holds.apart)

theorem Holds.carve (holds : Holds base m freep l allocated regions) {b : Extent} (positive : 0 < b.units)
    (carved : Carved base m l b m' freep' l') : Holds base m' freep' l' (b :: allocated) regions where
  pool := carved.pool
  sizes := by
    intro e member
    rcases List.mem_cons.mp member with rfl | old
    · exact carved.held
    · rw [(carved.frame e (holds.positive e old) (holds.above e old).1 (holds.disjoint e old)).2]
      exact holds.sizes e old
  positive := by
    intro e member
    rcases List.mem_cons.mp member with rfl | old
    · exact positive
    · exact holds.positive e old
  apart := by
    refine List.pairwise_cons.mpr ⟨?_, holds.apart⟩
    intro e old
    have outside := holds.disjoint e old
    rw [carved.covers] at outside
    exact (outside.mono_right Set.subset_union_right).symm
  free := by
    have outside := holds.free
    rw [carved.covers] at outside
    rw [covered_cons]
    exact Set.disjoint_union_left.mpr ⟨carved.disjoint.symm, outside.mono_right Set.subset_union_left⟩
  inside := by
    have within := holds.inside
    rw [carved.covers, Set.union_assoc] at within
    rwa [covered_cons]
  range := holds.range
  total := by
    have total := holds.total
    rw [carved.total] at total
    rw [units_cons]
    omega

theorem Holds.grow (holds : Holds base m freep l allocated regions) {g : Extent} (positive : 0 < g.units)
    (fresh : ∀ r ∈ regions, r.stop ≤ g.addr) (above : base + HEADER ≤ g.addr) (below : g.stop < 2 ^ 32)
    (returned : Returned base (setSize m g.addr g.units) l g m' freep' l') :
    Holds base m' freep' l' allocated (regions ++ [g]) := by
  have outside : Disjoint (covered regions) g.bytes := by
    rw [Set.disjoint_left]
    rintro x ⟨r, member, -, low⟩ ⟨high, -⟩
    have := fresh r member
    omega
  have within := Set.subset_union_right.trans holds.inside
  constructor
  · exact returned.pool
  · intro e member
    have some_ := holds.positive e member
    have apart : Disjoint e.bytes g.bytes := outside.mono_left ((covered_mono member).trans within)
    have kept := returned.frame e some_ (holds.above e member).1 (Set.disjoint_union_right.mpr ⟨holds.disjoint e member, apart⟩)
    have header : Apart g.addr e.addr := by
      have inside := e.lt_stop some_
      have inside' := g.lt_stop positive
      rcases stop_le_of_disjoint some_ positive apart with left | right
      · exact Or.inr (by omega)
      · exact Or.inl (by omega)
    rw [kept.2, (setSize_sameHeader m header).2]
    exact holds.sizes e member
  · exact holds.positive
  · exact holds.apart
  · rw [returned.covers]
    exact Set.disjoint_union_right.mpr ⟨holds.free, outside.mono_left within⟩
  · rw [returned.covers, covered_append, covered_cons, covered_nil, Set.union_empty]
    intro x inside
    rcases inside with (old | new) | taken
    · exact Or.inl (holds.inside (Or.inl old))
    · exact Or.inr new
    · exact Or.inl (holds.inside (Or.inr taken))
  · intro r member
    rcases List.mem_append.mp member with old | new
    · exact holds.range r old
    · rw [List.mem_singleton.mp new]
      exact ⟨above, below⟩
  · have total := holds.total
    rw [returned.total, units_append, units_cons, units_nil]
    omega

theorem Holds.release (holds : Holds base m freep l allocated regions) {b : Extent} (member : b ∈ allocated)
    (returned : Returned base m l b m' freep' l') : Holds base m' freep' l' (allocated.erase b) regions := by
  have perm := List.perm_cons_erase member
  have fewer : ∀ e ∈ allocated.erase b, e ∈ allocated := fun e inside => List.mem_of_mem_erase inside
  obtain ⟨others, rest⟩ := holds.others b member
  have covers : covered allocated = b.bytes ∪ covered (allocated.erase b) := by
    rw [← covered_cons]
    ext x
    exact ⟨fun ⟨e, inside, here⟩ => ⟨e, perm.mem_iff.mp inside, here⟩,
      fun ⟨e, inside, here⟩ => ⟨e, perm.mem_iff.mpr inside, here⟩⟩
  have total : units allocated = b.units + units (allocated.erase b) := by
    rw [← units_cons]
    exact (perm.map Extent.units).sum_eq
  constructor
  · exact returned.pool
  · intro e inside
    have old := fewer e inside
    have outside := Set.disjoint_union_right.mpr ⟨holds.disjoint e old, (others e inside).symm⟩
    rw [(returned.frame e (holds.positive e old) (holds.above e old).1 outside).2]
    exact holds.sizes e old
  · exact fun e inside => holds.positive e (fewer e inside)
  · exact rest
  · have free := holds.free
    rw [covers] at free
    rw [returned.covers]
    refine Set.disjoint_union_right.mpr ⟨free.mono_left Set.subset_union_right, ?_⟩
    rw [Set.disjoint_left]
    rintro x ⟨e, inside, here⟩ there
    exact Set.disjoint_left.mp (others e inside) there here
  · have inside := holds.inside
    rw [covers] at inside
    rw [returned.covers, Set.union_assoc]
    exact inside
  · exact holds.range
  · have sum := holds.total
    rw [returned.total]
    omega

theorem Holds.write (holds : Holds base m freep l allocated regions) {e : Extent} (member : e ∈ allocated) (a : Nat)
    (v : UInt8) (low : e.addr + HEADER ≤ a) (high : a < e.stop) :
    Holds base (store m ⟨a, [v]⟩) freep l allocated regions := by
  have inside : a ∈ e.bytes := ⟨by omega, high⟩
  -- no header of another block contains the byte
  have away (c : Nat) (outside : c + HEADER ≤ a ∨ a < c) : SameHeader m (store m ⟨a, [v]⟩) c := by
    apply store_sameHeader
    rcases outside with left | right
    · exact Or.inr left
    · exact Or.inl (by simp only [Store.stop, List.length_singleton]; omega)
  have aside (g : Extent) (some_ : 0 < g.units) (disjoint : a ∉ g.bytes) : g.addr + HEADER ≤ a ∨ a < g.addr := by
    have header := g.lt_stop some_
    by_contra within
    exact disjoint ⟨by omega, by omega⟩
  refine ⟨holds.pool.sameHeaders ?_, ?_, holds.positive, holds.apart, holds.free, holds.inside, holds.range, holds.total⟩
  · intro g free
    apply away
    rcases holds.pool.real g free with rfl | ⟨some_, -⟩
    · have := (holds.above e member).1
      exact Or.inl (by simp only at *; omega)
    · exact aside g some_ fun here =>
        Set.disjoint_left.mp holds.free (covered_mono member inside) (covered_mono free here)
  · intro g other
    rw [(away g.addr ?_).2]
    · exact holds.sizes g other
    · by_cases same : g = e
      · rw [same]
        exact Or.inl low
      · apply aside g (holds.positive g other)
        intro here
        have apart := (holds.others e member).1 g ((List.mem_erase_of_ne same).mpr other)
        exact Set.disjoint_left.mp apart inside here

end Operations

section Runs

variable {base : Nat}

/-- Either `malloc` has not been called, or the memory is shared as it should be. -/
def Sound (base : Nat) (s : State) : Prop :=
  Initial s ∨ ∃ freep l, s.heap.freep = some freep ∧ Holds base s.heap.mem freep l s.allocated s.heap.regions

theorem nunits_bounds (nbytes : Nat) (small : nbytes ≤ 2 ^ 31 - 16) :
    0 < nunits nbytes ∧ nunits nbytes < 2 ^ 28 ∧ nbytes ≤ HEADER * (nunits nbytes - 1) := by
  simp only [nunits, HEADER]
  omega

theorem base_pool (m : Mem) (fits : base + HEADER ≤ 2 ^ 32) :
    Pool base (setSize (setPtr m base base) base 0) base [⟨base, 0⟩] where
  list := by
    refine ⟨around_single.mpr ?_, ?_, by simp⟩
    · rw [ptr_setSize, ptr_setPtr m (by simp only [HEADER] at fits; omega)]
    · intro e member
      rw [List.mem_singleton.mp member]
      exact size_setSize _ (by decide)
  spaced := List.pairwise_singleton _ _
  member := List.mem_singleton_self _
  real := fun e member => Or.inl (List.mem_singleton.mp member)
  bound := by
    intro e member
    rw [List.mem_singleton.mp member]
    simp only [Extent.stop, HEADER] at fits ⊢
    omega

theorem base_holds (m : Mem) (fits : base + HEADER ≤ 2 ^ 32) :
    Holds base (setSize (setPtr m base base) base 0) base [⟨base, 0⟩] [] [] where
  pool := base_pool m fits
  sizes := by simp
  positive := by simp
  apart := List.Pairwise.nil
  free := by simp
  inside := by simp [base_bytes]
  range := by simp
  total := by simp

theorem Sound.malloc {s : State} (sound : Sound base s) (fits : base + HEADER ≤ 2 ^ 32) (sbrk : Sbrk) (nbytes : Nat)
    (small : nbytes ≤ 2 ^ 31 - 16) (fresh : FreshAt base sbrk s.heap.regions) :
    ∃ m freep l h p, Holds base m freep l s.allocated s.heap.regions ∧
      Served base m freep l s.heap.regions (nunits nbytes) h p ∧
      (p = 0 → sbrk s.heap.regions ((if nunits nbytes < 4096 then 4096 else nunits nbytes) * HEADER) = none) ∧
      (h.regions = s.heap.regions ∨ ∃ g, h.regions = s.heap.regions ++ [g] ∧ g.units < 2 ^ 28 ∧
        sbrk s.heap.regions (g.units * HEADER) = some g.addr) ∧
      ∀ fuel, 2 * l.length + 2 ≤ fuel → malloc base fuel sbrk s.heap nbytes = some (h, p) := by
  obtain ⟨positive, less, -⟩ := nunits_bounds nbytes small
  rcases sound with initial | ⟨freep, l, start, holds⟩
  · have holds : Holds base _ base [⟨base, 0⟩] [] [] := base_holds s.heap.mem fits
    have obtained : covered [⟨base, 0⟩] ⊆ covered [] := by simp [base_bytes]
    rw [initial.regions] at fresh
    obtain ⟨h, p, served, refused, grown, run⟩ := holds.pool.malloc positive less obtained fresh
    rw [initial.allocated, initial.regions]
    refine ⟨_, _, _, h, p, holds, served, refused, grown, ?_⟩
    intro fuel enough
    rw [Umalloc.malloc, initial.freep]
    simp only [initial.regions]
    exact run fuel enough
  · obtain ⟨h, p, served, refused, grown, run⟩ :=
      holds.pool.malloc positive less (Set.subset_union_left.trans holds.inside) fresh
    refine ⟨_, _, _, h, p, holds, served, refused, grown, ?_⟩
    intro fuel enough
    have heap : s.heap = ⟨s.heap.mem, some freep, s.heap.regions⟩ := by rw [← start]
    rw [Umalloc.malloc, start, heap]
    exact run fuel enough

theorem Served.sound {m : Mem} {freep n p : Nat} {l allocated regions : List Extent} {h : Heap} (positive : 0 < n)
    (holds : Holds base m freep l allocated regions) (served : Served base m freep l regions n h p) :
    Sound base
        { heap := h
          allocated := if p = 0 then allocated else ⟨p - HEADER, size h.mem (p - HEADER)⟩ :: allocated } ∧
      (p ≠ 0 → HEADER ≤ p ∧ size h.mem (p - HEADER) = n) := by
  have pointer (b : Extent) : b.addr + HEADER ≠ 0 := by simp
  have block (b : Extent) (m' : Mem) (held : size m' b.addr = b.units) :
      Extent.mk (b.addr + HEADER - HEADER) (size m' (b.addr + HEADER - HEADER)) = b := by
    rw [Nat.add_sub_cancel, held]
  cases served with
  | refused => exact ⟨Or.inr ⟨freep, l, rfl, by simpa using holds⟩, by simp⟩
  | found m' freep' l' b carved size =>
    refine ⟨Or.inr ⟨freep', l', rfl, ?_⟩, fun _ => ⟨by omega, ?_⟩⟩
    · simp only [if_neg (pointer b), block b m' carved.held]
      exact holds.carve (size ▸ positive) carved
    · simp only [Nat.add_sub_cancel, carved.held, size]
  | grown g m₁ freep₁ l₁ m' freep' l' b fresh above below some_ returned carved size =>
    refine ⟨Or.inr ⟨freep', l', rfl, ?_⟩, fun _ => ⟨by omega, ?_⟩⟩
    · simp only [if_neg (pointer b), block b m' carved.held]
      exact (holds.grow some_ fresh above below returned).carve (size ▸ positive) carved
    · simp only [Nat.add_sub_cancel, carved.held, size]

theorem Sound.free {s : State} (sound : Sound base s) (e : Extent) (held : e ∈ s.allocated) :
    ∃ enough h, Sound base { heap := h, allocated := s.allocated.erase e } ∧
      ∀ fuel, enough ≤ fuel → free fuel s.heap (e.addr + HEADER) = some h := by
  rcases sound with initial | ⟨freep, l, start, holds⟩
  · rw [initial.allocated] at held
    cases held
  · obtain ⟨above, below⟩ := holds.above e held
    obtain ⟨m', freep', l', returned, run⟩ := holds.pool.free (holds.positive e held) above below
      (holds.disjoint e held) (holds.sizes e held) s.heap.regions
    have heap : s.heap = ⟨s.heap.mem, some freep, s.heap.regions⟩ := by rw [← start]
    refine ⟨l.length, ⟨m', some freep', s.heap.regions⟩, Or.inr ⟨freep', l', rfl, holds.release held returned⟩, ?_⟩
    intro fuel enough
    rw [heap]
    exact run fuel enough

theorem Sound.step {s s' : State} (sound : Sound base s) (fits : base + HEADER ≤ 2 ^ 32) (step : Step base s s') :
    Sound base s' := by
  cases step with
  | malloc fuel sbrk nbytes h p small fresh returned =>
    obtain ⟨m, freep, l, h', p', holds, served, -, -, run⟩ := sound.malloc fits sbrk nbytes small (fresh.at _)
    have both := run (max fuel (2 * l.length + 2)) (le_max_right ..)
    have same := malloc_mono (le_max_left fuel (2 * l.length + 2)) returned
    obtain ⟨rfl, rfl⟩ := Prod.mk.inj (Option.some.inj (both.symm.trans same))
    exact (served.sound (nunits_bounds nbytes small).1 holds).1
  | free fuel e h held returned =>
    obtain ⟨enough, h', after, run⟩ := sound.free e held
    have both := run (max fuel enough) (le_max_right ..)
    cases both.symm.trans (free_mono (le_max_left ..) returned)
    exact after
  | write e a v held low high =>
    rcases sound with initial | ⟨freep, l, start, holds⟩
    · rw [initial.allocated] at held
      cases held
    · exact Or.inr ⟨freep, l, start, holds.write held a v low high⟩

theorem Reachable.sound {s : State} (fits : base + HEADER ≤ 2 ^ 32) (reached : Reachable base s) : Sound base s := by
  obtain ⟨start, initial, run⟩ := reached
  induction run with
  | refl => exact Or.inl initial
  | tail _ step ih => exact ih.step fits step

end Runs

/-- What a program may rely on once it has called `malloc`. The list `l` is the circle of free blocks
from its lowest block on. -/
structure Consistent (base : Nat) (s : State) (freep : Nat) (l : List Extent) : Prop where
  circular : Around (ptr s.heap.mem) (l.map Extent.addr)
  through : freep ∈ l.map Extent.addr
  sorted : (l.map Extent.addr).Pairwise (· < ·)
  anchor : ⟨base, 0⟩ ∈ l
  sizes : ∀ e ∈ l, size s.heap.mem e.addr = e.units
  disjoint : l.Pairwise fun e g => Disjoint e.bytes g.bytes
  inside : ∀ e ∈ l ++ s.allocated, e = ⟨base, 0⟩ ∨ 0 < e.units ∧ e.bytes ⊆ covered s.heap.regions
  separate : ∀ e ∈ l, ∀ g ∈ l, e ≠ g → e.stop ≠ g.addr
  allocated : s.allocated.Pairwise fun e g => Disjoint e.bytes g.bytes
  exclusive : ∀ e ∈ s.allocated, ∀ g ∈ l, Disjoint e.bytes g.bytes
  total : units l + units s.allocated = units s.heap.regions

theorem Holds.consistent {base : Nat} {s : State} {freep : Nat} {l : List Extent}
    (holds : Holds base s.heap.mem freep l s.allocated s.heap.regions) : Consistent base s freep l where
  circular := holds.pool.list.around
  through := holds.pool.list.start
  sorted := by
    rw [List.pairwise_map]
    refine holds.pool.spaced.imp ?_
    intro e g ⟨_, apart⟩
    simp only [HEADER] at apart
    omega
  anchor := holds.pool.member
  sizes := holds.pool.list.sizes
  disjoint := by
    refine holds.pool.spaced.imp ?_
    intro e g ⟨apart, _⟩
    rw [Set.disjoint_left]
    rintro x ⟨-, high⟩ ⟨low, -⟩
    omega
  inside := by
    intro e member
    rcases List.mem_append.mp member with free | held
    · have within := (covered_mono free).trans (Set.subset_union_left.trans holds.inside)
      exact (holds.pool.real e free).imp_right fun real => ⟨real.1, within⟩
    · exact Or.inr ⟨holds.positive e held, (covered_mono held).trans (Set.subset_union_right.trans holds.inside)⟩
  separate := by
    intro e first g second other touches
    obtain ⟨front, rest, rfl⟩ := List.append_of_mem first
    obtain ⟨-, here, across⟩ := List.pairwise_append.mp holds.pool.spaced
    simp only [List.mem_append, List.mem_cons] at second
    rcases second with before | rfl | after
    · have := (across g before e List.mem_cons_self).2
      have : e.addr ≤ e.stop := Nat.le_add_right ..
      simp only [HEADER] at *
      omega
    · exact other rfl
    · have := ((List.pairwise_cons.mp here).1 g after).1
      omega
  allocated := holds.apart
  exclusive := fun e member g free => (holds.disjoint e member).mono_right (covered_mono free)
  total := holds.total

/-- The user's heap, after any calls of `malloc` and `free` and any writes of the program to its blocks:
the free list is one circle through `freep` in the order of the addresses, free and allocated blocks
are apart, lie in memory from `sbrk` and add up to it, and both functions return. `malloc` returns a
block with room for what was asked, or 0 if `sbrk` has refused. -/
theorem heap_consistent (base : Nat) (fits : base + HEADER ≤ 2 ^ 32) (s : State) (reached : Reachable base s) :
    (s.heap.freep = none → s.allocated = [] ∧ s.heap.regions = []) ∧
      (∀ freep, s.heap.freep = some freep → ∃ l, Consistent base s freep l) ∧
      (∀ nbytes sbrk, nbytes ≤ 2 ^ 31 - 16 → Fresh base sbrk → ∃ enough h p,
        (∀ fuel, enough ≤ fuel → malloc base fuel sbrk s.heap nbytes = some (h, p)) ∧
        (p = 0 → sbrk s.heap.regions ((if nunits nbytes < 4096 then 4096 else nunits nbytes) * HEADER) = none) ∧
        (p ≠ 0 → HEADER ≤ p ∧ nbytes ≤ HEADER * (size h.mem (p - HEADER) - 1))) ∧
      ∀ e ∈ s.allocated, ∃ enough h, ∀ fuel, enough ≤ fuel → free fuel s.heap (e.addr + HEADER) = some h := by
  have sound := reached.sound fits
  refine ⟨?_, ?_, ?_, ?_⟩
  · intro none
    rcases sound with initial | ⟨freep, l, start, -⟩
    · exact ⟨initial.allocated, initial.regions⟩
    · rw [none] at start
      cases start
  · intro freep start
    rcases sound with initial | ⟨freep', l, start', holds⟩
    · rw [initial.freep] at start
      cases start
    · cases start.symm.trans start'
      exact ⟨l, holds.consistent⟩
  · intro nbytes sbrk small fresh
    obtain ⟨positive, -, room⟩ := nunits_bounds nbytes small
    obtain ⟨m, freep, l, h, p, holds, served, refused, -, run⟩ := sound.malloc fits sbrk nbytes small (fresh.at _)
    refine ⟨_, h, p, run, refused, ?_⟩
    intro some_
    obtain ⟨low, size⟩ := (served.sound positive holds).2 some_
    exact ⟨low, by rw [size]; exact room⟩
  · intro e held
    obtain ⟨enough, h, -, run⟩ := sound.free e held
    exact ⟨enough, h, run⟩

-- A program whose first request is served from 32 kB at address 0x4000.
def blank : State := ⟨⟨fun _ => 0, none, []⟩, []⟩

def once : Sbrk := fun regions bytes => if regions = [] ∧ bytes < 2 ^ 31 then some 0x4000 else none

theorem once_fresh : Fresh 0x1000 once := by
  intro regions bytes p answer
  simp only [once] at answer
  split at answer
  next first =>
    cases answer
    refine ⟨by simp [first.1], by decide, ?_⟩
    have := first.2
    omega
  next => cases answer

theorem blank_malloc :
    (malloc 0x1000 8 once blank.heap 100).map (fun r => (r.1.freep, r.2)) = some (some 0x1000, 0xbf98) := by
  decide +kernel

theorem heap_consistent_first :
    ∃ s : State, s.allocated.length = 1 ∧ Reachable 0x1000 s ∧ ∃ l, Consistent 0x1000 s 0x1000 l := by
  have evaluated := blank_malloc
  cases result : malloc 0x1000 8 once blank.heap 100 with
  | none => simp [result] at evaluated
  | some r =>
    obtain ⟨h, p⟩ := r
    simp only [result, Option.map_some, Option.some.injEq, Prod.mk.injEq] at evaluated
    obtain ⟨start, rfl⟩ := evaluated
    have step := @Step.malloc 0x1000 blank 8 once 100 h _ (by decide) once_fresh result
    have reached : Reachable 0x1000 _ := ⟨blank, ⟨rfl, rfl, rfl⟩, Relation.ReflTransGen.single step⟩
    exact ⟨_, by simp [blank], reached, (heap_consistent 0x1000 (by decide) _ reached).2.1 _ start⟩

end Xv6.Umalloc
