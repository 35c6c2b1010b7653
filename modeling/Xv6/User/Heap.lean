import Xv6.User.Malloc

set_option autoImplicit false

/-!
# The heap over whole runs

The free blocks, the blocks that the program has and the memory obtained from `sbrk` always fit
together, whatever the program allocates, frees and writes.
-/

namespace Xv6.Umalloc

open Memory LinkRing

section Pools

/-- The free list with `base` in it, in an address space of 32 bits. -/
structure Pool (base : Nat) (m : Mem) (freep : Nat) (l : List Extent) : Prop where
  list : FreeList m freep l
  spaced : Spaced l
  member : ⟨base, 0⟩ ∈ l
  real : ∀ e ∈ l, e = ⟨base, 0⟩ ∨ 0 < e.units ∧ base + HEADER ≤ e.addr
  bound : ∀ e ∈ l, e.stop < 2 ^ 32

variable {base : Nat} {m : Mem} {freep : Nat} {l : List Extent}

theorem stop_le_of_disjoint {e g : Extent} (some_ : 0 < e.units) (some_' : 0 < g.units)
    (disjoint : Disjoint e.bytes g.bytes) : e.stop ≤ g.addr ∨ g.stop ≤ e.addr := by
  by_contra overlap
  have inside := e.lt_stop some_
  have inside' := g.lt_stop some_'
  simp only [HEADER] at *
  have common : max e.addr g.addr ∈ e.bytes ∧ max e.addr g.addr ∈ g.bytes := by
    simp only [Extent.bytes, Set.mem_Ico]
    omega
  exact Set.disjoint_left.mp disjoint common.1 common.2

theorem covered_mono {e : Extent} (member : e ∈ l) : e.bytes ⊆ covered l := fun _ inside => ⟨e, member, inside⟩

theorem base_bytes (base : Nat) : (Extent.mk base 0).bytes = ∅ := by
  simp [Extent.bytes, Extent.stop]

theorem Pool.beside (pool : Pool base m freep l) {b : Extent} (positive : 0 < b.units)
    (above : base + HEADER ≤ b.addr) (disjoint : Disjoint b.bytes (covered l)) (e : Extent) (member : e ∈ l) :
    e.stop ≤ b.addr ∧ e.addr + HEADER ≤ b.addr ∨ b.stop ≤ e.addr := by
  rcases pool.real e member with rfl | ⟨some_, -⟩
  · exact Or.inl ⟨by simp only [Extent.stop, HEADER] at *; omega, above⟩
  · have apart := disjoint.mono_right (covered_mono member)
    have inside := e.lt_stop some_
    rcases stop_le_of_disjoint positive some_ apart with right | left
    · exact Or.inr right
    · exact Or.inl ⟨left, by omega⟩

theorem Pool.apart (pool : Pool base m freep l) {b : Extent} (positive : 0 < b.units)
    (above : base + HEADER ≤ b.addr) (disjoint : Disjoint b.bytes (covered l)) (e : Extent) (member : e ∈ l) :
    Apart e.addr b.addr := by
  have inside := b.lt_stop positive
  rcases pool.beside positive above disjoint e member with ⟨-, header⟩ | right
  · exact Or.inl header
  · exact Or.inr (by omega)

theorem bounds_of_covered {e : Extent} {blocks : List Extent} (positive : 0 < e.units)
    (inside : e.bytes ⊆ covered blocks) :
    (∃ g ∈ blocks, g.addr ≤ e.addr ∧ 0 < g.units) ∧ ∃ g ∈ blocks, e.stop ≤ g.stop := by
  have header := e.lt_stop positive
  simp only [HEADER] at header
  obtain ⟨g, member, low, high⟩ := inside (show e.addr ∈ e.bytes from ⟨le_refl _, by omega⟩)
  obtain ⟨g', member', -, last⟩ := inside (show e.stop - 1 ∈ e.bytes from ⟨by omega, by omega⟩)
  refine ⟨⟨g, member, low, ?_⟩, g', member', by omega⟩
  by_contra none
  have zero : g.units = 0 := by omega
  simp only [Extent.stop, zero, HEADER] at high
  omega

theorem settle_mem {p b e : Extent} {rest : List Extent} (positive : 0 < b.units) (member : e ∈ settle p b rest) :
    e = p ∨ e ∈ rest ∨ 0 < e.units := by
  have absorbed : 0 < (absorb b rest).1.units ∧ ∀ g ∈ (absorb b rest).2, g ∈ rest := by
    cases rest with
    | nil => exact ⟨positive, fun g inside => inside⟩
    | cons n rest =>
      rw [absorb]
      split
      next => exact ⟨by simp only; omega, fun g inside => List.mem_cons_of_mem n inside⟩
      next => exact ⟨positive, fun g inside => inside⟩
  unfold settle attach at member
  split at member
  next =>
    rcases List.mem_cons.mp member with rfl | later
    · exact Or.inr (Or.inr (by simp only; omega))
    · exact Or.inr (Or.inl (absorbed.2 e later))
  next =>
    rcases List.mem_cons.mp member with rfl | member
    · exact Or.inl rfl
    · rcases List.mem_cons.mp member with rfl | later
      · exact Or.inr (Or.inr absorbed.1)
      · exact Or.inr (Or.inl (absorbed.2 e later))

theorem settle_size (p b : Extent) (rest : List Extent) :
    (∃ q ∈ settle p b rest, b.units ≤ q.units) ∧ (settle p b rest).length ≤ rest.length + 2 := by
  have absorbed : b.units ≤ (absorb b rest).1.units ∧ (absorb b rest).2.length ≤ rest.length := by
    cases rest with
    | nil => exact ⟨le_refl _, le_refl _⟩
    | cons n rest =>
      rw [absorb]
      split
      next => exact ⟨by simp only; omega, by simp⟩
      next => exact ⟨le_refl _, le_refl _⟩
  unfold settle attach
  split
  next => exact ⟨⟨_, List.mem_cons_self, by simp only; omega⟩, by rw [List.length_cons]; omega⟩
  next =>
    refine ⟨⟨_, List.mem_cons_of_mem p List.mem_cons_self, absorbed.1⟩, ?_⟩
    rw [List.length_cons, List.length_cons]
    omega

theorem Pool.sameHeaders (pool : Pool base m freep l) {m' : Mem} (same : ∀ e ∈ l, SameHeader m m' e.addr) :
    Pool base m' freep l where
  list := by
    refine ⟨pool.list.around.congr ?_, fun e member => (same e member).2.trans (pool.list.sizes e member), pool.list.start⟩
    intro a member
    obtain ⟨e, inside, rfl⟩ := List.mem_map.mp member
    exact (same e inside).1
  spaced := pool.spaced
  member := pool.member
  real := pool.real
  bound := pool.bound

-- The headers of blocks elsewhere are the same in both memories.
def Elsewhere (base : Nat) (m m' : Mem) (taken : Set Nat) : Prop :=
  ∀ e : Extent, 0 < e.units → base + HEADER ≤ e.addr → Disjoint e.bytes taken → SameHeader m m' e.addr

/-- The block `b` has been added to the pool. -/
structure Returned (base : Nat) (m : Mem) (l : List Extent) (b : Extent) (m' : Mem) (freep : Nat)
    (l' : List Extent) : Prop where
  pool : Pool base m' freep l'
  covers : covered l' = covered l ∪ b.bytes
  total : units l' = units l + b.units
  -- a block of the list has become at least as large as `b`, and the list at most one block longer
  holds : ∃ q ∈ l', b.units ≤ q.units
  length : l'.length ≤ l.length + 1
  frame : Elsewhere base m m' (covered l ∪ b.bytes)

/-- The block `b` has been cut out of the pool. -/
structure Carved (base : Nat) (m : Mem) (l : List Extent) (b : Extent) (m' : Mem) (freep : Nat)
    (l' : List Extent) : Prop where
  pool : Pool base m' freep l'
  covers : covered l = covered l' ∪ b.bytes
  disjoint : Disjoint (covered l') b.bytes
  total : units l = units l' + b.units
  held : size m' b.addr = b.units
  frame : Elsewhere base m m' (covered l)

theorem Pool.free (pool : Pool base m freep l) {b : Extent} (positive : 0 < b.units)
    (above : base + HEADER ≤ b.addr) (below : b.stop < 2 ^ 32) (disjoint : Disjoint b.bytes (covered l))
    (held : size m b.addr = b.units) (regions : List Extent) :
    ∃ m' freep' l', Returned base m l b m' freep' l' ∧
      ∀ fuel, l.length ≤ fuel →
        free fuel ⟨m, some freep, regions⟩ (b.addr + HEADER) = some ⟨m', some freep', regions⟩ := by
  obtain ⟨front, p, rest, rfl, place⟩ := exists_place l pool.spaced positive
    (pool.beside positive above disjoint) ⟨⟨base, 0⟩, pool.member, by simp only [HEADER] at above ⊢; omega⟩
  have bound : ∀ e ∈ b :: (front ++ p :: rest), e.stop < 2 ^ 32 := by
    intro e member
    rcases List.mem_cons.mp member with rfl | member
    · exact below
    · exact pool.bound e member
  obtain ⟨contents, total⟩ := settle_contents p b rest
  have covers : covered (front ++ settle p b rest) = covered (front ++ p :: rest) ∪ b.bytes := by
    rw [covered_append, contents, covered_append, covered_cons]
    ext x
    simp only [Set.mem_union]
    tauto
  have kept : ∀ e ∈ front ++ settle p b rest, e = ⟨base, 0⟩ ∨ 0 < e.units := by
    intro e member
    rcases List.mem_append.mp member with before | here
    · exact (pool.real e (by simp [before])).imp_right And.left
    · rcases settle_mem positive here with rfl | after | some_
      · exact (pool.real e (by simp)).imp_right And.left
      · exact (pool.real e (by simp [after])).imp_right And.left
      · exact Or.inr some_
  have within : ∀ e ∈ front ++ settle p b rest, e.bytes ⊆ covered (b :: (front ++ p :: rest)) := by
    intro e member
    rw [covered_cons, Set.union_comm, ← covers]
    exact covered_mono member
  refine ⟨_, _, front ++ settle p b rest, ⟨⟨joins_settle pool.list pool.spaced place held bound,
    settle_spaced place pool.spaced, ?_, ?_, ?_⟩, covers, ?_, ?_, ?_, ?_⟩,
    free_settles pool.list pool.spaced place regions⟩
  · -- `base` has no bytes that a block could touch
    rcases List.mem_append.mp pool.member with before | here
    · exact List.mem_append_left _ before
    · apply List.mem_append_right
      rcases List.mem_cons.mp here with rfl | after
      · rw [settle, attach, if_neg]
        · exact List.mem_cons_self
        · rw [absorb_addr]
          simp only [Extent.stop, HEADER] at above ⊢
          omega
      · have right := place.right _ after
        have inside := b.lt_stop positive
        simp only [HEADER] at *
        omega
  · intro e member
    refine (kept e member).imp_right fun some_ => ⟨some_, ?_⟩
    obtain ⟨g, inside, low, real⟩ := (bounds_of_covered some_ (within e member)).1
    rcases List.mem_cons.mp inside with rfl | inside
    · omega
    · rcases pool.real g inside with rfl | ⟨-, high⟩
      · simp at real
      · omega
  · intro e member
    rcases kept e member with rfl | some_
    · exact pool.bound _ pool.member
    · obtain ⟨g, inside, high⟩ := (bounds_of_covered some_ (within e member)).2
      have := bound g inside
      omega
  · rw [units_append, total, units_append, units_cons]
    omega
  · obtain ⟨q, member, larger⟩ := (settle_size p b rest).1
    exact ⟨q, List.mem_append_right _ member, larger⟩
  · have := (settle_size p b rest).2
    simp only [List.length_append, List.length_cons]
    omega
  · intro e some_ high outside
    have apart := outside.mono_right Set.subset_union_right
    have fromPlace := pool.apart some_ high (outside.mono_right Set.subset_union_left) p (by simp)
    have fromBlock : Apart b.addr e.addr := by
      have inside := b.lt_stop positive
      have inside' := e.lt_stop some_
      rcases stop_le_of_disjoint some_ positive apart with left | right
      · exact Or.inr (by omega)
      · exact Or.inl (by omega)
    exact (joinRight_frame m p.addr fromBlock).trans (joinLeft_frame _ fromPlace)

theorem Spaced.disjoint {q : Extent} {front rest : List Extent} (spaced : Spaced (front ++ q :: rest)) :
    Disjoint (covered (front ++ rest)) q.bytes := by
  obtain ⟨-, here, across⟩ := List.pairwise_append.mp spaced
  rw [Set.disjoint_left]
  rintro x ⟨e, member, low, high⟩ ⟨low', high'⟩
  rcases List.mem_append.mp member with before | after
  · have := (across e before q List.mem_cons_self).1
    omega
  · have := ((List.pairwise_cons.mp here).1 e after).1
    omega

-- The circle in the order of a search, which ends at `freep`.
theorem Pool.search (pool : Pool base m freep l) :
    ∃ f t, f.addr = freep ∧ l ~r t ++ [f] ∧ (t ++ [f]).head?.map Extent.addr = some (ptr m freep) ∧
      ∀ g ∈ t, g.addr ≠ freep := by
  obtain ⟨f, inside, rfl⟩ := List.mem_map.mp pool.list.start
  obtain ⟨x, y, rfl⟩ := List.append_of_mem inside
  have one : x ++ f :: y ~r f :: (y ++ x) := List.isRotated_append
  have two : f :: (y ++ x) ~r (y ++ x) ++ [f] := ⟨1, by simp⟩
  refine ⟨f, y ++ x, rfl, one.trans two, ?_, ?_⟩
  · have list := pool.list.isRotated one
    cases after : y ++ x with
    | nil =>
      rw [after] at list
      have alone := around_single.mp list.around
      simpa using alone.symm
    | cons d t =>
      rw [after] at list
      simpa using list.next_first.symm
  · intro g member same
    have distinct := ((one.map Extent.addr).nodup_iff).mp pool.spaced.nodup
    rw [List.map_cons, List.nodup_cons] at distinct
    exact distinct.1 (same ▸ List.mem_map_of_mem member)

theorem Pool.take (pool : Pool base m freep l) {n : Nat} (positive : 0 < n) (large : ∃ q ∈ l, n ≤ q.units)
    (sbrk : Sbrk) (regions : List Extent) :
    ∃ m' freep' l' b, Carved base m l b m' freep' l' ∧ b.units = n ∧
      ∀ fuel, l.length < fuel →
        mallocLoop sbrk n fuel ⟨m, some freep, regions⟩ freep (ptr m freep) =
          some (⟨m', some freep', regions⟩, b.addr + HEADER) := by
  obtain ⟨f, t, rfl, turned, start, away⟩ := pool.search
  have distinct : l.Nodup := pool.spaced.nodup.of_map
  -- the first block of the search that is large enough
  obtain ⟨q, hit⟩ : ∃ q, (t ++ [f]).find? (fun e => decide (n ≤ e.units)) = some q := by
    obtain ⟨q, member, fits⟩ := large
    apply Option.isSome_iff_exists.mp
    rw [List.find?_isSome]
    exact ⟨q, turned.mem_iff.mp member, by simpa using fits⟩
  obtain ⟨fits, pre, post, order, small⟩ := List.find?_eq_some_iff_append.mp hit
  simp only [decide_eq_true_eq] at fits
  rw [order] at turned
  have inside : q ∈ l := turned.mem_iff.mpr (by simp)
  obtain ⟨front, rest, rfl⟩ := List.append_of_mem inside
  have around : post ++ pre = rest ++ front := by
    have one : q :: (post ++ pre) ~r pre ++ q :: post := (@List.isRotated_append _ pre (q :: post)).symm
    have two : front ++ q :: rest ~r q :: (rest ++ front) := List.isRotated_append
    have both := (one.trans turned.symm).trans two
    exact rotation_unique ((both.nodup_iff).mpr ((two.nodup_iff).mp distinct)) both
  -- `base` is too small, so it is left in the list
  have other : q ≠ ⟨base, 0⟩ := by
    rintro rfl
    simp at fits
    omega
  have stays : ⟨base, 0⟩ ∈ rest ++ front := by
    have member := pool.member
    simp only [List.mem_append, List.mem_cons] at member ⊢
    tauto
  obtain ⟨before, prev, last⟩ : ∃ before prev, rest ++ front = before ++ [prev] := by
    rcases List.eq_nil_or_concat (rest ++ front) with none | ⟨before, prev, some_⟩
    · rw [none] at stays
      cases stays
    · exact ⟨before, prev, by rw [some_, List.concat_eq_append]⟩
  obtain ⟨m', result, list, held, frame⟩ :=
    take_carves pool.list pool.spaced positive fits (pool.bound q inside) last regions
  obtain ⟨parts, disjoint, total⟩ := carve_contents fits
  have part : (cut q n).bytes ⊆ q.bytes := by
    rw [← parts]
    exact Set.subset_union_right
  refine ⟨m', prev.addr, front ++ (carve q n ++ rest), cut q n, ⟨⟨list, carve_spaced pool.spaced fits, ?_, ?_, ?_⟩,
    ?_, ?_, ?_, held, ?_⟩, rfl, ?_⟩
  · simp only [List.mem_append] at stays ⊢
    tauto
  · intro e member
    simp only [List.mem_append] at member
    rcases member with before | here | after
    · exact pool.real e (by simp [before])
    · right
      unfold carve at here
      split at here
      next => cases here
      next more =>
        rw [List.mem_singleton.mp here]
        exact ⟨by simp only; omega, ((pool.real q inside).resolve_left other).2⟩
    · exact pool.real e (by simp [after])
  · intro e member
    simp only [List.mem_append] at member
    rcases member with before | here | after
    · exact pool.bound e (by simp [before])
    · unfold carve at here
      split at here
      next => cases here
      next more =>
        have := pool.bound q inside
        rw [List.mem_singleton.mp here]
        simp only [Extent.stop, HEADER] at this ⊢
        omega
    · exact pool.bound e (by simp [after])
  · rw [covered_append, covered_cons, ← parts, covered_append, covered_append]
    ext x
    simp only [Set.mem_union]
    tauto
  · have outside := pool.spaced.disjoint.mono_right part
    rw [covered_append] at outside
    obtain ⟨left, right⟩ := Set.disjoint_union_left.mp outside
    rw [covered_append, covered_append, Set.disjoint_union_left, Set.disjoint_union_left]
    exact ⟨left, disjoint, right⟩
  · simp only [units_append, units_cons, ← total, cut]
    omega
  · intro e some_ high outside
    have cutApart := stop_le_of_disjoint some_ positive (outside.mono_right (part.trans (covered_mono inside)))
    have header := e.lt_stop some_
    have header' := (cut q n).lt_stop positive
    refine frame e.addr (pool.apart some_ high outside prev ?_) (pool.apart some_ high outside q inside) ?_
    · have member : prev ∈ rest ++ front := by
        rw [last]
        simp
      simp only [List.mem_append, List.mem_cons] at member ⊢
      tauto
    · rcases cutApart with left | right
      · exact Or.inr (by omega)
      · exact Or.inl (by omega)
  · intro fuel enough
    obtain ⟨e, head, first⟩ := Option.map_eq_some_iff.mp start
    have ends : (pre ++ q :: post).getLast? = some f := by
      rw [← order, List.getLast?_concat]
    have shorter : pre.length < fuel := by
      have length := turned.perm.length_eq
      simp only [List.length_append, List.length_cons] at length enough
      omega
    have passed : ∀ g ∈ pre, g.addr ≠ f.addr := by
      intro g member
      apply away g
      have earlier : g ∈ (pre ++ q :: post).dropLast := by
        rw [List.dropLast_append_of_ne_nil (by simp)]
        exact List.mem_append_left _ member
      rwa [← order, List.dropLast_concat] at earlier
    have begins : (pre ++ [q]).head? = some e := by
      rw [order] at head
      cases pre <;> simpa using head
    rw [← first, mallocLoop_hit (pool.list.isRotated turned) fits (fun g member => by simpa using small g member) passed
      begins ends (by rw [around, last, ← List.cons_append, List.getLast?_concat]) fuel shorter, result]

theorem Pool.miss (pool : Pool base m freep l) {n : Nat} (small : ∀ e ∈ l, e.units < n) (sbrk : Sbrk)
    (regions : List Extent) (fuel : Nat) :
    mallocLoop sbrk n (l.length + fuel) ⟨m, some freep, regions⟩ freep (ptr m freep) =
      match morecore fuel sbrk ⟨m, some freep, regions⟩ n with
      | none => none
      | some (h, none) => some (h, 0)
      | some (h, some p) => mallocLoop sbrk n fuel h p (ptr h.mem p) := by
  obtain ⟨f, t, rfl, turned, start, away⟩ := pool.search
  obtain ⟨e, head, first⟩ := Option.map_eq_some_iff.mp start
  have length : l.length = t.length + 1 := by
    rw [turned.perm.length_eq]
    simp
  rw [← first, length]
  exact mallocLoop_miss f.addr (pool.list.isRotated turned)
    (fun g member => small g (turned.mem_iff.mpr member)) away head fuel

end Pools

section Requests

variable {base : Nat} {m : Mem} {freep : Nat} {l regions : List Extent} {sbrk : Sbrk} {n : Nat}

/-- `malloc` has returned the pointer `p`: 0 if `sbrk` has refused, or a block of the pool, to which
fresh memory may have been added. -/
inductive Served (base : Nat) (m : Mem) (freep : Nat) (l regions : List Extent) (n : Nat) : Heap → Nat → Prop where
  | refused : Served base m freep l regions n ⟨m, some freep, regions⟩ 0
  | found (m' : Mem) (freep' : Nat) (l' : List Extent) (b : Extent) (carved : Carved base m l b m' freep' l')
      (size : b.units = n) :
      Served base m freep l regions n ⟨m', some freep', regions⟩ (b.addr + HEADER)
  | grown (g : Extent) (m₁ : Mem) (freep₁ : Nat) (l₁ : List Extent) (m' : Mem) (freep' : Nat) (l' : List Extent)
      (b : Extent) (fresh : ∀ r ∈ regions, r.stop ≤ g.addr) (above : base + HEADER ≤ g.addr)
      (below : g.stop < 2 ^ 32) (positive : 0 < g.units)
      (returned : Returned base (setSize m g.addr g.units) l g m₁ freep₁ l₁)
      (carved : Carved base m₁ l₁ b m' freep' l') (size : b.units = n) :
      Served base m freep l regions n ⟨m', some freep', regions ++ [g]⟩ (b.addr + HEADER)

/-- The memory that `sbrk` returns next is above `base` and above `regions`. -/
def FreshAt (base : Nat) (sbrk : Sbrk) (regions : List Extent) : Prop :=
  ∀ bytes p, bytes < 2 ^ 31 → sbrk regions bytes = some p →
    (∀ r ∈ regions, r.stop ≤ p) ∧ base + HEADER ≤ p ∧ p + bytes < 2 ^ 32

theorem Fresh.at (fresh : Fresh base sbrk) (regions : List Extent) : FreshAt base sbrk regions :=
  fun bytes p _ answer => fresh regions bytes p answer

theorem Pool.malloc (pool : Pool base m freep l) (positive : 0 < n) (small : n < 2 ^ 28)
    (obtained : covered l ⊆ covered regions) (fresh : FreshAt base sbrk regions) :
    ∃ h p, Served base m freep l regions n h p ∧
      (p = 0 → sbrk regions ((if n < 4096 then 4096 else n) * HEADER) = none) ∧
      (h.regions = regions ∨ ∃ g, h.regions = regions ++ [g] ∧ g.units < 2 ^ 28 ∧
        sbrk regions (g.units * HEADER) = some g.addr) ∧
      ∀ fuel, 2 * l.length + 2 ≤ fuel →
        mallocLoop sbrk n fuel ⟨m, some freep, regions⟩ freep (ptr m freep) = some (h, p) := by
  by_cases large : ∃ q ∈ l, n ≤ q.units
  · obtain ⟨m', freep', l', b, carved, size, run⟩ := pool.take positive large sbrk regions
    exact ⟨_, _, .found m' freep' l' b carved size, by simp, .inl rfl, fun fuel enough => run fuel (by omega)⟩
  · have less : ∀ e ∈ l, e.units < n := by
      intro e member
      by_contra fits
      exact large ⟨e, member, by omega⟩
    set nu := if n < 4096 then 4096 else n with request
    have enough : n ≤ nu ∧ nu < 2 ^ 28 := by
      rw [request]
      split <;> omega
    have bytes : nu * HEADER % 2 ^ 32 = nu * HEADER := Nat.mod_eq_of_lt (by simp only [HEADER]; omega)
    have asked (fuel : Nat) : mallocLoop sbrk n (l.length + fuel) ⟨m, some freep, regions⟩ freep (ptr m freep) = _ :=
      pool.miss less sbrk regions fuel
    cases answer : sbrk regions (nu * HEADER) with
    | none =>
      refine ⟨_, _, .refused, fun _ => rfl, .inl rfl, ?_⟩
      intro fuel many
      have split : fuel = l.length + (fuel - l.length) := by omega
      rw [split, asked]
      simp only [morecore, ← request, bytes, answer]
    | some p =>
      obtain ⟨higher, above, below⟩ := fresh _ p (by simp only [HEADER]; omega) answer
      have units : nu * HEADER / HEADER = nu := Nat.mul_div_cancel _ (by decide)
      have some_ : 0 < nu := by omega
      have stop : (Extent.mk p nu).stop < 2 ^ 32 := by
        simp only [Extent.stop, HEADER] at below ⊢
        omega
      have outside : Disjoint (Extent.mk p nu).bytes (covered l) := by
        rw [Set.disjoint_right]
        intro x inside high
        obtain ⟨r, member, -, low⟩ := obtained inside
        have := higher r member
        have := high.1
        simp only at this
        omega
      have clear := pool.apart some_ above outside
      have enlarged : Pool base (setSize m p nu) freep l :=
        pool.sameHeaders fun e member => setSize_sameHeader m (clear e member).symm
      obtain ⟨m₁, freep₁, l₁, returned, freed⟩ := enlarged.free some_ above stop outside
        (size_setSize m (by omega)) (regions ++ [⟨p, nu⟩])
      obtain ⟨q, member, larger⟩ := returned.holds
      obtain ⟨m', freep', l', b, carved, size, run⟩ :=
        returned.pool.take positive ⟨q, member, le_trans enough.1 larger⟩ sbrk (regions ++ [⟨p, nu⟩])
      refine ⟨_, _, .grown ⟨p, nu⟩ m₁ freep₁ l₁ m' freep' l' b higher above stop some_ returned carved size, by simp,
        .inr ⟨⟨p, nu⟩, rfl, enough.2, answer⟩, ?_⟩
      intro fuel many
      have longer := returned.length
      have first : plus p 1 = p + HEADER := plus_of_lt (by simp only [HEADER] at *; omega)
      have split : fuel = l.length + (fuel - l.length) := by omega
      rw [split, asked]
      simp only [morecore, ← request, bytes, answer, units, first]
      rw [freed (fuel - l.length) (by omega), Option.map_some]
      exact run (fuel - l.length) (by omega)

end Requests

end Xv6.Umalloc
