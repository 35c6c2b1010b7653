import Xv6.Sys.Args
import Xv6.User.HeapInvariant
import Xv6.Vm.Sbrk

set_option autoImplicit false

/-!
# What `malloc` honours

`malloc` on memory from the kernel's `sbrk`, whose argument is signed. A request of more than
`2 ^ 31 - 16` bytes comes out as a negative number, as 0, or wraps to a single header before: then the
memory is not there. All other requests get their bytes or 0.
-/

namespace Xv6.Umalloc

open Memory LinkRing

/-- `proc->sz` after `sbrk(n)`, and the answer. `pages` says whether `allocuvm` finds memory. -/
def sbrkSize (pages : Bool) (sz : Nat) (n : Int) : Nat × Option Nat :=
  if n > 0 then
    if Vm.addSize sz n < KERNBASE ∧ pages = true then (Vm.addSize sz n, some sz) else (sz, none)
  else if n < 0 then
    let new := Vm.deallocSize sz (Vm.addSize sz n)
    if new = 0 then (sz, none) else (new, some sz)
  else (sz, some sz)

section Kernel

variable {img : Vm.Image} {A : Vm.Space} {role : Nat → Vm.Role} {u u' : Vm.UserProc} {n r : Int}

theorem growproc_size (inv : Vm.Inv img u.st u.pgdir A role) (size : u.sz ≤ KERNBASE) (int : n < 2 ^ 31)
    (ok : Vm.growproc img u n = .ok (r, u')) :
    ∃ pages, sbrkSize pages u.sz n = (u'.sz, if r < 0 then none else some u.sz) := by
  rw [Vm.growproc] at ok
  by_cases grows : n > 0
  · rw [if_pos grows] at ok
    obtain ⟨got, grown, ok⟩ := Vm.ok_of_bind ok
    have same : u.resize got.st got.sz = (r, u') := Except.ok.inj ok
    have sum := Vm.addSize_eq u.sz n (by omega) (by simp only [KERNBASE] at size; omega)
    have sized := (Vm.allocuvm_keeps inv u.sz (Vm.addSize u.sz n) (by omega) grown).1
    rcases sized with none_ | ⟨new, below⟩
    · rw [Vm.UserProc.resize, if_pos none_] at same
      cases same
      exact ⟨false, by simp [sbrkSize, grows]⟩
    · rw [Vm.UserProc.resize, if_neg (by omega)] at same
      cases same
      exact ⟨true, by simp [sbrkSize, grows, below, new]⟩
  · rw [if_neg grows] at ok
    refine ⟨true, ?_⟩
    by_cases shrinks : n < 0
    · rw [if_pos shrinks] at ok
      obtain ⟨st, freed, ok⟩ := Vm.ok_of_bind ok
      have same : u.resize st (Vm.deallocSize u.sz (Vm.addSize u.sz n)) = (r, u') := Except.ok.inj ok
      rw [Vm.UserProc.resize] at same
      split at same <;> cases same
      all_goals simp [sbrkSize, *]
    · rw [if_neg shrinks] at ok
      cases ok
      simp [sbrkSize, grows, shrinks]

/-- `sbrkSize` is what `sys_sbrk` does to the size, with its value. -/
theorem sysSbrk_size (inv : Vm.Inv img u.st u.pgdir A role) (size : u.sz ≤ KERNBASE) (int : n < 2 ^ 31)
    (ok : Vm.sysSbrk img u n = .ok (r, u')) :
    ∃ pages, sbrkSize pages u.sz n = (u'.sz, if r < 0 then none else some r.toNat) := by
  rw [Vm.sysSbrk] at ok
  obtain ⟨⟨r', u''⟩, done, ok⟩ := Vm.ok_of_bind ok
  obtain ⟨pages, sized⟩ := growproc_size inv size int done
  change (if r' < 0 then pure (-1, u'') else pure ((u.sz : Int), u'')) = Except.ok (r, u') at ok
  refine ⟨pages, sized.trans ?_⟩
  split at ok <;> cases ok
  next failed => rw [if_pos failed, if_pos (by decide)]
  next fine => rw [if_neg fine, if_neg (by omega), Int.toNat_natCast]

end Kernel

-- The size of the process whose size was `sz` before the calls of `sbrk` that returned `regions`.
def memorySize (sz : Nat) (regions : List Extent) : Nat :=
  regions.foldl (fun sz r => (sbrkSize true sz (Sys.int (UInt32.ofNat (r.units * HEADER)))).1) sz

/-- The kernel's `sbrk` in a process that began with `sz` bytes. -/
def kernelSbrk (sz : Nat) (pages : List Extent → Nat → Bool) : Sbrk := fun regions bytes =>
  (sbrkSize (pages regions bytes) (memorySize sz regions) (Sys.int (UInt32.ofNat bytes))).2

/-- The program calls `malloc`, with requests that satisfy `ok`, frees what it has, or writes to it. -/
inductive Use (base sz : Nat) (ok : Nat → Prop) (s : State) : State → Prop where
  | malloc (fuel : Nat) (pages : List Extent → Nat → Bool) (nbytes : Nat) (h : Heap) (p : Nat) (asked : ok nbytes)
      (returned : malloc base fuel (kernelSbrk sz pages) s.heap nbytes = some (h, p)) :
      Use base sz ok s
        { heap := h
          allocated := if p = 0 then s.allocated else ⟨p - HEADER, size h.mem (p - HEADER)⟩ :: s.allocated }
  | free (fuel : Nat) (e : Extent) (h : Heap) (held : e ∈ s.allocated)
      (returned : free fuel s.heap (e.addr + HEADER) = some h) :
      Use base sz ok s { heap := h, allocated := s.allocated.erase e }
  | write (e : Extent) (a : Nat) (v : UInt8) (held : e ∈ s.allocated) (low : e.addr + HEADER ≤ a)
      (high : a < e.stop) :
      Use base sz ok s { s with heap := { s.heap with mem := store s.heap.mem ⟨a, [v]⟩ } }

def UsedBy (base sz : Nat) (ok : Nat → Prop) (s : State) : Prop :=
  ∃ start, Initial start ∧ Relation.ReflTransGen (Use base sz ok) start s

/-- `malloc` returns 0 or the address of `nbytes` bytes of the process that are in no other block. -/
def Honours (base sz : Nat) (pages : List Extent → Nat → Bool) (s : State) (nbytes : Nat) : Prop :=
  ∃ enough h p, (∀ fuel, enough ≤ fuel → malloc base fuel (kernelSbrk sz pages) s.heap nbytes = some (h, p)) ∧
    (p = 0 ∨ p + nbytes ≤ memorySize sz h.regions ∧
      ∀ e ∈ s.allocated, Disjoint (Set.Ico p (p + nbytes)) e.bytes)

section Small

variable {base sz : Nat} {regions : List Extent} {pages : List Extent → Nat → Bool}

theorem int_small (bytes : Nat) (small : bytes < 2 ^ 31) : Sys.int (UInt32.ofNat bytes) = bytes := by
  have word : (UInt32.ofNat bytes).toNat = bytes := by
    rw [UInt32.toNat_ofNat']
    omega
  rw [Sys.int_eq, word, if_pos small]

theorem sbrkSize_grows {more : Bool} {p : Nat} (bytes : Nat) (some_ : 0 < bytes) (small : bytes < 2 ^ 31)
    (size : sz ≤ KERNBASE) (answer : (sbrkSize more sz bytes).2 = some p) :
    p = sz ∧ sz + bytes < KERNBASE ∧ (sbrkSize true sz bytes).1 = sz + bytes := by
  simp only [KERNBASE] at size
  have sum := Vm.addSize_eq sz bytes (by omega) (by omega)
  have positive : (bytes : Int) > 0 := by omega
  rw [sbrkSize, if_pos positive] at answer ⊢
  split at answer
  next fits =>
    cases answer
    rw [if_pos ⟨fits.1, rfl⟩]
    exact ⟨rfl, by omega, by omega⟩
  next => cases answer

/-- The memory that was returned is the process's. -/
structure Backed (base sz : Nat) (regions : List Extent) : Prop where
  above : base + HEADER ≤ memorySize sz regions
  below : memorySize sz regions ≤ KERNBASE
  inside : ∀ r ∈ regions, r.stop ≤ memorySize sz regions

theorem Backed.fresh (backed : Backed base sz regions) : FreshAt base (kernelSbrk sz pages) regions := by
  intro bytes p small answer
  rw [kernelSbrk, int_small bytes small] at answer
  have below := backed.below
  by_cases some_ : 0 < bytes
  · obtain ⟨rfl, fits, -⟩ := sbrkSize_grows bytes some_ small below answer
    simp only [KERNBASE] at fits
    exact ⟨backed.inside, backed.above, by omega⟩
  · have none : bytes = 0 := by omega
    subst none
    cases answer
    simp only [KERNBASE] at below
    exact ⟨backed.inside, backed.above, by omega⟩

theorem Backed.grow {g : Extent} (backed : Backed base sz regions) (small : g.units < 2 ^ 28)
    (answer : kernelSbrk sz pages regions (g.units * HEADER) = some g.addr) : Backed base sz (regions ++ [g]) := by
  have bytes : g.units * HEADER < 2 ^ 31 := by
    simp only [HEADER]
    omega
  have after : memorySize sz (regions ++ [g]) = (sbrkSize true (memorySize sz regions) ((g.units * HEADER : Nat) : Int)).1 := by
    rw [memorySize, List.foldl_append, List.foldl_cons, List.foldl_nil, int_small _ bytes]
    rfl
  rw [kernelSbrk, int_small _ bytes] at answer
  have above := backed.above
  have grown : g.addr = memorySize sz regions ∧ memorySize sz (regions ++ [g]) = memorySize sz regions + g.units * HEADER ∧
      memorySize sz (regions ++ [g]) ≤ KERNBASE := by
    by_cases some_ : 0 < g.units * HEADER
    · obtain ⟨start, fits, size⟩ := sbrkSize_grows _ some_ bytes backed.below answer
      exact ⟨start, by rw [after, size], by rw [after, size]; exact Nat.le_of_lt fits⟩
    · have none : g.units * HEADER = 0 := by omega
      rw [none] at answer after
      have same : memorySize sz (regions ++ [g]) = memorySize sz regions := after
      exact ⟨(Option.some.inj answer).symm, by rw [none, same, Nat.add_zero], by rw [same]; exact backed.below⟩
  obtain ⟨start, size, below⟩ := grown
  refine ⟨by omega, below, fun r member => ?_⟩
  rcases List.mem_append.mp member with old | new
  · have := backed.inside r old
    omega
  · rw [List.mem_singleton.mp new, Extent.stop, start, size, Nat.mul_comm]

/-- The heap is in order, and its memory is the process's. -/
def Kept (base sz : Nat) (s : State) : Prop := Sound base s ∧ Backed base sz s.heap.regions

variable {s s' : State}

theorem Kept.malloc (kept : Kept base sz s) (fits : base + HEADER ≤ 2 ^ 32) {nbytes : Nat} (small : nbytes ≤ 2 ^ 31 - 16) :
    ∃ enough h p, (∀ fuel, enough ≤ fuel → malloc base fuel (kernelSbrk sz pages) s.heap nbytes = some (h, p)) ∧
      Kept base sz
        { heap := h
          allocated := if p = 0 then s.allocated else ⟨p - HEADER, size h.mem (p - HEADER)⟩ :: s.allocated } ∧
      (p ≠ 0 → HEADER ≤ p ∧ nbytes ≤ HEADER * (size h.mem (p - HEADER) - 1) ∧ 0 < size h.mem (p - HEADER)) := by
  obtain ⟨sound, backed⟩ := kept
  obtain ⟨positive, -, room⟩ := nunits_bounds nbytes small
  obtain ⟨m, freep, l, h, p, holds, served, -, regions, run⟩ :=
    sound.malloc fits (kernelSbrk sz pages) nbytes small backed.fresh
  obtain ⟨after, block⟩ := served.sound positive holds
  refine ⟨_, h, p, run, ⟨after, ?_⟩, fun some_ => ?_⟩
  · change Backed base sz h.regions
    rcases regions with same | ⟨g, grown, less, answer⟩
    · rwa [same]
    · rw [grown]
      exact backed.grow less answer
  · obtain ⟨low, size⟩ := block some_
    exact ⟨low, by rw [size]; exact room, by rw [size]; exact positive⟩

theorem Kept.use (kept : Kept base sz s) (fits : base + HEADER ≤ 2 ^ 32)
    (used : Use base sz (· ≤ 2 ^ 31 - 16) s s') : Kept base sz s' := by
  cases used with
  | malloc fuel pages nbytes h p asked returned =>
    obtain ⟨enough, h', p', run, after, -⟩ := @Kept.malloc base sz pages s kept fits nbytes asked
    have both := run (max fuel enough) (le_max_right ..)
    obtain ⟨rfl, rfl⟩ := Prod.mk.inj (Option.some.inj (both.symm.trans (malloc_mono (le_max_left ..) returned)))
    exact after
  | free fuel e h held returned =>
    refine ⟨kept.1.step fits (.free fuel e h held returned), ?_⟩
    unfold Umalloc.free at returned
    obtain ⟨freep, -, returned⟩ := Option.bind_eq_some_iff.mp returned
    obtain ⟨place, -, returned⟩ := Option.bind_eq_some_iff.mp returned
    cases returned
    exact kept.2
  | write e a v held low high => exact ⟨kept.1.step fits (.write e a v held low high), kept.2⟩

theorem UsedBy.kept (data : base + HEADER ≤ sz) (size : sz ≤ KERNBASE) (used : UsedBy base sz (· ≤ 2 ^ 31 - 16) s) :
    Kept base sz s := by
  obtain ⟨start, initial, run⟩ := used
  induction run with
  | refl =>
    refine ⟨.inl initial, ?_⟩
    rw [initial.regions]
    exact ⟨data, size, by simp⟩
  | tail _ step ih => exact ih.use (by simp only [KERNBASE] at size; omega) step

theorem Kept.honours (kept : Kept base sz s) (fits : base + HEADER ≤ 2 ^ 32) {nbytes : Nat} (small : nbytes ≤ 2 ^ 31 - 16) :
    Honours base sz pages s nbytes := by
  obtain ⟨enough, h, p, run, ⟨sound, backed⟩, block⟩ := @Kept.malloc base sz pages s kept fits nbytes small
  refine ⟨enough, h, p, run, ?_⟩
  by_cases none : p = 0
  · exact .inl none
  obtain ⟨low, room, positive⟩ := block none
  simp only [if_neg none] at sound
  rcases sound with initial | ⟨freep, l, -, holds⟩
  · cases initial.allocated
  have last : p + nbytes ≤ (Extent.mk (p - HEADER) (size h.mem (p - HEADER))).stop := by
    simp only [Extent.stop, HEADER] at *
    omega
  have within : (Extent.mk (p - HEADER) (size h.mem (p - HEADER))).bytes ⊆ covered h.regions :=
    (covered_mono List.mem_cons_self).trans (Set.subset_union_right.trans holds.inside)
  obtain ⟨-, r, member, high⟩ := bounds_of_covered positive within
  refine .inr ⟨(last.trans high).trans (backed.inside r member), fun e held => ?_⟩
  have part : Set.Ico p (p + nbytes) ⊆ (Extent.mk (p - HEADER) (size h.mem (p - HEADER))).bytes :=
    fun x inside => ⟨(Nat.sub_le p HEADER).trans inside.1, lt_of_lt_of_le inside.2 last⟩
  exact ((List.pairwise_cons.mp holds.apart).1 e held).mono_left part

end Small

section Large

variable {base sz n : Nat} {m : Mem} {sbrk : Sbrk}

-- The first block goes behind `base`, whatever its size.
theorem free_first (fits : base + HEADER ≤ sz) (below : sz + HEADER < 2 ^ 32) (word : n < 2 ^ 32) (link : ptr m base = base)
    (empty : size m base = 0) (whole : size m sz = n) (regions : List Extent) (fuel : Nat) :
    ∃ m', free (fuel + 1) ⟨m, some base, regions⟩ (sz + HEADER) = some ⟨m', some base, regions⟩ ∧
      ptr m' base = sz ∧ size m' sz = n := by
  have apart : Apart base sz := .inl fits
  simp only [HEADER] at fits below
  have place : atPlace m sz base = true := by
    simp only [atPlace, link, decide_eq_true_eq]
    omega
  have clear : plus base (size (joinRight m sz base) base) ≠ sz := by
    rw [(joinRight_frame m base apart.symm).2, empty, plus_of_lt (by simp only [HEADER]; omega)]
    omega
  have joined : size (joinRight m sz base) sz = n := by
    by_cases touches : plus sz (size m sz) = ptr m base
    · obtain ⟨-, size⟩ := joinRight_touching m apart.symm touches (by rw [link]; exact apart.symm)
        (by rw [link, empty, whole, Nat.add_zero]; exact word)
      rw [size, link, empty, whole, Nat.add_zero]
    · rw [(joinRight_clear m touches).2, whole]
  refine ⟨joinLeft (joinRight m sz base) sz base, ?_, (joinLeft_clear _ clear (by omega)).1, ?_⟩
  · simp only [free, Option.bind_eq_bind, Option.bind_some, Nat.add_sub_cancel, walk, place, if_true]
  · rw [(joinLeft_frame _ apart).2, joined]

/-- The first call asks `sbrk` for more and takes all of it, whether it is there or not. -/
theorem malloc_first (fits : base + HEADER ≤ sz) (below : sz + HEADER < 2 ^ 32) (large : 4096 ≤ n) (word : n < 2 ^ 32)
    (answer : sbrk [] (n * HEADER % 2 ^ 32) = some sz) (fuel : Nat) :
    ∃ h, mallocLoop sbrk n (fuel + 3) ⟨setSize (setPtr m base base) base 0, some base, []⟩ base
        (ptr (setSize (setPtr m base base) base 0) base) = some (h, sz + HEADER) ∧
      h.regions = [⟨sz, n * HEADER % 2 ^ 32 / HEADER⟩] := by
  have apart : Apart base sz := .inl fits
  have next : plus sz 1 = sz + HEADER := plus_of_lt (by omega)
  have link : ptr (setSize (setPtr m base base) base 0) base = base := by
    rw [ptr_setSize, ptr_setPtr m (by simp only [HEADER] at *; omega)]
  have empty : size (setSize (setPtr m base base) base 0) base = 0 := size_setSize _ (by decide)
  obtain ⟨same, same'⟩ := setSize_sameHeader (v := n) (setSize (setPtr m base base) base 0) apart.symm
  obtain ⟨m', freed, first, whole⟩ := free_first fits below word (same.trans link) (same'.trans empty)
    (size_setSize _ word) [⟨sz, n * HEADER % 2 ^ 32 / HEADER⟩] (fuel + 1)
  have small : ¬ n < 4096 := by omega
  refine ⟨⟨setPtr m' base (ptr m' sz), some base, [⟨sz, n * HEADER % 2 ^ 32 / HEADER⟩]⟩, ?_, rfl⟩
  rw [mallocLoop, link, empty, if_neg (by omega), if_pos rfl]
  simp only [morecore, if_neg small, answer, List.nil_append, next, freed, Option.map_some]
  rw [first, mallocLoop, if_pos (by simp [whole]), take, if_pos whole, next]

theorem sbrkSize_le {pages : Bool} {k : Int} (negative : k ≤ 0) : (sbrkSize pages sz k).1 ≤ sz := by
  have shrinks (new : Nat) : Vm.deallocSize sz new ≤ sz := by
    unfold Vm.deallocSize
    split <;> omega
  rw [sbrkSize, if_neg (by omega)]
  split
  · dsimp only
    split
    · exact le_rfl
    · exact shrinks _
  · exact le_rfl

theorem sbrkSize_answers {pages : Bool} {k : Int} (negative : k ≤ 0) (some_ : 0 < sz) (size : sz ≤ KERNBASE)
    (low : -2 ^ 31 ≤ k) (part : (sz : Int) + k ≠ 0) : (sbrkSize pages sz k).2 = some sz := by
  have kept : Vm.deallocSize sz (Vm.addSize sz k) ≠ 0 := by
    unfold Vm.deallocSize
    by_cases inside : 0 ≤ (sz : Int) + k
    · have sum := Vm.addSize_eq sz k inside (by simp only [KERNBASE] at size; omega)
      split <;> omega
    · rw [if_pos (Vm.addSize_wraps sz k size low (by omega))]
      omega
  rw [sbrkSize, if_neg (by omega)]
  split
  · simp only [if_neg kept]
  · rfl

theorem nunits_large (nbytes : Nat) (word : nbytes ≤ 2 ^ 32 - 8) (large : 2 ^ 31 - 16 < nbytes) :
    2 ^ 28 ≤ nunits nbytes ∧ nunits nbytes ≤ 2 ^ 29 := by
  simp only [nunits, HEADER]
  omega

theorem int_large (n : Nat) (large : 2 ^ 28 ≤ n) (word : n ≤ 2 ^ 29) :
    Sys.int (UInt32.ofNat (n * HEADER % 2 ^ 32)) = n * HEADER - 2 ^ 32 := by
  rw [Sys.int_eq, UInt32.toNat_ofNat', Nat.mod_mod]
  simp only [HEADER]
  by_cases all : n = 2 ^ 29
  · subst all
    decide
  · rw [Nat.mod_eq_of_lt (by omega), if_neg (by omega)]
    omega

theorem not_honours_large (nbytes : Nat) (word : nbytes ≤ 2 ^ 32 - 8) (large : 2 ^ 31 - 16 < nbytes)
    (fits : base + HEADER ≤ sz) (size : sz + HEADER ≤ KERNBASE) (part : (sz : Int) + nunits nbytes * HEADER ≠ 2 ^ 32)
    (pages : List Extent → Nat → Bool) : ¬ Honours base sz pages ⟨⟨fun _ => 0, none, []⟩, []⟩ nbytes := by
  rintro ⟨enough, h, p, run, outcome⟩
  obtain ⟨low, high⟩ := nunits_large nbytes word large
  have bytes := int_large (nunits nbytes) low high
  simp only [KERNBASE, HEADER] at fits size
  have answer : kernelSbrk sz pages [] (nunits nbytes * HEADER % 2 ^ 32) = some sz := by
    rw [kernelSbrk, bytes]
    refine sbrkSize_answers ?_ (by simp only [memorySize, List.foldl_nil]; omega) ?_ ?_ ?_
    all_goals simp only [memorySize, List.foldl_nil, KERNBASE, HEADER] at part ⊢
    all_goals omega
  obtain ⟨h', first, regions⟩ := @malloc_first base sz (nunits nbytes) (fun _ => 0) _ (by simp only [HEADER]; omega)
    (by simp only [HEADER]; omega) (by omega) (by omega) answer enough
  have both := run (enough + 3) (by omega)
  rw [malloc] at both
  obtain ⟨rfl, rfl⟩ := Prod.mk.inj (Option.some.inj (both.symm.trans first))
  rcases outcome with zero | ⟨inside, -⟩
  · simp only [HEADER] at zero
    omega
  · have whole : nunits nbytes * HEADER % 2 ^ 32 / HEADER * HEADER = nunits nbytes * HEADER % 2 ^ 32 := by
      simp only [HEADER]
      omega
    rw [regions, memorySize, List.foldl_cons, List.foldl_nil, whole, bytes] at inside
    have shrunk := @sbrkSize_le sz true ((nunits nbytes : Int) * HEADER - 2 ^ 32) (by simp only [HEADER]; omega)
    simp only [HEADER] at inside shrunk
    omega

end Large

-- A process of four pages with the free list in its second one.
theorem first_wraps : (malloc 0x1000 8 (kernelSbrk 0x4000 fun _ _ => true) blank.heap 0).map
    (fun r => (r.1.regions, r.2, size r.1.mem (r.2 - HEADER))) = some ([⟨0x4000, 4096⟩], 0xc000, 1) := by
  decide +kernel

theorem malloc_wrapped (base fuel : Nat) (sbrk : Sbrk) (h : Heap) (nbytes : Nat) (word : nbytes < 2 ^ 32)
    (large : 2 ^ 32 - 8 < nbytes) : malloc base fuel sbrk h nbytes = malloc base fuel sbrk h 0 := by
  have one : nunits nbytes = nunits 0 := by
    simp only [nunits, HEADER]
    omega
  unfold malloc
  rw [one]

/-- A request is honoured in every process, after any use of the heap with such requests, exactly if it is for at
most `2 ^ 31 - 16` bytes. -/
theorem malloc_honours_iff (nbytes : UInt32) :
    (∀ base sz s pages, base + HEADER ≤ sz → sz ≤ KERNBASE → UsedBy base sz (· ≤ 2 ^ 31 - 16) s →
      Honours base sz pages s nbytes.toNat) ↔ nbytes.toNat ≤ 2 ^ 31 - 16 := by
  have word := nbytes.toNat_lt
  constructor
  · intro honours
    by_contra large
    have start (base sz : Nat) : UsedBy base sz (· ≤ 2 ^ 31 - 16) ⟨⟨fun _ => 0, none, []⟩, []⟩ :=
      ⟨_, ⟨rfl, rfl, rfl⟩, .refl⟩
    by_cases wraps : 2 ^ 32 - 8 < nbytes.toNat
    · obtain ⟨enough, h, p, run, outcome⟩ :=
        honours 0x1000 0x4000 _ (fun _ _ => true) (by decide) (by decide) (start _ _)
      have both := run (max 8 enough) (le_max_right ..)
      rw [malloc_wrapped _ _ _ _ _ word wraps] at both
      obtain ⟨r, first, value⟩ := Option.map_eq_some_iff.mp first_wraps
      cases both.symm.trans (malloc_mono (le_max_left ..) first)
      simp only [Prod.mk.injEq] at value
      obtain ⟨regions, rfl, -⟩ := value
      rw [regions] at outcome
      have size : memorySize 0x4000 [⟨0x4000, 4096⟩] = 0xc000 := by decide
      rw [size] at outcome
      omega
    · by_cases part : (0x4000 : Int) + nunits nbytes.toNat * HEADER = 2 ^ 32
      · exact not_honours_large nbytes.toNat (by omega) (by omega) (by decide) (by decide)
          (by simp only [HEADER] at part ⊢; omega) (fun _ _ => true)
          (honours 0x1000 0x5000 _ (fun _ _ => true) (by decide) (by decide) (start _ _))
      · exact not_honours_large nbytes.toNat (by omega) (by omega) (by decide) (by decide) part (fun _ _ => true)
          (honours 0x1000 0x4000 _ (fun _ _ => true) (by decide) (by decide) (start _ _))
  · intro small base sz s pages data size used
    exact (used.kept data size).honours (by simp only [KERNBASE] at size; omega) small

/-- The first request of a process, for all of the address space but one byte, gets a block without any. -/
theorem malloc_wraps_around : UsedBy 0x1000 0x4000 (· < 2 ^ 32) blank ∧
    ∃ h p, malloc 0x1000 8 (kernelSbrk 0x4000 fun _ _ => true) blank.heap (2 ^ 32 - 1) = some (h, p) ∧ p ≠ 0 ∧
      size h.mem (p - HEADER) = 1 ∧ memorySize 0x4000 h.regions = p := by
  refine ⟨⟨blank, ⟨rfl, rfl, rfl⟩, .refl⟩, ?_⟩
  obtain ⟨⟨h, p⟩, first, value⟩ := Option.map_eq_some_iff.mp first_wraps
  simp only [Prod.mk.injEq] at value
  obtain ⟨regions, rfl, whole⟩ := value
  refine ⟨h, 0xc000, ?_, by decide, whole, ?_⟩
  · rw [malloc_wrapped _ _ _ _ _ (by decide) (by decide), first]
  · rw [regions]
    decide

end Xv6.Umalloc
