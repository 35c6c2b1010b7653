import Xv6.Lib.Run
import Xv6.Vm.Confine
import Xv6.Vm.Moves

set_option autoImplicit false

/-!
# Isolation of physical pages

Any sequence of calls of the allocator and of `vm.c`, as `userinit`, `growproc`, `fork`, `exec`, `wait`
and the callers of `kalloc` make them, one call after the other. What a page is used for is read from
memory: from the free list, from the directories in use and from the pages the kernel holds.
-/

namespace Xv6.Vm

structure Pool where
  phys : Phys
  dirs : List Nat
  -- The size that the owner of the directory works with, `proc->sz` or the `sz` of `exec`.
  size : Nat → Nat
  -- The pages that `kalloc` returned to the rest of the kernel.
  held : List Nat

inductive Op where
  | kalloc
  | kfree (p : Nat)
  | setupkvm
  | inituvm (g : Nat) (init : List UInt8)
  | allocuvm (g newsz : Nat)
  | deallocuvm (g newsz : Nat)
  | copyuvm (g : Nat)
  | roundUp (g : Nat)
  | clearpteu (g : Nat)
  | store (g v : Nat) (page : Page)
  | freevm (g : Nat)

/-- A call during which `kalloc` finds at most `grant` of the free pages. -/
structure Call where
  grant : Nat
  op : Op

theorem Owns.use_userPage {img : Image} {st : Phys} {space : Nat → Option Space} {use : Nat → Use} {g v p : Nat}
    {A : Space} (owns : Owns img st space use) (live : space g = some A) (user : v < USERPAGES)
    (there : st.userPage g v = some p) : use p = .user g v := by
  obtain ⟨mapped, page⟩ := (owns.rep g A live).userPage_some user there
  exact page ▸ owns.use_user live user mapped

namespace Pool

def boot (st : Phys) : Pool := ⟨st, [], fun _ => 0, []⟩

def add (m : Pool) (st : Phys) (g sz : Nat) : Pool :=
  { m with phys := st, dirs := g :: m.dirs, size := Function.update m.size g sz }

-- A size of 0 is a failure, and the caller keeps the old one.
def resize (m : Pool) (st : Phys) (g sz : Nat) : Pool :=
  if sz = 0 then { m with phys := st } else { m with phys := st, size := Function.update m.size g sz }

/-- What the call of a function does; none if it panics, or if nobody makes the call in this state. -/
def act (img : Image) (m : Pool) : Op → Option Pool
  | .kalloc =>
    match Vm.kalloc m.phys with
    | none => some m
    | some (p, st) => some { m with phys := st, held := p :: m.held }
  | .kfree p =>
    if p ∈ m.held then
      match Vm.kfree img m.phys p with
      | .error _ => none
      | .ok st => some { m with phys := st, held := m.held.erase p }
    else none
  | .setupkvm =>
    match Vm.setupkvm img m.phys with
    | .error _ => none
    | .ok (none, st) => some { m with phys := st }
    | .ok (some g, st) => some (m.add st g 0)
  | .inituvm g init =>
    if g ∈ m.dirs then
      match Vm.inituvm m.phys g init with
      | .error _ => none
      | .ok st => some (m.resize st g PGSIZE)
    else none
  | .allocuvm g newsz =>
    if g ∈ m.dirs then
      match Vm.allocuvm img m.phys g (m.size g) newsz with
      | .error _ => none
      | .ok grown => some (m.resize grown.st g grown.sz)
    else none
  | .deallocuvm g newsz =>
    if g ∈ m.dirs then
      match Vm.deallocuvm img m.phys g (m.size g) newsz with
      | .error _ => none
      | .ok st => some (m.resize st g (if newsz ≥ m.size g then m.size g else newsz))
    else none
  | .copyuvm g =>
    if g ∈ m.dirs then
      match Vm.copyuvm img m.phys g (m.size g) with
      | .error _ => none
      | .ok (none, st) => some { m with phys := st }
      | .ok (some d, st) => some (m.add st d (m.size g))
    else none
  | .roundUp g => if g ∈ m.dirs then some (m.resize m.phys g (pgRoundUp (m.size g))) else none
  | .clearpteu g =>
    if g ∈ m.dirs then
      match Vm.clearpteu m.phys g (m.size g - 2 * PGSIZE) with
      | .error _ => none
      | .ok st => some { m with phys := st }
    else none
  | .store g v page =>
    if g ∈ m.dirs ∧ v < USERPAGES then
      match m.phys.userPage g v with
      | none => none
      | some p => some { m with phys := m.phys.setPage p page }
    else none
  | .freevm g =>
    if g ∈ m.dirs then
      match Vm.freevm img m.phys g with
      | .error _ => none
      | .ok st => some { m with phys := st, dirs := m.dirs.erase g }
    else none

def withFree (m : Pool) (freelist : List Nat) : Pool := { m with phys := { m.phys with freelist := freelist } }

def step (img : Image) (m : Pool) (call : Call) : Option Pool :=
  let free := m.phys.freelist
  (act img (m.withFree (free.take call.grant)) call.op).map fun m' =>
    m'.withFree (m'.phys.freelist ++ free.drop call.grant)

/-- What page `p` is used for. -/
def Has (m : Pool) (p : Nat) : Use → Prop
  | .free => p ∈ m.phys.freelist
  | .dir g => p = g ∧ g ∈ m.dirs
  | .table g d => g ∈ m.dirs ∧ d < NPDENTRIES ∧ tableAt m.phys.mem g d = some p
  | .user g v => g ∈ m.dirs ∧ v < USERPAGES ∧ m.phys.userPage g v = some p
  | .kernel => p ∈ m.held
  | _ => False

/-- Every page has at most one use, and is in it once. -/
structure Exclusive (m : Pool) : Prop where
  free : m.phys.freelist.Nodup
  dirs : m.dirs.Nodup
  held : m.held.Nodup
  once : ∀ p u u', m.Has p u → m.Has p u' → u = u'

structure Sound (img : Image) (m : Pool) (space : Nat → Option Space) (use : Nat → Use) : Prop where
  owns : Owns img m.phys space use
  dirs : ∀ g ∈ m.dirs, space g ≠ none
  dirsNodup : m.dirs.Nodup
  held : ∀ p ∈ m.held, use p = .kernel
  heldNodup : m.held.Nodup
  size : ∀ g, m.size g ≤ KERNBASE

variable {img : Image} {m : Pool} {space : Nat → Option Space} {use : Nat → Use}

theorem Sound.alive (sound : m.Sound img space use) {g : Nat} (member : g ∈ m.dirs) : ∃ A, space g = some A :=
  Option.ne_none_iff_exists'.mp (sound.dirs g member)

theorem Sound.use_of_has (sound : m.Sound img space use) {p : Nat} {u : Use} (has : m.Has p u) : use p = u := by
  cases u with
  | free => exact sound.owns.use_free has
  | dir g =>
    obtain ⟨rfl, member⟩ := has
    obtain ⟨A, live⟩ := sound.alive member
    exact sound.owns.use_dir live
  | table g d =>
    obtain ⟨member, inside, there⟩ := has
    obtain ⟨A, live⟩ := sound.alive member
    rw [(sound.owns.rep g A live).pde d inside] at there
    exact sound.owns.use_table live there
  | user g v =>
    obtain ⟨member, user, there⟩ := has
    obtain ⟨A, live⟩ := sound.alive member
    exact sound.owns.use_userPage live user there
  | kernel => exact sound.held p has
  | _ => exact has.elim

theorem Sound.exclusive (sound : m.Sound img space use) : m.Exclusive where
  free := sound.owns.nodup
  dirs := sound.dirsNodup
  held := sound.heldNodup
  once := fun _ _ _ first second => (sound.use_of_has first).symm.trans (sound.use_of_has second)

theorem Sound.works (sound : m.Sound img space use) {g : Nat} {lost : List Nat} {st' : Phys} {A' : Space}
    (works : Works img space use g lost st' A') :
    ∃ use', Sound img { m with phys := st' } (Function.update space g (some A')) use' ∧
      ∀ p, use p = .kernel → use' p = .kernel := by
  obtain ⟨use', owns, moves⟩ := works
  have kept (p : Nat) (kernel : use p = .kernel) : use' p = .kernel := by
    rw [moves.kept p (by simp [kernel, Use.Of]), kernel]
  refine ⟨use', ⟨owns, ?_, sound.dirsNodup, fun p member => kept p (sound.held p member), sound.heldNodup,
    sound.size⟩, kept⟩
  intro h member
  by_cases same : h = g
  · simp [same]
  · rw [Function.update_of_ne same]
    exact sound.dirs h member

theorem Sound.resize {st' : Phys} (sound : Sound img { m with phys := st' } space use) (g : Nat) {sz : Nat}
    (below : sz ≤ KERNBASE) : (m.resize st' g sz).Sound img space use := by
  rw [Pool.resize]
  split
  next => exact sound
  next =>
    refine { sound with size := fun h => ?_ }
    by_cases same : h = g
    · simp only [same, Function.update_self]
      exact below
    · simp only [Function.update_of_ne same]
      exact sound.size h

theorem Sound.add {st' : Phys} (sound : Sound img { m with phys := st' } space use) {g sz : Nat}
    (live : space g ≠ none) (new : g ∉ m.dirs) (below : sz ≤ KERNBASE) : (m.add st' g sz).Sound img space use where
  owns := sound.owns
  dirs := by
    intro h member
    rcases List.mem_cons.mp member with rfl | old
    · exact live
    · exact sound.dirs h old
  dirsNodup := List.nodup_cons.mpr ⟨new, sound.dirsNodup⟩
  held := sound.held
  heldNodup := sound.heldNodup
  size := by
    intro h
    by_cases same : h = g
    · simp only [Pool.add, same, Function.update_self]
      exact below
    · simp only [Pool.add, Function.update_of_ne same]
      exact sound.size h

/-- After a call the pages in other hands are still there, and the kernel holds only what it was given. -/
def Kept (m : Pool) (use : Nat → Use) (m' : Pool) (use' : Nat → Use) : Prop :=
  (∀ p, use p = .kernel → p ∉ m.held → use' p = .kernel) ∧ ∀ p ∈ m'.held, p ∈ m.held ∨ use p = .free

theorem resize_held (m : Pool) (st : Phys) (g sz : Nat) : (m.resize st g sz).held = m.held := by
  rw [resize]
  split <;> rfl

theorem Sound.kalloc (sound : m.Sound img space use) {p : Nat} {st : Phys} (got : Vm.kalloc m.phys = some (p, st)) :
    ∃ use', Sound img { m with phys := st, held := p :: m.held } space use' ∧
      Kept m use { m with phys := st, held := p :: m.held } use' := by
  cases first : m.phys.freelist with
  | nil =>
    simp only [Vm.kalloc, first] at got
    cases got
  | cons q rest =>
    simp only [Vm.kalloc, first] at got
    cases got
    have wasFree : use p = .free := sound.owns.use_free (first ▸ List.mem_cons_self)
    have fresh : p ∉ m.held := by
      intro member
      rw [sound.held p member] at wasFree
      cases wasFree
    have elsewhere (q : Nat) (kernel : use q = .kernel) : Function.update use p .kernel q = .kernel := by
      by_cases same : q = p
      · rw [same, Function.update_self]
      · rw [Function.update_of_ne same, kernel]
    refine ⟨Function.update use p .kernel, ⟨sound.owns.take rest first .kernel (Or.inl rfl), sound.dirs,
      sound.dirsNodup, ?_, List.nodup_cons.mpr ⟨fresh, sound.heldNodup⟩, sound.size⟩, ?_, ?_⟩
    · intro q member
      rcases List.mem_cons.mp member with rfl | old
      · exact Function.update_self _ _ _
      · exact elsewhere q (sound.held q old)
    · exact fun q kernel _ => elsewhere q kernel
    · intro q member
      rcases List.mem_cons.mp member with rfl | old
      · exact Or.inr wasFree
      · exact Or.inl old

theorem Sound.kfree (sound : m.Sound img space use) {p : Nat} (member : p ∈ m.held) {st : Phys}
    (freed : Vm.kfree img m.phys p = .ok st) :
    ∃ use', Sound img { m with phys := st, held := m.held.erase p } space use' ∧
      Kept m use { m with phys := st, held := m.held.erase p } use' := by
  obtain ⟨st', ok, -, -, owns⟩ := sound.owns.kfree_ok (Or.inl (sound.held p member))
  rw [freed] at ok
  cases ok
  refine ⟨Function.update use p .free, ⟨owns, sound.dirs, sound.dirsNodup, ?_, sound.heldNodup.erase p, sound.size⟩,
    ?_, ?_⟩
  · intro q left
    have other : q ≠ p := by
      rintro rfl
      exact List.Nodup.not_mem_erase sound.heldNodup left
    rw [Function.update_of_ne other]
    exact sound.held q (List.mem_of_mem_erase left)
  · intro q kernel notHeld
    have other : q ≠ p := by
      rintro rfl
      exact notHeld member
    rw [Function.update_of_ne other, kernel]
  · exact fun q left => Or.inl (List.mem_of_mem_erase left)

theorem Sound.freevm (sound : m.Sound img space use) {g : Nat} (member : g ∈ m.dirs) {st : Phys}
    (freed : Vm.freevm img m.phys g = .ok st) :
    ∃ space' use', Sound img { m with phys := st, dirs := m.dirs.erase g } space' use' ∧
      Kept m use { m with phys := st, dirs := m.dirs.erase g } use' := by
  obtain ⟨A, live⟩ := sound.alive member
  obtain ⟨st', use', ok, owns, -, others⟩ := freevm_works sound.owns live
  rw [freed] at ok
  cases ok
  have kept (p : Nat) (kernel : use p = .kernel) : use' p = .kernel := by
    rw [others p (by simp [kernel, Use.Of]), kernel]
  refine ⟨_, use', ⟨owns, ?_, sound.dirsNodup.erase g, fun p held => kept p (sound.held p held), sound.heldNodup,
    sound.size⟩, fun p kernel _ => kept p kernel, fun p held => Or.inl held⟩
  intro h left
  have other : h ≠ g := by
    rintro rfl
    exact List.Nodup.not_mem_erase sound.dirsNodup left
  rw [Function.update_of_ne other]
  exact sound.dirs h (List.mem_of_mem_erase left)

-- A directory begun by `setupkvm` was free, so it is none of those in use.
theorem Sound.setupkvm (sound : m.Sound img space use) {r : Option Nat} {st : Phys}
    (ok : Vm.setupkvm img m.phys = .ok (r, st)) :
    (r = none ∧ st = m.phys) ∨ ∃ g A' use', (r = some g ∨ r = none) ∧ g ∉ m.dirs ∧
      Sound img { m with phys := st } (Function.update space g (some A')) use' ∧
      ∀ p, use p = .kernel → use' p = .kernel := by
  rcases setupkvm_works sound.owns ok with ⟨failed, same, -⟩ | ⟨g, A', -, unused, result, works, -⟩
  · exact Or.inl ⟨failed, same⟩
  · obtain ⟨use', sound', kept⟩ := sound.works works
    exact Or.inr ⟨g, A', use', result, fun member => sound.dirs g member unused, sound', kept⟩

theorem Sound.copyuvm (sound : m.Sound img space use) (g : Nat) {r : Option Nat} {st : Phys}
    (ok : Vm.copyuvm img m.phys g (m.size g) = .ok (r, st)) :
    ∃ space' use', Sound img { m with phys := st } space' use' ∧ (∀ p, use p = .kernel → use' p = .kernel) ∧
      ∀ d, r = some d → space' d ≠ none ∧ d ∉ m.dirs := by
  rw [Vm.copyuvm] at ok
  obtain ⟨⟨r₁, st₁⟩, made, ok⟩ := ok_of_bind ok
  rcases sound.setupkvm made with ⟨rfl, rfl⟩ | ⟨d, A₁, use₁, which, new, sound₁, kept₁⟩
  · cases ok
    exact ⟨space, use, sound, fun _ kernel => kernel, by simp⟩
  · rcases which with rfl | rfl
    · dsimp only at ok
      obtain ⟨⟨b, st₂⟩, copied, ok⟩ := ok_of_bind ok
      obtain ⟨lost, A₂, works⟩ := copyLoop_works g (m.size g) (sound.size g) _ 0 sound₁.owns
        (Function.update_self _ _ _) (by decide) copied
      obtain ⟨use₂, sound₂, kept₂⟩ := sound₁.works works
      rw [Function.update_idem] at sound₂
      cases b with
      | true =>
        cases ok
        refine ⟨_, use₂, sound₂, fun p kernel => kept₂ p (kept₁ p kernel), ?_⟩
        rintro e ⟨⟩
        exact ⟨by simp, new⟩
      | false =>
        obtain ⟨st₃, use₃, freed, owns₃, -, others⟩ := freevm_works sound₂.owns (Function.update_self _ _ _)
        have kept₃ (p : Nat) (kernel : use₂ p = .kernel) : use₃ p = .kernel := by
          rw [others p (by simp [kernel, Use.Of]), kernel]
        dsimp only at ok
        rw [freed] at ok
        cases ok
        rw [Function.update_idem] at owns₃
        refine ⟨_, use₃, ⟨owns₃, ?_, sound₂.dirsNodup, fun p held => kept₃ p (sound₂.held p held),
          sound₂.heldNodup, sound₂.size⟩, fun p kernel => kept₃ p (kept₂ p (kept₁ p kernel)), by simp⟩
        intro h member
        have other : h ≠ d := by
          rintro rfl
          exact new member
        rw [Function.update_of_ne other]
        exact sound.dirs h member
    · cases ok
      exact ⟨_, use₁, sound₁, kept₁, by simp⟩

/-- The state after a call is sound, and what others hold is still there. -/
def Next (img : Image) (m : Pool) (use : Nat → Use) (m' : Pool) : Prop :=
  ∃ space' use', m'.Sound img space' use' ∧ Kept m use m' use'

section Actions

variable {m' : Pool} {g : Nat}

theorem Sound.next (sound : m.Sound img space use) : Next img m use m :=
  ⟨space, use, sound, fun _ kernel _ => kernel, fun _ held => Or.inl held⟩

theorem Sound.worked (sound : m.Sound img space use) {sz : Nat} {st' : Phys} {lost : List Nat} {A' : Space}
    (works : Works img space use g lost st' A') (below : sz ≤ KERNBASE) : Next img m use (m.resize st' g sz) := by
  obtain ⟨use', sound', kept⟩ := sound.works works
  refine ⟨_, use', sound'.resize g below, fun p kernel _ => kept p kernel, ?_⟩
  rw [resize_held]
  exact fun p held => Or.inl held

theorem act_kalloc (sound : m.Sound img space use) (moved : act img m .kalloc = some m') : Next img m use m' := by
  simp only [act] at moved
  split at moved
  next =>
    cases moved
    exact sound.next
  next p st got =>
    cases moved
    obtain ⟨use', sound', kept⟩ := sound.kalloc got
    exact ⟨space, use', sound', kept⟩

theorem act_kfree (sound : m.Sound img space use) {p : Nat} (moved : act img m (.kfree p) = some m') :
    Next img m use m' := by
  simp only [act] at moved
  split at moved
  next member =>
    split at moved
    next => cases moved
    next st freed =>
      cases moved
      obtain ⟨use', sound', kept⟩ := sound.kfree member freed
      exact ⟨space, use', sound', kept⟩
  next => cases moved

theorem act_setupkvm (sound : m.Sound img space use) (moved : act img m .setupkvm = some m') : Next img m use m' := by
  simp only [act] at moved
  split at moved
  next => cases moved
  next st ok =>
    cases moved
    rcases sound.setupkvm ok with ⟨-, rfl⟩ | ⟨g, A', use', -, -, sound', kept⟩
    · exact sound.next
    · exact ⟨_, use', sound', fun p kernel _ => kept p kernel, fun _ held => Or.inl held⟩
  next g st ok =>
    cases moved
    rcases sound.setupkvm ok with ⟨failed, -⟩ | ⟨d, A', use', which, new, sound', kept⟩
    · cases failed
    · rcases which with equal | failed
      · cases equal
        exact ⟨_, use', sound'.add (by simp) new (by decide), fun p kernel _ => kept p kernel, fun _ held => Or.inl held⟩
      · cases failed

theorem act_inituvm (sound : m.Sound img space use) {init : List UInt8}
    (moved : act img m (.inituvm g init) = some m') : Next img m use m' := by
  simp only [act] at moved
  split at moved
  next member =>
    split at moved
    next => cases moved
    next st ok =>
      cases moved
      obtain ⟨A, live⟩ := sound.alive member
      obtain ⟨lost, A', works⟩ := inituvm_works init sound.owns live ok
      exact sound.worked works (by decide)
  next => cases moved

theorem act_allocuvm (sound : m.Sound img space use) {newsz : Nat} (moved : act img m (.allocuvm g newsz) = some m') :
    Next img m use m' := by
  simp only [act] at moved
  split at moved
  next member =>
    split at moved
    next => cases moved
    next grown ok =>
      cases moved
      obtain ⟨A, live⟩ := sound.alive member
      obtain ⟨size, lost, A', works⟩ := allocuvm_works (m.size g) newsz sound.owns live ok
      have old := sound.size g
      exact sound.worked works (by omega)
  next => cases moved

theorem act_deallocuvm (sound : m.Sound img space use) {newsz : Nat}
    (moved : act img m (.deallocuvm g newsz) = some m') : Next img m use m' := by
  simp only [act] at moved
  split at moved
  next member =>
    split at moved
    next => cases moved
    next st ok =>
      cases moved
      obtain ⟨A, live⟩ := sound.alive member
      obtain ⟨st', A', ok', works, -⟩ := deallocuvm_works (m.size g) newsz (sound.size g) sound.owns live
      rw [ok] at ok'
      cases ok'
      have old := sound.size g
      exact sound.worked works (by split <;> omega)
  next => cases moved

theorem act_copyuvm (sound : m.Sound img space use) (moved : act img m (.copyuvm g) = some m') : Next img m use m' := by
  simp only [act] at moved
  split at moved
  next member =>
    split at moved
    next => cases moved
    next st ok =>
      cases moved
      obtain ⟨space', use', sound', kept, -⟩ := sound.copyuvm g ok
      exact ⟨space', use', sound', fun p kernel _ => kept p kernel, fun _ held => Or.inl held⟩
    next d st ok =>
      cases moved
      obtain ⟨space', use', sound', kept, made⟩ := sound.copyuvm g ok
      obtain ⟨live, new⟩ := made d rfl
      exact ⟨space', use', sound'.add live new (sound.size g), fun p kernel _ => kept p kernel, fun _ held => Or.inl held⟩
  next => cases moved

theorem act_roundUp (sound : m.Sound img space use) (moved : act img m (.roundUp g) = some m') : Next img m use m' := by
  simp only [act] at moved
  split at moved
  next member =>
    cases moved
    obtain ⟨A, live⟩ := sound.alive member
    have old := sound.size g
    refine sound.worked (Works.start sound.owns live) ?_
    simp only [pgRoundUp, KERNBASE, PGSIZE] at old ⊢
    omega
  next => cases moved

theorem act_clearpteu (sound : m.Sound img space use) (moved : act img m (.clearpteu g) = some m') :
    Next img m use m' := by
  simp only [act] at moved
  split at moved
  next member =>
    split at moved
    next => cases moved
    next st ok =>
      cases moved
      obtain ⟨A, live⟩ := sound.alive member
      have old := sound.size g
      obtain ⟨A', works⟩ := clearpteu_works _ (by simp only [KERNBASE] at old; omega) sound.owns live ok
      obtain ⟨use', sound', kept⟩ := sound.works works
      exact ⟨_, use', sound', fun p kernel _ => kept p kernel, fun _ held => Or.inl held⟩
  next => cases moved

theorem act_store (sound : m.Sound img space use) {v : Nat} {page : Page}
    (moved : act img m (.store g v page) = some m') : Next img m use m' := by
  simp only [act] at moved
  split at moved
  next at_ =>
    split at moved
    next => cases moved
    next p there =>
      cases moved
      have mine : use p = .user g v := sound.use_of_has (u := .user g v) ⟨at_.1, at_.2, there⟩
      have stored := sound.owns.setPage p page (by simp [mine]) (by simp [mine])
      exact ⟨space, use, { sound with owns := stored }, fun _ kernel _ => kernel, fun _ held => Or.inl held⟩
  next => cases moved

theorem act_freevm (sound : m.Sound img space use) (moved : act img m (.freevm g) = some m') : Next img m use m' := by
  simp only [act] at moved
  split at moved
  next member =>
    split at moved
    next => cases moved
    next st freed =>
      cases moved
      exact sound.freevm member freed
  next => cases moved

theorem act_sound (sound : m.Sound img space use) (op : Op) (moved : act img m op = some m') : Next img m use m' := by
  cases op with
  | kalloc => exact act_kalloc sound moved
  | kfree p => exact act_kfree sound moved
  | setupkvm => exact act_setupkvm sound moved
  | inituvm g init => exact act_inituvm sound moved
  | allocuvm g newsz => exact act_allocuvm sound moved
  | deallocuvm g newsz => exact act_deallocuvm sound moved
  | copyuvm g => exact act_copyuvm sound moved
  | roundUp g => exact act_roundUp sound moved
  | clearpteu g => exact act_clearpteu sound moved
  | store g v page => exact act_store sound moved
  | freevm g => exact act_freevm sound moved

end Actions

end Pool

theorem Owns.reorder {img : Image} {st : Phys} {space : Nat → Option Space} {use : Nat → Use}
    (owns : Owns img st space use) {l : List Nat} (perm : st.freelist.Perm l) :
    Owns img { st with freelist := l } space use := by
  have same : ∀ q w, Refers l space q w ↔ Refers st.freelist space q w := by
    intro q w
    cases w with
    | free => exact perm.mem_iff.symm
    | _ => exact Iff.rfl
  exact {
    refers := fun q w here => owns.refers q w ((same q w).mp here)
    referred := fun q notHeld known => (same q _).mpr (owns.referred q notHeld known)
    nodup := perm.nodup owns.nodup
    allocatable := owns.allocatable
    rep := owns.rep
    inDir := owns.inDir }

theorem Owns.hide {img : Image} {st : Phys} {space : Nat → Option Space} {use : Nat → Use} (shown hidden : List Nat)
    (owns : Owns img { st with freelist := shown ++ hidden } space use) :
    ∃ use', Owns img { st with freelist := shown } space use' ∧ (∀ p ∈ hidden, use' p = .kernel) ∧
      ∀ p, p ∉ hidden → use' p = use p := by
  induction hidden generalizing use with
  | nil => exact ⟨use, by simpa using owns, by simp, fun _ _ => rfl⟩
  | cons p rest ih =>
    have front := owns.reorder List.perm_middle
    have taken := front.take (shown ++ rest) rfl .kernel (Or.inl rfl)
    have fresh : p ∉ rest := by
      have nodup := front.nodup
      simp only [List.nodup_cons, List.mem_append, not_or] at nodup
      exact nodup.1.2
    obtain ⟨use', owns', kernel, others⟩ := ih taken
    refine ⟨use', owns', ?_, ?_⟩
    · intro q member
      rcases List.mem_cons.mp member with rfl | later
      · rw [others q fresh, Function.update_self]
      · exact kernel q later
    · intro q notIn
      rw [List.mem_cons, not_or] at notIn
      rw [others q notIn.2, Function.update_of_ne notIn.1]

theorem Owns.reveal {img : Image} {st : Phys} {space : Nat → Option Space} {use : Nat → Use} (hidden : List Nat)
    (owns : Owns img st space use) (distinct : hidden.Nodup) (kernel : ∀ p ∈ hidden, use p = .kernel) :
    ∃ use', Owns img { st with freelist := st.freelist ++ hidden } space use' ∧
      ∀ p, p ∉ hidden → use' p = use p := by
  induction hidden generalizing st use with
  | nil => exact ⟨use, by simpa using owns, fun _ _ => rfl⟩
  | cons p rest ih =>
    obtain ⟨fresh, restDistinct⟩ := List.nodup_cons.mp distinct
    have given := owns.give (Or.inl (kernel p List.mem_cons_self))
    have others (q : Nat) (member : q ∈ rest) : Function.update use p .free q = .kernel := by
      have apart : q ≠ p := by
        rintro rfl
        exact fresh member
      rw [Function.update_of_ne apart]
      exact kernel q (List.mem_cons_of_mem p member)
    obtain ⟨use', owns', kept⟩ := ih given restDistinct others
    refine ⟨use', owns'.reorder List.perm_middle.symm, ?_⟩
    intro q notIn
    rw [List.mem_cons, not_or] at notIn
    rw [kept q notIn.2, Function.update_of_ne notIn.1]

namespace Pool

theorem step_sound {img : Image} {m m' : Pool} (call : Call) (sound : ∃ space use, m.Sound img space use)
    (moved : step img m call = some m') : ∃ space use, m'.Sound img space use := by
  obtain ⟨space, use, sound⟩ := sound
  obtain ⟨next, acted, rfl⟩ := Option.map_eq_some_iff.mp moved
  have split := List.take_append_drop call.grant m.phys.freelist
  have whole : Owns img
      { m.phys with freelist := (m.phys.freelist.take call.grant) ++ m.phys.freelist.drop call.grant }
      space use := by
    rw [split]
    exact sound.owns
  have distinct : (m.phys.freelist.drop call.grant).Nodup := sound.owns.nodup.drop
  have free (p : Nat) (hidden : p ∈ m.phys.freelist.drop call.grant) : use p = .free :=
    sound.owns.use_free (List.mem_of_mem_drop hidden)
  obtain ⟨use₁, owns₁, kernel₁, others₁⟩ := whole.hide
  have notHeld (p : Nat) (hidden : p ∈ m.phys.freelist.drop call.grant) : p ∉ m.held := by
    intro held
    have kernel := sound.held p held
    rw [free p hidden] at kernel
    cases kernel
  have shown : (m.withFree (m.phys.freelist.take call.grant)).Sound img space use₁ := by
    refine ⟨owns₁, sound.dirs, sound.dirsNodup, ?_, sound.heldNodup, sound.size⟩
    intro p held
    rw [others₁ p fun hidden => notHeld p hidden held]
    exact sound.held p held
  obtain ⟨space₂, use₂, sound₂, kept, given⟩ := act_sound shown call.op acted
  have kernel₂ (p : Nat) (hidden : p ∈ m.phys.freelist.drop call.grant) : use₂ p = .kernel :=
    kept p (kernel₁ p hidden) (notHeld p hidden)
  obtain ⟨use₃, owns₃, others₃⟩ := sound₂.owns.reveal (m.phys.freelist.drop call.grant) distinct kernel₂
  refine ⟨space₂, use₃, ⟨owns₃, sound₂.dirs, sound₂.dirsNodup, ?_, sound₂.heldNodup, sound₂.size⟩⟩
  intro p held
  -- What the kernel got during the call was not among the hidden pages.
  have visible : p ∉ m.phys.freelist.drop call.grant := by
    intro hidden
    rcases given p held with old | free
    · exact notHeld p hidden old
    · rw [kernel₁ p hidden] at free
      cases free
  rw [others₃ p visible]
  exact sound₂.held p held

theorem boot_sound {img : Image} {st : Phys} (sound : st.Sound img) :
    ∃ space use, (boot st).Sound img space use := by
  refine ⟨fun _ => none, fun p => if p ∈ st.freelist then .free else .fixed, ⟨⟨?_, ?_, sound.nodup, ?_, ?_, ?_⟩, ?_, ?_,
    ?_, ?_, ?_⟩⟩
  · intro p u here
    cases u with
    | free =>
      have member : p ∈ st.freelist := here
      simp [member]
    | _ => simp [Refers] at here
  · intro p
    split
    next member => exact fun _ _ => member
    next => exact fun _ known => absurd rfl known
  · intro p known
    apply sound.allocatable
    by_contra notFree
    exact known (by simp [notFree])
  · simp
  · simp
  · simp [boot]
  · simp [boot]
  · simp [boot]
  · simp [boot]
  · simp [boot]

/-- In every state that the calls reach, every page has at most one use. -/
theorem one_use_per_page (img : Image) (start : Machine img) (calls : List Call) (m : Pool)
    (run : Run.exec (step img) (boot start.st) calls = some m) : m.Exclusive := by
  obtain ⟨space, use, reached⟩ := Run.exec_invariant (step img) (fun m => ∃ space use, m.Sound img space use)
    (fun _ call _ before moved => step_sound call before moved) (boot start.st) m calls (boot_sound start.sound) run
  exact reached.exclusive

theorem step_all {img : Image} {m m' : Pool} {grant : Nat} {op : Op} (enough : m.phys.freelist.length ≤ grant)
    (acted : act img m op = some m') : step img m ⟨grant, op⟩ = some m' := by
  have same : m.withFree (m.phys.freelist.take grant) = m := by
    rw [withFree, List.take_of_length_le enough]
  rw [step, same, acted, Option.map_some, List.drop_of_length_le enough, List.append_nil]
  rfl

-- A machine with `n` pages above the kernel.
def someMachine (n : Nat) (few : n ≤ 1000) : Machine smallKernel where
  st := ⟨fun _ _ => 0, List.range' 0x400 n⟩
  sound := by
    refine ⟨List.nodup_range', ?_⟩
    intro p member
    rw [List.mem_range'_1] at member
    simp only [Image.Allocatable, smallKernel, PGSIZE, PHYSTOP]
    omega

-- The calls of `userinit`, with `n` pages left over.
def userinitCalls (n g : Nat) : List Call := [⟨n + 68, .kalloc⟩, ⟨n + 67, .setupkvm⟩, ⟨n + 2, .inituvm g []⟩]

-- The first process takes 68 pages: its kernel stack, the directory and the kernel's tables, a page and its table.
theorem userinit_run (n : Nat) (few : n + 68 ≤ 1000) : ∃ g p m,
    Run.exec (step smallKernel) (boot (someMachine (n + 68) few).st) (userinitCalls n g) = some m ∧ m.dirs = [g] ∧
      m.held = [0x400] ∧ m.size g = PGSIZE ∧ m.phys.freelist.length = n ∧ m.phys.userPage g 0 = some p := by
  obtain ⟨m₁, moved, free, dirs, held⟩ : ∃ m₁, step smallKernel (boot (someMachine (n + 68) few).st)
      ⟨n + 68, .kalloc⟩ = some m₁ ∧ m₁.phys.freelist = List.range' 0x401 (n + 67) ∧ m₁.dirs = [] ∧ m₁.held = [0x400] :=
    ⟨_, step_all (by simp [boot, someMachine]) rfl, rfl, rfl, rfl⟩
  obtain ⟨space, use, sound₁⟩ := step_sound _ (boot_sound (someMachine (n + 68) few).sound) moved
  rcases setupkvm_spec smallKernel _ sound₁.owns.sound with ⟨st, -, short⟩ | ⟨g, st, A, role, made, part⟩
  · rw [free, List.length_range'] at short
    omega
  · have second : step smallKernel m₁ ⟨n + 67, .setupkvm⟩ = some (m₁.add st g 0) :=
      step_all (by simp [free]) (by simp only [act, made])
    obtain ⟨-, fresh⟩ := freshPart part
    rw [free, List.length_range', show n + 67 - 65 = n + 2 by omega] at fresh
    cases first : st.freelist with
    | nil =>
      have left := fresh.free
      simp [first] at left
    | cons mem rest =>
      obtain ⟨plan, st', A', role', mapped, grown, ok, part'⟩ :=
        growPage_spec fresh (show 0 < USERPAGES by decide) mem rest first
      obtain rfl : plan = ⟨1, n, false⟩ := by simpa [Plan.growPage] using grown.symm
      obtain ⟨p, value, member⟩ := part'.mapped 0 (by decide) ⟨Nat.zero_lt_one, by simp⟩
      obtain ⟨-, rfl⟩ : 0 = 0 ∧ p = mem := by simpa using member
      obtain ⟨page, filled⟩ : ∃ page, page = Bytes.putBytes (st'.mem p) 0 0 fun i => [].getD i 0 := ⟨_, rfl⟩
      have loaded : inituvm st g [] = .ok (st'.setPage p page) := by
        rw [Nat.zero_mul] at ok
        simp only [inituvm, kalloc, first, ok, filled]
        rfl
      obtain ⟨last, third, is⟩ : ∃ last, step smallKernel (m₁.add st g 0) ⟨n + 2, .inituvm g []⟩ = some last ∧
          last = (m₁.add st g 0).resize (st'.setPage p page) g PGSIZE := by
        refine ⟨_, step_all (Nat.le_of_eq fresh.free) ?_, rfl⟩
        simp only [act, add, loaded, List.mem_cons, true_or, if_true]
      refine ⟨g, p, last, ?_, by simp [is, resize, add, dirs], by simp [is, resize, add, held], by simp [is, resize, add],
        by simpa [is, resize, Phys.setPage] using part'.free, ?_⟩
      · rw [userinitCalls, Run.exec_cons, moved, Option.bind_some, Run.exec_cons, second, Option.bind_some,
          Run.exec_cons, third]
        rfl
      · have there : st'.userPage g 0 = some p := by simp [part'.inv.rep.userPage_eq (show 0 < ALLPAGES by decide), value]
        have stored := part'.inv.stored (Stored.setPage (by decide) there page)
        simpa [is, resize, add, value] using stored.rep.userPage_eq (show 0 < ALLPAGES by decide)

theorem hundred_few : 100 ≤ 1000 := by decide

theorem one_use_per_page_user : ∃ g p m, Run.exec (step smallKernel) (boot (someMachine 100 hundred_few).st)
    (userinitCalls 32 g) = some m ∧ m.dirs = [g] ∧ m.held = [0x400] ∧ m.phys.userPage g 0 = some p ∧ m.Exclusive := by
  obtain ⟨g, p, m, run, dirs, held, -, -, page⟩ := userinit_run 32 hundred_few
  exact ⟨g, p, m, run, dirs, held, page, one_use_per_page smallKernel _ _ _ run⟩

end Pool

end Xv6.Vm
