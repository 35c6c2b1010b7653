import Xv6.Vm.Alloc

set_option autoImplicit false

/-!
# The user part in numbers

`allocuvm` seen from outside: so many pages mapped from 0 on, so many free. A page that opens a new
table region takes two pages. When only one is left it is taken for the page itself, and the page is
counted although nothing maps it.
-/

namespace Xv6.Vm

structure Plan where
  pages : Nat
  free : Nat
  hole : Bool
deriving DecidableEq

def Plan.growPage (p : Plan) : Option Plan :=
  if p.free = 0 then none
  else if p.pages % NPTENTRIES ≠ 0 then some ⟨p.pages + 1, p.free - 1, p.hole⟩
  else if p.free = 1 then some ⟨p.pages + 1, 0, true⟩
  else some ⟨p.pages + 1, p.free - 2, p.hole⟩

def Plan.grow : Nat → Plan → Option Plan
  | 0, p => some p
  | count + 1, p => p.growPage.bind (Plan.grow count)

/-- The last page counted is the one without a table. -/
def Plan.Mapped (p : Plan) (v : Nat) : Prop := v < p.pages ∧ ¬ (p.hole = true ∧ v + 1 = p.pages)

def Plan.HasTable (p : Plan) (d : Nat) : Prop :=
  d * NPTENTRIES < p.pages ∧ ¬ (p.hole = true ∧ d * NPTENTRIES + 1 = p.pages)

/-- A page is lost only where its table would have been the last free page. -/
def Plan.Sound (p : Plan) : Prop := p.hole = true → p.free = 0 ∧ p.pages % NPTENTRIES = 1

instance (p : Plan) (v : Nat) : Decidable (p.Mapped v) := by
  unfold Plan.Mapped
  infer_instance

instance (p : Plan) (d : Nat) : Decidable (p.HasTable d) := by
  unfold Plan.HasTable
  infer_instance

theorem Plan.growPage_pages {p q : Plan} (grown : p.growPage = some q) : q.pages = p.pages + 1 := by
  rw [growPage] at grown
  split at grown
  next => cases grown
  next =>
    split at grown
    next => cases grown; rfl
    next => split at grown <;> cases grown <;> rfl

theorem Plan.grow_pages {count : Nat} {p q : Plan} (grown : p.grow count = some q) : q.pages = p.pages + count := by
  induction count generalizing p with
  | zero =>
    cases grown
    rfl
  | succ count ih =>
    rw [grow] at grown
    cases first : p.growPage with
    | none => simp [first] at grown
    | some next =>
      rw [first, Option.bind_some] at grown
      rw [ih grown, growPage_pages first]
      omega

variable {img : Image} {st : Phys} {g : Nat} {A : Space} {role : Nat → Role}

/-- The directory and the pages obtained so far agree with the numbers. -/
structure UserPart (img : Image) (st : Phys) (g : Nat) (A : Space) (role : Nat → Role)
    (got : List (Nat × Nat)) (plan : Plan) : Prop where
  inv : Inv img st g A role
  free : st.freelist.length = plan.free
  mapped : ∀ v < USERPAGES, plan.Mapped v → ∃ p, A.entry v = userEntry p ∧ (v, p) ∈ got
  unmapped : ∀ v < USERPAGES, ¬ plan.Mapped v → A.entry v = 0
  tables : ∀ d < 512, A.table d ≠ none ↔ plan.HasTable d
  sound : plan.Sound
  kernel : ∀ d, 512 ≤ d → (A.table d ≠ none ↔ kernelTable ALLPAGES d)
  closed : ∀ v, USERPAGES ≤ v → A.entry v / PTE_U % 2 = 0
  obtained : ∀ v p, (v, p) ∈ got → 0 < p

theorem mappages_present (rep : Rep st.mem g A) (v pa perm : Nat) (below : v < ALLPAGES)
    (there : present (A.entry v) = true) : mappages st g (v * PGSIZE) PGSIZE pa perm = .error .remap := by
  have one := mappages_pages st g perm v 1 pa (by omega) below
  have address := pageAddr_mod below
  rw [Nat.one_mul, address] at one
  rw [one, mapLoop_present rep v pa perm 0 below there]

theorem userPage_inv (inv : Inv img st g A role) (v mem : Nat) (rest : List Nat) (first : st.freelist = mem :: rest)
    (page : Page) :
    Inv img ({ st with freelist := rest }.setPage mem page) g A (Function.update role mem (.user v)) := by
  have owned := inv.owned
  rw [first] at owned
  have wasFree : role mem = .free := (owned.free mem).mp List.mem_cons_self
  have erased := inv.setPage mem page (by rw [wasFree]; simp) (by rw [wasFree]; simp)
  exact ⟨erased.rep, owned.take (.user v) (by simp)⟩

theorem mapNewPage (inv : Inv img st g A role) (v mem : Nat) (rest : List Nat) (user : v < USERPAGES)
    (fresh : present (A.entry v) = false) (first : st.freelist = mem :: rest) (page : Page) (perm : Nat)
    (small : perm ||| PTE_P < PGSIZE) (taken : Phys) (filled : taken = { st with freelist := rest }.setPage mem page) :
    (A.table (v / NPTENTRIES) = none ∧ rest = [] ∧ Inv img taken g A (Function.update role mem (.user v)) ∧
        mappages taken g (v * PGSIZE) PGSIZE (mem * PGSIZE) perm = .ok (false, taken)) ∨
      ∃ st' A' role', Inv img st' g A' role' ∧
        A'.entry = Function.update A.entry v (mem * PGSIZE + (perm ||| PTE_P)) ∧
        Provided taken A (v / NPTENTRIES) st' A' ∧
        (∀ p, p ≠ g → (∀ d, A.table d ≠ some p) → p ∉ taken.freelist → st'.mem p = taken.mem p) ∧
        mappages taken g (v * PGSIZE) PGSIZE (mem * PGSIZE) perm = .ok (true, st') := by
  have inv' := userPage_inv inv v mem rest first page
  have frame := (inv.owned.allocatable mem
    (by rw [(inv.owned.free mem).mp (first ▸ List.mem_cons_self)]; simp)).lt
  have everywhere := userPage_lt user
  have one := mappages_pages taken g perm v 1 (mem * PGSIZE) (by omega) (by omega)
  have address := pageAddr_mod everywhere
  have word : mem * PGSIZE + (perm ||| PTE_P) < 2 ^ 32 := by
    simp only [PGSIZE] at small ⊢
    omega
  have ours : pteAddr (mem * PGSIZE + (perm ||| PTE_P)) = mem := by
    simp only [pteAddr, PGSIZE] at small ⊢
    omega
  rw [Nat.one_mul, address] at one
  rw [← filled] at inv'
  rcases mapLoop_step inv' v (mem * PGSIZE) perm 0 everywhere fresh word
      (fun _ => by rw [ours, Function.update_self]) with
    ⟨missing, empty, stopped⟩ | ⟨st', A', role', mapped, entries, provided, kept, continues⟩
  · have last : rest = [] := by
      rw [filled] at empty
      exact empty
    exact Or.inl ⟨missing, last, inv', by rw [one, stopped]⟩
  · exact Or.inr ⟨st', A', role', mapped, entries, provided, kept, by rw [one, continues, mapLoop]⟩

theorem mapUserPage (inv : Inv img st g A role) (v mem : Nat) (rest : List Nat) (user : v < USERPAGES)
    (fresh : present (A.entry v) = false) (first : st.freelist = mem :: rest) (taken : Phys)
    (zeroed : taken = { st with freelist := rest }.setPage mem (fun _ => 0)) :
    (A.table (v / NPTENTRIES) = none ∧ rest = [] ∧ Inv img taken g A (Function.update role mem (.user v)) ∧
        mappages taken g (v * PGSIZE) PGSIZE (mem * PGSIZE) (PTE_W + PTE_U) = .ok (false, taken)) ∨
      ∃ st' A' role', Inv img st' g A' role' ∧ A'.entry = Function.update A.entry v (userEntry mem) ∧
        Provided taken A (v / NPTENTRIES) st' A' ∧
        (∀ p, p ≠ g → (∀ d, A.table d ≠ some p) → p ∉ taken.freelist → st'.mem p = taken.mem p) ∧
        mappages taken g (v * PGSIZE) PGSIZE (mem * PGSIZE) (PTE_W + PTE_U) = .ok (true, st') :=
  mapNewPage inv v mem rest user fresh first _ _ (by decide) taken zeroed

-- `mappages` returns, so the page was not present. Without a page for its table it is not mapped.
theorem mapUserPage_ok (inv : Inv img st g A role) {v mem : Nat} {rest : List Nat} (user : v < USERPAGES)
    (first : st.freelist = mem :: rest) {b : Bool} {st' : Phys}
    (ok : mappages ({ st with freelist := rest }.setPage mem fun _ => 0) g (v * PGSIZE) PGSIZE (mem * PGSIZE)
      (PTE_W + PTE_U) = .ok (b, st')) :
    (∃ role', Inv img st' g A role' ∧ st' = { st with freelist := rest }.setPage mem fun _ => 0) ∨
      ∃ A' role', Inv img st' g A' role' ∧ A'.entry = Function.update A.entry v (userEntry mem) ∧
        Provided ({ st with freelist := rest }.setPage mem fun _ => 0) A (v / NPTENTRIES) st' A' ∧
        ∀ p, p ≠ g → (∀ d, A.table d ≠ some p) → p ∉ rest →
          st'.mem p = ({ st with freelist := rest }.setPage mem fun _ => 0).mem p := by
  by_cases there : present (A.entry v) = true
  · rw [mappages_present (userPage_inv inv v mem rest first fun _ => 0).rep v _ _ (userPage_lt user) there] at ok
    cases ok
  · rcases mapUserPage inv v mem rest user (by simpa using there) first _ rfl with
      ⟨-, -, inv', stopped⟩ | ⟨st₁, A', role', inv', entries, provided, same, mapped⟩
    · rw [stopped] at ok
      cases ok
      exact Or.inl ⟨_, inv', rfl⟩
    · rw [mapped] at ok
      cases ok
      exact Or.inr ⟨A', role', inv', entries, provided, same⟩

section GrowPage

variable {got : List (Nat × Nat)} {plan : Plan} {mem : Nat} {rest : List Nat}

theorem UserPart.solid (part : UserPart img st g A role got plan) (first : st.freelist = mem :: rest) :
    plan.hole = false := by
  by_contra hole
  have spent := (part.sound (by simpa using hole)).1
  have count := part.free
  rw [first, List.length_cons] at count
  omega

theorem UserPart.table_iff_inside (part : UserPart img st g A role got plan) (solid : plan.hole = false)
    (below : plan.pages < USERPAGES) :
    A.table (plan.pages / NPTENTRIES) ≠ none ↔ plan.pages % NPTENTRIES ≠ 0 := by
  have index : plan.pages / NPTENTRIES < 512 := by
    simp only [USERPAGES, KERNBASE, PGSIZE, NPTENTRIES] at below ⊢
    omega
  rw [part.tables _ index]
  simp only [Plan.HasTable, solid, NPTENTRIES]
  simp
  omega

theorem UserPart.obtained_append (part : UserPart img st g A role got plan) (positive : 0 < mem) (v p : Nat)
    (member : (v, p) ∈ got ++ [(plan.pages, mem)]) : 0 < p := by
  rcases List.mem_append.mp member with old | new
  · exact part.obtained v p old
  · simp only [List.mem_singleton, Prod.mk.injEq] at new
    omega

/-- No page is left for the table: the page is taken and stays unmapped. -/
theorem UserPart.lose (part : UserPart img st g A role got plan) (solid : plan.hole = false)
    (opens : plan.pages % NPTENTRIES = 0) (positive : 0 < mem) {st' : Phys} {role' : Nat → Role}
    (inv' : Inv img st' g A role') (empty : st'.freelist = []) :
    UserPart img st' g A role' (got ++ [(plan.pages, mem)]) ⟨plan.pages + 1, 0, true⟩ where
  inv := inv'
  free := by rw [empty, List.length_nil]
  mapped := by
    rintro v user ⟨low, notLast⟩
    have old : plan.Mapped v := ⟨by simp at low notLast; omega, by simp [solid]⟩
    obtain ⟨p, value, member⟩ := part.mapped v user old
    exact ⟨p, value, List.mem_append_left _ member⟩
  unmapped := by
    intro v user notMapped
    apply part.unmapped v user
    rintro ⟨low, -⟩
    exact notMapped ⟨by dsimp only; omega, by simp; omega⟩
  tables := by
    intro d inside
    rw [part.tables d inside]
    simp only [Plan.HasTable, solid, NPTENTRIES] at opens ⊢
    simp
    omega
  sound := by
    intro _
    refine ⟨rfl, ?_⟩
    simp only [NPTENTRIES] at opens ⊢
    omega
  kernel := part.kernel
  closed := part.closed
  obtained := part.obtained_append positive

theorem UserPart.extend (part : UserPart img st g A role got plan) (solid : plan.hole = false)
    (below : plan.pages < USERPAGES) (positive : 0 < mem) {taken st' : Phys} {A' : Space} {role' : Nat → Role}
    (inv' : Inv img st' g A' role') (entries : A'.entry = Function.update A.entry plan.pages (userEntry mem))
    (provided : Provided taken A (plan.pages / NPTENTRIES) st' A') :
    UserPart img st' g A' role' (got ++ [(plan.pages, mem)]) ⟨plan.pages + 1, st'.freelist.length, false⟩ where
  inv := inv'
  free := rfl
  mapped := by
    rintro v user ⟨low, -⟩
    rw [entries]
    by_cases same : v = plan.pages
    · exact ⟨mem, by rw [same, Function.update_self], by simp [same]⟩
    · obtain ⟨p, value, member⟩ := part.mapped v user ⟨by dsimp only at low; omega, by simp [solid]⟩
      exact ⟨p, by rw [Function.update_of_ne same, value], List.mem_append_left _ member⟩
  unmapped := by
    intro v user notMapped
    have high : plan.pages + 1 ≤ v := by
      by_contra low
      exact notMapped ⟨by dsimp only; omega, by simp⟩
    rw [entries, Function.update_of_ne (by omega)]
    exact part.unmapped v user fun mapped => by have := mapped.1; omega
  tables := by
    intro d inside
    have opens := part.table_iff_inside solid below
    have old := part.tables d inside
    simp only [Plan.HasTable, solid, Bool.false_eq_true, false_and, not_false_eq_true, and_true, NPTENTRIES] at old opens ⊢
    rcases provided with ⟨there, tables, -⟩ | ⟨missing, t, -, tables⟩
    · have inRegion := opens.mp there
      rw [tables, old]
      omega
    · have first : plan.pages % 1024 = 0 := by
        by_contra inRegion
        exact opens.mpr inRegion missing
      rw [tables]
      by_cases same : d = plan.pages / 1024
      · rw [same, Function.update_self]
        simp
        omega
      · rw [Function.update_of_ne same, old]
        omega
  sound := by simp [Plan.Sound]
  kernel := by
    intro d high
    have other : d ≠ plan.pages / NPTENTRIES := by
      simp only [USERPAGES, KERNBASE, PGSIZE, NPTENTRIES] at below ⊢
      omega
    rcases provided with ⟨-, tables, -⟩ | ⟨-, t, -, tables⟩
    · rw [tables]
      exact part.kernel d high
    · rw [tables, Function.update_of_ne other]
      exact part.kernel d high
  closed := by
    intro v kernel
    rw [entries, Function.update_of_ne (by omega)]
    exact part.closed v kernel
  obtained := part.obtained_append positive

theorem growPage_spec (part : UserPart img st g A role got plan) (below : plan.pages < USERPAGES) (mem : Nat)
    (rest : List Nat) (first : st.freelist = mem :: rest) :
    ∃ plan' st' A' role' mapped, plan.growPage = some plan' ∧
      mappages ({ st with freelist := rest }.setPage mem (fun _ => 0)) g (plan.pages * PGSIZE) PGSIZE
        (mem * PGSIZE) (PTE_W + PTE_U) = .ok (mapped, st') ∧
      UserPart img st' g A' role' (got ++ [(plan.pages, mem)]) plan' := by
  have count : rest.length + 1 = plan.free := by rw [← part.free, first, List.length_cons]
  have solid := part.solid first
  have positive : 0 < mem := (part.inv.owned.allocatable mem
    (by rw [(part.inv.owned.free mem).mp (first ▸ List.mem_cons_self)]; simp)).lt.1
  have fresh := part.unmapped plan.pages below fun mapped => Nat.lt_irrefl _ mapped.1
  have hasTable := part.table_iff_inside solid below
  have some_ : ¬ plan.free = 0 := by omega
  rcases mapUserPage part.inv plan.pages mem rest below (by rw [fresh]; rfl) first _ rfl with
    ⟨missing, restEmpty, inv, stopped⟩ | ⟨st', A', role', inv', entries, provided, -, mapped⟩
  · have opens : plan.pages % NPTENTRIES = 0 := by
      by_contra inRegion
      exact hasTable.mpr inRegion missing
    have alone : plan.free = 1 := by rw [← count, restEmpty]; rfl
    refine ⟨_, _, A, _, false, ?_, stopped, part.lose solid opens positive inv (by simp [Phys.setPage, restEmpty])⟩
    simp [Plan.growPage, alone, opens]
  · refine ⟨_, st', A', role', true, ?_, mapped, part.extend solid below positive inv' entries provided⟩
    rcases provided with ⟨there, -, free⟩ | ⟨missing, t, free, -⟩
    · have left : st'.freelist = rest := free
      rw [Plan.growPage, if_neg some_, if_pos (hasTable.mp there), left, solid, ← count, Nat.add_sub_cancel]
    · have opens : ¬ plan.pages % NPTENTRIES ≠ 0 := fun inRegion => hasTable.mpr inRegion missing
      have left : rest = t :: st'.freelist := free
      rw [left, List.length_cons] at count
      rw [Plan.growPage, if_neg some_, if_neg opens, if_neg (by omega), solid, ← count]
      rfl

end GrowPage

theorem lt_pagesOf_iff (v sz : Nat) : v < pagesOf sz ↔ v * PGSIZE < sz := by
  simp only [pagesOf, PGSIZE]
  omega

section Invariant

-- `P` goes from page to page. The loop ends behind the last page, or takes everything back.
variable {oldsz newsz : Nat} (P : Nat → Phys → Prop)
  (page : ∀ v st mem rest b st', v < USERPAGES → P v st → st.freelist = mem :: rest →
    mappages ({ st with freelist := rest }.setPage mem fun _ => 0) g (v * PGSIZE) PGSIZE (mem * PGSIZE)
      (PTE_W + PTE_U) = .ok (b, st') → P (v + 1) st')

include page

theorem allocLoop_rule (below : newsz < KERNBASE) (fuel v : Nat) (pages : List (Nat × Nat)) (start : v ≤ pagesOf newsz)
    (enough : pagesOf newsz ≤ v + fuel) (holds : P v st) {r : Grown}
    (ok : allocLoop img g oldsz newsz fuel (v * PGSIZE) st pages = .ok r) :
    (r.sz = newsz ∧ P (pagesOf newsz) r.st) ∨
      (r.sz = 0 ∧ ∃ v st₁, v < pagesOf newsz ∧ P v st₁ ∧ st₁.freelist = [] ∧
        deallocuvm img st₁ g newsz oldsz = .ok r.st) := by
  induction fuel generalizing v st pages with
  | zero =>
    cases ok
    rw [show v = pagesOf newsz by omega] at holds
    exact Or.inl ⟨rfl, holds⟩
  | succ fuel ih =>
    rw [allocLoop] at ok
    split at ok
    next more =>
      have high := (lt_pagesOf_iff v newsz).mpr more
      have user : v < USERPAGES := by
        simp only [KERNBASE, USERPAGES, PGSIZE] at below more ⊢
        omega
      cases first : st.freelist with
      | nil =>
        simp only [kalloc, first] at ok
        obtain ⟨st', freed, ok⟩ := ok_of_bind ok
        cases ok
        exact Or.inr ⟨rfl, v, st, high, holds, first, freed⟩
      | cons mem rest =>
        simp only [kalloc, first] at ok
        obtain ⟨result, mapped, ok⟩ := ok_of_bind ok
        have next : v * PGSIZE + PGSIZE = (v + 1) * PGSIZE := (Nat.succ_mul v PGSIZE).symm
        rw [next] at ok
        exact ih (v + 1) _ (by omega) (by omega) (page v st mem rest _ _ user holds first mapped) ok
    next done =>
      cases ok
      rw [← lt_pagesOf_iff] at done
      rw [show v = pagesOf newsz by omega] at holds
      exact Or.inl ⟨rfl, holds⟩

theorem allocuvm_rule (holds : P (pagesOf oldsz) st) {r : Grown} (ok : allocuvm img st g oldsz newsz = .ok r) :
    (KERNBASE ≤ newsz ∧ r.sz = 0 ∧ r.st = st) ∨ (newsz < oldsz ∧ r.sz = oldsz ∧ r.st = st) ∨
      (newsz < KERNBASE ∧ oldsz ≤ newsz ∧ ((r.sz = newsz ∧ P (pagesOf newsz) r.st) ∨
        (r.sz = 0 ∧ ∃ v st₁, v < pagesOf newsz ∧ P v st₁ ∧ st₁.freelist = [] ∧
          deallocuvm img st₁ g newsz oldsz = .ok r.st))) := by
  rw [allocuvm] at ok
  split at ok
  next high =>
    cases ok
    exact Or.inl ⟨high, rfl, rfl⟩
  next below =>
    split at ok
    next smaller =>
      cases ok
      exact Or.inr (Or.inl ⟨smaller, rfl, rfl⟩)
    next larger =>
      rw [pgRoundUp_eq] at ok
      refine Or.inr (Or.inr ⟨Nat.not_le.mp below, Nat.not_lt.mp larger, ?_⟩)
      refine allocLoop_rule P page (Nat.not_le.mp below) _ _ _ ?_ ?_ holds ok
      · simp only [pagesOf, PGSIZE]
        omega
      · simp only [pagesOf, PGSIZE]
        omega

end Invariant

/-- What a call of `allocuvm` has done, by what the numbers say of it. -/
def Allocated (img : Image) (g : Nat) (got : List (Nat × Nat)) (outcome : Except Panic Grown) :
    Option (Nat × Plan) → Prop
  | some (sz, plan) => ∃ st A role pages, outcome = .ok ⟨sz, st, pages⟩ ∧
      UserPart img st g A role (got ++ pages) plan
  | none => ∃ st A role pages, outcome = .ok ⟨0, st, pages⟩ ∧ Inv img st g A role

theorem allocLoop_spec {got pages : List (Nat × Nat)} {plan : Plan} (oldsz newsz fuel count : Nat)
    (part : UserPart img st g A role (got ++ pages) plan) (user : newsz < KERNBASE)
    (left : plan.pages + count = max plan.pages (pagesOf newsz)) (enough : count ≤ fuel) :
    Allocated img g got (allocLoop img g oldsz newsz fuel (plan.pages * PGSIZE) st pages)
      ((plan.grow count).map fun plan => (newsz, plan)) := by
  induction count generalizing st A role pages plan fuel with
  | zero =>
    have done : ¬ plan.pages * PGSIZE < newsz := by
      rw [← lt_pagesOf_iff]
      omega
    refine ⟨st, A, role, pages, ?_, part⟩
    cases fuel with
    | zero => rfl
    | succ fuel => rw [allocLoop, if_neg done]
  | succ count ih =>
    obtain ⟨fuel, rfl⟩ : ∃ k, fuel = k + 1 := ⟨fuel - 1, by omega⟩
    have more : plan.pages * PGSIZE < newsz := by
      rw [← lt_pagesOf_iff]
      omega
    have below : plan.pages < USERPAGES := by
      simp only [KERNBASE, PGSIZE, USERPAGES] at user more ⊢
      omega
    rw [Plan.grow]
    cases first : st.freelist with
    | nil =>
      have empty : plan.growPage = none := by
        have spent := part.free
        rw [first, List.length_nil] at spent
        simp [Plan.growPage, ← spent]
      obtain ⟨st', role', ok, inv'⟩ := deallocuvm_ok part.inv newsz oldsz (Nat.le_of_lt user)
      rw [empty]
      refine ⟨st', _, role', pages, ?_, inv'⟩
      rw [allocLoop, if_pos more]
      simp only [kalloc, first, ok]
      rfl
    | cons mem rest =>
      obtain ⟨plan', st', A', role', mapped, grown, ok, part'⟩ := growPage_spec part below mem rest first
      have next : (plan.pages * PGSIZE + PGSIZE) = plan'.pages * PGSIZE := by
        rw [Plan.growPage_pages grown, Nat.succ_mul]
      have turn : allocLoop img g oldsz newsz (fuel + 1) (plan.pages * PGSIZE) st pages =
          allocLoop img g oldsz newsz fuel (plan'.pages * PGSIZE) st' (pages ++ [(plan.pages, mem)]) := by
        rw [allocLoop, if_pos more]
        simp only [kalloc, first, ok, next, pageAddr_div]
        rfl
      rw [turn, grown, Option.bind_some]
      apply ih fuel
      · rw [← List.append_assoc]
        exact part'
      · have step := Plan.growPage_pages grown
        omega
      · omega

/-- `allocuvm` in numbers: the size it returns and the pages that are left, or a return of 0. -/
def Plan.alloc (plan : Plan) (sz newsz : Nat) : Option (Nat × Plan) :=
  if newsz ≥ KERNBASE then none
  else if newsz < sz then some (sz, plan)
  else (plan.grow (pagesOf newsz - pagesOf sz)).map fun plan => (newsz, plan)

theorem pagesOf_mono {a b : Nat} (le : a ≤ b) : pagesOf a ≤ pagesOf b := by
  simp only [pagesOf, PGSIZE]
  omega

theorem Plan.alloc_some {plan plan' : Plan} {sz newsz s : Nat} (grown : plan.alloc sz newsz = some (s, plan')) :
    newsz < KERNBASE ∧ s = max sz newsz := by
  rw [alloc] at grown
  split at grown
  next => cases grown
  next user =>
    split at grown
    next =>
      cases grown
      omega
    next =>
      obtain ⟨q, -, same⟩ := Option.map_eq_some_iff.mp grown
      cases same
      omega

theorem Plan.alloc_none {plan : Plan} {sz newsz : Nat} (failed : plan.alloc sz newsz = none) :
    newsz ≥ KERNBASE ∨ sz ≤ newsz := by
  by_contra fits
  rw [not_or] at fits
  rw [alloc, if_neg fits.1, if_pos (by omega)] at failed
  cases failed

theorem Plan.alloc_pages {plan plan' : Plan} {sz newsz s : Nat} (size : plan.pages = pagesOf sz)
    (grown : plan.alloc sz newsz = some (s, plan')) : plan'.pages = pagesOf s := by
  rw [alloc] at grown
  split at grown
  next => cases grown
  next =>
    split at grown
    next =>
      cases grown
      exact size
    next larger =>
      obtain ⟨q, grows, same⟩ := Option.map_eq_some_iff.mp grown
      cases same
      have mono : pagesOf sz ≤ pagesOf newsz := pagesOf_mono (by omega)
      have total := grow_pages grows
      omega

theorem allocuvm_spec {got : List (Nat × Nat)} {plan : Plan} (part : UserPart img st g A role got plan)
    (sz newsz : Nat) (size : plan.pages = pagesOf sz) :
    Allocated img g got (allocuvm img st g sz newsz) (plan.alloc sz newsz) := by
  rw [allocuvm, Plan.alloc]
  split
  next => exact ⟨st, A, role, [], rfl, part.inv⟩
  next user =>
    split
    next => exact ⟨st, A, role, [], rfl, by rw [List.append_nil]; exact part⟩
    next larger =>
      have mono : pagesOf sz ≤ pagesOf newsz := pagesOf_mono (by omega)
      have enough : pagesOf newsz - pagesOf sz ≤ newsz / PGSIZE + 1 := by
        simp only [pagesOf, PGSIZE]
        omega
      rw [pgRoundUp_eq, ← size]
      apply allocLoop_spec sz newsz _ _ (by rw [List.append_nil]; exact part) (by omega) (by omega)
      omega

end Xv6.Vm
