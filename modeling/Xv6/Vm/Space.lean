import Xv6.Vm.Page

set_option autoImplicit false

/-!
# A page directory as a map

A directory and its tables stand for a map from page numbers to entries. Every page of the allocator
has one role at a time, so a store into one page leaves the map of the others as it was.
-/

namespace Xv6.Vm

structure Space where
  table : Nat → Option Nat
  entry : Nat → Nat

inductive Role where
  | free
  | dir
  | table (d : Nat)
  | user (v : Nat)
  | other
deriving DecidableEq

abbrev USERPAGES : Nat := KERNBASE / PGSIZE
abbrev ALLPAGES : Nat := 2 ^ 32 / PGSIZE

def tableEntry (t : Nat) : Nat := t * PGSIZE + (PTE_P + PTE_W + PTE_U)

def userEntry (p : Nat) : Nat := p * PGSIZE + ((PTE_W + PTE_U) ||| PTE_P)

theorem absent_zero : present 0 = false := rfl

@[simp] theorem present_tableEntry (t : Nat) : present (tableEntry t) = true := by
  rw [present_iff, tableEntry]
  simp only [PGSIZE, PTE_P, PTE_W, PTE_U]
  omega

@[simp] theorem pteAddr_tableEntry (t : Nat) : pteAddr (tableEntry t) = t := by
  simp only [pteAddr, tableEntry, PGSIZE, PTE_P, PTE_W, PTE_U]
  omega

theorem userEntry_eq (p : Nat) : userEntry p = p * 4096 + 7 := rfl

@[simp] theorem present_userEntry (p : Nat) : present (userEntry p) = true := by
  rw [present_iff, userEntry_eq]
  omega

@[simp] theorem pteAddr_userEntry (p : Nat) : pteAddr (userEntry p) = p := by
  simp only [pteAddr, userEntry_eq, PGSIZE]
  omega

-- The table of directory entry `d`.
def tableAt (mem : Nat → Page) (g d : Nat) : Option Nat :=
  if present (entry (mem g) d) then some (pteAddr (entry (mem g) d)) else none

theorem tableAt_some {mem : Nat → Page} {g d t : Nat} (at_ : tableAt mem g d = some t) :
    present (entry (mem g) d) = true ∧ pteAddr (entry (mem g) d) = t := by
  simpa [tableAt] using at_

theorem tableAt_none {mem : Nat → Page} {g d : Nat} (missing : tableAt mem g d = none) :
    present (entry (mem g) d) = false := by
  simpa [tableAt] using missing

/-- The directory `g` in memory stands for the map, whatever flags its entries have. -/
structure Rep (mem : Nat → Page) (g : Nat) (A : Space) : Prop where
  pde : ∀ d < NPDENTRIES, tableAt mem g d = A.table d
  pte : ∀ v t, A.table (v / NPTENTRIES) = some t → entry (mem t) (v % NPTENTRIES) = A.entry v
  absent : ∀ v, A.table (v / NPTENTRIES) = none → A.entry v = 0

/-- The pages of the directory and of its map have roles of their own. -/
structure Owned (img : Image) (freelist : List Nat) (g : Nat) (A : Space) (role : Nat → Role) : Prop where
  free : ∀ p, p ∈ freelist ↔ role p = .free
  nodup : freelist.Nodup
  dir : role g = .dir
  table : ∀ d t, A.table d = some t → role t = .table d
  user : ∀ v < USERPAGES, present (A.entry v) = true → role (pteAddr (A.entry v)) = .user v
  allocatable : ∀ p, role p ≠ .other → img.Allocatable p

structure Inv (img : Image) (st : Phys) (g : Nat) (A : Space) (role : Nat → Role) : Prop where
  rep : Rep st.mem g A
  owned : Owned img st.freelist g A role

variable {img : Image} {st : Phys} {g : Nat} {A : Space} {role : Nat → Role}

theorem Image.Allocatable.lt {p : Nat} (allocatable : img.Allocatable p) : 0 < p ∧ p < 0xE000 := by
  have linked := img.linked
  obtain ⟨low, high⟩ := allocatable
  simp only [PGSIZE, PHYSTOP, EXTMEM] at low high linked
  omega

theorem Rep.frame {mem : Nat → Page} (rep : Rep mem g A) (p : Nat) (page : Page) (notDir : p ≠ g)
    (notTable : ∀ d, A.table d ≠ some p) : Rep (Function.update mem p page) g A where
  pde := by
    simp only [tableAt, Function.update_of_ne (Ne.symm notDir)]
    exact rep.pde
  pte := by
    intro v t at_
    have other : t ≠ p := fun same => notTable (v / NPTENTRIES) (same ▸ at_)
    rw [Function.update_of_ne other]
    exact rep.pte v t at_
  absent := rep.absent

theorem Rep.congr {mem mem' : Nat → Page} (rep : Rep mem g A) (dir : mem' g = mem g)
    (tables : ∀ d t, A.table d = some t → mem' t = mem t) : Rep mem' g A where
  pde := fun d inside => by rw [tableAt, dir]; exact rep.pde d inside
  pte := fun v t at_ => by rw [tables _ t at_]; exact rep.pte v t at_
  absent := rep.absent

def Phys.userPage (st : Phys) (g v : Nat) : Option Nat :=
  match tableAt st.mem g (v / NPTENTRIES) with
  | none => none
  | some t =>
    let pte := entry (st.mem t) (v % NPTENTRIES)
    if present pte then some (pteAddr pte) else none

theorem Rep.userPage_eq (rep : Rep st.mem g A) {v : Nat} (inside : v < ALLPAGES) :
    st.userPage g v = if present (A.entry v) then some (pteAddr (A.entry v)) else none := by
  have index : v / NPTENTRIES < NPDENTRIES := by
    simp only [ALLPAGES, PGSIZE, NPTENTRIES, NPDENTRIES] at inside ⊢
    omega
  rw [Phys.userPage, rep.pde _ index]
  cases there : A.table (v / NPTENTRIES) with
  | none => simp [rep.absent v there, absent_zero]
  | some t => simp [rep.pte v t there]

theorem userPage_lt {v : Nat} (user : v < USERPAGES) : v < ALLPAGES := by
  simp only [USERPAGES, ALLPAGES, KERNBASE, PGSIZE] at user ⊢
  omega

theorem Rep.userPage_some (rep : Rep st.mem g A) {v p : Nat} (user : v < USERPAGES)
    (there : st.userPage g v = some p) : present (A.entry v) = true ∧ pteAddr (A.entry v) = p := by
  simpa [rep.userPage_eq (userPage_lt user)] using there

theorem Owned.ne_dir {freelist : List Nat} (owned : Owned img freelist g A role) {p : Nat}
    (notDir : role p ≠ .dir) : p ≠ g := by
  intro same
  exact notDir (same ▸ owned.dir)

theorem Owned.ne_table {freelist : List Nat} (owned : Owned img freelist g A role) {p : Nat}
    (notTable : ∀ d, role p ≠ .table d) (d : Nat) : A.table d ≠ some p :=
  fun same => notTable d (owned.table d p same)

theorem Inv.setPage (inv : Inv img st g A role) (p : Nat) (page : Page) (notDir : role p ≠ .dir)
    (notTable : ∀ d, role p ≠ .table d) : Inv img (st.setPage p page) g A role where
  rep := inv.rep.frame p page (inv.owned.ne_dir notDir) (inv.owned.ne_table notTable)
  owned := inv.owned

/-- Between two states only user pages of directory `g` have been written. -/
structure Stored (g : Nat) (st st' : Phys) : Prop where
  freelist : st'.freelist = st.freelist
  kept : ∀ p, (∀ v < USERPAGES, st.userPage g v ≠ some p) → st'.mem p = st.mem p

theorem Stored.refl (g : Nat) (st : Phys) : Stored g st st := ⟨rfl, fun _ _ => rfl⟩

theorem Stored.setPage {v p : Nat} (user : v < USERPAGES) (there : st.userPage g v = some p) (page : Page) :
    Stored g st (st.setPage p page) := by
  refine ⟨rfl, fun q away => Function.update_of_ne ?_ _ _⟩
  rintro rfl
  exact away v user there

theorem Inv.stored {st' : Phys} (inv : Inv img st g A role) (stored : Stored g st st') : Inv img st' g A role := by
  have apart {p v : Nat} (user : v < USERPAGES) (there : st.userPage g v = some p) : role p = .user v := by
    obtain ⟨mapped, page⟩ := inv.rep.userPage_some user there
    exact page ▸ inv.owned.user v user mapped
  constructor
  · apply inv.rep.congr
    · apply stored.kept
      intro v user there
      have clash := apart user there
      rw [inv.owned.dir] at clash
      cases clash
    · intro d t at_
      apply stored.kept
      intro v user there
      have clash := apart user there
      rw [inv.owned.table d t at_] at clash
      cases clash
  · rw [stored.freelist]
    exact inv.owned

theorem Stored.trans {st' st'' : Phys} (inv : Inv img st g A role) (first : Stored g st st')
    (second : Stored g st' st'') : Stored g st st'' := by
  refine ⟨second.freelist.trans first.freelist, fun p away => ?_⟩
  rw [second.kept p, first.kept p away]
  intro v user there
  have inside := userPage_lt user
  rw [(inv.stored first).rep.userPage_eq inside, ← inv.rep.userPage_eq inside] at there
  exact away v user there

-- Taking the first free page for a role. It was in no map, so nothing else changes.
theorem Owned.take {p : Nat} {rest : List Nat} (owned : Owned img (p :: rest) g A role) (taken : Role)
    (used : taken ≠ .free) :
    Owned img rest g A (Function.update role p taken) := by
  have wasFree : role p = .free := (owned.free p).mp List.mem_cons_self
  obtain ⟨fresh, nodup⟩ := List.nodup_cons.mp owned.nodup
  refine ⟨?_, nodup, ?_, ?_, ?_, ?_⟩
  · intro q
    by_cases same : q = p
    · rw [same, Function.update_self]
      exact ⟨fun member => (fresh member).elim, fun free => (used free).elim⟩
    · rw [Function.update_of_ne same, ← owned.free q, List.mem_cons]
      exact ⟨Or.inr, fun member => member.resolve_left same⟩
  · rw [Function.update_of_ne (Ne.symm (owned.ne_dir (by rw [wasFree]; simp)))]
    exact owned.dir
  · intro d t at_
    have other : t ≠ p := fun same => owned.ne_table (by rw [wasFree]; simp) d (same ▸ at_)
    rw [Function.update_of_ne other]
    exact owned.table d t at_
  · intro v below there
    have other : pteAddr (A.entry v) ≠ p := by
      intro same
      have mapped := owned.user v below there
      rw [same, wasFree] at mapped
      cases mapped
    rw [Function.update_of_ne other]
    exact owned.user v below there
  · intro q
    by_cases same : q = p
    · intro _
      rw [same]
      exact owned.allocatable p (by rw [wasFree]; simp)
    · rw [Function.update_of_ne same]
      exact owned.allocatable q

theorem Owned.give {freelist : List Nat} {p : Nat} (owned : Owned img freelist g A role)
    (notFree : role p ≠ .free) (notDir : role p ≠ .dir) (notTable : ∀ d, A.table d ≠ some p)
    (notUser : ∀ v < USERPAGES, present (A.entry v) = true → pteAddr (A.entry v) ≠ p)
    (known : role p ≠ .other) :
    Owned img (p :: freelist) g A (Function.update role p .free) := by
  refine ⟨?_, List.nodup_cons.mpr ⟨fun member => notFree ((owned.free p).mp member), owned.nodup⟩, ?_, ?_, ?_, ?_⟩
  · intro q
    by_cases same : q = p
    · simp [same]
    · rw [Function.update_of_ne same, List.mem_cons, ← owned.free q]
      exact ⟨fun member => member.resolve_left same, Or.inr⟩
  · rw [Function.update_of_ne (Ne.symm (owned.ne_dir notDir))]
    exact owned.dir
  · intro d t at_
    have other : t ≠ p := fun same => notTable d (same ▸ at_)
    rw [Function.update_of_ne other]
    exact owned.table d t at_
  · intro v below there
    rw [Function.update_of_ne (notUser v below there)]
    exact owned.user v below there
  · intro q
    by_cases same : q = p
    · intro _
      rw [same]
      exact owned.allocatable p known
    · rw [Function.update_of_ne same]
      exact owned.allocatable q

theorem PDX_eq (va : Nat) (below : va < 2 ^ 32) : PDX va = va / PGSIZE / NPTENTRIES := by
  simp only [PDX, PGSIZE, NPTENTRIES, NPDENTRIES]
  omega

theorem PTX_eq (va : Nat) : PTX va = va / PGSIZE % NPTENTRIES := rfl

theorem PDX_lt (va : Nat) : PDX va < NPDENTRIES := Nat.mod_lt _ (by decide)

theorem Rep.table_eq {mem : Nat → Page} {B : Space} (first : Rep mem g A) (second : Rep mem g B) {d : Nat}
    (inside : d < NPDENTRIES) : A.table d = B.table d :=
  (first.pde d inside).symm.trans (second.pde d inside)

theorem Rep.entry_eq {mem : Nat → Page} {B : Space} (first : Rep mem g A) (second : Rep mem g B) {v : Nat}
    (inside : v < ALLPAGES) : A.entry v = B.entry v := by
  have index : v / NPTENTRIES < NPDENTRIES := by
    simp only [ALLPAGES, PGSIZE, NPTENTRIES, NPDENTRIES] at inside ⊢
    omega
  have same := first.table_eq second index
  cases there : A.table (v / NPTENTRIES) with
  | none =>
    rw [first.absent v there, second.absent v (same ▸ there)]
  | some t =>
    rw [← first.pte v t there, ← second.pte v t (same ▸ there)]

theorem Rep.pde_of {mem : Nat → Page} (rep : Rep mem g A) (va : Nat) (below : va < 2 ^ 32) :
    tableAt mem g (PDX va) = A.table (va / PGSIZE / NPTENTRIES) := by
  rw [← PDX_eq va below]
  exact rep.pde _ (PDX_lt va)

theorem Rep.walk_found (rep : Rep st.mem g A) (va : Nat) (below : va < 2 ^ 32) {t : Nat}
    (at_ : A.table (va / PGSIZE / NPTENTRIES) = some t) (alloc : Bool) :
    walkpgdir st g va alloc = (some (t, PTX va), st) := by
  obtain ⟨there, page⟩ := tableAt_some ((rep.pde_of va below).trans at_)
  simp [walkpgdir, there, page]

theorem Rep.walk (rep : Rep st.mem g A) (va : Nat) (below : va < 2 ^ 32) :
    walkpgdir st g va false = ((A.table (va / PGSIZE / NPTENTRIES)).map fun t => (t, PTX va), st) := by
  cases at_ : A.table (va / PGSIZE / NPTENTRIES) with
  | none => simp [walkpgdir, tableAt_none ((rep.pde_of va below).trans at_)]
  | some t => rw [rep.walk_found va below at_, Option.map_some]

theorem Rep.walk_alloc (rep : Rep st.mem g A) (va : Nat) (below : va < 2 ^ 32)
    (missing : A.table (va / PGSIZE / NPTENTRIES) = none) :
    (st.freelist = [] → walkpgdir st g va true = (none, st)) ∧
      ∀ t rest, st.freelist = t :: rest → walkpgdir st g va true = (some (t, PTX va),
        ({ st with freelist := rest }.setPage t (fun _ => 0)).setEntry g (va / PGSIZE / NPTENTRIES) (tableEntry t)) := by
  have none_ := tableAt_none ((rep.pde_of va below).trans missing)
  constructor
  · intro empty
    simp [walkpgdir, none_, kalloc, empty]
  · intro t rest first
    simp [walkpgdir, none_, kalloc, first, tableEntry, ← PDX_eq va below]

theorem Rep.makeTable {mem : Nat → Page} (rep : Rep mem g A) (d t : Nat) (inDir : d < 1024) (small : t < 0xE000)
    (missing : A.table d = none) (empty : mem t = fun _ => 0) (notDir : t ≠ g)
    (dirOnly : ∀ d, A.table d ≠ some g) :
    Rep (Function.update mem g (putEntry (mem g) d (tableEntry t))) g
      { A with table := Function.update A.table d (some t) } := by
  have word : tableEntry t < 2 ^ 32 := by
    simp only [tableEntry, PGSIZE, PTE_P, PTE_W, PTE_U]
    omega
  constructor
  · intro c inside
    simp only [tableAt, Function.update_self]
    by_cases same : c = d
    · rw [same, entry_putEntry_same _ _ _ inDir word, Function.update_self]
      simp
    · rw [entry_putEntry_other _ _ _ _ same, Function.update_of_ne same]
      exact rep.pde c inside
  · intro w u at_
    by_cases same : w / NPTENTRIES = d
    · simp only [same, Function.update_self, Option.some.injEq] at at_
      rw [← at_, Function.update_of_ne notDir, empty, entry_zero]
      exact (rep.absent w (same ▸ missing)).symm
    · simp only [Function.update_of_ne same] at at_
      have notG : u ≠ g := fun clash => dirOnly _ (clash ▸ at_)
      rw [Function.update_of_ne notG]
      exact rep.pte w u at_
  · intro w none_
    by_cases same : w / NPTENTRIES = d
    · simp [same] at none_
    · simp only [Function.update_of_ne same] at none_
      exact rep.absent w none_

theorem Rep.setEntry {mem : Nat → Page} (rep : Rep mem g A) (v t e : Nat) (at_ : A.table (v / NPTENTRIES) = some t)
    (word : e < 2 ^ 32) (notDir : g ≠ t) (once : ∀ d, A.table d = some t → d = v / NPTENTRIES) :
    Rep (Function.update mem t (putEntry (mem t) (v % NPTENTRIES) e)) g
      { A with entry := Function.update A.entry v e } := by
  have inTable : v % NPTENTRIES < 1024 := Nat.mod_lt _ (by decide)
  constructor
  · simp only [tableAt, Function.update_of_ne notDir]
    exact rep.pde
  · intro w u there
    dsimp only at there ⊢
    by_cases same : w = v
    · rw [same] at there ⊢
      rw [at_, Option.some.injEq] at there
      rw [← there, Function.update_self, entry_putEntry_same _ _ _ inTable word, Function.update_self]
    · rw [Function.update_of_ne same]
      by_cases sameTable : u = t
      · -- Two pages of one table have the same directory index, so their table index differs.
        have sameDir : w / NPTENTRIES = v / NPTENTRIES := once _ (sameTable ▸ there)
        have otherIndex : w % NPTENTRIES ≠ v % NPTENTRIES := by
          intro equal
          have left := Nat.div_add_mod w NPTENTRIES
          have right := Nat.div_add_mod v NPTENTRIES
          rw [sameDir, equal] at left
          exact same (left.symm.trans right)
        rw [sameTable, Function.update_self, entry_putEntry_other _ _ _ _ otherIndex]
        exact rep.pte w t (sameTable ▸ there)
      · rw [Function.update_of_ne sameTable]
        exact rep.pte w u there
  · intro w none_
    have other : w ≠ v := by
      intro clash
      rw [clash, at_] at none_
      cases none_
    simp only [Function.update_of_ne other]
    exact rep.absent w none_

theorem makeTable_inv (inv : Inv img st g A role) (v t : Nat) (rest : List Nat) (below : v < ALLPAGES)
    (missing : A.table (v / NPTENTRIES) = none) (first : st.freelist = t :: rest) :
    Inv img
      (({ st with freelist := rest }.setPage t (fun _ => 0)).setEntry g (v / NPTENTRIES) (tableEntry t))
      g { A with table := Function.update A.table (v / NPTENTRIES) (some t) }
      (Function.update role t (.table (v / NPTENTRIES))) := by
  have owned := inv.owned
  rw [first] at owned
  have wasFree : role t = .free := (owned.free t).mp List.mem_cons_self
  have notDir : t ≠ g := owned.ne_dir (by rw [wasFree]; simp)
  have notTable : ∀ d, A.table d ≠ some t := owned.ne_table (by rw [wasFree]; simp)
  have dirOnly : ∀ d, A.table d ≠ some g := owned.ne_table (by rw [owned.dir]; simp)
  have small := (owned.allocatable t (by rw [wasFree]; simp)).lt.2
  have inDir : v / NPTENTRIES < 1024 := by
    simp only [NPTENTRIES, ALLPAGES, PGSIZE] at below ⊢
    omega
  have taken := owned.take (.table (v / NPTENTRIES)) (by simp)
  have cleared := inv.rep.frame t (fun _ => 0) notDir notTable
  constructor
  · exact cleared.makeTable _ t inDir small missing (Function.update_self _ _ _) notDir dirOnly
  · refine ⟨taken.free, taken.nodup, taken.dir, ?_, taken.user, taken.allocatable⟩
    intro d u at_
    by_cases same : d = v / NPTENTRIES
    · simp only [same, Function.update_self, Option.some.injEq] at at_
      rw [← at_, Function.update_self, same]
    · simp only [Function.update_of_ne same] at at_
      exact taken.table d u at_

theorem setEntry_inv (inv : Inv img st g A role) (v t e : Nat) (at_ : A.table (v / NPTENTRIES) = some t)
    (word : e < 2 ^ 32) (mapped : v < USERPAGES → present e = true → role (pteAddr e) = .user v) :
    Inv img (st.setEntry t (v % NPTENTRIES) e) g { A with entry := Function.update A.entry v e } role := by
  have asTable := inv.owned.table _ t at_
  have notDir : g ≠ t := by
    intro clash
    rw [← clash, inv.owned.dir] at asTable
    cases asTable
  have once : ∀ d, A.table d = some t → d = v / NPTENTRIES := by
    intro d there
    have first := inv.owned.table d t there
    rw [asTable] at first
    injection first with equal
    exact equal.symm
  constructor
  · exact inv.rep.setEntry v t e at_ word notDir once
  · refine ⟨inv.owned.free, inv.owned.nodup, inv.owned.dir, inv.owned.table, ?_, inv.owned.allocatable⟩
    intro w below there
    by_cases same : w = v
    · simp only [same, Function.update_self] at there below ⊢
      exact mapped below there
    · simp only [Function.update_of_ne same] at there ⊢
      exact inv.owned.user w below there

end Xv6.Vm
