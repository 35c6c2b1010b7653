import Xv6.Vm.Copy

set_option autoImplicit false

/-!
# A directory of private pages

While `exec` builds a new address space, it takes all its pages from the free list. A directory is private
to a set of pages when itself, its tables, its user pages and the free pages are in the set, and the other
pages are as they were at the start. What `vm.c` does to a private directory keeps it private.
-/

namespace Xv6.Vm

structure Private (S : Nat → Prop) (st₀ : Phys) (st : Phys) (g : Nat) (A : Space) : Prop where
  free : ∀ p ∈ st.freelist, S p
  dir : S g
  tables : ∀ d t, A.table d = some t → S t
  user : ∀ v < USERPAGES, present (A.entry v) = true → S (pteAddr (A.entry v))
  kept : ∀ p, ¬ S p → st.mem p = st₀.mem p

namespace Private

variable {img : Image} {S : Nat → Prop} {st₀ st st' taken : Phys} {g v : Nat} {A A' : Space}
  {role : Nat → Role}

-- Two maps of one directory are the same where the directory has entries.
theorem transfer {B : Space} (priv : Private S st₀ st g B) (first : Rep st.mem g B) (second : Rep st.mem g A)
    (small : ∀ d, NPDENTRIES ≤ d → A.table d = none) : Private S st₀ st g A where
  free := priv.free
  dir := priv.dir
  tables := by
    intro d t at_
    have inside : d < NPDENTRIES := by
      by_contra outside
      rw [small d (by omega)] at at_
      cases at_
    exact priv.tables d t (by rw [first.table_eq second inside, at_])
  user := by
    intro v below there
    rw [second.entry_eq first (userPage_lt below)] at there ⊢
    exact priv.user v below there
  kept := priv.kept

theorem take (priv : Private S st₀ st g A) {mem : Nat} {rest : List Nat} (first : st.freelist = mem :: rest)
    (page : Page) : Private S st₀ ({ st with freelist := rest }.setPage mem page) g A where
  free := fun p member => priv.free p (first ▸ List.mem_cons_of_mem mem member)
  dir := priv.dir
  tables := priv.tables
  user := priv.user
  kept := by
    intro p away
    have other : p ≠ mem := by
      rintro rfl
      exact away (priv.free p (first ▸ List.mem_cons_self))
    rw [← priv.kept p away]
    exact Function.update_of_ne other _ _

theorem map (priv : Private S st₀ taken g A) {e : Nat} (mine : S (pteAddr e))
    (entries : A'.entry = Function.update A.entry v e) (provided : Provided taken A (v / NPTENTRIES) st' A')
    (same : ∀ p, p ≠ g → (∀ d, A.table d ≠ some p) → p ∉ taken.freelist → st'.mem p = taken.mem p) :
    Private S st₀ st' g A' := by
  constructor
  case free =>
    intro p member
    rcases provided with ⟨-, -, free⟩ | ⟨-, t, first, -⟩
    · exact priv.free p (free ▸ member)
    · exact priv.free p (first ▸ List.mem_cons_of_mem t member)
  case dir => exact priv.dir
  case tables =>
    intro d t at_
    rcases provided with ⟨-, tables, -⟩ | ⟨-, u, first, tables⟩
    · rw [tables] at at_
      exact priv.tables d t at_
    · rw [tables] at at_
      by_cases here : d = v / NPTENTRIES
      · rw [here, Function.update_self, Option.some.injEq] at at_
        exact priv.free t (by rw [first, ← at_]; exact List.mem_cons_self)
      · rw [Function.update_of_ne here] at at_
        exact priv.tables d t at_
  case user =>
    intro w below there
    rw [entries] at there ⊢
    by_cases here : w = v
    · rw [here, Function.update_self]
      exact mine
    · rw [Function.update_of_ne here] at there ⊢
      exact priv.user w below there
  case kept =>
    intro p away
    rw [same p (fun here => away (here ▸ priv.dir)) (fun d at_ => away (priv.tables d p at_))
      (fun member => away (priv.free p member)), priv.kept p away]

theorem setPage (priv : Private S st₀ st g A) {p : Nat} (mine : S p) (page : Page) :
    Private S st₀ (st.setPage p page) g A where
  free := priv.free
  dir := priv.dir
  tables := priv.tables
  user := priv.user
  kept := by
    intro q away
    have other : q ≠ p := by
      rintro rfl
      exact away mine
    rw [← priv.kept q away]
    exact Function.update_of_ne other _ _

theorem stored (priv : Private S st₀ st g A) (rep : Rep st.mem g A) (stored : Stored g st st') :
    Private S st₀ st' g A where
  free := by
    rw [stored.freelist]
    exact priv.free
  dir := priv.dir
  tables := priv.tables
  user := priv.user
  kept := by
    intro p away
    rw [← priv.kept p away]
    apply stored.kept
    intro v user there
    obtain ⟨mapped, page⟩ := rep.userPage_some user there
    exact away (page ▸ priv.user v user mapped)

theorem setEntry (priv : Private S st₀ st g A) {t e : Nat} (user : v < USERPAGES)
    (at_ : A.table (v / NPTENTRIES) = some t) (mine : present e = true → S (pteAddr e)) :
    Private S st₀ (st.setEntry t (v % NPTENTRIES) e) g { A with entry := Function.update A.entry v e } := by
  have stored := priv.setPage (priv.tables _ t at_) (putEntry (st.mem t) (v % NPTENTRIES) e)
  refine ⟨stored.free, stored.dir, stored.tables, ?_, stored.kept⟩
  intro w below there
  by_cases here : w = v
  · subst here
    simp only [Function.update_self] at there ⊢
    exact mine there
  · simp only [Function.update_of_ne here] at there ⊢
    exact priv.user w below there

theorem kfree {p : Nat} (priv : Private S st₀ st g A) (mine : S p) (ok : Vm.kfree img st p = .ok st') :
    Private S st₀ st' g A := by
  rw [Vm.kfree] at ok
  split at ok
  next =>
    cases ok
    have stored := priv.setPage mine fun _ => 1
    refine ⟨?_, stored.dir, stored.tables, stored.user, stored.kept⟩
    intro q member
    rcases List.mem_cons.mp member with rfl | old
    · exact mine
    · exact priv.free q old
  next => cases ok

theorem unmap {t : Nat} (priv : Private S st₀ st g A) (user : v < USERPAGES)
    (at_ : A.table (v / NPTENTRIES) = some t) (there : present (A.entry v) = true)
    (page : img.Allocatable (pteAddr (A.entry v))) :
    Private S st₀ (st.unmap (pteAddr (A.entry v)) t (v % NPTENTRIES)) g
      { A with entry := Function.update A.entry v 0 } := by
  have freed : Vm.kfree img st (pteAddr (A.entry v)) = .ok _ := if_pos page
  exact (priv.kfree (priv.user v user there) freed).setEntry user at_ (by simp [present])

theorem deallocuvm (inv : Inv img st g A role) (priv : Private S st₀ st g A) (oldsz newsz : Nat)
    (below : oldsz ≤ KERNBASE) (ok : Vm.deallocuvm img st g oldsz newsz = .ok st') :
    ∃ A' role', Inv img st' g A' role' ∧ Private S st₀ st' g A' := by
  have outcome := @deallocuvm_rule img st g A
    (fun l st => (∃ role, Inv img st g (A.erase l) role) ∧ Private S st₀ st g (A.erase l)) oldsz newsz below
    (fun _ _ held => held.1.elim fun _ inv => inv.rep) ?_ ⟨⟨role, by rwa [A.erase_nil]⟩, by rwa [A.erase_nil]⟩
  · rcases outcome with ⟨st'', ok', ⟨role', inv'⟩, priv'⟩ | ⟨panics, -⟩
    · rw [ok] at ok'
      cases ok'
      exact ⟨_, role', inv', priv'⟩
    · rw [ok] at panics
      cases panics
  · rintro l st v t ⟨⟨role, inv⟩, priv⟩ others user at_ there page
    refine ⟨inv.unmap_erased others user at_ there, ?_⟩
    rw [← A.erase_entry others] at there page ⊢
    rw [← A.erase_snoc]
    exact priv.unmap user at_ there page

theorem allocuvm (inv : Inv img st g A role) (priv : Private S st₀ st g A) (oldsz newsz : Nat) {r : Grown}
    (ok : Vm.allocuvm img st g oldsz newsz = .ok r) :
    ∃ A' role', Inv img r.st g A' role' ∧ Private S st₀ r.st g A' := by
  have start : ∃ A' role', Inv img st g A' role' ∧ Private S st₀ st g A' := ⟨A, role, inv, priv⟩
  rcases allocuvm_rule (fun _ st => ∃ A' role', Inv img st g A' role' ∧ Private S st₀ st g A') (by
      rintro v st mem rest b st' user ⟨A₁, role₁, inv₁, priv₁⟩ first mapped
      have taken := priv₁.take first fun _ => 0
      have mine : S mem := priv₁.free mem (first ▸ List.mem_cons_self)
      rcases mapUserPage_ok inv₁ user first mapped with ⟨role', inv', rfl⟩ | ⟨A', role', inv', entries, provided, same⟩
      · exact ⟨A₁, role', inv', taken⟩
      · exact ⟨A', role', inv', taken.map (by rwa [pteAddr_userEntry]) entries provided same⟩) start ok with
    ⟨-, -, same⟩ | ⟨-, -, same⟩ | ⟨below, -, ⟨-, after⟩ | ⟨-, v, st₁, -, ⟨A₁, role₁, inv₁, priv₁⟩, -, freed⟩⟩
  · exact same ▸ start
  · exact same ▸ start
  · exact after
  · exact deallocuvm inv₁ priv₁ newsz oldsz (Nat.le_of_lt below) freed

theorem freeTables (list : List Nat) (priv : Private S st₀ st g A)
    (tables : ∀ i ∈ list, present (entry (st.mem g) i) = true →
      S (pteAddr (entry (st.mem g) i)) ∧ pteAddr (entry (st.mem g) i) ≠ g)
    (ok : Vm.freeTables img g list st = .ok st') : Private S st₀ st' g A := by
  induction list generalizing st with
  | nil =>
    cases ok
    exact priv
  | cons i rest ih =>
    rw [Vm.freeTables] at ok
    split at ok
    next there =>
      obtain ⟨mine, other⟩ := tables i List.mem_cons_self there
      split at ok
      next => cases ok
      next st₁ freed =>
        have same : st₁.mem g = st.mem g := by
          rw [Vm.kfree] at freed
          split at freed
          next =>
            cases freed
            exact Function.update_of_ne (Ne.symm other) _ _
          next => cases freed
        refine ih (priv.kfree mine freed) ?_ ok
        rw [same]
        exact fun j member => tables j (List.mem_cons_of_mem i member)
    next => exact ih priv (fun j member => tables j (List.mem_cons_of_mem i member)) ok

theorem freevm (inv : Inv img st g A role) (priv : Private S st₀ st g A) (ok : Vm.freevm img st g = .ok st') :
    (∀ p, ¬ S p → st'.mem p = st₀.mem p) ∧ ∀ p ∈ st'.freelist, S p := by
  rw [Vm.freevm] at ok
  obtain ⟨st₁, emptied, ok⟩ := ok_of_bind ok
  obtain ⟨A₁, role₁, inv₁, priv₁⟩ := deallocuvm inv priv KERNBASE 0 (Nat.le_refl _) emptied
  obtain ⟨st₂, freed, ok⟩ := ok_of_bind ok
  have priv₂ := freeTables (List.range NPDENTRIES) priv₁ (by
    intro i member there
    have at_ := inv₁.rep.pde i (List.mem_range.mp member)
    rw [tableAt, if_pos there] at at_
    have asTable := inv₁.owned.table i _ at_.symm
    exact ⟨priv₁.tables i _ at_.symm, inv₁.owned.ne_dir (by rw [asTable]; simp)⟩) freed
  have last := priv₂.kfree priv₂.dir ok
  exact ⟨last.kept, last.free⟩

end Private

end Xv6.Vm
