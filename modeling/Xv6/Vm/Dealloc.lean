import Xv6.Vm.Space

set_option autoImplicit false

/-!
# The loop of `deallocuvm`

The loop goes by pages, and by the length of a table where a table is missing. From an address inside a
missing table the jump ends inside the next one, and what lies before that is never looked at.
-/

namespace Xv6.Vm

def pagesOf (sz : Nat) : Nat := (sz + PGSIZE - 1) / PGSIZE

theorem pgRoundUp_eq (sz : Nat) : pgRoundUp sz = pagesOf sz * PGSIZE := rfl

/-- From page `v` on all tables are missing up to that of `w`, which the jumps enter behind `w`. -/
def Skipped (A : Space) (v w : Nat) : Prop :=
  v / NPTENTRIES < w / NPTENTRIES ∧ w % NPTENTRIES < v % NPTENTRIES ∧
    ∀ d, v / NPTENTRIES ≤ d → d < w / NPTENTRIES → A.table d = none

def Space.erase (A : Space) (l : List Nat) : Space :=
  { A with entry := fun v => if v ∈ l then 0 else A.entry v }

-- The present pages that the loop comes to.
def found (A : Space) (oldsz : Nat) : Nat → Nat → List Nat
  | 0, _ => []
  | fuel + 1, v =>
    if v * PGSIZE < oldsz then
      if A.table (v / NPTENTRIES) = none then found A oldsz fuel (v + NPTENTRIES)
      else if present (A.entry v) then v :: found A oldsz fuel (v + 1)
      else found A oldsz fuel (v + 1)
    else []

-- All the pages of the range that are present, in the order of the loop.
def clearedPages (A : Space) (oldsz newsz : Nat) : List Nat := found A oldsz (oldsz / PGSIZE + 1) (pagesOf newsz)

-- The page is freed, and then the entry is cleared that leads to it.
def Phys.unmap (st : Phys) (p t i : Nat) : Phys :=
  { st.setPage p (fun _ => 1) with freelist := p :: st.freelist }.setEntry t i 0

variable {img : Image} {st : Phys} {g : Nat} {A : Space} {role : Nat → Role}

theorem skipped_jump {v w : Nat} (missing : A.table (v / NPTENTRIES) = none)
    (later : v / NPTENTRIES < w / NPTENTRIES) :
    (v + NPTENTRIES ≤ w ∧ ¬ Skipped A (v + NPTENTRIES) w) ↔ ¬ Skipped A v w := by
  have next : (v + NPTENTRIES) / NPTENTRIES = v / NPTENTRIES + 1 := Nat.add_div_right v (by decide)
  have slot : (v + NPTENTRIES) % NPTENTRIES = v % NPTENTRIES := Nat.add_mod_right v NPTENTRIES
  have both : (∀ d, v / NPTENTRIES ≤ d → d < w / NPTENTRIES → A.table d = none) ↔
      ∀ d, v / NPTENTRIES + 1 ≤ d → d < w / NPTENTRIES → A.table d = none := by
    constructor
    · exact fun all d low high => all d (by omega) high
    · intro all d low high
      by_cases first : d = v / NPTENTRIES
      · rw [first, missing]
      · exact all d (by omega) high
  simp only [Skipped, next, slot, both]
  generalize hall : (∀ d, v / NPTENTRIES + 1 ≤ d → d < w / NPTENTRIES → A.table d = none) = all
  have alone : w / NPTENTRIES = v / NPTENTRIES + 1 → all := by
    intro equal
    rw [← hall]
    intro d low high
    omega
  by_cases rest : all
  · simp only [rest, and_true]
    simp only [NPTENTRIES] at later ⊢
    omega
  · have far : w / NPTENTRIES ≠ v / NPTENTRIES + 1 := fun equal => rest (alone equal)
    simp only [rest, and_false, not_false_eq_true, and_true, iff_true]
    simp only [NPTENTRIES] at later far ⊢
    omega

theorem not_skipped_self {v : Nat} : ¬ Skipped A v v := fun skipped => Nat.lt_irrefl _ skipped.1

-- Behind a page whose table is there the loop reaches everything.
theorem not_skipped_of_table {v w : Nat} (there : A.table (v / NPTENTRIES) ≠ none) :
    ¬ Skipped A v w ∧ ¬ Skipped A (v + 1) w := by
  constructor
  · exact fun skipped => there (skipped.2.2 _ (Nat.le_refl _) skipped.1)
  · rintro ⟨table, slot, all⟩
    by_cases same : (v + 1) / NPTENTRIES = v / NPTENTRIES
    · exact there (all _ (Nat.le_of_eq same) (same ▸ table))
    · have start : (v + 1) % NPTENTRIES = 0 := by
        simp only [NPTENTRIES] at same ⊢
        omega
      omega

theorem mem_found (absent : ∀ v, A.table (v / NPTENTRIES) = none → A.entry v = 0) (oldsz fuel v w : Nat)
    (enough : oldsz ≤ (v + fuel) * PGSIZE) :
    w ∈ found A oldsz fuel v ↔
      v ≤ w ∧ w * PGSIZE < oldsz ∧ present (A.entry w) = true ∧ ¬ Skipped A v w := by
  induction fuel generalizing v with
  | zero =>
    simp only [found, List.not_mem_nil, false_iff]
    rintro ⟨low, high, -⟩
    have mono : (v + 0) * PGSIZE ≤ w * PGSIZE := Nat.mul_le_mul_right _ low
    omega
  | succ fuel ih =>
    rw [found]
    split
    next inside =>
      split
      next missing =>
        have more : v + (fuel + 1) ≤ v + NPTENTRIES + fuel := by
          simp only [NPTENTRIES]
          omega
        rw [ih (v + NPTENTRIES) (Nat.le_trans enough (Nat.mul_le_mul_right _ more))]
        constructor
        · rintro ⟨low, high, there, reached⟩
          have later : v / NPTENTRIES < w / NPTENTRIES := by
            simp only [NPTENTRIES] at low ⊢
            omega
          exact ⟨by omega, high, there, (skipped_jump missing later).mp ⟨low, reached⟩⟩
        · rintro ⟨low, high, there, reached⟩
          have other : w / NPTENTRIES ≠ v / NPTENTRIES := by
            intro same
            rw [absent w (same ▸ missing), absent_zero] at there
            cases there
          have later : v / NPTENTRIES < w / NPTENTRIES := by
            have mono : v / NPTENTRIES ≤ w / NPTENTRIES := Nat.div_le_div_right low
            omega
          obtain ⟨behind, reached⟩ := (skipped_jump missing later).mpr reached
          exact ⟨behind, high, there, reached⟩
      next table =>
        have step := ih (v + 1) (by rw [Nat.add_right_comm, Nat.add_assoc]; exact enough)
        by_cases same : w = v
        · subst same
          have notLater : w ∉ found A oldsz fuel (w + 1) := by
            rw [step]
            omega
          split
          next there => simp [there, inside, not_skipped_self]
          next gone => simp [gone, notLater]
        · have rest : w ∈ found A oldsz fuel (v + 1) ↔
              v ≤ w ∧ w * PGSIZE < oldsz ∧ present (A.entry w) = true ∧ ¬ Skipped A v w := by
            rw [step]
            constructor
            · rintro ⟨low, high, there, -⟩
              exact ⟨by omega, high, there, (not_skipped_of_table table).1⟩
            · rintro ⟨low, high, there, -⟩
              exact ⟨by omega, high, there, (not_skipped_of_table table).2⟩
          split
          next => simp only [List.mem_cons, same, false_or, rest]
          next => exact rest
    next outside =>
      simp only [List.not_mem_nil, false_iff]
      rintro ⟨low, high, -⟩
      have mono : v * PGSIZE ≤ w * PGSIZE := Nat.mul_le_mul_right _ low
      omega

theorem le_of_mem_found (oldsz fuel v w : Nat) (member : w ∈ found A oldsz fuel v) :
    v ≤ w ∧ w * PGSIZE < oldsz ∧ present (A.entry w) = true ∧ A.table (w / NPTENTRIES) ≠ none := by
  induction fuel generalizing v with
  | zero => cases member
  | succ fuel ih =>
    rw [found] at member
    split at member
    next inside =>
      split at member
      next =>
        obtain ⟨low, rest⟩ := ih _ member
        exact ⟨by omega, rest⟩
      next table =>
        split at member
        next there =>
          rcases List.mem_cons.mp member with rfl | later
          · exact ⟨Nat.le_refl _, inside, there, table⟩
          · obtain ⟨low, rest⟩ := ih _ later
            exact ⟨by omega, rest⟩
        next =>
          obtain ⟨low, rest⟩ := ih _ member
          exact ⟨by omega, rest⟩
    next => cases member

theorem found_nodup (A : Space) (oldsz fuel v : Nat) : (found A oldsz fuel v).Nodup := by
  induction fuel generalizing v with
  | zero => exact List.nodup_nil
  | succ fuel ih =>
    rw [found]
    split
    next =>
      split
      next => exact ih _
      next =>
        split
        next =>
          refine List.nodup_cons.mpr ⟨fun member => ?_, ih _⟩
          have low := (le_of_mem_found oldsz fuel (v + 1) v member).1
          omega
        next => exact ih _
    next => exact List.nodup_nil

theorem Space.erase_nil (A : Space) : A.erase [] = A := by simp [Space.erase]

theorem Space.erase_entry (A : Space) {l : List Nat} {v : Nat} (out : v ∉ l) : (A.erase l).entry v = A.entry v :=
  if_neg out

theorem Space.erase_snoc (A : Space) (l : List Nat) (v : Nat) :
    { A.erase l with entry := Function.update (A.erase l).entry v 0 } = A.erase (l ++ [v]) := by
  simp only [Space.erase, Space.mk.injEq, true_and]
  funext w
  by_cases same : w = v <;> simp [same]

theorem pageAddr_div (v : Nat) : v * PGSIZE / PGSIZE = v := Nat.mul_div_cancel v (by decide)

theorem pageAddr_jump (v : Nat) : v * PGSIZE + (NPTENTRIES - 1) * PGSIZE + PGSIZE = (v + NPTENTRIES) * PGSIZE := by
  simp only [NPTENTRIES, PGSIZE]
  omega

section Rule

variable (P : List Nat → Phys → Prop) (oldsz newsz : Nat) (below : oldsz ≤ KERNBASE)
  (rep : ∀ l st, P l st → Rep st.mem g (A.erase l))
  (unmap : ∀ l st v t, P l st → v ∉ l → v < USERPAGES → A.table (v / NPTENTRIES) = some t →
    present (A.entry v) = true → img.Allocatable (pteAddr (A.entry v)) →
    P (l ++ [v]) (st.unmap (pteAddr (A.entry v)) t (v % NPTENTRIES)))

include below rep unmap

/-- An invariant of the pages that have been unmapped holds at the end for all that the loop comes to. The loop panics
at a page that `kfree` does not take. -/
theorem deallocLoop_rule (fuel v : Nat) (l : List Nat) (behind : ∀ w ∈ l, w < v) (start : P l st) :
    (∃ st', deallocLoop img g oldsz fuel (v * PGSIZE) st = .ok st' ∧ P (l ++ found A oldsz fuel v) st') ∨
      deallocLoop img g oldsz fuel (v * PGSIZE) st = .error .kfree ∧
        ∃ w ∈ found A oldsz fuel v, ¬ img.Allocatable (pteAddr (A.entry w)) := by
  induction fuel generalizing v st l with
  | zero => exact Or.inl ⟨st, rfl, by simpa [found] using start⟩
  | succ fuel ih =>
    rw [deallocLoop, found]
    split
    next inside =>
      have address : v * PGSIZE < 2 ^ 32 := by
        simp only [KERNBASE] at below
        omega
      have user : v < USERPAGES := by
        simp only [KERNBASE, USERPAGES, PGSIZE] at below inside ⊢
        omega
      have next : v * PGSIZE + PGSIZE = (v + 1) * PGSIZE := (Nat.succ_mul v PGSIZE).symm
      have others : v ∉ l := fun member => Nat.lt_irrefl v (behind v member)
      rw [(rep l st start).walk (v * PGSIZE) address, PTX_eq, pageAddr_div, next]
      cases there : A.table (v / NPTENTRIES) with
      | none =>
        simp only [Space.erase, there, Option.map_none, if_true, pageAddr_jump]
        exact ih (v + NPTENTRIES) l (fun w member => Nat.lt_add_right _ (behind w member)) start
      | some t =>
        have value := (rep l st start).pte v t there
        rw [A.erase_entry others] at value
        simp only [Space.erase, there, Option.map_some, reduceCtorEq, if_false, value]
        split
        next mapped =>
          by_cases page : img.Allocatable (pteAddr (A.entry v))
          · have nonzero : ¬ pteAddr (A.entry v) = 0 := by
              have low := page.lt
              omega
            rw [if_neg nonzero, kfree, if_pos page]
            have later := ih (v + 1) (l ++ [v]) (fun w member => ?_) (unmap l st v t start others user there mapped page)
            · rw [List.append_assoc, List.singleton_append] at later
              refine later.imp_right ?_
              rintro ⟨panics, w, member, refused⟩
              exact ⟨panics, w, List.mem_cons_of_mem v member, refused⟩
            · rcases List.mem_append.mp member with early | last
              · exact Nat.lt_succ_of_lt (behind w early)
              · exact Nat.lt_succ_of_le (List.mem_singleton.mp last).le
          · right
            rw [kfree, if_neg page]
            refine ⟨by split <;> rfl, v, List.mem_cons_self, page⟩
        next => exact ih (v + 1) l (fun w member => Nat.lt_succ_of_lt (behind w member)) start
    next => exact Or.inl ⟨st, rfl, by simpa using start⟩

theorem deallocuvm_rule (start : P [] st) :
    (∃ st', deallocuvm img st g oldsz newsz = .ok st' ∧ P (clearedPages A oldsz newsz) st') ∨
      deallocuvm img st g oldsz newsz = .error .kfree ∧
        ∃ w ∈ clearedPages A oldsz newsz, ¬ img.Allocatable (pteAddr (A.entry w)) := by
  rw [deallocuvm]
  split
  next larger =>
    have outside : ¬ pagesOf newsz * PGSIZE < oldsz := by
      simp only [pagesOf, PGSIZE]
      omega
    rw [clearedPages, found, if_neg outside]
    exact Or.inl ⟨st, rfl, start⟩
  next => exact deallocLoop_rule P oldsz below rep unmap _ _ [] (by simp) start

end Rule

theorem Inv.unmap (inv : Inv img st g A role) (v t : Nat) (below : v < USERPAGES)
    (at_ : A.table (v / NPTENTRIES) = some t) (there : present (A.entry v) = true) :
    Inv img (st.unmap (pteAddr (A.entry v)) t (v % NPTENTRIES)) g { A with entry := Function.update A.entry v 0 }
      (Function.update role (pteAddr (A.entry v)) .free) := by
  have mine := inv.owned.user v below there
  have page := inv.owned.allocatable (pteAddr (A.entry v)) (by rw [mine]; simp)
  have asTable := inv.owned.table _ t at_
  have other : t ≠ pteAddr (A.entry v) := by
    intro clash
    rw [clash, mine] at asTable
    cases asTable
  have cleared := setEntry_inv inv v t 0 at_ (by decide) (by simp [present])
  have erased := cleared.setPage (pteAddr (A.entry v)) (fun _ => 1) (by rw [mine]; simp) (by rw [mine]; simp)
  constructor
  · have same : ((st.setPage (pteAddr (A.entry v)) (fun _ => 1)).setEntry t (v % NPTENTRIES) 0).mem =
        ((st.setEntry t (v % NPTENTRIES) 0).setPage (pteAddr (A.entry v)) (fun _ => 1)).mem := by
      simp only [Phys.setEntry, Phys.setPage, Function.update_of_ne other]
      exact Function.update_comm (Ne.symm other) _ _ _
    exact same ▸ erased.rep
  · apply erased.owned.give
    · rw [mine]
      simp
    · rw [mine]
      simp
    · exact erased.owned.ne_table (by rw [mine]; simp)
    · intro w user present_
      by_cases same : w = v
      · simp [same, present] at present_
      · simp only [Function.update_of_ne same] at present_ ⊢
        intro clash
        have theirs := inv.owned.user w user present_
        rw [clash, mine] at theirs
        injection theirs with equal
        exact same equal.symm
    · rw [mine]
      simp

theorem Inv.unmap_erased {l : List Nat} {v t : Nat} (inv : Inv img st g (A.erase l) role) (others : v ∉ l)
    (user : v < USERPAGES) (at_ : A.table (v / NPTENTRIES) = some t) (there : present (A.entry v) = true) :
    ∃ role', Inv img (st.unmap (pteAddr (A.entry v)) t (v % NPTENTRIES)) g (A.erase (l ++ [v])) role' := by
  have unmapped := inv.unmap v t user at_ (by rwa [A.erase_entry others])
  rw [A.erase_snoc, A.erase_entry others] at unmapped
  exact ⟨_, unmapped⟩

theorem Inv.user_page (inv : Inv img st g A role) {v : Nat} (user : v < USERPAGES) (there : present (A.entry v) = true) :
    img.Allocatable (pteAddr (A.entry v)) := by
  have mine := inv.owned.user v user there
  exact inv.owned.allocatable _ (by rw [mine]; simp)

theorem clearedPages_user {oldsz newsz v : Nat} (below : oldsz ≤ KERNBASE) (member : v ∈ clearedPages A oldsz newsz) :
    v < USERPAGES ∧ present (A.entry v) = true := by
  obtain ⟨-, high, there, -⟩ := le_of_mem_found oldsz _ _ v member
  refine ⟨?_, there⟩
  simp only [KERNBASE, USERPAGES, PGSIZE] at below high ⊢
  omega

theorem deallocuvm_ok (inv : Inv img st g A role) (oldsz newsz : Nat) (below : oldsz ≤ KERNBASE) :
    ∃ st' role', deallocuvm img st g oldsz newsz = .ok st' ∧
      Inv img st' g (A.erase (clearedPages A oldsz newsz)) role' := by
  rcases deallocuvm_rule (fun l st => ∃ role, Inv img st g (A.erase l) role) oldsz newsz below
    (fun _ _ held => held.elim fun _ inv => inv.rep)
    (fun _ _ _ _ held others user at_ there _ => held.elim fun _ inv => inv.unmap_erased others user at_ there)
    ⟨role, by rwa [A.erase_nil]⟩ with ⟨st', ok, role', inv'⟩ | ⟨-, w, member, refused⟩
  · exact ⟨st', role', ok, inv'⟩
  · obtain ⟨user, there⟩ := clearedPages_user below member
    exact absurd (inv.user_page user there) refused

end Xv6.Vm
