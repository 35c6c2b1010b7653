import Xv6.Vm.Isolation

set_option autoImplicit false

/-!
# What `deallocuvm` clears

The range of the call is cleared, unless the loop jumps over a page of it.
-/

namespace Xv6.Vm

/-- The directory page, the tables and the user pages that are present are different pages. -/
structure Directory (mem : Nat → Page) (g : Nat) (A : Space) : Prop where
  rep : Rep mem g A
  tableOnce : ∀ d e t, A.table d = some t → A.table e = some t → d = e
  dirApart : ∀ d, A.table d ≠ some g
  userOnce : ∀ v w, v < USERPAGES → w < USERPAGES → present (A.entry v) = true → present (A.entry w) = true →
    pteAddr (A.entry v) = pteAddr (A.entry w) → v = w
  userApart : ∀ v, v < USERPAGES → present (A.entry v) = true →
    pteAddr (A.entry v) ≠ g ∧ ∀ d, A.table d ≠ some (pteAddr (A.entry v))

-- The entry of page `v`, if there is a table for it.
def Phys.pte (st : Phys) (g v : Nat) : Option Nat :=
  (tableAt st.mem g (v / NPTENTRIES)).map fun t => entry (st.mem t) (v % NPTENTRIES)

def InRange (newsz oldsz v : Nat) : Prop := pgRoundUp newsz ≤ v * PGSIZE ∧ v * PGSIZE < oldsz

instance (newsz oldsz v : Nat) : Decidable (InRange newsz oldsz v) :=
  inferInstanceAs (Decidable (_ ∧ _))

/-- The range is empty afterwards, its pages were given to `kfree` once each, and the rest is as before. -/
structure Clears (st st' : Phys) (g newsz oldsz : Nat) : Prop where
  absent : ∀ v, InRange newsz oldsz v → st'.userPage g v = none
  given : ∃ freed : List Nat, st'.freelist = freed ++ st.freelist ∧ freed.Nodup ∧
    ∀ p, p ∈ freed ↔ ∃ v, InRange newsz oldsz v ∧ st.userPage g v = some p
  outside : ∀ v < ALLPAGES, ¬ InRange newsz oldsz v → st'.pte g v = st.pte g v

variable {img : Image} {st : Phys} {g : Nat} {A : Space}

theorem Inv.user_apart {role : Nat → Role} (inv : Inv img st g A role) {v : Nat} (user : v < USERPAGES)
    (there : present (A.entry v) = true) :
    pteAddr (A.entry v) ≠ g ∧ (∀ d, A.table d ≠ some (pteAddr (A.entry v))) ∧ pteAddr (A.entry v) ∉ st.freelist := by
  have mine := inv.owned.user v user there
  refine ⟨inv.owned.ne_dir (by rw [mine]; simp), inv.owned.ne_table (by rw [mine]; simp), ?_⟩
  intro member
  rw [inv.owned.free, mine] at member
  cases member

theorem Inv.directory {role : Nat → Role} (inv : Inv img st g A role) : Directory st.mem g A where
  rep := inv.rep
  tableOnce := by
    intro d e t first second
    have asTable := inv.owned.table d t first
    rw [inv.owned.table e t second] at asTable
    injection asTable with same
    exact same.symm
  dirApart := inv.owned.ne_table (by rw [inv.owned.dir]; simp)
  userOnce := by
    intro v w userV userW thereV thereW same
    have mine := inv.owned.user v userV thereV
    rw [same, inv.owned.user w userW thereW] at mine
    injection mine with equal
    exact equal.symm
  userApart := by
    intro v user there
    obtain ⟨notDir, notTable, -⟩ := inv.user_apart user there
    exact ⟨notDir, notTable⟩

theorem Directory.unmap (dir : Directory st.mem g A) (v t : Nat) (user : v < USERPAGES)
    (at_ : A.table (v / NPTENTRIES) = some t) (there : present (A.entry v) = true) :
    Directory (st.unmap (pteAddr (A.entry v)) t (v % NPTENTRIES)).mem g
      { A with entry := Function.update A.entry v 0 } := by
  obtain ⟨notDir, notTable⟩ := dir.userApart v user there
  have freed := dir.rep.frame (pteAddr (A.entry v)) (fun _ => 1) notDir notTable
  have still {w : Nat} (now : present (Function.update A.entry v 0 w) = true) :
      Function.update A.entry v 0 w = A.entry w ∧ present (A.entry w) = true := by
    by_cases same : w = v
    · simp [same, absent_zero] at now
    · rw [Function.update_of_ne same] at now ⊢
      exact ⟨rfl, now⟩
  constructor
  case rep =>
    exact freed.setEntry v t 0 at_ (by decide) (fun same => dir.dirApart _ (same ▸ at_))
      fun d again => dir.tableOnce d _ t again at_
  case tableOnce => exact dir.tableOnce
  case dirApart => exact dir.dirApart
  case userOnce =>
    intro w x userW userX nowW nowX same
    obtain ⟨entryW, thereW⟩ := still nowW
    obtain ⟨entryX, thereX⟩ := still nowX
    simp only [entryW, entryX] at same
    exact dir.userOnce w x userW userX thereW thereX same
  case userApart =>
    intro w userW nowW
    obtain ⟨entryW, thereW⟩ := still nowW
    simp only [entryW]
    exact dir.userApart w userW thereW

/-- The pages of `l` were unmapped and freed in this order, and other pages keep their contents. -/
structure Emptied (img : Image) (st : Phys) (g : Nat) (A : Space) (l : List Nat) (st' : Phys) : Prop where
  allocatable : ∀ v ∈ l, img.Allocatable (pteAddr (A.entry v))
  freelist : st'.freelist = (l.map fun v => pteAddr (A.entry v)).reverse ++ st.freelist
  directory : Directory st'.mem g (A.erase l)
  kept : ∀ p, (∀ d, A.table d ≠ some p) → (∀ v ∈ l, pteAddr (A.entry v) ≠ p) → st'.mem p = st.mem p

theorem Emptied.nil (dir : Directory st.mem g A) : Emptied img st g A [] st :=
  ⟨by simp, rfl, by rw [Space.erase_nil]; exact dir, fun _ _ _ => rfl⟩

theorem Emptied.snoc {v t : Nat} {l : List Nat} {st' : Phys} (emptied : Emptied img st g A l st') (others : v ∉ l)
    (user : v < USERPAGES) (at_ : A.table (v / NPTENTRIES) = some t) (there : present (A.entry v) = true)
    (page : img.Allocatable (pteAddr (A.entry v))) :
    Emptied img st g A (l ++ [v]) (st'.unmap (pteAddr (A.entry v)) t (v % NPTENTRIES)) := by
  have same := A.erase_entry others
  constructor
  case allocatable =>
    intro w member
    rcases List.mem_append.mp member with early | last
    · exact emptied.allocatable w early
    · exact List.mem_singleton.mp last ▸ page
  case freelist => simp [Phys.unmap, Phys.setEntry, Phys.setPage, emptied.freelist]
  case directory =>
    have unmapped := emptied.directory.unmap v t user at_ (by rwa [same])
    rwa [A.erase_snoc, same] at unmapped
  case kept =>
    intro p notTable notFreed
    have notT : p ≠ t := fun clash => notTable _ (clash ▸ at_)
    have notV : p ≠ pteAddr (A.entry v) := fun clash => notFreed v (by simp) clash.symm
    rw [← emptied.kept p notTable fun w member => notFreed w (List.mem_append_left _ member)]
    simp [Phys.unmap, Phys.setEntry, Phys.setPage, notT, notV]

theorem Rep.pte_eq (rep : Rep st.mem g A) {v : Nat} (inside : v < ALLPAGES) :
    st.pte g v = (A.table (v / NPTENTRIES)).map fun _ => A.entry v := by
  have index : v / NPTENTRIES < NPDENTRIES := by
    simp only [ALLPAGES, PGSIZE, NPTENTRIES, NPDENTRIES] at inside ⊢
    omega
  rw [Phys.pte, rep.pde _ index]
  cases there : A.table (v / NPTENTRIES) with
  | none => rfl
  | some t => simp [rep.pte v t there]

theorem inRange_iff (newsz oldsz v : Nat) : InRange newsz oldsz v ↔ pagesOf newsz ≤ v ∧ v * PGSIZE < oldsz := by
  rw [InRange, pgRoundUp_eq, Nat.mul_le_mul_right_iff (by decide)]

theorem InRange.user {newsz oldsz v : Nat} (range : InRange newsz oldsz v) (below : oldsz ≤ KERNBASE) :
    v < USERPAGES ∧ v < ALLPAGES := by
  have high := range.2
  simp only [KERNBASE, USERPAGES, ALLPAGES, PGSIZE] at below high ⊢
  omega

theorem mem_clearedPages (rep : Rep st.mem g A) (oldsz newsz v : Nat) :
    v ∈ clearedPages A oldsz newsz ↔
      InRange newsz oldsz v ∧ present (A.entry v) = true ∧ ¬ Skipped A (pagesOf newsz) v := by
  have enough : oldsz ≤ (pagesOf newsz + (oldsz / PGSIZE + 1)) * PGSIZE := by
    simp only [PGSIZE]
    omega
  rw [clearedPages, mem_found rep.absent oldsz _ _ v enough, inRange_iff]
  tauto

theorem deallocuvm_empties (dir : Directory st.mem g A) (oldsz newsz : Nat) (below : oldsz ≤ KERNBASE) :
    (∃ st', deallocuvm img st g oldsz newsz = .ok st' ∧ Emptied img st g A (clearedPages A oldsz newsz) st') ∨
      deallocuvm img st g oldsz newsz = .error .kfree ∧
        ∃ v ∈ clearedPages A oldsz newsz, ¬ img.Allocatable (pteAddr (A.entry v)) :=
  deallocuvm_rule (Emptied img st g A) oldsz newsz below (fun _ _ emptied => emptied.directory.rep)
    (fun _ _ _ _ emptied => emptied.snoc) (Emptied.nil dir)

theorem Emptied.clears_iff {oldsz newsz : Nat} {st' : Phys} (dir : Directory st.mem g A) (below : oldsz ≤ KERNBASE)
    (emptied : Emptied img st g A (clearedPages A oldsz newsz) st') :
    Clears st st' g newsz oldsz ↔
      ∀ v, InRange newsz oldsz v → present (A.entry v) = true → ¬ Skipped A (pagesOf newsz) v := by
  have rep' := emptied.directory.rep
  have erased (v : Nat) : (A.erase (clearedPages A oldsz newsz)).entry v =
      if v ∈ clearedPages A oldsz newsz then 0 else A.entry v := rfl
  constructor
  · intro clears v range there skipped
    have gone := clears.absent v range
    have stays : v ∉ clearedPages A oldsz newsz := fun member =>
      ((mem_clearedPages dir.rep oldsz newsz v).mp member).2.2 skipped
    rw [rep'.userPage_eq (range.user below).2, erased, if_neg stays, if_pos there] at gone
    cases gone
  · intro reached
    have member_iff (v : Nat) : v ∈ clearedPages A oldsz newsz ↔
        InRange newsz oldsz v ∧ present (A.entry v) = true := by
      rw [mem_clearedPages dir.rep]
      exact ⟨fun member => ⟨member.1, member.2.1⟩, fun here => ⟨here.1, here.2, reached v here.1 here.2⟩⟩
    constructor
    case absent =>
      intro v range
      rw [rep'.userPage_eq (range.user below).2, erased]
      by_cases there : present (A.entry v) = true
      · rw [if_pos ((member_iff v).mpr ⟨range, there⟩), absent_zero]
        rfl
      · rw [if_neg fun member => there ((member_iff v).mp member).2, if_neg there]
    case given =>
      refine ⟨_, emptied.freelist, ?_, ?_⟩
      · rw [List.nodup_reverse]
        refine List.Nodup.map_on ?_ (found_nodup A oldsz _ _)
        intro v memberV w memberW same
        obtain ⟨rangeV, thereV⟩ := (member_iff v).mp memberV
        obtain ⟨rangeW, thereW⟩ := (member_iff w).mp memberW
        exact dir.userOnce v w (rangeV.user below).1 (rangeW.user below).1 thereV thereW same
      · intro p
        rw [List.mem_reverse, List.mem_map]
        constructor
        · rintro ⟨v, member, rfl⟩
          obtain ⟨range, there⟩ := (member_iff v).mp member
          exact ⟨v, range, by rw [dir.rep.userPage_eq (range.user below).2, if_pos there]⟩
        · rintro ⟨v, range, page⟩
          rw [dir.rep.userPage_eq (range.user below).2] at page
          split at page
          next there =>
            cases page
            exact ⟨v, (member_iff v).mpr ⟨range, there⟩, rfl⟩
          next => cases page
    case outside =>
      intro v inside out
      rw [rep'.pte_eq inside, dir.rep.pte_eq inside, erased, if_neg fun member => out ((member_iff v).mp member).1]
      rfl

/-- A call that `kfree` lets through clears the range if and only if no present page is skipped. -/
theorem deallocuvm_clears_iff (img : Image) (st : Phys) (g : Nat) (A : Space) (dir : Directory st.mem g A)
    (oldsz newsz : Nat) (below : oldsz ≤ KERNBASE) :
    ((∀ v, InRange newsz oldsz v → ∀ p, st.userPage g v = some p → img.Allocatable p) →
        ∃ st', deallocuvm img st g oldsz newsz = .ok st') ∧
      ∀ st', deallocuvm img st g oldsz newsz = .ok st' →
        (Clears st st' g newsz oldsz ↔
          ∀ v, InRange newsz oldsz v → present (A.entry v) = true → ¬ Skipped A (pagesOf newsz) v) := by
  rcases @deallocuvm_empties img st g A dir oldsz newsz below with ⟨st', done, emptied⟩ | ⟨panics, v, member, refused⟩
  · refine ⟨fun _ => ⟨st', done⟩, fun st'' done' => ?_⟩
    rw [done] at done'
    cases done'
    exact Emptied.clears_iff dir below emptied
  · refine ⟨fun pages => ?_, fun st' done => ?_⟩
    · obtain ⟨range, there, -⟩ := (mem_clearedPages dir.rep oldsz newsz v).mp member
      exact absurd (pages v range _ (by rw [dir.rep.userPage_eq (range.user below).2, if_pos there])) refused
    · rw [panics] at done
      cases done

-- A directory with one table and in it one user page, page `v`.
def onePageAt (v : Nat) (free : List Nat) : Phys where
  mem := Function.update
    (Function.update (fun _ _ => 0) 0x400 (putEntry (fun _ => 0) (v / NPTENTRIES) (tableEntry 0x401)))
    0x401 (putEntry (fun _ => 0) (v % NPTENTRIES) (userEntry 0x402))
  freelist := free

def onePageSpace (v : Nat) : Space where
  table := fun d => if d = v / NPTENTRIES then some 0x401 else none
  entry := fun w => if w = v then userEntry 0x402 else 0

def onePageRole (v : Nat) (free : List Nat) (p : Nat) : Role :=
  if p = 0x400 then .dir else if p = 0x401 then .table (v / NPTENTRIES) else if p = 0x402 then .user v
  else if p ∈ free then .free else .other

theorem onePageAt_rep (v : Nat) (free : List Nat) : Rep (onePageAt v free).mem 0x400 (onePageSpace v) := by
  have dirPage : (onePageAt v free).mem 0x400 = putEntry (fun _ => 0) (v / NPTENTRIES) (tableEntry 0x401) := by
    simp [onePageAt]
  have tablePage : (onePageAt v free).mem 0x401 = putEntry (fun _ => 0) (v % NPTENTRIES) (userEntry 0x402) := by
    simp [onePageAt]
  constructor
  case pde =>
    intro d inside
    rw [tableAt, dirPage]
    by_cases here : d = v / NPTENTRIES
    · rw [here, entry_putEntry_same _ _ _ _ (by decide)]
      · simp [onePageSpace]
      · exact here ▸ inside
    · rw [entry_putEntry_other _ _ _ _ here, entry_zero]
      simp [onePageSpace, here, absent_zero]
  case pte =>
    intro w t at_
    simp only [onePageSpace] at at_
    split at at_
    next region =>
      cases at_
      rw [tablePage]
      by_cases here : w = v
      · rw [here, entry_putEntry_same _ _ _ (Nat.mod_lt _ (by decide)) (by decide)]
        simp [onePageSpace]
      · have slot : w % NPTENTRIES ≠ v % NPTENTRIES := by
          simp only [NPTENTRIES] at region ⊢
          omega
        rw [entry_putEntry_other _ _ _ _ slot, entry_zero]
        simp [onePageSpace, here]
    next => cases at_
  case absent =>
    intro w missing
    have other : w ≠ v := by
      rintro rfl
      simp [onePageSpace] at missing
    simp [onePageSpace, other]

theorem onePageAt_inv (v : Nat) (free : List Nat) (nodup : free.Nodup) (pages : ∀ p ∈ free, 0x402 < p ∧ p < 0x500) :
    Inv smallKernel (onePageAt v free) 0x400 (onePageSpace v) (onePageRole v free) := by
  refine ⟨onePageAt_rep v free, ?_, nodup, rfl, ?_, ?_, ?_⟩
  · intro p
    simp only [onePageAt, onePageRole]
    by_cases low : p ≤ 0x402
    · have used : p ∉ free := fun member => by
        have bounds := pages p member
        omega
      simp only [used, false_iff, if_false]
      split
      next => simp
      next => split <;> [simp; split <;> simp]
    · rw [if_neg (by omega), if_neg (by omega), if_neg (by omega)]
      by_cases member : p ∈ free <;> simp [member]
  · intro d t at_
    simp only [onePageSpace] at at_
    split at at_
    next here =>
      cases at_
      rw [here]
      rfl
    next => cases at_
  · intro w _ there
    have here : w = v := by
      by_contra other
      simp [onePageSpace, other, absent_zero] at there
    rw [here]
    simp [onePageSpace, onePageRole]
  · intro p known
    have bounds : 0x400 ≤ p ∧ p < 0x500 := by
      by_contra out
      have other : p ∉ free := fun member => by
        have bounds := pages p member
        omega
      exact known (by rw [onePageRole, if_neg (by omega), if_neg (by omega), if_neg (by omega), if_neg other])
    simp only [Image.Allocatable, smallKernel, PGSIZE, PHYSTOP]
    omega

theorem deallocuvm_clears_second : ∃ st', deallocuvm smallKernel (onePageAt 1024 []) 0x400 (1025 * PGSIZE) (1024 * PGSIZE) =
    .ok st' ∧ Clears (onePageAt 1024 []) st' 0x400 (1024 * PGSIZE) (1025 * PGSIZE) := by
  have dir := (onePageAt_inv 1024 [] List.nodup_nil (by simp)).directory
  obtain ⟨returns, clears⟩ := deallocuvm_clears_iff smallKernel (onePageAt 1024 []) 0x400 (onePageSpace 1024) dir
    (1025 * PGSIZE) (1024 * PGSIZE) (by decide)
  have only {v : Nat} (range : InRange (1024 * PGSIZE) (1025 * PGSIZE) v) : v = 1024 := by
    have low := range.1
    have high := range.2
    simp only [pgRoundUp, PGSIZE] at low high
    omega
  obtain ⟨st', done⟩ := returns (by
    intro v range p page
    rw [only range, dir.rep.userPage_eq (by decide)] at page
    cases page
    decide)
  refine ⟨st', done, (clears st' done).mpr ?_⟩
  rintro v range - ⟨-, behind, -⟩
  rw [only range] at behind
  exact absurd behind (by decide)

-- From the second page of the missing table the loop jumps over the first page of the next.
theorem deallocuvm_skips : Directory (onePageAt 1024 []).mem 0x400 (onePageSpace 1024) ∧
    ∃ st', deallocuvm smallKernel (onePageAt 1024 []) 0x400 (1025 * PGSIZE) PGSIZE = .ok st' ∧
      InRange PGSIZE (1025 * PGSIZE) 1024 ∧ st'.userPage 0x400 1024 = some 0x402 ∧
      ¬ Clears (onePageAt 1024 []) st' 0x400 PGSIZE (1025 * PGSIZE) := by
  have dir := (onePageAt_inv 1024 [] List.nodup_nil (by simp)).directory
  have nothing : clearedPages (onePageSpace 1024) (1025 * PGSIZE) PGSIZE = [] := by decide
  have range : InRange PGSIZE (1025 * PGSIZE) 1024 := by decide
  have outcome := @deallocuvm_empties smallKernel (onePageAt 1024 []) 0x400 (onePageSpace 1024) dir (1025 * PGSIZE) PGSIZE
    (by decide)
  rw [nothing] at outcome
  obtain ⟨st', done, emptied⟩ := outcome.resolve_right (by simp)
  have page : st'.userPage 0x400 1024 = some 0x402 := by
    rw [emptied.directory.rep.userPage_eq (by decide)]
    rfl
  refine ⟨dir, st', done, range, page, fun clears => ?_⟩
  rw [clears.absent 1024 range] at page
  cases page

end Xv6.Vm
