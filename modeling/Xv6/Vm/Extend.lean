import Xv6.Vm.Clear

set_option autoImplicit false

/-!
# `allocuvm` when memory runs out

A page of the range takes one free page, or two when it is the first of the range to need its table.
`allocuvm` notices when there is no page for the page itself and takes everything back. When only the
table cannot be had, `mappages` fails and nobody looks: the page is lost, and the loop goes on.
-/

namespace Xv6.Vm

variable {img : Image} {st : Phys} {g : Nat} {A : Space} {role : Nat → Role}

theorem deallocuvm_emptied (inv : Inv img st g A role) (oldsz newsz : Nat) (below : oldsz ≤ KERNBASE) :
    ∃ st', deallocuvm img st g oldsz newsz = .ok st' ∧ Emptied img st g A (clearedPages A oldsz newsz) st' := by
  refine (deallocuvm_empties inv.directory oldsz newsz below).resolve_right ?_
  rintro ⟨-, v, member, refused⟩
  obtain ⟨user, there⟩ := clearedPages_user below member
  exact refused (inv.user_page user there)

-- The entry of page `v`, 0 if there is no table for it.
def Phys.entryOf (st : Phys) (g v : Nat) : Nat := (st.pte g v).getD 0

theorem Rep.entryOf_eq (rep : Rep st.mem g A) {v : Nat} (inside : v < ALLPAGES) : st.entryOf g v = A.entry v := by
  rw [Phys.entryOf, rep.pte_eq inside]
  cases there : A.table (v / NPTENTRIES) with
  | none => simp [rep.absent v there]
  | some t => rfl

/-- Every page of the range is present, writable for the user and zero. -/
def RangeMapped (st' : Phys) (g oldsz newsz : Nat) : Prop :=
  ∀ v, InRange oldsz newsz v → ∃ p, st'.entryOf g v = userEntry p ∧ st'.mem p = fun _ => 0

/-- The first `n` pages have the entries and the contents that they had. -/
def PagesKept (st st' : Phys) (g n : Nat) : Prop :=
  ∀ v < n, st'.entryOf g v = st.entryOf g v ∧ ∀ p, st.userPage g v = some p → st'.mem p = st.mem p

/-- No page of the range is mapped, the pages below are as before, and no free page is lost. -/
structure Undone (st st' : Phys) (g oldsz newsz : Nat) : Prop where
  unmapped : ∀ v, InRange oldsz newsz v → st'.userPage g v = none
  kept : PagesKept st st' g (pagesOf oldsz)
  noneLost : ∀ p ∈ st.freelist, p ∈ st'.freelist ∨ ∃ d < NPDENTRIES, tableAt st'.mem g d = some p

def AllOrNothing (img : Image) (st : Phys) (g oldsz newsz : Nat) : Prop :=
  ∃ r, allocuvm img st g oldsz newsz = .ok r ∧
    (r.sz ≠ 0 → r.sz = newsz ∧ RangeMapped r.st g oldsz newsz) ∧ (r.sz = 0 → Undone st r.st g oldsz newsz)

-- The tables that the pages from `s` up to `v` need and that are missing.
def newTables (A : Space) (s v : Nat) : Finset Nat :=
  ((Finset.Ico s v).image (· / NPTENTRIES)).filter fun d => A.table d = none

theorem mem_newTables (A : Space) (s v d : Nat) :
    d ∈ newTables A s v ↔ (∃ w, s ≤ w ∧ w < v ∧ w / NPTENTRIES = d) ∧ A.table d = none := by
  simp only [newTables, Finset.mem_filter, Finset.mem_image, Finset.mem_Ico, and_assoc]

theorem newTables_mono (A : Space) (s : Nat) {v w : Nat} (le : v ≤ w) : newTables A s v ⊆ newTables A s w := by
  intro d member
  rw [mem_newTables] at member ⊢
  obtain ⟨⟨x, low, high, region⟩, missing⟩ := member
  exact ⟨⟨x, low, by omega, region⟩, missing⟩

/-- With `free` free pages, the last one is taken for page `v`, which needs a table besides. -/
def Starves (A : Space) (free s v : Nat) : Prop :=
  A.table (v / NPTENTRIES) = none ∧ (∀ w, s ≤ w → w < v → w / NPTENTRIES ≠ v / NPTENTRIES) ∧
    free = (v - s) + (newTables A s v).card + 1

/-- Below page `s` nothing has changed, and what is new in the directory comes from the free list. -/
structure Above (st₀ : Phys) (g : Nat) (A₀ : Space) (s : Nat) (st : Phys) (A : Space) : Prop where
  below : ∀ w < s, A.entry w = A₀.entry w
  made : ∀ d t, A.table d = some t → A₀.table d = some t ∨ t ∈ st₀.freelist
  left : ∀ p ∈ st.freelist, p ∈ st₀.freelist
  kept : ∀ p, p ≠ g → (∀ d, A₀.table d ≠ some p) → p ∉ st₀.freelist → st.mem p = st₀.mem p

theorem Above.start (st : Phys) (g : Nat) (A : Space) (s : Nat) : Above st g A s st A where
  below := fun _ _ => rfl
  made := fun _ _ at_ => Or.inl at_
  left := fun _ member => member
  kept := fun _ _ _ _ => rfl

theorem Above.take {st₀ : Phys} {A₀ : Space} {s mem : Nat} {rest : List Nat} (above : Above st₀ g A₀ s st A)
    (first : st.freelist = mem :: rest) (page : Page) :
    Above st₀ g A₀ s ({ st with freelist := rest }.setPage mem page) A where
  below := above.below
  made := above.made
  left := fun p member => above.left p (first ▸ List.mem_cons_of_mem mem member)
  kept := by
    intro p notDir notTable notFree
    have notMem : p ≠ mem := by
      rintro rfl
      exact notFree (above.left p (first ▸ List.mem_cons_self))
    rw [← above.kept p notDir notTable notFree]
    exact Function.update_of_ne notMem _ _

theorem Above.page {st₀ st' taken : Phys} {A₀ A' : Space} {s v e : Nat} (above : Above st₀ g A₀ s taken A) (start : s ≤ v)
    (entries : A'.entry = Function.update A.entry v e) (provided : Provided taken A (v / NPTENTRIES) st' A')
    (same : ∀ p, p ≠ g → (∀ d, A.table d ≠ some p) → p ∉ taken.freelist → st'.mem p = taken.mem p) :
    Above st₀ g A₀ s st' A' where
  below := by
    intro w low
    rw [entries, Function.update_of_ne (by omega)]
    exact above.below w low
  made := by
    intro d t at_
    rcases provided with ⟨-, tables, -⟩ | ⟨-, u, taken_, tables⟩
    · rw [tables] at at_
      exact above.made d t at_
    · rw [tables] at at_
      by_cases here : d = v / NPTENTRIES
      · rw [here, Function.update_self, Option.some.injEq] at at_
        exact Or.inr (above.left t (by rw [taken_, ← at_]; exact List.mem_cons_self))
      · rw [Function.update_of_ne here] at at_
        exact above.made d t at_
  left := by
    intro p member
    rcases provided with ⟨-, -, free⟩ | ⟨-, t, taken_, -⟩
    · exact above.left p (free ▸ member)
    · exact above.left p (by rw [taken_]; exact List.mem_cons_of_mem t member)
  kept := by
    intro p notDir notTable notFree
    have notTable' : ∀ d, A.table d ≠ some p := by
      intro d at_
      rcases above.made d p at_ with old | new
      · exact notTable d old
      · exact notFree new
    rw [same p notDir notTable' fun member => notFree (above.left p member)]
    exact above.kept p notDir notTable notFree

theorem Above.pagesKept {st₀ st' : Phys} {A₀ : Space} {role₀ : Nat → Role} {s : Nat} {l : List Nat}
    (above : Above st₀ g A₀ s st A) (inv : Inv img st g A role) (inv₀ : Inv img st₀ g A₀ role₀) (user : s ≤ USERPAGES)
    (behind : ∀ w ∈ l, s ≤ w ∧ w < USERPAGES ∧ present (A.entry w) = true) (emptied : Emptied img st g A l st') :
    PagesKept st₀ st' g s := by
  intro w low
  have userW : w < USERPAGES := by omega
  have inside : w < ALLPAGES := by
    simp only [KERNBASE, USERPAGES, ALLPAGES, PGSIZE] at userW ⊢
    omega
  have same := above.below w low
  have notMine : w ∉ l := fun member => by
    have later := (behind w member).1
    omega
  constructor
  · rw [emptied.directory.rep.entryOf_eq inside, inv₀.rep.entryOf_eq inside, ← same]
    exact if_neg notMine
  · intro p page
    rw [inv₀.rep.userPage_eq inside] at page
    split at page
    next there =>
      cases page
      obtain ⟨notDir, notTable, notFree⟩ := inv₀.user_apart userW there
      rw [← above.kept _ notDir notTable notFree, ← same]
      rw [← same] at there
      apply emptied.kept _ (inv.directory.userApart w userW there).2
      intro x member clash
      obtain ⟨-, userX, thereX⟩ := behind x member
      exact notMine (inv.directory.userOnce x w userX userW thereX there clash ▸ member)
    next => cases page

/-- The pages from `s` up to `v` have been mapped. -/
structure Extended (st₀ : Phys) (g : Nat) (A₀ : Space) (s v : Nat) (st : Phys) (A : Space) : Prop
    extends Above st₀ g A₀ s st A where
  mapped : ∀ w, s ≤ w → w < v → ∃ p, A.entry w = userEntry p ∧ st.mem p = fun _ => 0
  others : ∀ w, ¬ (s ≤ w ∧ w < v) → A.entry w = A₀.entry w
  tables : ∀ d, A.table d = none ↔ A₀.table d = none ∧ ∀ w, s ≤ w → w < v → w / NPTENTRIES ≠ d
  count : st.freelist.length + (v - s) + (newTables A₀ s v).card = st₀.freelist.length
  origin : ∀ p ∈ st₀.freelist, p ∈ st.freelist ∨ (∃ d < NPDENTRIES, A.table d = some p) ∨
    ∃ w, s ≤ w ∧ w < v ∧ A.entry w = userEntry p

theorem Extended.start (st : Phys) (g : Nat) (A : Space) (s : Nat) : Extended st g A s s st A where
  toAbove := Above.start st g A s
  mapped := fun w low high => by omega
  others := fun _ _ => rfl
  tables := fun d => ⟨fun missing => ⟨missing, fun w low high => by omega⟩, And.left⟩
  count := by simp [newTables]
  origin := fun _ member => Or.inl member

-- A page that needs a new table adds one to those needed, and no other page does.
theorem Extended.newTables_succ {st₀ : Phys} {A₀ : Space} {s v : Nat} (ext : Extended st₀ g A₀ s v st A) (start : s ≤ v) :
    (A.table (v / NPTENTRIES) = none → (newTables A₀ s (v + 1)).card = (newTables A₀ s v).card + 1) ∧
      (A.table (v / NPTENTRIES) ≠ none → newTables A₀ s (v + 1) = newTables A₀ s v) := by
  constructor
  · intro missing
    obtain ⟨missing₀, first⟩ := (ext.tables _).mp missing
    have fresh : v / NPTENTRIES ∉ newTables A₀ s v := by
      rw [mem_newTables]
      rintro ⟨⟨w, low, high, region⟩, -⟩
      exact first w low high region
    have grown : newTables A₀ s (v + 1) = insert (v / NPTENTRIES) (newTables A₀ s v) := by
      ext d
      rw [Finset.mem_insert, mem_newTables, mem_newTables]
      constructor
      · rintro ⟨⟨w, low, high, region⟩, gone⟩
        by_cases last : w = v
        · exact Or.inl (last ▸ region.symm)
        · exact Or.inr ⟨⟨w, low, by omega, region⟩, gone⟩
      · rintro (rfl | ⟨⟨w, low, high, region⟩, gone⟩)
        · exact ⟨⟨v, start, by omega, rfl⟩, missing₀⟩
        · exact ⟨⟨w, low, by omega, region⟩, gone⟩
    rw [grown, Finset.card_insert_of_notMem fresh]
  · intro there
    apply Finset.Subset.antisymm _ (newTables_mono A₀ s (Nat.le_succ v))
    intro d member
    rw [mem_newTables] at member ⊢
    obtain ⟨⟨w, low, high, region⟩, gone⟩ := member
    refine ⟨?_, gone⟩
    by_cases last : w = v
    · -- The table was missing and is there, so an earlier page has needed it.
      by_contra none_
      rw [last] at region
      refine there ((ext.tables _).mpr ?_)
      rw [region]
      exact ⟨gone, fun x low high same => none_ ⟨x, low, high, same⟩⟩
    · exact ⟨w, low, by omega, region⟩

theorem present_userEntry_of {v p : Nat} (value : A.entry v = userEntry p) :
    present (A.entry v) = true ∧ pteAddr (A.entry v) = p := by
  rw [value]
  exact ⟨present_userEntry p, pteAddr_userEntry p⟩

theorem Extended.page {st₀ st' taken : Phys} {A₀ A' : Space} {s v mem : Nat} {rest : List Nat}
    (ext : Extended st₀ g A₀ s v st A) (inv : Inv img st g A role) (start : s ≤ v) (user : v < USERPAGES)
    (first : st.freelist = mem :: rest) (zeroed : taken = { st with freelist := rest }.setPage mem (fun _ => 0))
    (entries : A'.entry = Function.update A.entry v (userEntry mem)) (provided : Provided taken A (v / NPTENTRIES) st' A')
    (same : ∀ p, p ≠ g → (∀ d, A.table d ≠ some p) → p ∉ taken.freelist → st'.mem p = taken.mem p) :
    Extended st₀ g A₀ s (v + 1) st' A' := by
  have nodup := inv.owned.nodup
  rw [first] at nodup
  obtain ⟨notRest, -⟩ := List.nodup_cons.mp nodup
  have wasFree : role mem = .free := (inv.owned.free mem).mp (first ▸ List.mem_cons_self)
  have atMem : taken.mem mem = fun _ => 0 := by simp [zeroed, Phys.setPage]
  have elsewhere {p : Nat} (other : p ≠ mem) : taken.mem p = st.mem p := by
    simp [zeroed, Phys.setPage, other]
  have free : taken.freelist = rest := by rw [zeroed]; rfl
  have index : v / NPTENTRIES < NPDENTRIES := by
    simp only [USERPAGES, KERNBASE, PGSIZE, NPTENTRIES, NPDENTRIES] at user ⊢
    omega
  obtain ⟨newTable, oldTable⟩ := ext.newTables_succ start
  constructor
  case toAbove =>
    have above := ext.toAbove.take first (fun _ => 0)
    rw [← zeroed] at above
    exact above.page start entries provided same
  case mapped =>
    intro w low high
    rw [entries]
    by_cases last : w = v
    · rw [last, Function.update_self]
      refine ⟨mem, rfl, ?_⟩
      rw [same mem (inv.owned.ne_dir (by rw [wasFree]; simp)) (inv.owned.ne_table (by rw [wasFree]; simp))
        (by rw [free]; exact notRest), atMem]
    · rw [Function.update_of_ne last]
      obtain ⟨p, value, zero⟩ := ext.mapped w low (by omega)
      obtain ⟨there, page⟩ := present_userEntry_of value
      obtain ⟨notDir, notTable, notFree⟩ := inv.user_apart (by omega) there
      rw [page] at notDir notTable notFree
      rw [first, List.mem_cons, not_or] at notFree
      exact ⟨p, value, by
        rw [same p notDir notTable (by rw [free]; exact notFree.2), elsewhere notFree.1, zero]⟩
  case others =>
    intro w out
    rw [entries, Function.update_of_ne (by omega)]
    exact ext.others w (by omega)
  case tables =>
    intro d
    rcases provided with ⟨there, tables, -⟩ | ⟨missing, t, -, tables⟩
    · rw [tables, ext.tables d]
      constructor
      · rintro ⟨gone, none_⟩
        refine ⟨gone, fun w low high region => ?_⟩
        by_cases last : w = v
        · rw [last] at region
          exact there ((ext.tables _).mpr (by rw [region]; exact ⟨gone, none_⟩))
        · exact none_ w low (by omega) region
      · rintro ⟨gone, none_⟩
        exact ⟨gone, fun w low high => none_ w low (by omega)⟩
    · rw [tables]
      by_cases here : d = v / NPTENTRIES
      · rw [here, Function.update_self]
        simp only [reduceCtorEq, false_iff, not_and]
        exact fun _ none_ => none_ v start (by omega) rfl
      · rw [Function.update_of_ne here, ext.tables d]
        constructor
        · rintro ⟨gone, none_⟩
          refine ⟨gone, fun w low high region => ?_⟩
          by_cases last : w = v
          · exact here (last ▸ region.symm)
          · exact none_ w low (by omega) region
        · rintro ⟨gone, none_⟩
          exact ⟨gone, fun w low high => none_ w low (by omega)⟩
  case count =>
    have total := ext.count
    rw [first, List.length_cons] at total
    rcases provided with ⟨there, -, free'⟩ | ⟨missing, t, taken_, -⟩
    · rw [free', free, oldTable there]
      omega
    · rw [free] at taken_
      rw [taken_, List.length_cons] at total
      rw [newTable missing]
      omega
  case origin =>
    intro p member
    rcases ext.origin p member with inList | ⟨d, inside, at_⟩ | ⟨w, low, high, value⟩
    · rw [first, List.mem_cons] at inList
      rcases inList with rfl | inRest
      · exact Or.inr (Or.inr ⟨v, start, by omega, by rw [entries, Function.update_self]⟩)
      · rcases provided with ⟨-, -, free'⟩ | ⟨-, t, taken_, tables⟩
        · left
          rw [free', free]
          exact inRest
        · rw [free] at taken_
          rw [taken_, List.mem_cons] at inRest
          rcases inRest with rfl | later
          · exact Or.inr (Or.inl ⟨v / NPTENTRIES, index, by rw [tables, Function.update_self]⟩)
          · exact Or.inl later
    · refine Or.inr (Or.inl ⟨d, inside, ?_⟩)
      rcases provided with ⟨-, tables, -⟩ | ⟨missing, t, -, tables⟩
      · rw [tables, at_]
      · have other : d ≠ v / NPTENTRIES := by
          rintro rfl
          rw [missing] at at_
          cases at_
        rw [tables, Function.update_of_ne other, at_]
    · exact Or.inr (Or.inr ⟨w, low, by omega, by rw [entries, Function.update_of_ne (by omega), value]⟩)

-- What `deallocuvm` finds are the pages mapped so far. The first of them has a table, so it skips none.
theorem Extended.cleared {st₀ : Phys} {A₀ : Space} {oldsz newsz v : Nat}
    (ext : Extended st₀ g A₀ (pagesOf oldsz) v st A) (rep : Rep st.mem g A) (inside : v ≤ pagesOf newsz)
    (unmapped : ∀ w, InRange oldsz newsz w → present (A₀.entry w) = false) (w : Nat) :
    w ∈ clearedPages A newsz oldsz ↔ pagesOf oldsz ≤ w ∧ w < v := by
  rw [mem_clearedPages rep, inRange_iff]
  constructor
  · rintro ⟨range, there, -⟩
    refine ⟨range.1, ?_⟩
    by_contra out
    rw [ext.others w (by omega), unmapped w ((inRange_iff _ _ _).mpr range)] at there
    cases there
  · rintro ⟨low, high⟩
    obtain ⟨p, value, -⟩ := ext.mapped w low high
    refine ⟨⟨low, (lt_pagesOf_iff w newsz).mp (by omega)⟩, (present_userEntry_of value).1, ?_⟩
    rintro ⟨region, -, missing⟩
    have gone := missing _ (Nat.le_refl _) region
    exact ((ext.tables _).mp gone).2 (pagesOf oldsz) (Nat.le_refl _) (by omega) rfl

theorem Extended.undone {st₀ st' : Phys} {A₀ : Space} {role₀ : Nat → Role} {oldsz newsz v : Nat}
    (ext : Extended st₀ g A₀ (pagesOf oldsz) v st A) (inv : Inv img st g A role) (inv₀ : Inv img st₀ g A₀ role₀)
    (larger : oldsz ≤ newsz) (below : newsz < KERNBASE) (inside : v ≤ pagesOf newsz)
    (unmapped : ∀ w, InRange oldsz newsz w → present (A₀.entry w) = false) (empty : st.freelist = [])
    (emptied : Emptied img st g A (clearedPages A newsz oldsz) st') : Undone st₀ st' g oldsz newsz := by
  have rep' := emptied.directory.rep
  have cleared := ext.cleared inv.rep inside unmapped
  have erased (w : Nat) : (A.erase (clearedPages A newsz oldsz)).entry w =
      if w ∈ clearedPages A newsz oldsz then 0 else A.entry w := rfl
  constructor
  case unmapped =>
    intro w range
    rw [rep'.userPage_eq (range.user (Nat.le_of_lt below)).2, erased]
    by_cases mine : w ∈ clearedPages A newsz oldsz
    · rw [if_pos mine, absent_zero]
      rfl
    · have out : ¬ (pagesOf oldsz ≤ w ∧ w < v) := fun here => mine ((cleared w).mpr here)
      rw [if_neg mine, ext.others w out, unmapped w range]
      rfl
  case kept =>
    have user : pagesOf oldsz ≤ USERPAGES := by
      simp only [pagesOf, KERNBASE, USERPAGES, PGSIZE] at below ⊢
      omega
    refine ext.toAbove.pagesKept inv inv₀ user ?_ emptied
    intro w member
    obtain ⟨range, there, -⟩ := (mem_clearedPages inv.rep newsz oldsz w).mp member
    exact ⟨((inRange_iff _ _ _).mp range).1, (range.user (Nat.le_of_lt below)).1, there⟩
  case noneLost =>
    intro p member
    rcases ext.origin p member with inList | ⟨d, inDir, at_⟩ | ⟨w, low, high, value⟩
    · rw [empty] at inList
      cases inList
    · exact Or.inr ⟨d, inDir, (rep'.pde d inDir).trans at_⟩
    · left
      rw [emptied.freelist, List.mem_append, List.mem_reverse, List.mem_map]
      exact Or.inl ⟨w, (cleared w).mpr ⟨low, high⟩, (present_userEntry_of value).2⟩

/-- What a run of the loop leads to. In the last two cases a page is gone: the range ends with a page that
is not mapped, or the page is neither free nor a table when the rest has been taken back. -/
inductive Outcome (st₀ : Phys) (g : Nat) (A₀ : Space) (oldsz newsz : Nat) : Except Panic Grown → Prop
  | complete (r : Grown)
      (fed : ∀ v, InRange oldsz newsz v → ¬ Starves A₀ st₀.freelist.length (pagesOf oldsz) v)
      (size : r.sz = newsz) (mapped : RangeMapped r.st g oldsz newsz) : Outcome st₀ g A₀ oldsz newsz (.ok r)
  | undone (r : Grown)
      (fed : ∀ v, InRange oldsz newsz v → ¬ Starves A₀ st₀.freelist.length (pagesOf oldsz) v)
      (size : r.sz = 0) (undone : Undone st₀ r.st g oldsz newsz) : Outcome st₀ g A₀ oldsz newsz (.ok r)
  | short (r : Grown) (v : Nat) (range : InRange oldsz newsz v)
      (starves : Starves A₀ st₀.freelist.length (pagesOf oldsz) v) (size : r.sz = newsz)
      (page : present (r.st.entryOf g v) = false) : Outcome st₀ g A₀ oldsz newsz (.ok r)
  | leaked (r : Grown) (v : Nat) (range : InRange oldsz newsz v)
      (starves : Starves A₀ st₀.freelist.length (pagesOf oldsz) v) (size : r.sz = 0) (p : Nat)
      (wasFree : p ∈ st₀.freelist) (notFree : p ∉ r.st.freelist)
      (notTable : ∀ d < NPDENTRIES, tableAt r.st.mem g d ≠ some p) : Outcome st₀ g A₀ oldsz newsz (.ok r)

theorem Extended.complete {st₀ : Phys} {A₀ : Space} {oldsz newsz : Nat}
    (ext : Extended st₀ g A₀ (pagesOf oldsz) (pagesOf newsz) st A) (rep : Rep st.mem g A) (below : newsz < KERNBASE)
    (fed : ∀ w, pagesOf oldsz ≤ w → w < pagesOf newsz → ¬ Starves A₀ st₀.freelist.length (pagesOf oldsz) w)
    (pages : List (Nat × Nat)) : Outcome st₀ g A₀ oldsz newsz (.ok ⟨newsz, st, pages⟩) := by
  have bounds {v : Nat} (range : InRange oldsz newsz v) : pagesOf oldsz ≤ v ∧ v < pagesOf newsz := by
    rw [inRange_iff, ← lt_pagesOf_iff] at range
    exact range
  refine .complete _ (fun v range => fed v (bounds range).1 (bounds range).2) rfl fun v range => ?_
  dsimp only
  rw [rep.entryOf_eq (range.user (Nat.le_of_lt below)).2]
  exact ext.mapped v (bounds range).1 (bounds range).2

theorem allocLoop_lost {st₀ : Phys} {A₀ : Space} {oldsz newsz v mem : Nat} (inv : Inv img st g A role)
    (below : newsz < KERNBASE) (lost : role mem = .user v) (wasFree : mem ∈ st₀.freelist)
    (fresh : present (A.entry v) = false) (empty : st.freelist = []) (range : InRange oldsz newsz v)
    (starves : Starves A₀ st₀.freelist.length (pagesOf oldsz) v) (fuel a : Nat) (pages : List (Nat × Nat)) :
    Outcome st₀ g A₀ oldsz newsz (allocLoop img g oldsz newsz fuel a st pages) := by
  have entryV : present (st.entryOf g v) = false := by
    rw [inv.rep.entryOf_eq (range.user (Nat.le_of_lt below)).2, fresh]
  cases fuel with
  | zero => exact .short _ v range starves rfl entryV
  | succ fuel =>
    rw [allocLoop]
    split
    next more =>
      obtain ⟨st', done, emptied⟩ := deallocuvm_emptied inv newsz oldsz (Nat.le_of_lt below)
      simp only [kalloc, empty, done]
      refine .leaked _ v range starves rfl mem wasFree ?_ ?_
      · dsimp only
        rw [emptied.freelist, empty, List.append_nil, List.mem_reverse, List.mem_map]
        rintro ⟨w, member, rfl⟩
        obtain ⟨rangeW, there, -⟩ := (mem_clearedPages inv.rep newsz oldsz w).mp member
        have mine := inv.owned.user w (rangeW.user (Nat.le_of_lt below)).1 there
        rw [lost] at mine
        injection mine with same
        rw [← same, fresh] at there
        cases there
      · intro d inDir
        dsimp only
        rw [emptied.directory.rep.pde _ inDir]
        intro at_
        have asTable := inv.owned.table d mem at_
        rw [lost] at asTable
        cases asTable
    next => exact .short _ v range starves rfl entryV

theorem allocLoop_outcome {st₀ : Phys} {A₀ : Space} {role₀ : Nat → Role} (inv₀ : Inv img st₀ g A₀ role₀)
    (oldsz newsz : Nat) (larger : oldsz ≤ newsz) (below : newsz < KERNBASE)
    (unmapped : ∀ w, InRange oldsz newsz w → present (A₀.entry w) = false) (fuel v : Nat) (pages : List (Nat × Nat))
    (ext : Extended st₀ g A₀ (pagesOf oldsz) v st A) (inv : Inv img st g A role) (start : pagesOf oldsz ≤ v)
    (inside : v ≤ pagesOf newsz) (enough : pagesOf newsz ≤ v + fuel)
    (fed : ∀ w, pagesOf oldsz ≤ w → w < v → ¬ Starves A₀ st₀.freelist.length (pagesOf oldsz) w) :
    Outcome st₀ g A₀ oldsz newsz (allocLoop img g oldsz newsz fuel (v * PGSIZE) st pages) := by
  induction fuel generalizing v st A role pages with
  | zero =>
    obtain rfl : v = pagesOf newsz := by omega
    exact ext.complete inv.rep below fed pages
  | succ fuel ih =>
    rw [allocLoop]
    split
    next more =>
      have range : InRange oldsz newsz v := (inRange_iff _ _ _).mpr ⟨start, more⟩
      have user := (range.user (Nat.le_of_lt below)).1
      have high : v < pagesOf newsz := (lt_pagesOf_iff v newsz).mpr more
      have fresh : present (A.entry v) = false := by
        rw [ext.others v (by omega)]
        exact unmapped v range
      have count := ext.count
      cases first : st.freelist with
      | nil =>
        obtain ⟨st', done, emptied⟩ := deallocuvm_emptied inv newsz oldsz (Nat.le_of_lt below)
        simp only [kalloc, first, done]
        refine .undone _ ?_ rfl (ext.undone inv inv₀ larger below inside unmapped first emptied)
        intro w rangeW starves
        rw [inRange_iff] at rangeW
        by_cases early : w < v
        · exact fed w rangeW.1 early starves
        · have mono := Finset.card_le_card (newTables_mono A₀ (pagesOf oldsz) (show v ≤ w by omega))
          have needed := starves.2.2
          rw [first, List.length_nil] at count
          omega
      | cons mem rest =>
        rw [first, List.length_cons] at count
        simp only [kalloc, first]
        have next : v * PGSIZE + PGSIZE = (v + 1) * PGSIZE := (Nat.succ_mul v PGSIZE).symm
        rcases mapUserPage inv v mem rest user fresh first _ rfl with
          ⟨missing, last, inv', stopped⟩ | ⟨st', A', role', inv', entries, provided, same, mapped⟩
        · have starves : Starves A₀ st₀.freelist.length (pagesOf oldsz) v := by
            obtain ⟨missing₀, firstPage⟩ := (ext.tables _).mp missing
            rw [last, List.length_nil] at count
            exact ⟨missing₀, firstPage, by omega⟩
          rw [stopped]
          exact allocLoop_lost inv' below (Function.update_self _ _ _) (ext.left mem (first ▸ List.mem_cons_self))
            fresh last range starves fuel _ _
        · rw [mapped]
          dsimp only [Bind.bind, Except.bind]
          rw [next]
          have ext' := ext.page inv start user first rfl entries provided same
          apply ih (v + 1) _ ext' inv' (by omega) high (by omega)
          intro w low le starves
          by_cases early : w < v
          · exact fed w low early starves
          · obtain rfl : w = v := by omega
            have missing : A.table (w / NPTENTRIES) = none := (ext.tables _).mpr ⟨starves.1, starves.2.1⟩
            rcases provided with ⟨there, -⟩ | ⟨-, t, taken_, -⟩
            · exact there missing
            · have two : rest = t :: st'.freelist := taken_
              rw [two, List.length_cons] at count
              have needed := starves.2.2
              omega
    next done =>
      rw [← lt_pagesOf_iff] at done
      obtain rfl : v = pagesOf newsz := by omega
      exact ext.complete inv.rep below fed pages

/-- `allocuvm` is all or nothing if and only if memory does not run out at a page table. -/
theorem allocuvm_all_or_nothing_iff (img : Image) (st : Phys) (g : Nat) (A : Space) (role : Nat → Role)
    (inv : Inv img st g A role) (oldsz newsz : Nat) (larger : oldsz ≤ newsz)
    (unmapped : ∀ v, InRange oldsz newsz v → st.userPage g v = none) :
    AllOrNothing img st g oldsz newsz ↔
      KERNBASE ≤ newsz ∨ ∀ v, InRange oldsz newsz v → ¬ Starves A st.freelist.length (pagesOf oldsz) v := by
  have untouched (ok : allocuvm img st g oldsz newsz = .ok ⟨0, st, []⟩) : AllOrNothing img st g oldsz newsz :=
    ⟨⟨0, st, []⟩, ok, fun nonzero => absurd rfl nonzero,
      fun _ => ⟨unmapped, fun _ _ => ⟨rfl, fun _ _ => rfl⟩, fun _ member => Or.inl member⟩⟩
  by_cases high : newsz ≥ KERNBASE
  · simp only [high, true_or, iff_true]
    exact untouched (by rw [allocuvm, if_pos high])
  by_cases empty : newsz = 0
  · obtain rfl : oldsz = 0 := by omega
    subst empty
    have none_ (v : Nat) : ¬ InRange 0 0 v := fun range => Nat.not_lt_zero _ range.2
    simp only [none_, false_implies, implies_true, or_true, iff_true]
    exact untouched rfl
  have below : newsz < KERNBASE := Nat.lt_of_not_le high
  have absent (v : Nat) (range : InRange oldsz newsz v) : present (A.entry v) = false := by
    have none_ := unmapped v range
    rw [inv.rep.userPage_eq (range.user (Nat.le_of_lt below)).2] at none_
    by_contra there
    rw [if_pos (by simpa using there)] at none_
    cases none_
  have enough : pagesOf newsz ≤ pagesOf oldsz + (newsz / PGSIZE + 1) := by
    simp only [pagesOf, PGSIZE]
    omega
  have outcome := allocLoop_outcome inv oldsz newsz larger below absent (newsz / PGSIZE + 1) (pagesOf oldsz) []
    (Extended.start st g A (pagesOf oldsz)) inv (Nat.le_refl _) (pagesOf_mono larger) enough (by omega)
  rw [← pgRoundUp_eq] at outcome
  have call : allocuvm img st g oldsz newsz =
      allocLoop img g oldsz newsz (newsz / PGSIZE + 1) (pgRoundUp oldsz) st [] := by
    rw [allocuvm, if_neg high, if_neg (by omega)]
  simp only [high, false_or]
  constructor
  · rintro ⟨r, ok, all, nothing⟩ v range starves
    rw [← call, ok] at outcome
    cases outcome with
    | complete _ fed => exact fed v range starves
    | undone _ fed => exact fed v range starves
    | short _ w rangeW _ size page =>
      obtain ⟨-, mapped⟩ := all (by rw [size]; exact empty)
      obtain ⟨p, value, -⟩ := mapped w rangeW
      rw [value, present_userEntry] at page
      cases page
    | leaked _ w rangeW _ size p wasFree notFree notTable =>
      rcases (nothing size).noneLost p wasFree with free | ⟨d, inDir, at_⟩
      · exact notFree free
      · exact notTable d inDir at_
  · intro fed
    rw [AllOrNothing, call]
    generalize allocLoop img g oldsz newsz (newsz / PGSIZE + 1) (pgRoundUp oldsz) st [] = run at outcome
    cases outcome with
    | complete r _ size mapped =>
      exact ⟨r, rfl, fun _ => ⟨size, mapped⟩, fun zero => absurd (size ▸ zero) empty⟩
    | undone r _ size undone => exact ⟨r, rfl, fun nonzero => absurd size nonzero, fun _ => undone⟩
    | short _ v range starves => exact (fed v range starves).elim
    | leaked _ v range starves => exact (fed v range starves).elim

-- Page 0x400 is a directory without tables.
def bareDirectory (free : List Nat) : Phys := ⟨fun _ _ => 0, free⟩

def noPages : Space := ⟨fun _ => none, fun _ => 0⟩

theorem bareDirectory_inv (free : List Nat) (nodup : free.Nodup)
    (pages : ∀ p ∈ free, 0x400 < p ∧ p < 0x500) : ∃ role, Inv smallKernel (bareDirectory free) 0x400 noPages role := by
  have sound : (bareDirectory (0x400 :: free)).Sound smallKernel := by
    constructor
    · refine List.nodup_cons.mpr ⟨fun member => ?_, nodup⟩
      have bounds := pages _ member
      omega
    · intro p member
      have bounds : 0x400 ≤ p ∧ p < 0x500 := by
        rcases List.mem_cons.mp member with rfl | later
        · omega
        · have bounds := pages p later
          omega
      simp only [Image.Allocatable, smallKernel, PGSIZE, PHYSTOP]
      omega
  obtain ⟨role, part⟩ := emptyDir_part 0x400 free rfl sound
  have same : { bareDirectory (0x400 :: free) with freelist := free }.setPage 0x400 (fun _ => 0) =
      bareDirectory free := by
    simp only [Phys.setPage, bareDirectory, Phys.mk.injEq, and_true]
    exact Function.update_eq_self 0x400 fun _ _ => 0
  rw [same] at part
  exact ⟨role, part.inv⟩

theorem bareDirectory_userPage (free : List Nat) (v : Nat) :
    (bareDirectory free).userPage 0x400 v = none := by
  rw [Phys.userPage, tableAt]
  simp [bareDirectory, entry_zero, absent_zero]

theorem allocuvm_all_or_nothing_two : AllOrNothing smallKernel (bareDirectory [0x401, 0x402]) 0x400 0 PGSIZE := by
  obtain ⟨role, inv⟩ := bareDirectory_inv [0x401, 0x402] (by decide) (by decide)
  have only {v : Nat} (range : InRange 0 PGSIZE v) : v = 0 := by
    have high := range.2
    simp only [PGSIZE] at high
    omega
  refine (allocuvm_all_or_nothing_iff smallKernel _ 0x400 noPages role inv 0 PGSIZE (by decide) ?_).mpr (Or.inr ?_)
  · exact fun v _ => bareDirectory_userPage _ v
  · intro v range starves
    have few := starves.2.2
    rw [only range] at few
    exact absurd few (by decide)

-- One page is left: it becomes the page, and none is there for its table.
theorem allocuvm_loses_page : (∃ role, Inv smallKernel (bareDirectory [0x401]) 0x400 noPages role) ∧
    (∀ n, (bareDirectory [0x401]).userPage 0x400 n = none) ∧
    (allocuvm smallKernel (bareDirectory [0x401]) 0x400 0 PGSIZE).toOption.map
        (fun r => (r.sz, r.st.entryOf 0x400 0)) = some (PGSIZE, 0) ∧
    (allocuvm smallKernel (bareDirectory [0x401]) 0x400 0 (2 * PGSIZE)).toOption.map
        (fun r => (r.sz, r.st.freelist, tableAt r.st.mem 0x400 0)) = some (0, [], none) ∧
    ¬ AllOrNothing smallKernel (bareDirectory [0x401]) 0x400 0 PGSIZE := by
  have run : (allocuvm smallKernel (bareDirectory [0x401]) 0x400 0 PGSIZE).toOption.map
      (fun r => (r.sz, r.st.entryOf 0x400 0)) = some (PGSIZE, 0) := by decide +kernel
  refine ⟨bareDirectory_inv [0x401] (by decide) (by decide), bareDirectory_userPage _, run, by decide +kernel, ?_⟩
  rintro ⟨r, ok, all, -⟩
  rw [ok] at run
  simp only [Except.toOption, Option.map_some, Option.some.injEq, Prod.mk.injEq] at run
  obtain ⟨p, value, -⟩ := (all (by rw [run.1]; decide)).2 0 (by decide)
  rw [run.2, userEntry_eq] at value
  omega

end Xv6.Vm
