import Xv6.Vm.Dealloc

set_option autoImplicit false

/-!
# Growing and freeing an address space

What `setupkvm`, `allocuvm` and `freevm` do to the map, and how many pages they take. The user part
always starts at page 0 without gaps, except that the last page can be without a table: `allocuvm`
does not notice when `mappages` finds no page for one.
-/

namespace Xv6.Vm

variable {img : Image} {st : Phys} {g : Nat} {A : Space} {role : Nat → Role}

-- A table for directory index `d` is there, or the first free page has become one.
def Provided (st : Phys) (A : Space) (d : Nat) (st' : Phys) (A' : Space) : Prop :=
  (A.table d ≠ none ∧ A'.table = A.table ∧ st'.freelist = st.freelist) ∨
    (A.table d = none ∧ ∃ t, st.freelist = t :: st'.freelist ∧ A'.table = Function.update A.table d (some t))

theorem pageAddr_lt {v : Nat} (below : v < ALLPAGES) : v * PGSIZE < 2 ^ 32 := by
  simp only [ALLPAGES, PGSIZE] at below ⊢
  omega

theorem pageAddr_mod {v : Nat} (below : v < ALLPAGES) : v * PGSIZE % 2 ^ 32 = v * PGSIZE :=
  Nat.mod_eq_of_lt (pageAddr_lt below)

theorem mapLoop_step (inv : Inv img st g A role) (v pa perm count : Nat) (below : v < ALLPAGES)
    (fresh : present (A.entry v) = false) (word : pa + (perm ||| PTE_P) < 2 ^ 32)
    (mapped : v < USERPAGES → role (pteAddr (pa + (perm ||| PTE_P))) = .user v) :
    (A.table (v / NPTENTRIES) = none ∧ st.freelist = [] ∧
        mapLoop g perm (count + 1) (v * PGSIZE) pa st = .ok (false, st)) ∨
      ∃ st' A' role', Inv img st' g A' role' ∧
        A'.entry = Function.update A.entry v (pa + (perm ||| PTE_P)) ∧
        Provided st A (v / NPTENTRIES) st' A' ∧
        (∀ p, p ≠ g → (∀ d, A.table d ≠ some p) → p ∉ st.freelist → st'.mem p = st.mem p) ∧
        mapLoop g perm (count + 1) (v * PGSIZE) pa st =
          mapLoop g perm count ((v * PGSIZE + PGSIZE) % 2 ^ 32) ((pa + PGSIZE) % 2 ^ 32) st' := by
  have address := pageAddr_lt below
  have slot : PTX (v * PGSIZE) = v % NPTENTRIES := by rw [PTX_eq, pageAddr_div]
  cases there : A.table (v / NPTENTRIES) with
  | some t =>
    right
    have walked := inv.rep.walk_found _ address (by rw [pageAddr_div]; exact there) true
    rw [slot] at walked
    have empty : present (entry (st.mem t) (v % NPTENTRIES)) = false := by
      rw [inv.rep.pte v t there, fresh]
    refine ⟨_, _, role, setEntry_inv inv v t _ there word (fun user _ => mapped user), rfl, ?_, ?_, ?_⟩
    · exact Or.inl ⟨by simp [there], rfl, rfl⟩
    · intro p _ notTable _
      exact Function.update_of_ne (fun same => notTable _ (same ▸ there)) _ _
    · rw [mapLoop, walked]
      simp [empty]
  | none =>
    obtain ⟨dry, taken⟩ := inv.rep.walk_alloc _ address (by rw [pageAddr_div]; exact there)
    cases first : st.freelist with
    | nil =>
      left
      refine ⟨rfl, rfl, ?_⟩
      rw [mapLoop, dry first]
    | cons t rest =>
      right
      have made := makeTable_inv inv v t rest below there first
      have wasFree : role t = .free := (inv.owned.free t).mp (first ▸ List.mem_cons_self)
      have at_ : (Function.update A.table (v / NPTENTRIES) (some t)) (v / NPTENTRIES) = some t :=
        Function.update_self _ _ _
      have walked := taken t rest first
      rw [slot, pageAddr_div] at walked
      have kept : v < USERPAGES → Function.update role t (.table (v / NPTENTRIES))
          (pteAddr (pa + (perm ||| PTE_P))) = .user v := by
        intro user
        have mine := mapped user
        have other : pteAddr (pa + (perm ||| PTE_P)) ≠ t := by
          intro clash
          rw [clash, wasFree] at mine
          cases mine
        rw [Function.update_of_ne other]
        exact mine
      have empty : present (entry ((({ st with freelist := rest }.setPage t (fun _ => 0)).setEntry g
          (v / NPTENTRIES) (tableEntry t)).mem t) (v % NPTENTRIES)) = false := by
        rw [made.rep.pte v t at_, fresh]
      refine ⟨_, _, _, setEntry_inv made v t _ at_ word (fun user _ => kept user), rfl, ?_, ?_, ?_⟩
      · exact Or.inr ⟨there, t, first, rfl⟩
      · intro p notDir _ notFree
        have notTable : p ≠ t := fun same => notFree (same ▸ List.mem_cons_self)
        simp only [Phys.setEntry, Phys.setPage, Function.update_of_ne notTable, Function.update_of_ne notDir]
      · rw [mapLoop, walked]
        simp only [empty, Bool.false_eq_true, if_false]

theorem mapLoop_present (rep : Rep st.mem g A) (v pa perm count : Nat) (below : v < ALLPAGES)
    (there : present (A.entry v) = true) : mapLoop g perm (count + 1) (v * PGSIZE) pa st = .error .remap := by
  have address := pageAddr_lt below
  cases table : A.table (v / NPTENTRIES) with
  | none =>
    rw [rep.absent v table] at there
    cases there
  | some t =>
    have slot : PTX (v * PGSIZE) = v % NPTENTRIES := by rw [PTX_eq, pageAddr_div]
    rw [mapLoop, rep.walk_found _ address (by rw [pageAddr_div]; exact table) true, slot]
    simp only [rep.pte v t table, there, if_true]

theorem freeTables_ok (list : List Nat) (st : Phys)
    (tables : ∀ i ∈ list, present (entry (st.mem g) i) = true →
      img.Allocatable (pteAddr (entry (st.mem g) i)) ∧ pteAddr (entry (st.mem g) i) ≠ g) :
    ∃ st', freeTables img g list st = .ok st' := by
  induction list generalizing st with
  | nil => exact ⟨st, rfl⟩
  | cons i rest ih =>
    rw [freeTables]
    split
    next there =>
      obtain ⟨page, other⟩ := tables i List.mem_cons_self there
      rw [kfree, if_pos page]
      apply ih
      -- The directory is not among the pages freed, so the rest of it reads as before.
      have same : (Function.update st.mem (pteAddr (entry (st.mem g) i)) (fun _ => 1)) g = st.mem g :=
        Function.update_of_ne (Ne.symm other) _ _
      simp only [Phys.setPage, same]
      exact fun j member => tables j (List.mem_cons_of_mem i member)
    next => exact ih st fun j member => tables j (List.mem_cons_of_mem i member)

theorem freevm_ok (inv : Inv img st g A role) : ∃ st', freevm img st g = .ok st' := by
  obtain ⟨emptied, role', ok, after⟩ := deallocuvm_ok inv KERNBASE 0 (Nat.le_refl _)
  have tables : ∀ i ∈ List.range NPDENTRIES, present (entry (emptied.mem g) i) = true →
      img.Allocatable (pteAddr (entry (emptied.mem g) i)) ∧ pteAddr (entry (emptied.mem g) i) ≠ g := by
    intro i member there
    have at_ := after.rep.pde i (List.mem_range.mp member)
    rw [tableAt, if_pos there] at at_
    have asTable := after.owned.table i _ at_.symm
    exact ⟨after.owned.allocatable _ (by rw [asTable]; simp), after.owned.ne_dir (by rw [asTable]; simp)⟩
  obtain ⟨freed, done⟩ := freeTables_ok (List.range NPDENTRIES) emptied tables
  have page := after.owned.allocatable g (by rw [after.owned.dir]; simp)
  refine ⟨{ freed.setPage g (fun _ => 1) with freelist := g :: freed.freelist }, ?_⟩
  rw [freevm, ok, ok_bind, done, ok_bind, kfree, if_pos page]

/-- The directory indices that the kernel's mappings below page `next` need. -/
def kernelTable (next d : Nat) : Prop := 512 ≤ d ∧ d * NPTENTRIES < next ∧ (d < 568 ∨ 1016 ≤ d) ∧ d < NPDENTRIES

instance (next d : Nat) : Decidable (kernelTable next d) := by
  unfold kernelTable
  infer_instance

def kernelTables (next : Nat) : Finset Nat := (Finset.range NPDENTRIES).filter (kernelTable next)

theorem mem_kernelTables (next d : Nat) : d ∈ kernelTables next ↔ kernelTable next d := by
  rw [kernelTables, Finset.mem_filter, Finset.mem_range]
  exact ⟨And.right, fun needed => ⟨needed.2.2.2, needed⟩⟩

/-- The kernel part is mapped below page `next` and nothing else is; `total` pages were free. -/
structure KernelPart (img : Image) (total : Nat) (st : Phys) (g : Nat) (A : Space) (role : Nat → Role)
    (next : Nat) : Prop where
  inv : Inv img st g A role
  above : ∀ v, next ≤ v → A.entry v = 0
  user : ∀ v < USERPAGES, A.entry v = 0
  closed : ∀ v, A.entry v / PTE_U % 2 = 0
  tables : ∀ d, A.table d ≠ none ↔ kernelTable next d
  count : (kernelTables next).card + st.freelist.length + 1 = total

theorem kernelTables_step (v : Nat) (kernel : USERPAGES ≤ v) (range : v / NPTENTRIES < 568 ∨ 1016 ≤ v / NPTENTRIES)
    (below : v < ALLPAGES) :
    (kernelTable v (v / NPTENTRIES) → kernelTables (v + 1) = kernelTables v) ∧
      (¬ kernelTable v (v / NPTENTRIES) →
        kernelTables (v + 1) = insert (v / NPTENTRIES) (kernelTables v) ∧ v / NPTENTRIES ∉ kernelTables v) := by
  simp only [USERPAGES, ALLPAGES, KERNBASE, PGSIZE] at kernel below
  constructor
  · intro old
    ext d
    rw [mem_kernelTables, mem_kernelTables]
    simp only [kernelTable, NPTENTRIES, NPDENTRIES] at old range ⊢
    omega
  · intro new
    refine ⟨?_, fun member => new ((mem_kernelTables _ _).mp member)⟩
    ext d
    rw [Finset.mem_insert, mem_kernelTables, mem_kernelTables]
    simp only [kernelTable, NPTENTRIES, NPDENTRIES] at new range ⊢
    omega

theorem kernelTables_subset (v : Nat) : kernelTables v ⊆ kernelTables ALLPAGES := by
  intro d member
  rw [mem_kernelTables] at member ⊢
  simp only [kernelTable, NPTENTRIES, NPDENTRIES, ALLPAGES, PGSIZE] at member ⊢
  omega

theorem card_kernelTables : (kernelTables ALLPAGES).card = 64 := by decide +kernel

theorem mapLoop_kernel {total : Nat} (perm : Nat) (small : perm ||| PTE_P < PTE_U) (count v pa : Nat)
    (part : KernelPart img total st g A role v) (kernel : USERPAGES ≤ v)
    (range : v + count ≤ 568 * NPTENTRIES ∨ (1016 * NPTENTRIES ≤ v ∧ v + count ≤ ALLPAGES))
    (aligned : pa % PGSIZE = 0) (word : pa < 2 ^ 32) :
    (∃ st', mapLoop g perm count (v * PGSIZE % 2 ^ 32) pa st = .ok (false, st') ∧ total < 65) ∨
      ∃ st' A' role', mapLoop g perm count (v * PGSIZE % 2 ^ 32) pa st = .ok (true, st') ∧
        KernelPart img total st' g A' role' (v + count) := by
  induction count generalizing st A role v pa with
  | zero => exact Or.inr ⟨st, A, role, rfl, part⟩
  | succ count ih =>
    have below : v < ALLPAGES := by
      simp only [ALLPAGES, PGSIZE, NPTENTRIES] at range ⊢
      omega
    have inRange : v / NPTENTRIES < 568 ∨ 1016 ≤ v / NPTENTRIES := by
      simp only [NPTENTRIES] at range ⊢
      omega
    have address := pageAddr_mod below
    have entryWord : pa + (perm ||| PTE_P) < 2 ^ 32 := by
      simp only [PGSIZE, PTE_U] at aligned small
      omega
    obtain ⟨sameTables, newTables⟩ := kernelTables_step v kernel inRange below
    rw [address]
    rcases mapLoop_step part.inv v pa perm count below (by rw [part.above v (Nat.le_refl v)]; rfl) entryWord
        (fun user => absurd user (by omega)) with ⟨missing, empty, stopped⟩ | ⟨st', A', role', inv', entries, provided, -, continues⟩
    · left
      refine ⟨st, stopped, ?_⟩
      -- All the tables made so far are among the 64, and one of those is still missing.
      have absent : ¬ kernelTable v (v / NPTENTRIES) := fun needed => ((part.tables _).mpr needed) missing
      obtain ⟨grown, fresh⟩ := newTables absent
      have most : (kernelTables (v + 1)).card ≤ 64 := by
        rw [← card_kernelTables]
        exact Finset.card_le_card (kernelTables_subset (v + 1))
      rw [grown, Finset.card_insert_of_notMem fresh] at most
      have total_ := part.count
      rw [empty, List.length_nil] at total_
      omega
    · rw [continues]
      have next : (v * PGSIZE + PGSIZE) % 2 ^ 32 = (v + 1) * PGSIZE % 2 ^ 32 := by ring_nf
      rw [next]
      have part' : KernelPart img total st' g A' role' (v + 1) := by
        refine ⟨inv', ?_, ?_, ?_, ?_, ?_⟩
        · intro w le
          rw [entries, Function.update_of_ne (by omega)]
          exact part.above w (by omega)
        · intro w user
          rw [entries, Function.update_of_ne (by omega)]
          exact part.user w user
        · intro w
          rw [entries]
          by_cases here : w = v
          · rw [here, Function.update_self]
            simp only [PGSIZE, PTE_U] at aligned small ⊢
            omega
          · rw [Function.update_of_ne here]
            exact part.closed w
        · intro d
          rw [← mem_kernelTables]
          rcases provided with ⟨there, tables, -⟩ | ⟨missing, t, -, tables⟩
          · rw [tables, part.tables d, sameTables ((part.tables _).mp there), mem_kernelTables]
          · have absent : ¬ kernelTable v (v / NPTENTRIES) := fun needed => ((part.tables _).mpr needed) missing
            rw [tables, (newTables absent).1, Finset.mem_insert, mem_kernelTables]
            by_cases same : d = v / NPTENTRIES
            · simp [same]
            · rw [Function.update_of_ne same, part.tables d]
              simp [same]
        · have total_ := part.count
          rcases provided with ⟨there, -, free⟩ | ⟨missing, t, free, -⟩
          · rw [sameTables ((part.tables _).mp there), free]
            exact total_
          · have absent : ¬ kernelTable v (v / NPTENTRIES) := fun needed => ((part.tables _).mpr needed) missing
            obtain ⟨grown, fresh⟩ := newTables absent
            rw [grown, Finset.card_insert_of_notMem fresh]
            rw [free, List.length_cons] at total_
            omega
      have rest := ih (v + 1) ((pa + PGSIZE) % 2 ^ 32) part' (by omega) (by omega)
        (by simp only [PGSIZE] at aligned ⊢; omega) (Nat.mod_lt _ (by decide))
      rwa [show v + 1 + count = v + (count + 1) by omega] at rest

theorem mappages_pages (st : Phys) (g perm v n pa : Nat) (some_ : 0 < n) (below : v + n ≤ ALLPAGES) :
    mappages st g (v * PGSIZE) (n * PGSIZE) pa perm = mapLoop g perm n (v * PGSIZE % 2 ^ 32) pa st := by
  have first : v * PGSIZE / PGSIZE * PGSIZE = v * PGSIZE % 2 ^ 32 := by
    simp only [ALLPAGES, PGSIZE] at below ⊢
    omega
  have turns : ((v * PGSIZE + n * PGSIZE - 1) % 2 ^ 32 / PGSIZE * PGSIZE + 2 ^ 32 -
      v * PGSIZE / PGSIZE * PGSIZE) % 2 ^ 32 / PGSIZE + 1 = n := by
    simp only [ALLPAGES, PGSIZE] at below ⊢
    omega
  rw [mappages]
  simp only [turns]
  rw [first]

theorem mapKernel_cons {total : Nat} (rest : List Kmap) (k : Kmap) (v n : Nat)
    (part : KernelPart img total st g A role v) (kernel : USERPAGES ≤ v) (some_ : 0 < n)
    (range : v + n ≤ 568 * NPTENTRIES ∨ (1016 * NPTENTRIES ≤ v ∧ v + n ≤ ALLPAGES))
    (virt : k.virt = v * PGSIZE) (size : (k.physEnd + 2 ^ 32 - k.physStart) % 2 ^ 32 = n * PGSIZE)
    (aligned : k.physStart % PGSIZE = 0) (word : k.physStart < 2 ^ 32) (perm : k.perm ||| PTE_P < PTE_U) :
    (∃ st', mapKernel g (k :: rest) st = .ok (false, st') ∧ total < 65) ∨
      ∃ st' A' role', mapKernel g (k :: rest) st = mapKernel g rest st' ∧
        KernelPart img total st' g A' role' (v + n) := by
  have below : v + n ≤ ALLPAGES := by
    simp only [ALLPAGES, PGSIZE, NPTENTRIES] at range ⊢
    omega
  have line : mapKernel g (k :: rest) st = mapLoop g k.perm n (v * PGSIZE % 2 ^ 32) k.physStart st >>=
      fun r => if r.1 then mapKernel g rest r.2 else .ok (false, r.2) := by
    rw [mapKernel, virt, size, mappages_pages st g k.perm v n k.physStart some_ below]
    rfl
  rw [line]
  rcases mapLoop_kernel k.perm perm n v k.physStart part kernel range aligned word with
    ⟨st', stopped, few⟩ | ⟨st', A', role', mapped, part'⟩
  · exact Or.inl ⟨st', by rw [stopped]; rfl, few⟩
  · exact Or.inr ⟨st', A', role', by rw [mapped]; rfl, part'⟩

-- Between the end of physical memory and the devices there is nothing to map.
theorem KernelPart.skip {total : Nat} (part : KernelPart img total st g A role (568 * NPTENTRIES)) :
    KernelPart img total st g A role (1016 * NPTENTRIES) := by
  have same : kernelTables (1016 * NPTENTRIES) = kernelTables (568 * NPTENTRIES) := by decide +kernel
  refine ⟨part.inv, fun v le => part.above v (by simp only [NPTENTRIES] at le ⊢; omega), part.user, part.closed, ?_, ?_⟩
  · intro d
    rw [part.tables d, ← mem_kernelTables, ← mem_kernelTables, same]
  · rw [same]
    exact part.count

/-- The free pages are pages of the allocator, each one once. -/
structure Phys.Sound (img : Image) (st : Phys) : Prop where
  nodup : st.freelist.Nodup
  allocatable : ∀ p ∈ st.freelist, img.Allocatable p

theorem emptyDir_part (g : Nat) (rest : List Nat) (first : st.freelist = g :: rest) (sound : st.Sound img) :
    ∃ role, KernelPart img st.freelist.length ({ st with freelist := rest }.setPage g (fun _ => 0)) g
      ⟨fun _ => none, fun _ => 0⟩ role USERPAGES := by
  have nodup := sound.nodup
  rw [first] at nodup
  obtain ⟨fresh, restNodup⟩ := List.nodup_cons.mp nodup
  refine ⟨fun p => if p = g then .dir else if p ∈ rest then .free else .other, ⟨⟨?_, ?_⟩, ?_, ?_, ?_, ?_, ?_⟩⟩
  · refine ⟨?_, ?_, ?_⟩
    · intro d _
      simp [tableAt, Phys.setPage, entry_zero, absent_zero]
    · intro v t at_
      cases at_
    · intro v _
      rfl
  · refine ⟨?_, restNodup, by simp, ?_, ?_, ?_⟩
    · intro p
      by_cases same : p = g
      · simp [same, Phys.setPage, fresh]
      · by_cases member : p ∈ rest <;> simp [same, Phys.setPage, member]
    · intro d t at_
      cases at_
    · intro v _ there
      simp [present] at there
    · intro p known
      apply sound.allocatable
      rw [first]
      by_cases same : p = g
      · simp [same]
      · by_cases member : p ∈ rest
        · simp [member]
        · simp [same, member] at known
  · intro v _
    rfl
  · intro v _
    rfl
  · intro v
    simp
  · intro d
    simp only [ne_eq, not_true_eq_false, false_iff, kernelTable, USERPAGES, NPTENTRIES, KERNBASE, PGSIZE]
    omega
  · have none_ : kernelTables USERPAGES = ∅ := by decide +kernel
    rw [none_, first]
    simp [Phys.setPage]

theorem setupkvm_spec (img : Image) (st : Phys) (sound : st.Sound img) :
    (∃ st', setupkvm img st = .ok (none, st') ∧ st.freelist.length < 65) ∨
      ∃ g st' A role, setupkvm img st = .ok (some g, st') ∧
        KernelPart img st.freelist.length st' g A role ALLPAGES := by
  have afterText := img.afterText
  have belowTop := img.belowTop
  have aligned := img.aligned
  simp only [KERNLINK, KERNBASE, EXTMEM, PHYSTOP, PGSIZE] at afterText belowTop aligned
  cases first : st.freelist with
  | nil => exact Or.inl ⟨st, by simp [setupkvm, kalloc, first], by simp⟩
  | cons g rest =>
    obtain ⟨role, part⟩ := emptyDir_part g rest first sound
    rw [first] at part
    have start : setupkvm img st =
        mapKernel g (kmap img) ({ st with freelist := rest }.setPage g (fun _ => 0)) >>=
          fun r => .ok (if r.1 then some g else none, r.2) := by
      rw [setupkvm, kalloc, first]
      rfl
    rw [start, kmap]
    -- The four lines of `kmap`, one after the other.
    rcases mapKernel_cons _ ⟨KERNBASE, 0, EXTMEM, PTE_W⟩ USERPAGES 256 part (Nat.le_refl _) (by omega)
        (by norm_num) (by norm_num) (by norm_num) (by norm_num) (by norm_num) (by decide)
        with ⟨_, stopped, few⟩ | ⟨_, _, _, io, part⟩
    · exact Or.inl ⟨_, by rw [stopped]; rfl, few⟩
    rw [io]
    have atText : USERPAGES + 256 = 0x80100 := by norm_num
    rw [atText] at part
    rcases mapKernel_cons _ ⟨KERNLINK, EXTMEM, img.data - KERNBASE, 0⟩ 0x80100
        (img.data / PGSIZE - 0x80100) part (by norm_num)
        (by simp only [PGSIZE]; omega) (by simp only [PGSIZE, NPTENTRIES]; omega)
        (by norm_num) (by simp only [KERNBASE, EXTMEM, PGSIZE]; omega) (by norm_num) (by norm_num)
        (show 0 ||| PTE_P < PTE_U by decide) with ⟨_, stopped, few⟩ | ⟨_, _, _, text, part⟩
    · exact Or.inl ⟨_, by rw [stopped]; rfl, few⟩
    rw [text]
    have atData : 0x80100 + (img.data / PGSIZE - 0x80100) = img.data / PGSIZE := by
      simp only [PGSIZE]
      omega
    rw [atData] at part
    rcases mapKernel_cons _ ⟨img.data, img.data - KERNBASE, PHYSTOP, PTE_W⟩ (img.data / PGSIZE)
        (0x8E000 - img.data / PGSIZE) part (by simp only [USERPAGES, KERNBASE, PGSIZE]; omega)
        (by simp only [PGSIZE]; omega) (by simp only [PGSIZE, NPTENTRIES]; omega)
        (by simp only [PGSIZE]; omega) (by simp only [KERNBASE, PHYSTOP, PGSIZE]; omega)
        (by simp only [KERNBASE, PGSIZE]; omega) (by simp only [KERNBASE]; omega)
        (show PTE_W ||| PTE_P < PTE_U by decide) with ⟨_, stopped, few⟩ | ⟨_, _, _, memory, part⟩
    · exact Or.inl ⟨_, by rw [stopped]; rfl, few⟩
    rw [memory]
    have atTop : img.data / PGSIZE + (0x8E000 - img.data / PGSIZE) = 568 * NPTENTRIES := by
      simp only [PGSIZE, NPTENTRIES]
      omega
    rw [atTop] at part
    rcases mapKernel_cons _ ⟨DEVSPACE, DEVSPACE, 0, PTE_W⟩ (1016 * NPTENTRIES) 0x2000 part.skip
        (by norm_num) (by omega) (by norm_num) (by norm_num) (by norm_num) (by norm_num) (by norm_num)
        (by decide) with ⟨_, stopped, few⟩ | ⟨_, _, _, devices, part⟩
    · exact Or.inl ⟨_, by rw [stopped]; rfl, few⟩
    have atEnd : 1016 * NPTENTRIES + 0x2000 = ALLPAGES := by norm_num
    rw [atEnd] at part
    rw [devices, mapKernel]
    exact Or.inr ⟨g, _, _, _, rfl, part⟩

end Xv6.Vm
