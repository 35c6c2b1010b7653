import Xv6.Vm.Copy

set_option autoImplicit false

/-!
# Two levels of tables as one map

A directory whose tables are pages of their own is a map from page numbers to entries that are
present. `mappages` adds to it and changes nothing else, whatever flags the directory has.
-/

namespace Xv6.Vm

-- What `walkpgdir(.., 0)` leads to, if it is present.
def lookup (st : Phys) (g va : Nat) : Option Nat :=
  match (walkpgdir st g va false).1 with
  | none => none
  | some (t, i) => if present (entry (st.mem t) i) then some (entry (st.mem t) i) else none

/-- No page is used twice: by two entries of the directory, or as a table and as a free page. -/
structure Proper (st : Phys) (g : Nat) : Prop where
  once : ∀ d e t, d < NPDENTRIES → e < NPDENTRIES → tableAt st.mem g d = some t → tableAt st.mem g e = some t → d = e
  table : ∀ d t, d < NPDENTRIES → tableAt st.mem g d = some t → t ≠ g ∧ t ∉ st.freelist
  dir : g ∉ st.freelist
  nodup : st.freelist.Nodup
  small : ∀ p ∈ st.freelist, p < ALLPAGES

section Lookup

def lookupPage (st : Phys) (g v : Nat) : Option Nat :=
  (tableAt st.mem g (v / NPTENTRIES)).bind fun t =>
    if present (entry (st.mem t) (v % NPTENTRIES)) then some (entry (st.mem t) (v % NPTENTRIES)) else none

variable {st st' : Phys} {g : Nat}

theorem lookup_eq (va : Nat) (below : va < 2 ^ 32) : lookup st g va = lookupPage st g (va / PGSIZE) := by
  rw [lookup, lookupPage, tableAt, walkpgdir, PDX_eq va below, PTX_eq]
  cases present (entry (st.mem g) (va / PGSIZE / NPTENTRIES)) <;> simp

theorem tableAt_congr (d : Nat) (same : st'.mem g = st.mem g) : tableAt st'.mem g d = tableAt st.mem g d := by
  rw [tableAt, tableAt, same]

theorem lookupPage_congr (v : Nat) (dir : tableAt st'.mem g (v / NPTENTRIES) = tableAt st.mem g (v / NPTENTRIES))
    (same : ∀ t, tableAt st.mem g (v / NPTENTRIES) = some t →
      entry (st'.mem t) (v % NPTENTRIES) = entry (st.mem t) (v % NPTENTRIES)) :
    lookupPage st' g v = lookupPage st g v := by
  rw [lookupPage, lookupPage, dir]
  cases table : tableAt st.mem g (v / NPTENTRIES) with
  | none => rw [Option.bind_none, Option.bind_none]
  | some t => rw [Option.bind_some, Option.bind_some, same t table]

end Lookup

section Walk

variable {st : Phys} {g : Nat}

theorem dirIndex_lt {v : Nat} (page : v < ALLPAGES) : v / NPTENTRIES < NPDENTRIES := by
  simp only [ALLPAGES, NPTENTRIES, NPDENTRIES, PGSIZE] at *
  omega

theorem setEntry_mem_other (t i e p : Nat) (other : p ≠ t) : (st.setEntry t i e).mem p = st.mem p :=
  Function.update_of_ne other _ _

theorem setEntry_mem_self (t i e : Nat) : (st.setEntry t i e).mem t = putEntry (st.mem t) i e :=
  Function.update_self ..

theorem Proper.newTable (proper : Proper st g) (d : Nat) (index : d < NPDENTRIES) (missing : tableAt st.mem g d = none)
    (p : Nat) (rest : List Nat) (free : st.freelist = p :: rest) :
    let st' := (({ st with freelist := rest } : Phys).setPage p fun _ => 0).setEntry g d (tableEntry p)
    Proper st' g ∧ tableAt st'.mem g d = some p ∧ ∀ v < ALLPAGES, lookupPage st' g v = lookupPage st g v := by
  intro st'
  have inList : p ∈ st.freelist := by rw [free]; exact List.mem_cons_self
  have notDir : p ≠ g := fun same => proper.dir (same ▸ inList)
  have word : tableEntry p < 2 ^ 32 := by
    have below := proper.small p inList
    simp only [tableEntry, ALLPAGES, PGSIZE, PTE_P, PTE_W, PTE_U] at *
    omega
  have dirs : ∀ e, tableAt st'.mem g e = if e = d then some p else tableAt st.mem g e := by
    intro e
    have dirPage : st'.mem g = putEntry (st.mem g) d (tableEntry p) := by
      rw [setEntry_mem_self]
      exact congrArg (putEntry · d (tableEntry p)) (Function.update_of_ne (Ne.symm notDir) _ _)
    rw [tableAt, dirPage]
    by_cases same : e = d
    · rw [same, if_pos rfl, entry_putEntry_same _ _ _ index word, if_pos (present_tableEntry p), pteAddr_tableEntry]
    · rw [if_neg same, entry_putEntry_other _ _ _ _ same, tableAt]
  have others : ∀ t, t ≠ g → t ≠ p → st'.mem t = st.mem t := by
    intro t dir new
    rw [setEntry_mem_other _ _ _ _ dir]
    exact Function.update_of_ne new _ _
  have blank : st'.mem p = fun _ => 0 := by
    rw [setEntry_mem_other _ _ _ _ notDir]
    exact Function.update_self ..
  have fewer : ∀ q, q ∈ rest → q ∈ st.freelist := fun q later => by rw [free]; exact List.mem_cons_of_mem p later
  have nodup := proper.nodup
  rw [free, List.nodup_cons] at nodup
  refine ⟨⟨?_, ?_, fun later => proper.dir (fewer g later), nodup.2, fun q later => proper.small q (fewer q later)⟩,
    by rw [dirs, if_pos rfl], fun v page => ?_⟩
  · intro e f t inside inside' first second
    rw [dirs] at first second
    split_ifs at first second with one two two
    · rw [one, two]
    · cases first
      exact absurd inList (proper.table f p inside' second).2
    · cases second
      exact absurd inList (proper.table e p inside first).2
    · exact proper.once e f t inside inside' first second
  · intro e t inside here
    rw [dirs] at here
    split_ifs at here with one
    · cases here
      exact ⟨notDir, nodup.1⟩
    · obtain ⟨dir, used⟩ := proper.table e t inside here
      exact ⟨dir, fun later => used (fewer t later)⟩
  · by_cases slot : v / NPTENTRIES = d
    · rw [lookupPage, lookupPage, dirs, if_pos slot, slot, missing, Option.bind_some, blank, entry_zero]
      rfl
    · refine lookupPage_congr v (by rw [dirs, if_neg slot]) fun t table => ?_
      obtain ⟨dir, used⟩ := proper.table _ t (dirIndex_lt page) table
      rw [others t dir fun same => used (same ▸ inList)]

theorem Proper.setEntry (proper : Proper st g) (v t e : Nat) (page : v < ALLPAGES) (word : e < 2 ^ 32)
    (table : tableAt st.mem g (v / NPTENTRIES) = some t) (is : present e = true) :
    Proper (st.setEntry t (v % NPTENTRIES) e) g ∧ lookupPage (st.setEntry t (v % NPTENTRIES) e) g v = some e ∧
      ∀ w < ALLPAGES, w ≠ v → lookupPage (st.setEntry t (v % NPTENTRIES) e) g w = lookupPage st g w := by
  obtain ⟨notDir, used⟩ := proper.table _ t (dirIndex_lt page) table
  have dirs : ∀ d, tableAt (st.setEntry t (v % NPTENTRIES) e).mem g d = tableAt st.mem g d := fun d =>
    tableAt_congr d (setEntry_mem_other t _ e g (Ne.symm notDir))
  refine ⟨⟨?_, ?_, proper.dir, proper.nodup, proper.small⟩, ?_, fun w other different => ?_⟩
  · simp only [dirs]
    exact proper.once
  · simp only [dirs]
    exact proper.table
  · rw [lookupPage, dirs, table, Option.bind_some, setEntry_mem_self,
      entry_putEntry_same _ _ _ (Nat.mod_lt v (by decide)) word, if_pos is]
  · refine lookupPage_congr w (dirs _) fun t' table' => ?_
    by_cases same : t' = t
    · subst same
      have slot : w / NPTENTRIES = v / NPTENTRIES :=
        proper.once _ _ t' (dirIndex_lt other) (dirIndex_lt page) table' table
      rw [setEntry_mem_self, entry_putEntry_other]
      intro index
      exact different (by rw [← Nat.div_add_mod w NPTENTRIES, slot, index, Nat.div_add_mod])
    · rw [setEntry_mem_other t _ e t' same]

theorem Proper.walkpgdir (proper : Proper st g) (v : Nat) (page : v < ALLPAGES) :
    walkpgdir st g (v * PGSIZE) true = (none, st) ∨
    ∃ t st', walkpgdir st g (v * PGSIZE) true = (some (t, v % NPTENTRIES), st') ∧ Proper st' g ∧
      tableAt st'.mem g (v / NPTENTRIES) = some t ∧ ∀ w < ALLPAGES, lookupPage st' g w = lookupPage st g w := by
  have address : v * PGSIZE < 2 ^ 32 := by
    simp only [ALLPAGES, PGSIZE] at *
    omega
  have number : v * PGSIZE / PGSIZE = v := Nat.mul_div_cancel v (by decide)
  rw [Vm.walkpgdir, PDX_eq _ address, PTX_eq, number]
  cases dir : present (entry (st.mem g) (v / NPTENTRIES)) with
  | true => exact Or.inr ⟨_, st, rfl, proper, if_pos dir, fun _ _ => rfl⟩
  | false =>
    have missing : tableAt st.mem g (v / NPTENTRIES) = none := by simp [tableAt, dir]
    cases free : st.freelist with
    | nil => exact Or.inl (by simp [kalloc, free])
    | cons p rest =>
      obtain ⟨proper', table, same⟩ := proper.newTable _ (dirIndex_lt page) missing p rest free
      exact Or.inr ⟨p, _, by simp [kalloc, free, tableEntry], proper', table, same⟩

end Walk

section Loop

variable {st : Phys} {g : Nat}

theorem page_mod {x : Nat} (below : x < ALLPAGES) : x * PGSIZE % 2 ^ 32 = x * PGSIZE := by
  refine Nat.mod_eq_of_lt ?_
  simp only [ALLPAGES, PGSIZE] at *
  omega

theorem Proper.mapLoop (perm : Nat) (flags : perm < PGSIZE) (count v q : Nat) (range : v + count ≤ ALLPAGES)
    (frames : q + count ≤ ALLPAGES) (proper : Proper st g)
    (absent : ∀ w, v ≤ w → w < v + count → lookupPage st g w = none) :
    ∃ done st', mapLoop g perm count (v * PGSIZE % 2 ^ 32) (q * PGSIZE % 2 ^ 32) st = .ok (done, st') ∧ Proper st' g ∧
      (done = true → ∀ j < count, lookupPage st' g (v + j) = some ((q + j) * PGSIZE + (perm ||| PTE_P))) ∧
      ∀ w < ALLPAGES, w < v ∨ v + count ≤ w → lookupPage st' g w = lookupPage st g w := by
  induction count generalizing v q st with
  | zero => exact ⟨true, st, rfl, proper, fun _ j none_ => absurd none_ (Nat.not_lt_zero j), fun _ _ _ => rfl⟩
  | succ count ih =>
    have page : v < ALLPAGES := by omega
    have next_ : ∀ x < ALLPAGES, (x * PGSIZE + PGSIZE) % 2 ^ 32 = (x + 1) * PGSIZE % 2 ^ 32 := fun x _ => by
      rw [Nat.succ_mul]
    have bits : perm ||| PTE_P < PGSIZE := Nat.or_lt_two_pow (n := 12) flags (by decide)
    have odd : (perm ||| 1) % 2 = 1 := by simp [Nat.or_mod_two_eq_one]
    rw [page_mod page, page_mod (by omega), Vm.mapLoop]
    rcases proper.walkpgdir v page with out | ⟨t, st₁, walked, proper₁, table, same₁⟩
    · exact ⟨false, st, by rw [out], proper, by simp, fun _ _ _ => rfl⟩
    · have empty : present (entry (st₁.mem t) (v % NPTENTRIES)) = false := by
        have before := absent v le_rfl (by omega)
        rw [← same₁ v page, lookupPage, table, Option.bind_some] at before
        by_contra full
        simp [full] at before
      have word : q * PGSIZE + (perm ||| PTE_P) < 2 ^ 32 := by
        simp only [ALLPAGES, PGSIZE] at *
        omega
      have set_ : present (q * PGSIZE + (perm ||| PTE_P)) = true := by
        rw [present_iff]
        simp only [PGSIZE, PTE_P] at *
        omega
      obtain ⟨proper₂, here, same₂⟩ := proper₁.setEntry v t _ page word table set_
      rw [walked]
      simp only [empty, Bool.false_eq_true, if_false, next_ v page, next_ q (by omega : q < ALLPAGES)]
      obtain ⟨done, st', ran, proper', mapped, kept⟩ := ih (v + 1) (q + 1) (by omega) (by omega) proper₂ fun w low high => by
        rw [same₂ w (by omega) (by omega), same₁ w (by omega)]
        exact absent w (by omega) (by omega)
      refine ⟨done, st', ran, proper', fun all j inside => ?_, fun w below outside => ?_⟩
      · cases j with
        | zero =>
          rw [Nat.add_zero, Nat.add_zero, kept v page (Or.inl (Nat.lt_succ_self v))]
          exact here
        | succ j =>
          have later := mapped all j (by omega)
          rwa [show v + 1 + j = v + (j + 1) by omega, show q + 1 + j = q + (j + 1) by omega] at later
      · rw [kept w below (by omega), same₂ w below (by omega), same₁ w below]

theorem or_flags (q perm : Nat) (flags : perm < PGSIZE) :
    q * PGSIZE ||| perm ||| PTE_P = q * PGSIZE + (perm ||| PTE_P) := by
  have bits : perm ||| PTE_P < 2 ^ 12 := Nat.or_lt_two_pow flags (by decide)
  rw [Nat.or_assoc, Nat.mul_comm, ← Nat.two_pow_add_eq_or_of_lt bits]

end Loop

-- The loop of `mappages` as it is written: it ends when `a` is `last`.
def mapFor (pgdir perm last : Nat) : Nat → Nat → Nat → Phys → Option (Except Panic (Bool × Phys))
  | 0, _, _, _ => none
  | turns + 1, a, pa, st =>
    match walkpgdir st pgdir a true with
    | (none, st) => some (.ok (false, st))
    | (some (t, i), st) =>
      if present (entry (st.mem t) i) then some (.error .remap)
      else if a = last then some (.ok (true, st.setEntry t i (pa ||| perm ||| PTE_P)))
      else
        mapFor pgdir perm last turns ((a + PGSIZE) % 2 ^ 32) ((pa + PGSIZE) % 2 ^ 32)
          (st.setEntry t i (pa ||| perm ||| PTE_P))

section Mappages

variable {st : Phys} {g : Nat}

/-- The loop ends at its last page, also where that is the last of the address space. -/
theorem mapFor_eq (perm : Nat) (flags : perm < PGSIZE) (count v q turns : Nat) (range : v + count < ALLPAGES)
    (frames : q + count < ALLPAGES) (enough : count < turns) (st : Phys) :
    mapFor g perm ((v + count) * PGSIZE) turns (v * PGSIZE) (q * PGSIZE) st =
      some (mapLoop g perm (count + 1) (v * PGSIZE) (q * PGSIZE) st) := by
  induction count generalizing v q turns st with
  | zero =>
    obtain ⟨turns, rfl⟩ := Nat.exists_eq_succ_of_ne_zero (Nat.ne_of_gt enough)
    rw [mapFor, mapLoop, or_flags q perm flags]
    rcases walkpgdir st g (v * PGSIZE) true with ⟨_ | ⟨t, i⟩, st₁⟩
    · rfl
    · dsimp only
      split
      next => rfl
      next =>
        rw [Nat.add_zero, if_pos rfl, mapLoop]
  | succ count ih =>
    obtain ⟨turns, rfl⟩ := Nat.exists_eq_succ_of_ne_zero (Nat.ne_of_gt (Nat.zero_lt_of_lt enough))
    have later : v * PGSIZE ≠ (v + (count + 1)) * PGSIZE := by
      simp only [PGSIZE]
      omega
    have next_ : ∀ x, x + 1 < ALLPAGES → (x * PGSIZE + PGSIZE) % 2 ^ 32 = (x + 1) * PGSIZE := by
      intro x below
      rw [← Nat.succ_mul, page_mod below]
    rw [mapFor, mapLoop, or_flags q perm flags]
    rcases walkpgdir st g (v * PGSIZE) true with ⟨_ | ⟨t, i⟩, st₁⟩
    · rfl
    · dsimp only
      split
      next => rfl
      next =>
        have rest := ih (v + 1) (q + 1) turns (by omega) (by omega) (by omega)
          (st₁.setEntry t i (q * PGSIZE + (perm ||| PTE_P)))
        rw [show v + 1 + count = v + (count + 1) by omega] at rest
        rw [next_ v (by omega), next_ q (by omega), rest]

theorem Proper.mappages (proper : Proper st g) (va size pa perm : Nat) (va_ : va % PGSIZE = 0) (pa_ : pa % PGSIZE = 0)
    (flags : perm < PGSIZE) (some_ : 0 < size) (range : va + size ≤ 2 ^ 32) (frames : pa + size ≤ 2 ^ 32)
    (absent : ∀ a, va ≤ a → a < va + size → lookup st g a = none) :
    ∃ done st', mappages st g va size pa perm = .ok (done, st') ∧
      mapFor g perm ((va + size - 1) / PGSIZE * PGSIZE) ALLPAGES va pa st = some (.ok (done, st')) ∧ Proper st' g ∧
      (done = true → ∀ a, va ≤ a → a / PGSIZE ≤ (va + size - 1) / PGSIZE →
        lookup st' g a = some (pa + (a - va) / PGSIZE * PGSIZE ||| perm ||| PTE_P)) ∧
      ∀ a < 2 ^ 32, a < va ∨ (va + size - 1) / PGSIZE < a / PGSIZE → lookup st' g a = lookup st g a := by
  obtain ⟨v, rfl⟩ : ∃ v, va = v * PGSIZE := ⟨va / PGSIZE, (Nat.div_mul_cancel (Nat.dvd_of_mod_eq_zero va_)).symm⟩
  obtain ⟨q, rfl⟩ : ∃ q, pa = q * PGSIZE := ⟨pa / PGSIZE, (Nat.div_mul_cancel (Nat.dvd_of_mod_eq_zero pa_)).symm⟩
  obtain ⟨n, last⟩ : ∃ n, (v * PGSIZE + size - 1) / PGSIZE = v + n := ⟨(v * PGSIZE + size - 1) / PGSIZE - v, by
    simp only [PGSIZE] at *
    omega⟩
  have below : v + n < ALLPAGES ∧ q + n < ALLPAGES := by
    simp only [ALLPAGES, PGSIZE] at *
    omega
  have count : Vm.mappages st g (v * PGSIZE) size (q * PGSIZE) perm =
      Vm.mapLoop g perm (n + 1) (v * PGSIZE) (q * PGSIZE) st := by
    have first : v * PGSIZE / PGSIZE * PGSIZE = v * PGSIZE := by rw [Nat.mul_div_cancel v (by decide)]
    have inside : (v * PGSIZE + size - 1) % 2 ^ 32 = v * PGSIZE + size - 1 := Nat.mod_eq_of_lt (by omega)
    have turns : ((v + n) * PGSIZE + 2 ^ 32 - v * PGSIZE) % 2 ^ 32 = n * PGSIZE := by
      rw [Nat.add_mul, Nat.add_assoc, Nat.add_sub_cancel_left, Nat.add_mod_right, page_mod (by omega)]
    simp only [Vm.mappages, first, inside, last, turns, Nat.mul_div_cancel n (show 0 < PGSIZE by decide)]
  have missing : ∀ w, v ≤ w → w < v + (n + 1) → lookupPage st g w = none := by
    intro w low high
    have inside : w * PGSIZE < v * PGSIZE + size := by
      simp only [PGSIZE] at last ⊢
      omega
    have here := absent (w * PGSIZE) (Nat.mul_le_mul_right PGSIZE low) inside
    rwa [lookup_eq _ (by omega), Nat.mul_div_cancel w (by decide)] at here
  obtain ⟨done, st', ran, proper', mapped, kept⟩ := proper.mapLoop perm flags (n + 1) v q (by omega) (by omega) missing
  rw [page_mod (by omega), page_mod (by omega)] at ran
  refine ⟨done, st', by rw [count, ran], ?_, proper', fun all a low high => ?_, fun a word outside => ?_⟩
  · rw [last, mapFor_eq perm flags n v q ALLPAGES below.1 below.2 (by omega), ran]
  · obtain ⟨j, number⟩ : ∃ j, a / PGSIZE = v + j := ⟨a / PGSIZE - v, by
      simp only [PGSIZE] at *
      omega⟩
    have offset : q * PGSIZE + (a - v * PGSIZE) / PGSIZE * PGSIZE = (q + j) * PGSIZE := by
      simp only [PGSIZE] at *
      omega
    rw [lookup_eq a (by simp only [ALLPAGES, PGSIZE] at *; omega), number, mapped all j (by omega), offset,
      or_flags _ _ flags]
  · rw [lookup_eq a word, lookup_eq a word]
    refine kept _ (by simp only [ALLPAGES, PGSIZE] at *; omega) ?_
    simp only [PGSIZE] at *
    omega

end Mappages

section Kernel

variable {img : Image} {st : Phys} {g : Nat} {A : Space}

theorem Inv.proper {role : Nat → Role} (inv : Inv img st g A role) : Proper st g := by
  have owned := inv.owned
  refine ⟨fun d e t dIn eIn atD atE => ?_, fun d t dIn atD => ⟨?_, fun free => ?_⟩, fun free => ?_, owned.nodup, ?_⟩
  · rw [inv.rep.pde d dIn] at atD
    rw [inv.rep.pde e eIn] at atE
    have same := (owned.table d t atD).symm.trans (owned.table e t atE)
    simpa using same
  · rintro rfl
    rw [inv.rep.pde d dIn] at atD
    simpa [owned.dir] using owned.table d t atD
  · rw [inv.rep.pde d dIn] at atD
    simpa [(owned.free t).mp free] using owned.table d t atD
  · simpa [owned.dir] using (owned.free g).mp free
  · intro p free
    have below := (owned.allocatable p (by simp [(owned.free p).mp free])).lt.2
    simp only [ALLPAGES, PGSIZE]
    omega

theorem Rep.lookup (rep : Rep st.mem g A) (v : Nat) (below : v < ALLPAGES) (there : present (A.entry v) = true) :
    lookup st g (v * PGSIZE) = some (A.entry v) := by
  rw [lookup_eq _ (by simp only [ALLPAGES, PGSIZE] at *; omega), Nat.mul_div_cancel v (by decide), lookupPage,
    rep.pde _ (dirIndex_lt below)]
  cases table : A.table (v / NPTENTRIES) with
  | none => simp [rep.absent v table, absent_zero] at there
  | some t => simp [rep.pte v t table, there]

/-- The four lines of `kmap` are mapped as listed, or memory ran out: there is no `remap`. -/
theorem setupkvm_lookup (sound : st.Sound img) :
    ∃ r st', setupkvm img st = .ok (r, st') ∧ ∀ d, r = some d → Proper st' d ∧
      ∀ k ∈ kmap img, ∀ v, k.Covers v → lookup st' d (v * PGSIZE) = some (k.pteFor v) := by
  rcases setupkvm_spec img st sound with ⟨st', failed, -⟩ | ⟨g, st', -, -, made, -⟩
  · exact ⟨none, st', failed, by simp⟩
  · obtain ⟨A, role, inv, fresh⟩ := setupkvm_fresh sound made
    refine ⟨some g, st', made, fun d same => ?_⟩
    cases same
    refine ⟨inv.proper, fun k member v here => ?_⟩
    obtain ⟨u, n, lie⟩ := kmap_lies img k member
    obtain ⟨low, high⟩ := (lie.covers_iff v).mp here
    have value := (fresh.kernel v (le_trans lie.1 low)).line k member here
    rw [inv.rep.lookup v (lt_of_lt_of_le high lie.2.2.1) (by rw [value]; exact present_pteFor lie), value]

end Kernel

/-- Page tables as a map: what `mappages` adds to any directory, what it keeps when it fails half way, that
its loop ends also at the top of the address space, and the kernel's four ranges. -/
theorem mappages_is_map :
    (∀ (st : Phys) (g va size pa perm : Nat), Proper st g → va % PGSIZE = 0 → pa % PGSIZE = 0 → perm < PGSIZE →
      0 < size → va + size ≤ 2 ^ 32 → pa + size ≤ 2 ^ 32 →
      (∀ a, va ≤ a → a < va + size → lookup st g a = none) →
      ∃ done st', mappages st g va size pa perm = .ok (done, st') ∧
        mapFor g perm ((va + size - 1) / PGSIZE * PGSIZE) ALLPAGES va pa st = some (.ok (done, st')) ∧ Proper st' g ∧
        (done = true → ∀ a, va ≤ a → a / PGSIZE ≤ (va + size - 1) / PGSIZE →
          lookup st' g a = some (pa + (a - va) / PGSIZE * PGSIZE ||| perm ||| PTE_P)) ∧
        ∀ a < 2 ^ 32, a < va ∨ (va + size - 1) / PGSIZE < a / PGSIZE → lookup st' g a = lookup st g a) ∧
    ∀ (img : Image) (st : Phys), st.Sound img → ∃ r st', setupkvm img st = .ok (r, st') ∧
      ∀ d, r = some d → Proper st' d ∧ ∀ k ∈ kmap img, ∀ v, k.Covers v → lookup st' d (v * PGSIZE) = some (k.pteFor v) :=
  ⟨fun _ _ va size pa perm proper va_ pa_ flags some_ range frames absent =>
    proper.mappages va size pa perm va_ pa_ flags some_ range frames absent, fun _ _ sound => setupkvm_lookup sound⟩

-- Two pages of an empty directory; the first free page becomes their table.
theorem mappages_is_map_two : ∃ st', mappages (bareDirectory [0x401]) 0x400 0x3000 0x2000 0x5000 PTE_W = .ok (true, st') ∧
    Proper st' 0x400 ∧ lookup st' 0x400 0x4000 = some (0x6000 ||| PTE_W ||| PTE_P) ∧ lookup st' 0x400 0x5000 = none := by
  have noTable (d : Nat) : tableAt (bareDirectory [0x401]).mem 0x400 d = none := by
    simp [tableAt, bareDirectory, entry_zero, absent_zero]
  have proper : Proper (bareDirectory [0x401]) 0x400 := by
    refine ⟨?_, ?_, by decide, by decide, by decide⟩
    · intro d e t _ _ at_ _
      simp [noTable] at at_
    · intro d t _ at_
      simp [noTable] at at_
  have absent (a : Nat) (word : a < 2 ^ 32) : lookup (bareDirectory [0x401]) 0x400 a = none := by
    rw [lookup_eq a word, lookupPage, noTable, Option.bind_none]
  obtain ⟨done, st', ran, -, proper', mapped, kept⟩ := mappages_is_map.1 (bareDirectory [0x401]) 0x400 0x3000 0x2000 0x5000
    PTE_W proper rfl rfl (by decide) (by decide) (by decide) (by decide) fun a _ high => absent a (by omega)
  have all : (mappages (bareDirectory [0x401]) 0x400 0x3000 0x2000 0x5000 PTE_W).toOption.map (·.1) = some true := by
    decide +kernel
  rw [ran] at all
  obtain rfl : done = true := Option.some.inj all
  refine ⟨st', ran, proper', mapped rfl 0x4000 (by decide) (by decide), ?_⟩
  rw [kept 0x5000 (by decide) (by decide), absent 0x5000 (by decide)]

end Xv6.Vm
