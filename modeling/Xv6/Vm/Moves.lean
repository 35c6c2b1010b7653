import Xv6.Vm.Owner

set_option autoImplicit false

/-!
# What the functions do to the uses

Each function of `vm.c` works for one directory: it moves pages between the free list and that
directory and leaves every other page as it is. The pages it loses are collected in a list.
-/

namespace Xv6.Vm

/-- Free pages and pages of `g` stay that, except for the pages of `lost`. -/
structure Moves (g : Nat) (lost : List Nat) (use use' : Nat → Use) : Prop where
  kept : ∀ p, ¬ (use p = .free ∨ (use p).Of g) → use' p = use p
  moved : ∀ p, use p = .free ∨ (use p).Of g → p ∉ lost → use' p = .free ∨ (use' p).Of g
  gone : ∀ p ∈ lost, (use p = .free ∨ (use p).Of g) ∧ use' p = .lost

namespace Moves

variable {g : Nat} {lost lost' : List Nat} {use use' use'' : Nat → Use}

theorem refl (g : Nat) (use : Nat → Use) : Moves g [] use use :=
  ⟨fun _ _ => rfl, fun _ mine _ => mine, by simp⟩

theorem not_of_lost : ¬ (Use.lost = .free ∨ Use.lost.Of g) := by simp [Use.Of]

theorem trans (first : Moves g lost use use') (second : Moves g lost' use' use'') :
    Moves g (lost ++ lost') use use'' := by
  constructor
  · intro p other
    have same := first.kept p other
    rw [← same] at other ⊢
    exact second.kept p other
  · intro p mine notLost
    rw [List.mem_append, not_or] at notLost
    exact second.moved p (first.moved p mine notLost.1) notLost.2
  · intro p member
    rcases List.mem_append.mp member with early | late
    · obtain ⟨mine, gone⟩ := first.gone p early
      refine ⟨mine, ?_⟩
      rw [second.kept p (by rw [gone]; exact not_of_lost), gone]
    · obtain ⟨mine, gone⟩ := second.gone p late
      refine ⟨?_, gone⟩
      by_contra other
      rw [first.kept p other] at mine
      exact other mine

theorem update {p : Nat} {u : Use} (was : use p = .free ∨ (use p).Of g) (now : u = .free ∨ u.Of g) :
    Moves g [] use (Function.update use p u) := by
  constructor
  · intro q other
    have apart : q ≠ p := by
      rintro rfl
      exact other was
    rw [Function.update_of_ne apart]
  · intro q mine _
    by_cases same : q = p
    · rw [same, Function.update_self]
      exact now
    · rw [Function.update_of_ne same]
      exact mine
  · simp

theorem lose {p : Nat} (was : use p = .free ∨ (use p).Of g) : Moves g [p] use (Function.update use p .lost) := by
  constructor
  · intro q other
    have apart : q ≠ p := by
      rintro rfl
      exact other was
    rw [Function.update_of_ne apart]
  · intro q mine notLost
    rw [Function.update_of_ne (by simpa using notLost)]
    exact mine
  · intro q member
    rw [List.mem_singleton.mp member, Function.update_self]
    exact ⟨was, rfl⟩

theorem through {p : Nat} {u u' : Use} (moves : Moves g lost (Function.update use p u) use')
    (was : use p = .free ∨ (use p).Of g) (inHand : ¬ (u = .free ∨ u.Of g)) (now : u'.Of g) :
    Moves g lost use (Function.update use' p u') := by
  have elsewhere {q : Nat} (apart : q ≠ p) : Function.update use p u q = use q := Function.update_of_ne apart _ _
  constructor
  · intro q other
    have apart : q ≠ p := by
      rintro rfl
      exact other was
    rw [Function.update_of_ne apart, moves.kept q (by rw [elsewhere apart]; exact other), elsewhere apart]
  · intro q mine notLost
    by_cases same : q = p
    · rw [same, Function.update_self]
      exact Or.inr now
    · rw [Function.update_of_ne same]
      exact moves.moved q (by rw [elsewhere same]; exact mine) notLost
  · intro q member
    obtain ⟨mine, gone⟩ := moves.gone q member
    have apart : q ≠ p := by
      rintro rfl
      rw [Function.update_self] at mine
      exact inHand mine
    rw [elsewhere apart] at mine
    rw [Function.update_of_ne apart]
    exact ⟨mine, gone⟩

end Moves

/-- Pages of `g` become free, and nothing else happens. -/
def Frees (g : Nat) (use use' : Nat → Use) : Prop := ∀ p, use' p = use p ∨ ((use p).Of g ∧ use' p = .free)

theorem Frees.trans {g : Nat} {use use' use'' : Nat → Use} (first : Frees g use use') (second : Frees g use' use'') :
    Frees g use use'' := by
  intro p
  rcases second p with same | ⟨mine, free⟩
  · rw [same]
    exact first p
  · rcases first p with same | ⟨-, free'⟩
    · exact Or.inr ⟨same ▸ mine, free⟩
    · rw [free'] at mine
      exact mine.elim

theorem Frees.moves {g : Nat} {use use' : Nat → Use} (frees : Frees g use use') : Moves g [] use use' := by
  constructor
  · intro p other
    rcases frees p with same | ⟨mine, -⟩
    · exact same
    · exact (other (Or.inr mine)).elim
  · intro p mine _
    rcases frees p with same | ⟨-, free⟩
    · exact same ▸ mine
    · exact Or.inl free
  · simp

variable {img : Image} {st : Phys} {space : Nat → Option Space} {use : Nat → Use} {g : Nat} {A : Space}

theorem walk_owns (owns : Owns img st space use) (live : space g = some A) (v : Nat) (below : v < ALLPAGES) :
    (A.table (v / NPTENTRIES) = none ∧ st.freelist = [] ∧ walkpgdir st g (v * PGSIZE) true = (none, st)) ∨
      ∃ t st' A' use', walkpgdir st g (v * PGSIZE) true = (some (t, v % NPTENTRIES), st') ∧
        Owns img st' (Function.update space g (some A')) use' ∧ A'.table (v / NPTENTRIES) = some t ∧
        A'.entry = A.entry ∧ Provided st A (v / NPTENTRIES) st' A' ∧ Moves g [] use use' := by
  have address := pageAddr_lt below
  have slot : PTX (v * PGSIZE) = v % NPTENTRIES := by rw [PTX_eq, pageAddr_div]
  have rep := owns.rep g A live
  cases there : A.table (v / NPTENTRIES) with
  | some t =>
    right
    refine ⟨t, st, A, use, ?_, ?_, there, rfl, Or.inl ⟨by simp [there], rfl, rfl⟩, Moves.refl g use⟩
    · rw [rep.walk_found _ address (by rw [pageAddr_div]; exact there), slot]
    · rw [← live, Function.update_eq_self]
      exact owns
  | none =>
    obtain ⟨dry, grown⟩ := rep.walk_alloc _ address (by rw [pageAddr_div]; exact there)
    cases first : st.freelist with
    | nil => exact Or.inl ⟨rfl, rfl, dry first⟩
    | cons t rest =>
      right
      have wasFree : use t = .free := owns.use_free (first ▸ List.mem_cons_self)
      have taken := owns.take rest first .kernel (Or.inl rfl)
      have held : (Function.update use t .kernel t).Held := Or.inl (Function.update_self _ _ _)
      have cleared := taken.setHeldPage held (fun _ => 0)
      have inside : v / NPTENTRIES < NPDENTRIES := by
        simp only [NPTENTRIES, NPDENTRIES, ALLPAGES, PGSIZE] at below ⊢
        omega
      have made := cleared.makeTable live (v / NPTENTRIES) t inside there held (by simp [Phys.setPage])
      rw [Function.update_idem] at made
      refine ⟨t, _, _, _, ?_, made, Function.update_self _ _ _, rfl, Or.inr ⟨there, t, first, rfl⟩,
        Moves.update (Or.inl wasFree) (Or.inr rfl)⟩
      rw [grown t rest first, slot, pageAddr_div]

/-- What a function that works for directory `g` leaves behind. -/
def Works (img : Image) (space : Nat → Option Space) (use : Nat → Use) (g : Nat) (lost : List Nat) (st' : Phys)
    (A' : Space) : Prop :=
  ∃ use', Owns img st' (Function.update space g (some A')) use' ∧ Moves g lost use use'

theorem Works.start (owns : Owns img st space use) (live : space g = some A) : Works img space use g [] st A := by
  refine ⟨use, ?_, Moves.refl g use⟩
  rw [← live, Function.update_eq_self]
  exact owns

theorem Works.trans {use' : Nat → Use} {lost lost' : List Nat} {A' A'' : Space} {st'' : Phys}
    (moves : Moves g lost use use')
    (later : Works img (Function.update space g (some A')) use' g lost' st'' A'') :
    Works img space use g (lost ++ lost') st'' A'' := by
  obtain ⟨use'', owns, moved⟩ := later
  rw [Function.update_idem] at owns
  exact ⟨use'', owns, moves.trans moved⟩

theorem mapLoop_works (perm count v pa : Nat) {b : Bool} {st' : Phys} (owns : Owns img st space use)
    (live : space g = some A) (kernel : USERPAGES ≤ v) (range : v + count ≤ ALLPAGES)
    (small : perm ||| PTE_P < PGSIZE) (aligned : pa % PGSIZE = 0) (word : pa < 2 ^ 32)
    (ok : mapLoop g perm count (v * PGSIZE % 2 ^ 32) pa st = .ok (b, st')) :
    ∃ A', Works img space use g [] st' A' ∧ ∀ w < USERPAGES, A'.entry w = A.entry w := by
  induction count generalizing v pa st space use A with
  | zero =>
    cases ok
    exact ⟨A, Works.start owns live, fun _ _ => rfl⟩
  | succ count ih =>
    have below : v < ALLPAGES := by omega
    have address := pageAddr_mod below
    have entryWord : pa + (perm ||| PTE_P) < 2 ^ 32 := by
      simp only [PGSIZE] at aligned small
      omega
    rw [address, mapLoop] at ok
    rcases walk_owns owns live v below with ⟨-, -, walked⟩ | ⟨t, st₁, A₁, use₁, walked, owns₁, at_, entries, -, moves⟩
    · rw [walked] at ok
      cases ok
      exact ⟨A, Works.start owns live, fun _ _ => rfl⟩
    · rw [walked] at ok
      dsimp only at ok
      split at ok
      next => cases ok
      next =>
        have stored := owns₁.setEntry (Function.update_self _ _ _) v t _ at_ entryWord fun user => by omega
        rw [Function.update_idem] at stored
        have next : (v * PGSIZE + PGSIZE) % 2 ^ 32 = (v + 1) * PGSIZE % 2 ^ 32 := by ring_nf
        rw [next] at ok
        obtain ⟨A', works, users⟩ := ih (v + 1) ((pa + PGSIZE) % 2 ^ 32) stored (Function.update_self _ _ _) (by omega)
          (by omega) (by simp only [PGSIZE] at aligned ⊢; omega) (Nat.mod_lt _ (by decide)) ok
        refine ⟨A', Works.trans moves works, fun w user => ?_⟩
        rw [users w user]
        simp only [Function.update_of_ne (show w ≠ v by omega), entries]

/-- A line of `kmap`: so many whole pages of the kernel part. -/
def Kmap.Lies (k : Kmap) (v n : Nat) : Prop :=
  USERPAGES ≤ v ∧ 0 < n ∧ v + n ≤ ALLPAGES ∧ k.virt = v * PGSIZE ∧
    (k.physEnd + 2 ^ 32 - k.physStart) % 2 ^ 32 = n * PGSIZE ∧ k.physStart % PGSIZE = 0 ∧ k.physStart < 2 ^ 32 ∧
    k.perm ||| PTE_P < PGSIZE

theorem kmap_lies (img : Image) (k : Kmap) (member : k ∈ kmap img) : ∃ v n, k.Lies v n := by
  have afterText := img.afterText
  have belowTop := img.belowTop
  have aligned := img.aligned
  simp only [KERNLINK, KERNBASE, EXTMEM, PHYSTOP, PGSIZE] at afterText belowTop aligned
  simp only [kmap, List.mem_cons, List.not_mem_nil, or_false] at member
  rcases member with rfl | rfl | rfl | rfl
  · exact ⟨USERPAGES, 256, by unfold Kmap.Lies; decide⟩
  · refine ⟨0x80100, img.data / PGSIZE - 0x80100, ?_⟩
    refine ⟨by norm_num, ?_, ?_, by norm_num, ?_, by norm_num, by norm_num, show 0 ||| PTE_P < PGSIZE by decide⟩ <;>
      simp only [ALLPAGES, KERNBASE, EXTMEM, PGSIZE] <;> omega
  · refine ⟨img.data / PGSIZE, 0x8E000 - img.data / PGSIZE, ?_⟩
    refine ⟨?_, ?_, ?_, ?_, ?_, ?_, ?_, show PTE_W ||| PTE_P < PGSIZE by decide⟩ <;>
      simp only [USERPAGES, ALLPAGES, KERNBASE, PHYSTOP, PGSIZE] <;> omega
  · exact ⟨1016 * NPTENTRIES, 0x2000, by unfold Kmap.Lies; decide⟩

theorem mapKernel_works (lines : List Kmap) (lies : ∀ k ∈ lines, ∃ v n, k.Lies v n) {b : Bool} {st' : Phys}
    (owns : Owns img st space use) (live : space g = some A) (ok : mapKernel g lines st = .ok (b, st')) :
    ∃ A', Works img space use g [] st' A' ∧ ∀ w < USERPAGES, A'.entry w = A.entry w := by
  induction lines generalizing st space use A with
  | nil =>
    cases ok
    exact ⟨A, Works.start owns live, fun _ _ => rfl⟩
  | cons k rest ih =>
    obtain ⟨v, n, kernel, some_, below, virt, size, aligned, word, small⟩ := lies k List.mem_cons_self
    rw [mapKernel, virt, size, mappages_pages st g k.perm v n k.physStart some_ below] at ok
    obtain ⟨⟨mapped, st₁⟩, line, ok⟩ := ok_of_bind ok
    obtain ⟨A₁, ⟨use₁, owns₁, moves⟩, users⟩ := mapLoop_works k.perm n v k.physStart owns live kernel below small
      aligned word line
    cases mapped with
    | false =>
      cases ok
      exact ⟨A₁, ⟨use₁, owns₁, moves⟩, users⟩
    | true =>
      obtain ⟨A', works, users'⟩ := ih (fun k member => lies k (List.mem_cons_of_mem _ member)) owns₁
        (Function.update_self _ _ _) ok
      exact ⟨A', Works.trans moves works, fun w user => by rw [users' w user, users w user]⟩

-- Either nothing was free, or a directory has been begun. On failure nobody frees it.
theorem setupkvm_works {r : Option Nat} {st' : Phys} (owns : Owns img st space use)
    (ok : setupkvm img st = .ok (r, st')) :
    (r = none ∧ st' = st ∧ st.freelist = []) ∨
      ∃ g A', g ∈ st.freelist ∧ space g = none ∧ (r = some g ∨ r = none) ∧ Works img space use g [] st' A' ∧
        ∀ w < USERPAGES, A'.entry w = 0 := by
  rw [setupkvm, kalloc] at ok
  cases first : st.freelist with
  | nil =>
    rw [first] at ok
    cases ok
    exact Or.inl ⟨rfl, rfl, rfl⟩
  | cons g rest =>
    right
    have wasFree : use g = .free := owns.use_free (first ▸ List.mem_cons_self)
    have unused : space g = none := by
      by_contra live
      have asDir := owns.refers g (.dir g) ⟨rfl, live⟩
      simp [wasFree] at asDir
    have taken := owns.take rest first .kernel (Or.inl rfl)
    have held : (Function.update use g .kernel g).Held := Or.inl (Function.update_self _ _ _)
    have made := (taken.setHeldPage held (fun _ => 0)).makeDir held (by simp [Phys.setPage])
    rw [Function.update_idem] at made
    rw [first] at ok
    dsimp only at ok
    obtain ⟨⟨mapped, st₁⟩, line, ok⟩ := ok_of_bind ok
    obtain ⟨A', works, users⟩ := mapKernel_works (kmap img) (kmap_lies img) made (Function.update_self _ _ _) line
    cases ok
    refine ⟨g, A', List.mem_cons_self, unused, ?_, ?_, fun w user => by rw [users w user]⟩
    · cases mapped <;> simp
    · have begun : Moves g [] use (Function.update use g (.dir g)) := Moves.update (Or.inl wasFree) (Or.inr rfl)
      exact Works.trans begun works

theorem unmap_works (owns : Owns img st space use) (live : space g = some A) (v t : Nat) (user : v < USERPAGES)
    (at_ : A.table (v / NPTENTRIES) = some t) (there : present (A.entry v) = true) :
    ∃ use', Owns img (st.unmap (pteAddr (A.entry v)) t (v % NPTENTRIES))
        (Function.update space g (some { A with entry := Function.update A.entry v 0 })) use' ∧
      Frees g use use' := by
  have mine := owns.use_user live user there
  have apart : t ≠ pteAddr (A.entry v) := by
    intro clash
    have asTable := owns.use_table live at_
    simp [clash, mine] at asTable
  have unmapped := owns.unmapUser live v t at_ user there
  have held : (Function.update use (pteAddr (A.entry v)) .kernel (pteAddr (A.entry v))).Held :=
    Or.inl (Function.update_self _ _ _)
  have freed := (unmapped.setHeldPage held (fun _ => 1)).give held
  rw [Function.update_idem] at freed
  refine ⟨Function.update use (pteAddr (A.entry v)) .free, ?_, ?_⟩
  rotate_left
  · intro p
    by_cases equal : p = pteAddr (A.entry v)
    · right
      rw [equal, Function.update_self, mine]
      exact ⟨rfl, rfl⟩
    · left
      rw [Function.update_of_ne equal]
  -- The source frees the page first and clears the entry then.
  have same : ((st.setPage (pteAddr (A.entry v)) (fun _ => 1)).setEntry t (v % NPTENTRIES) 0).mem =
      ((st.setEntry t (v % NPTENTRIES) 0).setPage (pteAddr (A.entry v)) (fun _ => 1)).mem := by
    simp only [Phys.setEntry, Phys.setPage, Function.update_of_ne apart]
    exact Function.update_comm (Ne.symm apart) _ _ _
  exact { freed with rep := same ▸ freed.rep }

theorem deallocuvm_frees (oldsz newsz : Nat) (below : oldsz ≤ KERNBASE) (owns : Owns img st space use)
    (live : space g = some A) :
    ∃ st' use', deallocuvm img st g oldsz newsz = .ok st' ∧
      Owns img st' (Function.update space g (some (A.erase (clearedPages A oldsz newsz)))) use' ∧ Frees g use use' := by
  let P (l : List Nat) (st : Phys) : Prop :=
    ∃ use', Owns img st (Function.update space g (some (A.erase l))) use' ∧ Frees g use use'
  have rep (l : List Nat) (st : Phys) (held : P l st) : Rep st.mem g (A.erase l) :=
    held.elim fun _ both => both.1.rep g _ (Function.update_self _ _ _)
  have unmap (l : List Nat) (st : Phys) (v t : Nat) (held : P l st) (others : v ∉ l) (user : v < USERPAGES)
      (at_ : A.table (v / NPTENTRIES) = some t) (there : present (A.entry v) = true)
      (_ : img.Allocatable (pteAddr (A.entry v))) : P (l ++ [v]) (st.unmap (pteAddr (A.entry v)) t (v % NPTENTRIES)) := by
    obtain ⟨use₁, owns₁, frees₁⟩ := held
    obtain ⟨use₂, owns₂, frees₂⟩ := unmap_works owns₁ (Function.update_self _ _ _) v t user at_
      (by rwa [A.erase_entry others])
    rw [A.erase_entry others, A.erase_snoc, Function.update_idem] at owns₂
    exact ⟨use₂, owns₂, frees₁.trans frees₂⟩
  have start : P [] st := by
    refine ⟨use, ?_, fun _ => Or.inl rfl⟩
    rwa [A.erase_nil, ← live, Function.update_eq_self]
  rcases deallocuvm_rule P oldsz newsz below rep unmap start with ⟨st', ok, use', owns', frees⟩ | ⟨-, v, member, refused⟩
  · exact ⟨st', use', ok, owns', frees⟩
  · obtain ⟨user, there⟩ := clearedPages_user below member
    exact absurd (owns.allocatable _ (by simp [owns.use_user live user there])) refused

theorem deallocuvm_works (oldsz newsz : Nat) (below : oldsz ≤ KERNBASE) (owns : Owns img st space use)
    (live : space g = some A) :
    ∃ st' A', deallocuvm img st g oldsz newsz = .ok st' ∧ Works img space use g [] st' A' ∧
      A'.table = A.table ∧ ∀ w, A'.entry w = A.entry w ∨ A'.entry w = 0 := by
  obtain ⟨st', use', ok, owns', frees⟩ := deallocuvm_frees oldsz newsz below owns live
  refine ⟨st', _, ok, ⟨use', owns', frees.moves⟩, rfl, fun w => ?_⟩
  by_cases gone : w ∈ clearedPages A oldsz newsz
  · exact Or.inr (if_pos gone)
  · exact Or.inl (if_neg gone)

-- The call of `freevm` leaves no user page. It starts at the first page, so it skips none.
theorem emptied_works (owns : Owns img st space use) (live : space g = some A) :
    ∃ st' A' use', deallocuvm img st g KERNBASE 0 = .ok st' ∧
      Owns img st' (Function.update space g (some A')) use' ∧ Frees g use use' ∧
      ∀ w < USERPAGES, present (A'.entry w) = false := by
  obtain ⟨st', use', ok, owns', frees⟩ := deallocuvm_frees KERNBASE 0 (Nat.le_refl _) owns live
  refine ⟨st', _, use', ok, owns', frees, fun w user => ?_⟩
  have inside : w * PGSIZE < KERNBASE := by
    simp only [USERPAGES, KERNBASE, PGSIZE] at user ⊢
    omega
  have member : w ∈ clearedPages A KERNBASE 0 ↔ _ := mem_found (owns.rep g A live).absent KERNBASE _ _ w (by decide)
  by_cases there : present (A.entry w) = true
  · have reached : w ∈ clearedPages A KERNBASE 0 :=
      member.mpr ⟨Nat.zero_le w, inside, there, fun skipped => absurd skipped.2.1 (Nat.not_lt_zero _)⟩
    rw [show (A.erase (clearedPages A KERNBASE 0)).entry w = 0 from if_pos reached, absent_zero]
  · rw [A.erase_entry fun reached => there (member.mp reached).2.2.1]
    simpa using there

-- The tables of a directory that is given up. The directory itself stays readable until the end.
theorem freeTables_works (list : List Nat) (distinct : list.Nodup) (table : Nat → Option Nat)
    (owns : Owns img st space use) (dirHeld : (use g).Held)
    (pde : ∀ i ∈ list, tableAt st.mem g i = table i)
    (held : ∀ i ∈ list, ∀ t, table i = some t → (use t).Held ∧ t ≠ g)
    (once : ∀ i j t, table i = some t → table j = some t → i = j) :
    ∃ st' use', freeTables img g list st = .ok st' ∧ Owns img st' space use' ∧
      (∀ p, (∃ i ∈ list, table i = some p) → use' p = .free) ∧
      (∀ p, (¬ ∃ i ∈ list, table i = some p) → use' p = use p) := by
  induction list generalizing st use with
  | nil => exact ⟨st, use, rfl, owns, by simp, fun _ _ => rfl⟩
  | cons i rest ih =>
    obtain ⟨fresh, restDistinct⟩ := List.nodup_cons.mp distinct
    have here := pde i List.mem_cons_self
    rw [freeTables]
    cases at_ : table i with
    | none =>
      rw [tableAt_none (here.trans at_)]
      obtain ⟨st', use', ok, owns', freed, kept⟩ := ih restDistinct owns dirHeld
        (fun j member => pde j (List.mem_cons_of_mem i member))
        (fun j member => held j (List.mem_cons_of_mem i member))
      refine ⟨st', use', by simpa using ok, owns', ?_, ?_⟩
      · rintro p ⟨j, member, there⟩
        rcases List.mem_cons.mp member with rfl | later
        · rw [at_] at there
          cases there
        · exact freed p ⟨j, later, there⟩
      · rintro p none_
        refine kept p ?_
        rintro ⟨j, member, there⟩
        exact none_ ⟨j, List.mem_cons_of_mem i member, there⟩
    | some t =>
      obtain ⟨isThere, page⟩ := tableAt_some (here.trans at_)
      rw [isThere, page]
      obtain ⟨tHeld, apart⟩ := held i List.mem_cons_self t at_
      obtain ⟨st₁, freed₁, -, same, owns₁⟩ := owns.kfree_ok tHeld
      have other (j : Nat) (member : j ∈ rest) (u : Nat) (there : table j = some u) : u ≠ t := by
        rintro rfl
        exact fresh (once i j u at_ there ▸ member)
      obtain ⟨st', use', ok, owns', freed, kept⟩ := ih restDistinct owns₁
        (by rw [Function.update_of_ne (Ne.symm apart)]; exact dirHeld)
        (fun j member => by rw [tableAt, same g (Ne.symm apart)]; exact pde j (List.mem_cons_of_mem i member))
        (fun j member u there => by
          rw [Function.update_of_ne (other j member u there)]
          exact held j (List.mem_cons_of_mem i member) u there)
      refine ⟨st', use', by simpa [freed₁] using ok, owns', ?_, ?_⟩
      · intro p
        rintro ⟨j, member, there⟩
        rcases List.mem_cons.mp member with rfl | later
        · rw [at_, Option.some.injEq] at there
          have only : ¬ ∃ k ∈ rest, table k = some t := by
            rintro ⟨k, member', again⟩
            exact other k member' t again rfl
          rw [← there, kept t only, Function.update_self]
        · exact freed p ⟨j, later, there⟩
      · intro p none_
        have apart' : p ≠ t := by
          rintro rfl
          exact none_ ⟨i, List.mem_cons_self, at_⟩
        have later : ¬ ∃ j ∈ rest, table j = some p := by
          rintro ⟨j, member, there⟩
          exact none_ ⟨j, List.mem_cons_of_mem i member, there⟩
        rw [kept p later, Function.update_of_ne apart']

theorem freevm_works (owns : Owns img st space use) (live : space g = some A) :
    ∃ st' use', freevm img st g = .ok st' ∧ Owns img st' (Function.update space g none) use' ∧
      (∀ p, (use p).Of g → use' p = .free) ∧ (∀ p, ¬ (use p).Of g → use' p = use p) := by
  obtain ⟨st₁, A₁, use₁, ok₁, owns₁, frees, empty⟩ := emptied_works owns live
  have live₁ : Function.update space g (some A₁) g = some A₁ := Function.update_self _ _ _
  have asDir := owns₁.use_dir live₁
  have dropped := owns₁.drop g
  rw [Function.update_idem] at dropped
  have tableHeld (i t : Nat) (at_ : A₁.table i = some t) : ((use₁ t).drop g).Held ∧ t ≠ g := by
    have asTable := owns₁.use_table live₁ at_
    refine ⟨Or.inl (Use.drop_of (by rw [asTable]; rfl)), ?_⟩
    rintro rfl
    simp [asDir] at asTable
  have once (i j t : Nat) (first : A₁.table i = some t) (second : A₁.table j = some t) : i = j := by
    have left := owns₁.use_table live₁ first
    have right := owns₁.use_table live₁ second
    simp [left] at right
    exact right
  have dirHeld : ((use₁ g).drop g).Held := Or.inl (Use.drop_of (by rw [asDir]; rfl))
  obtain ⟨st₂, use₂, ok₂, owns₂, freed, kept⟩ := freeTables_works (List.range NPDENTRIES) List.nodup_range A₁.table
    dropped dirHeld
    (fun i member => (owns₁.rep g A₁ live₁).pde i (List.mem_range.mp member)) (fun i _ t at_ => tableHeld i t at_) once
  have dirStays : use₂ g = (use₁ g).drop g := kept g fun ⟨i, _, at_⟩ => (tableHeld i g at_).2 rfl
  obtain ⟨st₃, ok₃, -, -, owns₃⟩ := owns₂.kfree_ok (by rw [dirStays]; exact dirHeld)
  refine ⟨st₃, _, by rw [freevm, ok₁, ok_bind, ok₂, ok_bind, ok₃], owns₃, ?_, ?_⟩
  · intro p mine
    by_cases dirPage : p = g
    · rw [dirPage, Function.update_self]
    · rw [Function.update_of_ne dirPage]
      rcases frees p with same | ⟨-, free⟩
      · rcases owns₁.cases_of live₁ (same ▸ mine) with equal | ⟨d, at_⟩ | ⟨v, user, there, -⟩
        · exact absurd equal dirPage
        · exact freed p ⟨d, List.mem_range.mpr (owns₁.inDir g A₁ d p live₁ at_), at_⟩
        · rw [empty v user] at there
          cases there
      · -- A user page, freed by the first loop.
        rw [kept p, free]
        · rfl
        · rintro ⟨i, _, at_⟩
          have asTable := owns₁.use_table live₁ at_
          simp [free] at asTable
  · intro p other
    have apart : p ≠ g := by
      rintro rfl
      exact other (by rw [owns.use_dir live]; rfl)
    rw [Function.update_of_ne apart]
    have same : use₁ p = use p := (frees p).resolve_right fun mine => other mine.1
    rw [kept p, same, Use.drop_not_of other]
    rintro ⟨i, _, at_⟩
    have asTable := owns₁.use_table live₁ at_
    rw [same] at asTable
    exact other (by rw [asTable]; rfl)

theorem present_entry (mem perm : Nat) : present (mem * PGSIZE + (perm ||| PTE_P)) = true := by
  have odd : (perm ||| 1) % 2 = 1 := by simp [Nat.or_mod_two_eq_one]
  rw [present_iff]
  simp only [PGSIZE, PTE_P]
  omega

theorem pteAddr_entry (mem perm : Nat) (small : perm ||| PTE_P < PGSIZE) :
    pteAddr (mem * PGSIZE + (perm ||| PTE_P)) = mem := by
  simp only [pteAddr, PGSIZE] at small ⊢
  omega

theorem mapPage_works (owns : Owns img st space use) (live : space g = some A) (v : Nat) (user : v < USERPAGES)
    (mem : Nat) (rest : List Nat) (first : st.freelist = mem :: rest) (page : Page) (perm : Nat)
    (small : perm ||| PTE_P < PGSIZE) {b : Bool} {st' : Phys}
    (ok : mappages ({ st with freelist := rest }.setPage mem page) g (v * PGSIZE) PGSIZE (mem * PGSIZE) perm =
      .ok (b, st')) :
    (b = false ∧ A.table (v / NPTENTRIES) = none ∧ rest = [] ∧ st'.freelist = [] ∧
        Works img space use g [mem] st' A) ∨
      (b = true ∧ ∃ A', Works img space use g [] st' A' ∧
        A'.entry = Function.update A.entry v (mem * PGSIZE + (perm ||| PTE_P)) ∧
        Provided { st with freelist := rest } A (v / NPTENTRIES) st' A') := by
  have wasFree : use mem = .free := owns.use_free (first ▸ List.mem_cons_self)
  have frame := (owns.allocatable mem (by simp [wasFree])).lt
  have inHand : (Function.update use mem .kernel mem).Held := Or.inl (Function.update_self _ _ _)
  have taken := (owns.take rest first .kernel (Or.inl rfl)).setHeldPage inHand page
  have below := userPage_lt user
  have one := mappages_pages ({ st with freelist := rest }.setPage mem page) g perm v 1 (mem * PGSIZE) (by omega)
    (by omega)
  have address := pageAddr_mod below
  rw [Nat.one_mul, address] at one
  rw [one, mapLoop] at ok
  rcases walk_owns taken live v below with ⟨missing, empty, walked⟩ |
      ⟨t, st₁, A₁, use₁, walked, owns₁, at_, entries, provided, moves⟩
  · left
    rw [walked] at ok
    cases ok
    refine ⟨rfl, missing, empty, empty, _, ?_, Moves.lose (Or.inl wasFree)⟩
    have lost := taken.relabel inHand .lost (Or.inr rfl)
    rw [Function.update_idem] at lost
    rw [← live, Function.update_eq_self]
    exact lost
  · right
    rw [walked] at ok
    dsimp only at ok
    split at ok
    next => cases ok
    next absent =>
      cases ok
      have stays : use₁ mem = .kernel := by
        rw [moves.kept mem (by simp [Use.Of]), Function.update_self]
      have word : mem * PGSIZE + (perm ||| PTE_P) < 2 ^ 32 := by
        simp only [PGSIZE] at small ⊢
        omega
      have fresh : present (A₁.entry v) = false := by
        rw [(owns₁.rep g A₁ (Function.update_self _ _ _)).pte v t at_] at absent
        simpa using absent
      have addr := pteAddr_entry mem perm small
      have mapped := owns₁.mapUser (Function.update_self _ _ _) v t (mem * PGSIZE + (perm ||| PTE_P)) at_ word user
        fresh (present_entry mem perm) (by rw [addr, stays]; exact Or.inl rfl)
      rw [Function.update_idem, addr] at mapped
      refine ⟨rfl, _, ⟨_, mapped, moves.through (Or.inl wasFree) (by simp [Use.Of]) rfl⟩, by rw [entries], ?_⟩
      rcases provided with ⟨there, tables, free⟩ | ⟨missing, u, free, tables⟩
      · exact Or.inl ⟨there, tables, free⟩
      · exact Or.inr ⟨missing, u, free, tables⟩

theorem allocuvm_works (oldsz newsz : Nat) (owns : Owns img st space use) (live : space g = some A) {r : Grown}
    (ok : allocuvm img st g oldsz newsz = .ok r) :
    (r.sz = 0 ∨ r.sz = oldsz ∨ (r.sz = newsz ∧ newsz < KERNBASE)) ∧
      ∃ lost A', Works img space use g lost r.st A' := by
  have start : ∃ lost A', Works img space use g lost st A' := ⟨[], A, Works.start owns live⟩
  rcases allocuvm_rule (fun _ st => ∃ lost A', Works img space use g lost st A') (by
      rintro v st mem rest b st' user ⟨lost, A₁, use₁, owns₁, moves⟩ first mapped
      rcases mapPage_works owns₁ (Function.update_self _ _ _) v user mem rest first _ _ (by decide) mapped with
        ⟨-, -, -, -, works⟩ | ⟨-, A₂, works, -⟩
      · exact ⟨_, _, Works.trans moves works⟩
      · exact ⟨_, A₂, Works.trans moves works⟩) start ok with
    ⟨-, size, same⟩ | ⟨-, size, same⟩ | ⟨below, -, ⟨size, works⟩ | ⟨size, v, st₁, -, ⟨lost, A₁, use₁, owns₁, moves⟩, -, freed⟩⟩
  · exact ⟨Or.inl size, same ▸ start⟩
  · exact ⟨Or.inr (Or.inl size), same ▸ start⟩
  · exact ⟨Or.inr (Or.inr ⟨size, below⟩), works⟩
  · obtain ⟨st', A', freed', works, -⟩ := deallocuvm_works newsz oldsz (Nat.le_of_lt below) owns₁ (Function.update_self _ _ _)
    rw [freed] at freed'
    cases freed'
    exact ⟨Or.inl size, _, A', Works.trans moves works⟩

theorem inituvm_works (init : List UInt8) (owns : Owns img st space use) (live : space g = some A) {st' : Phys}
    (ok : inituvm st g init = .ok st') : ∃ lost A', Works img space use g lost st' A' := by
  rw [inituvm] at ok
  split at ok
  next => cases ok
  next =>
    cases first : st.freelist with
    | nil =>
      simp only [kalloc, first] at ok
      cases ok
    | cons mem rest =>
      simp only [kalloc, first] at ok
      obtain ⟨⟨b, st₁⟩, mapped, ok⟩ := ok_of_bind ok
      cases ok
      rw [show (0 : Nat) = 0 * PGSIZE by rfl] at mapped
      rcases mapPage_works owns live 0 (by decide) mem rest first _ _ (by decide) mapped with
        ⟨-, -, -, -, use₁, owns₁, moves⟩ | ⟨-, A₁, ⟨use₁, owns₁, moves⟩, entries, -⟩
      · have gone := (moves.gone mem (by simp)).2
        exact ⟨[mem], A, use₁, owns₁.setPage mem _ (by simp [gone]) (by simp [gone]), moves⟩
      · have asUser := owns₁.use_user (Function.update_self _ _ _) (show 0 < USERPAGES by decide)
          (by rw [entries, Function.update_self]; exact present_entry mem _)
        rw [entries, Function.update_self, pteAddr_entry mem _ (by decide)] at asUser
        exact ⟨[], A₁, use₁, owns₁.setPage mem _ (by simp [asUser]) (by simp [asUser]), moves⟩

theorem clearpteu_works (uva : Nat) (below : uva < 2 ^ 32) (owns : Owns img st space use) (live : space g = some A)
    {st' : Phys} (ok : clearpteu st g uva = .ok st') : ∃ A', Works img space use g [] st' A' := by
  rw [clearpteu, (owns.rep g A live).walk uva below] at ok
  cases there : A.table (uva / PGSIZE / NPTENTRIES) with
  | none =>
    rw [there] at ok
    cases ok
  | some t =>
    rw [there] at ok
    cases ok
    have value := (owns.rep g A live).pte (uva / PGSIZE) t there
    have word := entry_lt (st.mem t) (PTX uva)
    rw [← PTX_eq] at value
    have cleared := owns.setEntry live (uva / PGSIZE) t
      (if A.entry (uva / PGSIZE) / PTE_U % 2 = 1 then A.entry (uva / PGSIZE) - PTE_U else A.entry (uva / PGSIZE)) there
      (by rw [value] at word; split <;> omega)
      (fun _ => by
        simp only [present, pteAddr, PTE_U, PGSIZE, decide_eq_decide]
        split <;> omega)
    rw [← value] at cleared
    exact ⟨_, use, cleared, Moves.refl g use⟩

theorem copyLoop_works (pgdir sz : Nat) (below : sz ≤ KERNBASE) (fuel a : Nat) (owns : Owns img st space use)
    (live : space g = some A) (aligned : a % PGSIZE = 0) {b : Bool} {st' : Phys}
    (ok : copyLoop pgdir g sz fuel a st = .ok (b, st')) : ∃ lost A', Works img space use g lost st' A' := by
  induction fuel generalizing a st space use A with
  | zero =>
    cases ok
    exact ⟨[], A, Works.start owns live⟩
  | succ fuel ih =>
    rw [copyLoop] at ok
    split at ok
    next inside =>
      split at ok
      next => cases ok
      next t k walked =>
        dsimp only at ok
        split at ok
        next =>
          cases first : st.freelist with
          | nil =>
            simp only [kalloc, first] at ok
            cases ok
            exact ⟨[], A, Works.start owns live⟩
          | cons mem rest =>
            have user : a / PGSIZE < USERPAGES := by
              simp only [KERNBASE, USERPAGES, PGSIZE] at below ⊢
              omega
            have address : a / PGSIZE * PGSIZE = a := by
              simp only [PGSIZE] at aligned ⊢
              omega
            have small : entry (st.mem t) k % PGSIZE ||| PTE_P < PGSIZE :=
              @Nat.or_lt_two_pow _ _ 12 (Nat.mod_lt _ (by decide)) (by decide)
            simp only [kalloc, first] at ok
            obtain ⟨⟨c, st₁⟩, mapped, ok⟩ := ok_of_bind ok
            rw [← address] at mapped
            rcases mapPage_works owns live _ user mem rest first _ _ small mapped with
              ⟨failed, -, -, -, works⟩ | ⟨done, A₁, ⟨use₁, owns₁, moves⟩, -⟩
            · rw [failed] at ok
              cases ok
              exact ⟨[mem], A, works⟩
            · rw [done] at ok
              obtain ⟨lost, A', works⟩ := ih (a + PGSIZE) owns₁ (Function.update_self _ _ _)
                (by simp only [PGSIZE] at aligned ⊢; omega) ok
              exact ⟨_, A', Works.trans moves works⟩
        next => cases ok
    next =>
      cases ok
      exact ⟨[], A, Works.start owns live⟩

end Xv6.Vm
