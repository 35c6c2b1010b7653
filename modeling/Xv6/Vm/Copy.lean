import Xv6.Vm.Extend

set_option autoImplicit false

/-!
# The image that `copyuvm` makes

The new directory is built from pages of the free list only. The directory that is copied, its tables and
its pages are not among them, so they stay as they are while it is read.
-/

namespace Xv6.Vm

-- The pages of a line of `kmap`, and the entry it asks for.
def Kmap.Covers (k : Kmap) (v : Nat) : Prop :=
  k.virt ≤ v * PGSIZE ∧ v * PGSIZE - k.virt < (k.physEnd + 2 ^ 32 - k.physStart) % 2 ^ 32

def Kmap.pteFor (k : Kmap) (v : Nat) : Nat := k.physStart + (v * PGSIZE - k.virt) + (k.perm ||| PTE_P)

/-- The entry of page `v` is what `kmap` asks for, and 0 where it asks for nothing. -/
structure Prescribed (img : Image) (v e : Nat) : Prop where
  line : ∀ k ∈ kmap img, k.Covers v → e = k.pteFor v
  gap : (∀ k ∈ kmap img, ¬ k.Covers v) → e = 0

variable {img : Image} {st : Phys} {g : Nat} {A : Space} {role : Nat → Role}

theorem Kmap.Lies.covers_iff {k : Kmap} {v n : Nat} (lies : k.Lies v n) (w : Nat) : k.Covers w ↔ v ≤ w ∧ w < v + n := by
  obtain ⟨-, -, -, virt, size, -⟩ := lies
  rw [Kmap.Covers, virt, size]
  simp only [PGSIZE]
  omega

theorem kmap_top (img : Image) (k : Kmap) (member : k ∈ kmap img) {v n : Nat} (lies : k.Lies v n) :
    k.physStart + n * PGSIZE ≤ 2 ^ 32 := by
  have afterText := img.afterText
  have belowTop := img.belowTop
  obtain ⟨-, -, -, -, size, -⟩ := lies
  rw [← size]
  simp only [KERNLINK, KERNBASE, EXTMEM, PHYSTOP] at afterText belowTop
  simp only [kmap, List.mem_cons, List.not_mem_nil, or_false] at member
  rcases member with rfl | rfl | rfl | rfl <;> simp only [EXTMEM, KERNBASE, PHYSTOP, DEVSPACE] <;> omega

theorem present_pteFor {k : Kmap} {v n w : Nat} (lies : k.Lies v n) : present (k.pteFor w) = true := by
  obtain ⟨-, -, -, virt, -, aligned, -⟩ := lies
  have odd : (k.perm ||| 1) % 2 = 1 := by simp [Nat.or_mod_two_eq_one]
  rw [present_iff, Kmap.pteFor, virt]
  simp only [PGSIZE, PTE_P] at aligned ⊢
  omega

theorem mapLoop_entries {st₀ st' : Phys} {A₀ : Space} (perm count v pa : Nat) (inv : Inv img st g A role)
    (above : Above st₀ g A₀ USERPAGES st A) (kernel : USERPAGES ≤ v) (range : v + count ≤ ALLPAGES)
    (small : perm ||| PTE_P < PGSIZE) (aligned : pa % PGSIZE = 0) (word : pa < 2 ^ 32)
    (top : pa + count * PGSIZE ≤ 2 ^ 32)
    (ok : mapLoop g perm count (v * PGSIZE % 2 ^ 32) pa st = .ok (true, st')) :
    ∃ A' role', Inv img st' g A' role' ∧ Above st₀ g A₀ USERPAGES st' A' ∧
      (∀ w, v ≤ w → w < v + count →
        present (A.entry w) = false ∧ A'.entry w = pa + (w - v) * PGSIZE + (perm ||| PTE_P)) ∧
      ∀ w, ¬ (v ≤ w ∧ w < v + count) → A'.entry w = A.entry w := by
  induction count generalizing v pa st A role with
  | zero =>
    cases ok
    exact ⟨A, role, inv, above, fun w low high => by omega, fun _ _ => rfl⟩
  | succ count ih =>
    have below : v < ALLPAGES := by omega
    have address := pageAddr_mod below
    have entryWord : pa + (perm ||| PTE_P) < 2 ^ 32 := by
      simp only [PGSIZE] at aligned small
      omega
    rw [address] at ok
    by_cases there : present (A.entry v) = true
    · rw [mapLoop_present inv.rep v pa perm count below there] at ok
      cases ok
    have fresh : present (A.entry v) = false := by simpa using there
    rcases mapLoop_step inv v pa perm count below fresh entryWord (fun user => absurd user (by omega)) with
      ⟨-, -, stopped⟩ | ⟨st₁, A₁, role₁, inv₁, entries, provided, kept, continues⟩
    · rw [stopped] at ok
      cases ok
    · have next : (v * PGSIZE + PGSIZE) % 2 ^ 32 = (v + 1) * PGSIZE % 2 ^ 32 := by ring_nf
      rw [continues, next] at ok
      have above₁ := above.page kernel entries provided kept
      obtain ⟨A', role', inv', above', mapped, others⟩ := ih (v + 1) ((pa + PGSIZE) % 2 ^ 32) inv₁ above₁ (by omega)
        (by omega) (by simp only [PGSIZE] at aligned ⊢; omega) (Nat.mod_lt _ (by decide))
        (by simp only [PGSIZE] at top aligned ⊢; omega) ok
      have here : A'.entry v = pa + (perm ||| PTE_P) := by
        rw [others v (by omega), entries, Function.update_self]
      refine ⟨A', role', inv', above', ?_, ?_⟩
      · intro w low high
        by_cases first : w = v
        · rw [first, here]
          exact ⟨fresh, by simp⟩
        · obtain ⟨absent, value⟩ := mapped w (by omega) (by omega)
          rw [entries, Function.update_of_ne first] at absent
          refine ⟨absent, ?_⟩
          rw [value]
          have steps : w - v = w - (v + 1) + 1 := by omega
          have more : 0 < count := by omega
          rw [steps]
          simp only [PGSIZE] at top aligned ⊢
          omega
      · intro w out
        rw [others w (by omega), entries, Function.update_of_ne (by omega)]

theorem mapKernel_entries {st₀ st' : Phys} {A₀ : Space} (lines : List Kmap)
    (lies : ∀ k ∈ lines, ∃ v n, k.Lies v n ∧ k.physStart + n * PGSIZE ≤ 2 ^ 32) (inv : Inv img st g A role)
    (above : Above st₀ g A₀ USERPAGES st A) (ok : mapKernel g lines st = .ok (true, st')) :
    ∃ A' role', Inv img st' g A' role' ∧ Above st₀ g A₀ USERPAGES st' A' ∧
      (∀ w, present (A.entry w) = true → A'.entry w = A.entry w) ∧
      (∀ w, ∀ k ∈ lines, k.Covers w → A'.entry w = k.pteFor w) ∧
      ∀ w, (∀ k ∈ lines, ¬ k.Covers w) → A'.entry w = A.entry w := by
  induction lines generalizing st A role with
  | nil =>
    cases ok
    exact ⟨A, role, inv, above, fun _ _ => rfl, by simp, fun _ _ => rfl⟩
  | cons k rest ih =>
    obtain ⟨v, n, lie, top⟩ := lies k List.mem_cons_self
    have covers := lie.covers_iff
    have mapped (w : Nat) : present (k.pteFor w) = true := present_pteFor lie
    obtain ⟨kernel, some_, below, virt, size, aligned, word, small⟩ := lie
    rw [mapKernel, virt, size, mappages_pages st g k.perm v n k.physStart some_ below] at ok
    obtain ⟨⟨done, st₁⟩, line, ok⟩ := ok_of_bind ok
    cases done with
    | false => cases ok
    | true =>
      obtain ⟨A₁, role₁, inv₁, above₁, made, others⟩ := mapLoop_entries k.perm n v k.physStart inv above kernel below
        small aligned word top line
      obtain ⟨A', role', inv', above', stays, later, gaps⟩ := ih
        (fun k member => lies k (List.mem_cons_of_mem _ member)) inv₁ above₁ ok
      have ours (w : Nat) (here : k.Covers w) : A₁.entry w = k.pteFor w := by
        obtain ⟨low, high⟩ := (covers w).mp here
        rw [(made w low high).2, Kmap.pteFor, virt, Nat.sub_mul]
      refine ⟨A', role', inv', above', ?_, ?_, ?_⟩
      · intro w there
        have out : ¬ (v ≤ w ∧ w < v + n) := by
          rintro ⟨low, high⟩
          rw [(made w low high).1] at there
          cases there
        have same := others w out
        rw [stays w (by rw [same]; exact there), same]
      · intro w l member here
        rcases List.mem_cons.mp member with rfl | inRest
        · rw [stays w (by rw [ours w here]; exact mapped w), ours w here]
        · exact later w l inRest here
      · intro w none_
        rw [gaps w fun l member => none_ l (List.mem_cons_of_mem _ member)]
        exact others w fun here => none_ k List.mem_cons_self ((covers w).mpr here)

/-- A new directory: the kernel part as `kmap` has it, no user part, made from free pages. -/
structure FreshDir (img : Image) (st : Phys) (d : Nat) (st' : Phys) (A : Space) : Prop where
  dir : d ∈ st.freelist
  user : ∀ v < USERPAGES, A.entry v = 0
  kernel : ∀ v, USERPAGES ≤ v → Prescribed img v (A.entry v)
  made : ∀ e t, A.table e = some t → t ∈ st.freelist
  left : ∀ p ∈ st'.freelist, p ∈ st.freelist
  kept : ∀ p, p ∉ st.freelist → st'.mem p = st.mem p

theorem setupkvm_fresh {d : Nat} {st' : Phys} (sound : st.Sound img) (ok : setupkvm img st = .ok (some d, st')) :
    ∃ A role, Inv img st' d A role ∧ FreshDir img st d st' A := by
  rw [setupkvm, kalloc] at ok
  cases first : st.freelist with
  | nil =>
    rw [first] at ok
    cases ok
  | cons g rest =>
    obtain ⟨role, part⟩ := emptyDir_part g rest first sound
    rw [first] at ok
    dsimp only at ok
    obtain ⟨⟨mapped, st₁⟩, line, ok⟩ := ok_of_bind ok
    cases mapped with
    | false => cases ok
    | true =>
      cases ok
      have lies : ∀ k ∈ kmap img, ∃ v n, k.Lies v n ∧ k.physStart + n * PGSIZE ≤ 2 ^ 32 := by
        intro k member
        obtain ⟨v, n, lie⟩ := kmap_lies img k member
        exact ⟨v, n, lie, kmap_top img k member lie⟩
      obtain ⟨A, role', inv, above, -, lines, gaps⟩ := mapKernel_entries (kmap img) lies part.inv
        (Above.start _ _ _ USERPAGES) line
      refine ⟨A, role', inv, ?_⟩
      have inRest {p : Nat} (member : p ∈ rest) : p ∈ st.freelist := first ▸ List.mem_cons_of_mem _ member
      constructor
      case dir => rw [first]; exact List.mem_cons_self
      case user => exact above.below
      case kernel => exact fun v _ => ⟨lines v, gaps v⟩
      case made =>
        intro e t at_
        rcases above.made e t at_ with old | new
        · cases old
        · exact inRest new
      case left => exact fun p member => inRest (above.left p member)
      case kept =>
        intro p notFree
        rw [first, List.mem_cons, not_or] at notFree
        rw [above.kept p notFree.1 (by simp) notFree.2]
        exact Function.update_of_ne notFree.1 _ _

theorem flags_or_present {e : Nat} (there : present e = true) : e % PGSIZE ||| PTE_P = e % PGSIZE := by
  rw [present_iff] at there
  have odd : e % PGSIZE % 2 = 1 := by
    simp only [PGSIZE]
    omega
  apply Nat.eq_of_testBit_eq
  intro i
  rw [Nat.testBit_or]
  cases i with
  | zero => simp [odd]
  | succ i => simp [Nat.testBit_succ, PTE_P]

theorem entry_parts {v p e : Nat} (value : A.entry v = p * PGSIZE + e % PGSIZE) (there : present e = true) :
    present (A.entry v) = true ∧ pteAddr (A.entry v) = p := by
  rw [present_iff] at there ⊢
  rw [value, pteAddr]
  simp only [PGSIZE]
  omega

/-- The first `v` pages are copies of those of the map `B`, and the rest is as `setupkvm` left it. -/
structure Copied (img : Image) (st₀ : Phys) (d : Nat) (B : Space) (v : Nat) (st : Phys) (A : Space) : Prop where
  dir : d ∈ st₀.freelist
  pages : ∀ w < v, present (B.entry w) = true ∧ ∃ p ∈ st₀.freelist, A.entry w = p * PGSIZE + B.entry w % PGSIZE ∧
    st.mem p = st₀.mem (pteAddr (B.entry w))
  rest : ∀ w < USERPAGES, v ≤ w → present (A.entry w) = false
  kernel : ∀ w, USERPAGES ≤ w → Prescribed img w (A.entry w)
  made : ∀ e t, A.table e = some t → t ∈ st₀.freelist
  left : ∀ p ∈ st.freelist, p ∈ st₀.freelist
  kept : ∀ p, p ∉ st₀.freelist → st.mem p = st₀.mem p

section Loop

variable {st₀ st' : Phys} {d v : Nat} {B : Space} {role₀ : Nat → Role}

theorem FreshDir.copied (fresh : FreshDir img st₀ d st A) (B : Space) : Copied img st₀ d B 0 st A where
  dir := fresh.dir
  pages := fun w low => absurd low (Nat.not_lt_zero w)
  rest := fun w user _ => by rw [fresh.user w user, absent_zero]
  kernel := fresh.kernel
  made := fresh.made
  left := fresh.left
  kept := fresh.kept

-- What is copied from is not in the free list, so it is still there.
theorem Copied.source (copied : Copied img st₀ d B v st A) (inv₀ : Inv img st₀ g B role₀) : Rep st.mem g B := by
  apply inv₀.rep.congr
  · apply copied.kept
    rw [inv₀.owned.free, inv₀.owned.dir]
    simp
  · intro e t at_
    apply copied.kept
    rw [inv₀.owned.free, inv₀.owned.table e t at_]
    simp

theorem Copied.page {A' : Space} {mem : Nat} {rest : List Nat} (copied : Copied img st₀ d B v st A)
    (inv₀ : Inv img st₀ g B role₀) (inv : Inv img st d A role) (user : v < USERPAGES)
    (there : present (B.entry v) = true) (first : st.freelist = mem :: rest)
    (entries : A'.entry = Function.update A.entry v (mem * PGSIZE + (B.entry v % PGSIZE ||| PTE_P)))
    (provided : Provided ({ st with freelist := rest }.setPage mem (st.mem (pteAddr (B.entry v)))) A (v / NPTENTRIES)
      st' A')
    (same : ∀ p, p ≠ d → (∀ e, A.table e ≠ some p) → p ∉ rest →
      st'.mem p = ({ st with freelist := rest }.setPage mem (st.mem (pteAddr (B.entry v)))).mem p) :
    Copied img st₀ d B (v + 1) st' A' := by
  have nodup := inv.owned.nodup
  rw [first] at nodup
  obtain ⟨notRest, -⟩ := List.nodup_cons.mp nodup
  have wasFree : role mem = .free := (inv.owned.free mem).mp (first ▸ List.mem_cons_self)
  have inRest {p : Nat} (member : p ∈ rest) : p ∈ st₀.freelist :=
    copied.left p (first ▸ List.mem_cons_of_mem mem member)
  have memFree : mem ∈ st₀.freelist := copied.left mem (first ▸ List.mem_cons_self)
  have elsewhere {p : Nat} (other : p ≠ mem) :
      ({ st with freelist := rest }.setPage mem (st.mem (pteAddr (B.entry v)))).mem p = st.mem p :=
    Function.update_of_ne other _ _
  rw [flags_or_present there] at entries
  constructor
  case dir => exact copied.dir
  case pages =>
    intro w low
    rw [entries]
    by_cases last : w = v
    · rw [last, Function.update_self]
      refine ⟨there, mem, memFree, rfl, ?_⟩
      rw [same mem (inv.owned.ne_dir (by rw [wasFree]; simp)) (inv.owned.ne_table (by rw [wasFree]; simp)) notRest]
      have source := (inv₀.user_apart user there).2.2
      rw [← copied.kept _ source]
      exact Function.update_self _ _ _
    · rw [Function.update_of_ne last]
      obtain ⟨thereW, p, free, value, contents⟩ := copied.pages w (by omega)
      obtain ⟨mapped, page⟩ := entry_parts value thereW
      obtain ⟨notDir, notTable, notFree⟩ := inv.user_apart (by omega) mapped
      rw [page] at notDir notTable notFree
      rw [first, List.mem_cons, not_or] at notFree
      exact ⟨thereW, p, free, value, by rw [same p notDir notTable notFree.2, elsewhere notFree.1, contents]⟩
  case rest =>
    intro w userW low
    rw [entries, Function.update_of_ne (by omega)]
    exact copied.rest w userW (by omega)
  case kernel =>
    intro w kernel
    rw [entries, Function.update_of_ne (by omega)]
    exact copied.kernel w kernel
  case made =>
    intro e t at_
    rcases provided with ⟨-, tables, -⟩ | ⟨-, u, taken, tables⟩
    · rw [tables] at at_
      exact copied.made e t at_
    · rw [tables] at at_
      by_cases here : e = v / NPTENTRIES
      · rw [here, Function.update_self, Option.some.injEq] at at_
        have free : rest = u :: st'.freelist := taken
        exact inRest (by rw [free, ← at_]; exact List.mem_cons_self)
      · rw [Function.update_of_ne here] at at_
        exact copied.made e t at_
  case left =>
    intro p member
    rcases provided with ⟨-, -, same⟩ | ⟨-, u, taken, -⟩
    · have free : st'.freelist = rest := same
      exact inRest (free ▸ member)
    · have free : rest = u :: st'.freelist := taken
      exact inRest (by rw [free]; exact List.mem_cons_of_mem u member)
  case kept =>
    intro p notFree
    have notDir : p ≠ d := by
      rintro rfl
      exact notFree copied.dir
    have notMem : p ≠ mem := by
      rintro rfl
      exact notFree memFree
    rw [same p notDir (fun e at_ => notFree (copied.made e p at_)) (fun member => notFree (inRest member)),
      elsewhere notMem]
    exact copied.kept p notFree

-- The first page of the kernel part is mapped, so a loop that gets there panics.
theorem Copied.kernel_present (copied : Copied img st₀ d B v st A) : present (A.entry USERPAGES) = true := by
  have member : (⟨KERNBASE, 0, EXTMEM, PTE_W⟩ : Kmap) ∈ kmap img := List.mem_cons_self
  obtain ⟨w, n, lies⟩ := kmap_lies img _ member
  rw [(copied.kernel USERPAGES (Nat.le_refl _)).line _ member (by unfold Kmap.Covers; decide)]
  exact present_pteFor lies

theorem copyLoop_copied (inv₀ : Inv img st₀ g B role₀) (sz fuel v : Nat) (copied : Copied img st₀ d B v st A)
    (inv : Inv img st d A role) (user : v ≤ USERPAGES) (inside : v ≤ pagesOf sz) (enough : pagesOf sz ≤ v + fuel)
    (ok : copyLoop g d sz fuel (v * PGSIZE) st = .ok (true, st')) :
    pagesOf sz ≤ USERPAGES ∧ ∃ A' role', Inv img st' d A' role' ∧ Copied img st₀ d B (pagesOf sz) st' A' := by
  induction fuel generalizing v st A role with
  | zero =>
    obtain rfl : v = pagesOf sz := by omega
    cases ok
    exact ⟨user, A, role, inv, copied⟩
  | succ fuel ih =>
    rw [copyLoop] at ok
    split at ok
    next more =>
      have below : v < ALLPAGES := Nat.lt_of_le_of_lt user (by decide)
      have address := pageAddr_lt below
      have source := copied.source inv₀
      rw [source.walk (v * PGSIZE) address, PTX_eq, pageAddr_div] at ok
      cases table : B.table (v / NPTENTRIES) with
      | none =>
        rw [table] at ok
        cases ok
      | some t =>
        simp only [table, Option.map_some, source.pte v t table] at ok
        split at ok
        next there =>
          cases first : st.freelist with
          | nil =>
            simp only [kalloc, first] at ok
            cases ok
          | cons mem rest =>
            simp only [kalloc, first] at ok
            by_cases last : v = USERPAGES
            · have inv' := userPage_inv inv v mem rest first (st.mem (pteAddr (B.entry v)))
              rw [mappages_present inv'.rep v _ _ below (by rw [last]; exact copied.kernel_present)] at ok
              cases ok
            have userV : v < USERPAGES := by omega
            have small : B.entry v % PGSIZE ||| PTE_P < PGSIZE := by
              rw [flags_or_present there]
              exact Nat.mod_lt _ (by decide)
            rcases mapNewPage inv v mem rest userV (copied.rest v userV (Nat.le_refl v)) first
                (st.mem (pteAddr (B.entry v))) _ small _ rfl with
              ⟨-, -, -, stopped⟩ | ⟨st₁, A₁, role₁, inv₁, entries, provided, same, mapped⟩
            · rw [stopped] at ok
              cases ok
            · rw [mapped] at ok
              have next : v * PGSIZE + PGSIZE = (v + 1) * PGSIZE := (Nat.succ_mul v PGSIZE).symm
              dsimp only [Bind.bind, Except.bind] at ok
              rw [if_pos rfl, next] at ok
              have copied₁ := copied.page inv₀ inv userV there first entries provided same
              have high := (lt_pagesOf_iff v sz).mpr more
              exact ih (v + 1) copied₁ inv₁ (by omega) high (by omega) ok
        next => cases ok
    next done =>
      rw [← lt_pagesOf_iff] at done
      obtain rfl : v = pagesOf sz := by omega
      cases ok
      exact ⟨user, A, role, inv, copied⟩

end Loop

/-- `d` is a copy of the first `sz` bytes of `g`: new pages with the same flags and bytes, nothing else in
the user part, and the kernel part of `kmap`. The directory `g`, its tables and its pages are unchanged. -/
structure CopyOf (img : Image) (st : Phys) (g sz d : Nat) (st' : Phys) : Prop where
  copied : ∀ v, v * PGSIZE < sz → ∃ p q, st.userPage g v = some q ∧ p ∈ st.freelist ∧ p ∉ st'.freelist ∧
    st'.entryOf d v = p * PGSIZE + st.entryOf g v % PGSIZE ∧ st'.mem p = st.mem q
  distinct : ∀ v w p, v * PGSIZE < sz → w * PGSIZE < sz → st'.userPage d v = some p → st'.userPage d w = some p →
    v = w
  noOther : ∀ v < USERPAGES, sz ≤ v * PGSIZE → st'.userPage d v = none
  kernel : ∀ v, USERPAGES ≤ v → v < ALLPAGES → Prescribed img v (st'.entryOf d v)
  directory : st'.mem g = st.mem g
  tables : ∀ i < NPDENTRIES, ∀ t, tableAt st.mem g i = some t → st'.mem t = st.mem t
  pages : ∀ v < USERPAGES, ∀ p, st.userPage g v = some p → st'.mem p = st.mem p

theorem Copied.copyOf {st₀ st' : Phys} {d sz : Nat} {B : Space} {role₀ : Nat → Role} (inv₀ : Inv img st₀ g B role₀)
    (user : pagesOf sz ≤ USERPAGES) (inv : Inv img st' d A role) (copied : Copied img st₀ d B (pagesOf sz) st' A) :
    CopyOf img st₀ g sz d st' := by
  have low {v : Nat} (inside : v * PGSIZE < sz) : v < pagesOf sz := (lt_pagesOf_iff v sz).mpr inside
  have mappedPage {v p : Nat} (inside : v < ALLPAGES) (page : st'.userPage d v = some p) :
      present (A.entry v) = true ∧ pteAddr (A.entry v) = p := by
    rw [inv.rep.userPage_eq inside] at page
    split at page
    next there =>
      cases page
      exact ⟨there, rfl⟩
    next => cases page
  constructor
  case copied =>
    intro v inside
    have userV : v < USERPAGES := Nat.lt_of_lt_of_le (low inside) user
    obtain ⟨there, p, free, value, contents⟩ := copied.pages v (low inside)
    obtain ⟨mapped, page⟩ := entry_parts value there
    have taken := (inv.user_apart userV mapped).2.2
    rw [page] at taken
    refine ⟨p, _, ?_, free, taken, ?_, contents⟩
    · rw [inv₀.rep.userPage_eq (userPage_lt userV), if_pos there]
    · rw [inv.rep.entryOf_eq (userPage_lt userV), inv₀.rep.entryOf_eq (userPage_lt userV), value]
  case distinct =>
    intro v w p insideV insideW pageV pageW
    have userV : v < USERPAGES := Nat.lt_of_lt_of_le (low insideV) user
    have userW : w < USERPAGES := Nat.lt_of_lt_of_le (low insideW) user
    obtain ⟨thereV, sameV⟩ := mappedPage (userPage_lt userV) pageV
    obtain ⟨thereW, sameW⟩ := mappedPage (userPage_lt userW) pageW
    exact inv.directory.userOnce v w userV userW thereV thereW (sameV.trans sameW.symm)
  case noOther =>
    intro v userV outside
    have high : pagesOf sz ≤ v := by
      by_contra inside
      have small := (lt_pagesOf_iff v sz).mp (by omega)
      omega
    rw [inv.rep.userPage_eq (userPage_lt userV), copied.rest v userV high]
    rfl
  case kernel =>
    intro v kernel inside
    rw [inv.rep.entryOf_eq inside]
    exact copied.kernel v kernel
  case directory =>
    apply copied.kept
    rw [inv₀.owned.free, inv₀.owned.dir]
    simp
  case tables =>
    intro i inside t at_
    rw [inv₀.rep.pde i inside] at at_
    apply copied.kept
    rw [inv₀.owned.free, inv₀.owned.table i t at_]
    simp
  case pages =>
    intro v userV p page
    rw [inv₀.rep.userPage_eq (userPage_lt userV)] at page
    split at page
    next there =>
      cases page
      exact copied.kept _ (inv₀.user_apart userV there).2.2
    next => cases page

theorem Inv.sound (inv : Inv img st g A role) : st.Sound img :=
  ⟨inv.owned.nodup, fun p member => inv.owned.allocatable p (by rw [(inv.owned.free p).mp member]; simp)⟩

theorem copyuvm_copies (img : Image) (st : Phys) (g : Nat) (A : Space) (role : Nat → Role) (inv : Inv img st g A role)
    (sz d : Nat) (st' : Phys) (ok : copyuvm img st g sz = .ok (some d, st')) : CopyOf img st g sz d st' := by
  rw [copyuvm] at ok
  obtain ⟨⟨made, st₁⟩, setup, ok⟩ := ok_of_bind ok
  cases made with
  | none => cases ok
  | some d₁ =>
    obtain ⟨A₁, role₁, inv₁, fresh⟩ := setupkvm_fresh inv.sound setup
    dsimp only [Bind.bind, Except.bind] at ok
    obtain ⟨⟨copied, st₂⟩, run, ok⟩ := ok_of_bind ok
    cases copied with
    | true =>
      cases ok
      have enough : pagesOf sz ≤ 0 + (sz / PGSIZE + 1) := by
        simp only [pagesOf, PGSIZE]
        omega
      obtain ⟨user, A', role', inv', copied⟩ := copyLoop_copied inv sz _ 0 (fresh.copied A) inv₁ (Nat.zero_le _)
        (Nat.zero_le _) enough (by rw [Nat.zero_mul]; exact run)
      exact copied.copyOf inv user inv'
    | false =>
      dsimp only at ok
      obtain ⟨st₃, freed, ok⟩ := ok_of_bind ok
      cases ok

-- A directory of one page, and a hundred free pages.
def parent : Phys := onePageAt 0 (List.range' 0x403 100)

theorem copyuvm_copies_one : ∃ d st', copyuvm smallKernel parent 0x400 PGSIZE = .ok (some d, st') ∧
    CopyOf smallKernel parent 0x400 PGSIZE d st' := by
  have inv : Inv smallKernel parent 0x400 (onePageSpace 0) (onePageRole 0 (List.range' 0x403 100)) := by
    refine onePageAt_inv 0 _ List.nodup_range' ?_
    intro p member
    rw [List.mem_range'_1] at member
    omega
  have pages : parent.freelist.length = 100 := List.length_range'
  suffices returns : ∃ d st', copyuvm smallKernel parent 0x400 PGSIZE = .ok (some d, st') by
    obtain ⟨d, st', ok⟩ := returns
    exact ⟨d, st', ok, copyuvm_copies smallKernel parent 0x400 _ _ inv PGSIZE d st' ok⟩
  rcases setupkvm_spec smallKernel parent inv.sound with ⟨_, _, few⟩ | ⟨d, st₁, A₁, role₁, setup, part⟩
  · omega
  have count := part.count
  rw [card_kernelTables, pages] at count
  obtain ⟨A₂, role₂, inv₂, fresh⟩ := setupkvm_fresh inv.sound setup
  have source := (fresh.copied (onePageSpace 0)).source inv
  have walked := source.walk 0 (by decide)
  have value := source.pte 0 0x401 rfl
  cases first : st₁.freelist with
  | nil =>
    rw [first, List.length_nil] at count
    omega
  | cons mem rest =>
    rcases mapNewPage inv₂ 0 mem rest (by decide) (by rw [fresh.user 0 (by decide)]; rfl) first
        (st₁.mem 0x402) 7 (by decide) _ rfl with ⟨-, last, -⟩ | ⟨st₂, -, -, -, -, -, -, mapped⟩
    · rw [first, last] at count
      simp at count
    · refine ⟨d, st₂, ?_⟩
      rw [Nat.zero_mul] at mapped
      have loop : copyLoop 0x400 d PGSIZE (1 + 1) 0 st₁ = .ok (true, st₂) := by
        have slot : PTX 0 = 0 % NPTENTRIES := rfl
        have page : entry (st₁.mem 0x401) (0 % NPTENTRIES) = userEntry 0x402 := value
        rw [copyLoop, if_pos (by decide), walked]
        simp only [onePageSpace, Nat.zero_div, if_true, Option.map_some, slot, page, present_userEntry, kalloc, first,
          pteAddr_userEntry]
        rw [show userEntry 0x402 % PGSIZE = 7 from rfl, mapped]
        dsimp only [Bind.bind, Except.bind]
        rw [if_pos rfl, copyLoop, if_neg (by decide)]
      rw [copyuvm, setup]
      dsimp only [Bind.bind, Except.bind]
      rw [Nat.div_self (by decide), loop]
      rfl

end Xv6.Vm
