import Xv6.Vm.Extend

set_option autoImplicit false

/-!
# `growproc` and `sbrk`

Both directions of `growproc` treat a returned size of 0 as a failure. For `allocuvm` it is one, and
everything is as before. `deallocuvm` returns the new size, which is 0 when the process gives up all of
its memory: `growproc` then reports a failure after the pages are gone.
-/

namespace Xv6.Vm

/-- The memory of a process: the page directory and the size in `struct proc`. -/
structure UserProc where
  st : Phys
  pgdir : Nat
  sz : Nat

-- The sum of a size and a signed number, in 32 bits.
def addSize (sz : Nat) (n : Int) : Nat := (((sz : Int) + n) % 2 ^ 32).toNat

-- The value that `deallocuvm` returns.
def deallocSize (oldsz newsz : Nat) : Nat := if newsz ≥ oldsz then oldsz else newsz

-- The end of `growproc`, with the size that was returned.
def UserProc.resize (u : UserProc) (st : Phys) (sz : Nat) : Int × UserProc :=
  if sz = 0 then (-1, { u with st := st }) else (0, { u with st := st, sz := sz })

def growproc (img : Image) (u : UserProc) (n : Int) : Except Panic (Int × UserProc) :=
  if n > 0 then do
    let grown ← allocuvm img u.st u.pgdir u.sz (addSize u.sz n)
    return u.resize grown.st grown.sz
  else if n < 0 then do
    let st ← deallocuvm img u.st u.pgdir u.sz (addSize u.sz n)
    return u.resize st (deallocSize u.sz (addSize u.sz n))
  else return (0, u)

-- `sys_sbrk` after its argument has been fetched.
def sysSbrk (img : Image) (u : UserProc) (n : Int) : Except Panic (Int × UserProc) := do
  let addr : Int := u.sz
  let (r, u) ← growproc img u n
  if r < 0 then return (-1, u) else return (addr, u)

/-- A failure leaves size and pages as they were. A success, with `done` as its value, makes the size what
was asked for, and the pages that are in both sizes stay. -/
def WithoutEffect (u : UserProc) (n done : Int) (outcome : Except Panic (Int × UserProc)) : Prop :=
  ∀ r u', outcome = .ok (r, u') →
    (r = -1 → u'.sz = u.sz ∧ u'.pgdir = u.pgdir ∧ PagesKept u.st u'.st u.pgdir (pagesOf u.sz)) ∧
      (r = done → 0 ≤ u.sz + n → u.sz + n < KERNBASE →
        (u'.sz : Int) = u.sz + n ∧ u'.pgdir = u.pgdir ∧
          PagesKept u.st u'.st u.pgdir (pagesOf (min u.sz u'.sz)))

variable {img : Image} {st : Phys} {g : Nat} {A : Space} {role : Nat → Role}

theorem PagesKept.refl (st : Phys) (g n : Nat) : PagesKept st st g n := fun _ _ => ⟨rfl, fun _ _ => rfl⟩

theorem allocuvm_keeps (inv : Inv img st g A role) (oldsz newsz : Nat) (larger : oldsz < newsz) {r : Grown}
    (ok : allocuvm img st g oldsz newsz = .ok r) :
    (r.sz = 0 ∨ (r.sz = newsz ∧ newsz < KERNBASE)) ∧ PagesKept st r.st g (pagesOf oldsz) := by
  let P (v : Nat) (st' : Phys) := pagesOf oldsz ≤ v ∧ ∃ A' role', Inv img st' g A' role' ∧ Above st g A (pagesOf oldsz) st' A'
  rcases allocuvm_rule P (by
      rintro v st₁ mem rest b st' user ⟨low, A₁, role₁, inv₁, above⟩ first mapped
      have taken := above.take first fun _ => 0
      rcases mapUserPage_ok inv₁ user first mapped with ⟨role', inv', rfl⟩ | ⟨A', role', inv', entries, provided, same⟩
      · exact ⟨Nat.le_succ_of_le low, A₁, role', inv', taken⟩
      · exact ⟨Nat.le_succ_of_le low, A', role', inv', taken.page low entries provided same⟩)
      ⟨le_rfl, A, role, inv, Above.start st g A _⟩ ok with
    ⟨-, size, same⟩ | ⟨smaller, -⟩ | ⟨below, -, ends⟩
  · rw [same]
    exact ⟨Or.inl size, PagesKept.refl st g _⟩
  · omega
  have user : pagesOf oldsz ≤ USERPAGES := by
    simp only [pagesOf, KERNBASE, USERPAGES, PGSIZE] at below ⊢
    omega
  rcases ends with ⟨size, -, A', role', inv', above⟩ | ⟨size, v, st₁, -, ⟨-, A₁, role₁, inv₁, above⟩, -, freed⟩
  · exact ⟨Or.inr ⟨size, below⟩, above.pagesKept inv' inv user (by simp) (Emptied.nil inv'.directory)⟩
  · obtain ⟨st', done, emptied⟩ := deallocuvm_emptied inv₁ newsz oldsz (Nat.le_of_lt below)
    rw [freed] at done
    cases done
    refine ⟨Or.inl size, above.pagesKept inv₁ inv user (fun w member => ?_) emptied⟩
    obtain ⟨range, there, -⟩ := (mem_clearedPages inv₁.rep newsz oldsz w).mp member
    exact ⟨((inRange_iff _ _ _).mp range).1, (range.user (Nat.le_of_lt below)).1, there⟩

theorem deallocuvm_keeps (inv : Inv img st g A role) (oldsz newsz : Nat) (below : oldsz ≤ KERNBASE)
    (smaller : newsz < oldsz) {st' : Phys} (ok : deallocuvm img st g oldsz newsz = .ok st') :
    PagesKept st st' g (pagesOf newsz) := by
  obtain ⟨st'', done, emptied⟩ := deallocuvm_emptied inv oldsz newsz below
  rw [ok] at done
  cases done
  have user : pagesOf newsz ≤ USERPAGES := by
    simp only [pagesOf, KERNBASE, USERPAGES, PGSIZE] at below ⊢
    omega
  refine (Above.start st g A _).pagesKept inv inv user ?_ emptied
  intro w member
  obtain ⟨range, there, -⟩ := (mem_clearedPages inv.rep oldsz newsz w).mp member
  exact ⟨((inRange_iff _ _ _).mp range).1, (range.user below).1, there⟩

theorem addSize_eq (sz : Nat) (n : Int) (inside : 0 ≤ (sz : Int) + n) (word : (sz : Int) + n < 2 ^ 32) :
    (addSize sz n : Int) = sz + n := by
  rw [addSize, Int.emod_eq_of_lt inside word, Int.toNat_of_nonneg inside]

theorem addSize_wraps (sz : Nat) (n : Int) (size : sz ≤ KERNBASE) (low : -2 ^ 31 ≤ n) (negative : (sz : Int) + n < 0) :
    sz ≤ addSize sz n := by
  have wrapped : ((sz : Int) + n) % 2 ^ 32 = sz + n + 2 ^ 32 := by omega
  rw [addSize, wrapped]
  simp only [KERNBASE] at size
  omega

/-- A process that gives up all of its memory, some of which is there. -/
def GivesUpAll (u : UserProc) (n : Int) : Prop :=
  n < 0 ∧ (u.sz : Int) + n = 0 ∧ ∃ v < pagesOf u.sz, u.st.userPage u.pgdir v ≠ none

section Process

variable {u : UserProc} {n : Int}

theorem growproc_grows (inv : Inv img u.st u.pgdir A role) (size : u.sz ≤ KERNBASE) (high : n < 2 ^ 31)
    (positive : n > 0) : WithoutEffect u n 0 (growproc img u n) := by
  intro r u' ok
  simp only [KERNBASE] at size
  have sum := addSize_eq u.sz n (by omega) (by omega)
  rw [growproc, if_pos positive] at ok
  obtain ⟨grown, done, ok⟩ := ok_of_bind ok
  obtain ⟨sizes, kept⟩ := allocuvm_keeps inv u.sz (addSize u.sz n) (by omega) done
  dsimp only [Bind.bind, Except.bind, UserProc.resize, pure, Except.pure] at ok
  by_cases zero : grown.sz = 0
  · rw [if_pos zero] at ok
    cases ok
    exact ⟨fun _ => ⟨rfl, rfl, kept⟩, fun impossible => by cases impossible⟩
  · rw [if_neg zero] at ok
    cases ok
    obtain ⟨grew, -⟩ := sizes.resolve_left zero
    refine ⟨fun impossible => (by cases impossible), fun _ _ _ => ⟨?_, rfl, ?_⟩⟩
    · rw [grew, sum]
    · dsimp only
      rw [Nat.min_eq_left (by omega)]
      exact kept

theorem growproc_shrinks (inv : Inv img u.st u.pgdir A role) (size : u.sz ≤ KERNBASE) (low : -2 ^ 31 ≤ n)
    (negative : n < 0) (some_ : ¬ GivesUpAll u n) : WithoutEffect u n 0 (growproc img u n) := by
  intro r u' ok
  rw [growproc, if_neg (by omega), if_pos negative] at ok
  obtain ⟨st', done, ok⟩ := ok_of_bind ok
  dsimp only [Bind.bind, Except.bind, pure, Except.pure] at ok
  by_cases inside : 0 ≤ (u.sz : Int) + n
  · have sum := addSize_eq u.sz n inside (by simp only [KERNBASE] at size; omega)
    have smaller : addSize u.sz n < u.sz := by omega
    have kept := deallocuvm_keeps inv u.sz (addSize u.sz n) size smaller done
    rw [deallocSize, if_neg (by omega), UserProc.resize] at ok
    by_cases zero : addSize u.sz n = 0
    · -- The size becomes 0, and nothing was there to be freed.
      rw [if_pos zero] at ok
      cases ok
      refine ⟨fun _ => ⟨rfl, rfl, ?_⟩, fun impossible => by cases impossible⟩
      have nothing (v : Nat) (below : v < pagesOf u.sz) : u.st.userPage u.pgdir v = none := by
        by_contra there
        exact some_ ⟨negative, by omega, v, below, there⟩
      obtain ⟨st'', again, emptied⟩ := deallocuvm_emptied inv u.sz (addSize u.sz n) size
      rw [done] at again
      cases again
      intro v below
      have bounds : v < ALLPAGES := by
        rw [lt_pagesOf_iff] at below
        simp only [KERNBASE, ALLPAGES, PGSIZE] at size below ⊢
        omega
      have absent : v ∉ clearedPages A u.sz (addSize u.sz n) := by
        intro member
        have there := ((mem_clearedPages inv.rep _ _ v).mp member).2.1
        have none_ := nothing v below
        rw [inv.rep.userPage_eq bounds, if_pos there] at none_
        cases none_
      constructor
      · rw [emptied.directory.rep.entryOf_eq bounds, inv.rep.entryOf_eq bounds]
        exact if_neg absent
      · intro p page
        rw [nothing v below] at page
        cases page
    · rw [if_neg zero] at ok
      cases ok
      refine ⟨fun impossible => (by cases impossible), fun _ _ _ => ⟨sum, rfl, ?_⟩⟩
      dsimp only
      rw [Nat.min_eq_right (by omega)]
      exact kept
  · have wraps := addSize_wraps u.sz n size low (by omega)
    rw [deallocuvm, if_pos wraps] at done
    cases done
    rw [deallocSize, if_pos wraps, UserProc.resize] at ok
    by_cases zero : u.sz = 0
    · rw [if_pos zero] at ok
      cases ok
      exact ⟨fun _ => ⟨rfl, rfl, PagesKept.refl _ _ _⟩, fun impossible => by cases impossible⟩
    · rw [if_neg zero] at ok
      cases ok
      exact ⟨fun impossible => (by cases impossible), fun _ range => absurd range inside⟩

theorem growproc_without_effect (inv : Inv img u.st u.pgdir A role) (size : u.sz ≤ KERNBASE) (low : -2 ^ 31 ≤ n)
    (high : n < 2 ^ 31) (some_ : ¬ GivesUpAll u n) : WithoutEffect u n 0 (growproc img u n) := by
  rcases lt_trichotomy n 0 with negative | zero | positive
  · exact growproc_shrinks inv size low negative some_
  · intro r u' ok
    rw [growproc, if_neg (by omega), if_neg (by omega)] at ok
    cases ok
    refine ⟨fun impossible => (by cases impossible), fun _ _ _ => ⟨by omega, rfl, PagesKept.refl _ _ _⟩⟩
  · exact growproc_grows inv size high positive

theorem growproc_result {r : Int} {u' : UserProc} (ok : growproc img u n = .ok (r, u')) : r = -1 ∨ r = 0 := by
  have resized (st : Phys) (sz : Nat) : (u.resize st sz).1 = -1 ∨ (u.resize st sz).1 = 0 := by
    rw [UserProc.resize]
    split
    next => exact Or.inl rfl
    next => exact Or.inr rfl
  rw [growproc] at ok
  split at ok
  next =>
    obtain ⟨grown, done, ok⟩ := ok_of_bind ok
    have same : u.resize grown.st grown.sz = (r, u') := Except.ok.inj ok
    have result := resized grown.st grown.sz
    rwa [same] at result
  next =>
    split at ok
    next =>
      obtain ⟨st', done, ok⟩ := ok_of_bind ok
      have same : u.resize st' (deallocSize u.sz (addSize u.sz n)) = (r, u') := Except.ok.inj ok
      have result := resized st' (deallocSize u.sz (addSize u.sz n))
      rwa [same] at result
    next =>
      cases ok
      exact Or.inr rfl

theorem WithoutEffect.sbrk (safe : WithoutEffect u n 0 (growproc img u n)) :
    WithoutEffect u n u.sz (sysSbrk img u n) := by
  intro r u' ok
  rw [sysSbrk] at ok
  obtain ⟨⟨r₀, u₀⟩, done, ok⟩ := ok_of_bind ok
  have results := growproc_result done
  obtain ⟨failed, succeeded⟩ := safe r₀ u₀ done
  dsimp only [Bind.bind, Except.bind, pure, Except.pure] at ok
  rcases results with rfl | rfl
  · cases ok
    refine ⟨fun _ => failed rfl, fun impossible => ?_⟩
    omega
  · cases ok
    refine ⟨fun impossible => ?_, fun _ => succeeded rfl⟩
    omega

theorem growproc_gives_up (inv : Inv img u.st u.pgdir A role) (size : u.sz ≤ KERNBASE) (all : GivesUpAll u n) :
    ¬ WithoutEffect u n 0 (growproc img u n) := by
  intro safe
  obtain ⟨negative, sum, v, below, there⟩ := all
  have zero : addSize u.sz n = 0 := by
    rw [addSize, sum]
    rfl
  obtain ⟨st', done, emptied⟩ := deallocuvm_emptied inv u.sz 0 size
  have run : growproc img u n = .ok (-1, { u with st := st' }) := by
    rw [growproc, if_neg (by omega), if_pos negative, zero, done, deallocSize, if_neg (by omega)]
    rfl
  obtain ⟨-, -, kept⟩ := (safe _ _ run).1 rfl
  have range : InRange 0 u.sz v := (inRange_iff _ _ _).mpr ⟨Nat.zero_le v, (lt_pagesOf_iff v u.sz).mp below⟩
  have bounds := (range.user size).2
  have mapped : present (A.entry v) = true := by
    rw [inv.rep.userPage_eq bounds] at there
    by_contra absent
    exact there (if_neg absent)
  have member : v ∈ clearedPages A u.sz 0 := by
    rw [mem_clearedPages inv.rep]
    exact ⟨range, mapped, fun skipped => Nat.not_lt_zero _ skipped.2.1⟩
  have same := (kept v below).1
  rw [emptied.directory.rep.entryOf_eq bounds, inv.rep.entryOf_eq bounds] at same
  have cleared : (A.erase (clearedPages A u.sz 0)).entry v = 0 := if_pos member
  rw [← same, cleared, absent_zero] at mapped
  cases mapped

end Process

/-- `growproc` and `sbrk` fail without effect unless the process gives up all of its memory. -/
theorem growproc_without_effect_iff (img : Image) (u : UserProc) (A : Space) (role : Nat → Role)
    (inv : Inv img u.st u.pgdir A role) (size : u.sz ≤ KERNBASE) (n : Int) (low : -2 ^ 31 ≤ n) (high : n < 2 ^ 31) :
    WithoutEffect u n 0 (growproc img u n) ∧ WithoutEffect u n u.sz (sysSbrk img u n) ↔ ¬ GivesUpAll u n := by
  constructor
  · exact fun safe all => growproc_gives_up inv size all safe.1
  · intro some_
    have safe := growproc_without_effect inv size low high some_
    exact ⟨safe, safe.sbrk⟩

-- A process of one page.
def onePage : UserProc := ⟨onePageAt 0 [], 0x400, PGSIZE⟩

theorem growproc_without_effect_one :
    WithoutEffect onePage (-1) 0 (growproc smallKernel onePage (-1)) ∧
      WithoutEffect onePage (-1) PGSIZE (sysSbrk smallKernel onePage (-1)) :=
  (growproc_without_effect_iff smallKernel onePage (onePageSpace 0) (onePageRole 0 [])
    (onePageAt_inv 0 [] List.nodup_nil (by simp)) (by decide) (-1) (by decide) (by decide)).mpr fun all => absurd all.2.1 (by decide)

-- All of the memory is given up: the page is gone, the size stays, and the result is -1.
theorem sbrk_fails_with_effect :
    Inv smallKernel onePage.st onePage.pgdir (onePageSpace 0) (onePageRole 0 []) ∧
      onePage.st.userPage 0x400 0 = some 0x402 ∧
      (sysSbrk smallKernel onePage (-PGSIZE)).toOption.map
        (fun r => (r.1, r.2.sz, r.2.st.userPage 0x400 0)) = some (-1, PGSIZE, none) ∧
      ¬ WithoutEffect onePage (-PGSIZE) 0 (growproc smallKernel onePage (-PGSIZE)) := by
  have inv : Inv smallKernel onePage.st onePage.pgdir (onePageSpace 0) (onePageRole 0 []) :=
    onePageAt_inv 0 [] List.nodup_nil (by simp)
  have page : onePage.st.userPage 0x400 0 = some 0x402 := by decide +kernel
  refine ⟨inv, page, by decide +kernel, growproc_gives_up inv (by decide) ⟨by decide, by decide, 0, by decide, ?_⟩⟩
  rw [show onePage.pgdir = 0x400 from rfl, page]
  simp

end Xv6.Vm
