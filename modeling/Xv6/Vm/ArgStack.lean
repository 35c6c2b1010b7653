import Xv6.Vm.Args
import Xv6.Vm.Plain

set_option autoImplicit false

/-!
# Copying to the stack of a new image

Behind the image stand a page that the user cannot reach and the stack page. A copy that begins in the stack
page stays there; one that begins below it runs into the guard page; and one whose address has wrapped goes
where the kernel part has either entries without `PTE_U` or no table at all.
-/

namespace Xv6.Vm

open Sys Memory

variable {img : Image} {st : Phys} {g : Nat} {A : Space} {role : Nat → Role}

/-- The new address space: `n` pages, the guard page and the stack page. With a `hole` the stack page has been
lost with its table. -/
structure StackPart (img : Image) (st : Phys) (g : Nat) (A : Space) (role : Nat → Role) (n : Nat) (hole : Bool) :
    Prop where
  inv : Inv img st g A role
  top : (n + 2) * PGSIZE < KERNBASE
  image : ∀ v < n, ∃ p, A.entry v = userEntry p
  guard : A.table (n / NPTENTRIES) ≠ none ∧ A.entry n / PTE_U % 2 = 0
  stack : hole = false → ∃ p, A.entry (n + 1) = userEntry p
  missing : hole = true → A.table ((n + 1) / NPTENTRIES) = none
  closed : ∀ v, USERPAGES ≤ v → A.entry v / PTE_U % 2 = 0
  tables : ∀ d, 512 ≤ d → (A.table d ≠ none ↔ kernelTable ALLPAGES d)

theorem Rep.table_of_present {mem : Nat → Page} (rep : Rep mem g A) {v : Nat} (there : present (A.entry v) = true) :
    ∃ t, A.table (v / NPTENTRIES) = some t := by
  cases at_ : A.table (v / NPTENTRIES) with
  | none =>
    rw [rep.absent v at_] at there
    cases there
  | some t => exact ⟨t, rfl⟩

theorem userEntry_closed (p : Nat) : (userEntry p - PTE_U) / PTE_U % 2 = 0 ∧ pteAddr (userEntry p - PTE_U) = p := by
  rw [userEntry_eq, pteAddr]
  simp only [PTE_U, PGSIZE]
  omega

theorem userEntry_closed_lt {p : Nat} (small : p < 0xE000) : userEntry p - PTE_U < 2 ^ 32 := by
  rw [userEntry_eq]
  simp only [PTE_U]
  omega

theorem clearpteu_stack {got : List (Nat × Nat)} {plan : Plan} {n : Nat} (part : UserPart img st g A role got plan)
    (pages : plan.pages = n + 2) (top : (n + 2) * PGSIZE < KERNBASE) :
    ∃ st' A', clearpteu st g (n * PGSIZE) = .ok st' ∧ StackPart img st' g A' role n plan.hole ∧
      ∀ S st₀, Private S st₀ st g A → Private S st₀ st' g A' := by
  have few : n < 0x7FFFE := by
    simp only [KERNBASE, PGSIZE] at top
    omega
  have word : n * PGSIZE < 2 ^ 32 := by
    simp only [PGSIZE]
    clear top
    omega
  have user {v : Nat} (counted : v < n + 2) : v < USERPAGES := by
    simp only [USERPAGES, KERNBASE, PGSIZE] at top ⊢
    omega
  have mapped : plan.Mapped n := ⟨by omega, by omega⟩
  have inside : n < USERPAGES := user (by omega)
  obtain ⟨p, value, -⟩ := part.mapped n inside mapped
  have there : present (A.entry n) = true := by
    rw [value]
    exact present_userEntry p
  obtain ⟨t, at_⟩ := part.inv.rep.table_of_present there
  obtain ⟨shut, samePage⟩ := userEntry_closed p
  have open_ : userEntry p / PTE_U % 2 = 1 := by
    rw [userEntry_eq]
    simp only [PTE_U]
    omega
  have owner := part.inv.owned.user n inside there
  rw [value, pteAddr_userEntry] at owner
  have small := (part.inv.owned.allocatable p (by rw [owner]; simp)).lt.2
  refine ⟨st.setEntry t (n % NPTENTRIES) (userEntry p - PTE_U), _, ?_, ?_,
    fun S st₀ priv => priv.setEntry inside at_ fun _ => ?_⟩
  · have entry_ := part.inv.rep.pte n t at_
    rw [clearpteu, part.inv.rep.walk _ word, PTX_eq, pageAddr_div, at_]
    simp only [Option.map_some, entry_, value, open_, if_true]
  · constructor
    case inv =>
      refine setEntry_inv part.inv n t _ at_ (userEntry_closed_lt small) fun _ _ => ?_
      rw [samePage, owner]
    case top => exact top
    case image =>
      intro v counted
      obtain ⟨q, isPage, -⟩ := part.mapped v (user (by omega)) ⟨by omega, by omega⟩
      exact ⟨q, by dsimp only; rw [Function.update_of_ne (by omega), isPage]⟩
    case guard =>
      dsimp only
      rw [at_, Function.update_self]
      exact ⟨by simp, shut⟩
    case stack =>
      intro solid
      obtain ⟨q, isPage, -⟩ := part.mapped (n + 1) (user (by omega)) ⟨by omega, by simp [solid]⟩
      exact ⟨q, by dsimp only; rw [Function.update_of_ne (by omega), isPage]⟩
    case missing =>
      intro hole
      have first := (part.sound hole).2
      by_contra there
      have inside : (n + 1) / NPTENTRIES < 512 := by
        simp only [KERNBASE, PGSIZE, NPTENTRIES] at top ⊢
        omega
      have table := (part.tables _ inside).mp there
      apply table.2
      rw [pages] at first ⊢
      simp only [NPTENTRIES] at first ⊢
      exact ⟨hole, by omega⟩
    case closed =>
      intro v kernel
      have other : v ≠ n := by omega
      dsimp only
      rw [Function.update_of_ne other]
      exact part.closed v kernel
    case tables => exact part.kernel
  · have mine := priv.user n inside there
    rwa [value, pteAddr_userEntry, ← samePage] at mine

theorem Rep.uva2ka (rep : Rep st.mem g A) {v : Nat} (inside : v < ALLPAGES) :
    Vm.uva2ka st g (v * PGSIZE) =
      match A.table (v / NPTENTRIES) with
      | none => .nullPte
      | some _ =>
        if present (A.entry v) = false then .zero
        else if A.entry v / PTE_U % 2 = 0 then .zero
        else .page (pteAddr (A.entry v)) := by
  rw [Vm.uva2ka, rep.walk _ (by simp only [ALLPAGES, PGSIZE] at inside ⊢; omega), PTX_eq, pageAddr_div]
  cases at_ : A.table (v / NPTENTRIES) with
  | none => rfl
  | some t => simp only [Option.map_some, rep.pte v t at_]

theorem Rep.uva2ka_page (rep : Rep st.mem g A) {v p : Nat} (inside : v < ALLPAGES)
    (found : Vm.uva2ka st g (v * PGSIZE) = .page p) :
    present (A.entry v) = true ∧ A.entry v / PTE_U % 2 ≠ 0 ∧ pteAddr (A.entry v) = p := by
  rw [rep.uva2ka inside] at found
  cases at_ : A.table (v / NPTENTRIES) with
  | none => simp [at_] at found
  | some t =>
    simp only [at_] at found
    split at found
    next => cases found
    next there =>
      split at found
      next => cases found
      next reachable =>
        cases found
        exact ⟨by simpa using there, reachable, rfl⟩

theorem Rep.uva2ka_user (rep : Rep st.mem g A) {v p : Nat} (inside : v < ALLPAGES) (value : A.entry v = userEntry p) :
    Vm.uva2ka st g (v * PGSIZE) = .page p := by
  obtain ⟨t, at_⟩ := rep.table_of_present (by rw [value]; exact present_userEntry p)
  have open_ : ¬ userEntry p / PTE_U % 2 = 0 := by
    rw [userEntry_eq]
    simp only [PTE_U]
    omega
  rw [rep.uva2ka inside, at_]
  simp [value, open_]

theorem Rep.uva2ka_closed (rep : Rep st.mem g A) {v : Nat} (inside : v < ALLPAGES)
    (there : A.table (v / NPTENTRIES) ≠ none) (closed : A.entry v / PTE_U % 2 = 0) :
    Vm.uva2ka st g (v * PGSIZE) = .zero := by
  obtain ⟨t, at_⟩ := Option.ne_none_iff_exists'.mp there
  rw [rep.uva2ka inside, at_]
  simp [closed]

theorem Rep.uva2ka_missing (rep : Rep st.mem g A) {v : Nat} (inside : v < ALLPAGES)
    (missing : A.table (v / NPTENTRIES) = none) : Vm.uva2ka st g (v * PGSIZE) = .nullPte := by
  rw [rep.uva2ka inside, missing]

-- `copyout` stores into user pages only: the kernel part has no entry for the user.
theorem Inv.copyoutLoop_stored (inv : Inv img st g A role) (closed : ∀ v, USERPAGES ≤ v → A.entry v / PTE_U % 2 = 0)
    (fuel : Nat) {va : Nat} (word : va < 2 ^ 32) (buf : List UInt8) : Stored g st (copyoutLoop g fuel va buf st).2 := by
  induction fuel generalizing st va buf with
  | zero => exact Stored.refl g st
  | succ fuel ih =>
    have inside : va / PGSIZE < ALLPAGES := by
      simp only [ALLPAGES, PGSIZE] at word ⊢
      omega
    rw [copyoutLoop]
    split
    next =>
      dsimp only
      cases found : uva2ka st g (va / PGSIZE * PGSIZE) with
      | nullPte => exact Stored.refl g st
      | zero => exact Stored.refl g st
      | page p =>
        obtain ⟨there, reachable, page⟩ := inv.rep.uva2ka_page inside found
        have user : va / PGSIZE < USERPAGES := by
          by_contra kernel
          exact reachable (closed _ (by omega))
        have mapped : st.userPage g (va / PGSIZE) = some p := by
          rw [inv.rep.userPage_eq inside, if_pos there, page]
        have first := Stored.setPage user mapped (Bytes.putBytes (st.mem p) (va - va / PGSIZE * PGSIZE)
          (min (PGSIZE - (va - va / PGSIZE * PGSIZE)) buf.length) fun k => buf.getD k 0)
        exact first.trans inv (ih (inv.stored first) (Nat.mod_lt _ (by decide)) _)
    next => exact Stored.refl g st

theorem lower_lt (sp n : Nat) : lower sp n < 2 ^ 32 := by
  simp only [lower]
  omega

namespace StackPart

variable {n : Nat} {hole : Bool}

theorem user (part : StackPart img st g A role n hole) {v : Nat} (counted : v < n + 2) : v < USERPAGES := by
  have top := part.top
  simp only [USERPAGES, KERNBASE, PGSIZE] at top ⊢
  omega

theorem inside (part : StackPart img st g A role n hole) {v : Nat} (counted : v < n + 2) : v < ALLPAGES :=
  userPage_lt (part.user counted)

theorem store (part : StackPart img st g A role n hole) {v p : Nat} (counted : v < n + 2)
    (value : A.entry v = userEntry p) (page : Page) : Stored g st (st.setPage p page) := by
  apply Stored.setPage (part.user counted)
  rw [part.inv.rep.userPage_eq (part.inside counted), value]
  simp

theorem stored {st' : Phys} (part : StackPart img st g A role n hole) (stored : Stored g st st') :
    StackPart img st' g A role n hole :=
  { part with inv := part.inv.stored stored }

theorem copyout_stored (part : StackPart img st g A role n hole) (va : Nat) (word : va < 2 ^ 32) (buf : List UInt8) :
    Stored g st (copyout st g va buf).2 :=
  part.inv.copyoutLoop_stored part.closed _ word buf

theorem pushArgs_stored (part : StackPart img st g A role n hole) (argv : List (List UInt8)) (sp : Nat)
    (ustack : List Nat) : Stored g st (pushArgs g argv sp ustack st).st := by
  induction argv generalizing st sp ustack with
  | nil => exact Stored.refl g st
  | cons s rest ih =>
    rw [pushArgs]
    split
    next => exact Stored.refl g st
    next =>
      have first := part.copyout_stored _ (lower_lt sp (s.length + 1)) (s ++ [0])
      dsimp only
      split
      next st' copied =>
        rw [copied] at first
        exact first.trans part.inv (ih (part.stored first) _ _)
      next stop st' _ copied =>
        rw [copied] at first
        exact first

end StackPart

theorem copyout_first {va : Nat} {buf : List UInt8} (some_ : 0 < buf.length) :
    (uva2ka st g (va / PGSIZE * PGSIZE) = .zero → copyout st g va buf = (.failed, st)) ∧
      (uva2ka st g (va / PGSIZE * PGSIZE) = .nullPte → copyout st g va buf = (.nullPte, st)) := by
  obtain ⟨fuel, length⟩ : ∃ k, buf.length = k + 1 := ⟨buf.length - 1, by omega⟩
  constructor
  · intro zero
    simp only [copyout, length, copyoutLoop, Nat.zero_lt_succ, if_true, zero]
  · intro null
    simp only [copyout, length, copyoutLoop, Nat.zero_lt_succ, if_true, null]

theorem copyout_page {va p : Nat} {buf : List UInt8} (some_ : 0 < buf.length)
    (page : uva2ka st g (va / PGSIZE * PGSIZE) = .page p) (fits : va % PGSIZE + buf.length ≤ PGSIZE) :
    copyout st g va buf =
      (.done, st.setPage p (Bytes.putBytes (st.mem p) (va % PGSIZE) buf.length fun k => buf.getD k 0)) := by
  obtain ⟨fuel, length⟩ : ∃ k, buf.length = k + 1 := ⟨buf.length - 1, by omega⟩
  have offset : va - va / PGSIZE * PGSIZE = va % PGSIZE := by
    simp only [PGSIZE]
    omega
  have all : min (PGSIZE - va % PGSIZE) (fuel + 1) = fuel + 1 := by omega
  rw [copyout, length, copyoutLoop, if_pos some_]
  simp only [page, offset, length, all]
  rw [List.drop_of_length_le (Nat.le_of_eq length)]
  cases fuel with
  | zero => rfl
  | succ fuel => simp [copyoutLoop]

-- A copy that begins below the stack page and reaches the guard page.
theorem copyoutLoop_guard {n : Nat} {hole : Bool} (fuel va : Nat) (buf : List UInt8)
    (part : StackPart img st g A role n hole) (start : va < (n + 1) * PGSIZE)
    (reaches : n * PGSIZE < va + buf.length) (some_ : 0 < buf.length) (enough : buf.length ≤ fuel) :
    (copyoutLoop g fuel va buf st).1 = .failed := by
  induction fuel generalizing st va buf with
  | zero => omega
  | succ fuel ih =>
    have page : va / PGSIZE ≤ n := by
      simp only [PGSIZE] at start ⊢
      omega
    rw [copyoutLoop, if_pos some_]
    dsimp only
    by_cases guard : va / PGSIZE = n
    · rw [guard, part.inv.rep.uva2ka_closed (part.inside (by omega)) part.guard.1 part.guard.2]
    · have before : va / PGSIZE < n := by omega
      have start' : (va / PGSIZE + 1) * PGSIZE < (n + 1) * PGSIZE :=
        Nat.mul_lt_mul_of_pos_right (by omega) (by decide)
      have reaches' : n * PGSIZE < (va / PGSIZE + 1) * PGSIZE + (buf.length - (PGSIZE - va % PGSIZE)) ∧
          0 < buf.length - (PGSIZE - va % PGSIZE) ∧ buf.length - (PGSIZE - va % PGSIZE) ≤ fuel := by
        simp only [PGSIZE] at *
        omega
      have piece : min (PGSIZE - (va - va / PGSIZE * PGSIZE)) buf.length = PGSIZE - va % PGSIZE := by
        simp only [PGSIZE] at *
        omega
      have next : (va / PGSIZE * PGSIZE + PGSIZE) % 2 ^ 32 = (va / PGSIZE + 1) * PGSIZE := by
        have user := part.user (v := va / PGSIZE) (by omega)
        simp only [USERPAGES, KERNBASE, PGSIZE] at *
        omega
      rw [← List.length_drop] at reaches'
      obtain ⟨p, value⟩ := part.image (va / PGSIZE) (by omega)
      rw [part.inv.rep.uva2ka_user (part.inside (by omega)) value]
      dsimp only
      rw [piece, next]
      exact ih _ _ (part.stored (part.store (by omega) value _)) start' reaches'.1 reaches'.2.1 reaches'.2.2

-- An address from the kernel part on: there is a table, or there is none.
theorem copyout_kernel {n : Nat} {hole : Bool} {va : Nat} {buf : List UInt8} (part : StackPart img st g A role n hole)
    (some_ : 0 < buf.length) (kernel : KERNBASE ≤ va) (word : va < 2 ^ 32) :
    copyout st g va buf = (if KERNBASE + PHYSTOP ≤ va ∧ va < DEVSPACE then .nullPte else .failed, st) := by
  have high : USERPAGES ≤ va / PGSIZE := by
    simp only [USERPAGES, KERNBASE, PGSIZE] at kernel ⊢
    omega
  have inside : va / PGSIZE < ALLPAGES := by
    simp only [ALLPAGES, PGSIZE] at word ⊢
    omega
  have table := part.tables (va / PGSIZE / NPTENTRIES) (by
    simp only [USERPAGES, KERNBASE, PGSIZE, NPTENTRIES] at high ⊢
    omega)
  split
  next gap =>
    apply (copyout_first some_).2
    apply part.inv.rep.uva2ka_missing inside
    by_contra there
    obtain ⟨-, -, range, -⟩ := table.mp there
    simp only [KERNBASE, PHYSTOP, DEVSPACE, PGSIZE, NPTENTRIES] at gap range
    omega
  next covered =>
    apply (copyout_first some_).1
    refine part.inv.rep.uva2ka_closed inside (table.mpr ?_) (part.closed _ high)
    simp only [kernelTable, KERNBASE, PHYSTOP, DEVSPACE, PGSIZE, NPTENTRIES, ALLPAGES, NPDENTRIES] at covered kernel ⊢
    omega

end Xv6.Vm
