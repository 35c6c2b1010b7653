import Xv6.Vm.ExecSafe
import Xv6.Vm.Isolation

set_option autoImplicit false

/-!
# Failing `fork` and `exec`

The page frames that `fork` and `exec` take and give back. `kalloc` returns 0 when the free list is
empty, so the number of free pages says at which call it starts to.
-/

namespace Xv6.Vm.Frames

open Sys Memory

-- `allocproc` and `copyuvm`: the kernel stack and the directory of the child, or a return of -1.
def fork (img : Image) (st : Phys) (slot : Bool) (pgdir sz : Nat) : Except Panic (Option (Nat × Nat) × Phys) :=
  if slot then
    match kalloc st with
    | none => .ok (none, st)
    | some (kstack, st) => do
      match ← copyuvm img st pgdir sz with
      | (none, st) =>
        let st ← kfree img st kstack
        return (none, st)
      | (some d, st) => return (some (kstack, d), st)
  else .ok (none, st)

/-- The pages that `exec` asks `allocuvm` for before it stops. -/
def Reach.asked : Reach → Nat
  | .refused pages => pages
  | .reached _ plan => plan.pages
  | _ => 0

def Valid (x : Executable) : Prop := ∃ elf, x.elfHdr = some elf ∧ elf.magic = ELF_MAGIC

variable {img : Image} {st : Phys} {space : Nat → Option Space} {use : Nat → Use} {g : Nat} {A : Space}

def tablesFor (n : Nat) : Nat := (n + 1023) / 1024

/-- The first `n` user pages of a new directory have been asked for, out of `free` pages. With a page lost
none is left. -/
structure Built (img : Image) (free : Nat) (space : Nat → Option Space) (use : Nat → Use) (g : Nat) (st : Phys)
    (A : Space) (n : Nat) (lost : List Nat) : Prop where
  works : Works img space use g lost st A
  fresh : ∀ v < USERPAGES, n ≤ v → present (A.entry v) = false
  tables : lost = [] → ∀ d < 512, A.table d ≠ none ↔ 1024 * d < n
  count : lost = [] → st.freelist.length + 65 + n + tablesFor n = free
  spent : lost ≠ [] → st.freelist = [] ∧ ∃ j, 1024 * j < n ∧ free = 66 + 1025 * j

theorem Built.page {free n : Nat} (built : Built img free space use g st A n []) (user : n < USERPAGES) (mem : Nat)
    (rest : List Nat) (first : st.freelist = mem :: rest) (page : Page) (perm : Nat)
    (small : perm ||| PTE_P < PGSIZE) {b : Bool} {st' : Phys}
    (ok : mappages ({ st with freelist := rest }.setPage mem page) g (n * PGSIZE) PGSIZE (mem * PGSIZE) perm =
      .ok (b, st')) :
    ∃ A' lost, Built img free space use g st' A' (n + 1) lost ∧ (b = true ↔ lost = []) := by
  obtain ⟨use₁, owns₁, moves⟩ := built.works
  have count := built.count rfl
  rw [first, List.length_cons] at count
  have index : n / NPTENTRIES < 512 := by
    simp only [USERPAGES, KERNBASE, PGSIZE, NPTENTRIES] at user ⊢
    omega
  have table := built.tables rfl _ index
  have fresh (v : Nat) (userV : v < USERPAGES) (le : n + 1 ≤ v) := built.fresh v userV (by omega)
  rcases mapPage_works owns₁ (Function.update_self _ _ _) n user mem rest first page perm small ok with
    ⟨failed, missing, last, empty, works⟩ | ⟨done, A', works, entries, provided⟩
  · -- The page opens a region, so all the tables before it are there.
    have opens : ¬ 1024 * (n / NPTENTRIES) < n := fun more => table.mpr more missing
    refine ⟨A, [mem], ⟨Works.trans moves works, fresh, by simp, by simp, ?_⟩, by simp [failed]⟩
    intro _
    rw [last, List.length_nil] at count
    simp only [tablesFor, NPTENTRIES] at count opens
    exact ⟨empty, n / 1024, by omega, by omega⟩
  · refine ⟨A', [], ⟨Works.trans moves works, ?_, ?_, ?_, by simp⟩, by simp [done]⟩
    · intro v userV le
      rw [entries, Function.update_of_ne (by omega)]
      exact fresh v userV le
    · intro _ d small
      rcases provided with ⟨there, tables, -⟩ | ⟨missing, t, -, tables⟩
      · have inside := table.mp there
        rw [tables, built.tables rfl d small]
        simp only [NPTENTRIES] at inside
        omega
      · have opens : ¬ 1024 * (n / NPTENTRIES) < n := fun more => table.mpr more missing
        simp only [NPTENTRIES] at opens tables
        rw [tables]
        by_cases same : d = n / 1024
        · rw [same, Function.update_self]
          simp only [ne_eq, reduceCtorEq, not_false_eq_true, true_iff]
          omega
        · rw [Function.update_of_ne same, built.tables rfl d small]
          omega
    · intro _
      rcases provided with ⟨there, -, free⟩ | ⟨missing, t, free, -⟩
      · have inside := table.mp there
        have left : st'.freelist = rest := free
        rw [left]
        simp only [tablesFor, NPTENTRIES] at count inside ⊢
        omega
      · have opens : ¬ 1024 * (n / NPTENTRIES) < n := fun more => table.mpr more missing
        have left : rest = t :: st'.freelist := free
        rw [left, List.length_cons] at count
        simp only [tablesFor, NPTENTRIES] at count opens ⊢
        omega

/-- Memory ran out, or the run stopped for another reason, after asking for `pages` pages. -/
structure Failed (img : Image) (free : Nat) (space : Nat → Option Space) (use : Nat → Use) (g : Nat) (st : Phys)
    (pages : Nat) (lost : List Nat) : Prop where
  works : ∃ A, Works img space use g lost st A
  enough : 65 ≤ free
  leaks : lost ≠ [] ↔ ∃ j, 1024 * j < pages ∧ free = 66 + 1025 * j

theorem Built.failed {free n : Nat} {lost : List Nat} (built : Built img free space use g st A n lost) :
    Failed img free space use g st n lost := by
  by_cases none_ : lost = []
  · have count := built.count none_
    refine ⟨⟨A, built.works⟩, by omega, ?_⟩
    simp only [none_, ne_eq, not_true_eq_false, false_iff, not_exists]
    rintro j ⟨low, few⟩
    simp only [tablesFor] at count
    omega
  · obtain ⟨-, j, low, few⟩ := built.spent none_
    exact ⟨⟨A, built.works⟩, by omega, fun _ => ⟨j, low, few⟩, fun _ => none_⟩

theorem Failed.deallocuvm {free pages oldsz newsz : Nat} {lost : List Nat}
    (failed : Failed img free space use g st pages lost) (below : oldsz ≤ KERNBASE) {st' : Phys}
    (ok : Vm.deallocuvm img st g oldsz newsz = .ok st') : Failed img free space use g st' pages lost := by
  obtain ⟨A, use₁, owns₁, moves⟩ := failed.works
  obtain ⟨st'', A', ok', works, -⟩ := deallocuvm_works oldsz newsz below owns₁ (Function.update_self _ _ _)
  rw [ok] at ok'
  cases ok'
  have total := Works.trans moves works
  rw [List.append_nil] at total
  exact ⟨⟨A', total⟩, failed.enough, failed.leaks⟩

/-- A call of `allocuvm` up to a size. -/
def Grew (img : Image) (free : Nat) (space : Nat → Option Space) (use : Nat → Use) (g : Nat) (r : Grown)
    (newsz : Nat) : Prop :=
  (r.sz = newsz ∧ ∃ A lost, Built img free space use g r.st A (pagesOf newsz) lost) ∨
    (r.sz = 0 ∧ 0 < newsz ∧ ∃ lost, Failed img free space use g r.st (pagesOf newsz) lost)

theorem Owns.stored {st' : Phys} (owns : Owns img st space use) (live : space g = some A) (stored : Stored g st st') :
    Owns img st' space use := by
  have mine {p v : Nat} (user : v < USERPAGES) (there : st.userPage g v = some p) : use p = .user g v :=
    owns.use_userPage live user there
  refine ⟨?_, ?_, ?_, owns.allocatable, ?_, owns.inDir⟩
  · rw [stored.freelist]
    exact owns.refers
  · rw [stored.freelist]
    exact owns.referred
  · rw [stored.freelist]
    exact owns.nodup
  · intro h B liveB
    refine (owns.rep h B liveB).congr (stored.kept h ?_) fun d t at_ => stored.kept t ?_
    · intro v user there
      simpa [owns.use_dir liveB] using mine user there
    · intro v user there
      simpa [owns.use_table liveB at_] using mine user there

theorem Works.stored {lost : List Nat} {st' : Phys} (works : Works img space use g lost st A) (stored : Stored g st st') :
    Works img space use g lost st' A := by
  obtain ⟨use', owns, moves⟩ := works
  exact ⟨use', Owns.stored owns (Function.update_self _ _ _) stored, moves⟩

theorem Built.stored {free n : Nat} {lost : List Nat} {st' : Phys} (built : Built img free space use g st A n lost)
    (stored : Stored g st st') : Built img free space use g st' A n lost where
  works := Works.stored built.works stored
  fresh := built.fresh
  tables := built.tables
  count := by
    rw [stored.freelist]
    exact built.count
  spent := by
    rw [stored.freelist]
    exact built.spent

theorem Failed.stored {free n : Nat} {lost : List Nat} {st' : Phys} (failed : Failed img free space use g st n lost)
    (stored : Stored g st st') : Failed img free space use g st' n lost := by
  obtain ⟨A, works⟩ := failed.works
  exact ⟨⟨A, Works.stored works stored⟩, failed.enough, failed.leaks⟩

theorem Built.later {free n pages : Nat} {lost : List Nat} (built : Built img free space use g st A n lost)
    (some_ : lost ≠ []) (le : n ≤ pages) : Failed img free space use g st pages lost := by
  obtain ⟨-, j, low, few⟩ := built.spent some_
  exact ⟨⟨A, built.works⟩, by omega, fun _ => ⟨j, by omega, few⟩, fun _ => some_⟩

section Exec

variable {pages : Nat} {lost : List Nat} {st₀ st' : Phys} {role : Nat → Role}

end Exec

/-- A state of the machine, and the directory of the process that makes the call. -/
structure Running (img : Image) where
  pool : Pool
  sound : ∃ space use, pool.Sound img space use
  pgdir : Nat
  inUse : pgdir ∈ pool.dirs

def Running.free {img : Image} (k : Running img) : Nat := k.pool.phys.freelist.length

def Running.size {img : Image} (k : Running img) : Nat := k.pool.size k.pgdir

end Xv6.Vm.Frames
