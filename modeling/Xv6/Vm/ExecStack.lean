import Xv6.Vm.ArgStack

set_option autoImplicit false

/-!
# When `exec` builds its stack safely

The pointer goes down by the lengths of the strings, in words that wrap. The strings are safe as long as the
pointer stays in the stack page, and refused where it comes to lie below it or at a kernel entry; between the
memory that the kernel maps and its devices there is no table, and `copyout` reads an entry that is not there.
-/

namespace Xv6.Vm

open Sys Memory

variable {img : Image} {st st₀ : Phys} {g n q : Nat} {A : Space} {role : Nat → Role}

/-- A string or the vector is sent to an address without a page table. -/
def Strays (sz : Nat) (hole : Bool) : List (List UInt8) → Nat → Prop
  | [], _ => hole = true
  | s :: rest, sp =>
    let next := lower sp (s.length + 1)
    (sz - PGSIZE ≤ next ∧ next < sz ∧ (hole = true ∨ Strays sz hole rest next)) ∨
      (KERNBASE + PHYSTOP ≤ next ∧ next < DEVSPACE)

-- The stack page in memory holds these bytes from address `a` on.
def InPage (st : Phys) (q base a : Nat) (bytes : List UInt8) : Prop :=
  ∀ k < bytes.length, Bytes.getByte (st.mem q) (a + k - base) = bytes.getD k 0

theorem copyout_stack {hole : Bool} {va : Nat} {buf : List UInt8} (part : StackPart img st g A role n hole)
    (value : A.entry (n + 1) = userEntry q) (some_ : 0 < buf.length) (low : (n + 1) * PGSIZE ≤ va)
    (fits : va + buf.length ≤ (n + 2) * PGSIZE) :
    copyout st g va buf =
      (.done, st.setPage q (Bytes.putBytes (st.mem q) (va - (n + 1) * PGSIZE) buf.length fun k => buf.getD k 0)) := by
  have page : va / PGSIZE = n + 1 := by
    simp only [PGSIZE] at *
    omega
  have offset : va % PGSIZE = va - (n + 1) * PGSIZE := by
    simp only [PGSIZE] at *
    omega
  have within : va % PGSIZE + buf.length ≤ PGSIZE := by
    simp only [PGSIZE] at *
    omega
  have found := part.inv.rep.uva2ka_user (part.inside (v := n + 1) (by omega)) value
  rw [← page] at found
  rw [copyout_page some_ found within, offset]

theorem copyout_missing {va : Nat} {buf : List UInt8} (part : StackPart img st g A role n true) (some_ : 0 < buf.length)
    (low : (n + 1) * PGSIZE ≤ va) (high : va < (n + 2) * PGSIZE) : copyout st g va buf = (.nullPte, st) := by
  have page : va / PGSIZE = n + 1 := by
    simp only [PGSIZE] at *
    omega
  apply (copyout_first some_).2
  rw [page]
  exact part.inv.rep.uva2ka_missing (part.inside (by omega)) (part.missing rfl)

theorem InPage.stored {base va a : Nat} {buf bytes : List UInt8} (held : InPage st q base a bytes) (low : base ≤ va)
    (apart : va + buf.length ≤ a) :
    InPage (st.setPage q (Bytes.putBytes (st.mem q) (va - base) buf.length fun k => buf.getD k 0)) q base a bytes := by
  intro k inside
  rw [← held k inside]
  simp only [Phys.setPage, Function.update_self, Bytes.getByte_putBytes]
  rw [if_neg (by omega)]

theorem inPage_stored (st : Phys) (q : Nat) (buf : List UInt8) {base va : Nat} (low : base ≤ va)
    (fits : va + buf.length ≤ base + PGSIZE) :
    InPage (st.setPage q (Bytes.putBytes (st.mem q) (va - base) buf.length fun k => buf.getD k 0)) q base va buf := by
  intro k inside
  simp only [Phys.setPage, Function.update_self, Bytes.getByte_putBytes]
  rw [if_pos (by omega)]
  congr 1
  omega

/-- The strings pushed so far, at their pointers and not below `sp`. -/
def Placed (st : Phys) (q n sp : Nat) : List Nat → List (List UInt8) → Prop :=
  List.Forall₂ fun ptr s =>
    sp ≤ ptr ∧ ptr + (s ++ [0]).length ≤ (n + 2) * PGSIZE ∧ InPage st q ((n + 1) * PGSIZE) ptr (s ++ [0])

theorem Placed.stored {sp va : Nat} {ustack : List Nat} {done : List (List UInt8)} {buf : List UInt8}
    (placed : Placed st q n sp ustack done) (low : (n + 1) * PGSIZE ≤ va) (below : va + buf.length ≤ sp) :
    Placed (st.setPage q (Bytes.putBytes (st.mem q) (va - (n + 1) * PGSIZE) buf.length fun k => buf.getD k 0)) q n va
      ustack done := by
  refine placed.imp ?_
  intro ptr s held
  obtain ⟨above, fits, bytes⟩ := held
  exact ⟨by omega, fits, bytes.stored low (by omega)⟩

theorem lower_cases {sp : Nat} (len : Nat) (low : (n + 1) * PGSIZE ≤ sp) (high : sp ≤ (n + 2) * PGSIZE)
    (top : (n + 2) * PGSIZE < KERNBASE) (short : len ≤ KERNBASE) :
    ((n + 1) * PGSIZE ≤ lower sp len ∧ lower sp len + len ≤ sp ∧ lower sp len % 4 = 0) ∨
      (lower sp len < (n + 1) * PGSIZE ∧ n * PGSIZE < lower sp len + len) ∨
      (KERNBASE ≤ lower sp len ∧ lower sp len < 2 ^ 32) := by
  simp only [lower, KERNBASE, PGSIZE] at *
  omega

theorem copyout_outside {hole : Bool} {va : Nat} {buf : List UInt8} (part : StackPart img st g A role n hole)
    (some_ : 0 < buf.length)
    (outside : (va < (n + 1) * PGSIZE ∧ n * PGSIZE < va + buf.length) ∨ (KERNBASE ≤ va ∧ va < 2 ^ 32)) :
    ((KERNBASE + PHYSTOP ≤ va ∧ va < DEVSPACE) ∧ copyout st g va buf = (.nullPte, st)) ∨
      (¬ (KERNBASE + PHYSTOP ≤ va ∧ va < DEVSPACE) ∧ (copyout st g va buf).1 = .failed) := by
  rcases outside with ⟨below, reaches⟩ | ⟨kernel, word⟩
  · right
    refine ⟨?_, copyoutLoop_guard _ va buf part below reaches some_ (Nat.le_refl _)⟩
    have top := part.top
    simp only [KERNBASE, PHYSTOP, PGSIZE] at *
    omega
  · have run := copyout_kernel part some_ kernel word
    by_cases gap : KERNBASE + PHYSTOP ≤ va ∧ va < DEVSPACE
    · rw [if_pos gap] at run
      exact Or.inl ⟨gap, run⟩
    · rw [if_neg gap] at run
      exact Or.inr ⟨gap, by rw [run]⟩

/-- How the loop over the arguments ends: astray, in a refusal, or with all strings in the stack page. -/
def PushOutcome (n q : Nat) (pushed : Pushed) (argv : List (List UInt8)) : CopyEnd → Prop
  | .nullPte => False
  | .failed => True
  | .done => (n + 1) * PGSIZE ≤ pushed.sp ∧ pushed.sp ≤ (n + 2) * PGSIZE ∧
      Placed pushed.st q n pushed.sp pushed.ustack argv

theorem pushArgs_outcome (part : StackPart img st g A role n false)
    (value : A.entry (n + 1) = userEntry q) (argv done : List (List UInt8)) (sp : Nat) (ustack : List Nat)
    (low : (n + 1) * PGSIZE ≤ sp) (high : sp ≤ (n + 2) * PGSIZE) (placed : Placed st q n sp ustack done)
    (short : ∀ s ∈ argv, s.length < KERNBASE) (few : ustack.length + argv.length ≤ MAXARG) :
    ((pushArgs g argv sp ustack st).stop = .nullPte ∧ Strays ((n + 2) * PGSIZE) false argv sp) ∨
      (¬ Strays ((n + 2) * PGSIZE) false argv sp ∧
        PushOutcome n q (pushArgs g argv sp ustack st) (done ++ argv) (pushArgs g argv sp ustack st).stop) := by
  induction argv generalizing st done sp ustack with
  | nil =>
    right
    rw [List.append_nil]
    exact ⟨by simp [Strays], low, high, placed⟩
  | cons s rest ih =>
    have room : ¬ ustack.length ≥ MAXARG := by
      rw [List.length_cons] at few
      omega
    have bytes : (s ++ [0]).length = s.length + 1 := by simp
    have some_ : 0 < (s ++ [0]).length := by omega
    have top := part.top
    have base : (n + 2) * PGSIZE - PGSIZE = (n + 1) * PGSIZE := by
      simp only [PGSIZE]
      omega
    rw [pushArgs, if_neg room, Strays]
    dsimp only
    rw [base]
    have place := lower_cases (s.length + 1) low high top (short s List.mem_cons_self)
    generalize lower sp (s.length + 1) = next at place
    rcases place with ⟨above, fits, -⟩ | outside
    · -- The string is in the stack page, and those before it are above.
      have inside : next < (n + 2) * PGSIZE := by omega
      have notKernel : ¬ (KERNBASE + PHYSTOP ≤ next ∧ next < DEVSPACE) := by omega
      rw [← bytes] at fits
      rw [copyout_stack part value some_ above (by omega)]
      dsimp only
      have held := placed.stored above fits
      have fresh := inPage_stored st q (s ++ [0]) above (by
        rw [← Nat.succ_mul]
        exact Nat.le_trans fits high)
      have all := List.rel_append held (List.Forall₂.cons ⟨Nat.le_refl next, Nat.le_trans fits high, fresh⟩ .nil)
      have rest' := ih (part.stored (part.store (by omega) value _)) (done ++ [s]) next (ustack ++ [next]) above (Nat.le_of_lt inside) all
        (fun t member => short t (List.mem_cons_of_mem s member))
        (by rw [List.length_append, List.length_singleton]; rw [List.length_cons] at few; omega)
      rw [List.append_assoc, List.singleton_append] at rest'
      simpa [above, inside, notKernel] using rest'
    · have strays : ¬ ((n + 1) * PGSIZE ≤ next ∧ next < (n + 2) * PGSIZE ∧
          (false = true ∨ Strays ((n + 2) * PGSIZE) false rest next)) := by omega
      rw [← bytes] at outside
      rcases copyout_outside part some_ outside with ⟨gap, run⟩ | ⟨covered, run⟩
      · rw [run]
        exact Or.inl ⟨rfl, Or.inr gap⟩
      · generalize copyout st g next (s ++ [0]) = copied at run
        obtain ⟨stop, st'⟩ := copied
        cases run
        exact Or.inr ⟨not_or.mpr ⟨strays, covered⟩, trivial⟩

-- A byte that the user can read.
def userByte (st : Phys) (pgdir va : Nat) : Option UInt8 :=
  match uva2ka st pgdir (va / PGSIZE * PGSIZE) with
  | .page p => some (Bytes.getByte (st.mem p) (va % PGSIZE))
  | _ => none

def InUser (st : Phys) (pgdir va : Nat) (bytes : List UInt8) : Prop :=
  ∀ k < bytes.length, userByte st pgdir (va + k) = some (bytes.getD k 0)

/-- The stack of a new image: a return address, `argc`, a pointer to the vector, the vector and its end, and the
strings it leads to, in one page above a page that the user cannot reach. -/
structure ArgStack (st : Phys) (pgdir sz sp : Nat) (argv : List (List UInt8)) (ptrs : List Nat) : Prop where
  words : InUser st pgdir sp (wordBytes ([0xffffffff, argv.length, sp + 12] ++ ptrs ++ [0]))
  low : sz - PGSIZE ≤ sp
  high : sp + 4 * (argv.length + 4) ≤ sz
  strings : List.Forall₂ (fun ptr s =>
    InUser st pgdir ptr (s ++ [0]) ∧ sz - PGSIZE ≤ ptr ∧ ptr + (s.length + 1) ≤ sz) ptrs argv
  guard : uva2ka st pgdir (sz - 2 * PGSIZE) = .zero

/-- `exec` returns -1, or 0 with a sound stack. -/
def ExecEnd.Safe (argv : List (List UInt8)) : ExecEnd → Prop
  | .failed _ => True
  | .started pgdir sz sp st => ∃ ptrs, ArgStack st pgdir sz sp argv ptrs
  | .panic _ => False
  | .nullPte => False

theorem wordBytes_length (words : List Nat) : (wordBytes words).length = 4 * words.length := by
  simp [wordBytes, List.length_flatMap]
  omega

-- The address space of the caller is where it was while the new one is built from free pages.
theorem Inv.beside {old : Nat} {A₀ : Space} {role₀ : Nat → Role} (inv₀ : Inv img st₀ old A₀ role₀)
    (inv : Inv img st g A role) (priv : Private (· ∈ st₀.freelist) st₀ st g A) :
    (∃ role', Inv img st old A₀ role') ∧
      Private (fun p => p ∈ st₀.freelist → p ∈ st.freelist) st st old A₀ := by
  have dirUsed : old ∉ st₀.freelist := by
    rw [inv₀.owned.free, inv₀.owned.dir]
    simp
  have tableUsed : ∀ d t, A₀.table d = some t → t ∉ st₀.freelist := by
    intro d t at_
    rw [inv₀.owned.free, inv₀.owned.table d t at_]
    simp
  have userUsed : ∀ v < USERPAGES, present (A₀.entry v) = true → pteAddr (A₀.entry v) ∉ st₀.freelist := by
    intro v below there
    rw [inv₀.owned.free, inv₀.owned.user v below there]
    simp
  constructor
  · refine ⟨fun p => if p ∈ st.freelist then .free else if p ∈ st₀.freelist then .other else role₀ p, ?_, ?_⟩
    · exact inv₀.rep.congr (priv.kept old dirUsed) fun d t at_ => priv.kept t (tableUsed d t at_)
    · constructor
      case free =>
        intro p
        by_cases left : p ∈ st.freelist
        · simp [left]
        · by_cases free : p ∈ st₀.freelist
          · simp [left, free]
          · have used : role₀ p ≠ .free := fun same => free ((inv₀.owned.free p).mpr same)
            simp [left, free, used]
      case nodup => exact inv.owned.nodup
      case dir =>
        rw [if_neg fun member => dirUsed (priv.free old member), if_neg dirUsed]
        exact inv₀.owned.dir
      case table =>
        intro d t at_
        rw [if_neg fun member => tableUsed d t at_ (priv.free t member), if_neg (tableUsed d t at_)]
        exact inv₀.owned.table d t at_
      case user =>
        intro v below there
        rw [if_neg fun member => userUsed v below there (priv.free _ member), if_neg (userUsed v below there)]
        exact inv₀.owned.user v below there
      case allocatable =>
        intro p known
        by_cases left : p ∈ st.freelist
        · exact inv₀.owned.allocatable p (by rw [(inv₀.owned.free p).mp (priv.free p left)]; simp)
        · by_cases free : p ∈ st₀.freelist
          · simp [left, free] at known
          · simp only [left, free, if_false] at known
            exact inv₀.owned.allocatable p known
  · exact ⟨fun p member _ => member, fun free => (dirUsed free).elim, fun d t at_ free => (tableUsed d t at_ free).elim,
      fun v below there free => (userUsed v below there free).elim, fun _ _ => rfl⟩

theorem commit_keeps {old : Nat} {A₀ : Space} {role₀ : Nat → Role} (inv₀ : Inv img st₀ old A₀ role₀)
    (inv : Inv img st g A role) (priv : Private (· ∈ st₀.freelist) st₀ st g A) :
    ∃ st', freevm img st old = .ok st' ∧ Rep st'.mem g A ∧
      ∀ v < USERPAGES, present (A.entry v) = true → st'.mem (pteAddr (A.entry v)) = st.mem (pteAddr (A.entry v)) := by
  obtain ⟨⟨role', oldInv⟩, oldPriv⟩ := inv₀.beside inv priv
  obtain ⟨st', freed⟩ := freevm_ok oldInv
  have kept := (oldPriv.freevm oldInv freed).1
  have mine {p : Nat} (free : p ∈ st₀.freelist) (used : role p ≠ .free) : st'.mem p = st.mem p := by
    apply kept
    intro back
    exact used ((inv.owned.free p).mp (back free))
  refine ⟨st', freed, ?_, ?_⟩
  · refine inv.rep.congr (mine priv.dir (by rw [inv.owned.dir]; simp)) ?_
    intro d t at_
    exact mine (priv.tables d t at_) (by rw [inv.owned.table d t at_]; simp)
  · intro v below there
    exact mine (priv.user v below there) (by rw [inv.owned.user v below there]; simp)

theorem InPage.inUser {st' : Phys} {a : Nat} {bytes : List UInt8} (held : InPage st q ((n + 1) * PGSIZE) a bytes)
    (rep : Rep st'.mem g A) (same : st'.mem q = st.mem q) (value : A.entry (n + 1) = userEntry q)
    (inside : n + 1 < ALLPAGES) (low : (n + 1) * PGSIZE ≤ a) (high : a + bytes.length ≤ (n + 2) * PGSIZE) :
    InUser st' g a bytes := by
  intro k counted
  have page : (a + k) / PGSIZE = n + 1 := by
    simp only [PGSIZE] at *
    omega
  have offset : (a + k) % PGSIZE = a + k - (n + 1) * PGSIZE := by
    simp only [PGSIZE] at *
    omega
  rw [userByte, page, rep.uva2ka_user inside value, offset]
  simp only [same, held k counted]

section Caller

variable {old : Nat} {A₀ : Space} {role₀ : Nat → Role} {argv : List (List UInt8)}

theorem bad_safe (inv : Inv img st g A role) : (bad img st g).Safe argv := by
  obtain ⟨st', freed⟩ := freevm_ok inv
  rw [bad, freed]
  trivial

theorem pushStack_stop {sz : Nat} (stop : (pushArgs g argv sz [] st).stop = .nullPte) :
    pushStack img old g sz argv st = .nullPte := by
  rw [pushStack]
  dsimp only
  rw [stop]

theorem pushStack_bad {sz : Nat} (stop : (pushArgs g argv sz [] st).stop = .failed) :
    pushStack img old g sz argv st = bad img (pushArgs g argv sz [] st).st g := by
  rw [pushStack]
  dsimp only
  rw [stop]

theorem pushStack_done {sz va : Nat} {pushed : Pushed} (run : pushArgs g argv sz [] st = pushed)
    (stop : pushed.stop = .done) (word : (pushed.sp + 2 ^ 32 - (3 + pushed.ustack.length + 1) * 4) % 2 ^ 32 = va) :
    pushStack img old g sz argv st =
      commit img old g sz va (copyout pushed.st g va (wordBytes (vector pushed.sp pushed.ustack))) := by
  rw [pushStack, run]
  dsimp only
  rw [stop, word]

section Vector

-- To unfold the goal would run `copyout`, which is known by its lemmas.
attribute [local irreducible] ExecEnd.Safe

variable {sp va : Nat} {ustack : List Nat} (part : StackPart img st g A role n false)
  (placed : Placed st q n sp ustack argv) (below : va + 4 * (argv.length + 4) = sp)

include placed

theorem vector_length : (wordBytes (vector sp ustack)).length = 4 * (argv.length + 4) := by
  rw [wordBytes_length, vector, ← placed.length_eq]
  simp

include part below

-- The vector lies in the stack page, below the strings.
theorem commit_inside (inv₀ : Inv img st₀ old A₀ role₀) (priv : Private (· ∈ st₀.freelist) st₀ st g A)
    (value : A.entry (n + 1) = userEntry q) (fits : (n + 1) * PGSIZE ≤ va) (high : sp ≤ (n + 2) * PGSIZE) :
    (commit img old g ((n + 2) * PGSIZE) va (copyout st g va (wordBytes (vector sp ustack)))).Safe argv := by
  have count : ustack.length = argv.length := placed.length_eq
  have length := vector_length placed
  have inside := part.inside (v := n + 1) (by omega)
  have base : (n + 2) * PGSIZE - PGSIZE = (n + 1) * PGSIZE := by
    simp only [PGSIZE]
    omega
  have guard : (n + 2) * PGSIZE - 2 * PGSIZE = n * PGSIZE := by
    rw [← Nat.sub_mul, Nat.add_sub_cancel]
  have pointer : (sp + 2 ^ 32 - (ustack.length + 1) * 4) % 2 ^ 32 = va + 12 := by
    have top := part.top
    simp only [count, KERNBASE, PGSIZE] at *
    omega
  have words : vector sp ustack = [0xffffffff, argv.length, va + 12] ++ ustack ++ [0] := by
    rw [vector, pointer, count]
  have ends : va + (wordBytes (vector sp ustack)).length ≤ (n + 2) * PGSIZE := by omega
  rw [copyout_stack part value (by omega) fits ends, commit]
  have held := placed.stored fits (length.symm ▸ below.le)
  have fresh := inPage_stored st q (wordBytes (vector sp ustack)) fits (by rwa [← Nat.succ_mul])
  have there : present (A.entry (n + 1)) = true := by
    rw [value]
    exact present_userEntry q
  have stored := part.store (v := n + 1) (by omega) value
  obtain ⟨st', freed, rep, same⟩ := commit_keeps inv₀ (part.stored (stored _)).inv (priv.stored part.inv.rep (stored _))
  have sameStack := same (n + 1) (part.user (by omega)) there
  rw [value, pteAddr_userEntry] at sameStack
  rw [freed, ExecEnd.Safe]
  refine ⟨ustack, ?_, ?_, ?_, ?_, ?_⟩
  · rw [← words]
    exact fresh.inUser rep sameStack value inside fits ends
  · rw [base]
    exact fits
  · omega
  · rw [base]
    refine held.imp ?_
    intro ptr s at_
    obtain ⟨above, ends, bytes⟩ := at_
    refine ⟨bytes.inUser rep sameStack value inside (Nat.le_trans fits above) ends, Nat.le_trans fits above, ?_⟩
    rw [List.length_append, List.length_singleton] at ends
    exact ends
  · rw [guard]
    exact rep.uva2ka_closed (part.inside (by omega)) part.guard.1 part.guard.2

-- It reaches below the stack page: `copyout` comes to the guard page and fails.
theorem commit_outside (low : (n + 1) * PGSIZE ≤ sp) (misfit : va < (n + 1) * PGSIZE) :
    (commit img old g ((n + 2) * PGSIZE) va (copyout st g va (wordBytes (vector sp ustack)))).Safe argv := by
  have length := vector_length placed
  have top := part.top
  have outside : va < (n + 1) * PGSIZE ∧ n * PGSIZE < va + (wordBytes (vector sp ustack)).length := by
    simp only [PGSIZE] at *
    omega
  rcases copyout_outside part (by omega) (Or.inl outside) with ⟨gap, -⟩ | ⟨-, failed⟩
  · simp only [KERNBASE, PHYSTOP, PGSIZE] at *
    omega
  · have stored := part.copyout_stored va (by simp only [KERNBASE, PGSIZE] at *; omega) (wordBytes (vector sp ustack))
    generalize copyout st g va (wordBytes (vector sp ustack)) = copied at failed stored
    obtain ⟨stop, st'⟩ := copied
    cases failed
    exact bad_safe (part.inv.stored stored)

omit part placed below

-- The strings are in place; the vector goes below them, or into the guard page.
theorem vector_safe {pushed : Pushed} (inv₀ : Inv img st₀ old A₀ role₀)
    (part : StackPart img pushed.st g A role n false) (priv : Private (· ∈ st₀.freelist) st₀ pushed.st g A)
    (value : A.entry (n + 1) = userEntry q) (low : (n + 1) * PGSIZE ≤ pushed.sp) (high : pushed.sp ≤ (n + 2) * PGSIZE)
    (placed : Placed pushed.st q n pushed.sp pushed.ustack argv) (few : argv.length < MAXARG)
    (stop : pushed.stop = .done) (run : pushArgs g argv ((n + 2) * PGSIZE) [] st = pushed) :
    (pushStack img old g ((n + 2) * PGSIZE) argv st).Safe argv := by
  have count : pushed.ustack.length = argv.length := placed.length_eq
  have top := part.top
  obtain ⟨va, below⟩ : ∃ va, va + 4 * (argv.length + 4) = pushed.sp :=
    ⟨pushed.sp - 4 * (argv.length + 4), by simp only [PGSIZE, MAXARG] at *; omega⟩
  have word : (pushed.sp + 2 ^ 32 - (3 + pushed.ustack.length + 1) * 4) % 2 ^ 32 = va := by
    simp only [count, KERNBASE, PGSIZE] at *
    omega
  rw [pushStack_done run stop word]
  by_cases fits : (n + 1) * PGSIZE ≤ va
  · exact commit_inside part placed below inv₀ priv value fits high
  · exact commit_outside part placed below low (Nat.not_le.mp fits)

end Vector

theorem pushStack_null (img : Image) (old : Nat) {sz : Nat} (stop : (pushArgs g argv sz [] st).stop = .nullPte) :
    ¬ (pushStack img old g sz argv st).Safe argv := by
  rw [pushStack_stop stop]
  exact id

theorem pushStack_failed {sz : Nat} (stop : (pushArgs g argv sz [] st).stop = .failed)
    (inv : Inv img (pushArgs g argv sz [] st).st g A role) : (pushStack img old g sz argv st).Safe argv := by
  rw [pushStack_bad stop]
  exact bad_safe inv

theorem pushArgs_stops (rest : List (List UInt8)) {s : List UInt8} {sp : Nat} {stop : CopyEnd} {st' : Phys}
    (copied : copyout st g (lower sp (s.length + 1)) (s ++ [0]) = (stop, st')) (stops : stop ≠ .done) :
    pushArgs g (s :: rest) sp [] st = ⟨stop, lower sp (s.length + 1), [], st'⟩ := by
  rw [pushArgs, if_neg (by simp)]
  dsimp only
  rw [copied]
  cases stop with
  | done => exact absurd rfl stops
  | _ => rfl

-- With the stack page lost, the first copy to it is astray.
theorem pushStack_hole (part : StackPart img st g A role n true)
    (short : ∀ s ∈ argv, s.length < KERNBASE) :
    (pushStack img old g ((n + 2) * PGSIZE) argv st).Safe argv ↔ ¬ Strays ((n + 2) * PGSIZE) true argv ((n + 2) * PGSIZE) := by
  have top := part.top
  have base : (n + 2) * PGSIZE - PGSIZE = (n + 1) * PGSIZE := by
    simp only [PGSIZE]
    omega
  cases argv with
  | nil =>
    have word : ((n + 2) * PGSIZE + 2 ^ 32 - (3 + ([] : List Nat).length + 1) * 4) % 2 ^ 32 = (n + 2) * PGSIZE - 16 := by
      rw [List.length_nil]
      simp only [KERNBASE, PGSIZE] at *
      omega
    have null : copyout st g ((n + 2) * PGSIZE - 16) (wordBytes (vector ((n + 2) * PGSIZE) [])) = (.nullPte, st) := by
      apply copyout_missing part
      · rw [wordBytes_length]
        simp [vector]
      · simp only [PGSIZE]
        omega
      · simp only [PGSIZE]
        omega
    have run : pushArgs g [] ((n + 2) * PGSIZE) [] st = ⟨.done, (n + 2) * PGSIZE, [], st⟩ := by rw [pushArgs]
    rw [pushStack_done run rfl word, null, commit]
    exact ⟨fun safe => safe.elim, fun straight => (straight rfl).elim⟩
  | cons s rest =>
    have bytes : (s ++ [0]).length = s.length + 1 := by simp
    have some_ : 0 < (s ++ [0]).length := by omega
    have place := lower_cases (n := n) (s.length + 1) (by rw [← base]; omega) (Nat.le_refl _) top (short s List.mem_cons_self)
    rw [Strays, base]
    generalize next_eq : lower ((n + 2) * PGSIZE) (s.length + 1) = next at place
    rcases place with ⟨above, fits, -⟩ | outside
    · have inside : next < (n + 2) * PGSIZE := by omega
      have missing := copyout_missing part some_ above inside
      rw [← next_eq] at missing
      have stop := pushStack_null img old (congrArg Pushed.stop (pushArgs_stops rest missing (by simp)))
      exact ⟨fun safe => (stop safe).elim, fun straight => (straight (Or.inl ⟨above, inside, Or.inl rfl⟩)).elim⟩
    · have away : ¬ ((n + 1) * PGSIZE ≤ next ∧ next < (n + 2) * PGSIZE ∧
          (true = true ∨ Strays ((n + 2) * PGSIZE) true rest next)) := by omega
      rw [← bytes] at outside
      rcases copyout_outside part some_ outside with ⟨gap, run⟩ | ⟨covered, run⟩
      · rw [← next_eq] at run
        have stop := pushStack_null img old (congrArg Pushed.stop (pushArgs_stops rest run (by simp)))
        exact ⟨fun safe => (stop safe).elim, fun straight => (straight (Or.inr gap)).elim⟩
      · rw [← next_eq] at run
        have turn := pushArgs_stops rest (Prod.eta (copyout st g _ (s ++ [0]))).symm (by rw [run]; simp)
        refine ⟨fun _ => not_or.mpr ⟨away, covered⟩, fun _ => ?_⟩
        exact pushStack_failed (by rw [turn]; exact run) (part.inv.stored (part.pushArgs_stored _ _ _))

theorem pushStack_safe_iff {hole : Bool} (inv₀ : Inv img st₀ old A₀ role₀) (part : StackPart img st g A role n hole)
    (priv : Private (· ∈ st₀.freelist) st₀ st g A) (few : argv.length < MAXARG)
    (short : ∀ s ∈ argv, s.length < KERNBASE) :
    (pushStack img old g ((n + 2) * PGSIZE) argv st).Safe argv ↔ ¬ Strays ((n + 2) * PGSIZE) hole argv ((n + 2) * PGSIZE) := by
  cases hole with
  | true => exact pushStack_hole part short
  | false =>
    obtain ⟨q, value⟩ := part.stack rfl
    have low : (n + 1) * PGSIZE ≤ (n + 2) * PGSIZE := Nat.mul_le_mul_right _ (by omega)
    have outcome := pushArgs_outcome part value argv [] ((n + 2) * PGSIZE) [] low (Nat.le_refl _) .nil short
      (by simp only [List.length_nil]; omega)
    rcases outcome with ⟨null, strays⟩ | ⟨straight, ends⟩
    · exact ⟨fun safe => (pushStack_null img old null safe).elim, fun straight => (straight strays).elim⟩
    · refine ⟨fun _ => straight, fun _ => ?_⟩
      rw [List.nil_append] at ends
      cases stop : (pushArgs g argv ((n + 2) * PGSIZE) [] st).stop with
      | nullPte =>
        rw [stop] at ends
        exact ends.elim
      | failed =>
        rw [stop] at ends
        exact pushStack_failed stop (part.inv.stored (part.pushArgs_stored _ _ _))
      | done =>
        rw [stop] at ends
        obtain ⟨above, high, placed⟩ := ends
        have stored := part.pushArgs_stored argv ((n + 2) * PGSIZE) []
        exact vector_safe inv₀ (part.stored stored) (priv.stored part.inv.rep stored) value above high placed few stop rfl

end Caller

end Xv6.Vm
