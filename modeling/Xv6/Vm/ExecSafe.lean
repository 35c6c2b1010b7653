import Xv6.Vm.ExecStack

set_option autoImplicit false

/-!
# `exec` and its arguments

Whether `exec` ends safely is a matter of the file, the number of free pages and the lengths of the strings.
A program of 33 megabytes brings it to read a page-table entry that does not exist.
-/

namespace Xv6.Vm

open Sys Memory

/-- The size and the pages of the image with its stack, for `free` free pages. -/
def reachOf (free : Nat) (x : Executable) : Reach :=
  match loopReach free x with
  | .reached sz plan =>
    match plan.alloc (pgRoundUp sz) (pgRoundUp sz + 2 * PGSIZE) with
    | none => .refused (plan.asked (pgRoundUp sz + 2 * PGSIZE))
    | some (sz, plan) => .reached sz plan
  | ends => ends

/-- No page of the image is lost, and no string is sent where there is no page table. -/
def StaysMapped (free : Nat) (x : Executable) (argv : List (List UInt8)) : Prop :=
  match reachOf free x with
  | .refused _ => True
  | .panics => False
  | .loose => False
  | .reached sz plan => ¬ Strays sz plan.hole argv sz

variable {img : Image} {st st₀ : Phys} {g old : Nat} {A A₀ : Space} {role role₀ : Nat → Role}
  {argv : List (List UInt8)}

theorem pagesOf_pgRoundUp (sz : Nat) : pagesOf (pgRoundUp sz) = pagesOf sz := by
  simp only [pagesOf, pgRoundUp, PGSIZE]
  omega

theorem buildStack_eq {size newsz : Nat} {grown : Grown} (twoMore : newsz = pgRoundUp size + 2 * PGSIZE)
    (ok : allocuvm img st g (pgRoundUp size) newsz = .ok grown) :
    buildStack img old g size argv st = guardStack img old g argv grown := by
  unfold buildStack
  rw [← twoMore, ok]

theorem guardStack_eq {st' : Phys} (grown : Grown) (some_ : grown.sz ≠ 0)
    (cleared : clearpteu grown.st g (grown.sz - 2 * PGSIZE) = .ok st') :
    guardStack img old g argv grown = pushStack img old g grown.sz argv st' := by
  rw [guardStack, if_neg some_, cleared]

/-- What happens behind the loop over the program headers: no page for the stack, or a guard page and a stack
page, the latter perhaps lost. -/
def Stacked (img : Image) (old g : Nat) (argv : List (List UInt8)) (st : Phys) (A : Space) (size newsz : Nat)
    (ends : ExecEnd) : Option (Nat × Plan) → Prop
  | none => ∃ r A' role', allocuvm img st g (pgRoundUp size) newsz = .ok r ∧ r.sz = 0 ∧ Inv img r.st g A' role' ∧
      ends = bad img r.st g
  | some (sz, plan) => ∃ r st' A' role', allocuvm img st g (pgRoundUp size) newsz = .ok r ∧ r.sz = sz ∧
      sz = (pagesOf size + 2) * PGSIZE ∧ clearpteu r.st g (sz - 2 * PGSIZE) = .ok st' ∧
      StackPart img st' g A' role' (pagesOf size) plan.hole ∧
      (∀ S st₀, Private S st₀ st g A → Private S st₀ st' g A') ∧ ends = pushStack img old g sz argv st'

theorem buildStack_stacked {got : List (Nat × Nat)} {plan : Plan} {size : Nat} (old : Nat) (argv : List (List UInt8))
    (part : UserPart img st g A role got plan) (pages : plan.pages = pagesOf size) (newsz : Nat)
    (twoMore : newsz = pgRoundUp size + 2 * PGSIZE) :
    Stacked img old g argv st A size newsz (buildStack img old g size argv st)
      (plan.alloc (pgRoundUp size) newsz) := by
  have rounded : plan.pages = pagesOf (pgRoundUp size) := by
    rw [pages, pagesOf_pgRoundUp]
  have allocated := allocuvm_spec part (pgRoundUp size) newsz rounded
  cases outcome : plan.alloc (pgRoundUp size) newsz with
  | none =>
    rw [outcome] at allocated
    obtain ⟨st', A', role', obtained, ok, inv'⟩ := allocated
    refine ⟨_, A', role', ok, rfl, inv', ?_⟩
    rw [buildStack_eq twoMore ok, guardStack, if_pos rfl]
  | some result =>
    obtain ⟨sz, plan'⟩ := result
    rw [outcome] at allocated
    obtain ⟨st', A', role', obtained, ok, part'⟩ := allocated
    obtain ⟨below, larger⟩ := Plan.alloc_some outcome
    have exact_ : sz = (pagesOf size + 2) * PGSIZE := by
      rw [larger, Nat.max_eq_right (by omega), twoMore, pgRoundUp_eq, Nat.add_mul]
    have two : plan'.pages = pagesOf size + 2 := by
      rw [Plan.alloc_pages rounded outcome, exact_]
      simp only [pagesOf, PGSIZE]
      omega
    have guard : sz - 2 * PGSIZE = pagesOf size * PGSIZE := by rw [exact_, ← Nat.sub_mul, Nat.add_sub_cancel]
    obtain ⟨st'', A'', cleared, stack, priv⟩ := clearpteu_stack part' two (by rw [← exact_]; omega)
    rw [← guard] at cleared
    refine ⟨_, st'', A'', role', ok, rfl, exact_, cleared, stack, fun S st₀ old => priv S st₀ ?_, ?_⟩
    · obtain ⟨B, roleB, invB, privB⟩ := old.allocuvm part.inv _ _ ok
      exact part'.private_of invB.rep privB
    · have some_ : sz ≠ 0 := by
        rw [exact_]
        simp only [PGSIZE]
        omega
      rw [buildStack_eq twoMore ok, guardStack_eq ⟨sz, st', obtained⟩ some_ cleared]

theorem Stacked.safe_iff {size newsz : Nat} {ends : ExecEnd} {grown : Option (Nat × Plan)}
    (stacked : Stacked img old g argv st A size newsz ends grown) (inv₀ : Inv img st₀ old A₀ role₀)
    (priv : Private (· ∈ st₀.freelist) st₀ st g A) (few : argv.length < MAXARG)
    (short : ∀ s ∈ argv, s.length < KERNBASE) :
    ends.Safe argv ↔ ∀ sz plan, grown = some (sz, plan) → ¬ Strays sz plan.hole argv sz := by
  cases grown with
  | none =>
    obtain ⟨r, A', role', -, -, inv', rfl⟩ := stacked
    exact ⟨fun _ sz plan grown => (by cases grown), fun _ => bad_safe inv'⟩
  | some result =>
    obtain ⟨sz, plan⟩ := result
    obtain ⟨r, st', A', role', -, -, rfl, -, stack, keeps, rfl⟩ := stacked
    rw [pushStack_safe_iff inv₀ stack (keeps _ _ priv) few short]
    constructor
    · intro straight sz plan' equal
      cases equal
      exact straight
    · intro all
      exact all _ _ rfl

/-- `exec` ends safely exactly when no string is sent where there is no page table. -/
theorem execFile_safe_iff (inv₀ : Inv img st old A₀ role₀) (x : Executable) (plain : x.Plain)
    (few : argv.length < MAXARG) (short : ∀ s ∈ argv, s.length < KERNBASE) :
    (execFile img st old x argv).Safe argv ↔ StaysMapped st.freelist.length x argv := by
  rw [execFile, StaysMapped, reachOf, loopReach]
  cases header : x.elfHdr with
  | none => exact ⟨fun _ => trivial, fun _ => trivial⟩
  | some elf =>
    dsimp only
    by_cases magic : elf.magic ≠ ELF_MAGIC
    · rw [if_pos magic, if_pos magic]
      exact ⟨fun _ => trivial, fun _ => trivial⟩
    rw [if_neg magic, if_neg magic]
    rcases setupkvm_spec img st inv₀.sound with ⟨st', failed, few'⟩ | ⟨g, st', -, -, ok, -⟩
    · rw [failed, if_pos few']
      exact ⟨fun _ => trivial, fun _ => trivial⟩
    · obtain ⟨A, role, enough, part, priv⟩ := setupkvm_private inv₀.sound ok
      rw [ok, if_neg (by omega)]
      dsimp only
      have ran := loadSegments_ran (keeps_private img g (· ∈ st.freelist) st) x elf.phnum elf.phoff 0 part rfl
        ⟨A, role, part.inv, priv⟩
      have tight := part.sound.reach_not_loose x elf.phnum elf.phoff 0 (plain elf header) rfl (by decide)
      generalize Plan.reach x elf.phnum elf.phoff 0 ⟨0, st.freelist.length - 65, false⟩ = reach at ran tight
      generalize loadSegments img x g elf.phnum elf.phoff 0 [] st' = run at ran
      cases reach with
      | refused asked =>
        obtain ⟨stop, -, ⟨A', role', inv'⟩, -⟩ := ran
        rw [stop]
        exact ⟨fun _ => trivial, fun _ => bad_safe inv'⟩
      | panics =>
        obtain ⟨p, stop⟩ := ran
        rw [stop]
        exact Iff.rfl
      | loose => exact (tight rfl).elim
      | reached sz plan =>
        obtain ⟨⟨stop, size⟩, pages, ⟨B, roleB, invB, privB⟩, ⟨A', role', got, part'⟩, -⟩ := ran
        rw [stop, size]
        dsimp only
        obtain ⟨newsz, twoMore⟩ : ∃ newsz, newsz = pgRoundUp sz + 2 * PGSIZE := ⟨_, rfl⟩
        rw [← twoMore, (buildStack_stacked old argv part' pages newsz twoMore).safe_iff inv₀
          (part'.private_of invB.rep privB) few short]
        cases plan.alloc (pgRoundUp sz) newsz with
        | none => exact ⟨fun _ => trivial, fun _ _ _ grown => (by cases grown)⟩
        | some result =>
          constructor
          · intro all
            exact all _ _ rfl
          · intro straight sz' plan' equal
            cases equal
            exact straight

theorem exec_stack_safe_iff (img : Image) (st : Phys) (old : Nat) (A₀ : Space) (role₀ : Nat → Role)
    (inv₀ : Inv img st old A₀ role₀) (x : Executable) (plain : x.Plain) (c : Caller) (uargv : UInt32)
    (argv : List (List UInt8)) (accepted : sysExecArgs c uargv = some argv) :
    (execFile img st old x argv).Safe argv ↔ StaysMapped st.freelist.length x argv := by
  obtain ⟨few, strings⟩ := sysExecArgs_spec accepted
  exact execFile_safe_iff inv₀ x plain few fun s member => (strings s member).1

def ofEntries (e : Nat → Nat) : Page := fun k => UInt8.ofNat (e (k.val / 4) / 256 ^ (k.val % 4))

theorem entry_ofEntries (e : Nat → Nat) {i : Nat} (inside : i < 1024) (word : e i < 2 ^ 32) :
    entry (ofEntries e) i = e i := by
  have digits := Bytes.getLE_digits (ofEntries e) (4 * i) 4 (e i) (by
    intro k low high
    have slot : k / 4 = i := by omega
    have digit : k % 4 = k - 4 * i := by omega
    have inPage : k < PGSIZE := by
      simp only [PGSIZE]
      omega
    rw [Bytes.getByte, dif_pos inPage]
    simp only [ofEntries, slot, digit])
  rw [entry, digits]
  exact Nat.mod_eq_of_lt (by simpa using word)

-- A process of `n` pages with the bytes `f`, its pages one after another in memory.
def flat (f : Nat → UInt8) (n : Nat) (free : List Nat) : Phys where
  mem := fun p =>
    if p = 0x400 then ofEntries fun d => if d * NPTENTRIES < n then tableEntry (0x401 + d) else 0
    else if p < 0x600 then
      ofEntries fun i =>
        if (p - 0x401) * NPTENTRIES + i < n then userEntry (0x600 + ((p - 0x401) * NPTENTRIES + i)) else 0
    else fun k => f ((p - 0x600) * PGSIZE + k.val)
  freelist := free

def flatSpace (n : Nat) : Space where
  table := fun d => if d * NPTENTRIES < n then some (0x401 + d) else none
  entry := fun v => if v < n then userEntry (0x600 + v) else 0

def flatRole (n : Nat) (free : List Nat) (p : Nat) : Role :=
  if p = 0x400 then .dir
  else if 0x401 ≤ p ∧ (p - 0x401) * NPTENTRIES < n then .table (p - 0x401)
  else if 0x600 ≤ p ∧ p < 0x600 + n then .user (p - 0x600)
  else if p ∈ free then .free
  else .other

section Flat

variable (f : Nat → UInt8) {n : Nat} (free : List Nat)

theorem flat_dir : (flat f n free).mem 0x400 =
    ofEntries fun d => if d * NPTENTRIES < n then tableEntry (0x401 + d) else 0 := by
  simp [flat]

theorem flat_table {d : Nat} (inside : d < 0x1FF) : (flat f n free).mem (0x401 + d) =
    ofEntries fun i => if d * NPTENTRIES + i < n then userEntry (0x600 + (d * NPTENTRIES + i)) else 0 := by
  have notDir : ¬ 0x401 + d = 0x400 := by omega
  have isTable : 0x401 + d < 0x600 := by omega
  have at_ : (flat f n free).mem (0x401 + d) = if 0x401 + d = 0x400 then _ else if 0x401 + d < 0x600 then _ else _ := rfl
  rw [at_, if_neg notDir, if_pos isTable, Nat.add_sub_cancel_left]

theorem flat_page (v : Nat) : (flat f n free).mem (0x600 + v) = fun k => f (v * PGSIZE + k.val) := by
  have notDir : ¬ 0x600 + v = 0x400 := by omega
  have notTable : ¬ 0x600 + v < 0x600 := by omega
  have at_ : (flat f n free).mem (0x600 + v) = if 0x600 + v = 0x400 then _ else if 0x600 + v < 0x600 then _ else _ := rfl
  rw [at_, if_neg notDir, if_neg notTable, Nat.add_sub_cancel_left]

theorem tableEntry_lt {t : Nat} (small : t < 0xE000) : tableEntry t < 2 ^ 32 := by
  simp only [tableEntry, PGSIZE, PTE_P, PTE_W, PTE_U]
  omega

theorem userEntry_lt {p : Nat} (small : p < 0xE000) : userEntry p < 2 ^ 32 := by
  rw [userEntry_eq]
  omega

theorem flat_rep (small : n ≤ 0x4000) : Rep (flat f n free).mem 0x400 (flatSpace n) := by
  constructor
  case pde =>
    intro d inside
    simp only [NPDENTRIES] at inside
    rw [tableAt, flat_dir, entry_ofEntries _ inside]
    · simp only [flatSpace]
      split <;> simp [absent_zero]
    · split
      next there => exact tableEntry_lt (by omega)
      next => decide
  case pte =>
    intro v t at_
    simp only [flatSpace] at at_
    split at at_
    next there =>
      cases at_
      have few : v / NPTENTRIES < 0x1FF := by
        simp only [NPTENTRIES] at there ⊢
        omega
      have back : v / NPTENTRIES * NPTENTRIES + v % NPTENTRIES = v := Nat.div_add_mod' v NPTENTRIES
      rw [flat_table f free few, entry_ofEntries _ (Nat.mod_lt _ (by decide)), back]
      · rfl
      · rw [back]
        split
        next counted => exact userEntry_lt (by omega)
        next => decide
    next => cases at_
  case absent =>
    intro v missing
    simp only [flatSpace] at missing ⊢
    split at missing
    next => cases missing
    next beyond =>
      simp only [NPTENTRIES] at beyond
      rw [if_neg (by omega)]

theorem flat_inv (small : n ≤ 0x4000) (nodup : free.Nodup)
    (pages : ∀ p ∈ free, 0x600 + n ≤ p ∧ p < 0xE000) :
    Inv smallKernel (flat f n free) 0x400 (flatSpace n) (flatRole n free) := by
  refine ⟨flat_rep f free small, ?_, nodup, if_pos rfl, ?_, ?_, ?_⟩
  · intro p
    simp only [flat, flatRole]
    by_cases member : p ∈ free
    · have bounds := pages p member
      rw [if_neg (by omega), if_neg (by simp only [NPTENTRIES]; omega), if_neg (by omega), if_pos member]
      simp [member]
    · simp only [member, if_false, false_iff]
      split
      next => simp
      next => split <;> [simp; split <;> simp]
  · intro d t at_
    simp only [flatSpace] at at_
    split at at_
    next there =>
      cases at_
      rw [flatRole, if_neg (by omega), Nat.add_sub_cancel_left, if_pos ⟨by omega, there⟩]
    next => cases at_
  · intro v _ there
    have counted : v < n := by
      by_contra beyond
      simp [flatSpace, beyond, present] at there
    simp only [flatSpace, counted, if_true, pteAddr_userEntry]
    rw [flatRole, if_neg (by omega), if_neg (by simp only [NPTENTRIES]; omega), if_pos (by omega),
      Nat.add_sub_cancel_left]
  · intro p known
    have bounds : 0x400 ≤ p ∧ p < 0xE000 := by
      by_contra out
      have other : p ∉ free := fun member => by
        have bounds := pages p member
        omega
      exact known (by
        rw [flatRole, if_neg (by omega), if_neg (by simp only [NPTENTRIES]; omega), if_neg (by omega), if_neg other])
    simp only [Image.Allocatable, smallKernel, PGSIZE, PHYSTOP]
    omega

theorem flat_byte (small : n ≤ 0x4000) {a : Nat} (inside : a < n * PGSIZE) :
    userByte (flat f n free) 0x400 a = some (f a) := by
  have counted : a / PGSIZE < n := Nat.div_lt_of_lt_mul (by rwa [Nat.mul_comm])
  have page : a / PGSIZE < ALLPAGES := by
    simp only [ALLPAGES, PGSIZE] at counted ⊢
    omega
  have value : (flatSpace n).entry (a / PGSIZE) = userEntry (0x600 + a / PGSIZE) := if_pos counted
  have low : a % PGSIZE < PGSIZE := Nat.mod_lt _ (by decide)
  have whole : a / PGSIZE * PGSIZE + a % PGSIZE = a := Nat.div_add_mod' a PGSIZE
  rw [userByte, (flat_rep f free small).uva2ka_user page value]
  simp only [flat_page, Bytes.getByte, low, dif_pos, whole]

end Flat

-- A string as long as 32 megabytes and the new image together.
def longString : Nat := 0x2003000

-- The array `argv` stands at address 0, and its only string at address 8.
def bigMemory (a : Nat) : UInt8 :=
  if a = 0 then 8 else if a < 8 then 0 else if a < 8 + longString then 1 else 0

def bigCaller : Caller where
  sz := 0x2004000
  user := by decide
  esp := 0
  mem := bigMemory

def bigProcess : Phys := flat bigMemory 0x2004 (List.range' 0x2604 100)

def smallProgram : Executable where
  type := T_FILE
  major := 0
  size := 84
  fits := headers_fit
  block := fun _ => fun k =>
    stores (fun _ => 0)
      [wordStore 0 ELF_MAGIC, wordStore 28 52, wordStore 44 1, wordStore 52 ELF_PROG_LOAD, wordStore 68 84,
        wordStore 72 0x1000] k.val
  regular := file_regular

theorem bigProcess_inv : Inv smallKernel bigProcess 0x400 (flatSpace 0x2004) (flatRole 0x2004 (List.range' 0x2604 100)) := by
  apply flat_inv _ _ (by decide) List.nodup_range'
  intro p member
  rw [List.mem_range'_1] at member
  omega

theorem bigProcess_holds (a : Nat) (inside : a < bigCaller.sz.toNat) :
    userByte bigProcess 0x400 a = some (bigCaller.mem a) :=
  flat_byte bigMemory _ (by decide) inside

theorem smallProgram_plain : smallProgram.Plain := by
  intro elf header
  have fields : (smallProgram.elfHdr.map fun e => (e.phoff, e.phnum)) = some (52, 1) := by decide +kernel
  rw [header, Option.map_some, Option.some.injEq, Prod.mk.injEq] at fields
  rw [fields.1, fields.2]
  refine ⟨fun ph found _ => ?_, trivial⟩
  have words : ((smallProgram.progHdr 52).map fun ph => (ph.vaddr.toNat, ph.memsz.toNat)) = some (0, 0x1000) := by
    decide +kernel
  rw [found, Option.map_some, Option.some.injEq, Prod.mk.injEq] at words
  rw [words.1, words.2]
  decide

theorem strFrom_ones {c : Caller} {left s length : Nat} (ones : ∀ k < length, c.mem (s + k) = 1)
    (ends : c.mem (s + length) = 0) (room : length < left) : strFrom c left s = some (List.replicate length 1) := by
  induction length generalizing left s with
  | zero =>
    obtain ⟨left, rfl⟩ : ∃ k, left = k + 1 := ⟨left - 1, by omega⟩
    rw [strFrom, if_pos (by simpa using ends)]
    rfl
  | succ length ih =>
    obtain ⟨left, rfl⟩ : ∃ k, left = k + 1 := ⟨left - 1, by omega⟩
    have first : c.mem s = 1 := ones 0 (by omega)
    have rest := @ih left (s + 1)
      (fun k inside => by rw [Nat.add_assoc, Nat.add_comm 1 k]; exact ones (k + 1) (by omega))
      (by rw [Nat.add_assoc, Nat.add_comm 1 length]; exact ends) (by omega)
    rw [strFrom, if_neg (by rw [first]; decide), rest, first]
    rfl

theorem bigCaller_string : fetchstr bigCaller 8 = some (List.replicate longString 1) := by
  have inside : ¬ (8 : UInt32) ≥ bigCaller.sz := by decide
  rw [fetchstr, if_neg inside]
  apply strFrom_ones
  · intro k inside
    have low : ¬ (8 : UInt32).toNat + k = 0 := by simp
    have above : ¬ (8 : UInt32).toNat + k < 8 := by simp
    have below : (8 : UInt32).toNat + k < 8 + longString := by simpa using inside
    show bigMemory _ = 1
    rw [bigMemory, if_neg low, if_neg above, if_pos below]
  · decide
  · decide

theorem bigCaller_accepted : ∃ s, s.length = longString ∧ sysExecArgs bigCaller 0 = some [s] := by
  have first : fetchint bigCaller (0 + 4 * UInt32.ofNat 0) = some 8 := by decide
  have second : fetchint bigCaller (0 + 4 * UInt32.ofNat 1) = some 0 := by decide
  obtain ⟨s, length, string⟩ : ∃ s, s.length = longString ∧ fetchstr bigCaller 8 = some s :=
    ⟨_, List.length_replicate, bigCaller_string⟩
  refine ⟨s, length, ?_⟩
  rw [sysExecArgs, argsFrom, first]
  dsimp only
  rw [if_neg (by decide), string, argsFrom, second]
  rfl

theorem smallProgram_reach : reachOf 100 smallProgram = .reached 0x3000 ⟨3, 31, false⟩ := by decide +kernel

theorem longString_strays {s : List UInt8} (length : s.length = longString) : Strays 0x3000 false [s] 0x3000 := by
  have sent : KERNBASE + PHYSTOP ≤ lower 0x3000 (s.length + 1) ∧ lower 0x3000 (s.length + 1) < DEVSPACE := by
    rw [length]
    decide
  exact Or.inr sent

theorem longString_not_safe {s : List UInt8} (length : s.length = longString)
    (accepted : sysExecArgs bigCaller 0 = some [s]) :
    ¬ (execFile smallKernel bigProcess 0x400 smallProgram [s]).Safe [s] := by
  obtain ⟨few, strings⟩ := sysExecArgs_spec accepted
  have short : ∀ t ∈ [s], t.length < KERNBASE := fun t member => (strings t member).1
  rw [execFile_safe_iff bigProcess_inv smallProgram smallProgram_plain few short]
  have free : bigProcess.freelist.length = 100 := List.length_range'
  rw [free, StaysMapped, smallProgram_reach]
  exact not_not_intro (longString_strays length)

/-- With this string `exec` comes to read a page-table entry that does not exist. -/
theorem exec_strays : (∃ role, Inv smallKernel bigProcess 0x400 (flatSpace 0x2004) role) ∧
    (∀ a < bigCaller.sz.toNat, userByte bigProcess 0x400 a = some (bigCaller.mem a)) ∧ smallProgram.Plain ∧
    ∃ argv, sysExecArgs bigCaller 0 = some argv ∧
      ¬ (execFile smallKernel bigProcess 0x400 smallProgram argv).Safe argv := by
  obtain ⟨s, length, accepted⟩ := bigCaller_accepted
  have strays := longString_not_safe length accepted
  exact ⟨⟨_, bigProcess_inv⟩, bigProcess_holds, smallProgram_plain, Exists.intro [s] (And.intro accepted strays)⟩

-- The vector leads to the strings "a" and "bc".
def smallMemory (a : Nat) : UInt8 := [12, 0, 0, 0, 14, 0, 0, 0, 0, 0, 0, 0, 97, 0, 98, 99].getD a 0

def smallCaller : Caller where
  sz := 0x1000
  user := by decide
  esp := 0
  mem := smallMemory

def smallProcess : Phys := flat smallMemory 1 (List.range' 0x700 100)

theorem smallProcess_inv : Inv smallKernel smallProcess 0x400 (flatSpace 1) (flatRole 1 (List.range' 0x700 100)) := by
  apply flat_inv _ _ (by decide) List.nodup_range'
  intro p member
  rw [List.mem_range'_1] at member
  omega

theorem exec_stack_safe_iff_strings : sysExecArgs smallCaller 0 = some [[97], [98, 99]] ∧
    (execFile smallKernel smallProcess 0x400 smallProgram [[97], [98, 99]]).Safe [[97], [98, 99]] := by
  have accepted : sysExecArgs smallCaller 0 = some [[97], [98, 99]] := by decide +kernel
  refine ⟨accepted, ?_⟩
  rw [exec_stack_safe_iff smallKernel smallProcess 0x400 _ _ smallProcess_inv smallProgram smallProgram_plain
    smallCaller 0 _ accepted]
  have free : smallProcess.freelist.length = 100 := List.length_range'
  rw [free, StaysMapped, smallProgram_reach]
  simp only [Strays, lower, KERNBASE, PHYSTOP, DEVSPACE, PGSIZE]
  decide

end Xv6.Vm
