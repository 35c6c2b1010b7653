import Xv6.Vm.Exec

set_option autoImplicit false

/-!
# When `exec` confines the image

The run on page tables and the run in numbers go hand in hand: they refuse together, and where the
numbers say that a copy escapes, the code panics or writes to a page that it did not obtain.
-/

namespace Xv6.Vm

open Sys Memory

variable {img : Image} {st : Phys} {g : Nat} {A : Space} {role : Nat → Role}

theorem read_regular (x : Executable) (off n : UInt32) :
    (∃ m, x.read off n = (.value (int m), (Split.chunks BSIZE off.toNat m.toNat).map (chunkStore x.toInode 0))) ∨
      x.read off n = (.value (-1), []) := by
  rw [Executable.read, readi, if_neg x.regular]
  split
  next => exact Or.inr rfl
  next => exact Or.inl ⟨_, rfl⟩

theorem read_empty (x : Executable) (off n : UInt32) (empty : (x.read off n).2 = []) :
    (x.read off n).1 = .value 0 ∨ (x.read off n).1 = .value (-1) := by
  rcases read_regular x off n with ⟨m, run⟩ | run
  · left
    rw [run] at empty ⊢
    have zero : m.toNat = 0 := by
      by_contra positive
      obtain ⟨c, member, -⟩ := Split.chunks_first BSIZE off.toNat m.toNat (by decide) (Nat.pos_of_ne_zero positive)
      simp only [List.map_eq_nil_iff] at empty
      rw [empty] at member
      cases member
    have same : m = 0 := UInt32.toNat_inj.mp zero
    rw [same]
    rfl
  · right
    rw [run]

theorem copyInto_nil (page : Page) : copyInto page [] = page := by
  funext k
  simp [copyInto, Bytes.getByte]

theorem setPage_same (st : Phys) (p : Nat) : st.setPage p (st.mem p) = st := by
  simp [Phys.setPage]

theorem UserPart.table_iff {got : List (Nat × Nat)} {plan : Plan} (part : UserPart img st g A role got plan)
    (v : Nat) : A.table (v / NPTENTRIES) ≠ none ↔ plan.TableThere v := by
  rw [Plan.TableThere]
  split
  next user =>
    apply part.tables
    simp only [USERPAGES, KERNBASE, PGSIZE, NPTENTRIES] at user ⊢
    omega
  next kernel =>
    apply part.kernel
    simp only [USERPAGES, KERNBASE, PGSIZE, NPTENTRIES] at kernel ⊢
    omega

theorem UserPart.stored {got : List (Nat × Nat)} {plan : Plan} {st' : Phys} (part : UserPart img st g A role got plan)
    (stored : Stored g st st') : UserPart img st' g A role got plan :=
  { part with
    inv := part.inv.stored stored
    free := by rw [stored.freelist]; exact part.free }

section Load

variable {got : List (Nat × Nat)} {plan : Plan} {v va sz filesz i : Nat} {x : Executable}

theorem pieceSize_pos (more : i < filesz) : 0 < pieceSize filesz i := by
  rw [pieceSize]
  split
  next => omega
  next => decide

theorem not_full_of_empty {off n : UInt32} {size : Nat} (positive : 0 < size) (empty : (x.read off n).2 = []) :
    full (x.read off n) size = false := by
  rcases read_empty x off n empty with zero | minus
  · rw [full, zero]
    simp only [decide_eq_false_iff_not]
    omega
  · rw [full, minus]
    simp only [decide_eq_false_iff_not]
    omega

theorem UserPart.copy_confined (part : UserPart img st g A role got plan) (size : plan.pages = pagesOf sz)
    (user : v < USERPAGES) (mapped : plan.Mapped v) (start : v * PGSIZE = va) (l : List Store) :
    Copy.Confined ⟨va, pteAddr (A.entry v), l, sz, got⟩ := by
  obtain ⟨p, isPage, member⟩ := part.mapped v user mapped
  intro _
  refine ⟨?_, ?_, ?_⟩
  · simp only [USERPAGES, KERNBASE, PGSIZE] at user start ⊢
    omega
  · have low := mapped.1
    rwa [size, lt_pagesOf_iff, start] at low
  · rw [isPage, pteAddr_userEntry, ← start]
    simpa [pageAddr_div] using member

theorem UserPart.copy_stored (part : UserPart img st g A role got plan) (user : v < USERPAGES)
    (mapped : plan.Mapped v) (page : Page) : Stored g st (st.setPage (pteAddr (A.entry v)) page) := by
  obtain ⟨p, isPage, -⟩ := part.mapped v user mapped
  apply Stored.setPage user
  rw [part.inv.rep.userPage_eq (userPage_lt user), isPage, present_userEntry, if_pos rfl]

-- The page is not mapped: bytes that are copied are in no page of this run.
theorem UserPart.copy_loose (part : UserPart img st g A role got plan) (away : ¬ (v < USERPAGES ∧ plan.Mapped v))
    (start : v * PGSIZE = va) {l : List Store} (some_ : l ≠ []) :
    ¬ Copy.Confined ⟨va, pteAddr (A.entry v), l, sz, got⟩ := by
  intro confined
  obtain ⟨low, -, member⟩ := confined some_
  have user : v < USERPAGES := by
    simp only [USERPAGES, KERNBASE, PGSIZE] at low start ⊢
    omega
  rw [part.unmapped v user fun mapped => away ⟨user, mapped⟩] at member
  have positive := part.obtained _ _ member
  simp [pteAddr] at positive

/-- What the loop of `loaduvm` has done, by what the numbers say of it. -/
def Followed (g : Nat) (st : Phys) (loaded : Loaded) : Loading → Prop
  | .whole => loaded.stop = none ∧ Stored g st loaded.st ∧ ∀ c ∈ loaded.copies, c.Confined
  | .short => loaded.stop = some .bad ∧ Stored g st loaded.st ∧ ∀ c ∈ loaded.copies, c.Confined
  | .panics => ∃ p, loaded.stop = some (.panic p)
  | .loose => ∃ c ∈ loaded.copies, ¬ c.Confined

theorem Followed.cons {st' : Phys} {rest : Loaded} {ending : Loading} {c : Copy} (inv : Inv img st g A role)
    (first : Stored g st st') (confined : c.Confined) (followed : Followed g st' rest ending) :
    Followed g st ⟨rest.stop, rest.st, c :: rest.copies⟩ ending := by
  cases ending with
  | whole => exact ⟨followed.1, first.trans inv followed.2.1, List.forall_mem_cons.mpr ⟨confined, followed.2.2⟩⟩
  | short => exact ⟨followed.1, first.trans inv followed.2.1, List.forall_mem_cons.mpr ⟨confined, followed.2.2⟩⟩
  | panics => exact followed
  | loose =>
    obtain ⟨d, member, loose⟩ := followed
    exact ⟨d, List.mem_cons_of_mem c member, loose⟩

theorem loadLoop_followed (x : Executable) (sz addr : Nat) (offset : UInt32) (filesz fuel i : Nat)
    (part : UserPart img st g A role got plan) (size : plan.pages = pagesOf sz) (aligned : addr % PGSIZE = 0)
    (piece : i % PGSIZE = 0) :
    Followed g st (loadLoop x g sz got addr offset filesz fuel i st) (plan.load x addr offset filesz fuel i) := by
  induction fuel generalizing st i with
  | zero => exact ⟨rfl, Stored.refl g st, by simp [loadLoop]⟩
  | succ fuel ih =>
    rw [loadLoop, Plan.load]
    by_cases more : i < filesz
    · have start : (addr + i) % 2 ^ 32 / PGSIZE * PGSIZE = (addr + i) % 2 ^ 32 := by
        simp only [PGSIZE] at aligned piece ⊢
        omega
      rw [if_pos more, if_pos more]
      dsimp only
      rw [part.inv.rep.walk _ (Nat.mod_lt _ (by decide)), PTX_eq]
      generalize (addr + i) % 2 ^ 32 / PGSIZE = v at start
      generalize (addr + i) % 2 ^ 32 = va at start
      generalize read : x.read (offset + UInt32.ofNat i) (UInt32.ofNat (pieceSize filesz i)) = r
      have table := part.table_iff v
      cases there : A.table (v / NPTENTRIES) with
      | none =>
        have missing : ¬ plan.TableThere v := by simp [← table, there]
        rw [if_pos missing]
        exact ⟨_, rfl⟩
      | some t =>
        have found : plan.TableThere v := by simp [← table, there]
        simp only [Option.map_some, found, not_true_eq_false, if_false, part.inv.rep.pte v t there]
        by_cases mine : v < USERPAGES ∧ plan.Mapped v
        · have confined := part.copy_confined size mine.1 mine.2 start r.2
          have stored := part.copy_stored mine.1 mine.2 (copyInto (st.mem (pteAddr (A.entry v))) r.2)
          rw [if_pos mine]
          cases full r (pieceSize filesz i) with
          | true =>
            have rest := ih (i + PGSIZE) (part.stored stored) (by simp only [PGSIZE] at piece ⊢; omega)
            exact rest.cons part.inv stored confined
          | false => exact ⟨rfl, stored, by simpa using confined⟩
        · rw [if_neg mine]
          by_cases empty : r.2 = []
          · -- The file has nothing for the page: the read is short and the memory as it was.
            have short := not_full_of_empty (pieceSize_pos more) (by rw [read]; exact empty)
            rw [read] at short
            rw [short, empty, copyInto_nil, setPage_same]
            exact ⟨rfl, Stored.refl g st, by simp [Copy.Confined]⟩
          · have some_ : r.2.isEmpty = false := by simpa using empty
            rw [some_]
            refine ⟨⟨va, pteAddr (A.entry v), r.2, sz, got⟩, ?_, part.copy_loose mine start empty⟩
            cases full r (pieceSize filesz i) <;> simp
    · rw [if_neg more, if_neg more]
      exact ⟨rfl, Stored.refl g st, by simp⟩

end Load

/-- What `exec` keeps while it fills directory `g`: `P` with so many pages asked for, and `Q` at `bad`. -/
structure Keeps (img : Image) (g : Nat) (P Q : Nat → Phys → Prop) : Prop where
  stored : ∀ n st st', P n st → Stored g st st' → P n st'
  grown : ∀ sz newsz st r, P (pagesOf sz) st → newsz < KERNBASE → allocuvm img st g sz newsz = .ok r →
    r.sz = max sz newsz → P (pagesOf r.sz) r.st
  short : ∀ sz newsz st r, P (pagesOf sz) st → newsz < KERNBASE → sz ≤ newsz → allocuvm img st g sz newsz = .ok r →
    r.sz = 0 → Q (pagesOf newsz) r.st
  bad : ∀ n st, P n st → Q n st

variable {P Q : Nat → Phys → Prop}

theorem Keeps.refused (keeps : Keeps img g P Q) {plan : Plan} {sz newsz : Nat} {r : Grown}
    (size : plan.pages = pagesOf sz) (holds : P plan.pages st) (failed : plan.alloc sz newsz = none)
    (ok : allocuvm img st g sz newsz = .ok r) (zero : r.sz = 0) : Q (plan.asked newsz) r.st := by
  rw [Plan.asked]
  by_cases high : newsz ≥ KERNBASE
  · rw [if_pos high]
    rw [allocuvm, if_pos high] at ok
    cases ok
    exact keeps.bad _ _ holds
  · rw [if_neg high]
    rw [size] at holds
    exact keeps.short _ _ _ _ holds (by omega) (by have := Plan.alloc_none failed; omega) ok zero

/-- What the loop over the program headers has done, by what the numbers say of it. -/
def Ran (img : Image) (g : Nat) (P Q : Nat → Phys → Prop) (run : Segments) : Reach → Prop
  | .refused asked => run.stop = some .bad ∧ Q asked run.st ∧ (∃ A role, Inv img run.st g A role) ∧
      ∀ c ∈ run.copies, c.Confined
  | .panics => ∃ p, run.stop = some (.panic p)
  | .loose => ∃ c ∈ run.copies, ¬ c.Confined
  | .reached sz plan => (run.stop = none ∧ run.sz = sz) ∧ plan.pages = pagesOf sz ∧ P plan.pages run.st ∧
      (∃ A role got, UserPart img run.st g A role got plan) ∧ ∀ c ∈ run.copies, c.Confined

theorem Ran.prepend {run : Segments} {reach : Reach} (ran : Ran img g P Q run reach) (copies : List Copy)
    (confined : ∀ c ∈ copies, c.Confined) : Ran img g P Q { run with copies := copies ++ run.copies } reach := by
  have both (rest : ∀ c ∈ run.copies, c.Confined) : ∀ c ∈ copies ++ run.copies, c.Confined := by
    intro c member
    rcases List.mem_append.mp member with first | later
    · exact confined c first
    · exact rest c later
  cases reach with
  | refused asked => exact ⟨ran.1, ran.2.1, ran.2.2.1, both ran.2.2.2⟩
  | panics => exact ran
  | loose =>
    obtain ⟨c, member, loose⟩ := ran
    exact ⟨c, List.mem_append_right _ member, loose⟩
  | reached sz plan => exact ⟨ran.1, ran.2.1, ran.2.2.1, ran.2.2.2.1, both ran.2.2.2.2⟩

theorem loadSegments_ran (keeps : Keeps img g P Q) {got : List (Nat × Nat)} {plan : Plan} (x : Executable)
    (count : Nat) (off : UInt32) (sz : Nat) (part : UserPart img st g A role got plan)
    (size : plan.pages = pagesOf sz) (holds : P plan.pages st) :
    Ran img g P Q (loadSegments img x g count off sz got st) (Plan.reach x count off sz plan) := by
  have refused : Ran img g P Q ⟨some .bad, sz, st, []⟩ (.refused plan.pages) :=
    ⟨rfl, keeps.bad _ _ holds, ⟨A, role, part.inv⟩, by simp⟩
  induction count generalizing st A role got plan off sz with
  | zero => exact ⟨⟨rfl, rfl⟩, size, holds, ⟨A, role, got, part⟩, by simp [loadSegments]⟩
  | succ count ih =>
    rw [loadSegments, Plan.reach]
    cases x.progHdr off with
    | none => exact refused
    | some ph =>
      dsimp only
      by_cases load : ph.type ≠ ELF_PROG_LOAD
      · rw [if_pos load, if_pos load]
        exact ih _ sz part size holds refused
      rw [if_neg load, if_neg load]
      by_cases bogus : ph.memsz < ph.filesz
      · rw [if_pos bogus, if_pos bogus]
        exact refused
      rw [if_neg bogus, if_neg bogus]
      generalize (ph.vaddr + ph.memsz).toNat = newsz
      have allocated := allocuvm_spec part sz newsz size
      cases outcome : plan.alloc sz newsz with
      | none =>
        rw [outcome] at allocated
        obtain ⟨st', A', role', obtained, ok, inv'⟩ := allocated
        rw [ok]
        exact ⟨rfl, keeps.refused size holds outcome ok rfl, ⟨A', role', inv'⟩, by simp⟩
      | some result =>
        obtain ⟨s, plan'⟩ := result
        rw [outcome] at allocated
        obtain ⟨st', A', role', obtained, ok, part'⟩ := allocated
        have size' := Plan.alloc_pages size outcome
        obtain ⟨user, larger⟩ := Plan.alloc_some outcome
        have holds' : P plan'.pages st' := by
          rw [size'] at *
          rw [size] at holds
          exact keeps.grown _ _ _ _ holds user ok larger
        rw [ok]
        dsimp only
        by_cases empty : s = 0
        · rw [if_pos empty, if_pos empty]
          exact ⟨rfl, keeps.bad _ _ holds', ⟨A', role', part'.inv⟩, by simp⟩
        rw [if_neg empty, if_neg empty, loaduvm]
        by_cases crooked : ph.vaddr.toNat % PGSIZE ≠ 0
        · rw [if_pos crooked, if_pos crooked]
          exact ⟨_, rfl⟩
        rw [if_neg crooked, if_neg crooked]
        have followed := loadLoop_followed x s ph.vaddr.toNat ph.off ph.filesz.toNat (ph.filesz.toNat / PGSIZE + 1) 0
          part' size' (by simpa using crooked) rfl
        generalize loadLoop x g s (got ++ obtained) ph.vaddr.toNat ph.off ph.filesz.toNat
          (ph.filesz.toNat / PGSIZE + 1) 0 st' = loaded at followed
        generalize plan'.load x ph.vaddr.toNat ph.off ph.filesz.toNat (ph.filesz.toNat / PGSIZE + 1) 0 = ending
          at followed
        cases ending with
        | whole =>
          obtain ⟨none_, stored, confined⟩ := followed
          have part'' := part'.stored stored
          have holds'' := keeps.stored _ _ _ holds' stored
          rw [none_]
          exact (ih (off + 32) s part'' size' holds''
            ⟨rfl, keeps.bad _ _ holds'', ⟨A', role', part''.inv⟩, by simp⟩).prepend _ confined
        | short =>
          obtain ⟨bad, stored, confined⟩ := followed
          rw [bad]
          exact ⟨rfl, keeps.bad _ _ (keeps.stored _ _ _ holds' stored), ⟨A', role', part'.inv.stored stored⟩, confined⟩
        | panics =>
          obtain ⟨p, panics⟩ := followed
          rw [panics]
          exact ⟨p, rfl⟩
        | loose =>
          obtain ⟨c, member, loose⟩ := followed
          refine ⟨c, ?_, loose⟩
          cases loaded.stop with
          | none => exact List.mem_append_left _ member
          | some _ => exact member

/-- Memory as `exec` finds it: any contents, and a free list as the allocator keeps it. -/
structure Machine (img : Image) where
  st : Phys
  sound : st.Sound img

theorem freshPart {total : Nat} (part : KernelPart img total st g A role ALLPAGES) :
    65 ≤ total ∧ UserPart img st g A role [] ⟨0, total - 65, false⟩ := by
  have count := part.count
  rw [card_kernelTables] at count
  refine ⟨by omega, part.inv, by dsimp only; omega, ?_, fun v user _ => part.user v user, ?_, ?_,
    fun d _ => part.tables d, fun v _ => part.closed v, by simp⟩
  · rintro v - ⟨low, -⟩
    exact absurd low (Nat.not_lt_zero v)
  · intro d small
    rw [part.tables d]
    simp only [kernelTable, Plan.HasTable]
    omega
  · intro hole
    cases hole

theorem Segments.finish_copies (img : Image) (g : Nat) (run : Segments) : (run.finish img g).copies = run.copies := by
  rw [Segments.finish]
  cases run.stop with
  | none => rfl
  | some stop =>
    cases stop with
    | panic p => rfl
    | bad => cases freevm img run.st g <;> rfl

theorem Ran.finish_confined_iff {run : Segments} {reach : Reach} (ran : Ran img g P Q run reach) :
    (run.finish img g).Confined ↔ reach.verdict ≠ .escapes := by
  have copies := run.finish_copies img g
  cases reach with
  | refused asked =>
    obtain ⟨bad, -, ⟨A, role, inv⟩, confined⟩ := ran
    obtain ⟨freed, done⟩ := freevm_ok inv
    refine ⟨fun _ => by simp [Reach.verdict], fun _ => ⟨?_, by rwa [copies]⟩⟩
    simp [Segments.finish, bad, done]
  | panics =>
    obtain ⟨p, panics⟩ := ran
    refine ⟨fun confined => (confined.returns p ?_).elim, fun fine => (fine rfl).elim⟩
    simp [Segments.finish, panics]
  | loose =>
    obtain ⟨c, member, loose⟩ := ran
    exact ⟨fun confined => (loose (confined.copies c (copies ▸ member))).elim, fun fine => (fine rfl).elim⟩
  | reached sz plan =>
    obtain ⟨⟨done, -⟩, -, -, -, confined⟩ := ran
    refine ⟨fun _ => by simp [Reach.verdict], fun _ => ⟨?_, by rwa [copies]⟩⟩
    simp [Segments.finish, done]

theorem keeps_nothing (img : Image) (g : Nat) : Keeps img g (fun _ _ => True) (fun _ _ => True) :=
  ⟨fun _ _ _ _ _ => trivial, fun _ _ _ _ _ _ _ _ => trivial, fun _ _ _ _ _ _ _ _ _ => trivial, fun _ _ _ => trivial⟩

theorem confined_iff_verdict (img : Image) (m : Machine img) (x : Executable) :
    (exec img m.st x).Confined ↔ verdict m.st.freelist.length x ≠ .escapes := by
  have nothing : ExecResult.Confined ⟨.failed, []⟩ ↔ (Reach.refused 0).verdict ≠ .escapes :=
    ⟨fun _ => by simp [Reach.verdict], fun _ => ⟨by simp, by simp⟩⟩
  rw [exec, verdict, loopReach]
  cases x.elfHdr with
  | none => exact nothing
  | some elf =>
    dsimp only
    by_cases magic : elf.magic ≠ ELF_MAGIC
    · rw [if_pos magic, if_pos magic]
      exact nothing
    rw [if_neg magic, if_neg magic]
    rcases setupkvm_spec img m.st m.sound with ⟨st', failed, few⟩ | ⟨g, st', A, role, ok, part⟩
    · rw [failed, if_pos few]
      exact nothing
    · obtain ⟨enough, fresh⟩ := freshPart part
      rw [ok, if_neg (by omega)]
      exact (loadSegments_ran (keeps_nothing img g) x elf.phnum elf.phoff 0 fresh rfl trivial).finish_confined_iff

theorem exec_confined_iff (img : Image) (m : Machine img) (x : Executable) :
    (exec img m.st x).Confined ↔ verdict m.st.freelist.length x ≠ .escapes :=
  confined_iff_verdict img m x

theorem headers_fit : (84 : UInt32).toNat ≤ MAXFILE * BSIZE := by decide

theorem file_regular : T_FILE ≠ T_DEV := by decide

-- One loadable segment at the kernel's first address, whose end wraps to the end of the first page.
def kernelSegment : Executable where
  type := T_FILE
  major := 0
  size := 84
  fits := headers_fit
  block := fun _ => fun k =>
    stores (fun _ => 0)
      [wordStore 0 ELF_MAGIC, wordStore 28 52, wordStore 44 1, wordStore 52 ELF_PROG_LOAD,
        wordStore 60 0x80000000, wordStore 68 4, wordStore 72 0x80001000] k.val
  regular := file_regular

def smallKernel : Image where
  end_ := 0x200000
  data := KERNLINK + 0x100000
  linked := by decide
  aligned := by decide
  afterText := by decide
  belowTop := by decide

def hundredPages : Machine smallKernel where
  st := ⟨fun _ _ => 0, List.range' 0x400 100⟩
  sound := by
    refine ⟨List.nodup_range', ?_⟩
    intro p member
    rw [List.mem_range'_1] at member
    simp only [Image.Allocatable, smallKernel, PGSIZE, PHYSTOP]
    omega

theorem exec_writes_kernel : ¬ (exec smallKernel hundredPages.st kernelSegment).Confined := by
  have pages : hundredPages.st.freelist.length = 100 := List.length_range'
  rw [confined_iff_verdict smallKernel hundredPages, pages]
  decide +kernel

end Xv6.Vm
