import Xv6.Param

set_option autoImplicit false

/-!
# Physical pages and page tables

`kalloc.c` and the page-table code of `vm.c`. Physical memory is a page for each page number; a
pointer to a page-table entry is a page number and an index. The links of the free list are kept as a
list and not in the free pages, whose contents nobody reads.
-/

namespace Xv6.Vm

abbrev Page := Bytes.Buf PGSIZE

def entry (p : Page) (i : Nat) : Nat := Bytes.getLE p (4 * i) 4

def putEntry (p : Page) (i v : Nat) : Page := Bytes.putLE p (4 * i) 4 v

theorem entry_lt (p : Page) (i : Nat) : entry p i < 2 ^ 32 := by
  have bound := Bytes.getLE_lt p (4 * i) 4
  simpa [entry] using bound

theorem entry_putEntry_same (p : Page) (i v : Nat) (inside : i < 1024) (word : v < 2 ^ 32) :
    entry (putEntry p i v) i = v := by
  have stored := Bytes.getLE_putLE_same p (4 * i) 4 v (by simp only [PGSIZE]; omega)
  rw [entry, putEntry, stored, Nat.mod_eq_of_lt (by norm_num; omega)]

theorem entry_putEntry_other (p : Page) (i j v : Nat) (other : j ≠ i) :
    entry (putEntry p i v) j = entry p j :=
  Bytes.getLE_putLE_disjoint p (4 * i) 4 (4 * j) 4 v (by omega)

theorem entry_zero (i : Nat) : entry (fun _ => 0) i = 0 := by
  simp [entry, Bytes.getLE, Bytes.getByte]

def present (e : Nat) : Bool := e % 2 = 1

theorem present_iff (e : Nat) : present e = true ↔ e % 2 = 1 := by simp [present]

-- `PTE_ADDR`, as a page number.
def pteAddr (e : Nat) : Nat := e / PGSIZE

theorem ok_bind {α β : Type} (a : α) (f : α → Except Panic β) : (Except.ok a >>= f) = f a := rfl

theorem ok_of_bind {α β : Type} {x : Except Panic α} {f : α → Except Panic β} {b : β} (ok : (x >>= f) = .ok b) :
    ∃ a, x = .ok a ∧ f a = .ok b := by
  cases x with
  | error why => cases ok
  | ok a => exact ⟨a, rfl, ok⟩

structure Phys where
  mem : Nat → Page
  freelist : List Nat

def Phys.setPage (st : Phys) (p : Nat) (page : Page) : Phys :=
  { st with mem := Function.update st.mem p page }

def Phys.setEntry (st : Phys) (t i v : Nat) : Phys := st.setPage t (putEntry (st.mem t) i v)

/-- What the linker fixes: the physical address after the kernel and the start of its data. -/
structure Image where
  end_ : Nat
  data : Nat
  linked : EXTMEM < end_
  aligned : data % PGSIZE = 0
  afterText : KERNLINK < data
  belowTop : data < KERNBASE + PHYSTOP

def kalloc (st : Phys) : Option (Nat × Phys) :=
  match st.freelist with
  | [] => none
  | p :: rest => some (p, { st with freelist := rest })

/-- A page that `kfree` takes. -/
def Image.Allocatable (img : Image) (p : Nat) : Prop := img.end_ ≤ p * PGSIZE ∧ p * PGSIZE < PHYSTOP

instance (img : Image) (p : Nat) : Decidable (img.Allocatable p) := by
  unfold Image.Allocatable
  infer_instance

def kfree (img : Image) (st : Phys) (p : Nat) : Except Panic Phys :=
  if img.Allocatable p then .ok { st.setPage p (fun _ => 1) with freelist := p :: st.freelist }
  else .error .kfree

def PDX (va : Nat) : Nat := va / (PGSIZE * NPTENTRIES) % NPDENTRIES

def PTX (va : Nat) : Nat := va / PGSIZE % NPTENTRIES

def walkpgdir (st : Phys) (pgdir va : Nat) (alloc : Bool) : Option (Nat × Nat) × Phys :=
  let pde := entry (st.mem pgdir) (PDX va)
  if present pde then (some (pteAddr pde, PTX va), st)
  else if alloc then
    match kalloc st with
    | none => (none, st)
    | some (pgtab, st) =>
      let st := st.setPage pgtab (fun _ => 0)
      (some (pgtab, PTX va), st.setEntry pgdir (PDX va) (pgtab * PGSIZE + (PTE_P + PTE_W + PTE_U)))
  else (none, st)

-- The loop of `mappages`, `count` pages long; `false` is the return value -1.
def mapLoop (pgdir perm : Nat) : Nat → Nat → Nat → Phys → Except Panic (Bool × Phys)
  | 0, _, _, st => .ok (true, st)
  | count + 1, a, pa, st =>
    match walkpgdir st pgdir a true with
    | (none, st) => .ok (false, st)
    | (some (t, i), st) =>
      if present (entry (st.mem t) i) then .error .remap
      else
        mapLoop pgdir perm count ((a + PGSIZE) % 2 ^ 32) ((pa + PGSIZE) % 2 ^ 32)
          (st.setEntry t i (pa + (perm ||| PTE_P)))

-- The loop ends when `a` is `last`, which it reaches by steps of a page, modulo the address space.
def mappages (st : Phys) (pgdir va size pa perm : Nat) : Except Panic (Bool × Phys) :=
  let a := va / PGSIZE * PGSIZE
  let last := (va + size - 1) % 2 ^ 32 / PGSIZE * PGSIZE
  mapLoop pgdir perm ((last + 2 ^ 32 - a) % 2 ^ 32 / PGSIZE + 1) a pa st

structure Kmap where
  virt : Nat
  physStart : Nat
  physEnd : Nat
  perm : Nat

def kmap (img : Image) : List Kmap :=
  [⟨KERNBASE, 0, EXTMEM, PTE_W⟩,
    ⟨KERNLINK, EXTMEM, img.data - KERNBASE, 0⟩,
    ⟨img.data, img.data - KERNBASE, PHYSTOP, PTE_W⟩,
    ⟨DEVSPACE, DEVSPACE, 0, PTE_W⟩]

def mapKernel (pgdir : Nat) : List Kmap → Phys → Except Panic (Bool × Phys)
  | [], st => .ok (true, st)
  | k :: rest, st => do
    let size := (k.physEnd + 2 ^ 32 - k.physStart) % 2 ^ 32
    let (mapped, st) ← mappages st pgdir k.virt size k.physStart k.perm
    if mapped then mapKernel pgdir rest st else return (false, st)

-- The page directory, or none. `PHYSTOP` is below the devices, so its check never panics.
def setupkvm (img : Image) (st : Phys) : Except Panic (Option Nat × Phys) :=
  match kalloc st with
  | none => .ok (none, st)
  | some (pgdir, st) => do
    let (mapped, st) ← mapKernel pgdir (kmap img) (st.setPage pgdir (fun _ => 0))
    return (if mapped then some pgdir else none, st)

def deallocLoop (img : Image) (pgdir oldsz : Nat) : Nat → Nat → Phys → Except Panic Phys
  | 0, _, st => .ok st
  | fuel + 1, a, st =>
    if a < oldsz then
      match (walkpgdir st pgdir a false).1 with
      | none => deallocLoop img pgdir oldsz fuel (a + (NPTENTRIES - 1) * PGSIZE + PGSIZE) st
      | some (t, i) =>
        if present (entry (st.mem t) i) then
          let pa := pteAddr (entry (st.mem t) i)
          if pa = 0 then .error .kfree
          else
            match kfree img st pa with
            | .error p => .error p
            | .ok st => deallocLoop img pgdir oldsz fuel (a + PGSIZE) (st.setEntry t i 0)
        else deallocLoop img pgdir oldsz fuel (a + PGSIZE) st
    else .ok st

def pgRoundUp (a : Nat) : Nat := (a + PGSIZE - 1) / PGSIZE * PGSIZE

-- The returned size is not used by any caller here.
def deallocuvm (img : Image) (st : Phys) (pgdir oldsz newsz : Nat) : Except Panic Phys :=
  if newsz ≥ oldsz then .ok st
  else deallocLoop img pgdir oldsz (oldsz / PGSIZE + 1) (pgRoundUp newsz) st

structure Grown where
  sz : Nat
  st : Phys
  pages : List (Nat × Nat)

-- `pages` collects the pages obtained, with the page of the address each one was obtained for. The
-- result of `mappages` is not looked at.
def allocLoop (img : Image) (pgdir oldsz newsz : Nat) :
    Nat → Nat → Phys → List (Nat × Nat) → Except Panic Grown
  | 0, _, st, pages => .ok ⟨newsz, st, pages⟩
  | fuel + 1, a, st, pages =>
    if a < newsz then
      match kalloc st with
      | none => do
        let st ← deallocuvm img st pgdir newsz oldsz
        return ⟨0, st, pages⟩
      | some (mem, st) => do
        let (_, st) ← mappages (st.setPage mem (fun _ => 0)) pgdir a PGSIZE (mem * PGSIZE) (PTE_W + PTE_U)
        allocLoop img pgdir oldsz newsz fuel (a + PGSIZE) st (pages ++ [(a / PGSIZE, mem)])
    else .ok ⟨newsz, st, pages⟩

def allocuvm (img : Image) (st : Phys) (pgdir oldsz newsz : Nat) : Except Panic Grown :=
  if newsz ≥ KERNBASE then .ok ⟨0, st, []⟩
  else if newsz < oldsz then .ok ⟨oldsz, st, []⟩
  else allocLoop img pgdir oldsz newsz (newsz / PGSIZE + 1) (pgRoundUp oldsz) st []

def freeTables (img : Image) (pgdir : Nat) : List Nat → Phys → Except Panic Phys
  | [], st => .ok st
  | i :: rest, st =>
    if present (entry (st.mem pgdir) i) then
      match kfree img st (pteAddr (entry (st.mem pgdir) i)) with
      | .error p => .error p
      | .ok st => freeTables img pgdir rest st
    else freeTables img pgdir rest st

def freevm (img : Image) (st : Phys) (pgdir : Nat) : Except Panic Phys := do
  let st ← deallocuvm img st pgdir KERNBASE 0
  let st ← freeTables img pgdir (List.range NPDENTRIES) st
  kfree img st pgdir

-- A null page makes `memset` fault in the kernel.
def inituvm (st : Phys) (pgdir : Nat) (init : List UInt8) : Except Panic Phys :=
  if init.length ≥ PGSIZE then .error .inituvm
  else
    match kalloc st with
    | none => .error .trap
    | some (mem, st) => do
      let (_, st) ← mappages (st.setPage mem (fun _ => 0)) pgdir 0 PGSIZE (mem * PGSIZE) (PTE_W + PTE_U)
      return st.setPage mem (Bytes.putBytes (st.mem mem) 0 init.length (init.getD · 0))

def clearpteu (st : Phys) (pgdir uva : Nat) : Except Panic Phys :=
  match (walkpgdir st pgdir uva false).1 with
  | none => .error .clearpteu
  | some (t, i) =>
    let pte := entry (st.mem t) i
    .ok (st.setEntry t i (if pte / PTE_U % 2 = 1 then pte - PTE_U else pte))

-- The loop of `copyuvm`; `false` is a jump to `bad`.
def copyLoop (pgdir d sz : Nat) : Nat → Nat → Phys → Except Panic (Bool × Phys)
  | 0, _, st => .ok (true, st)
  | fuel + 1, i, st =>
    if i < sz then
      match (walkpgdir st pgdir i false).1 with
      | none => .error .copyuvmPte
      | some (t, k) =>
        let pte := entry (st.mem t) k
        if present pte then
          match kalloc st with
          | none => .ok (false, st)
          | some (mem, st) => do
            let (mapped, st) ← mappages (st.setPage mem (st.mem (pteAddr pte))) d i PGSIZE (mem * PGSIZE)
              (pte % PGSIZE)
            if mapped then copyLoop pgdir d sz fuel (i + PGSIZE) st else return (false, st)
        else .error .copyuvmPresent
    else .ok (true, st)

def copyuvm (img : Image) (st : Phys) (pgdir sz : Nat) : Except Panic (Option Nat × Phys) := do
  match ← setupkvm img st with
  | (none, st) => return (none, st)
  | (some d, st) =>
    let (copied, st) ← copyLoop pgdir d sz (sz / PGSIZE + 1) 0 st
    if copied then return (some d, st)
    else
      let st ← freevm img st d
      return (none, st)

end Xv6.Vm
