import Xv6.Sys.Read
import Xv6.Vm.Grow

set_option autoImplicit false

/-!
# Loading a program

`loaduvm` and the segment loop of `exec`. The copies from the file are recorded with what the run had
obtained from `allocuvm` by then. The argument stack, built after the loop, copies nothing from the
file.
-/

namespace Xv6.Vm

open Sys Memory

/-- A file that is not a device; `readi` is then a matter of its contents. -/
structure Executable extends Inode where
  regular : type ≠ T_DEV

def Executable.read (x : Executable) (off n : UInt32) : Ret × List Store := readi x.toInode [] 0 off n

structure Copy where
  va : Nat
  page : Nat
  stores : List Store
  sz : Nat
  got : List (Nat × Nat)

inductive Stop where
  | bad
  | panic (p : Panic)

structure Loaded where
  stop : Option Stop
  st : Phys
  copies : List Copy

-- The size of the piece of the segment at `i`.
def pieceSize (filesz i : Nat) : Nat := if filesz - i < PGSIZE then filesz - i else PGSIZE

def copyInto (page : Page) (l : List Store) : Page := fun k => stores (Bytes.getByte page) l k.val

-- Whether `readi` returns the number it was asked for.
def full (r : Ret × List Store) (n : Nat) : Bool :=
  match r.1 with
  | .value m => m = n
  | _ => false

-- The loop of `loaduvm`. A walk that finds a table gives an entry, present or not. The file ends long
-- before `i` could wrap.
def loadLoop (x : Executable) (pgdir sz : Nat) (got : List (Nat × Nat)) (addr : Nat) (offset : UInt32)
    (filesz : Nat) : Nat → Nat → Phys → Loaded
  | 0, _, st => ⟨none, st, []⟩
  | fuel + 1, i, st =>
    if i < filesz then
      let va := (addr + i) % 2 ^ 32
      match (walkpgdir st pgdir va false).1 with
      | none => ⟨some (.panic .loaduvmExist), st, []⟩
      | some (t, k) =>
        let pa := pteAddr (entry (st.mem t) k)
        let r := x.read (offset + UInt32.ofNat i) (UInt32.ofNat (pieceSize filesz i))
        let st := st.setPage pa (copyInto (st.mem pa) r.2)
        let copy : Copy := ⟨va, pa, r.2, sz, got⟩
        if full r (pieceSize filesz i) then
          let rest := loadLoop x pgdir sz got addr offset filesz fuel (i + PGSIZE) st
          ⟨rest.stop, rest.st, copy :: rest.copies⟩
        else ⟨some .bad, st, [copy]⟩
    else ⟨none, st, []⟩

def loaduvm (x : Executable) (st : Phys) (pgdir sz : Nat) (got : List (Nat × Nat)) (addr : Nat)
    (offset : UInt32) (filesz : Nat) : Loaded :=
  if addr % PGSIZE ≠ 0 then ⟨some (.panic .loaduvmAligned), st, []⟩
  else loadLoop x pgdir sz got addr offset filesz (filesz / PGSIZE + 1) 0 st

-- The fields of `struct elfhdr` and `struct proghdr` that `exec` reads.
structure ElfHdr where
  magic : UInt32
  phoff : UInt32
  phnum : Nat

structure ProgHdr where
  type : UInt32
  off : UInt32
  vaddr : UInt32
  filesz : UInt32
  memsz : UInt32

abbrev ELF_MAGIC : UInt32 := 0x464C457F
abbrev ELF_PROG_LOAD : UInt32 := 1

def readBytes (r : Ret × List Store) : Mem := stores (fun _ => 0) r.2

-- The source compares the count as an unsigned number, where -1 would pass; at offset 0 of a file that
-- is not a device `readi` does not return it.
def Executable.elfHdr (x : Executable) : Option ElfHdr :=
  let r := x.read 0 52
  match r.1 with
  | .value n =>
    if n < 52 then none
    else
      let m := readBytes r
      some ⟨wordAt m 0, wordAt m 28, (m 44).toNat + 256 * (m 45).toNat⟩
  | _ => none

def Executable.progHdr (x : Executable) (off : UInt32) : Option ProgHdr :=
  let r := x.read off 32
  match r.1 with
  | .value n =>
    if n = 32 then
      let m := readBytes r
      some ⟨wordAt m 0, wordAt m 4, wordAt m 8, wordAt m 16, wordAt m 20⟩
    else none
  | _ => none

structure Segments where
  stop : Option Stop
  sz : Nat
  st : Phys
  copies : List Copy

-- The loop over the program headers, `count` of them left.
def loadSegments (img : Image) (x : Executable) (pgdir : Nat) :
    Nat → UInt32 → Nat → List (Nat × Nat) → Phys → Segments
  | 0, _, sz, _, st => ⟨none, sz, st, []⟩
  | count + 1, off, sz, got, st =>
    match x.progHdr off with
    | none => ⟨some .bad, sz, st, []⟩
    | some ph =>
      if ph.type ≠ ELF_PROG_LOAD then loadSegments img x pgdir count (off + 32) sz got st
      else if ph.memsz < ph.filesz then ⟨some .bad, sz, st, []⟩
      else
        match allocuvm img st pgdir sz (ph.vaddr + ph.memsz).toNat with
        | .error p => ⟨some (.panic p), sz, st, []⟩
        | .ok grown =>
          if grown.sz = 0 then ⟨some .bad, 0, grown.st, []⟩
          else
            let got := got ++ grown.pages
            let loaded := loaduvm x grown.st pgdir grown.sz got ph.vaddr.toNat ph.off ph.filesz.toNat
            match loaded.stop with
            | some stop => ⟨some stop, grown.sz, loaded.st, loaded.copies⟩
            | none =>
              let rest := loadSegments img x pgdir count (off + 32) grown.sz got loaded.st
              { rest with copies := loaded.copies ++ rest.copies }

inductive ExecOutcome where
  | failed
  | loaded (sz : Nat)
  | panic (p : Panic)

structure ExecResult where
  outcome : ExecOutcome
  copies : List Copy

-- Behind the loop, with the way out at `bad`.
def Segments.finish (img : Image) (pgdir : Nat) (loop : Segments) : ExecResult :=
  match loop.stop with
  | none => ⟨.loaded loop.sz, loop.copies⟩
  | some (.panic p) => ⟨.panic p, loop.copies⟩
  | some .bad =>
    match freevm img loop.st pgdir with
    | .error p => ⟨.panic p, loop.copies⟩
    | .ok _ => ⟨.failed, loop.copies⟩

-- `exec` from the ELF header to the end of the segment loop.
def exec (img : Image) (st : Phys) (x : Executable) : ExecResult :=
  match x.elfHdr with
  | none => ⟨.failed, []⟩
  | some elf =>
    if elf.magic ≠ ELF_MAGIC then ⟨.failed, []⟩
    else
      match setupkvm img st with
      | .error p => ⟨.panic p, []⟩
      | .ok (none, _) => ⟨.failed, []⟩
      | .ok (some pgdir, st) => (loadSegments img x pgdir elf.phnum elf.phoff 0 [] st).finish img pgdir

/-- What is copied goes to a page below the size reached, obtained for its own address. -/
def Copy.Confined (c : Copy) : Prop :=
  c.stores ≠ [] → c.va < KERNBASE ∧ c.va < c.sz ∧ (c.va / PGSIZE, c.page) ∈ c.got

/-- The image is loaded or refused, and every copy stays in the pages of this run. -/
structure ExecResult.Confined (r : ExecResult) : Prop where
  returns : ∀ p, r.outcome ≠ .panic p
  copies : ∀ c ∈ r.copies, c.Confined

-- The same run in numbers.
def Plan.TableThere (plan : Plan) (v : Nat) : Prop :=
  if v < USERPAGES then plan.HasTable (v / NPTENTRIES) else kernelTable ALLPAGES (v / NPTENTRIES)

instance (plan : Plan) (v : Nat) : Decidable (plan.TableThere v) := by
  unfold Plan.TableThere
  infer_instance

/-- How `loaduvm` ends: with the whole segment, with -1, in a panic, or with bytes in a page that is not
the one obtained for them. -/
inductive Loading where
  | whole
  | short
  | panics
  | loose
deriving DecidableEq

-- A piece of a segment: its page has to be mapped, or else the file must have nothing for it and a
-- table must be there for the walk to get so far.
def Plan.load (plan : Plan) (x : Executable) (addr : Nat) (offset : UInt32) (filesz : Nat) : Nat → Nat → Loading
  | 0, _ => .whole
  | fuel + 1, i =>
    if i < filesz then
      let v := (addr + i) % 2 ^ 32 / PGSIZE
      let r := x.read (offset + UInt32.ofNat i) (UInt32.ofNat (pieceSize filesz i))
      if ¬ plan.TableThere v then .panics
      else if v < USERPAGES ∧ plan.Mapped v then
        if full r (pieceSize filesz i) then plan.load x addr offset filesz fuel (i + PGSIZE) else .short
      else if r.2.isEmpty then .short
      else .loose
    else .whole

/-- How the loop over the program headers ends: at `bad` after so many pages have been asked for, as
`loaduvm` does, or with a size and its pages. -/
inductive Reach where
  | refused (asked : Nat)
  | panics
  | loose
  | reached (sz : Nat) (plan : Plan)
deriving DecidableEq

-- The pages asked for when `allocuvm` refuses.
def Plan.asked (plan : Plan) (newsz : Nat) : Nat := if newsz ≥ KERNBASE then plan.pages else pagesOf newsz

def Plan.reach (x : Executable) : Nat → UInt32 → Nat → Plan → Reach
  | 0, _, sz, plan => .reached sz plan
  | count + 1, off, sz, plan =>
    match x.progHdr off with
    | none => .refused plan.pages
    | some ph =>
      if ph.type ≠ ELF_PROG_LOAD then Plan.reach x count (off + 32) sz plan
      else if ph.memsz < ph.filesz then .refused plan.pages
      else
        match plan.alloc sz (ph.vaddr + ph.memsz).toNat with
        | none => .refused (plan.asked (ph.vaddr + ph.memsz).toNat)
        | some (sz, plan) =>
          if sz = 0 then .refused plan.pages
          else if ph.vaddr.toNat % PGSIZE ≠ 0 then .panics
          else
            match plan.load x ph.vaddr.toNat ph.off ph.filesz.toNat (ph.filesz.toNat / PGSIZE + 1) 0 with
            | .whole => Plan.reach x count (off + 32) sz plan
            | .short => .refused plan.pages
            | .panics => .panics
            | .loose => .loose

/-- Where the loop gets to with `free` free pages, of which the kernel part takes 65. -/
def loopReach (free : Nat) (x : Executable) : Reach :=
  match x.elfHdr with
  | none => .refused 0
  | some elf =>
    if elf.magic ≠ ELF_MAGIC then .refused 0
    else if free < 65 then .refused 0
    else Plan.reach x elf.phnum elf.phoff 0 ⟨0, free - 65, false⟩

inductive Verdict where
  | fine
  | refused
  | escapes
deriving DecidableEq

def Reach.verdict : Reach → Verdict
  | .refused _ => .refused
  | .panics => .escapes
  | .loose => .escapes
  | .reached _ _ => .fine

/-- The verdict on a file with `free` free pages. -/
def verdict (free : Nat) (x : Executable) : Verdict := (loopReach free x).verdict

end Xv6.Vm
