import Xv6.Lib.LinkRing
import Xv6.Lib.Memory

set_option autoImplicit false

/-!
# The user's heap

`umalloc.c` over the bytes of the process. Free blocks are linked in a circle through their headers;
`base` is a header in the data segment that is always in it. The loops take a bound on their rounds,
and give nothing if it is too small.
-/

namespace Xv6.Umalloc

open Memory

/-- `sizeof(Header)`: a pointer and a size. -/
abbrev HEADER : Nat := 8

-- `units` headers from `addr` on.
structure Extent where
  addr : Nat
  units : Nat
deriving DecidableEq

def Extent.stop (e : Extent) : Nat := e.addr + HEADER * e.units

-- `regions` is the memory that `sbrk` has handed out.
structure Heap where
  mem : Mem
  freep : Option Nat
  regions : List Extent

section Headers

-- `p->s.ptr` and `p->s.size`
def ptr (m : Mem) (p : Nat) : Nat := (wordAt m p).toNat

def size (m : Mem) (p : Nat) : Nat := (wordAt m (p + 4)).toNat

def setPtr (m : Mem) (p v : Nat) : Mem := store m (wordStore p (UInt32.ofNat v))

def setSize (m : Mem) (p v : Nat) : Mem := store m (wordStore (p + 4) (UInt32.ofNat v))

-- `p + units`, for a pointer to a header
def plus (p units : Nat) : Nat := (p + HEADER * units) % 2 ^ 32

end Headers

-- The tests that end the loop of `free`.
def atPlace (m : Mem) (bp p : Nat) : Bool :=
  decide (bp > p ∧ bp < ptr m p ∨ p ≥ ptr m p ∧ (bp > p ∨ bp < ptr m p))

def joinRight (m : Mem) (bp p : Nat) : Mem :=
  if plus bp (size m bp) = ptr m p then
    let m := setSize m bp (size m bp + size m (ptr m p))
    setPtr m bp (ptr m (ptr m p))
  else setPtr m bp (ptr m p)

def joinLeft (m : Mem) (bp p : Nat) : Mem :=
  if plus p (size m p) = bp then
    let m := setSize m p (size m p + size m bp)
    setPtr m p (ptr m bp)
  else setPtr m p bp

def free (fuel : Nat) (h : Heap) (ap : Nat) : Option Heap := do
  let freep ← h.freep
  let bp := ap - HEADER
  let p ← LinkRing.walk (ptr h.mem) (atPlace h.mem bp) fuel freep
  some { h with mem := joinLeft (joinRight h.mem bp p) bp p, freep := some p }

-- What `sbrk` answers: nothing for -1, or the start of the memory. It may look at what it has given.
abbrev Sbrk := List Extent → Nat → Option Nat

-- The result is `freep`, or nothing for 0.
def morecore (fuel : Nat) (sbrk : Sbrk) (h : Heap) (nu : Nat) : Option (Heap × Option Nat) :=
  let nu := if nu < 4096 then 4096 else nu
  let bytes := nu * HEADER % 2 ^ 32
  match sbrk h.regions bytes with
  | none => some (h, none)
  | some p =>
    let h := { h with mem := setSize h.mem p nu, regions := h.regions ++ [⟨p, bytes / HEADER⟩] }
    (free fuel h (plus p 1)).map fun h => (h, h.freep)

def nunits (nbytes : Nat) : Nat := (nbytes + HEADER - 1) % 2 ^ 32 / HEADER + 1

-- The block `p` is large enough: all of it, or its tail.
def take (h : Heap) (n prevp p : Nat) : Heap × Nat :=
  if size h.mem p = n then
    ({ h with mem := setPtr h.mem prevp (ptr h.mem p), freep := some prevp }, plus p 1)
  else
    let m := setSize h.mem p (size h.mem p - n)
    let p := plus p (size m p)
    ({ h with mem := setSize m p n, freep := some prevp }, plus p 1)

-- The loop of `malloc`. The result is a pointer, 0 if there is no memory.
def mallocLoop (sbrk : Sbrk) (n : Nat) : Nat → Heap → Nat → Nat → Option (Heap × Nat)
  | 0, _, _, _ => none
  | fuel + 1, h, prevp, p =>
    if size h.mem p ≥ n then some (take h n prevp p)
    else if h.freep = some p then
      match morecore fuel sbrk h n with
      | none => none
      | some (h, none) => some (h, 0)
      | some (h, some p) => mallocLoop sbrk n fuel h p (ptr h.mem p)
    else mallocLoop sbrk n fuel h p (ptr h.mem p)

def malloc (base : Nat) (fuel : Nat) (sbrk : Sbrk) (h : Heap) (nbytes : Nat) : Option (Heap × Nat) :=
  match h.freep with
  | none =>
    let m := setSize (setPtr h.mem base base) base 0
    mallocLoop sbrk (nunits nbytes) fuel { h with mem := m, freep := some base } base (ptr m base)
  | some prevp => mallocLoop sbrk (nunits nbytes) fuel h prevp (ptr h.mem prevp)

section Process

-- A program on the heap, with the blocks that it has from `malloc`.
structure State where
  heap : Heap
  allocated : List Extent

/-- `sbrk` fails, or returns memory above `base` and above all it has returned before. -/
def Fresh (base : Nat) (sbrk : Sbrk) : Prop :=
  ∀ regions bytes p, sbrk regions bytes = some p →
    (∀ r ∈ regions, r.stop ≤ p) ∧ base + HEADER ≤ p ∧ p + bytes < 2 ^ 32

/-- The program calls `malloc`, frees what it has, or writes to it. -/
inductive Step (base : Nat) (s : State) : State → Prop where
  | malloc (fuel : Nat) (sbrk : Sbrk) (nbytes : Nat) (h : Heap) (p : Nat) (small : nbytes ≤ 2 ^ 31 - 16)
      (fresh : Fresh base sbrk) (returned : malloc base fuel sbrk s.heap nbytes = some (h, p)) :
      Step base s
        { heap := h
          allocated := if p = 0 then s.allocated else ⟨p - HEADER, size h.mem (p - HEADER)⟩ :: s.allocated }
  | free (fuel : Nat) (e : Extent) (h : Heap) (held : e ∈ s.allocated)
      (returned : free fuel s.heap (e.addr + HEADER) = some h) :
      Step base s { heap := h, allocated := s.allocated.erase e }
  | write (e : Extent) (a : Nat) (v : UInt8) (held : e ∈ s.allocated) (low : e.addr + HEADER ≤ a)
      (high : a < e.stop) :
      Step base s { s with heap := { s.heap with mem := store s.heap.mem ⟨a, [v]⟩ } }

-- A program that has not called `malloc` yet.
structure Initial (s : State) : Prop where
  freep : s.heap.freep = none
  regions : s.heap.regions = []
  allocated : s.allocated = []

def Reachable (base : Nat) (s : State) : Prop :=
  ∃ start, Initial start ∧ Relation.ReflTransGen (Step base) start s

end Process

end Xv6.Umalloc
