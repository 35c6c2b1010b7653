import Xv6.Proc.Table
import Xv6.Sys.Args

set_option autoImplicit false

/-!
# `sys_setuid` and `sys_setgid`

The calls do not look at what `argint` returns. Where the argument cannot be fetched, `num` is the word
that its place on the kernel stack held before.
-/

namespace Xv6.Sys

open Memory Ptable

inductive Id where
  | uid
  | gid
deriving DecidableEq

def Id.get : Id → Proc → UInt32
  | .uid, p => p.uid
  | .gid, p => p.gid

def Id.set : Id → Proc → UInt32 → Proc
  | .uid, p, num => { p with uid := num }
  | .gid, p, num => { p with gid := num }

@[simp] theorem Id.get_set (id : Id) (p : Proc) (num : UInt32) : id.get (id.set p num) = num := by
  cases id <;> rfl

@[simp] theorem Id.set_get (id : Id) (p : Proc) : id.set p (id.get p) = p := by
  cases id <;> rfl

abbrev MAXID : UInt32 := 32767

-- The two calls differ in the field that they store.
def setid (id : Id) (c : Caller) (stale : UInt32) (p : Proc) : Int × Proc :=
  let num := (argint c 0).getD stale
  if num ≤ MAXID then (1, id.set p num) else (-1, p)

def sysSetuid : Caller → UInt32 → Proc → Int × Proc := setid .uid

def sysSetgid : Caller → UInt32 → Proc → Int × Proc := setid .gid

theorem setid_fetched (id : Id) (c : Caller) (stale : UInt32) (p : Proc) {w : UInt32} (fetched : argint c 0 = some w) :
    setid id c stale p = if w ≤ MAXID then (1, id.set p w) else (-1, p) := by
  rw [setid, fetched, Option.getD_some]

/-- The call stores an argument that it could fetch and that is in range, and refuses any other. -/
structure Validates (id : Id) (call : Caller → UInt32 → Proc → Int × Proc) (c : Caller) (stale : UInt32) (p : Proc) :
    Prop where
  stored : ∀ w, argint c 0 = some w → w ≤ MAXID → call c stale p = (1, id.set p w)
  refused : (∀ w, argint c 0 = some w → MAXID < w) → call c stale p = (-1, p)

theorem setid_validates (id : Id) (c : Caller) (stale : UInt32) (p : Proc) :
    Validates id (setid id) c stale p ↔ (argint c 0).isSome = true ∨ MAXID < stale := by
  cases fetched : argint c 0 with
  | some w =>
    refine iff_of_true ⟨?_, ?_⟩ (.inl rfl)
    · intro v same fits
      cases fetched.symm.trans same
      rw [setid_fetched id c stale p fetched, if_pos fits]
    · intro large
      rw [setid_fetched id c stale p fetched, if_neg (UInt32.not_le.mpr (large w fetched))]
  | none =>
    have run : setid id c stale p = if stale ≤ MAXID then (1, id.set p stale) else (-1, p) := by
      rw [setid, fetched, Option.getD_none]
    have missing : ∀ w, argint c 0 ≠ some w := by simp [fetched]
    rw [Option.isSome_none, or_iff_right Bool.false_ne_true]
    constructor
    · intro validates
      have refused := validates.refused fun w same => absurd same (missing w)
      by_contra small
      rw [run, if_pos (UInt32.not_lt.mp small), Prod.mk.injEq] at refused
      exact absurd refused.1 (by decide)
    · intro large
      refine ⟨fun w same => absurd same (missing w), fun _ => ?_⟩
      rw [run, if_neg (UInt32.not_le.mpr large)]

/-- Both calls validate exactly if the argument can be fetched, or the stale word is out of range. -/
theorem set_ids_validate_iff (c : Caller) (stale : UInt32) (p : Proc) :
    (Validates .uid sysSetuid c stale p ↔ (argint c 0).isSome = true ∨ MAXID < stale) ∧
      (Validates .gid sysSetgid c stale p ↔ (argint c 0).isSome = true ∨ MAXID < stale) :=
  ⟨setid_validates .uid c stale p, setid_validates .gid c stale p⟩

-- The stack pointer is in the last word of the memory, so the argument lies behind the end.
def endOfStack : Caller where
  sz := 4096
  user := onePage_user
  esp := 4092
  mem := fun _ => 0

theorem set_ids_unchecked :
    (sysSetuid endOfStack 0 { zeroProc with uid := DEFAULT_UID }).1 = 1 ∧
      (sysSetuid endOfStack 0 { zeroProc with uid := DEFAULT_UID }).2.uid = 0 ∧
      ¬ Validates .uid sysSetuid endOfStack 0 { zeroProc with uid := DEFAULT_UID } ∧
      ¬ Validates .gid sysSetgid endOfStack 0 { zeroProc with gid := DEFAULT_GID } := by
  have outside : ¬ ((argint endOfStack 0).isSome = true ∨ MAXID < 0) := by decide +kernel
  refine ⟨by decide +kernel, by decide +kernel, ?_, ?_⟩
  · exact fun validates => outside ((setid_validates .uid _ _ _).mp validates)
  · exact fun validates => outside ((setid_validates .gid _ _ _).mp validates)

end Xv6.Sys
