import Xv6.Lib.Memory
import Xv6.Param

set_option autoImplicit false

/-!
# System call arguments

`fetchint`, `argint` and `argptr` of `syscall.c`, on 32-bit words that wrap. A failed fetch is `none`.
-/

namespace Xv6.Sys

open Memory

/-- The memory of the calling process: its size is below the kernel's addresses. -/
structure Caller where
  sz : UInt32
  user : sz.toNat < KERNBASE
  esp : UInt32
  mem : Mem

theorem onePage_user : (4096 : UInt32).toNat < KERNBASE := by decide

def fetchint (c : Caller) (addr : UInt32) : Option UInt32 :=
  if addr ≥ c.sz ∨ addr + 4 > c.sz then none else some (wordAt c.mem addr.toNat)

def argint (c : Caller) (n : UInt32) : Option UInt32 := fetchint c (c.esp + 4 + 4 * n)

-- The size is an `int`, here the word that holds it: the sum is taken on unsigned words.
def argptr (c : Caller) (n size : UInt32) : Option UInt32 :=
  match argint c n with
  | none => none
  | some i => if i ≥ c.sz ∨ i + size > c.sz then none else some i

def int (w : UInt32) : Int := w.toInt32.toInt

theorem int_eq (w : UInt32) : int w = if w.toNat < 2 ^ 31 then (w.toNat : Int) else w.toNat - 2 ^ 32 := by
  have bound := w.toNat_lt
  have value : int w = (w.toNat : Int).bmod (2 ^ 32) := by
    rw [int, ← Int32.toInt_toBitVec]
    exact BitVec.toInt_eq_toNat_bmod _
  rw [value, Int.bmod_def]
  split <;> split <;> omega

theorem argptr_eq_some_iff (c : Caller) (n size i p : UInt32) (fetched : argint c n = some i) :
    argptr c n size = some p ↔ p = i ∧ i.toNat < c.sz.toNat ∧ (i.toNat + size.toNat) % 2 ^ 32 ≤ c.sz.toNat := by
  rw [argptr, fetched]
  simp only [ge_iff_le, gt_iff_lt, UInt32.le_iff_toNat_le, UInt32.lt_iff_toNat_lt, UInt32.toNat_add]
  split
  next refused =>
    simp only [reduceCtorEq, false_iff]
    omega
  next accepted =>
    rw [Option.some_inj]
    constructor
    · intro same
      exact ⟨same.symm, by omega⟩
    · exact fun given => given.1.symm

end Xv6.Sys
