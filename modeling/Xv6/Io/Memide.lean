import Xv6.Lib.Run
import Xv6.Param

set_option autoImplicit false

/-!
# The synchronous disk driver

The buffers of `buf.h` and the driver of `memide.c`, which keeps the disk in memory and finishes
every request at once.
-/

namespace Xv6.Io

-- `busy`, `valid` and `dirty` are the bits of `flags`.
structure Buf where
  busy : Bool
  valid : Bool
  dirty : Bool
  dev : Nat
  blockno : Nat
  data : Block
deriving DecidableEq

abbrev BufId := Fin NBUF

instance (priority := 2000) neZero_NBUF : NeZero NBUF := ⟨by decide⟩

-- The flags that `iderw` leaves behind.
def Buf.Synced (v : Buf) : Prop := v.valid = true ∧ v.dirty = false

instance (v : Buf) : Decidable v.Synced := inferInstanceAs (Decidable (_ ∧ _))

/-- The buffers, and the disk that they are copies of. -/
structure Memory where
  buf : BufId → Buf
  memdisk : Disk

section Transfer

variable (m : Memory) (b c : BufId)

-- `iderw` after its checks: the block is copied to the disk or from it.
def Memory.transfer : Memory :=
  let v := m.buf b
  if v.dirty then
    { buf := Function.update m.buf b { v with dirty := false, valid := true }
      memdisk := Function.update m.memdisk v.blockno v.data }
  else { m with buf := Function.update m.buf b { v with data := m.memdisk v.blockno, valid := true } }

def Memory.setBuf (v : Buf) : Memory := { m with buf := Function.update m.buf b v }

theorem Memory.transfer_buf_of_ne (other : c ≠ b) : (m.transfer b).buf c = m.buf c := by
  simp only [transfer]
  split <;> exact Function.update_of_ne other _ _

theorem Memory.transfer_key :
    ((m.transfer b).buf c).dev = (m.buf c).dev ∧ ((m.transfer b).buf c).blockno = (m.buf c).blockno := by
  by_cases same : c = b
  · subst same
    simp only [transfer]
    split <;> simp
  · rw [m.transfer_buf_of_ne b c same]
    exact ⟨rfl, rfl⟩

theorem Memory.transfer_setBuf (v : Buf) (other : c ≠ b) :
    (m.setBuf b v).transfer c = (m.transfer c).setBuf b v := by
  simp only [transfer, setBuf, Function.update_of_ne other]
  split <;> simp only [Function.update_comm other]

theorem Memory.foldl_transfer_buf (queue : List BufId) (away : c ∉ queue) :
    (queue.foldl transfer m).buf c = m.buf c := by
  induction queue generalizing m with
  | nil => rfl
  | cons b queue ih =>
    obtain ⟨other, later⟩ := not_or.mp (List.mem_cons.not.mp away)
    rw [List.foldl_cons, ih (m.transfer b) later, m.transfer_buf_of_ne b c other]

theorem Memory.foldl_transfer_setBuf (queue : List BufId) (v : Buf) (away : b ∉ queue) :
    queue.foldl transfer (m.setBuf b v) = (queue.foldl transfer m).setBuf b v := by
  induction queue generalizing m with
  | nil => rfl
  | cons c queue ih =>
    obtain ⟨other, later⟩ := not_or.mp (List.mem_cons.not.mp away)
    rw [List.foldl_cons, List.foldl_cons, m.transfer_setBuf b c v (Ne.symm other), ih (m.transfer c) later]

end Transfer

namespace Memide

def iderw (disksize : Nat) (m : Memory) (b : BufId) : Except Panic Memory :=
  let v := m.buf b
  if v.busy = false then .error .iderwNotBusy
  else if v.Synced then .error .iderwNothingToDo
  else if v.dev ≠ 1 then .error .iderwNotForDisk1
  else if v.blockno ≥ disksize then .error .iderwOutOfRange
  else .ok (m.transfer b)

end Memide

end Xv6.Io
