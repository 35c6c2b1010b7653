import Xv6.Lib.Prog
import Xv6.Fs.Dir

set_option autoImplicit false

/-!
# Inside and outside of transactions

Only `begin_op` and `end_op` change the number of outstanding operations. Everything else of the inode
layer leaves the log as it is but for the blocks that it logs.
-/

namespace Xv6.Fs

open Prog

section Writing

variable {R : State → State → Prop} [Std.Refl R] [IsTrans State R]
  (logs : ∀ b data, Within R (logWrite b data))

omit [IsTrans State R] in
theorem within_inodeOf (ip : Slot) : Within R (inodeOf ip) := fun s => refl_of R s

omit [IsTrans State R] in
theorem within_bread (b : Nat) : Within R (bread b) := fun s => refl_of R s

include logs

theorem within_balloc : Within R balloc := by
  refine within_get.bind fun s => ?_
  split
  next => exact within_throw _
  next => exact (within_bread _).bind fun _ => (logs _ _).bind fun _ => (logs _ _).bind fun _ => within_pure _

theorem within_iupdate (ip : Slot) : Within R (iupdate ip) :=
  within_get.bind fun _ => (within_inodeOf _).bind fun _ => (within_bread _).bind fun _ => logs _ _

variable {ip : Slot}
  (addrs : ∀ k addr, Within R (setInode ip fun i => { i with addrs := Function.update i.addrs k addr }))

include addrs

theorem within_loadAddr (k : Fin (NDIRECT + 1)) : Within R (loadAddr ip k) :=
  (within_inodeOf _).bind fun _ =>
    ((within_balloc logs).bind fun _ => (addrs _ _).bind fun _ => within_pure _).ite (within_pure _)

theorem within_bmap (bn : Nat) : Within R (bmap ip bn) := by
  refine (within_loadAddr logs addrs _).ite (Within.ite ?_ (within_throw _))
  refine (within_loadAddr logs addrs _).bind fun ind => (within_bread _).bind fun a => Within.ite ?_ (within_pure _)
  exact (within_balloc logs).bind fun _ => (within_bread _).bind fun _ => (logs _ _).bind fun _ => within_pure _

theorem within_writeChunks (src : Nat → UInt8) (cs : List Split.Chunk) : Within R (writeChunks ip src cs) := by
  induction cs with
  | nil => exact within_pure _
  | cons c cs ih =>
    exact (within_bmap logs addrs _).bind fun _ => (within_bread _).bind fun _ => (logs _ _).bind fun _ => ih

variable (sizes : ∀ size, Within R (setInode ip fun i => { i with size := size }))

include sizes

theorem within_writei (src : Nat → UInt8) (off n : UInt32) : Within R (writei ip src off n) := by
  refine (within_inodeOf _).bind fun i => ((within_pure _).ite (within_pure _)).ite ((within_pure _).ite
    ((within_pure _).ite ((within_writeChunks logs addrs _ _).bind fun _ => Within.ite ?_ (within_pure _))))
  exact (sizes _).bind fun _ => (within_iupdate logs _).bind fun _ => within_pure _

end Writing

/-- The log has changed at most by blocks in its header. -/
def SameLog (s s' : State) : Prop := s'.log = { s.log with lh := s'.log.lh }

instance : Std.Refl SameLog := ⟨fun _ => rfl⟩

instance : IsTrans State SameLog := ⟨fun _ _ _ first second => by rw [SameLog, second, first]⟩

abbrev Keeps {α : Type} (m : M α) : Prop := Within SameLog m

section Keeps

theorem keeps_setInode (ip : Slot) (f : Inode → Inode) : Keeps (setInode ip f) := fun _ => rfl

theorem keeps_logWrite (b : Nat) (data : Block) : Keeps (logWrite b data) := by
  intro s
  simp only [logWrite, wp_bind, wp_get]
  split
  next => trivial
  next =>
    split
    next => trivial
    next log logged =>
      unfold Xv6.logWrite at logged
      split_ifs at logged
      · cases logged
        rfl
      · split at logged
        next lh _ =>
          cases logged
          rfl
        next => cases logged

theorem keeps_writei (ip : Slot) (src : Nat → UInt8) (off n : UInt32) : Keeps (writei ip src off n) :=
  within_writei keeps_logWrite (fun _ _ => keeps_setInode _ _) (fun _ => keeps_setInode _ _) _ _ _

end Keeps

section Brackets

/-- Nobody is in the file system, and the log is empty. -/
def Idle (log : Log) : Prop := log.outstanding = 0 ∧ log.committing = false ∧ log.lh = .empty

theorem beginOp_admitted {s : State} {log : Log} (admitted : Xv6.beginOp s.log = some log) :
    beginOp s = .ok ((), { s with log := log }) := by
  rw [beginOp, bind_ok (show (get : M State) s = .ok (s, s) from rfl), admitted]
  rfl

theorem beginOp_ok {s s' : State} {r : Unit} (begun : beginOp s = .ok (r, s')) :
    ∃ log, Xv6.beginOp s.log = some log ∧ s' = { s with log := log } := by
  cases admitted : Xv6.beginOp s.log with
  | none =>
    rw [beginOp, bind_ok (show (get : M State) s = .ok (s, s) from rfl), admitted] at begun
    cases begun
  | some log =>
    rw [beginOp_admitted admitted] at begun
    cases begun
    exact ⟨log, rfl, rfl⟩

theorem beginOp_idle {s : State} (idle : Idle s.log) :
    beginOp s = .ok ((), { s with log := { s.log with outstanding := 1 } }) := by
  obtain ⟨outstanding, committing, lh⟩ := idle
  have room : ¬ (s.log.lh.n : Int) + (s.log.outstanding + 1) * MAXOPBLOCKS > LOGSIZE := by
    rw [lh, outstanding]
    decide
  have admitted : Xv6.beginOp s.log = some { s.log with outstanding := 1 } := by
    rw [Xv6.beginOp, if_neg (by simp [committing]), if_neg room, outstanding, zero_add]
  exact beginOp_admitted admitted

theorem endOp_last {s : State} (one : s.log.outstanding = 1) (quiet : s.log.committing = false) :
    endOp s = .ok ((), { s with log := { s.log with outstanding := 0, lh := .empty } }) := by
  have left : Xv6.endOp s.log = .ok ({ s.log with outstanding := 0, committing := true }, true) := by
    rw [Xv6.endOp, if_neg (by simp [quiet]), one]
    rfl
  rw [endOp, bind_ok (show (get : M State) s = .ok (s, s) from rfl), left, ← quiet]
  rfl

end Brackets

end Xv6.Fs
