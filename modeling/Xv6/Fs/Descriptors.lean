import Xv6.Fs.Call

set_option autoImplicit false

/-!
# What other processes cannot change

The calls of other processes leave a running process its descriptors and its current directory,
whatever the inode layer does.
-/

namespace Xv6.Fs

open Prog

section Spares

variable {σ α : Type} (ops : Ops σ) {p q : Pid} (other : p ≠ q)

/-- If `q` runs, it goes on with what it holds. -/
def Spares (q : Pid) (k k' : Kernel σ) : Prop :=
  (k.proc q).state = .running →
    (k'.proc q).state = .running ∧ (k'.proc q).cwd = (k.proc q).cwd ∧ (k'.proc q).ofile = (k.proc q).ofile

instance spares_refl : Std.Refl (Spares (σ := σ) q) := ⟨fun _ runs => ⟨runs, rfl, rfl⟩⟩

instance spares_trans : IsTrans (Kernel σ) (Spares q) := ⟨by grind [Spares]⟩

abbrev Leaves (q : Pid) (m : Op (Kernel σ) α) : Prop := Within (Spares q) m

attribute [grind ←] Within.bind within_pure within_throw

@[grind ←] theorem leaves_onFs (m : Op σ α) : Leaves q (onFs m) := by
  intro k
  unfold wp onFs
  cases m k.fs
  · trivial
  · exact fun runs => ⟨runs, rfl, rfl⟩

@[grind ←] theorem leaves_tables : Leaves q (tables : Op (Kernel σ) Tables) := fun k => refl_of (Spares q) k

@[grind ←] theorem leaves_setTables (f : Tables → Tables) (same : (fun t => (f t).proc) = fun t => t.proc) :
    Leaves q (setTables f : Op (Kernel σ) Unit) := by
  intro k runs
  have kept : (f k.toTables).proc = k.proc := congrFun same k.toTables
  simpa only [kept, and_self, and_true] using runs

@[grind ←] theorem leaves_setFile (f : FileId) (g : File → File) : Leaves q (setFile f g : Op (Kernel σ) Unit) :=
  leaves_setTables _ rfl

@[grind ←] theorem leaves_setProc (other : p ≠ q) (g : Proc → Proc) : Leaves q (setProc p g : Op (Kernel σ) Unit) := by
  intro k runs
  simpa only [Function.update_of_ne other.symm, and_true] using runs

@[grind ←] theorem leaves_filealloc : Leaves q (filealloc : Op (Kernel σ) _) := by
  unfold filealloc
  grind

@[grind ←] theorem leaves_fdalloc (other : p ≠ q) (f : FileId) : Leaves q (fdalloc p f : Op (Kernel σ) _) := by
  unfold fdalloc setOfile
  grind

@[grind ←] theorem leaves_filedup (f : FileId) : Leaves q (filedup f : Op (Kernel σ) _) := by
  unfold filedup
  grind

@[grind ←] theorem leaves_fileclose (f : FileId) : Leaves q (fileclose ops f) := by
  unfold fileclose pipeclose setPipe kfree
  grind

theorem leaves_filewrite (f : FileId) (src : Nat → UInt8) (n r : Int) : Leaves q (filewrite ops f src n r) := by
  have turn (ip : Slot) (src : Nat → UInt8) (n : Nat) : Leaves q (writeTurn ops f ip src n) := by
    unfold writeTurn advance
    grind
  have loop (ip : Slot) (n left i : Nat) : Leaves q (writeLoop ops f ip src n left i) := by
    induction left generalizing i with
    | zero => exact within_pure _
    | succ left ih => grind [writeLoop]
  unfold filewrite
  grind

@[grind ←] theorem leaves_pipealloc : Leaves q (pipealloc ops) := by
  have page : Leaves q (kalloc : Op (Kernel σ) _) := by
    unfold kalloc
    grind
  refine leaves_filealloc.bind fun f0 => ?_
  split
  next => exact within_pure _
  next =>
    refine leaves_filealloc.bind fun f1 => ?_
    split
    next => grind
    next => exact page.bind fun page => by grind [setPipe]

include other

theorem leaves_sysOpen (cwd : Slot) (path : List UInt8) (omode : UInt32) : Leaves q (sysOpen ops p cwd path omode) := by
  refine (leaves_onFs _).bind fun _ => (leaves_onFs _).bind fun ip => ?_
  split
  next => grind
  next =>
    refine leaves_filealloc.bind fun f => ?_
    split
    next => grind
    next => exact (leaves_fdalloc other _).bind fun fd => by grind

theorem leaves_sysPipe : Leaves q (sysPipe ops p) := by
  refine (leaves_pipealloc ops).bind fun files => ?_
  split
  next => exact within_pure _
  next => exact (leaves_fdalloc other _).bind fun fd => by grind [setOfile]

theorem leaves_exit (cwd : Slot) : Leaves q (exit ops p cwd) := by
  have close (fds : List Fd) : Leaves q (closeAll ops p fds) := by
    induction fds with
    | nil => exact within_pure _
    | cons fd fds ih => grind [closeAll, setOfile]
  have pass : Leaves q (setTables fun t => { t with proc := fun r => abandon p (t.proc r) } : Op (Kernel σ) Unit) := by
    intro k runs
    simp only [abandon]
    split <;> exact ⟨runs, rfl, rfl⟩
  unfold exit setCwd
  grind

omit other in
theorem leaves_of_runs {m : Op (Kernel σ) α} (leaves : ∀ k, (k.proc q).state = .running →
    wp m (fun _ => Spares q k) (fun _ => True) k) : Leaves q m := by
  intro k
  by_cases runs : (k.proc q).state = .running
  · exact leaves k runs
  · unfold wp
    split
    next => exact fun now => absurd now runs
    next => trivial

-- The slot of the new process was `UNUSED`.
theorem leaves_fork (cwd : Slot) (memory : Bool) : Leaves q (fork ops p cwd memory) := by
  have files (np : Pid) (new : np ≠ q) (fds : List Fd) : Leaves q (forkFiles p np fds : Op (Kernel σ) _) := by
    induction fds with
    | nil => exact within_pure _
    | cons fd fds ih => grind [forkFiles, setOfile]
  refine leaves_of_runs fun k runs => ?_
  rw [fork, wp_bind_ok (show tables k = .ok (k.toTables, k) from rfl)]
  split
  next => exact refl_of (Spares q) k
  next np found =>
    have new : np ≠ q := by
      rintro rfl
      simpa [runs] using List.find?_some found
    refine (?_ : Leaves q _) k
    grind [setCwd]

omit other in
theorem leaves_wait (killed : Bool) : Leaves q (wait p killed : Op (Kernel σ) _) := by
  refine leaves_of_runs fun k runs => ?_
  rw [wait, wp_bind_ok (show tables k = .ok (k.toTables, k) from rfl)]
  split
  next child found =>
    have zombie : child ≠ q := by
      rintro rfl
      simpa [runs] using List.find?_some found
    exact ((leaves_setProc zombie _).bind fun _ => within_pure _) k
  next => exact ((within_pure _).ite (within_throw _)) k

theorem leaves_syscall (call : Call) : Leaves q (syscall ops p call) := by
  have argfd (fd : Fd) {f : FileId → Op (Kernel σ) Int} (leaves : ∀ file, Leaves q (f file)) : Leaves q (argfd p fd f) := by
    unfold Fs.argfd
    grind
  refine leaves_tables.bind fun t => ?_
  split
  next => exact within_pure _
  next cwd _ =>
    cases call with
    | «open» path omode => exact leaves_sysOpen ops other cwd path omode
    | read fd n r => exact argfd fd fun f => by unfold fileread advance; grind
    | write fd src n r => exact argfd fd fun f => leaves_filewrite ops f src n r
    | close fd => exact argfd fd fun f => by unfold sysClose setOfile; grind
    | dup fd => exact argfd fd fun f => by unfold sysDup; grind
    | fstat fd => exact argfd fd fun f => by unfold filestat; grind
    | mkdir | mknod | link | unlink => exact leaves_onFs _
    | chdir path => exact (leaves_onFs _).bind fun ip => by grind [setCwd]
    | exec path reads console => exact (leaves_onFs _).bind fun _ => within_pure _
    | pipe => exact leaves_sysPipe ops other
    | fork memory => exact leaves_fork ops other cwd memory
    | exit => exact leaves_exit ops other cwd
    | wait killed => exact leaves_wait killed

end Spares

/-- A process that runs keeps its descriptors and its current directory, in every run in which it makes no call. -/
theorem descriptors_private {σ : Type} (ops : Ops σ) (q : Pid) (events : List Event) (k k' : Kernel σ)
    (ran : Run.exec (next ops) k events = some k') (quiet : ∀ call, .call q call ∉ events)
    (runs : (k.proc q).state = .running) :
    (k'.proc q).state = .running ∧ (k'.proc q).cwd = (k.proc q).cwd ∧ (k'.proc q).ofile = (k.proc q).ofile := by
  suffices spares : Spares q k k' from spares runs
  clear runs
  induction events generalizing k with
  | nil =>
    cases ran
    exact refl_of (Spares q) _
  | cons e events ih =>
    rw [Run.exec_cons] at ran
    obtain ⟨k₁, moved, rest⟩ := Option.bind_eq_some_iff.mp ran
    refine IsTrans.trans _ k₁ _ ?_ (ih k₁ rest fun call member => quiet call (List.mem_cons_of_mem _ member))
    cases e with
    | call p call =>
      have other : p ≠ q := fun same => quiet call (same ▸ List.mem_cons_self)
      simp only [next] at moved
      split at moved
      next r k₂ done =>
        cases moved
        exact (leaves_syscall ops other call).ok done
      next => cases moved
    | kalloc =>
      simp only [next] at moved
      split at moved <;> cases moved <;> exact fun runs => ⟨runs, rfl, rfl⟩
    | kfree page =>
      obtain ⟨-, ⟨⟩⟩ := Option.ite_none_right_eq_some.mp moved
      exact fun runs => ⟨runs, rfl, rfl⟩

-- init makes a pipe and forks.
def piped : List Event := [.call 0 .pipe, .call 0 (.fork true)]

-- The child closes one end, duplicates the other into its place, makes a pipe of its own and exits.
def childCalls : List Event := [.call 1 (.close 0), .call 1 (.dup 1), .call 1 .pipe, .kalloc, .call 1 .exit]

theorem descriptors_private_child : ∃ k k', Run.exec (next inodeOps) (boot (fun _ _ => 0) [7, 8, 9]) piped = some k ∧
    (∃ f, (k.proc 0).ofile 0 = some f) ∧ Run.exec (next inodeOps) k childCalls = some k' ∧
    (k'.proc 0).ofile = (k.proc 0).ofile := by
  have evaluated : (Run.exec (next inodeOps) (boot (fun _ _ => 0) [7, 8, 9]) piped).any (fun k =>
      (k.proc 0).state = .running ∧ ((k.proc 0).ofile 0).isSome ∧
        (Run.exec (next inodeOps) k childCalls).isSome) = true := by decide +kernel
  obtain ⟨k, forked, after⟩ := (Option.any_eq_true _ _).mp evaluated
  obtain ⟨runs, isOpen, ended⟩ := of_decide_eq_true after
  obtain ⟨k', ran⟩ := Option.isSome_iff_exists.mp ended
  exact ⟨k, k', forked, Option.isSome_iff_exists.mp isOpen, ran,
    (descriptors_private inodeOps 0 _ k k' ran (by simp [childCalls]) runs).2.2⟩

end Xv6.Fs
