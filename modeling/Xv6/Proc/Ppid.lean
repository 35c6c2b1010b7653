import Xv6.Proc.Getproc

set_option autoImplicit false

/-!
# The parents that are reported

`sys_getppid`, the `ppid` that `getproc` stores and the column PPID of `procdump`. The last two are
computed from the parent's uid.
-/

namespace Xv6.Ptable

open Memory

-- Called by the process in slot `i`.
def sysGetppid (t : Table) (i : Slot) : UInt32 :=
  match (t.proc i).parent with
  | some q => (t.proc q).pid
  | none => (t.proc i).pid

def stateName : ProcState → String
  | .unused => "unused"
  | .embryo => "embryo"
  | .sleeping => "sleep "
  | .runnable => "runble"
  | .running => "run   "
  | .zombie => "zombie"

-- A line of `procdump`, without the return addresses of a process that sleeps.
structure DumpLine where
  pid : UInt32
  name : List UInt8
  uid : UInt32
  gid : UInt32
  ppid : UInt32
  seconds : UInt32
  thousandths : UInt32
  cpu : UInt32
  state : String
  sz : UInt32

def dumpLine (t : Table) (i : Slot) : DumpLine :=
  let p := t.proc i
  { pid := p.pid
    name := p.name.text
    uid := p.uid
    gid := p.gid
    ppid :=
      match p.parent with
      | none => p.uid
      | some q => (t.proc q).uid
    seconds := (t.ticks - p.startTicks) / 1000
    thousandths := (t.ticks - p.startTicks) % 1000
    cpu := p.cpuTicksTotal
    state := stateName p.state
    sz := p.sz }

def procdump (t : Table) : List DumpLine := (active t).map (dumpLine t)

/-- Both listings report the parents that `sys_getppid` returns, and `getproc` follows no null pointer. -/
structure ParentsAgree (t : Table) (max : Int) (table : Nat) (mem : Mem) : Prop where
  stored : ∀ (k : Nat) (i : Slot), (visited t max (List.finRange NPROC))[k]? = some i →
    wordAt (stores mem (getproc t max table mem).2) (table + UPROC * k + 12) = sysGetppid t i
  followed : ∀ i ∈ visited t max (List.finRange NPROC), (t.proc i).parent ≠ none
  printed : (procdump t).map DumpLine.ppid = (active t).map (sysGetppid t)

-- The process's own uid, where it has no parent.
def ParentUidIsPid (t : Table) (i : Slot) : Prop :=
  match (t.proc i).parent with
  | some q => (t.proc q).uid = (t.proc q).pid
  | none => (t.proc i).uid = (t.proc i).pid

theorem dumpLine_ppid_iff (t : Table) (i : Slot) : (dumpLine t i).ppid = sysGetppid t i ↔ ParentUidIsPid t i := by
  rw [dumpLine, sysGetppid, ParentUidIsPid]
  cases (t.proc i).parent <;> rfl

theorem printed_iff (t : Table) :
    (procdump t).map DumpLine.ppid = (active t).map (sysGetppid t) ↔ ∀ i ∈ active t, ParentUidIsPid t i := by
  rw [procdump, List.map_map, List.map_inj_left]
  exact forall₂_congr fun i _ => dumpLine_ppid_iff t i

theorem getproc_ppid (t : Table) (max : Int) (table : Nat) (mem : Mem) (k : Nat) (i : Slot)
    (at_ : (visited t max (List.finRange NPROC))[k]? = some i) {q : Slot} (parent : (t.proc i).parent = some q) :
    wordAt (stores mem (getproc t max table mem).2) (table + UPROC * k + 12) =
      if (t.proc q).uid = 0 then (t.proc i).uid else (t.proc q).uid := by
  obtain ⟨before, rest, stored, away⟩ := getproc_entry t max table mem k i at_
  rw [stored]
  refine uprocStores_word t before _ i rest away _ _ ?_
  simp [uprocStores, headStores, tailStores, parentUid, parent]

/-- The listings agree exactly if the parent of each process has its pid for a uid, and each process that
`getproc` lists has a parent whose uid is not 0, or has the uid 0 too. -/
theorem parents_agree_iff (t : Table) (max : Int) (table : Nat) (mem : Mem) :
    ParentsAgree t max table mem ↔
      (∀ i ∈ active t, ParentUidIsPid t i) ∧
        ∀ i ∈ visited t max (List.finRange NPROC),
          ∃ q, (t.proc i).parent = some q ∧ ((t.proc q).uid = 0 → (t.proc i).uid = 0) := by
  have isActive (i : Slot) (member : i ∈ visited t max (List.finRange NPROC)) : i ∈ active t := by
    have taken : listed t max i = true := List.mem_takeWhile_imp member
    exact List.mem_filter.mpr ⟨List.mem_finRange i, used_of_listed t max i taken⟩
  constructor
  · intro agree
    have same := (printed_iff t).mp agree.printed
    refine ⟨same, fun i member => ?_⟩
    obtain ⟨q, parent⟩ := Option.ne_none_iff_exists'.mp (agree.followed i member)
    refine ⟨q, parent, fun zero => ?_⟩
    obtain ⟨k, at_⟩ := List.mem_iff_getElem?.mp member
    have pid : (t.proc q).uid = (t.proc q).pid := by simpa [ParentUidIsPid, parent] using same i (isActive i member)
    have stored := agree.stored k i at_
    rw [getproc_ppid t max table mem k i at_ parent, if_pos zero] at stored
    rw [stored, sysGetppid, parent]
    exact pid.symm.trans zero
  · rintro ⟨same, parents⟩
    refine ⟨fun k i at_ => ?_, fun i member => ?_, (printed_iff t).mpr same⟩
    · have member := List.mem_of_getElem? at_
      obtain ⟨q, parent, zero⟩ := parents i member
      have pid : (t.proc q).uid = (t.proc q).pid := by simpa [ParentUidIsPid, parent] using same i (isActive i member)
      rw [getproc_ppid t max table mem k i at_ parent, sysGetppid, parent]
      split
      · next isZero => exact (zero isZero).trans (isZero.symm.trans pid)
      · exact pid
    · obtain ⟨q, parent, -⟩ := parents i member
      simp [parent]

-- init is its own parent and is reported by its uid. While init forks, the parent of the new process is null.
theorem parents_disagree :
    (Reachable userinit ∧ sysGetppid userinit.table 0 = 1 ∧ (dumpLine userinit.table 0).ppid = DEFAULT_UID ∧
        wordAt (stores (fun _ => 0) (getproc userinit.table 64 0 fun _ => 0).2) 12 = DEFAULT_UID ∧
        ¬ ParentsAgree userinit.table 64 0 fun _ => 0) ∧
      ∃ k, Reachable k ∧ (k.table.proc 1).state = .embryo ∧
        1 ∈ visited k.table 64 (List.finRange NPROC) ∧ (k.table.proc 1).parent = none := by
  have first : (visited userinit.table 64 (List.finRange NPROC))[0]? = some 0 := by decide +kernel
  have word := getproc_ppid userinit.table 64 0 (fun _ => 0) 0 0 first rfl
  have uid : wordAt (stores (fun _ => 0) (getproc userinit.table 64 0 fun _ => 0).2) 12 = DEFAULT_UID := word
  refine ⟨⟨⟨[], rfl⟩, rfl, rfl, uid, fun agree => ?_⟩, ?_⟩
  · have stored := agree.stored 0 0 first
    exact absurd (uid.symm.trans stored) (by decide)
  · have runs : (Run.exec step userinit [.dispatch 0, .forkAlloc 0]).isSome = true := by decide +kernel
    obtain ⟨k, run⟩ := Option.isSome_iff_exists.mp runs
    have new : (Run.exec step userinit [.dispatch 0, .forkAlloc 0]).all (fun k =>
        (k.table.proc 1).state = .embryo ∧ 1 ∈ visited k.table 64 (List.finRange NPROC) ∧
          (k.table.proc 1).parent = none) = true := by
      decide +kernel
    rw [run] at new
    simp only [Option.all_some, decide_eq_true_eq] at new
    exact ⟨k, ⟨_, run⟩, new⟩

end Xv6.Ptable
