import Xv6.Proc.Move

set_option autoImplicit false

/-!
# Sleep and wakeup

Here `ptable.lock` is explicit: `sleep` and `wakeup` are taken apart where they acquire and release
it, because what matters is the order of those steps. `sched` hands the lock to the scheduler, which
releases it or hands it to the process that it switches to.
-/

namespace Xv6.Ptable

-- Where a process is in `sleep` or `wakeup`.
inductive SleepPc where
  | user
  | tested
  | calls
  | locked
  | released
  | asleep
  | woken
  | back
  | waking
  | scanning
  | scanned
deriving DecidableEq

-- The holder of `ptable.lock`: a process, or the interrupt handler of the timer.
abbrev Holder := Option Slot

structure Core where
  table : Table
  ptlock : Option Holder
  pc : Slot → SleepPc

namespace Core

def goto (s : Core) (p : Slot) (pc : SleepPc) : Core := { s with pc := Function.update s.pc p pc }

def at_ (s : Core) (p : Slot) (pc : SleepPc) : Bool := (s.table.proc p).state = .running ∧ s.pc p = pc

-- `sleep`: acquire(&ptable.lock), the release of `lk` if there is one, and the sleep itself, which ends
-- in the scheduler.
def enter (s : Core) (p : Slot) : Option Core :=
  if s.at_ p .calls ∧ s.ptlock = none then some { s.goto p .locked with ptlock := some (some p) } else none

def drop (s : Core) (p : Slot) : Option Core := if s.at_ p .locked then some (s.goto p .released) else none

def doze (s : Core) (p : Slot) (chan : Chan) : Option Core :=
  if s.at_ p .released then
    some { s.goto p .asleep with table := sleep s.table p chan, ptlock := none }
  else none

-- The scheduler switches to a process. One that is inside `sleep` goes on with the lock held.
def switch (s : Core) (p : Slot) : Option Core :=
  if (s.table.proc p).state = .runnable ∧ s.ptlock = none then
    if s.pc p = .asleep then
      some { s.goto p .woken with table := dispatch s.table p, ptlock := some (some p) }
    else some { s with table := dispatch s.table p }
  else none

def resume (s : Core) (p : Slot) : Option Core :=
  if s.at_ p .woken then some { s.goto p .back with ptlock := none } else none

def wakeupLock (s : Core) (p : Slot) : Option Core :=
  if s.at_ p .waking ∧ s.ptlock = none then some { s.goto p .scanning with ptlock := some (some p) } else none

def wakeupScan (s : Core) (p : Slot) (chan : Chan) : Option Core :=
  if s.at_ p .scanning then some { s.goto p .scanned with table := wakeup1 s.table (some chan) } else none

def wakeupDone (s : Core) (p : Slot) : Option Core :=
  if s.at_ p .scanned then some { s.goto p .user with ptlock := none } else none

-- Preemption, of a process that holds no spinlock; `kill` by a process that is anywhere else.
def yield (s : Core) (p : Slot) : Option Core :=
  if (s.table.proc p).state = .running ∧ s.pc p ∈ [.user, .tested, .calls, .back, .waking] ∧ s.ptlock = none then
    some { s with table := sched s.table p .runnable }
  else none

def kill (s : Core) (p : Slot) (pid : UInt32) : Option Core :=
  if s.at_ p .user ∧ s.ptlock = none then some { s with table := (Ptable.kill s.table pid).getD s.table } else none

end Core

section Sleepers

/-- The process sleeps on the channel. -/
def SleepsOn (t : Table) (chan : Chan) (p : Slot) : Prop :=
  (t.proc p).state = .sleeping ∧ (t.proc p).chan = some chan

instance (t : Table) (chan : Chan) (p : Slot) : Decidable (SleepsOn t chan p) :=
  inferInstanceAs (Decidable ((t.proc p).state = .sleeping ∧ (t.proc p).chan = some chan))

variable {t : Table} {chan : Chan} {i : Slot}

theorem sleepsOn_dispatch (p : Slot) (asleep : SleepsOn (dispatch t p) chan i) : SleepsOn t chan i := by
  by_cases same : i = p
  · subst same
    simp [SleepsOn, dispatch, Table.set] at asleep
  · simpa [SleepsOn, dispatch, Table.set, same] using asleep

theorem sleepsOn_sched (p : Slot) (asleep : SleepsOn (sched t p .runnable) chan i) : SleepsOn t chan i := by
  by_cases same : i = p
  · subst same
    simp [SleepsOn, sched, Table.set] at asleep
  · simpa [SleepsOn, sched, Table.set, same] using asleep

theorem sleepsOn_sleep (p : Slot) (other : Chan) (asleep : SleepsOn (sleep t p other) chan i) :
    i = p ∨ SleepsOn t chan i := by
  by_cases same : i = p
  · exact Or.inl same
  · exact Or.inr (by simpa [SleepsOn, sleep, sched, Table.set, same] using asleep)

theorem sleepsOn_kill (pid : UInt32) (asleep : SleepsOn ((kill t pid).getD t) chan i) : SleepsOn t chan i := by
  cases found : t.first (fun p => p.pid = pid) with
  | none => simpa [kill, found] using asleep
  | some j =>
    rw [kill_found found, Option.getD_some] at asleep
    by_cases same : i = j
    · subst same
      by_cases before : (t.proc i).state = .sleeping <;> simp [SleepsOn, Table.set, flagged, before] at asleep
    · simpa [SleepsOn, Table.set, same] using asleep

theorem not_sleepsOn_wakeup1 : ¬ SleepsOn (wakeup1 t (some chan)) chan i := by
  by_cases wakes : (t.proc i).state = .sleeping ∧ (t.proc i).chan = some chan
  · simp [SleepsOn, wakeup1, wakes]
  · simp [SleepsOn, wakeup1, wakes]

end Sleepers

/-- Processes that wait for a condition under a lock `lk`. `owes` is not part of the code: the process
has made the condition true and has not called `wakeup` since. -/
structure Monitor extends Core where
  lk : Option Slot
  cond : Bool
  owes : Slot → Bool

namespace Monitor

-- `acquire` and `release` are those of `lk`; `test` is the head of `while(!cond)`.
inductive Act where
  | acquire
  | release
  | set (value : Bool)
  | test
  | enter
  | drop
  | doze
  | switch
  | resume
  | reacquire
  | wakeup
  | wakeupLock
  | wakeupScan
  | wakeupDone
  | yield
  | kill (pid : UInt32)

variable (chan : Chan)

def step (s : Monitor) : Slot × Act → Option Monitor
  | (p, .acquire) => if s.at_ p .user ∧ s.lk = none then some { s with lk := some p } else none
  | (p, .release) => if s.at_ p .user ∧ s.lk = some p then some { s with lk := none } else none
  | (p, .set value) =>
    if s.at_ p .user ∧ (value = true → s.lk = some p) then
      some { s with cond := value, owes := if value then Function.update s.owes p true else s.owes }
    else none
  | (p, .test) =>
    if s.at_ p .user ∧ s.lk = some p then
      if s.cond then some s else some { s with toCore := s.goto p .calls }
    else none
  | (p, .enter) => (s.enter p).map fun core => { s with toCore := core }
  | (p, .drop) => (s.drop p).map fun core => { s with toCore := core, lk := none }
  | (p, .doze) => (s.doze p chan).map fun core => { s with toCore := core }
  | (p, .switch) => (s.switch p).map fun core => { s with toCore := core }
  | (p, .resume) => (s.resume p).map fun core => { s with toCore := core }
  | (p, .reacquire) =>
    if s.at_ p .back ∧ s.lk = none then some { s with toCore := s.goto p .user, lk := some p } else none
  | (p, .wakeup) => if s.at_ p .user then some { s with toCore := s.goto p .waking } else none
  | (p, .wakeupLock) => (s.wakeupLock p).map fun core => { s with toCore := core }
  | (p, .wakeupScan) =>
    (s.wakeupScan p chan).map fun core => { s with toCore := core, owes := Function.update s.owes p false }
  | (p, .wakeupDone) => (s.wakeupDone p).map fun core => { s with toCore := core }
  | (p, .yield) => if s.lk ≠ some p then (s.yield p).map fun core => { s with toCore := core } else none
  | (p, .kill pid) => (s.kill p pid).map fun core => { s with toCore := core }

/-- Nobody is inside `sleep` or `wakeup`, and nobody sleeps on the channel. -/
structure Initial (s : Monitor) : Prop where
  out : ∀ p, s.pc p = .user
  awake : ∀ p, ¬ SleepsOn s.table chan p

-- The condition does not hold, or a wakeup is still to come.
def Excused (cond : Bool) (owes : Slot → Bool) : Prop := cond = true → ∃ q, owes q = true

structure Sound (s : Monitor) : Prop where
  calls : ∀ p, s.pc p = .calls ∨ s.pc p = .locked → s.lk = some p ∧ s.cond = false
  ptlock : ∀ p, s.pc p ∈ [.locked, .released, .woken, .scanning, .scanned] → s.ptlock = some (some p)
  released : ∀ p, s.pc p = .released → Excused s.cond s.owes
  asleep : ∀ p, SleepsOn s.table chan p → Excused s.cond s.owes

variable {chan} {s s' : Monitor}

theorem Sound.step (sound : s.Sound chan) (label : Slot × Act) (moved : s.step chan label = some s') :
    s'.Sound chan := by
  obtain ⟨p, act⟩ := label
  obtain ⟨calls, ptlock, released, asleep⟩ := sound
  cases act with
  | acquire =>
    simp only [Monitor.step, Option.ite_none_right_eq_some, Option.some.injEq] at moved
    obtain ⟨⟨here, free⟩, rfl⟩ := moved
    refine ⟨?_, ptlock, released, asleep⟩
    grind
  | release =>
    simp only [Monitor.step, Option.ite_none_right_eq_some, Option.some.injEq] at moved
    obtain ⟨⟨here, held⟩, rfl⟩ := moved
    refine ⟨?_, ptlock, released, asleep⟩
    grind [Core.at_]
  | set value =>
    simp only [Monitor.step, Option.ite_none_right_eq_some, Option.some.injEq] at moved
    obtain ⟨⟨here, held⟩, rfl⟩ := moved
    cases value with
    | true =>
      -- The process holds `lk`, so nobody has just tested the condition; and it owes a wakeup.
      have owed : ∃ q, Function.update s.owes p true q = true := ⟨p, by simp⟩
      refine ⟨?_, ptlock, fun _ _ _ => owed, fun _ _ _ => owed⟩
      grind [Core.at_]
    | false =>
      refine ⟨fun q at_ => ⟨(calls q at_).1, rfl⟩, ptlock, ?_, ?_⟩ <;> simp [Excused]
  | test =>
    simp only [Monitor.step, Option.ite_none_right_eq_some] at moved
    obtain ⟨⟨here, held⟩, moved⟩ := moved
    split at moved
    next =>
      cases moved
      exact ⟨calls, ptlock, released, asleep⟩
    next false_ =>
      cases moved
      refine ⟨?_, ?_, ?_, asleep⟩ <;> simp only [Core.goto, Function.update_apply] <;> grind
  | enter =>
    simp only [Monitor.step, Core.enter, Option.map_eq_some_iff, Option.ite_none_right_eq_some,
      Option.some.injEq] at moved
    obtain ⟨_, ⟨⟨here, free⟩, rfl⟩, rfl⟩ := moved
    refine ⟨?_, ?_, ?_, asleep⟩ <;> simp only [Core.goto, Function.update_apply] <;> grind [Core.at_]
  | drop =>
    simp only [Monitor.step, Core.drop, Option.map_eq_some_iff, Option.ite_none_right_eq_some,
      Option.some.injEq] at moved
    obtain ⟨_, ⟨here, rfl⟩, rfl⟩ := moved
    have false_ : s.cond = false := (calls p (Or.inr (by simp_all [Core.at_]))).2
    have excused : Excused s.cond s.owes := fun true_ => by rw [false_] at true_; cases true_
    refine ⟨?_, ?_, fun _ _ => excused, asleep⟩ <;> simp only [Core.goto, Function.update_apply] <;>
      grind [Core.at_]
  | doze =>
    simp only [Monitor.step, Core.doze, Option.map_eq_some_iff, Option.ite_none_right_eq_some,
      Option.some.injEq] at moved
    obtain ⟨_, ⟨here, rfl⟩, rfl⟩ := moved
    have excused : Excused s.cond s.owes := released p (by simp_all [Core.at_])
    refine ⟨?_, ?_, fun _ _ => excused, fun _ _ => excused⟩ <;>
      simp only [Core.goto, Function.update_apply] <;> grind [Core.at_]
  | switch =>
    simp only [Monitor.step, Core.switch, Option.map_eq_some_iff, Option.ite_none_right_eq_some] at moved
    obtain ⟨core, ⟨⟨runnable, free⟩, moved⟩, rfl⟩ := moved
    split at moved
    next inside =>
      cases moved
      refine ⟨?_, ?_, ?_, fun i sleeps => asleep i (sleepsOn_dispatch p sleeps)⟩ <;>
        simp only [Core.goto, Function.update_apply] <;> grind
    next outside =>
      cases moved
      exact ⟨calls, ptlock, released, fun i sleeps => asleep i (sleepsOn_dispatch p sleeps)⟩
  | resume =>
    simp only [Monitor.step, Core.resume, Option.map_eq_some_iff, Option.ite_none_right_eq_some,
      Option.some.injEq] at moved
    obtain ⟨_, ⟨here, rfl⟩, rfl⟩ := moved
    refine ⟨?_, ?_, ?_, asleep⟩ <;> simp only [Core.goto, Function.update_apply] <;> grind [Core.at_]
  | reacquire =>
    simp only [Monitor.step, Option.ite_none_right_eq_some, Option.some.injEq] at moved
    obtain ⟨⟨here, free⟩, rfl⟩ := moved
    refine ⟨?_, ?_, ?_, asleep⟩ <;> simp only [Core.goto, Function.update_apply] <;> grind
  | wakeup =>
    simp only [Monitor.step, Option.ite_none_right_eq_some, Option.some.injEq] at moved
    obtain ⟨here, rfl⟩ := moved
    refine ⟨?_, ?_, ?_, asleep⟩ <;> simp only [Core.goto, Function.update_apply] <;> grind
  | wakeupLock =>
    simp only [Monitor.step, Core.wakeupLock, Option.map_eq_some_iff, Option.ite_none_right_eq_some,
      Option.some.injEq] at moved
    obtain ⟨_, ⟨⟨here, free⟩, rfl⟩, rfl⟩ := moved
    refine ⟨?_, ?_, ?_, asleep⟩ <;> simp only [Core.goto, Function.update_apply] <;> grind
  | wakeupScan =>
    simp only [Monitor.step, Core.wakeupScan, Option.map_eq_some_iff, Option.ite_none_right_eq_some,
      Option.some.injEq] at moved
    obtain ⟨_, ⟨here, rfl⟩, rfl⟩ := moved
    -- The scan holds `ptable.lock`, so nobody is between the release of `lk` and the sleep.
    refine ⟨?_, ?_, ?_, fun i sleeps => absurd sleeps not_sleepsOn_wakeup1⟩ <;>
      simp only [Core.goto, Function.update_apply] <;> grind [Core.at_]
  | wakeupDone =>
    simp only [Monitor.step, Core.wakeupDone, Option.map_eq_some_iff, Option.ite_none_right_eq_some,
      Option.some.injEq] at moved
    obtain ⟨_, ⟨here, rfl⟩, rfl⟩ := moved
    refine ⟨?_, ?_, ?_, asleep⟩ <;> simp only [Core.goto, Function.update_apply] <;> grind [Core.at_]
  | yield =>
    simp only [Monitor.step, Core.yield, Option.ite_none_right_eq_some, Option.map_eq_some_iff,
      Option.some.injEq] at moved
    obtain ⟨other, _, ⟨here, rfl⟩, rfl⟩ := moved
    exact ⟨calls, ptlock, released, fun i sleeps => asleep i (sleepsOn_sched p sleeps)⟩
  | kill pid =>
    simp only [Monitor.step, Core.kill, Option.map_eq_some_iff, Option.ite_none_right_eq_some,
      Option.some.injEq] at moved
    obtain ⟨_, ⟨here, rfl⟩, rfl⟩ := moved
    exact ⟨calls, ptlock, released, fun i sleeps => asleep i (sleepsOn_kill pid sleeps)⟩

/-- Nobody sleeps on the channel while the condition holds, unless a process that made it true has
yet to call `wakeup`. -/
theorem no_lost_wakeup (chan : Chan) (start s : Monitor) (initial : start.Initial chan)
    (labels : List (Slot × Act)) (run : Run.exec (Monitor.step chan) start labels = some s) (p : Slot)
    (sleeps : (s.table.proc p).state = .sleeping) (on : (s.table.proc p).chan = some chan)
    (holds : s.cond = true) : ∃ q, s.owes q = true := by
  have first : start.Sound chan := by
    constructor
    case asleep => exact fun p sleeps => absurd sleeps (initial.awake p)
    all_goals simp [initial.out]
  have sound : s.Sound chan :=
    Run.exec_invariant (Monitor.step chan) (Sound chan) (fun _ label _ sound moved => sound.step label moved)
      start s labels first run
  exact sound.asleep p ⟨sleeps, on⟩ holds

-- Two processes that run. One goes to sleep, and the other one makes the condition true.
def pair : Monitor where
  table := (userinit.table.set 0 { zeroProc with state := .running }).set 1 { zeroProc with state := .running }
  ptlock := none
  pc := fun _ => .user
  lk := none
  cond := false
  owes := fun _ => false

def pairRun : List (Slot × Act) :=
  [(0, .acquire), (0, .test), (0, .enter), (0, .drop), (0, .doze), (1, .acquire), (1, .set true)]

theorem no_lost_wakeup_pair :
    ∃ s, Run.exec (Monitor.step (.other 0)) pair pairRun = some s ∧ (s.table.proc 0).state = .sleeping ∧
      s.cond = true ∧ ∃ q, s.owes q = true := by
  have initial : pair.Initial (.other 0) := by
    refine ⟨fun _ => rfl, fun p sleeps => ?_⟩
    by_cases one : p = 1
    · simp [SleepsOn, pair, Table.set, one] at sleeps
    · by_cases zero : p = 0 <;> simp [SleepsOn, pair, Table.set, one, zero, userinit, zeroProc] at sleeps
  have evaluated : (Run.exec (Monitor.step (.other 0)) pair pairRun).any (fun s =>
      (s.table.proc 0).state = .sleeping ∧ (s.table.proc 0).chan = some (.other 0) ∧ s.cond = true) = true := by
    decide +kernel
  obtain ⟨s, run, ends⟩ := (Option.any_eq_true _ _).mp evaluated
  obtain ⟨sleeps, on, holds⟩ := of_decide_eq_true ends
  exact ⟨s, run, sleeps, holds, no_lost_wakeup _ pair s initial pairRun run 0 sleeps on holds⟩

end Monitor

end Xv6.Ptable
