import Xv6.Proc.Sleep

set_option autoImplicit false

/-!
# `sys_sleep` and the timer

`sys_sleep` tests `ticks` and calls `sleep` without a lock. The timer adds to `ticks` and then calls
`wakeup`, and may do both between the test and the sleep.
-/

namespace Xv6.Ptable

inductive TimerPc where
  | idle
  | ticked
  | scanning
  | scanned
deriving DecidableEq

/-- Processes in `sys_sleep`, which sleeps without a lock, and the timer. `late` is not part of the
code: a wakeup has gone by since the last test, when the time asked for was over. -/
structure Clock extends Core where
  timer : TimerPc
  ticks0 : Slot → UInt32
  n : Slot → UInt32
  late : Slot → Bool

namespace Clock

inductive Act where
  | sysSleep (p : Slot) (n : UInt32)
  | test (p : Slot)
  | checkKilled (p : Slot)
  | enter (p : Slot)
  | drop (p : Slot)
  | doze (p : Slot)
  | switch (p : Slot)
  | resume (p : Slot)
  | yield (p : Slot)
  | kill (p : Slot) (pid : UInt32)
  | tick
  | timerLock
  | timerScan
  | timerDone

-- The loop of `sys_sleep` ends: the difference and the comparison are unsigned.
def due (s : Clock) (p : Slot) : Bool := ¬ s.table.ticks - s.ticks0 p < s.n p

variable (chan : Chan)

-- Back from `sleep` a process is at the head of the loop, as at the start.
def step (s : Clock) : Act → Option Clock
  | .sysSleep p n =>
    if s.at_ p .user then
      some { s with
        toCore := s.goto p .back
        ticks0 := Function.update s.ticks0 p s.table.ticks
        n := Function.update s.n p n }
    else none
  | .test p =>
    if s.at_ p .back then
      if s.due p then some { s with toCore := s.goto p .user }
      else some { s with toCore := s.goto p .tested, late := Function.update s.late p false }
    else none
  | .checkKilled p =>
    if s.at_ p .tested then
      some { s with toCore := s.goto p (if (s.table.proc p).killed then .user else .calls) }
    else none
  | .enter p => (s.enter p).map fun core => { s with toCore := core }
  | .drop p => (s.drop p).map fun core => { s with toCore := core }
  | .doze p => (s.doze p chan).map fun core => { s with toCore := core }
  | .switch p => (s.switch p).map fun core => { s with toCore := core }
  | .resume p => (s.resume p).map fun core => { s with toCore := core }
  | .yield p => (s.yield p).map fun core => { s with toCore := core }
  | .kill p pid => (s.kill p pid).map fun core => { s with toCore := core }
  | .tick =>
    if s.timer = .idle then
      some { s with table := { s.table with ticks := s.table.ticks + 1 }, timer := .ticked }
    else none
  | .timerLock =>
    if s.timer = .ticked ∧ s.ptlock = none then some { s with ptlock := some none, timer := .scanning } else none
  | .timerScan =>
    if s.timer = .scanning then
      some { s with
        table := wakeup1 s.table (some chan)
        timer := .scanned
        late := fun p => s.late p || s.due p }
    else none
  | .timerDone => if s.timer = .scanned then some { s with ptlock := none, timer := .idle } else none

/-- Nobody is inside `sys_sleep`, and the timer is at rest. -/
structure Initial (s : Clock) : Prop where
  out : ∀ p, s.pc p = .user
  idle : s.timer = .idle
  unlocked : s.ptlock = none

/-- The process has found that it must sleep, and does not sleep yet. -/
def InWindow (s : Clock) (p : Slot) : Prop := s.pc p ∈ [.tested, .calls, .locked, .released]

-- The condition on a step: the wakeup of a tick finds nobody in the window whose time is over.
def Punctual (s : Clock) : Act → Prop
  | .timerScan => ∀ p, s.InWindow p → s.due p = false
  | _ => True

instance (s : Clock) (p : Slot) : Decidable (s.InWindow p) :=
  inferInstanceAs (Decidable (s.pc p ∈ [.tested, .calls, .locked, .released]))

instance (s : Clock) (act : Act) : Decidable (s.Punctual act) :=
  match act with
  | .timerScan => inferInstanceAs (Decidable (∀ p, s.InWindow p → s.due p = false))
  | .sysSleep _ _ | .test _ | .checkKilled _ | .enter _ | .drop _ | .doze _ | .switch _ | .resume _ | .yield _
  | .kill _ _ | .tick | .timerLock | .timerDone => isTrue trivial

variable {chan} {s s' : Clock}

-- No wakeup has gone by for a process in the window.
def OnTime (s : Clock) : Prop := ∀ p, s.InWindow p → s.late p = false

theorem OnTime.step (ontime : s.OnTime) (act : Act) (punctual : s.Punctual act)
    (moved : s.step chan act = some s') : s'.OnTime := by
  intro q window
  cases act with
  | sysSleep p n =>
    simp only [Clock.step, Option.ite_none_right_eq_some, Option.some.injEq] at moved
    obtain ⟨here, rfl⟩ := moved
    simp only [InWindow, Core.goto, Function.update_apply] at window
    grind [OnTime, InWindow]
  | test p =>
    simp only [Clock.step, Option.ite_none_right_eq_some] at moved
    obtain ⟨here, moved⟩ := moved
    split at moved <;> cases moved <;> simp only [InWindow, Core.goto, Function.update_apply] at window ⊢ <;>
      grind [OnTime, InWindow]
  | checkKilled p =>
    simp only [Clock.step, Option.ite_none_right_eq_some, Option.some.injEq] at moved
    obtain ⟨here, rfl⟩ := moved
    simp only [InWindow, Core.goto, Function.update_apply] at window
    grind [OnTime, InWindow, Core.at_]
  | enter p | drop p | doze p | resume p =>
    simp only [Clock.step, Core.enter, Core.drop, Core.doze, Core.resume, Option.map_eq_some_iff,
      Option.ite_none_right_eq_some, Option.some.injEq] at moved
    obtain ⟨_, ⟨here, rfl⟩, rfl⟩ := moved
    simp only [InWindow, Core.goto, Function.update_apply] at window
    grind [OnTime, InWindow, Core.at_]
  | switch p =>
    simp only [Clock.step, Core.switch, Option.map_eq_some_iff, Option.ite_none_right_eq_some] at moved
    obtain ⟨_, ⟨here, moved⟩, rfl⟩ := moved
    split at moved <;> cases moved <;> simp only [InWindow, Core.goto, Function.update_apply] at window <;>
      grind [OnTime, InWindow]
  | yield p | kill p pid =>
    simp only [Clock.step, Core.yield, Core.kill, Option.map_eq_some_iff, Option.ite_none_right_eq_some,
      Option.some.injEq] at moved
    obtain ⟨_, ⟨here, rfl⟩, rfl⟩ := moved
    exact ontime q window
  | tick | timerLock | timerDone =>
    simp only [Clock.step, Option.ite_none_right_eq_some, Option.some.injEq] at moved
    obtain ⟨here, rfl⟩ := moved
    exact ontime q window
  | timerScan =>
    simp only [Clock.step, Option.ite_none_right_eq_some, Option.some.injEq] at moved
    obtain ⟨here, rfl⟩ := moved
    have inside : s.InWindow q := window
    simp [ontime q inside, punctual q inside]

theorem becomes_asleep (act : Act) (moved : s.step chan act = some s') (p : Slot)
    (before : ¬ SleepsOn s.table chan p) (after : SleepsOn s'.table chan p) :
    s.InWindow p ∧ s'.late = s.late := by
  cases act with
  | doze q =>
    simp only [Clock.step, Core.doze, Option.map_eq_some_iff, Option.ite_none_right_eq_some,
      Option.some.injEq] at moved
    obtain ⟨_, ⟨here, rfl⟩, rfl⟩ := moved
    rcases sleepsOn_sleep q chan after with rfl | old
    · exact ⟨by simp_all [InWindow, Core.at_], rfl⟩
    · exact absurd old before
  | sysSleep q n | checkKilled q =>
    simp only [Clock.step, Option.ite_none_right_eq_some, Option.some.injEq] at moved
    obtain ⟨here, rfl⟩ := moved
    exact absurd after before
  | test q =>
    simp only [Clock.step, Option.ite_none_right_eq_some] at moved
    obtain ⟨here, moved⟩ := moved
    split at moved <;> cases moved <;> exact absurd after before
  | enter q | drop q | resume q =>
    simp only [Clock.step, Core.enter, Core.drop, Core.resume, Option.map_eq_some_iff,
      Option.ite_none_right_eq_some, Option.some.injEq] at moved
    obtain ⟨_, ⟨here, rfl⟩, rfl⟩ := moved
    exact absurd after before
  | switch q =>
    simp only [Clock.step, Core.switch, Option.map_eq_some_iff, Option.ite_none_right_eq_some] at moved
    obtain ⟨_, ⟨here, moved⟩, rfl⟩ := moved
    split at moved <;> cases moved <;> exact absurd (sleepsOn_dispatch q after) before
  | yield q =>
    simp only [Clock.step, Core.yield, Option.map_eq_some_iff, Option.ite_none_right_eq_some,
      Option.some.injEq] at moved
    obtain ⟨_, ⟨here, rfl⟩, rfl⟩ := moved
    exact absurd (sleepsOn_sched q after) before
  | kill q pid =>
    simp only [Clock.step, Core.kill, Option.map_eq_some_iff, Option.ite_none_right_eq_some,
      Option.some.injEq] at moved
    obtain ⟨_, ⟨here, rfl⟩, rfl⟩ := moved
    exact absurd (sleepsOn_kill pid after) before
  | tick | timerLock | timerDone =>
    simp only [Clock.step, Option.ite_none_right_eq_some, Option.some.injEq] at moved
    obtain ⟨here, rfl⟩ := moved
    exact absurd after before
  | timerScan =>
    simp only [Clock.step, Option.ite_none_right_eq_some, Option.some.injEq] at moved
    obtain ⟨here, rfl⟩ := moved
    exact absurd after not_sleepsOn_wakeup1

/-- The process is put to sleep although its time is over and the wakeup has gone by. -/
def Misses (chan : Chan) (s s' : Clock) (p : Slot) : Prop :=
  ¬ SleepsOn s.table chan p ∧ SleepsOn s'.table chan p ∧ s'.due p = true ∧ s'.late p = true

/-- In a run in which no wakeup finds a process in the window with its time over, nobody misses the
tick that ends its sleep. -/
theorem no_lost_tick_of_punctual (chan : Chan) (start s s' : Clock) (initial : start.Initial) (acts : List Act)
    (act : Act) (run : Run.exec (Clock.step chan) start acts = some s) (moved : s.step chan act = some s')
    (punctual : Run.Meets (Clock.step chan) Punctual start (acts ++ [act])) (p : Slot) : ¬ Misses chan s s' p := by
  rintro ⟨before, after, -, late⟩
  have earlier := (Run.meets_append (Clock.step chan) Punctual start s acts [act] run punctual).1
  have first : start.OnTime := by
    intro p window
    simp [InWindow, initial.out] at window
  have ontime : s.OnTime :=
    Run.exec_invariant_of_meets (Clock.step chan) Punctual OnTime
      (fun _ act _ ontime punctual moved => ontime.step act punctual moved) start s acts first run earlier
  obtain ⟨window, same⟩ := becomes_asleep act moved p before after
  rw [same, ontime p window] at late
  cases late

-- One process asks for one tick.
def sleeper : Clock where
  table := userinit.table.set 0 { zeroProc with state := .running }
  ptlock := none
  pc := fun _ => .user
  timer := .idle
  ticks0 := fun _ => 0
  n := fun _ => 0
  late := fun _ => false

theorem sleeper_initial : sleeper.Initial := ⟨fun _ => rfl, rfl, rfl⟩

-- The tick comes before the process has called `sleep`.
def earlyTick : List Act :=
  [.sysSleep 0 1, .test 0, .checkKilled 0, .tick, .timerLock, .timerScan, .timerDone, .enter 0, .drop 0]

-- The tick comes after it.
def lateTick : List Act := [.sysSleep 0 1, .test 0, .checkKilled 0, .enter 0, .drop 0]

theorem no_lost_tick_of_punctual_late :
    ∃ s s', Run.exec (Clock.step (.other 0)) sleeper lateTick = some s ∧
      s.step (.other 0) (.doze 0) = some s' ∧ SleepsOn s'.table (.other 0) 0 ∧ ¬ Misses (.other 0) s s' 0 := by
  have evaluated : (Run.exec (Clock.step (.other 0)) sleeper lateTick).any (fun s =>
      (s.step (.other 0) (.doze 0)).any fun s' => SleepsOn s'.table (.other 0) 0) = true := by decide +kernel
  obtain ⟨s, run, rest⟩ := (Option.any_eq_true _ _).mp evaluated
  obtain ⟨s', moved, asleep⟩ := (Option.any_eq_true _ _).mp rest
  have punctual : Run.Meets (Clock.step (.other 0)) Punctual sleeper (lateTick ++ [.doze 0]) := by decide +kernel
  exact ⟨s, s', run, moved, of_decide_eq_true asleep,
    no_lost_tick_of_punctual _ sleeper s s' sleeper_initial lateTick (.doze 0) run moved punctual 0⟩

theorem tick_is_lost :
    ¬ ∀ (chan : Chan) (start s s' : Clock) (acts : List Act) (act : Act), start.Initial →
      Run.exec (Clock.step chan) start acts = some s → s.step chan act = some s' → ∀ p, ¬ Misses chan s s' p := by
  intro safe
  have evaluated : (Run.exec (Clock.step (.other 0)) sleeper earlyTick).any (fun s =>
      ¬ SleepsOn s.table (.other 0) 0 ∧ (s.step (.other 0) (.doze 0)).any fun s' =>
        SleepsOn s'.table (.other 0) 0 ∧ s'.due 0 = true ∧ s'.late 0 = true) = true := by decide +kernel
  obtain ⟨s, run, rest⟩ := (Option.any_eq_true _ _).mp evaluated
  obtain ⟨awake, rest⟩ := of_decide_eq_true rest
  obtain ⟨s', moved, ends⟩ := (Option.any_eq_true _ _).mp rest
  exact safe _ sleeper s s' earlyTick (.doze 0) sleeper_initial run moved 0 ⟨awake, of_decide_eq_true ends⟩

end Clock

end Xv6.Ptable
