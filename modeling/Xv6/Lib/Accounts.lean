import Mathlib

set_option autoImplicit false

/-!
# Accounts of processor time

Jobs take turns on processors. A job is charged, at the end of each burst, with the time that has passed
since its dispatch. The slots of the jobs are used again, so a job is known by a serial number; the books
that say which bursts there were are not part of what is charged.
-/

namespace Accounts

section Bursts

/-- A burst that has ended: what the clock showed at its ends, and which steps of the run they were. -/
structure Burst (C : Type) where
  serial : Nat
  cpu : C
  start : Nat
  stop : Nat
  began : Nat
  ended : Nat

variable {C : Type}

def Burst.length (x : Burst C) : Nat := x.stop - x.start

/-- Two bursts do not overlap, by the clock and in the run. -/
def Burst.Before (x y : Burst C) : Prop := x.stop ≤ y.start ∧ x.ended < y.began

def spent (bursts : List (Burst C)) : Nat := (bursts.map Burst.length).sum

def spentBy (bursts : List (Burst C)) (serial : Nat) : Nat := spent (bursts.filter (·.serial = serial))

theorem spentBy_cons (x : Burst C) (bursts : List (Burst C)) (serial : Nat) :
    spentBy (x :: bursts) serial = (if x.serial = serial then x.length else 0) + spentBy bursts serial := by
  by_cases same : x.serial = serial <;> simp [spentBy, spent, same]

theorem spentBy_eq_zero {bursts : List (Burst C)} {serial : Nat} (none : ∀ x ∈ bursts, x.serial ≠ serial) :
    spentBy bursts serial = 0 := by
  have empty : bursts.filter (·.serial = serial) = [] := List.filter_eq_nil_iff.mpr (by simpa using none)
  rw [spentBy, empty]
  rfl

variable [DecidableEq C]

def spentOn (bursts : List (Burst C)) (c : C) : Nat := spent (bursts.filter (·.cpu = c))

theorem spentOn_cons (x : Burst C) (bursts : List (Burst C)) (c : C) :
    spentOn (x :: bursts) c = (if x.cpu = c then x.length else 0) + spentOn bursts c := by
  by_cases same : x.cpu = c <;> simp [spentOn, spent, same]

theorem spent_eq_sum [Fintype C] (bursts : List (Burst C)) : spent bursts = ∑ c, spentOn bursts c := by
  induction bursts with
  | nil => simp [spent, spentOn]
  | cons x bursts ih =>
    have first : spent (x :: bursts) = x.length + spent bursts := by simp [spent]
    rw [first, ih]
    simp only [spentOn_cons, Finset.sum_add_distrib, Finset.sum_ite_eq, Finset.mem_univ, if_true]

end Bursts

/-- A slot is free; its job still has the counters of the job before (`raw`), or a start of its own and the
total of the job before (`torn`); the job waits for a processor, or runs. -/
inductive Stage where
  | free
  | raw
  | torn
  | idle
  | running
deriving DecidableEq

def Stage.counted : Stage → Bool
  | .idle | .running => true
  | .free | .raw | .torn => false

/-- What is charged: the counters of the slots. -/
@[ext] structure Meter (S C : Type) where
  clock : Nat
  start : S → Nat
  total : S → Nat
  since : S → Nat
  stage : S → Stage
  cpu : C → Option S

/-- What happened: the job in each slot, the burst that each processor is at, the bursts that have ended and
the totals of the jobs that are gone. -/
structure Books (S C : Type) where
  steps : Nat
  serial : S → Nat
  born : Nat
  opened : C → Nat
  began : C → Nat
  bursts : List (Burst C)
  finals : List (Nat × Nat)

variable {S C : Type} [DecidableEq S] [DecidableEq C]

namespace Books

def pass (b : Books S C) : Books S C := { b with steps := b.steps + 1 }

def enter (b : Books S C) (c : C) (clock : Nat) : Books S C :=
  { b.pass with opened := Function.update b.opened c clock, began := Function.update b.began c b.steps }

def leave (b : Books S C) (c : C) (i : S) (clock : Nat) : Books S C :=
  { b.pass with bursts := ⟨b.serial i, c, b.opened c, clock, b.began c, b.steps⟩ :: b.bursts }

def issue (b : Books S C) (i : S) : Books S C :=
  { b.pass with serial := Function.update b.serial i b.born, born := b.born + 1 }

def retire (b : Books S C) (i : S) (total : Nat) : Books S C :=
  { b.pass with finals := (b.serial i, total) :: b.finals }

end Books

namespace Meter

def tick (m : Meter S C) : Meter S C := { m with clock := m.clock + 1 }

def dispatch (m : Meter S C) (c : C) (i : S) : Meter S C :=
  { m with
    since := Function.update m.since i m.clock
    stage := Function.update m.stage i .running
    cpu := Function.update m.cpu c (some i) }

def charge (m : Meter S C) (c : C) (i : S) : Meter S C :=
  { m with
    total := Function.update m.total i (m.total i + (m.clock - m.since i))
    stage := Function.update m.stage i .idle
    cpu := Function.update m.cpu c none }

def setStage (m : Meter S C) (i : S) (stage : Stage) : Meter S C :=
  { m with stage := Function.update m.stage i stage }

def restart (m : Meter S C) (i : S) : Meter S C :=
  { m with start := Function.update m.start i m.clock, stage := Function.update m.stage i .torn }

def clear (m : Meter S C) (i : S) : Meter S C :=
  { m with total := Function.update m.total i 0, stage := Function.update m.stage i .idle }

def touch (m : Meter S C) (i : S) (since : Nat) : Meter S C := { m with since := Function.update m.since i since }

-- Up to when a job has been charged at most.
def upto (m : Meter S C) (i : S) : Nat := if m.stage i = .running then m.since i else m.clock

def due (m : Meter S C) (i : S) : Nat := if (m.stage i).counted then m.total i else 0

def owed [Fintype S] (m : Meter S C) : Nat := ∑ i, m.due i

omit [DecidableEq C] in
theorem owed_update [Fintype S] (m m' : Meter S C) (i : S) (others : ∀ j, j ≠ i → m'.due j = m.due j) :
    m'.owed + m.due i = m.owed + m'.due i := by
  have same : ∑ j ∈ Finset.univ.erase i, m'.due j = ∑ j ∈ Finset.univ.erase i, m.due j :=
    Finset.sum_congr rfl fun j member => others j (Finset.ne_of_mem_erase member)
  rw [owed, owed, ← Finset.add_sum_erase _ m.due (Finset.mem_univ i), ← Finset.add_sum_erase _ m'.due (Finset.mem_univ i),
    same]
  omega

end Meter

/-- What a step does to the counters and the books, other than to let the clock go on. -/
inductive Step (m : Meter S C) (b : Books S C) : Meter S C → Books S C → Prop where
  | pass : Step m b m b.pass
  | dispatch (c : C) (i : S) (free : m.cpu c = none) (idle : m.stage i = .idle) :
      Step m b (m.dispatch c i) (b.enter c m.clock)
  | charge (c : C) (i : S) (own : m.cpu c = some i) : Step m b (m.charge c i) (b.leave c i m.clock)
  | issue (i : S) (free : m.stage i = .free) : Step m b (m.setStage i .raw) (b.issue i)
  | restart (i : S) (raw : m.stage i = .raw) : Step m b (m.restart i) b.pass
  | clear (i : S) (torn : m.stage i = .torn) : Step m b (m.clear i) b.pass
  | touch (i : S) (since : Nat) (idle : m.stage i = .idle) : Step m b (m.touch i since) b.pass
  | drop (i : S) (still : m.stage i = .raw ∨ m.stage i = .idle) : Step m b (m.setStage i .free) b.pass
  | retire (i : S) (idle : m.stage i = .idle) : Step m b (m.setStage i .free) (b.retire i (m.total i))

theorem Step.clock {m m' : Meter S C} {b b' : Books S C} (step : Step m b m' b') : m'.clock = m.clock := by
  cases step <;> rfl

section Invariant

/-- The counters agree with the books. -/
structure Fair [Fintype S] (m : Meter S C) (b : Books S C) : Prop where
  charged : ∀ i, m.stage i ≠ .torn → m.start i + m.total i ≤ m.upto i
  started : ∀ i, m.start i ≤ m.clock
  entered : ∀ i, m.stage i = .running → m.since i ≤ m.clock
  placed : ∀ c i, m.cpu c = some i → m.stage i = .running
  opened : ∀ c i, m.cpu c = some i → b.opened c = m.since i
  single : ∀ c c' i, m.cpu c = some i → m.cpu c' = some i → c = c'
  exact_ : ∀ i, (m.stage i).counted = true → m.total i = spentBy b.bursts (b.serial i)
  unspent : ∀ i, m.stage i = .raw ∨ m.stage i = .torn → ∀ x ∈ b.bursts, x.serial ≠ b.serial i
  bound : ∀ i, m.stage i ≠ .free → b.serial i < b.born
  distinct : ∀ i j, m.stage i ≠ .free → m.stage j ≠ .free → b.serial i = b.serial j → i = j
  issued : ∀ x ∈ b.bursts, x.serial < b.born
  past : ∀ x ∈ b.bursts, x.stop ≤ m.clock ∧ x.ended < b.steps
  forward : ∀ x ∈ b.bursts, x.start ≤ x.stop
  order : b.bursts.Pairwise fun later earlier => later.serial = earlier.serial → earlier.Before later
  current : ∀ c i, m.cpu c = some i → ∀ x ∈ b.bursts, x.serial = b.serial i → x.stop ≤ b.opened c ∧ x.ended < b.began c
  lanes : ∀ c, spentOn b.bursts c ≤ if m.cpu c = none then m.clock else b.opened c
  whole : (b.finals.map Prod.snd).sum + m.owed ≤ spent b.bursts

variable [Fintype S] {m : Meter S C} {b : Books S C} (fair : Fair m b)

include fair

omit [DecidableEq S] in
theorem Fair.pass : Fair m b.pass :=
  { fair with
    past := fun x member => ⟨(fair.past x member).1, Nat.lt_succ_of_lt (fair.past x member).2⟩ }

omit [DecidableEq S] in
theorem Fair.tick : Fair m.tick b.pass := by
  cases fair
  constructor
  case whole => assumption
  all_goals simp only [Books.pass, Meter.tick, Meter.upto] at *
  all_goals grind -linarith

theorem Fair.dispatch {c : C} {i : S} (free : m.cpu c = none) (idle : m.stage i = .idle) :
    Fair (m.dispatch c i) (b.enter c m.clock) := by
  have owed := m.owed_update (m.dispatch c i) i fun j other => by simp [Meter.due, Meter.dispatch, other]
  have due : (m.dispatch c i).due i = m.due i := by simp [Meter.due, Meter.dispatch, idle, Stage.counted]
  have alone : ∀ c', m.cpu c' ≠ some i := fun c' own => by simp [fair.placed c' i own] at idle
  cases fair
  constructor
  case whole =>
    simp only [Books.enter, Books.pass]
    omega
  all_goals simp only [Books.pass, Books.enter, Meter.dispatch, Meter.upto, Function.update_apply] at *
  all_goals grind -linarith [Stage.counted]

-- The burst starts where the processor was last idle, so the processor is never charged for a time twice.
theorem Fair.charge {c : C} {i : S} (own : m.cpu c = some i) : Fair (m.charge c i) (b.leave c i m.clock) := by
  have runs := fair.placed c i own
  have since := fair.opened c i own
  have owed := m.owed_update (m.charge c i) i fun j other => by simp [Meter.due, Meter.charge, other]
  have before : m.due i = m.total i := by simp [Meter.due, runs, Stage.counted]
  have after : (m.charge c i).due i = m.total i + (m.clock - m.since i) := by
    simp [Meter.due, Meter.charge, Stage.counted]
  obtain ⟨charged, started, entered, placed, opened, single, exact_, unspent, bound, distinct, issued, past, forward,
    order, current, lanes, whole⟩ := fair
  constructor
  case whole =>
    change _ + (m.charge c i).owed ≤ (m.clock - b.opened c) + spent b.bursts
    simp only [Books.leave, Books.pass]
    omega
  case lanes =>
    intro c'
    simp only [Books.leave, Books.pass, Meter.charge, spentOn_cons, Burst.length, Function.update_apply]
    grind -linarith
  case exact_ =>
    intro j counted
    simp only [Books.leave, Books.pass, Meter.charge, spentBy_cons, Burst.length, Function.update_apply] at counted ⊢
    grind -linarith [Stage.counted]
  case order =>
    refine List.pairwise_cons.mpr ⟨fun x member same => ?_, order⟩
    exact current c i own x member same.symm
  all_goals simp only [Books.pass, Books.leave, Meter.charge, Meter.upto, Function.update_apply, List.mem_cons] at *
  all_goals grind -linarith [Stage.counted]

theorem Fair.issue {i : S} (free : m.stage i = .free) : Fair (m.setStage i .raw) (b.issue i) := by
  have owed := m.owed_update (m.setStage i .raw) i fun j other => by simp [Meter.due, Meter.setStage, other]
  have after : (m.setStage i .raw).due i = 0 := by simp [Meter.due, Meter.setStage, Stage.counted]
  cases fair
  constructor
  case whole =>
    simp only [Books.issue, Books.pass]
    omega
  all_goals simp only [Books.pass, Books.issue, Meter.setStage, Meter.upto, Function.update_apply] at *
  all_goals grind -linarith [Stage.counted]

theorem Fair.restart {i : S} (raw : m.stage i = .raw) : Fair (m.restart i) b.pass := by
  have owed := m.owed_update (m.restart i) i fun j other => by simp [Meter.due, Meter.restart, other]
  have after : (m.restart i).due i = 0 := by simp [Meter.due, Meter.restart, Stage.counted]
  cases fair
  constructor
  case whole =>
    simp only [Books.pass]
    omega
  all_goals simp only [Books.pass, Meter.restart, Meter.upto, Function.update_apply] at *
  all_goals grind -linarith [Stage.counted]

-- The start is not in the future, so the inequality holds again with the total 0.
theorem Fair.clear {i : S} (torn : m.stage i = .torn) : Fair (m.clear i) b.pass := by
  have owed := m.owed_update (m.clear i) i fun j other => by simp [Meter.due, Meter.clear, other]
  have after : (m.clear i).due i = 0 := by simp [Meter.due, Meter.clear]
  have nothing := spentBy_eq_zero (fair.unspent i (Or.inr torn))
  cases fair
  constructor
  case whole =>
    simp only [Books.pass]
    omega
  all_goals simp only [Books.pass, Meter.clear, Meter.upto, Function.update_apply] at *
  all_goals grind -linarith [Stage.counted]

theorem Fair.touch {i : S} (since : Nat) (idle : m.stage i = .idle) : Fair (m.touch i since) b.pass := by
  have alone : ∀ c, m.cpu c ≠ some i := fun c own => by simp [fair.placed c i own] at idle
  cases fair
  constructor
  case whole => assumption
  all_goals simp only [Books.pass, Meter.touch, Meter.upto, Function.update_apply] at *
  all_goals grind -linarith

theorem Fair.drop {i : S} (still : m.stage i = .raw ∨ m.stage i = .idle) : Fair (m.setStage i .free) b.pass := by
  have owed := m.owed_update (m.setStage i .free) i fun j other => by simp [Meter.due, Meter.setStage, other]
  have after : (m.setStage i .free).due i = 0 := by simp [Meter.due, Meter.setStage, Stage.counted]
  cases fair
  constructor
  case whole =>
    simp only [Books.pass]
    omega
  all_goals simp only [Books.pass, Meter.setStage, Meter.upto, Function.update_apply] at *
  all_goals grind -linarith [Stage.counted]

theorem Fair.retire {i : S} (idle : m.stage i = .idle) : Fair (m.setStage i .free) (b.retire i (m.total i)) := by
  have owed := m.owed_update (m.setStage i .free) i fun j other => by simp [Meter.due, Meter.setStage, other]
  have before : m.due i = m.total i := by simp [Meter.due, idle, Stage.counted]
  have after : (m.setStage i .free).due i = 0 := by simp [Meter.due, Meter.setStage, Stage.counted]
  have dropped := fair.drop (i := i) (Or.inr idle)
  refine { dropped with whole := ?_ }
  have whole := fair.whole
  simp only [Books.retire, Books.pass, List.map_cons, List.sum_cons]
  omega

theorem Fair.step {m' : Meter S C} {b' : Books S C} (step : Step m b m' b') : Fair m' b' := by
  cases step with
  | pass => exact fair.pass
  | dispatch c i free idle => exact fair.dispatch free idle
  | charge c i own => exact fair.charge own
  | issue i free => exact fair.issue free
  | restart i raw => exact fair.restart raw
  | clear i torn => exact fair.clear torn
  | touch i since idle => exact fair.touch since idle
  | drop i still => exact fair.drop still
  | retire i idle => exact fair.retire idle

omit [DecidableEq S] in
theorem Fair.total_le (i : S) (whole : m.stage i ≠ .torn) : m.start i + m.total i ≤ m.clock := by
  have charged := fair.charged i whole
  rw [Meter.upto] at charged
  split at charged
  · next runs => exact charged.trans (fair.entered i runs)
  · exact charged

omit [DecidableEq S] in
theorem Fair.whole_le [Fintype C] : (b.finals.map Prod.snd).sum + m.owed ≤ Fintype.card C * m.clock := by
  have lane (c : C) : spentOn b.bursts c ≤ m.clock := by
    have lanes := fair.lanes c
    cases at_ : m.cpu c with
    | none => rwa [if_pos at_] at lanes
    | some i =>
      rw [if_neg (by simp [at_]), fair.opened c i at_] at lanes
      exact lanes.trans (fair.entered i (fair.placed c i at_))
  calc (b.finals.map Prod.snd).sum + m.owed
    _ ≤ spent b.bursts := fair.whole
    _ = ∑ c, spentOn b.bursts c := spent_eq_sum b.bursts
    _ ≤ ∑ _c : C, m.clock := Finset.sum_le_sum fun c _ => lane c
    _ = Fintype.card C * m.clock := by simp

end Invariant

end Accounts
