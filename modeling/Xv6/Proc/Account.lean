import Xv6.Lib.Accounts
import Xv6.Proc.Cpu

set_option autoImplicit false

/-!
# CPU time

`cpu_ticks_total` is charged in `sched` with the ticks since the dispatch. The counters of a new process
are set after `allocproc` has released the lock: until then the slot has those of the process before it.
-/

namespace Xv6.Ptable

open Accounts

section Stages

-- What the counters of a slot are while a `fork` is at this point with it.
def ForkPc.mark : ForkPc → Stage
  | .alloc _ | .times _ .start => .raw
  | .times _ .total => .torn
  | .out | .times _ .since | .stack _ | .copied _ => .idle

theorem ForkPc.mark_cases (pc : ForkPc) : pc.mark = .raw ∨ pc.mark = .torn ∨ pc.mark = .idle := by
  cases pc with
  | times np c => cases c <;> simp [ForkPc.mark]
  | _ => simp [ForkPc.mark]

-- `cpu_ticks_total` of the slot is not stored yet; `start_ticks` already is.
def Kernel.unset (k : Kernel) (i : Slot) : Bool := ∃ p, (k.fork p).holds = some i ∧ (k.fork p).mark ≠ .idle

def Kernel.torn (k : Kernel) (i : Slot) : Bool := ∃ p, k.fork p = .times i .total

def Kernel.mark (k : Kernel) (i : Slot) : Stage := if k.torn i then .torn else if k.unset i then .raw else .idle

def stageOf (mark : Stage) : ProcState → Stage
  | .unused => .free
  | .embryo => mark
  | .running => .running
  | .sleeping | .runnable | .zombie => .idle

def Kernel.stage (k : Kernel) (i : Slot) : Stage := stageOf (k.mark i) (k.table.proc i).state

theorem stageOf_woken {s s' : ProcState} (mark : Stage) (woken : s' = s ∨ s = .sleeping ∧ s' = .runnable) :
    stageOf mark s' = stageOf mark s := by
  rcases woken with rfl | ⟨rfl, rfl⟩ <;> rfl

theorem torn_holds {pc : ForkPc} {i : Slot} : pc = .times i .total ↔ pc.holds = some i ∧ pc.mark = .torn := by
  cases pc with
  | times np c => cases c <;> simp [ForkPc.holds, ForkPc.mark]
  | _ => simp [ForkPc.holds, ForkPc.mark]

-- Only the forks that hold the slot matter.
theorem mark_eq {k k' : Kernel} {i : Slot}
    (same : ∀ q, (k'.fork q).holds = some i ∨ (k.fork q).holds = some i → k'.fork q = k.fork q) :
    k'.mark i = k.mark i := by
  have unset : k'.unset i = k.unset i := by
    simp only [Kernel.unset, decide_eq_decide]
    grind
  have torn : k'.torn i = k.torn i := by
    simp only [Kernel.torn, torn_holds, decide_eq_decide]
    grind
  rw [Kernel.mark, Kernel.mark, unset, torn]

theorem mark_congr {k k' : Kernel} (fork : k'.fork = k.fork) (i : Slot) : k'.mark i = k.mark i :=
  mark_eq fun q _ => by rw [fork]

theorem mark_alone {k : Kernel} {p i : Slot} (alone : ∀ q, (k.fork q).holds = some i → q = p)
    (holds : (k.fork p).holds = some i ∨ (k.fork p).mark = .idle) : k.mark i = (k.fork p).mark := by
  have unset : k.unset i = decide ((k.fork p).mark ≠ .idle) := by
    simp only [Kernel.unset, decide_eq_decide]
    grind
  have torn : k.torn i = decide ((k.fork p).mark = .torn) := by
    simp only [Kernel.torn, torn_holds, decide_eq_decide]
    grind
  rw [Kernel.mark, unset, torn]
  cases (k.fork p) with
  | times np c => cases c <;> rfl
  | _ => rfl

theorem fork_stage {k k' : Kernel} {p np : Slot} {pc : ForkPc} (fork : k'.fork = Function.update k.fork p pc)
    (others : ∀ i, i ≠ np → k'.table.proc i = k.table.proc i) (before : ∀ i, (k.fork p).holds = some i → i = np)
    (after : ∀ i, pc.holds = some i → i = np) : k'.stage = Function.update k.stage np (k'.stage np) := by
  refine Function.eq_update_iff.mpr ⟨rfl, fun i other => ?_⟩
  rw [Kernel.stage, Kernel.stage, others i other]
  refine congrArg (stageOf · _) (mark_eq fun q holds => ?_)
  have away : q ≠ p := by
    rintro rfl
    rw [fork, Function.update_self] at holds
    exact other (holds.elim (after i) (before i))
  rw [fork, Function.update_of_ne away]

end Stages

section Meters

/-- The counters of the process are as they were. -/
structure Proc.SameTimes (p q : Proc) : Prop where
  start : q.startTicks = p.startTicks
  total : q.cpuTicksTotal = p.cpuTicksTotal
  since : q.cpuTicksIn = p.cpuTicksIn

theorem Proc.SameTimes.refl (p : Proc) : p.SameTimes p := ⟨rfl, rfl, rfl⟩

theorem Proc.SameTimes.trans {p q r : Proc} (first : p.SameTimes q) (second : q.SameTimes r) : p.SameTimes r :=
  ⟨second.start.trans first.start, second.total.trans first.total, second.since.trans first.since⟩

theorem wakeup1_times (t : Table) (chan : Option Chan) (i : Slot) : (t.proc i).SameTimes ((wakeup1 t chan).proc i) := by
  by_cases wakes : (t.proc i).state = .sleeping ∧ (t.proc i).chan = chan <;> constructor <;> simp [wakeup1, wakes]

theorem adopt_times (t : Table) (p i : Slot) : (t.proc i).SameTimes ((adopt t p).proc i) := by
  by_cases child : (t.proc i).parent = some p <;> constructor <;> simp [adopt, child]

theorem reparent_times (t : Table) (p i : Slot) : (t.proc i).SameTimes ((reparent t p).proc i) := by
  unfold reparent
  split
  · exact (adopt_times t p i).trans (wakeup1_times (adopt t p) _ i)
  · exact adopt_times t p i

theorem set_times (t : Table) (np : Slot) (x : Proc) (same : (t.proc np).SameTimes x) (i : Slot) :
    (t.proc i).SameTimes ((t.set np x).proc i) := by
  by_cases own : i = np
  · subst own
    simpa [Table.set] using same
  · simpa [Table.set, own] using Proc.SameTimes.refl _

/-- The process is charged and leaves the CPU; others may have been woken. -/
structure Charged (t t' : Table) (p : Slot) : Prop where
  ticks : t'.ticks = t.ticks
  times : ∀ i, i ≠ p → (t.proc i).SameTimes (t'.proc i)
  state : ∀ i, i ≠ p → (t'.proc i).state = (t.proc i).state ∨
    (t.proc i).state = .sleeping ∧ (t'.proc i).state = .runnable
  start : (t'.proc p).startTicks = (t.proc p).startTicks
  since : (t'.proc p).cpuTicksIn = (t.proc p).cpuTicksIn
  total : (t'.proc p).cpuTicksTotal = (t.proc p).cpuTicksTotal + (t.ticks - (t.proc p).cpuTicksIn)
  left : ∀ mark, stageOf mark (t'.proc p).state = .idle

theorem sched_charged {t u : Table} {p : Slot} {s : ProcState} (ticks : u.ticks = t.ticks)
    (times : ∀ i, (t.proc i).SameTimes (u.proc i))
    (state : ∀ i, i ≠ p → (u.proc i).state = (t.proc i).state ∨
      (t.proc i).state = .sleeping ∧ (u.proc i).state = .runnable)
    (left : ∀ mark, stageOf mark s = .idle) : Charged t (sched u p s) p where
  ticks := ticks
  times i other := by simpa [sched, Table.set, other] using times i
  state i other := by simpa [sched, Table.set, other] using state i other
  start := by simpa [sched, Table.set] using (times p).start
  since := by simpa [sched, Table.set] using (times p).since
  total := by simp [sched, Table.set, (times p).total, (times p).since, ticks]
  left := by simpa [sched, Table.set] using left

theorem sleep_charged (t : Table) (p : Slot) (chan : Chan) : Charged t (sleep t p chan) p := by
  refine sched_charged rfl (set_times t p _ ⟨rfl, rfl, rfl⟩) (fun i other => ?_) fun _ => rfl
  left
  simp [Table.set, other]

theorem exit_charged (t t' : Table) (p : Slot) (ends : exit t p = .ok t') : Charged t t' p := by
  have exited := exit_exited t t' p ends
  have other := exited.notInit
  rw [exit, if_neg other] at ends
  cases ends
  set u := reparent (wakeup1 t ((t.proc p).parent.map .proc)) p with reparented
  have times (i : Slot) : (t.proc i).SameTimes (u.proc i) :=
    (wakeup1_times t _ i).trans (reparent_times _ p i)
  have ticks : u.ticks = t.ticks := by
    rw [reparented, reparent]
    split <;> rfl
  refine sched_charged ticks times (fun i away => ?_) fun _ => rfl
  simpa [sched, Table.set, away] using exited.state i away

variable {Cpu : Type}

def Machine.meter (m : Machine Cpu) : Meter Slot Cpu where
  clock := m.kernel.table.ticks.toNat
  start i := (m.kernel.table.proc i).startTicks.toNat
  total i := (m.kernel.table.proc i).cpuTicksTotal.toNat
  since i := (m.kernel.table.proc i).cpuTicksIn.toNat
  stage := m.kernel.stage
  cpu := m.cpu

theorem Machine.meter_same (m m' : Machine Cpu) (ticks : m'.kernel.table.ticks = m.kernel.table.ticks)
    (times : ∀ i, (m.kernel.table.proc i).SameTimes (m'.kernel.table.proc i)) (cpu : m'.cpu = m.cpu) :
    m'.meter = { m.meter with stage := m'.kernel.stage } := by
  ext i
  · simp only [Machine.meter, ticks]
  · simp only [Machine.meter, (times i).start]
  · simp only [Machine.meter, (times i).total]
  · simp only [Machine.meter, (times i).since]
  · rfl
  · simp only [Machine.meter, cpu]

theorem Machine.meter_change (m m' : Machine Cpu) (p : Slot) (ticks : m'.kernel.table.ticks = m.kernel.table.ticks)
    (others : ∀ i, i ≠ p → (m.kernel.table.proc i).SameTimes (m'.kernel.table.proc i)) :
    m'.meter =
      { clock := m.meter.clock
        start := Function.update m.meter.start p (m'.meter.start p)
        total := Function.update m.meter.total p (m'.meter.total p)
        since := Function.update m.meter.since p (m'.meter.since p)
        stage := m'.kernel.stage
        cpu := m'.cpu } := by
  have field (f : Proc → UInt32) (same : ∀ i, i ≠ p → f (m'.kernel.table.proc i) = f (m.kernel.table.proc i)) :
      (fun i => (f (m'.kernel.table.proc i)).toNat) =
        Function.update (fun i => (f (m.kernel.table.proc i)).toNat) p (f (m'.kernel.table.proc p)).toNat := by
    funext i
    by_cases own : i = p
    · subst own
      rw [Function.update_self]
    · rw [Function.update_of_ne own, same i own]
  refine Meter.ext (congrArg UInt32.toNat ticks) ?_ ?_ ?_ rfl rfl
  · exact field Proc.startTicks fun i other => (others i other).start
  · exact field Proc.cpuTicksTotal fun i other => (others i other).total
  · exact field Proc.cpuTicksIn fun i other => (others i other).since

end Meters

section Records

variable {Cpu : Type} [DecidableEq Cpu]

namespace Machine

/-- What the books say of a step of the CPU: the bursts that it starts and ends, the process that it makes
and the process that it collects. -/
def record (b : Books Slot Cpu) (m : Machine Cpu) (c : Cpu) (a : Action) (m' : Machine Cpu) : Books Slot Cpu :=
  let t := m.kernel.table
  match a, m.cpu c with
  | .dispatch _, _ => b.enter c t.ticks.toNat
  | .forkAlloc, some _ =>
    match allocproc t with
    | some (np, _) => b.issue np
    | none => b.pass
  | .wait, some p =>
    match zombieChild t p with
    | some i => b.retire i (t.proc i).cpuTicksTotal.toNat
    | none => if m'.cpu c = none then b.leave c p t.ticks.toNat else b.pass
  | .yield, some p | .sleep _, some p | .exit, some p => b.leave c p t.ticks.toNat
  | _, _ => b.pass

end Machine

def Action.ticks : Action → Nat
  | .tick => 1
  | _ => 0

/-- A machine with its books. `ticks` is how often the timer has ticked. -/
structure Account (Cpu : Type) where
  machine : Machine Cpu
  books : Books Slot Cpu
  ticks : Nat

namespace Account

def step (h : Account Cpu) (label : Cpu × Action) : Option (Account Cpu) :=
  (h.machine.step label).map fun m =>
    ⟨m, Machine.record h.books h.machine label.1 label.2 m, h.ticks + label.2.ticks⟩

-- init is process 0.
def boot : Account Cpu where
  machine := Machine.boot
  books := ⟨0, fun _ => 0, 1, fun _ => 0, fun _ => 0, [], []⟩
  ticks := 0

end Account

end Records

section Steps

variable {Cpu : Type} [DecidableEq Cpu] {m m' : Machine Cpu} {b : Books Slot Cpu} {c : Cpu}

namespace Machine

omit [DecidableEq Cpu] in
theorem Sound.mark_held (sound : m.Sound) {p np : Slot} (held : (m.kernel.fork p).holds = some np) :
    m.kernel.mark np = (m.kernel.fork p).mark :=
  mark_alone (fun q other => sound.family.distinct q p np other held) (Or.inl held)

omit [DecidableEq Cpu] in
theorem Sound.stage_held (sound : m.Sound) {p np : Slot} (held : (m.kernel.fork p).holds = some np) :
    m.meter.stage np = (m.kernel.fork p).mark := by
  change stageOf (m.kernel.mark np) (m.kernel.table.proc np).state = _
  rw [sound.embryo held, sound.mark_held held]
  rfl

omit [DecidableEq Cpu] in
theorem Sound.counted_iff (sound : m.Sound) (i : Slot) :
    (m.kernel.stage i).counted = true ↔ (m.kernel.table.proc i).state ≠ .unused ∧ m.kernel.unset i = false := by
  cases unset : m.kernel.unset i with
  | true =>
    obtain ⟨p, held, marked⟩ := of_decide_eq_true unset
    have mark : m.kernel.stage i = _ := sound.stage_held held
    rcases (m.kernel.fork p).mark_cases with raw | torn | idle
    · simp [mark, raw, Stage.counted]
    · simp [mark, torn, Stage.counted]
    · exact absurd idle marked
  | false =>
    have whole : m.kernel.torn i = false := by
      by_contra torn
      obtain ⟨p, at_⟩ := of_decide_eq_true (eq_true_of_ne_false torn)
      have marked : m.kernel.unset i = true := decide_eq_true ⟨p, by rw [at_]; rfl, by rw [at_]; simp [ForkPc.mark]⟩
      rw [unset] at marked
      cases marked
    rw [Kernel.stage, Kernel.mark, unset, whole]
    cases (m.kernel.table.proc i).state <;> simp [stageOf, Stage.counted]

omit [DecidableEq Cpu] in
theorem not_torn {i : Slot} (whole : m.kernel.torn i = false) : m.kernel.stage i ≠ .torn := by
  rw [Kernel.stage, Kernel.mark, whole]
  cases (m.kernel.table.proc i).state with
  | embryo =>
    simp only [stageOf, Bool.false_eq_true, if_false]
    split <;> simp
  | _ => simp [stageOf]

omit [DecidableEq Cpu] in
theorem stage_idle {p : Slot} (state : (m.kernel.table.proc p).state = .runnable ∨
    (m.kernel.table.proc p).state = .zombie) : m.meter.stage p = .idle := by
  change stageOf _ (m.kernel.table.proc p).state = _
  rcases state with state | state <;> rw [state] <;> rfl

theorem steps_dispatch {p : Slot} (idle : m.cpu c = none)
    (runnable : (m.kernel.table.proc p).state = .runnable) :
    Step m.meter b (meter ⟨{ m.kernel with table := dispatch m.kernel.table p }, Function.update m.cpu c (some p)⟩)
      (b.enter c m.kernel.table.ticks.toNat) := by
  have others (i : Slot) (other : i ≠ p) :
      (m.kernel.table.proc i).SameTimes ((dispatch m.kernel.table p).proc i) := by
    simpa [dispatch, Table.set, other] using Proc.SameTimes.refl _
  have own : (dispatch m.kernel.table p).proc p =
      { m.kernel.table.proc p with state := .running, chan := none, cpuTicksIn := m.kernel.table.ticks } := by
    simp [dispatch, Table.set]
  set m' : Machine Cpu := ⟨{ m.kernel with table := dispatch m.kernel.table p }, Function.update m.cpu c (some p)⟩
  have stage : m'.kernel.stage = Function.update m.kernel.stage p .running := by
    refine Function.eq_update_iff.mpr ⟨?_, fun i other => ?_⟩
    · change stageOf _ ((dispatch m.kernel.table p).proc p).state = _
      rw [own]
      rfl
    · change stageOf _ ((dispatch m.kernel.table p).proc i).state = _
      simp [dispatch, Table.set, other, Kernel.stage, mark_congr (show m'.kernel.fork = m.kernel.fork from rfl)]
  have changed : m'.meter = m.meter.dispatch c p := by
    rw [meter_change m m' p rfl others, stage]
    have start : m'.meter.start p = m.meter.start p := by
      change ((dispatch m.kernel.table p).proc p).startTicks.toNat = _
      rw [own]
      rfl
    have total : m'.meter.total p = m.meter.total p := by
      change ((dispatch m.kernel.table p).proc p).cpuTicksTotal.toNat = _
      rw [own]
      rfl
    have since : m'.meter.since p = m.meter.clock := by
      change ((dispatch m.kernel.table p).proc p).cpuTicksIn.toNat = _
      rw [own]
      rfl
    rw [start, total, since, Function.update_eq_self, Function.update_eq_self]
    rfl
  rw [changed]
  exact .dispatch c p idle (stage_idle (Or.inl runnable))

theorem steps_charge {p : Slot} (fair : Fair m.meter b) (own : m.cpu c = some p)
    (charged : Charged m.kernel.table m'.kernel.table p) (fork : m'.kernel.fork = m.kernel.fork)
    (cpu : m'.cpu = Function.update m.cpu c none) : Step m.meter b m'.meter (b.leave c p m.kernel.table.ticks.toNat) := by
  have runs := fair.placed c p own
  have entered : m.meter.since p ≤ m.meter.clock := fair.entered p runs
  have before := fair.charged p (by simp [runs])
  rw [Meter.upto, if_pos runs] at before
  have total : m'.meter.total p = m.meter.total p + (m.meter.clock - m.meter.since p) := by
    have small := m.kernel.table.ticks.toNat_lt
    simp only [meter] at entered before ⊢
    rw [charged.total, UInt32.toNat_add, UInt32.toNat_sub_of_le _ _ (UInt32.le_iff_toNat_le.mpr entered)]
    omega
  have changed : m'.meter = m.meter.charge c p := by
    rw [meter_change m m' p charged.ticks charged.times, total]
    have start : m'.meter.start p = m.meter.start p := congrArg UInt32.toNat charged.start
    have since : m'.meter.since p = m.meter.since p := congrArg UInt32.toNat charged.since
    have stage : m'.kernel.stage = Function.update m.kernel.stage p .idle := by
      refine Function.eq_update_iff.mpr ⟨charged.left _, fun i other => ?_⟩
      rw [Kernel.stage, mark_congr fork]
      exact stageOf_woken _ (charged.state i other)
    rw [start, since, stage, cpu, Function.update_eq_self, Function.update_eq_self]
    rfl
  rw [changed]
  exact .charge c p own

theorem steps_pass (ticks : m'.kernel.table.ticks = m.kernel.table.ticks)
    (times : ∀ i, (m.kernel.table.proc i).SameTimes (m'.kernel.table.proc i)) (cpu : m'.cpu = m.cpu)
    (stage : m'.kernel.stage = m.kernel.stage) : Step m.meter b m'.meter b.pass := by
  rw [meter_same m m' ticks times cpu, stage]
  exact .pass

omit [DecidableEq Cpu] in
theorem meter_setStage (m m' : Machine Cpu) {np : Slot} {st : Stage} (ticks : m'.kernel.table.ticks = m.kernel.table.ticks)
    (times : ∀ i, (m.kernel.table.proc i).SameTimes (m'.kernel.table.proc i)) (cpu : m'.cpu = m.cpu)
    (stage : m'.kernel.stage = Function.update m.kernel.stage np st) : m'.meter = m.meter.setStage np st := by
  rw [meter_same m m' ticks times cpu, stage]
  rfl

theorem steps_forkAlloc {p np : Slot} (sound : m.Sound) (out : m.kernel.fork p = .out)
    (unused : (m.kernel.table.proc np).state = .unused) :
    Step m.meter b (meter { m with
      kernel := ⟨{ m.kernel.table.set np { m.kernel.table.proc np with
          state := .embryo, pid := m.kernel.table.nextpid } with nextpid := m.kernel.table.nextpid + 1 },
        Function.update m.kernel.fork p (.alloc np)⟩ }) (b.issue np) := by
  set m' : Machine Cpu := { m with
    kernel := ⟨{ m.kernel.table.set np { m.kernel.table.proc np with
        state := .embryo, pid := m.kernel.table.nextpid } with nextpid := m.kernel.table.nextpid + 1 },
      Function.update m.kernel.fork p (.alloc np)⟩ }
  have taken : m'.kernel.fork p = .alloc np := Function.update_self ..
  -- A free slot is nobody's.
  have alone (q : Slot) (held : (m'.kernel.fork q).holds = some np) : q = p := by
    by_contra other
    have before : (m.kernel.fork q).holds = some np := by
      rwa [show m'.kernel.fork q = m.kernel.fork q from Function.update_of_ne other ..] at held
    rw [sound.embryo before] at unused
    cases unused
  have own : m'.kernel.stage np = .raw := by
    rw [Kernel.stage, mark_alone alone (Or.inl (by rw [taken]; rfl)), taken]
    simp [m', Table.set, stageOf, ForkPc.mark]
  have stage : m'.kernel.stage = Function.update m.kernel.stage np .raw := by
    rw [← own]
    refine fork_stage rfl (fun i other => by simp [m', Table.set, other]) ?_ fun i held => (Option.some.inj held).symm
    simp [out, ForkPc.holds]
  rw [meter_setStage m m' rfl (set_times _ np _ ⟨rfl, rfl, rfl⟩) rfl stage]
  refine .issue np ?_
  change stageOf _ (m.kernel.table.proc np).state = _
  rw [unused]
  rfl

section Forks

variable {p np : Slot} {x : Proc} {pc : ForkPc} (forks : m.Forks m' p np x pc)

include forks

omit [DecidableEq Cpu] in
theorem Forks.ticks : m'.kernel.table.ticks = m.kernel.table.ticks := by
  rw [forks.kernel]
  rfl

omit [DecidableEq Cpu] in
theorem Forks.proc : m'.kernel.table.proc np = x := by
  rw [forks.kernel]
  exact Function.update_self ..

omit [DecidableEq Cpu] in
theorem Forks.others (i : Slot) (other : i ≠ np) : m'.kernel.table.proc i = m.kernel.table.proc i := by
  rw [forks.kernel]
  exact Function.update_of_ne other ..

omit [DecidableEq Cpu] in
theorem Forks.stage (sound : m.Sound) : m'.kernel.stage = Function.update m.kernel.stage np (stageOf pc.mark x.state) := by
  have fork : m'.kernel.fork = Function.update m.kernel.fork p pc := by rw [forks.kernel]
  have at_ : m'.kernel.fork p = pc := by rw [fork, Function.update_self]
  have alone (q : Slot) (held : (m'.kernel.fork q).holds = some np) : q = p := by
    by_contra other
    rw [fork, Function.update_of_ne other] at held
    exact other (sound.family.distinct q p np held forks.held)
  have mark : m'.kernel.mark np = pc.mark := by
    rw [mark_alone alone, at_]
    rw [at_]
    exact forks.next.imp_right fun out => by rw [out]; rfl
  have own : m'.kernel.stage np = stageOf pc.mark x.state := by rw [Kernel.stage, mark, forks.proc]
  rw [← own]
  refine fork_stage fork forks.others (fun i held => ?_) (fun i held => ?_)
  · exact Option.some.inj (held.symm.trans forks.held)
  · rcases forks.next with holds | rfl
    · exact Option.some.inj (held.symm.trans holds)
    · cases held

omit [DecidableEq Cpu] in
theorem Forks.meter (sound : m.Sound) : m'.meter =
    { clock := m.meter.clock
      start := Function.update m.meter.start np x.startTicks.toNat
      total := Function.update m.meter.total np x.cpuTicksTotal.toNat
      since := Function.update m.meter.since np x.cpuTicksIn.toNat
      stage := Function.update m.meter.stage np (stageOf pc.mark x.state)
      cpu := m.meter.cpu } := by
  rw [meter_change m m' np forks.ticks fun i other => forks.others i other ▸ .refl _, forks.stage sound, forks.cpu]
  simp only [Machine.meter, forks.proc]

-- The counters are left alone: the slot is given back, or stays what it was.
theorem Forks.quiet (sound : m.Sound) (same : (m.kernel.table.proc np).SameTimes x)
    (own : x.state = .unused ∧ (m.kernel.fork p).mark ≠ .torn ∨ stageOf pc.mark x.state = (m.kernel.fork p).mark) :
    Step m.meter b m'.meter b.pass := by
  have before := sound.stage_held forks.held
  have kept : m'.meter = m.meter.setStage np (stageOf pc.mark x.state) := by
    rw [forks.meter sound, same.start, same.total, same.since]
    simp only [Machine.meter, Meter.setStage, Function.update_eq_self_iff.mpr]
  rw [kept]
  rcases own with ⟨free, whole⟩ | stays
  · rw [free]
    refine .drop np ?_
    rw [before]
    rcases (m.kernel.fork p).mark_cases with raw | torn | idle
    · exact Or.inl raw
    · exact absurd torn whole
    · exact Or.inr idle
  · rw [stays, ← before, Meter.setStage, Function.update_eq_self]
    exact .pass

end Forks

theorem steps_forkTime {p np : Slot} {next : Counter} (sound : m.Sound) (at_ : m.kernel.fork p = .times np next)
    (kernel : m'.kernel = ⟨allocTime m.kernel.table np next, Function.update m.kernel.fork p (next.after np)⟩)
    (cpu : m'.cpu = m.cpu) : Step m.meter b m'.meter b.pass := by
  have held : (m.kernel.fork p).holds = some np := by rw [at_]; rfl
  have embryo := sound.embryo held
  have before := sound.stage_held held
  have after := next.after_holds np
  rw [at_] at before
  cases next with
  | start =>
    have changed := Forks.meter ⟨held, Or.inl after, kernel, cpu⟩ sound
    have restarts : m'.meter = m.meter.restart np := by
      rw [changed]
      simp only [Machine.meter, Meter.restart, embryo, Function.update_eq_self_iff.mpr]
      rfl
    rw [restarts]
    exact .restart np before
  | total =>
    have changed := Forks.meter ⟨held, Or.inl after, kernel, cpu⟩ sound
    have clears : m'.meter = m.meter.clear np := by
      rw [changed]
      simp only [Machine.meter, Meter.clear, embryo, Function.update_eq_self_iff.mpr]
      rfl
    rw [clears]
    exact .clear np before
  | since =>
    have changed := Forks.meter ⟨held, Or.inl after, kernel, cpu⟩ sound
    have touches : m'.meter = m.meter.touch np 0 := by
      rw [changed, embryo, show stageOf (Counter.after np .since).mark .embryo = m.meter.stage np from before.symm]
      simp only [Machine.meter, Meter.touch, Function.update_eq_self_iff.mpr]
      rfl
    rw [touches]
    exact .touch np 0 before

theorem steps_woken {t : Table} (ticks : t.ticks = m.kernel.table.ticks)
    (times : ∀ i, (m.kernel.table.proc i).SameTimes (t.proc i))
    (state : ∀ i, (t.proc i).state = (m.kernel.table.proc i).state ∨
      (m.kernel.table.proc i).state = .sleeping ∧ (t.proc i).state = .runnable) :
    Step m.meter b (m.setTable t).meter b.pass := by
  refine steps_pass ticks times rfl ?_
  funext i
  rw [Kernel.stage, mark_congr (show (m.setTable t).kernel.fork = m.kernel.fork from rfl)]
  exact stageOf_woken _ (state i)

theorem steps_reap {i : Slot} (zombie : (m.kernel.table.proc i).state = .zombie) :
    Step m.meter b (m.setTable (m.kernel.table.set i (reaped (m.kernel.table.proc i)))).meter
      (b.retire i (m.kernel.table.proc i).cpuTicksTotal.toNat) := by
  set m' := m.setTable (m.kernel.table.set i (reaped (m.kernel.table.proc i)))
  have stage : m'.kernel.stage = Function.update m.kernel.stage i .free := by
    refine Function.eq_update_iff.mpr ⟨?_, fun j other => ?_⟩
    · simp [m', setTable, Kernel.stage, Table.set, reaped, stageOf]
    · rw [Kernel.stage, mark_congr (show m'.kernel.fork = m.kernel.fork from rfl)]
      simp [m', setTable, Kernel.stage, Table.set, other]
  rw [meter_setStage m m' rfl (set_times _ i _ ⟨rfl, rfl, rfl⟩) rfl stage]
  exact .retire i (stage_idle (Or.inr zombie))

theorem steps_of_forkAlloc (sound : m.Sound) (acts : m.act c .forkAlloc = some (.ok m')) :
    Step m.meter b m'.meter (record b m c .forkAlloc m') := by
  obtain ⟨p, own, out, called⟩ := calls_some acts
  cases scan : m.kernel.table.first (fun q => q.state = .unused) with
  | none =>
    simp only [allocproc, scan, Option.map_none, Except.ok.injEq] at called
    subst called
    simp only [record, own, allocproc, scan, Option.map_none]
    exact .pass
  | some np =>
    simp only [allocproc, scan, Option.map_some, Except.ok.injEq] at called
    subst called
    simp only [record, own, allocproc, scan, Option.map_some]
    exact steps_forkAlloc sound out (by simpa using first_some scan)

theorem steps_of_forkTime (sound : m.Sound) (acts : m.act c .forkTime = some (.ok m')) :
    Step m.meter b m'.meter b.pass := by
  obtain ⟨p, own, called⟩ := current_some acts
  split at called <;> cases called
  next np next at_ => exact steps_forkTime sound at_ rfl rfl

theorem steps_of_fork {a : Action} (sound : m.Sound) (acts : m.act c a = some (.ok m')) (within : later a = true) :
    Step m.meter b m'.meter b.pass := by
  obtain ⟨e, p, np, x, pc, -, forks, continues, start, total, since⟩ := act_forks sound acts within
  refine forks.quiet sound ⟨start, total, since⟩ ?_
  generalize m.kernel.fork p = before at continues
  generalize x.state = state at continues
  cases continues <;> simp [ForkPc.mark, stageOf]

theorem steps_of_exit (fair : Fair m.meter b) (acts : m.act c .exit = some (.ok m')) :
    Step m.meter b m'.meter (record b m c .exit m') := by
  obtain ⟨p, own, out, called⟩ := calls_some acts
  split at called
  · cases called
  next other =>
    simp only [switch, enterSched_yields _ _ _ (show ProcState.zombie ≠ .running by simp), Except.map,
      Except.ok.injEq] at called
    subst called
    have ends : Ptable.exit m.kernel.table p = .ok _ := if_neg other
    simp only [record, own]
    exact steps_charge fair own (exit_charged _ _ p ends) rfl rfl

theorem steps_of_wait (fair : Fair m.meter b) (acts : m.act c .wait = some (.ok m')) :
    Step m.meter b m'.meter (record b m c .wait m') := by
  obtain ⟨p, own, out, called⟩ := calls_some acts
  simp only [record, own]
  cases found : zombieChild m.kernel.table p with
  | some i =>
    have zombie : (m.kernel.table.proc i).parent = some p ∧ (m.kernel.table.proc i).state = .zombie := by
      simpa using first_some found
    rw [wait_reaped found] at called
    cases called
    exact steps_reap zombie.2
  | none =>
    rw [wait_none found] at called
    by_cases returns : (m.kernel.table.first fun q => q.parent = some p).isNone ∨
        (m.kernel.table.proc p).killed = true
    · rw [if_pos returns] at called
      cases called
      have busy : (m.setTable m.kernel.table).cpu c ≠ none := by
        change m.cpu c ≠ none
        simp [own]
      simp only [if_neg busy]
      exact .pass
    · rw [if_neg returns] at called
      simp only [switch, enterSched_sleeps, Except.map, Except.ok.injEq] at called
      subst called
      simp only [Function.update_self, if_true]
      exact steps_charge fair own (sleep_charged _ p _) rfl rfl

theorem steps_of_kill {pid : UInt32} (acts : m.act c (.kill pid) = some (.ok m')) :
    Step m.meter b m'.meter b.pass := by
  obtain ⟨p, own, out, called⟩ := calls_some acts
  simp only [Except.ok.injEq] at called
  subst called
  cases found : m.kernel.table.first (fun q => q.pid = pid) with
  | none =>
    simp only [kill, found, Option.map_none, Option.getD_none]
    exact .pass
  | some j =>
    rw [kill_found found, Option.getD_some]
    refine steps_woken rfl (set_times _ j _ ⟨rfl, rfl, rfl⟩) fun i => ?_
    by_cases same : i = j
    · subst same
      by_cases asleep : (m.kernel.table.proc i).state = .sleeping <;> simp [Table.set, flagged, asleep]
    · simp [Table.set, same]

theorem act_steps {a : Action} (sound : m.Sound) (fair : Fair m.meter b) (clock : a ≠ .tick)
    (acts : m.act c a = some (.ok m')) : Step m.meter b m'.meter (record b m c a m') := by
  cases a with
  | dispatch p =>
    simp only [act, Option.ite_none_right_eq_some, Option.some.injEq, Except.ok.injEq] at acts
    obtain ⟨⟨idle, runnable⟩, rfl⟩ := acts
    simp only [record]
    exact steps_dispatch idle runnable
  | yield =>
    obtain ⟨p, own, called⟩ := current_some acts
    simp only [Option.some.injEq, switch, enterSched_yields _ _ _ (show ProcState.runnable ≠ .running by simp),
      Except.map, Except.ok.injEq] at called
    subst called
    simp only [record, own]
    exact steps_charge fair own (sched_charged rfl (fun _ => .refl _) (fun _ _ => Or.inl rfl) fun _ => rfl) rfl rfl
  | sleep address =>
    obtain ⟨p, own, out, called⟩ := calls_some acts
    simp only [switch, enterSched_sleeps, Except.map, Except.ok.injEq] at called
    subst called
    simp only [record, own]
    exact steps_charge fair own (sleep_charged _ p _) rfl rfl
  | wakeup chan =>
    simp only [act, Option.some.injEq, Except.ok.injEq] at acts
    subst acts
    exact steps_woken rfl (wakeup1_times _ _) (wakeup1_woken _ _).state
  | tick => exact absurd rfl clock
  | forkAlloc => exact steps_of_forkAlloc sound acts
  | forkTime => exact steps_of_forkTime sound acts
  | forkStack | forkCopy | forkRun => exact steps_of_fork sound acts rfl
  | exit => exact steps_of_exit fair acts
  | wait => exact steps_of_wait fair acts
  | kill pid => exact steps_of_kill acts

omit [DecidableEq Cpu] in
theorem tick_meter (few : m.kernel.table.ticks.toNat + 1 < 2 ^ 32) :
    meter (m.setTable { m.kernel.table with ticks := m.kernel.table.ticks + 1 }) = m.meter.tick := by
  refine Meter.ext ?_ rfl rfl rfl rfl rfl
  change (m.kernel.table.ticks + 1).toNat = m.kernel.table.ticks.toNat + 1
  rw [UInt32.toNat_add]
  simp only [UInt32.reduceToNat]
  omega

end Machine

namespace Account

/-- The counters are right as long as the clock has not come round. -/
structure Right (h : Account Cpu) : Prop where
  sound : h.machine.Sound
  clock : h.ticks < 2 ^ 32 → h.machine.meter.clock = h.ticks
  fair : h.ticks < 2 ^ 32 → Fair h.machine.meter h.books

theorem boot_right : (boot : Account Cpu).Right := by
  refine ⟨Machine.boot_sound, fun _ => rfl, fun _ => ?_⟩
  have only (i : Slot) (used : (Machine.boot : Machine Cpu).meter.stage i ≠ .free) : i = 0 := by
    by_contra other
    exact used (by simp [Machine.meter, Machine.boot, Kernel.stage, userinit, zeroProc, other, stageOf])
  have total (i : Slot) : (Machine.boot : Machine Cpu).meter.total i = 0 := by
    by_cases first : i = 0 <;> simp [Machine.meter, Machine.boot, userinit, zeroProc, first]
  have start (i : Slot) : (Machine.boot : Machine Cpu).meter.start i = 0 := by
    by_cases first : i = 0 <;> simp [Machine.meter, Machine.boot, userinit, zeroProc, first]
  have still (i : Slot) : (Machine.boot : Machine Cpu).meter.stage i ≠ .running := by
    by_cases first : i = 0 <;>
      simp [Machine.meter, Machine.boot, Kernel.stage, userinit, zeroProc, first, stageOf]
  have owed : (Machine.boot : Machine Cpu).meter.owed = 0 :=
    Finset.sum_eq_zero fun i _ => by simp [Meter.due, total]
  change Fair (Machine.boot : Machine Cpu).meter _
  constructor
  case charged => simp [start, total]
  case started => simp [start]
  case entered => exact fun i runs => absurd runs (still i)
  case exact_ => exact fun i _ => total i
  case bound => exact fun i _ => Nat.one_pos
  case distinct => exact fun i j used used' _ => (only i used).trans (only j used').symm
  case whole =>
    rw [owed]
    exact Nat.zero_le _
  case order => exact .nil
  case lanes => exact fun c => Nat.zero_le _
  all_goals simp [boot, Machine.meter, Machine.boot]

theorem step_right {h h' : Account Cpu} (label : Cpu × Action) (right : h.Right) (stepped : h.step label = some h') :
    h'.Right := by
  obtain ⟨m', moved, rfl⟩ := Option.map_eq_some_iff.mp stepped
  obtain ⟨c, a⟩ := label
  obtain ⟨result, acts, kept⟩ := Option.bind_eq_some_iff.mp moved
  cases result with
  | error _ => simp [Except.toOption] at kept
  | ok _ =>
    simp only [Except.toOption, Option.some.injEq] at kept
    subst kept
    have sound := Machine.step_sound (c, a) right.sound moved
    by_cases clock : a = .tick
    · subst clock
      simp only [Machine.act, Option.some.injEq, Except.ok.injEq] at acts
      subst acts
      have later (few : h.ticks + 1 < 2 ^ 32) :
          Machine.meter (h.machine.setTable { h.machine.kernel.table with ticks := h.machine.kernel.table.ticks + 1 }) =
            h.machine.meter.tick := by
        refine Machine.tick_meter ?_
        have same := right.clock (by omega)
        simp only [Machine.meter] at same
        omega
      refine ⟨sound, fun few => ?_, fun few => ?_⟩
      · change Meter.clock _ = h.ticks + 1
        rw [later few, ← right.clock (by change h.ticks + 1 < _ at few; omega)]
        rfl
      · change Fair (Machine.meter _) h.books.pass
        rw [later few]
        exact (right.fair (by change h.ticks + 1 < _ at few; omega)).tick
    · have none : a.ticks = 0 := by cases a <;> first | rfl | exact absurd rfl clock
      simp only [none, Nat.add_zero]
      refine ⟨sound, fun few => ?_, fun few => ?_⟩
      · exact (Machine.act_steps right.sound (right.fair few) clock acts).clock.trans (right.clock few)
      · exact (right.fair few).step (Machine.act_steps right.sound (right.fair few) clock acts)

theorem run_right (labels : List (Cpu × Action)) (h : Account Cpu) (run : Run.exec step boot labels = some h) :
    h.Right :=
  Run.exec_invariant step Right (fun _ label _ right stepped => step_right label right stepped) boot h labels
    boot_right run

/-- In a run with fewer than 2^32 ticks: a process whose `cpu_ticks_total` is set has been charged with its bursts
and nothing else; the bursts of a process do not overlap, and one that it is in comes after the others; no slot is
charged with more than the time since its start, but for one whose start is set and whose total is not; and the
processes whose total is set together with those that are gone with no more than the time of all CPUs. -/
theorem cpu_time_accounted [Fintype Cpu] (labels : List (Cpu × Action)) (h : Account Cpu)
    (run : Run.exec step boot labels = some h) (few : h.ticks < 2 ^ 32) :
    (∀ i, (h.machine.kernel.table.proc i).state ≠ .unused → h.machine.kernel.unset i = false →
        (h.machine.kernel.table.proc i).cpuTicksTotal.toNat = spentBy h.books.bursts (h.books.serial i)) ∧
      (∀ x ∈ h.books.bursts, x.start ≤ x.stop) ∧
      (h.books.bursts.Pairwise fun later earlier => later.serial = earlier.serial → earlier.Before later) ∧
      (∀ c i, h.machine.cpu c = some i → (∀ c', h.machine.cpu c' = some i → c' = c) ∧
        ∀ x ∈ h.books.bursts, x.serial = h.books.serial i → x.stop ≤ h.books.opened c ∧ x.ended < h.books.began c) ∧
      (∀ i, h.machine.kernel.torn i = false →
        (h.machine.kernel.table.proc i).startTicks.toNat + (h.machine.kernel.table.proc i).cpuTicksTotal.toNat ≤
          h.machine.kernel.table.ticks.toNat) ∧
      (h.books.finals.map Prod.snd).sum +
          ∑ i, (if (h.machine.kernel.table.proc i).state ≠ .unused ∧ h.machine.kernel.unset i = false then
            (h.machine.kernel.table.proc i).cpuTicksTotal.toNat else 0) ≤
        Fintype.card Cpu * h.machine.kernel.table.ticks.toNat := by
  have right := run_right labels h run
  have fair := right.fair few
  refine ⟨fun i used set_ => ?_, fair.forward, fair.order, fun c i own => ⟨fun c' own' => ?_, fair.current c i own⟩,
    fun i whole => fair.total_le i (Machine.not_torn whole), ?_⟩
  · exact fair.exact_ i ((right.sound.counted_iff i).mpr ⟨used, set_⟩)
  · exact fair.single c' c i own' own
  · simp only [← right.sound.counted_iff]
    exact fair.whole_le

-- init runs for a tick, and its child on the other CPU for two.
def twoTicks : List (Bool × Action) :=
  Machine.initForks false ++ [(true, .dispatch 1), (false, .tick), (false, .yield), (false, .tick), (true, .yield)]

theorem cpu_time_accounted_two :
    ∃ h : Account Bool, Run.exec step boot twoTicks = some h ∧
      (h.machine.kernel.table.proc 1).cpuTicksTotal.toNat = 2 ∧
      spentBy h.books.bursts (h.books.serial 1) = 2 := by
  have evaluated : (Run.exec step (boot : Account Bool) twoTicks).any (fun h =>
        h.ticks < 2 ^ 32 ∧ (h.machine.kernel.table.proc 1).state ≠ .unused ∧ h.machine.kernel.unset 1 = false ∧
          (h.machine.kernel.table.proc 1).cpuTicksTotal.toNat = 2) = true := by
    decide +kernel
  obtain ⟨h, run, facts⟩ := (Option.any_eq_true _ _).mp evaluated
  obtain ⟨few, used, set_, total⟩ := of_decide_eq_true facts
  exact ⟨h, run, total, ((cpu_time_accounted _ h run few).1 1 used set_).symm.trans total⟩

-- The slot of a child that has run for a tick is used again, up to between the stores of `start_ticks` and
-- `cpu_ticks_total`.
def reused : List (Unit × Action) :=
  Machine.initForks () ++ [((), .wait), ((), .dispatch 1), ((), .tick), ((), .exit), ((), .dispatch 0), ((), .wait),
    ((), .forkAlloc), ((), .forkStack true), ((), .forkTime)]

-- The new process has the total of the old one and no burst; more than the time since its start; and the totals
-- of the two are more than the time.
theorem cpu_time_of_embryo :
    ∃ h : Account Unit, Run.exec step boot reused = some h ∧
      (h.ticks = 1 ∧ h.machine.kernel.table.ticks = 1 ∧ (h.machine.kernel.table.proc 1).state = .embryo ∧
        (h.machine.kernel.table.proc 1).pid = 3 ∧ (h.machine.kernel.table.proc 1).startTicks = 1 ∧
        (h.machine.kernel.table.proc 1).cpuTicksTotal = 1 ∧ spentBy h.books.bursts (h.books.serial 1) = 0 ∧
        h.books.finals.map Prod.snd = [1]) := by
  have evaluated : (Run.exec step (boot : Account Unit) reused).any (fun h =>
        h.ticks = 1 ∧ h.machine.kernel.table.ticks = 1 ∧ (h.machine.kernel.table.proc 1).state = .embryo ∧
          (h.machine.kernel.table.proc 1).pid = 3 ∧ (h.machine.kernel.table.proc 1).startTicks = 1 ∧
          (h.machine.kernel.table.proc 1).cpuTicksTotal = 1 ∧ spentBy h.books.bursts (h.books.serial 1) = 0 ∧
          h.books.finals.map Prod.snd = [1]) = true := by
    decide +kernel
  obtain ⟨h, run, facts⟩ := (Option.any_eq_true _ _).mp evaluated
  exact ⟨h, run, of_decide_eq_true facts⟩

end Account

end Steps

end Xv6.Ptable
