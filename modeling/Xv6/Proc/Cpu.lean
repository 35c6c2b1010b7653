import Xv6.Proc.Family

set_option autoImplicit false

/-!
# The CPUs

A CPU runs its scheduler or the process that its `proc` pointer refers to. The state of that process
is not tested before the process goes on: that a process on a CPU is `RUNNING`, and on no other CPU,
is what is proved. A section under `ptable.lock` is one step. The lock is passed on over `swtch`, so
a section that ends in `sched` ends with the scheduler having cleared `proc`.
-/

namespace Xv6.Ptable

-- `sched` up to the switch.
def enterSched (t : Table) (p : Slot) : Except Panic Table :=
  if (t.proc p).state = .running then .error .schedRunning
  else
    .ok (t.set p { t.proc p with
      cpuTicksTotal := (t.proc p).cpuTicksTotal + (t.ticks - (t.proc p).cpuTicksIn) })

structure Machine (Cpu : Type) where
  kernel : Kernel
  cpu : Cpu → Option Slot

inductive Action where
  | dispatch (p : Slot)
  | yield
  | sleep (address : Nat)
  | wakeup (chan : Chan)
  | tick
  | forkAlloc
  | forkStack (kalloc : Bool)
  | forkTime
  | forkCopy (copyuvm : Bool)
  | forkRun
  | exit
  | wait
  | kill (pid : UInt32)

namespace Machine

variable {Cpu : Type} [DecidableEq Cpu]

def setTable (m : Machine Cpu) (t : Table) : Machine Cpu := { m with kernel := { m.kernel with table := t } }

-- The process of the CPU calls `sched`; the scheduler goes on and clears `proc`.
def switch (m : Machine Cpu) (c : Cpu) (t : Except Panic Table) : Except Panic (Machine Cpu) :=
  t.map fun t => ⟨{ m.kernel with table := t }, Function.update m.cpu c none⟩

-- A step of the process of the CPU, wherever it is; of one that is outside `fork`.
def current (m : Machine Cpu) (c : Cpu) (f : Slot → Option (Except Panic (Machine Cpu))) :
    Option (Except Panic (Machine Cpu)) :=
  (m.cpu c).bind f

def calls (m : Machine Cpu) (c : Cpu) (f : Slot → Except Panic (Machine Cpu)) :
    Option (Except Panic (Machine Cpu)) :=
  m.current c fun p => if m.kernel.fork p = .out then some (f p) else none

def act (m : Machine Cpu) (c : Cpu) : Action → Option (Except Panic (Machine Cpu))
  | .dispatch p =>
    if m.cpu c = none ∧ (m.kernel.table.proc p).state = .runnable then
      some (.ok ⟨{ m.kernel with table := dispatch m.kernel.table p }, Function.update m.cpu c (some p)⟩)
    else none
  | .yield =>
    let t := m.kernel.table
    m.current c fun p => some (m.switch c (enterSched (t.set p { t.proc p with state := .runnable }) p))
  | .sleep address =>
    let t := m.kernel.table
    m.calls c fun p =>
      m.switch c (enterSched (t.set p { t.proc p with chan := some (.other address), state := .sleeping }) p)
  | .wakeup chan => some (.ok (m.setTable (wakeup1 m.kernel.table (some chan))))
  | .tick => some (.ok (m.setTable { m.kernel.table with ticks := m.kernel.table.ticks + 1 }))
  | .forkAlloc =>
    m.calls c fun p =>
      match allocproc m.kernel.table with
      | some (np, t) => .ok { m with kernel := ⟨t, Function.update m.kernel.fork p (.alloc np)⟩ }
      | none => .ok m
  | .forkStack kalloc =>
    m.current c fun p =>
      match m.kernel.fork p with
      | .alloc np =>
        some (.ok { m with
          kernel := ⟨allocStack m.kernel.table np kalloc,
            Function.update m.kernel.fork p (if kalloc then .times np .start else .out)⟩ })
      | _ => none
  | .forkTime =>
    m.current c fun p =>
      match m.kernel.fork p with
      | .times np next =>
        some (.ok { m with
          kernel := ⟨allocTime m.kernel.table np next, Function.update m.kernel.fork p (next.after np)⟩ })
      | _ => none
  | .forkCopy copyuvm =>
    m.current c fun p =>
      match m.kernel.fork p with
      | .stack np =>
        some (.ok { m with
          kernel := ⟨forkCopy m.kernel.table p np copyuvm,
            Function.update m.kernel.fork p (if copyuvm then .copied np else .out)⟩ })
      | _ => none
  | .forkRun =>
    m.current c fun p =>
      match m.kernel.fork p with
      | .copied np =>
        some (.ok { m with kernel := ⟨forkRun m.kernel.table np, Function.update m.kernel.fork p .out⟩ })
      | _ => none
  | .exit =>
    m.calls c fun p =>
      if p = m.kernel.table.initproc then .error .initExiting
      else
        let t := reparent (wakeup1 m.kernel.table ((m.kernel.table.proc p).parent.map .proc)) p
        m.switch c (enterSched (t.set p { t.proc p with state := .zombie }) p)
  | .wait =>
    let t := m.kernel.table
    m.calls c fun p =>
      match wait t p with
      | (.sleeps, _) =>
        m.switch c (enterSched (t.set p { t.proc p with chan := some (.proc p), state := .sleeping }) p)
      | (_, t') => .ok (m.setTable t')
  | .kill pid => m.calls c fun _ => .ok (m.setTable ((kill m.kernel.table pid).getD m.kernel.table))

def step (m : Machine Cpu) (label : Cpu × Action) : Option (Machine Cpu) :=
  (m.act label.1 label.2).bind Except.toOption

-- Every CPU is in its scheduler after boot.
def boot : Machine Cpu := ⟨userinit, fun _ => none⟩

end Machine

section Memory

/-- A process owns its kernel stack and its page table from its start until `wait` frees them. -/
structure Tree.Backed (f : Tree) : Prop where
  started : ∀ i, f.phase i = .alive ∨ f.phase i = .zombie → f.pgdir i = true ∧ f.kstack i = true
  times : ∀ p np c, f.fork p = .times np c → f.kstack np = true
  stack : ∀ p np, f.fork p = .stack np → f.kstack np = true
  copied : ∀ p np, f.fork p = .copied np → f.pgdir np = true ∧ f.kstack np = true

section Moves

variable {f : Tree} (backed : f.Backed) (p np : Slot)

include backed

theorem Tree.Backed.alloc : (f.alloc p np).Backed := by
  obtain ⟨started, times, stack, copied⟩ := backed
  constructor <;> simp only [Tree.alloc, Function.update_apply] <;> grind

theorem Tree.Backed.stackMove : (f.stack p np).Backed := by
  obtain ⟨started, times, stack, copied⟩ := backed
  constructor <;> simp only [Tree.stack, Function.update_apply] <;> grind

theorem Tree.Backed.time (c : Counter) (at_ : f.fork p = .times np c) : (f.time p np c).Backed := by
  obtain ⟨started, times, stack, copied⟩ := backed
  cases c <;> constructor <;> simp only [Tree.time, Counter.after, Function.update_apply] <;> grind

theorem Tree.Backed.copy (at_ : f.fork p = .stack np) : (f.copy p np).Backed := by
  obtain ⟨started, times, stack, copied⟩ := backed
  constructor <;> simp only [Tree.copy, Function.update_apply] <;> grind

theorem Tree.Backed.run (at_ : f.fork p = .copied np) : (f.run p np).Backed := by
  obtain ⟨started, times, stack, copied⟩ := backed
  constructor <;> simp only [Tree.run, Function.update_apply] <;> grind

theorem Tree.Backed.exit (alive : f.phase p = .alive) : (f.exit p).Backed := by
  obtain ⟨started, times, stack, copied⟩ := backed
  refine ⟨?_, times, stack, copied⟩
  simp only [Tree.exit, Function.update_apply]
  grind

-- The memory that is given back belongs to no process, and no other `fork` holds the slot.
theorem Tree.Backed.drop (family : f.Family) (held : (f.fork p).holds = some np) (pgdir : Bool) :
    (f.drop p np pgdir).Backed := by
  have embryo := (family.caller p np held).2
  have alone : ∀ q, (f.fork q).holds = some np → q = p := fun q other => family.distinct q p np other held
  obtain ⟨started, times, stack, copied⟩ := backed
  constructor <;> simp only [Tree.drop, Function.update_apply] <;> grind [ForkPc.holds]

theorem Tree.Backed.reap (family : f.Family) (zombie : f.phase p = .zombie) : (f.reap p).Backed := by
  have nobody : ∀ q, (f.fork q).holds ≠ some p := by
    intro q held
    rw [(family.caller q p held).2] at zombie
    cases zombie
  obtain ⟨started, times, stack, copied⟩ := backed
  constructor <;> simp only [Tree.reap, Function.update_apply] <;> grind [ForkPc.holds]

end Moves

theorem Move.backed {k k' : Kernel} {e : Event} (move : Move k e k') (family : k.tree.Family)
    (backed : k.tree.Backed) : k'.tree.Backed := by
  cases move with
  | wakes e k' quiet fork woken => exact wakes_tree fork woken ▸ backed
  | dispatch p k' fork turn => exact turn_tree fork turn rfl ▸ backed
  | leaves e p s k' quiet fork stays turn =>
    exact turn_tree fork turn (by rcases stays with rfl | rfl <;> rfl) ▸ backed
  | alloc p np running out scan => exact alloc_tree k p np ▸ backed.alloc p np
  | stack p np running at_ => exact stack_tree k p np ▸ backed.stackMove p np
  | time p np c running at_ => exact time_tree k p np c ▸ backed.time p np c at_
  | noStack p np running at_ => exact noStack_tree k p np ▸ backed.drop p np family (congrArg ForkPc.holds at_) _
  | copy p np running at_ => exact copy_tree k p np ▸ backed.copy p np at_
  | noCopy p np running at_ => exact noCopy_tree k p np ▸ backed.drop p np family (congrArg ForkPc.holds at_) _
  | run p np running at_ => exact run_tree k p np ▸ backed.run p np at_
  | exits p k' running out fork exited =>
    exact exits_tree p fork exited ▸ backed.exit p (tree_running k p running)
  | reaps p i running out found => exact reap_tree k i ▸ backed.reap i family (tree_zombie found).2
  | kills p i pid running found =>
    rw [kill_tree]
    exact ⟨backed.started, backed.times, backed.stack, backed.copied⟩

end Memory

section Sched

theorem set_set (t : Table) (p : Slot) (x y : Proc) : (t.set p x).set p y = t.set p y := by
  simp [Table.set]

theorem enterSched_yields (t : Table) (p : Slot) (s : ProcState) (other : s ≠ .running) :
    enterSched (t.set p { t.proc p with state := s }) p = .ok (sched t p s) := by
  have stored : ((t.set p { t.proc p with state := s }).proc p) = { t.proc p with state := s } := by
    simp [Table.set]
  rw [enterSched, stored, if_neg other, set_set]
  rfl

theorem enterSched_sleeps (t : Table) (p : Slot) (chan : Chan) :
    enterSched (t.set p { t.proc p with chan := some chan, state := .sleeping }) p = .ok (sleep t p chan) := by
  have first := enterSched_yields (t.set p { t.proc p with chan := some chan }) p .sleeping (by simp)
  have stored : ((t.set p { t.proc p with chan := some chan }).proc p) = { t.proc p with chan := some chan } := by
    simp [Table.set]
  rw [stored, set_set] at first
  exact first

end Sched

namespace Machine

variable {Cpu : Type} [DecidableEq Cpu] {m m' : Machine Cpu} {c : Cpu} {a : Action}

def running (m : Machine Cpu) (p : Slot) : Prop := (m.kernel.table.proc p).state = .running

/-- A step of a CPU is a step of the process table; the pointer of the CPU follows the state. -/
inductive Follows (m : Machine Cpu) (c : Cpu) (m' : Machine Cpu) : Prop where
  | stays (e : Event) (stepped : Ptable.step m.kernel e = some m'.kernel) (cpu : m'.cpu = m.cpu)
      (states : ∀ i, m'.running i ↔ m.running i)
  | takes (p : Slot) (e : Event) (stepped : Ptable.step m.kernel e = some m'.kernel) (idle : m.cpu c = none)
      (cpu : m'.cpu = Function.update m.cpu c (some p)) (other : ¬ m.running p)
      (states : ∀ i, m'.running i ↔ m.running i ∨ i = p)
  | leaves (p : Slot) (e : Event) (stepped : Ptable.step m.kernel e = some m'.kernel) (own : m.cpu c = some p)
      (cpu : m'.cpu = Function.update m.cpu c none)
      (states : ∀ i, m'.running i ↔ m.running i ∧ i ≠ p)

structure Sound (m : Machine Cpu) : Prop where
  family : m.kernel.tree.Family
  backed : m.kernel.tree.Backed
  running : ∀ c p, m.cpu c = some p → m.running p
  placed : ∀ p, m.running p → ∃ c, m.cpu c = some p
  single : ∀ c c' p, m.cpu c = some p → m.cpu c' = some p → c = c'

theorem Follows.sound (follows : m.Follows c m') (sound : m.Sound) : m'.Sound := by
  obtain ⟨family, backed, running, placed, single⟩ := sound
  cases follows with
  | stays e stepped cpu states =>
    have move := step_move _ _ e stepped
    refine ⟨move.family family, move.backed family backed, ?_, ?_, ?_⟩ <;> simp only [cpu, states]
    · exact running
    · exact placed
    · exact single
  | takes p e stepped idle cpu other states =>
    have move := step_move _ _ e stepped
    refine ⟨move.family family, move.backed family backed, ?_, ?_, ?_⟩ <;> simp only [cpu, states]
    · grind
    · rintro q (runs | rfl)
      · obtain ⟨c', at_⟩ := placed q runs
        have away : c' ≠ c := by
          rintro rfl
          rw [idle] at at_
          cases at_
        exact ⟨c', by rw [Function.update_of_ne away, at_]⟩
      · exact ⟨c, Function.update_self ..⟩
    · grind
  | leaves p e stepped own cpu states =>
    have move := step_move _ _ e stepped
    refine ⟨move.family family, move.backed family backed, ?_, ?_, ?_⟩ <;> simp only [cpu, states]
    · grind
    · rintro q ⟨runs, other⟩
      obtain ⟨c', at_⟩ := placed q runs
      have away : c' ≠ c := by
        rintro rfl
        rw [own, Option.some.injEq] at at_
        exact other at_.symm
      exact ⟨c', by rw [Function.update_of_ne away, at_]⟩
    · grind

theorem Woken.running {t t' : Table} (woken : Woken t t') (i : Slot) :
    (t'.proc i).state = .running ↔ (t.proc i).state = .running := by
  rcases woken.state i with same | ⟨slept, woke⟩
  · rw [same]
  · simp [slept, woke]

theorem set_running (t : Table) (np : Slot) (x : Proc) (before : (t.proc np).state ≠ .running)
    (after : x.state ≠ .running) (i : Slot) :
    ((t.set np x).proc i).state = .running ↔ (t.proc i).state = .running := by
  by_cases same : i = np
  · subst same
    simp [Table.set, before, after]
  · simp [Table.set, same]

theorem leaves_running {t t' : Table} {p : Slot} {s s' : ProcState} (turn : Turn t t' p s s')
    (after : s' ≠ .running) (i : Slot) :
    (t'.proc i).state = .running ↔ (t.proc i).state = .running ∧ i ≠ p := by
  by_cases same : i = p
  · subst same
    simp [turn.after, after]
  · rw [turn.others i same]
    simp [same]

omit [DecidableEq Cpu] in
theorem current_some {f : Slot → Option (Except Panic (Machine Cpu))} {r : Except Panic (Machine Cpu)}
    (acts : m.current c f = some r) : ∃ p, m.cpu c = some p ∧ f p = some r :=
  Option.bind_eq_some_iff.mp acts

omit [DecidableEq Cpu] in
theorem calls_some {f : Slot → Except Panic (Machine Cpu)} {r : Except Panic (Machine Cpu)}
    (acts : m.calls c f = some r) : ∃ p, m.cpu c = some p ∧ m.kernel.fork p = .out ∧ f p = r := by
  obtain ⟨p, own, called⟩ := current_some acts
  simp only [Option.ite_none_right_eq_some, Option.some.injEq] at called
  exact ⟨p, own, called⟩

omit [DecidableEq Cpu] in
theorem Sound.embryo (sound : m.Sound) {p np : Slot} (held : (m.kernel.fork p).holds = some np) :
    (m.kernel.table.proc np).state = .embryo := by
  have phase := (sound.family.caller p np held).2
  simp only [Kernel.tree] at phase
  cases state : (m.kernel.table.proc np).state <;> simp_all [ProcState.phase]

omit [DecidableEq Cpu] in
theorem Sound.free (sound : m.Sound) {p : Slot} (own : m.cpu c = some p) (out : m.kernel.fork p = .out) :
    m.kernel.free p = true :=
  (free_iff _ p).mpr ⟨sound.running c p own, out⟩

theorem follows_dispatch {p : Slot} (acts : m.act c (.dispatch p) = some (.ok m')) : m.Follows c m' := by
  simp only [act, Option.ite_none_right_eq_some, Option.some.injEq, Except.ok.injEq] at acts
  obtain ⟨⟨idle, runnable⟩, rfl⟩ := acts
  have turn := dispatch_turn m.kernel.table p runnable
  refine .takes p (.dispatch p) (by simp [Ptable.step, runnable]) idle rfl (by simp [running, runnable]) ?_
  intro i
  by_cases same : i = p
  · subst same
    simp [running, turn.after]
  · simp [running, turn.others i same, same]

theorem follows_yield (sound : m.Sound) (acts : m.act c .yield = some (.ok m')) : m.Follows c m' := by
  obtain ⟨p, own, called⟩ := current_some acts
  have runs := sound.running c p own
  simp only [Option.some.injEq, switch, enterSched_yields _ _ _ (show ProcState.runnable ≠ .running by simp),
    Except.map, Except.ok.injEq] at called
  subst called
  exact .leaves p (.yield p) (by simp [Ptable.step, (running_iff _ p).mpr runs]) own rfl
    (leaves_running (sched_turn m.kernel.table p _ .runnable runs) (by simp))

theorem follows_sleep {address : Nat} (sound : m.Sound) (acts : m.act c (.sleep address) = some (.ok m')) :
    m.Follows c m' := by
  obtain ⟨p, own, out, called⟩ := calls_some acts
  simp only [switch, enterSched_sleeps, Except.map, Except.ok.injEq] at called
  subst called
  exact .leaves p (.sleep p address) (by simp [Ptable.step, sound.free own out]) own rfl
    (leaves_running (sleep_turn m.kernel.table p _ _ (sound.running c p own)) (by simp))

theorem follows_forkAlloc (sound : m.Sound) (acts : m.act c .forkAlloc = some (.ok m')) : m.Follows c m' := by
  obtain ⟨p, own, out, called⟩ := calls_some acts
  have free := sound.free own out
  cases scan : m.kernel.table.first (fun q => q.state = .unused) with
  | none =>
    simp only [allocproc, scan, Option.map_none, Except.ok.injEq] at called
    subst called
    exact .stays (.forkAlloc p) (by simp [Ptable.step, free, allocproc, scan]) rfl fun _ => Iff.rfl
  | some np =>
    have unused : (m.kernel.table.proc np).state = .unused := by simpa using first_some scan
    simp only [allocproc, scan, Option.map_some, Except.ok.injEq] at called
    subst called
    exact .stays (.forkAlloc p) (by simp [Ptable.step, free, allocproc, scan]) rfl
      (set_running _ np _ (by simp [unused]) (by simp))

/-- A step of a `fork` on the slot that it holds. -/
structure Forks (m m' : Machine Cpu) (p np : Slot) (x : Proc) (pc : ForkPc) : Prop where
  held : (m.kernel.fork p).holds = some np
  next : pc.holds = some np ∨ pc = .out
  kernel : m'.kernel = ⟨m.kernel.table.set np x, Function.update m.kernel.fork p pc⟩
  cpu : m'.cpu = m.cpu

/-- How `fork` goes on with its slot: where it was, the state of the slot afterwards, and where it is then. -/
inductive Continues (np : Slot) : ForkPc → ProcState → ForkPc → Prop where
  | noStack : Continues np (.alloc np) .unused .out
  | stack : Continues np (.alloc np) .embryo (.times np .start)
  | noCopy : Continues np (.stack np) .unused .out
  | copy : Continues np (.stack np) .embryo (.copied np)
  | run : Continues np (.copied np) .runnable .out

def later : Action → Bool
  | .forkStack _ | .forkCopy _ | .forkRun => true
  | _ => false

theorem act_forks (sound : m.Sound) (acts : m.act c a = some (.ok m')) (within : later a = true) :
    ∃ e p np x pc, Ptable.step m.kernel e = some m'.kernel ∧ m.Forks m' p np x pc ∧
      Continues np (m.kernel.fork p) x.state pc ∧ x.startTicks = (m.kernel.table.proc np).startTicks ∧
      x.cpuTicksTotal = (m.kernel.table.proc np).cpuTicksTotal ∧ x.cpuTicksIn = (m.kernel.table.proc np).cpuTicksIn := by
  cases a <;> try cases within
  all_goals
    obtain ⟨p, own, called⟩ := current_some acts
    have runs := (running_iff _ p).mpr (sound.running c p own)
    split at called <;> cases called
    rename_i np at_
    have held : (m.kernel.fork p).holds = some np := by rw [at_]; rfl
    have embryo := sound.embryo held
  · rename_i kalloc _
    refine ⟨.forkStack p kalloc, p, np, ?_⟩
    cases kalloc with
    | true => exact ⟨_, .times np .start, by simp [Ptable.step, at_, runs], ⟨held, Or.inl rfl, rfl, rfl⟩,
        by simp only [at_, embryo]; exact .stack, rfl, rfl, rfl⟩
    | false => exact ⟨_, .out, by simp [Ptable.step, at_, runs], ⟨held, Or.inr rfl, rfl, rfl⟩,
        by rw [at_]; exact .noStack, rfl, rfl, rfl⟩
  · rename_i copyuvm _
    refine ⟨.forkCopy p copyuvm, p, np, ?_⟩
    cases copyuvm with
    | true => exact ⟨_, .copied np, by simp [Ptable.step, at_, runs], ⟨held, Or.inl rfl, rfl, rfl⟩,
        by simp only [at_, embryo]; exact .copy, rfl, rfl, rfl⟩
    | false => exact ⟨_, .out, by simp [Ptable.step, at_, runs], ⟨held, Or.inr rfl, rfl, rfl⟩,
        by rw [at_]; exact .noCopy, rfl, rfl, rfl⟩
  · exact ⟨.forkRun p, p, np, _, .out, by simp [Ptable.step, at_, runs], ⟨held, Or.inr rfl, rfl, rfl⟩,
      by rw [at_]; exact .run, rfl, rfl, rfl⟩

theorem Forks.follows {p np : Slot} {x : Proc} {pc : ForkPc} {e : Event} (forks : m.Forks m' p np x pc)
    (sound : m.Sound) (stepped : Ptable.step m.kernel e = some m'.kernel) (still : x.state ≠ .running) :
    m.Follows c m' := by
  refine .stays e stepped forks.cpu fun i => ?_
  rw [running, forks.kernel]
  exact set_running _ np x (by simp [sound.embryo forks.held]) still i

theorem follows_forkTime (sound : m.Sound) (acts : m.act c .forkTime = some (.ok m')) : m.Follows c m' := by
  obtain ⟨p, own, called⟩ := current_some acts
  have runs := (running_iff _ p).mpr (sound.running c p own)
  split at called <;> cases called
  next np next at_ =>
    have held : (m.kernel.fork p).holds = some np := by rw [at_]; rfl
    have stepped : Ptable.step m.kernel (.forkTime p) =
        some ⟨allocTime m.kernel.table np next, Function.update m.kernel.fork p (next.after np)⟩ := by
      simp [Ptable.step, at_, runs]
    cases next <;> exact Forks.follows ⟨held, Or.inl rfl, rfl, rfl⟩ sound stepped (by simp [sound.embryo held])

theorem follows_fork (sound : m.Sound) (acts : m.act c a = some (.ok m')) (within : later a = true) : m.Follows c m' := by
  obtain ⟨e, p, np, x, pc, stepped, forks, continues, -⟩ := act_forks sound acts within
  refine forks.follows sound stepped fun runs => ?_
  rw [runs] at continues
  generalize m.kernel.fork p = before at continues
  cases continues

theorem follows_exit (sound : m.Sound) (acts : m.act c .exit = some (.ok m')) : m.Follows c m' := by
  obtain ⟨p, own, out, called⟩ := calls_some acts
  split at called
  · cases called
  next other =>
    simp only [switch, enterSched_yields _ _ _ (show ProcState.zombie ≠ .running by simp), Except.map,
      Except.ok.injEq] at called
    subst called
    have ends : Ptable.exit m.kernel.table p = .ok _ := if_neg other
    have exited := exit_exited _ _ p ends
    refine .leaves p (.exit p) (by simp [Ptable.step, sound.free own out, ends]) own rfl ?_
    intro i
    by_cases same : i = p
    · subst same
      simp [running, exited.zombie]
    · rcases exited.state i same with kept | ⟨slept, woke⟩
      · simp [running, kept, same]
      · simp [running, slept, woke]

theorem follows_wait (sound : m.Sound) (acts : m.act c .wait = some (.ok m')) : m.Follows c m' := by
  obtain ⟨p, own, out, called⟩ := calls_some acts
  have stepped : Ptable.step m.kernel (.wait p) =
      some { m.kernel with table := (Ptable.wait m.kernel.table p).2 } := by
    simp [Ptable.step, sound.free own out]
  cases found : zombieChild m.kernel.table p with
  | some i =>
    have zombie : (m.kernel.table.proc i).parent = some p ∧ (m.kernel.table.proc i).state = .zombie := by
      simpa using first_some found
    rw [wait_reaped found] at called stepped
    cases called
    exact .stays (.wait p) stepped rfl (set_running _ i _ (by simp [zombie.2]) (by simp [reaped]))
  | none =>
    rw [wait_none found] at called stepped
    by_cases returns : (m.kernel.table.first fun q => q.parent = some p).isNone ∨
        (m.kernel.table.proc p).killed = true
    · rw [if_pos returns] at called stepped
      cases called
      exact .stays (.wait p) stepped rfl fun _ => Iff.rfl
    · rw [if_neg returns] at called stepped
      simp only [switch, enterSched_sleeps, Except.map, Except.ok.injEq] at called
      subst called
      exact .leaves p (.wait p) stepped own rfl
        (leaves_running (sleep_turn m.kernel.table p _ _ (sound.running c p own)) (by simp))

theorem follows_kill {pid : UInt32} (sound : m.Sound) (acts : m.act c (.kill pid) = some (.ok m')) :
    m.Follows c m' := by
  obtain ⟨p, own, out, called⟩ := calls_some acts
  simp only [Except.ok.injEq] at called
  subst called
  refine .stays (.kill p pid) (by simp [Ptable.step, sound.free own out, setTable]) rfl ?_
  cases found : m.kernel.table.first (fun q => q.pid = pid) with
  | none =>
    simp [running, setTable, kill, found]
  | some j =>
    intro i
    simp only [running, setTable, kill_found found, Option.getD_some]
    by_cases same : i = j
    · subst same
      by_cases asleep : (m.kernel.table.proc i).state = .sleeping <;> simp [Table.set, flagged, asleep]
    · simp [Table.set, same]

theorem act_follows (sound : m.Sound) (acts : m.act c a = some (.ok m')) : m.Follows c m' := by
  cases a with
  | dispatch p => exact follows_dispatch acts
  | yield => exact follows_yield sound acts
  | sleep address => exact follows_sleep sound acts
  | wakeup chan =>
    simp only [act, Option.some.injEq, Except.ok.injEq] at acts
    subst acts
    exact .stays (.wakeup chan) rfl rfl (Woken.running (wakeup1_woken _ _))
  | tick =>
    simp only [act, Option.some.injEq, Except.ok.injEq] at acts
    subst acts
    exact .stays .tick rfl rfl fun _ => Iff.rfl
  | forkAlloc => exact follows_forkAlloc sound acts
  | forkTime => exact follows_forkTime sound acts
  | forkStack | forkCopy | forkRun => exact follows_fork sound acts rfl
  | exit => exact follows_exit sound acts
  | wait => exact follows_wait sound acts
  | kill pid => exact follows_kill sound acts

-- None of the callers of `sched` has left its process in the state that `sched` panics at.
theorem act_ne_schedRunning (m : Machine Cpu) (c : Cpu) (a : Action) : m.act c a ≠ some (.error .schedRunning) := by
  intro acts
  cases a with
  | dispatch p => simp [act] at acts
  | wakeup chan => simp [act] at acts
  | tick => simp [act] at acts
  | yield =>
    obtain ⟨p, -, called⟩ := current_some acts
    simp [switch, enterSched_yields _ _ _ (show ProcState.runnable ≠ .running by simp), Except.map] at called
  | sleep address =>
    obtain ⟨p, -, -, called⟩ := calls_some acts
    simp [switch, enterSched_sleeps, Except.map] at called
  | forkAlloc =>
    obtain ⟨p, -, -, called⟩ := calls_some acts
    split at called <;> cases called
  | forkStack kalloc =>
    obtain ⟨p, -, called⟩ := current_some acts
    split at called <;> simp at called
  | forkTime =>
    obtain ⟨p, -, called⟩ := current_some acts
    split at called <;> simp at called
  | forkCopy copyuvm =>
    obtain ⟨p, -, called⟩ := current_some acts
    split at called <;> simp at called
  | forkRun =>
    obtain ⟨p, -, called⟩ := current_some acts
    split at called <;> simp at called
  | exit =>
    obtain ⟨p, -, -, called⟩ := calls_some acts
    split at called
    · cases called
    · simp [switch, enterSched_yields _ _ _ (show ProcState.zombie ≠ .running by simp), Except.map] at called
  | wait =>
    obtain ⟨p, -, -, called⟩ := calls_some acts
    split at called
    · simp [switch, enterSched_sleeps, Except.map] at called
    · cases called
  | kill pid =>
    obtain ⟨p, -, -, called⟩ := calls_some acts
    cases called

omit [DecidableEq Cpu] in
theorem boot_sound : (boot : Machine Cpu).Sound where
  family := userinit_family
  backed := by
    refine ⟨?_, by simp [boot, Kernel.tree, userinit], by simp [boot, Kernel.tree, userinit],
      by simp [boot, Kernel.tree, userinit]⟩
    intro i
    by_cases first : i = 0 <;> simp [boot, Kernel.tree, userinit, zeroProc, first, ProcState.phase]
  running := by simp [boot]
  placed := by
    intro p runs
    by_cases first : p = 0 <;> simp [Machine.running, boot, userinit, zeroProc, first] at runs
  single := by simp [boot]

theorem step_sound (label : Cpu × Action) (sound : m.Sound) (stepped : m.step label = some m') : m'.Sound := by
  obtain ⟨result, acts, kept⟩ := Option.bind_eq_some_iff.mp stepped
  cases result with
  | error _ => simp [Except.toOption] at kept
  | ok _ =>
    simp only [Except.toOption, Option.some.injEq] at kept
    subst kept
    exact (act_follows sound acts).sound sound

/-- A process is `RUNNING` exactly when one CPU refers to it; no CPU refers to any other slot, or to
one that `wait` has freed; and `sched` never finds its process still running. -/
theorem one_cpu (labels : List (Cpu × Action)) (m : Machine Cpu) (run : Run.exec step boot labels = some m) :
    (∀ p, (m.kernel.table.proc p).state = .running ↔ ∃! c, m.cpu c = some p) ∧
    (∀ c p, m.cpu c = some p → (m.kernel.table.proc p).state = .running ∧
      (m.kernel.table.proc p).kstack = true ∧ (m.kernel.table.proc p).pgdir = true) ∧
    ∀ c a, m.act c a ≠ some (.error .schedRunning) := by
  have sound : m.Sound :=
    Run.exec_invariant step Sound (fun _ label _ sound stepped => step_sound label sound stepped) boot m labels
      boot_sound run
  refine ⟨fun p => ⟨fun runs => ?_, fun ⟨c, own, _⟩ => sound.running c p own⟩, fun c p own => ?_,
    m.act_ne_schedRunning⟩
  · obtain ⟨c, own⟩ := sound.placed p runs
    exact ⟨c, own, fun c' own' => sound.single c' c p own' own⟩
  · have runs := sound.running c p own
    have memory := sound.backed.started p (Or.inl (tree_running m.kernel p runs))
    exact ⟨runs, memory.2, memory.1⟩

-- The CPU runs init, which forks.
def initForks (c : Cpu) : List (Cpu × Action) :=
  [.dispatch 0, .forkAlloc, .forkStack true, .forkTime, .forkTime, .forkTime, .forkCopy true, .forkRun].map (c, ·)

-- The other CPU runs the child.
theorem one_cpu_two :
    ∃ m : Machine Bool, Run.exec step boot (initForks false ++ [(true, .dispatch 1)]) = some m ∧
      m.cpu true = some 1 ∧ ∃! c, m.cpu c = some 1 := by
  have evaluated : (Run.exec step (boot : Machine Bool) (initForks false ++ [(true, .dispatch 1)])).any
      (fun m => m.cpu true = some 1) = true := by decide +kernel
  obtain ⟨m, run, own⟩ := (Option.any_eq_true _ _).mp evaluated
  simp only [decide_eq_true_eq] at own
  have results := one_cpu _ m run
  exact ⟨m, run, own, (results.1 1).mp (results.2.1 true 1 own).1⟩

end Machine

end Xv6.Ptable
