import Xv6.Proc.Table

set_option autoImplicit false

/-!
# Interrupts and spin locks

`pushcli` and `popcli` count in the CPU, and the thread that counts may leave its CPU inside `sched`
and come back on another one. `acquire` and `release` take several steps each, since other CPUs see
the two words of a lock. A panic ends the run.
-/

namespace Xv6.Intr

open Ptable (ProcState)

inductive Panic where
  | acquire
  | release
  | popcliInterruptible
  | popcli
  | schedPtableLock
  | schedLocks
  | schedRunning
  | schedInterruptible
deriving DecidableEq

-- How far a CPU is in `acquire` or `release`. Both are left with the phase `outside`.
inductive Phase (L : Type) where
  | outside
  | spinning (l : L)
  | taken (l : L)
  | cleared (l : L)
  | unlocked
deriving DecidableEq

-- `pushed` counts the calls of `pushcli` from outside this file that are still open.
structure Cpu (T L : Type) where
  ncli : Int
  intena : Bool
  interrupts : Bool
  proc : Option T
  phase : Phase L
  pushed : Nat

structure Spinlock (C : Type) where
  locked : Bool
  cpu : Option C

-- `intena` is the local of `sched` on the thread's stack. A context made by `allocproc` starts in
-- `forkret` and has none.
structure Thread where
  state : ProcState
  intena : Option Bool

structure Machine (C T L : Type) where
  cpu : C → Cpu T L
  lock : L → Spinlock C
  thread : T → Thread

section State

variable {C T L : Type} (m : Machine C T L)

def Machine.setCpu [DecidableEq C] (c : C) (p : Cpu T L) : Machine C T L :=
  { m with cpu := Function.update m.cpu c p }

def Machine.setLock [DecidableEq L] (l : L) (k : Spinlock C) : Machine C T L :=
  { m with lock := Function.update m.lock l k }

def Machine.setThread [DecidableEq T] (t : T) (w : Thread) : Machine C T L :=
  { m with thread := Function.update m.thread t w }

@[simp] theorem setCpu_cpu [DecidableEq C] (c : C) (p : Cpu T L) (d : C) :
    (m.setCpu c p).cpu d = if d = c then p else m.cpu d := Function.update_apply m.cpu c p d

@[simp] theorem setCpu_lock [DecidableEq C] (c : C) (p : Cpu T L) : (m.setCpu c p).lock = m.lock := rfl

@[simp] theorem setCpu_thread [DecidableEq C] (c : C) (p : Cpu T L) : (m.setCpu c p).thread = m.thread := rfl

@[simp] theorem setLock_cpu [DecidableEq L] (l : L) (k : Spinlock C) : (m.setLock l k).cpu = m.cpu := rfl

@[simp] theorem setLock_lock [DecidableEq L] (l : L) (k : Spinlock C) (j : L) :
    (m.setLock l k).lock j = if j = l then k else m.lock j := Function.update_apply m.lock l k j

@[simp] theorem setThread_cpu [DecidableEq T] (t : T) (w : Thread) : (m.setThread t w).cpu = m.cpu := rfl

@[simp] theorem setThread_thread [DecidableEq T] (t : T) (w : Thread) (u : T) :
    (m.setThread t w).thread u = if u = t then w else m.thread u := Function.update_apply m.thread t w u

end State

section Code

variable {C T L : Type} [DecidableEq C] [DecidableEq T] [DecidableEq L]

def holding (k : Spinlock C) (c : C) : Bool := k.locked && k.cpu == some c

def pushcli (p : Cpu T L) : Cpu T L :=
  { p with
    interrupts := false
    ncli := p.ncli + 1
    intena := if p.ncli = 0 then p.interrupts else p.intena }

def popcli (p : Cpu T L) : Except Panic (Cpu T L) :=
  if p.interrupts then .error .popcliInterruptible
  else if p.ncli - 1 < 0 then .error .popcli
  else .ok { p with ncli := p.ncli - 1, interrupts := p.ncli - 1 = 0 && p.intena }

-- The first part of `acquire`, up to the loop around `xchg`.
def acquire (m : Machine C T L) (c : C) (l : L) : Except Panic (Machine C T L) :=
  if holding (m.lock l) c then .error .acquire
  else .ok (m.setCpu c { pushcli (m.cpu c) with phase := .spinning l })

-- The first part of `release`, up to its `xchg`.
def release (m : Machine C T L) (c : C) (l : L) : Except Panic (Machine C T L) :=
  if holding (m.lock l) c then
    .ok ((m.setLock l { m.lock l with cpu := none }).setCpu c { m.cpu c with phase := .cleared l })
  else .error .release

-- `sched` by thread `t`, which has set its state, up to the scheduler's side of `swtch`.
def sched (ptable : L) (m : Machine C T L) (c : C) (t : T) (state : ProcState) : Except Panic (Machine C T L) :=
  if !holding (m.lock ptable) c then .error .schedPtableLock
  else if (m.cpu c).ncli ≠ 1 then .error .schedLocks
  else if state = .running then .error .schedRunning
  else if (m.cpu c).interrupts then .error .schedInterruptible
  else .ok ((m.setThread t ⟨state, some (m.cpu c).intena⟩).setCpu c { m.cpu c with proc := none })

-- The scheduler's `swtch` to `t`: the rest of `sched`, or the start of `forkret`.
def resume (m : Machine C T L) (c : C) (t : T) : Machine C T L :=
  (m.setThread t { m.thread t with state := .running }).setCpu c
    { m.cpu c with proc := some t, intena := (m.thread t).intena.getD (m.cpu c).intena }

inductive Act (C T L : Type) where
  | pushcli (c : C)
  | popcli (c : C)
  | acquire (c : C) (l : L)
  | xchg (c : C)
  | record (c : C)
  | release (c : C) (l : L)
  | unlock (c : C)
  | leave (c : C)
  | sti (c : C)
  | interrupt (c : C)
  | sched (c : C) (state : ProcState)
  | run (c : C) (t : T)
  | fork (t : T)
  | wakeup (t : T)

-- `sti` stands for the scheduler's and for the return from a handler or to user mode: they are outside
-- of every section. The scheduler switches between its `acquire` and `release` of `ptable.lock`.
def step (ptable : L) (m : Machine C T L) : Act C T L → Option (Machine C T L)
  | .pushcli c =>
    if (m.cpu c).phase = .outside then
      some (m.setCpu c { pushcli (m.cpu c) with pushed := (m.cpu c).pushed + 1 })
    else none
  | .popcli c =>
    if (m.cpu c).phase = .outside ∧ 0 < (m.cpu c).pushed then
      (popcli (m.cpu c)).toOption.map fun p => m.setCpu c { p with pushed := p.pushed - 1 }
    else none
  | .acquire c l => if (m.cpu c).phase = .outside then (acquire m c l).toOption else none
  | .xchg c =>
    match (m.cpu c).phase with
    | .spinning l =>
      if (m.lock l).locked then some m
      else some ((m.setLock l { m.lock l with locked := true }).setCpu c { m.cpu c with phase := .taken l })
    | _ => none
  | .record c =>
    match (m.cpu c).phase with
    | .taken l => some ((m.setLock l { m.lock l with cpu := some c }).setCpu c { m.cpu c with phase := .outside })
    | _ => none
  | .release c l => if (m.cpu c).phase = .outside then (release m c l).toOption else none
  | .unlock c =>
    match (m.cpu c).phase with
    | .cleared l => some ((m.setLock l { m.lock l with locked := false }).setCpu c { m.cpu c with phase := .unlocked })
    | _ => none
  | .leave c =>
    if (m.cpu c).phase = .unlocked then
      (popcli (m.cpu c)).toOption.map fun p => m.setCpu c { p with phase := .outside }
    else none
  | .sti c => if (m.cpu c).ncli = 0 then some (m.setCpu c { m.cpu c with interrupts := true }) else none
  | .interrupt c => if (m.cpu c).interrupts then some (m.setCpu c { m.cpu c with interrupts := false }) else none
  | .sched c state =>
    if state = .unused ∨ state = .embryo then none
    else
      match (m.cpu c).proc with
      | some t => (sched ptable m c t state).toOption
      | none => none
  | .run c t =>
    if (m.cpu c).proc = none ∧ holding (m.lock ptable) c ∧ (m.cpu c).ncli = 1 ∧ (m.thread t).state = .runnable then
      some (resume m c t)
    else none
  | .fork t => if (m.thread t).state = .unused then some (m.setThread t ⟨.runnable, none⟩) else none
  | .wakeup t =>
    if (m.thread t).state = .sleeping then some (m.setThread t { m.thread t with state := .runnable }) else none

-- Every CPU enters its scheduler with interrupts off.
def boot : Machine C T L where
  cpu _ := ⟨0, false, false, none, .outside, 0⟩
  lock _ := ⟨false, none⟩
  thread _ := ⟨.unused, none⟩

end Code

def Phase.opens {L : Type} : Phase L → Nat
  | .outside => 0
  | _ => 1

-- The lock is taken and its `cpu` is not written, or no longer.
def Phase.Owns {L : Type} (phase : Phase L) (l : L) : Prop := phase = .taken l ∨ phase = .cleared l

section Moves

variable {C T L : Type} [DecidableEq C] [DecidableEq T] [DecidableEq L] {ptable : L} {m m' : Machine C T L}

/-- What a step can do. -/
inductive Move (m : Machine C T L) : Machine C T L → Prop
  | stay : Move m m
  | push (c : C) (phase : Phase L) (pushed : Nat) (outside : (m.cpu c).phase = .outside)
      (free : ∀ l, ¬ phase.Owns l) (more : pushed + phase.opens = (m.cpu c).pushed + 1) :
      Move m (m.setCpu c { pushcli (m.cpu c) with phase := phase, pushed := pushed })
  | pop (c : C) (pushed : Nat) (less : pushed + 1 = (m.cpu c).pushed + (m.cpu c).phase.opens)
      (positive : 0 < (m.cpu c).ncli) :
      Move m (m.setCpu c { m.cpu c with
        ncli := (m.cpu c).ncli - 1
        interrupts := (m.cpu c).ncli - 1 = 0 && (m.cpu c).intena
        phase := .outside
        pushed := pushed })
  | flag (c : C) (on : Bool) (outside : (m.cpu c).ncli = 0 ∨ (m.cpu c).interrupts = true) :
      Move m (m.setCpu c { m.cpu c with interrupts := on })
  | take (c : C) (l : L) (phase : (m.cpu c).phase = .spinning l) (unlocked : (m.lock l).locked = false) :
      Move m ((m.setLock l { m.lock l with locked := true }).setCpu c { m.cpu c with phase := .taken l })
  | record (c : C) (l : L) (phase : (m.cpu c).phase = .taken l) :
      Move m ((m.setLock l { m.lock l with cpu := some c }).setCpu c { m.cpu c with phase := .outside })
  | clear (c : C) (l : L) (phase : (m.cpu c).phase = .outside) (mine : holding (m.lock l) c = true) :
      Move m ((m.setLock l { m.lock l with cpu := none }).setCpu c { m.cpu c with phase := .cleared l })
  | unlock (c : C) (l : L) (phase : (m.cpu c).phase = .cleared l) :
      Move m ((m.setLock l { m.lock l with locked := false }).setCpu c { m.cpu c with phase := .unlocked })
  | out (c : C) (t : T) (state : ProcState) (here : (m.cpu c).proc = some t) (one : (m.cpu c).ncli = 1)
      (stops : state ≠ .running) (used : state ≠ .unused) :
      Move m ((m.setThread t ⟨state, some (m.cpu c).intena⟩).setCpu c { m.cpu c with proc := none })
  | back (c : C) (t : T) (idle : (m.cpu c).proc = none) (one : (m.cpu c).ncli = 1)
      (runnable : (m.thread t).state = .runnable) : Move m (resume m c t)
  | ready (t : T) (w : Thread) (stopped : (m.thread t).state ≠ .running) (runnable : w.state = .runnable)
      (context : (m.thread t).state ≠ .unused → w.intena = (m.thread t).intena) : Move m (m.setThread t w)

omit [DecidableEq T] [DecidableEq L] in
theorem popcli_ok {p p' : Cpu T L} (ok : popcli p = .ok p') :
    0 < p.ncli ∧ p' = { p with ncli := p.ncli - 1, interrupts := p.ncli - 1 = 0 && p.intena } := by
  unfold popcli at ok
  split at ok
  next => cases ok
  next =>
    split at ok
    next => cases ok
    next positive =>
      cases ok
      exact ⟨by omega, rfl⟩

omit [DecidableEq L] in
theorem sched_ok {c : C} {t : T} {state : ProcState} (ok : sched ptable m c t state = .ok m') :
    (m.cpu c).ncli = 1 ∧ state ≠ .running ∧
      m' = (m.setThread t ⟨state, some (m.cpu c).intena⟩).setCpu c { m.cpu c with proc := none } := by
  unfold sched at ok
  split_ifs at ok with lock locks running interruptible
  cases ok
  exact ⟨by simpa using locks, running, rfl⟩

theorem toOption_eq_some {α : Type} {e : Except Panic α} {v : α} (ok : e.toOption = some v) : e = .ok v := by
  cases e with
  | error => cases ok
  | ok w =>
    cases ok
    rfl

theorem step_pushes {a : Act C T L} {c : C} (opens : a = .pushcli c ∨ ∃ l, a = .acquire c l)
    (moved : step ptable m a = some m') :
    ∃ phase pushed, (m.cpu c).phase = .outside ∧ (∀ l, ¬ phase.Owns l) ∧
      pushed + phase.opens = (m.cpu c).pushed + 1 ∧
      m' = m.setCpu c { pushcli (m.cpu c) with phase := phase, pushed := pushed } := by
  rcases opens with rfl | ⟨l, rfl⟩
  · obtain ⟨outside, ⟨⟩⟩ := Option.ite_none_right_eq_some.mp moved
    exact ⟨(m.cpu c).phase, _, outside, by simp [outside, Phase.Owns], by simp [outside, Phase.opens], rfl⟩
  · obtain ⟨outside, begun⟩ := Option.ite_none_right_eq_some.mp moved
    have ok := toOption_eq_some begun
    unfold acquire at ok
    split at ok
    next => cases ok
    next =>
      cases ok
      exact ⟨.spinning l, (m.cpu c).pushed, outside, by simp [Phase.Owns], rfl, rfl⟩

theorem step_move (a : Act C T L) (moved : step ptable m a = some m') : Move m m' := by
  cases a with
  | pushcli c =>
    obtain ⟨phase, pushed, outside, free, more, rfl⟩ := step_pushes (.inl rfl) moved
    exact .push c phase pushed outside free more
  | popcli c =>
    obtain ⟨⟨outside, some_⟩, popped⟩ := Option.ite_none_right_eq_some.mp moved
    obtain ⟨p, ok, rfl⟩ := Option.map_eq_some_iff.mp popped
    obtain ⟨positive, rfl⟩ := popcli_ok (toOption_eq_some ok)
    have less : (m.cpu c).pushed - 1 + 1 = (m.cpu c).pushed + (m.cpu c).phase.opens := by
      simp only [outside, Phase.opens]
      omega
    have pop := Move.pop c _ less positive
    rwa [← outside] at pop
  | acquire c l =>
    obtain ⟨phase, pushed, outside, free, more, rfl⟩ := step_pushes (.inr ⟨l, rfl⟩) moved
    exact .push c phase pushed outside free more
  | xchg c =>
    simp only [step] at moved
    split at moved
    next l phase =>
      split at moved
      next =>
        cases moved
        exact .stay
      next unlocked =>
        cases moved
        exact .take c l phase (by simpa using unlocked)
    next => cases moved
  | record c =>
    simp only [step] at moved
    split at moved
    next l phase =>
      cases moved
      exact .record c l phase
    next => cases moved
  | release c l =>
    obtain ⟨outside, begun⟩ := Option.ite_none_right_eq_some.mp moved
    have ok := toOption_eq_some begun
    unfold release at ok
    split at ok
    next mine =>
      cases ok
      exact .clear c l outside mine
    next => cases ok
  | unlock c =>
    simp only [step] at moved
    split at moved
    next l phase =>
      cases moved
      exact .unlock c l phase
    next => cases moved
  | leave c =>
    obtain ⟨unlocked, popped⟩ := Option.ite_none_right_eq_some.mp moved
    obtain ⟨p, ok, rfl⟩ := Option.map_eq_some_iff.mp popped
    obtain ⟨positive, rfl⟩ := popcli_ok (toOption_eq_some ok)
    exact .pop c (m.cpu c).pushed (by rw [unlocked, Phase.opens]; simp) positive
  | sti c =>
    obtain ⟨outside, ⟨⟩⟩ := Option.ite_none_right_eq_some.mp moved
    exact .flag c true (.inl outside)
  | interrupt c =>
    obtain ⟨on, ⟨⟩⟩ := Option.ite_none_right_eq_some.mp moved
    exact .flag c false (.inr on)
  | sched c state =>
    obtain ⟨used, moved⟩ := Option.ite_none_left_eq_some.mp moved
    split at moved
    next t here =>
      obtain ⟨one, stops, rfl⟩ := sched_ok (toOption_eq_some moved)
      exact .out c t state here one stops fun unused => used (.inl unused)
    next => cases moved
  | run c t =>
    obtain ⟨⟨idle, -, one, runnable⟩, ⟨⟩⟩ := Option.ite_none_right_eq_some.mp moved
    exact .back c t idle one runnable
  | fork t =>
    obtain ⟨unused, ⟨⟩⟩ := Option.ite_none_right_eq_some.mp moved
    exact .ready t _ (by simp [unused]) rfl fun used => absurd unused used
  | wakeup t =>
    obtain ⟨sleeping, ⟨⟩⟩ := Option.ite_none_right_eq_some.mp moved
    exact .ready t _ (by simp [sleeping]) rfl fun _ => rfl

end Moves

section Sections

variable {C T L : Type} [DecidableEq C] [Fintype L] {m m' : Machine C T L}

def held (m : Machine C T L) (c : C) : Finset L := Finset.univ.filter fun l => holding (m.lock l) c = true

/-- `ncli` counts the locks of the CPU and its open sections, and interrupts are off while it is not 0. -/
structure Sound (m : Machine C T L) : Prop where
  count : ∀ c, (m.cpu c).ncli = (held m c).card + (m.cpu c).pushed + (m.cpu c).phase.opens
  off : ∀ c, 0 < (m.cpu c).ncli → (m.cpu c).interrupts = false
  locked : ∀ l c, (m.lock l).cpu = some c → (m.lock l).locked = true
  owned : ∀ c l, (m.cpu c).phase.Owns l → (m.lock l).locked = true ∧ (m.lock l).cpu = none
  once : ∀ c d l, (m.cpu c).phase.Owns l → (m.cpu d).phase.Owns l → c = d

theorem holding_iff (k : Spinlock C) (c : C) : holding k c = true ↔ k.locked = true ∧ k.cpu = some c := by
  simp [holding]

theorem mem_held (c : C) (l : L) : l ∈ held m c ↔ holding (m.lock l) c = true := by simp [held]

theorem Sound.congr (sound : Sound m) (lock : m'.lock = m.lock)
    (cpu : ∀ c, (m'.cpu c).ncli = (m.cpu c).ncli ∧ (m'.cpu c).interrupts = (m.cpu c).interrupts ∧
      (m'.cpu c).phase = (m.cpu c).phase ∧ (m'.cpu c).pushed = (m.cpu c).pushed) : Sound m' := by
  have held_ : ∀ c, held m' c = held m c := fun c => by rw [held, held, lock]
  constructor
  · intro c
    obtain ⟨ncli, -, phase, pushed⟩ := cpu c
    rw [ncli, phase, pushed, held_]
    exact sound.count c
  · intro c
    obtain ⟨ncli, interrupts, -, -⟩ := cpu c
    rw [ncli, interrupts]
    exact sound.off c
  · rw [lock]
    exact sound.locked
  · intro c l
    rw [(cpu c).2.2.1, lock]
    exact sound.owned c l
  · intro c d l
    rw [(cpu c).2.2.1, (cpu d).2.2.1]
    exact sound.once c d l

theorem Sound.outside (sound : Sound m) (c : C) (zero : (m.cpu c).ncli ≤ 0) :
    held m c = ∅ ∧ (m.cpu c).pushed = 0 ∧ (m.cpu c).phase = .outside := by
  have count := sound.count c
  have none_ : (held m c).card = 0 := by omega
  have opens : (m.cpu c).phase.opens = 0 := by omega
  refine ⟨Finset.card_eq_zero.mp none_, by omega, ?_⟩
  cases phase : (m.cpu c).phase with
  | outside => rfl
  | _ => simp [phase, Phase.opens] at opens

theorem Sound.setCpu (sound : Sound m) (c : C) (p : Cpu T L) (owns : ∀ l, ¬ p.phase.Owns l)
    (count : p.ncli = (held m c).card + p.pushed + p.phase.opens) (off : 0 < p.ncli → p.interrupts = false) :
    Sound (m.setCpu c p) := by
  constructor
  · intro d
    rw [setCpu_cpu]
    split
    next same => rwa [same]
    next => exact sound.count d
  · intro d
    rw [setCpu_cpu]
    split
    next => exact off
    next => exact sound.off d
  · exact sound.locked
  · intro d l
    rw [setCpu_cpu]
    split
    next => exact fun mine => absurd mine (owns l)
    next => exact sound.owned d l
  · intro d e l
    rw [setCpu_cpu, setCpu_cpu]
    split
    next => exact fun mine => absurd mine (owns l)
    next =>
      split
      next => exact fun _ mine => absurd mine (owns l)
      next => exact sound.once d e l

variable [DecidableEq L]

/-- A step of one CPU on a lock that no other CPU has: it may only leave the lock to itself. -/
theorem Sound.setLock (sound : Sound m) (c : C) (p : Cpu T L) (l : L) (k : Spinlock C)
    (before : ∀ d, d ≠ c → ¬ (m.cpu d).phase.Owns l ∧ (m.lock l).cpu ≠ some d)
    (after : ∀ d, k.cpu = some d → d = c ∧ k.locked = true)
    (owns : ∀ j, p.phase.Owns j → j = l ∧ k.locked = true ∧ k.cpu = none)
    (count : p.ncli = ((if holding k c then insert l (held m c) else (held m c).erase l).card : Nat) + p.pushed +
      p.phase.opens)
    (off : 0 < p.ncli → p.interrupts = false) : Sound ((m.setLock l k).setCpu c p) := by
  constructor
  · intro d
    rw [setCpu_cpu, setLock_cpu]
    split
    next same =>
      rw [count, same]
      congr 4
      ext j
      by_cases here : j = l <;> by_cases mine : holding k c = true <;> simp [held, here, mine]
    next other =>
      rw [sound.count d]
      congr 4
      ext j
      by_cases here : j = l
      · subst here
        have out : k.cpu ≠ some d := fun is => other (after d is).1
        simp [held, holding_iff, out, (before d other).2]
      · simp [held, here]
  · intro d
    rw [setCpu_cpu, setLock_cpu]
    split
    next => exact off
    next => exact sound.off d
  · intro j d
    rw [setCpu_lock, setLock_lock]
    split
    next => exact fun is => (after d is).2
    next => exact sound.locked j d
  · intro d j
    rw [setCpu_cpu, setCpu_lock, setLock_cpu, setLock_lock]
    split
    next =>
      intro mine
      obtain ⟨here, full⟩ := owns j mine
      rwa [if_pos here]
    next other =>
      intro theirs
      rw [if_neg fun here : j = l => (before d other).1 (here ▸ theirs)]
      exact sound.owned d j theirs
  · intro d e j
    rw [setCpu_cpu, setCpu_cpu, setLock_cpu]
    split
    next mineD =>
      split
      next mineE => exact fun _ _ => mineD.trans mineE.symm
      next other =>
        intro mine theirs
        exact absurd ((owns j mine).1 ▸ theirs) (before e other).1
    next other =>
      split
      next =>
        intro theirs mine
        exact absurd ((owns j mine).1 ▸ theirs) (before d other).1
      next => exact sound.once d e j

variable [DecidableEq T]

theorem Sound.move (sound : Sound m) (move : Move m m') : Sound m' := by
  cases move with
  | stay => exact sound
  | push c phase pushed outside free more =>
    have count := sound.count c
    rw [outside, Phase.opens] at count
    refine sound.setCpu c _ free ?_ fun _ => rfl
    simp only [pushcli, count]
    omega
  | pop c pushed less positive =>
    have count := sound.count c
    refine sound.setCpu c _ (by simp [Phase.Owns]) ?_ fun again => ?_
    · change (m.cpu c).ncli - 1 = (held m c).card + pushed + (0 : Nat)
      omega
    · have more : ¬ (m.cpu c).ncli - 1 = 0 := Int.ne_of_gt again
      simp [more]
  | flag c on outside =>
    have zero : (m.cpu c).ncli ≤ 0 := by
      rcases outside with zero | on
      · exact le_of_eq zero
      · by_contra positive
        rw [sound.off c (by omega)] at on
        cases on
    refine sound.setCpu c _ ?_ (sound.count c) fun positive => ?_
    · simp [(sound.outside c zero).2.2, Phase.Owns]
    · exact absurd positive (not_lt.mpr zero)
  | take c l phase unlocked =>
    have nobody : (m.lock l).cpu = none := by
      cases owner : (m.lock l).cpu with
      | none => rfl
      | some d => simp [sound.locked l d owner] at unlocked
    refine sound.setLock c _ l _ (fun d other => ⟨fun owns => ?_, by simp [nobody]⟩) (by simp [nobody])
      (fun j owns => ?_) ?_ (sound.off c)
    · simp [(sound.owned d l owns).1] at unlocked
    · have same : l = j := by simpa [Phase.Owns] using owns
      exact ⟨same.symm, rfl, nobody⟩
    · have out : l ∉ held m c := by simp [mem_held, holding_iff, unlocked]
      simp [holding, nobody, Finset.erase_eq_of_notMem out, sound.count c, phase, Phase.opens]
  | record c l phase =>
    have owns : (m.cpu c).phase.Owns l := .inl phase
    obtain ⟨locked, nobody⟩ := sound.owned c l owns
    refine sound.setLock c _ l _ (fun d other => ⟨fun theirs => other (sound.once d c l theirs owns), by simp [nobody]⟩)
      (fun d mine => ⟨by simpa using mine.symm, locked⟩) (by simp [Phase.Owns]) ?_ (sound.off c)
    have out : l ∉ held m c := by simp [mem_held, holding_iff, nobody]
    simp [holding, locked, Finset.card_insert_of_notMem out, sound.count c, phase, Phase.opens]
    omega
  | clear c l phase mine =>
    obtain ⟨locked, owner⟩ := (holding_iff _ _).mp mine
    refine sound.setLock c _ l _ (fun d other => ⟨fun theirs => ?_, by simp [owner, Ne.symm other]⟩) (by simp)
      (fun j owns => ?_) ?_ (sound.off c)
    · simp [(sound.owned d l theirs).2] at owner
    · have same : l = j := by simpa [Phase.Owns] using owns
      exact ⟨same.symm, locked, rfl⟩
    · have there : l ∈ held m c := (mem_held c l).mpr mine
      have some_ := Finset.card_pos.mpr ⟨l, there⟩
      simp [holding, Finset.card_erase_of_mem there, sound.count c, phase, Phase.opens]
      omega
  | unlock c l phase =>
    have owns : (m.cpu c).phase.Owns l := .inr phase
    obtain ⟨-, nobody⟩ := sound.owned c l owns
    refine sound.setLock c _ l _ (fun d other => ⟨fun theirs => other (sound.once d c l theirs owns), by simp [nobody]⟩)
      (by simp [nobody]) (by simp [Phase.Owns]) ?_ (sound.off c)
    have out : l ∉ held m c := by simp [mem_held, holding_iff, nobody]
    simp [holding, Finset.erase_eq_of_notMem out, sound.count c, phase, Phase.opens]
  | out c t state =>
    refine sound.congr rfl fun d => ?_
    by_cases here : d = c <;> simp [here]
  | back c t =>
    refine sound.congr rfl fun d => ?_
    by_cases here : d = c <;> simp [resume, here]
  | ready t w => exact sound.congr rfl fun _ => ⟨rfl, rfl, rfl, rfl⟩

end Sections

section Threads

variable {C T L : Type} [DecidableEq C] [DecidableEq T] [DecidableEq L] {m m' : Machine C T L}

/-- A thread on a CPU is `RUNNING`, so no other CPU takes it. -/
structure Placed (m : Machine C T L) : Prop where
  running : ∀ c t, (m.cpu c).proc = some t → (m.thread t).state = .running
  alone : ∀ c d t, (m.cpu c).proc = some t → (m.cpu d).proc = some t → c = d

-- All moves but a switch keep the threads where they are; what they do to the flag of a CPU in a section.
def Stays (m m' : Machine C T L) : Prop :=
  ∀ c, (m'.cpu c).proc = (m.cpu c).proc ∧ (0 < (m.cpu c).ncli →
    (0 < (m'.cpu c).ncli → (m'.cpu c).intena = (m.cpu c).intena) ∧
      ((m'.cpu c).ncli = 0 → (m'.cpu c).interrupts = (m.cpu c).intena))

omit [DecidableEq T] [DecidableEq L] in
theorem Stays.setCpu (n : Machine C T L) (same : n.cpu = m.cpu) (c : C) (p : Cpu T L) (proc : p.proc = (m.cpu c).proc)
    (flag : 0 < (m.cpu c).ncli → (0 < p.ncli → p.intena = (m.cpu c).intena) ∧
      (p.ncli = 0 → p.interrupts = (m.cpu c).intena)) : Stays m (n.setCpu c p) := by
  intro d
  by_cases here : d = c
  · subst here
    simpa using ⟨proc, flag⟩
  · rw [setCpu_cpu, if_neg here, same]
    exact ⟨rfl, fun positive => ⟨fun _ => rfl, fun zero => absurd zero (Int.ne_of_gt positive)⟩⟩

theorem Move.cases (move : Move m m') :
    (Stays m m' ∧ m'.thread = m.thread) ∨
    (∃ c t state, (m.cpu c).proc = some t ∧ (m.cpu c).ncli = 1 ∧ state ≠ .running ∧ state ≠ .unused ∧
      m' = (m.setThread t ⟨state, some (m.cpu c).intena⟩).setCpu c { m.cpu c with proc := none }) ∨
    (∃ c t, (m.cpu c).proc = none ∧ (m.cpu c).ncli = 1 ∧ (m.thread t).state = .runnable ∧ m' = resume m c t) ∨
    ∃ t w, (m.thread t).state ≠ .running ∧ w.state = .runnable ∧
      ((m.thread t).state ≠ .unused → w.intena = (m.thread t).intena) ∧ m' = m.setThread t w := by
  have local_ (c : C) (n : Machine C T L) (same : n.cpu = m.cpu) (phase : Phase L) :
      Stays m (n.setCpu c { m.cpu c with phase := phase }) :=
    Stays.setCpu n same c _ rfl fun positive => ⟨fun _ => rfl, fun zero => absurd zero (Int.ne_of_gt positive)⟩
  cases move with
  | stay => exact .inl ⟨fun c => ⟨rfl, fun positive => ⟨fun _ => rfl, fun zero => absurd zero (Int.ne_of_gt positive)⟩⟩, rfl⟩
  | push c phase pushed =>
    refine .inl ⟨Stays.setCpu m rfl c _ rfl fun positive => ⟨fun _ => ?_, fun zero => ?_⟩, rfl⟩
    · exact if_neg (Int.ne_of_gt positive)
    · simp only [pushcli] at zero
      omega
  | pop c pushed =>
    refine .inl ⟨Stays.setCpu m rfl c _ rfl fun _ => ⟨fun _ => rfl, fun zero => ?_⟩, rfl⟩
    dsimp only at zero ⊢
    simp [zero]
  | flag c on =>
    refine .inl ⟨Stays.setCpu m rfl c _ rfl fun positive => ⟨fun _ => rfl, fun zero => ?_⟩, rfl⟩
    exact absurd zero (Int.ne_of_gt positive)
  | take c => exact .inl ⟨local_ c _ rfl _, rfl⟩
  | record c => exact .inl ⟨local_ c _ rfl _, rfl⟩
  | clear c => exact .inl ⟨local_ c _ rfl _, rfl⟩
  | unlock c => exact .inl ⟨local_ c _ rfl _, rfl⟩
  | out c t state here one stops used => exact .inr (.inl ⟨c, t, state, here, one, stops, used, rfl⟩)
  | back c t idle one runnable => exact .inr (.inr (.inl ⟨c, t, idle, one, runnable, rfl⟩))
  | ready t w stopped runnable context => exact .inr (.inr (.inr ⟨t, w, stopped, runnable, context, rfl⟩))

theorem Placed.move (placed : Placed m) (move : Move m m') : Placed m' := by
  rcases move.cases with ⟨stays, same⟩ | ⟨c, t, state, here, -, -, -, rfl⟩ | ⟨c, t, idle, -, runnable, rfl⟩ |
    ⟨t, w, stopped, -, -, rfl⟩
  · refine ⟨fun d u on => ?_, fun d e u on on' => ?_⟩
    · rw [(stays d).1] at on
      rw [same]
      exact placed.running d u on
    · rw [(stays d).1] at on
      rw [(stays e).1] at on'
      exact placed.alone d e u on on'
  · have cpu : ∀ d u, (if d = c then { m.cpu c with proc := none } else m.cpu d).proc = some u →
        (m.cpu d).proc = some u ∧ u ≠ t := by
      intro d u on
      split at on
      next => cases on
      next other => exact ⟨on, fun is => other (placed.alone d c t (is ▸ on) here)⟩
    refine ⟨fun d u on => ?_, fun d e u on on' => ?_⟩
    · rw [setCpu_cpu, setThread_cpu] at on
      obtain ⟨was, other⟩ := cpu d u on
      rw [setCpu_thread, setThread_thread, if_neg other]
      exact placed.running d u was
    · rw [setCpu_cpu, setThread_cpu] at on on'
      exact placed.alone d e u (cpu d u on).1 (cpu e u on').1
  · have nowhere : ∀ d, (m.cpu d).proc ≠ some t := by
      intro d on
      simp [placed.running d t on] at runnable
    have cpu : ∀ d u, ((resume m c t).cpu d).proc = some u → d = c ∧ u = t ∨ u ≠ t ∧ (m.cpu d).proc = some u := by
      intro d u on
      rw [resume, setCpu_cpu, setThread_cpu] at on
      split at on
      next same => exact .inl ⟨same, (Option.some.inj on).symm⟩
      next => exact .inr ⟨fun is => nowhere d (is ▸ on), on⟩
    refine ⟨fun d u on => ?_, fun d e u on on' => ?_⟩
    · rw [resume, setCpu_thread, setThread_thread]
      rcases cpu d u on with ⟨-, rfl⟩ | ⟨other, was⟩
      · rw [if_pos rfl]
      · rw [if_neg other]
        exact placed.running d u was
    · rcases cpu d u on with ⟨rfl, rfl⟩ | ⟨other, was⟩ <;> rcases cpu e u on' with ⟨rfl, is⟩ | ⟨other', was'⟩
      · rfl
      · exact absurd rfl other'
      · exact absurd is other
      · exact placed.alone d e u was was'
  · refine ⟨fun d u on => ?_, placed.alone⟩
    have other : u ≠ t := fun is => stopped (is ▸ placed.running d u on)
    rw [setThread_thread, if_neg other]
    exact placed.running d u on

-- Whenever the thread is on a CPU, the CPU is in a section.
def InSection (t : T) (m : Machine C T L) : Prop := ∀ c, (m.cpu c).proc = some t → 0 < (m.cpu c).ncli

/-- The flag that the thread's section began with is in `cpu->intena` while the thread has a CPU, and in
its own `intena` while it has none. -/
structure Kept (t : T) (on : Bool) (m : Machine C T L) : Prop where
  used : (m.thread t).state ≠ .unused
  inside : ∀ c, (m.cpu c).proc = some t → 0 < (m.cpu c).ncli → (m.cpu c).intena = on
  after : ∀ c, (m.cpu c).proc = some t → (m.cpu c).ncli = 0 → (m.cpu c).interrupts = on
  saved : (∀ c, (m.cpu c).proc ≠ some t) → (m.thread t).intena = some on

omit [DecidableEq C] [DecidableEq T] [DecidableEq L] in
theorem Kept.congr {t : T} {on : Bool} (kept : Kept t on m)
    (cpu : ∀ d, (m.cpu d).proc = some t ∨ (m'.cpu d).proc = some t → m'.cpu d = m.cpu d)
    (used : (m'.thread t).state ≠ .unused) (saved : (m'.thread t).intena = (m.thread t).intena) : Kept t on m' := by
  refine ⟨used, fun d is => ?_, fun d is => ?_, fun out => ?_⟩
  · have same := cpu d (.inr is)
    rw [same] at is ⊢
    exact kept.inside d is
  · have same := cpu d (.inr is)
    rw [same] at is ⊢
    exact kept.after d is
  · rw [saved]
    exact kept.saved fun d is => out d (by rw [cpu d (.inl is)]; exact is)

theorem Kept.move {t : T} {on : Bool} (kept : Kept t on m) (placed : Placed m) (section_ : InSection t m)
    (move : Move m m') : Kept t on m' := by
  rcases move.cases with ⟨stays, same⟩ | ⟨c, u, state, here, one, -, used, rfl⟩ | ⟨c, u, idle, one, runnable, rfl⟩ |
    ⟨u, w, -, runnable, context, rfl⟩
  · refine ⟨by rw [same]; exact kept.used, fun d is positive => ?_, fun d is zero => ?_, fun out => ?_⟩
    · rw [(stays d).1] at is
      have before := section_ d is
      rw [((stays d).2 before).1 positive, kept.inside d is before]
    · rw [(stays d).1] at is
      have before := section_ d is
      rw [((stays d).2 before).2 zero, kept.inside d is before]
    · rw [same]
      exact kept.saved fun d is => out d (by rw [(stays d).1]; exact is)
  · by_cases me : t = u
    · subst me
      have gone : ∀ d, (if d = c then { m.cpu c with proc := none } else m.cpu d).proc ≠ some t := by
        intro d is
        split at is
        next => cases is
        next other => exact other (placed.alone d c t is here)
      refine ⟨by simpa using used, fun d is => ?_, fun d is => ?_, fun _ => ?_⟩
      · exact absurd (by simpa using is) (gone d)
      · exact absurd (by simpa using is) (gone d)
      · simp [kept.inside c here (by omega)]
    · refine kept.congr (fun d is => ?_) (by simpa [me] using kept.used) (by simp [me])
      have other : d ≠ c := by
        rintro rfl
        have mine : (m.cpu d).proc ≠ some t := by simpa [here] using Ne.symm me
        simp [mine] at is
      simp [other]
  · by_cases me : t = u
    · subst me
      have nowhere : ∀ d, (m.cpu d).proc ≠ some t := by
        intro d is
        simp [placed.running d t is] at runnable
      have saved := kept.saved nowhere
      have only : ∀ d, ((resume m c t).cpu d).proc = some t → d = c := by
        intro d is
        by_contra other
        exact nowhere d (by simpa [resume, other] using is)
      refine ⟨by simp [resume], fun d is _ => ?_, fun d is zero => ?_, fun out => ?_⟩
      · rw [only d is]
        simp [resume, saved]
      · rw [only d is] at zero
        simp [resume, one] at zero
      · exact absurd (by simp [resume]) (out c)
    · refine kept.congr (fun d is => ?_) (by simpa [resume, me] using kept.used) (by simp [resume, me])
      have other : d ≠ c := by
        rintro rfl
        simp [resume, idle, Ne.symm me] at is
      simp [resume, other]
  · by_cases me : t = u
    · subst me
      exact kept.congr (fun _ _ => rfl) (by simp [runnable]) (by simpa using context kept.used)
    · exact kept.congr (fun _ _ => rfl) (by simpa [me] using kept.used) (by simp [me])

end Threads

section Runs

variable {C T L : Type} [DecidableEq C] [DecidableEq T] [DecidableEq L] [Fintype L]

omit [DecidableEq T] [DecidableEq L] in
theorem boot_sound : Sound (boot : Machine C T L) := by
  constructor <;> simp [boot, held, holding, Phase.opens, Phase.Owns]

theorem reachable (ptable : L) (acts : List (Act C T L)) (m : Machine C T L)
    (ran : Run.exec (step ptable) boot acts = some m) : Sound m ∧ Placed m := by
  refine Run.exec_invariant (step ptable) (fun m => Sound m ∧ Placed m) ?_ boot m acts ⟨boot_sound, ?_⟩ ran
  · rintro s a s' ⟨sound, placed⟩ moved
    exact ⟨sound.move (step_move a moved), placed.move (step_move a moved)⟩
  · constructor <;> simp [boot]

omit [Fintype L] in
theorem section_kept (ptable : L) {m m₁ m₂ : Machine C T L} (placed : Placed m) (c : C) (t : T)
    (a : Act C T L) (opens : a = .pushcli c ∨ ∃ l, a = .acquire c l) (here : (m.cpu c).proc = some t)
    (zero : (m.cpu c).ncli = 0) (first : step ptable m a = some m₁) (acts : List (Act C T L))
    (ran : Run.exec (step ptable) m₁ acts = some m₂)
    (section_ : Run.Meets (step ptable) (fun s _ => InSection t s) m₁ acts) : Kept t (m.cpu c).interrupts m₂ := by
  have start : Kept t (m.cpu c).interrupts m₁ := by
    obtain ⟨phase, pushed, -, -, -, rfl⟩ := step_pushes opens first
    have only : ∀ d, ((m.setCpu c { pushcli (m.cpu c) with phase := phase, pushed := pushed }).cpu d).proc = some t →
        d = c := by
      intro d is
      by_contra other
      rw [setCpu_cpu, if_neg other] at is
      exact other (placed.alone d c t is here)
    refine ⟨by simp [placed.running c t here], fun d is _ => ?_, fun d is none_ => ?_, fun out => ?_⟩
    · rw [only d is]
      simp [pushcli, zero]
    · rw [only d is] at none_
      simp [pushcli, zero] at none_
    · exact absurd (by simpa [pushcli] using here) (out c)
  refine (Run.exec_invariant_of_meets (step ptable) (fun s _ => InSection t s)
    (fun s => Placed s ∧ Kept t (m.cpu c).interrupts s) ?_ m₁ m₂ acts ⟨?_, start⟩ ran section_).2
  · rintro s b s' ⟨placed, kept⟩ inside moved
    exact ⟨placed.move (step_move b moved), kept.move placed inside (step_move b moved)⟩
  · exact placed.move (step_move a first)

/-- In every run: interrupts are off while the CPU has a lock; `ncli` is never negative, and 0 exactly outside of
every section; and a thread that opens a section finds its interrupt flag again when the section closes, on
whichever CPU that is. -/
theorem interrupts_preserved (ptable : L) (acts : List (Act C T L)) (m : Machine C T L)
    (ran : Run.exec (step ptable) boot acts = some m) :
    (∀ c l, holding (m.lock l) c = true → (m.cpu c).interrupts = false) ∧
    (∀ c, 0 ≤ (m.cpu c).ncli ∧ ((m.cpu c).ncli = 0 ↔
      (∀ l, holding (m.lock l) c = false) ∧ (m.cpu c).pushed = 0 ∧ (m.cpu c).phase = .outside)) ∧
    (∀ c, 0 < (m.cpu c).pushed ∨ (m.cpu c).phase = .unlocked → ∃ p, popcli (m.cpu c) = .ok p) ∧
    ∀ c t a m₁ acts' m₂ d, (m.cpu c).proc = some t → (m.cpu c).ncli = 0 →
      (a = .pushcli c ∨ ∃ l, a = .acquire c l) → step ptable m a = some m₁ →
      Run.exec (step ptable) m₁ acts' = some m₂ → Run.Meets (step ptable) (fun s _ => InSection t s) m₁ acts' →
      (m₂.cpu d).proc = some t → (m₂.cpu d).ncli = 0 → (m₂.cpu d).interrupts = (m.cpu c).interrupts := by
  obtain ⟨sound, placed⟩ := reachable ptable acts m ran
  have positive : ∀ c l, holding (m.lock l) c = true → 0 < (m.cpu c).ncli := by
    intro c l mine
    have some_ := Finset.card_pos.mpr ⟨l, (mem_held c l).mpr mine⟩
    have count := sound.count c
    omega
  refine ⟨fun c l mine => sound.off c (positive c l mine), fun c => ⟨?_, ?_, ?_⟩, fun c inside => ?_, ?_⟩
  · have count := sound.count c
    omega
  · intro zero
    obtain ⟨empty, pushed, phase⟩ := sound.outside c (le_of_eq zero)
    refine ⟨fun l => ?_, pushed, phase⟩
    by_contra mine
    have member := (mem_held (m := m) c l).mpr (by simpa using mine)
    simp [empty] at member
  · rintro ⟨none_, pushed, phase⟩
    have empty : held m c = ∅ := Finset.filter_eq_empty_iff.mpr fun l _ => by simp [none_ l]
    rw [sound.count c, empty, pushed, phase]
    rfl
  · have count := sound.count c
    have more : 0 < (m.cpu c).ncli := by
      rcases inside with pushed | phase
      · omega
      · simp only [phase, Phase.opens] at count
        omega
    have unsigned : ¬ (m.cpu c).ncli - 1 < 0 := by omega
    rw [popcli, sound.off c more, if_neg Bool.false_ne_true, if_neg unsigned]
    exact ⟨_, rfl⟩
  · intro c t a m₁ acts' m₂ d here zero opens first ran' section_ there closed
    exact (section_kept ptable placed c t a opens here zero first acts' ran' section_).after d there closed

end Runs

-- CPU 0 starts a process, which goes to sleep in a section that it opened with interrupts on.
def started : List (Act (Fin 2) (Fin 1) (Fin 1)) :=
  [.fork 0, .sti 0, .acquire 0 0, .xchg 0, .record 0, .run 0 0, .release 0 0, .unlock 0, .leave 0]

-- CPU 1, which never had interrupts on, runs it next.
def migrates : List (Act (Fin 2) (Fin 1) (Fin 1)) :=
  [.xchg 0, .record 0, .sched 0 .sleeping, .release 0 0, .unlock 0, .leave 0, .wakeup 0,
    .acquire 1 0, .xchg 1, .record 1, .run 1 0, .release 1 0, .unlock 1, .leave 1]

instance (t : Fin 1) (m : Machine (Fin 2) (Fin 1) (Fin 1)) : Decidable (InSection t m) :=
  inferInstanceAs (Decidable (∀ c, (m.cpu c).proc = some t → 0 < (m.cpu c).ncli))

theorem interrupts_preserved_migrates : ∃ m m₁ m₂, Run.exec (step 0) boot started = some m ∧
    step 0 m (.acquire 0 0) = some m₁ ∧ Run.exec (step 0) m₁ migrates = some m₂ ∧
    (m.cpu 0).interrupts = true ∧ (m₂.cpu 1).interrupts = (m.cpu 0).interrupts := by
  refine ⟨(Run.exec (step 0) boot started).get (by decide), _, _, (Option.some_get _).symm, rfl, rfl, by decide, ?_⟩
  exact (interrupts_preserved 0 started _ (Option.some_get _).symm).2.2.2 0 0 _ _ migrates _ 1 (by decide) (by decide)
    (.inr ⟨0, rfl⟩) rfl rfl (by decide) (by decide) (by decide)

section Exclusion

variable {C T L : Type} [DecidableEq C] [DecidableEq T] [DecidableEq L] [Fintype L]

-- Between the `xchg` that takes the lock and the one that frees it.
def Inside (m : Machine C T L) (c : C) (l : L) : Prop := (m.cpu c).phase.Owns l ∨ (m.lock l).cpu = some c

/-- Mutual exclusion in every run: at most one CPU is inside of a lock, from the `xchg` of its `acquire` to the
`xchg` of its `release`, and all that time the lock word is set. -/
theorem spinlock_exclusive (ptable : L) (acts : List (Act C T L)) (m : Machine C T L)
    (ran : Run.exec (step ptable) boot acts = some m) :
    (∀ l c d, Inside m c l → Inside m d l → c = d) ∧ ∀ l c, Inside m c l → (m.lock l).locked = true := by
  obtain ⟨sound, -⟩ := reachable ptable acts m ran
  constructor
  · rintro l c d (owns | mine) (owns' | mine')
    · exact sound.once c d l owns owns'
    -- A CPU that owns the lock without its name in it finds nobody's name there.
    · simp [(sound.owned c l owns).2] at mine'
    · simp [(sound.owned d l owns').2] at mine
    · exact Option.some.inj (mine.symm.trans mine')
  · rintro l c (owns | mine)
    · exact (sound.owned c l owns).1
    · exact sound.locked l c mine

end Exclusion

theorem spinlock_exclusive_migrates : ∃ m, Run.exec (step 0) boot (started ++ [.acquire 0 0, .xchg 0]) = some m ∧
    Inside m 0 0 ∧ ∀ d, Inside m d 0 → 0 = d := by
  refine ⟨(Run.exec (step 0) boot (started ++ [.acquire 0 0, .xchg 0])).get (by decide), (Option.some_get _).symm,
    .inl (.inl (by decide)), fun d other => ?_⟩
  exact (spinlock_exclusive 0 _ _ (Option.some_get _).symm).1 0 0 d (.inl (.inl (by decide))) other

end Xv6.Intr
