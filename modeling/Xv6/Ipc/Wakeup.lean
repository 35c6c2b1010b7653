import Xv6.Ipc.Pipe

set_option autoImplicit false

/-!
# Sleepers on a pipe

A reader sleeps while the buffer is empty and could still be filled, a writer while it is full and
could still be emptied. A writer that fills an empty buffer and then finds out that it has been
killed returns without waking the readers.
-/

namespace Xv6.Ipc

variable {P : Type}

/-- Every sleeper has something to wait for. -/
structure Rested (s : State P) : Prop where
  readers : ∀ p, s.chan p = some .nread → s.pipe.Empty ∧ s.pipe.writeopen = true
  writers : ∀ p, s.chan p = some .nwrite → s.pipe.Full ∧ s.pipe.readopen = true

def Pc.rest : Pc → List UInt8
  | .writing rest _ => rest
  | _ => []

-- A writer with more than a bufferful left, in front of an empty buffer, goes on.
def GoesOn (s : State P) : Action P → Prop
  | .run p => PIPESIZE < (s.pc p).rest.length → s.pipe.Empty → s.killed p = false ∧ s.pipe.readopen = true
  | _ => True

instance (s : State P) : (a : Action P) → Decidable (GoesOn s a)
  | .run p => inferInstanceAs (Decidable (PIPESIZE < (s.pc p).rest.length → s.pipe.Empty → _ ∧ _))
  | .piperead .. => isTrue trivial
  | .pipewrite .. => isTrue trivial
  | .pipeclose _ => isTrue trivial
  | .kill _ => isTrue trivial

theorem wakeup_other (c : Option Chan) (chan : P → Option Chan) (p : P) (ch : Chan)
    (asleep : wakeup c chan p = some ch) : chan p = some ch ∧ c ≠ some ch := by
  unfold wakeup at asleep
  split at asleep
  next => cases asleep
  next other =>
    refine ⟨asleep, ?_⟩
    rintro rfl
    exact other asleep

section Copying

theorem copyIn_flags (rest : List UInt8) (q : Pipe) :
    (copyIn rest q).2.readopen = q.readopen ∧ (copyIn rest q).2.writeopen = q.writeopen := by
  induction rest generalizing q with
  | nil => exact ⟨rfl, rfl⟩
  | cons b rest ih =>
    rw [copyIn]
    split
    next => exact ⟨rfl, rfl⟩
    next => exact ih (q.put b)

theorem copyIn_full (rest : List UInt8) (q : Pipe) (full : q.Full) : copyIn rest q = (rest, q) := by
  cases rest with
  | nil => rfl
  | cons b rest => rw [copyIn, if_pos full]

theorem copyIn_fits (rest : List UInt8) (q : Pipe) (bound : q.ring.count ≤ PIPESIZE)
    (fits : q.ring.count + rest.length ≤ PIPESIZE) : (copyIn rest q).1 = [] := by
  induction rest generalizing q with
  | nil => rfl
  | cons b rest ih =>
    simp only [List.length_cons] at fits
    have room : ¬ q.Full := by
      rw [q.full_iff]
      omega
    have pushed := q.ring.push_contents pipesize_divides (by decide) b (by omega)
    have count : (q.put b).ring.count = q.ring.count + 1 := pushed.1
    rw [copyIn, if_neg room]
    exact ih (q.put b) (by omega) (by omega)

end Copying

theorem Rested.close {s : State P} (rested : Rested s) (writable : Bool) (freed : Bool) :
    Rested { s with
      pipe := close s.pipe writable
      chan := wakeup (some (if writable then .nread else .nwrite)) s.chan
      freed := freed } := by
  constructor
  · intro q asleep
    obtain ⟨before, other⟩ := wakeup_other _ s.chan q .nread asleep
    obtain ⟨empty, open_⟩ := rested.readers q before
    cases writable
    · exact ⟨empty, open_⟩
    · exact absurd rfl other
  · intro q asleep
    obtain ⟨before, other⟩ := wakeup_other _ s.chan q .nwrite asleep
    obtain ⟨full, open_⟩ := rested.writers q before
    cases writable
    · exact absurd rfl other
    · exact ⟨full, open_⟩

variable [DecidableEq P]

theorem after_chan (s : State P) (p q : P) (t : Turn) (pc : Pc) (ch ch' : Chan)
    (asleep : (s.after p t pc ch).chan q = some ch') :
    (t.result = none ∧ ch = ch') ∨ (s.chan q = some ch' ∧ t.woken ≠ some ch') := by
  unfold State.after at asleep
  by_cases same : q = p
  · subst same
    simp only [Function.update_self] at asleep
    split at asleep
    next sleeps => exact Or.inl ⟨sleeps, Option.some.inj asleep⟩
    next => cases asleep
  · simp only [Function.update_of_ne same] at asleep
    exact Or.inr (wakeup_other t.woken s.chan q ch' asleep)

theorem Rested.read {s : State P} (rested : Rested s) (p : P) (n : Int) :
    Rested (s.after p (piperead s.pipe n (s.killed p)) (.reading n) .nread) := by
  unfold piperead
  split
  next waits =>
    split
    next =>
      constructor
      · intro q asleep
        obtain ⟨sleeps, -⟩ | ⟨before, -⟩ := after_chan s p q _ _ _ _ asleep
        · cases sleeps
        · exact rested.readers q before
      · intro q asleep
        obtain ⟨sleeps, -⟩ | ⟨before, -⟩ := after_chan s p q _ _ _ _ asleep
        · cases sleeps
        · exact rested.writers q before
    next =>
      constructor
      · exact fun _ _ => waits
      · intro q asleep
        obtain ⟨-, other⟩ | ⟨before, -⟩ := after_chan s p q _ _ _ _ asleep
        · cases other
        · exact rested.writers q before
  next goes =>
    constructor
    · intro q asleep
      obtain ⟨sleeps, -⟩ | ⟨before, -⟩ := after_chan s p q _ _ _ _ asleep
      · cases sleeps
      · exact absurd (rested.readers q before) goes
    · intro q asleep
      obtain ⟨sleeps, -⟩ | ⟨-, other⟩ := after_chan s p q _ _ _ _ asleep
      · cases sleeps
      · exact absurd rfl other

theorem Rested.write {s : State P} (rested : Rested s) (bound : s.pipe.ring.count ≤ PIPESIZE) (p : P)
    (rest : List UInt8) (n : Int)
    (goesOn : PIPESIZE < rest.length → s.pipe.Empty → s.killed p = false ∧ s.pipe.readopen = true) :
    Rested (s.after p (pipewrite s.pipe rest n (s.killed p))
      (.writing (pipewrite s.pipe rest n (s.killed p)).bytes n) .nwrite) := by
  obtain ⟨-, -, stops, -⟩ := copyIn_spec rest s.pipe bound
  obtain ⟨readopen, -⟩ := copyIn_flags rest s.pipe
  -- The writers that sleep have found the buffer full, and then nothing has been stored.
  have writers : ∀ q, s.chan q = some .nwrite →
      (copyIn rest s.pipe).2.Full ∧ (copyIn rest s.pipe).2.readopen = true := by
    intro q before
    rw [copyIn_full rest s.pipe (rested.writers q before).1]
    exact rested.writers q before
  simp only [pipewrite]
  split
  next =>
    constructor
    · intro q asleep
      obtain ⟨sleeps, -⟩ | ⟨-, other⟩ := after_chan s p q _ _ _ _ asleep
      · cases sleeps
      · exact absurd rfl other
    · intro q asleep
      obtain ⟨sleeps, -⟩ | ⟨before, -⟩ := after_chan s p q _ _ _ _ asleep
      · cases sleeps
      · exact writers q before
  next left =>
    split
    next gives_up =>
      constructor
      · intro q asleep
        obtain ⟨sleeps, -⟩ | ⟨before, -⟩ := after_chan s p q _ _ _ _ asleep
        · cases sleeps
        · -- The buffer was empty, so that it took a bufferful to get here.
          have empty := (rested.readers q before).1
          have count := (s.pipe.empty_iff).mp empty
          have long : PIPESIZE < rest.length := by
            by_contra short
            exact left (copyIn_fits rest s.pipe bound (by omega))
          obtain ⟨alive, open_⟩ := goesOn long empty
          simp [alive, open_] at gives_up
      · intro q asleep
        obtain ⟨sleeps, -⟩ | ⟨before, -⟩ := after_chan s p q _ _ _ _ asleep
        · cases sleeps
        · exact writers q before
    next goes =>
      constructor
      · intro q asleep
        obtain ⟨-, other⟩ | ⟨-, other⟩ := after_chan s p q _ _ _ _ asleep
        · cases other
        · exact absurd rfl other
      · intro q _
        have open_ : s.pipe.readopen = true := by simpa using fun closed => goes (Or.inl closed)
        exact ⟨stops left, readopen.trans open_⟩

theorem Rested.kill {s : State P} (rested : Rested s) (p : P) (killed : P → Bool) :
    Rested { s with killed := killed, chan := Function.update s.chan p none } := by
  have before : ∀ q ch, Function.update s.chan p none q = some ch → s.chan q = some ch := by
    intro q ch asleep
    by_cases same : q = p
    · simp [same] at asleep
    · simpa [same] using asleep
  exact ⟨fun q asleep => rested.readers q (before q _ asleep),
    fun q asleep => rested.writers q (before q _ asleep)⟩

theorem Rested.step {s s' : State P} {a : Action P} (rested : Rested s) (fifo : Fifo s) (goesOn : GoesOn s a)
    (moved : step s a = some s') : Rested s' := by
  cases a with
  | piperead p n =>
    simp only [Ipc.step] at moved
    split at moved <;> cases moved
    exact ⟨rested.readers, rested.writers⟩
  | pipewrite p addr n =>
    simp only [Ipc.step] at moved
    split at moved <;> cases moved
    exact ⟨rested.readers, rested.writers⟩
  | run p =>
    simp only [Ipc.step] at moved
    split at moved
    next => cases moved
    next =>
      cases at_ : s.pc p with
      | idle => simp [at_] at moved
      | reading n =>
        simp only [at_] at moved
        cases moved
        have after := rested.read p n
        exact ⟨after.readers, after.writers⟩
      | writing rest n =>
        simp only [at_] at moved
        cases moved
        simp only [GoesOn, at_, Pc.rest] at goesOn
        have after := rested.write fifo.bound p rest n goesOn
        exact ⟨after.readers, after.writers⟩
  | pipeclose writable =>
    simp only [Ipc.step] at moved
    split at moved <;> cases moved
    exact rested.close writable _
  | kill p =>
    cases moved
    exact rested.kill p _

/-- A killed writer returns after it has filled the buffer, and the reader sleeps on. -/
theorem reader_left_asleep :
    ∃ s : State (Fin 2),
      Run.exec step (init fun _ => 0)
          [.piperead 0 1, .run 0, .pipewrite 1 (fun _ => 7) 513, .kill 1, .run 1] = some s ∧
        s.chan 0 = some .nread ∧ ¬ s.pipe.Empty := by
  have reached : (Run.exec step (init fun _ => 0)
      [.piperead 0 1, .run 0, .pipewrite 1 (fun _ => 7) 513, .kill 1, .run (1 : Fin 2)]).any
      (fun s => decide (s.chan 0 = some .nread ∧ ¬ s.pipe.Empty)) = true := by decide +kernel
  obtain ⟨s, run, asleep⟩ := (Option.any_eq_true _ _).mp reached
  exact ⟨s, run, of_decide_eq_true asleep⟩

/-- Nobody is left asleep if every writer that fills an empty buffer goes on. -/
theorem sleepers_wait_of_goesOn (data : Nat → UInt8) (actions : List (Action P)) (s : State P)
    (run : Run.exec step (init data) actions = some s) (meets : Run.Meets step GoesOn (init data) actions) :
    (∀ p, s.chan p = some .nread → s.pipe.nread = s.pipe.nwrite ∧ s.pipe.writeopen = true) ∧
      ∀ p, s.chan p = some .nwrite →
        s.pipe.nwrite = s.pipe.nread + UInt32.ofNat PIPESIZE ∧ s.pipe.readopen = true := by
  have both := Run.exec_invariant_of_meets step GoesOn (fun s => Fifo s ∧ Rested s)
    (fun _ _ _ before goesOn moved => ⟨before.1.step moved, before.2.step before.1 goesOn moved⟩)
    (init data) s actions ⟨init_fifo data, by simp [init], by simp [init]⟩ run meets
  exact ⟨both.2.readers, both.2.writers⟩

theorem sleepers_wait_of_goesOn_full :
    ∃ s : State (Fin 2),
      Run.exec step (init fun _ => 0) [.piperead 0 1, .run 0, .pipewrite 1 (fun _ => 7) 513, .run 1] = some s ∧
        s.chan 1 = some .nwrite ∧ s.pipe.nwrite = s.pipe.nread + UInt32.ofNat PIPESIZE := by
  have reached : (Run.exec step (init fun _ => 0)
      [.piperead 0 1, .run 0, .pipewrite 1 (fun _ => 7) 513, .run (1 : Fin 2)]).any
      (fun s => decide (s.chan 1 = some .nwrite)) = true := by decide +kernel
  obtain ⟨s, run, asleep⟩ := (Option.any_eq_true _ _).mp reached
  have sleeps := of_decide_eq_true asleep
  have meets : Run.Meets step GoesOn (init fun _ => 0)
      [.piperead 0 1, .run 0, .pipewrite 1 (fun _ => 7) 513, .run (1 : Fin 2)] := by decide +kernel
  exact ⟨s, run, sleeps, ((sleepers_wait_of_goesOn _ _ s run meets).2 1 sleeps).1⟩

end Xv6.Ipc
