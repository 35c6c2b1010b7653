import Xv6.Io.Coherent

set_option autoImplicit false

/-!
# Running out of buffers

A buffer is in use while a process holds it, and from the `log_write` of its block to the `bwrite` that
puts the block in its place on the disk. `bget` finds a buffer for a block that is not cached exactly
as long as not all buffers are in use. Nothing in the kernel keeps the processes below that bound:
there are more of them than buffers, and each one that reads a file holds a buffer while it waits.
-/

namespace Xv6.Bio

open Io

section Watch

variable {P : Type}

-- The buffers with blocks that have been logged and not yet been installed.
def pins (pinned : Finset BufId) : Action P → Finset BufId
  | .logWrite _ b => insert b pinned
  | .bwrite _ b => pinned.erase b
  | _ => pinned

variable [DecidableEq P]

/-- The machine, together with the buffers that are pinned. -/
def watch (disksize : Nat) (s : State P × Finset BufId) (a : Action P) : Option (State P × Finset BufId) :=
  (step disksize s.1 a).map fun t => (t, pins s.2 a)

open Classical in
noncomputable def inUse (s : State P × Finset BufId) : Finset BufId :=
  Finset.univ.filter fun b => (∃ p, s.1.holds p b = true) ∨ b ∈ s.2

/-- There is a buffer for the block that the process asks for. -/
def Room (s : State P × Finset BufId) (a : Action P) : Prop :=
  ∀ p dev blockno, a = .run p → s.1.pc p = .getting dev blockno →
    (∃ b, (s.1.buf b).dev = dev ∧ (s.1.buf b).blockno = blockno) ∨ (inUse s).card < NBUF

variable {disk : Disk} {disksize : Nat} {s s' : State P} {a : Action P}

theorem iderw_error {m : Memory} {b : BufId} {e : Panic} (stops : Memide.iderw disksize m b = .error e) :
    e ≠ .bgetNoBuffers := by
  rintro rfl
  simp only [Memide.iderw] at stops
  split_ifs at stops <;> cases stops

theorem transfer_dirty (m : Memory) (b c : BufId) : ((m.transfer b).buf c).dirty = ((m.buf c).dirty && decide (c ≠ b)) := by
  by_cases same : c = b
  · subst same
    cases dirty : (m.buf c).dirty <;> simp [Memory.transfer, dirty]
  · rw [m.transfer_buf_of_ne b c same]
    simp [same]

theorem breadRest_dirty {m m' : Memory} {b : BufId} (clean : (m.buf b).valid = false → (m.buf b).dirty = false)
    (ok : breadRest disksize m b = .ok m') (c : BufId) : (m'.buf c).dirty = (m.buf c).dirty := by
  unfold breadRest at ok
  split at ok
  next invalid =>
    obtain ⟨-, rfl⟩ := iderw_ok ok
    rw [transfer_dirty]
    by_cases same : c = b
    · subst same
      simp [clean invalid]
    · simp [same]
  next =>
    cases ok
    rfl

theorem bwrite_dirty {m m' : Memory} {b : BufId} (ok : bwrite disksize m b = .ok m') (c : BufId) :
    (m'.buf c).dirty = ((m.buf c).dirty && decide (c ≠ b)) := by
  unfold Bio.bwrite at ok
  split at ok
  next => cases ok
  next =>
    obtain ⟨-, rfl⟩ := iderw_ok ok
    rw [transfer_dirty]
    by_cases same : c = b <;> simp [Memory.setBuf, same]

theorem Sound.get_outcome {p : P} {dev blockno : Nat} (sound : Sound disk s) (runs : s.panic = none)
    (got : Bio.get s p dev blockno = some s') :
    (∀ b, (s'.buf b).dirty = (s.buf b).dirty) ∧ (s'.panic = some .bgetNoBuffers ↔
      (∀ b, (s.buf b).dev = dev → (s.buf b).blockno ≠ blockno) ∧ ∀ b, (s.buf b).busy = true ∨ (s.buf b).dirty = true) := by
  obtain ⟨⟨l, ordered⟩, -⟩ := sound
  unfold Bio.get at got
  obtain ⟨b, key, key', found⟩ | ⟨missing, ⟨b, free, clean, found⟩ | ⟨full, found⟩⟩ :=
    bget_cases ordered.circle ordered.all dev blockno
  · have cached : ¬ ((∀ b, (s.buf b).dev = dev → (s.buf b).blockno ≠ blockno) ∧
        ∀ b, (s.buf b).busy = true ∨ (s.buf b).dirty = true) := fun none => none.1 b key key'
    split at found
    next =>
      rw [found] at got
      cases got
      refine ⟨fun c => ?_, by simp [State.hold, runs, cached]⟩
      by_cases other : c = b <;> simp [State.buf, Bcache.setBuf, other]
    next =>
      rw [found] at got
      cases got
      exact ⟨fun _ => rfl, by simp [runs, cached]⟩
  · have spare : ¬ ((∀ b, (s.buf b).dev = dev → (s.buf b).blockno ≠ blockno) ∧
        ∀ b, (s.buf b).busy = true ∨ (s.buf b).dirty = true) := by
      rintro ⟨-, full⟩
      rcases full b with busy | dirty
      · exact absurd (free.symm.trans busy) Bool.false_ne_true
      · exact absurd (clean.symm.trans dirty) Bool.false_ne_true
    rw [found] at got
    cases got
    refine ⟨fun c => ?_, by simp [State.hold, runs, spare]⟩
    by_cases other : c = b
    · subst other
      simpa [State.buf, Bcache.setBuf] using clean.symm
    · simp [State.buf, Bcache.setBuf, other]
  · rw [found] at got
    cases got
    exact ⟨fun _ => rfl, by simp only [true_iff]; exact ⟨missing, full⟩⟩

/-- What the other steps do. Only `bget` runs out of buffers. -/
theorem Sound.step_outcome (sound : Sound disk s) (moved : Bio.step disksize s a = some s') :
    (∃ p dev blockno, a = .run p ∧ s.pc p = .getting dev blockno ∧ Bio.get s p dev blockno = some s') ∨
      ((∀ p dev blockno, a = .run p → s.pc p ≠ .getting dev blockno) ∧ s'.panic ≠ some .bgetNoBuffers ∧
        (s'.panic = none → ∀ (pinned : Finset BufId) (b : BufId), ((s.buf b).dirty = true ↔ b ∈ pinned) →
          ((s'.buf b).dirty = true ↔ b ∈ pins pinned a))) := by
  unfold Bio.step at moved
  split at moved
  next => cases moved
  next runs =>
    have runs : s.panic = none := not_not.mp runs
    cases a with
    | bread p dev blockno =>
      simp only at moved
      split at moved <;> cases moved
      next => exact .inr ⟨by simp, by simp [runs], fun _ _ _ same => same⟩
    | run p =>
      simp only at moved
      split at moved
      next => cases moved
      next =>
        cases at_ : s.pc p with
        | idle => simp [at_] at moved
        | getting dev blockno =>
          simp only [at_] at moved
          exact .inl ⟨p, dev, blockno, rfl, at_, moved⟩
        | reading dev blockno b =>
          simp only [at_] at moved
          refine .inr ⟨?_, ?_⟩
          · rintro q dev' blockno' ⟨⟩
            rw [at_]
            simp
          split at moved <;> cases moved
          next e stops =>
            unfold breadRest at stops
            split at stops
            next => exact ⟨fun same => iderw_error stops (Option.some.inj same), by simp⟩
            next => cases stops
          next m ok =>
            refine ⟨by simp [State.setMemory, runs], fun _ pinned c same => ?_⟩
            have clean (invalid : (s.buf b).valid = false) : (s.buf b).dirty = false := by
              by_contra dirty
              have valid := sound.2.dirty b (by simpa using dirty)
              rw [invalid] at valid
              cases valid
            exact (Bool.eq_iff_iff.mp (breadRest_dirty clean ok c)).trans same
    | awaken p =>
      cases moved
      exact .inr ⟨by simp, by simp [runs], fun _ _ _ same => same⟩
    | modify p b data =>
      simp only at moved
      split at moved <;> cases moved
      next owns =>
        refine .inr ⟨by simp, by simp [runs], fun _ pinned c same => ?_⟩
        refine Iff.trans ?_ same
        by_cases other : c = b <;> simp [State.buf, Bcache.setBuf, other]
    | logWrite p b =>
      simp only at moved
      split at moved <;> cases moved
      next owns =>
        refine .inr ⟨by simp, by simp [State.write, runs], fun _ pinned c same => ?_⟩
        rw [pins, Finset.mem_insert, ← same]
        by_cases other : c = b <;> simp [State.buf, Bcache.setBuf, other]
    | bwrite p b =>
      simp only at moved
      split at moved
      next owns =>
        refine .inr ⟨by simp, ?_⟩
        split at moved <;> cases moved
        next e stops =>
          unfold Bio.bwrite at stops
          split at stops
          next =>
            cases stops
            exact ⟨by simp, by simp⟩
          next => exact ⟨fun same => iderw_error stops (Option.some.inj same), by simp⟩
        next m ok =>
          refine ⟨by simp [State.setMemory, State.write, runs], fun _ pinned c same => ?_⟩
          have dirty := bwrite_dirty ok c
          rw [pins, Finset.mem_erase, ← same]
          simp only [State.setMemory, State.buf, State.memory] at dirty ⊢
          simp [dirty, and_comm]
      next => cases moved
    | brelse p b =>
      simp only at moved
      split at moved
      next owns =>
        refine .inr ⟨by simp, ?_⟩
        split at moved <;> cases moved
        next e stops =>
          unfold Bio.brelse at stops
          split at stops <;> cases stops
          exact ⟨by simp, by simp⟩
        next c ok =>
          refine ⟨by simp [State.hold, runs], fun _ pinned d same => ?_⟩
          rw [brelse_ok ok]
          refine Iff.trans ?_ same
          by_cases other : d = b <;> simp [State.buf, other]
      next => cases moved

/-- Along a run the dirty buffers are the pinned ones. -/
def Watched (disk : Disk) (s : State P × Finset BufId) : Prop :=
  Sound disk s.1 ∧ (s.1.panic = none → ∀ b, (s.1.buf b).dirty = true ↔ b ∈ s.2)

theorem watch_step {w w' : State P × Finset BufId} (moved : watch disksize w a = some w') :
    step disksize w.1 a = some w'.1 ∧ w'.2 = pins w.2 a := by
  obtain ⟨t, stepped, rfl⟩ := Option.map_eq_some_iff.mp moved
  exact ⟨stepped, rfl⟩

theorem step_runs (moved : step disksize s a = some s') : s.panic = none := by
  unfold step at moved
  split at moved
  next => cases moved
  next runs => exact not_not.mp runs

omit [DecidableEq P] in
theorem inUse_full (sound : Sound disk s) (pinned : Finset BufId) (dirty : ∀ b, (s.buf b).dirty = true ↔ b ∈ pinned) :
    (inUse (s, pinned)).card < NBUF ↔ ¬ ∀ b, (s.buf b).busy = true ∨ (s.buf b).dirty = true := by
  have same (b : BufId) : b ∈ inUse (s, pinned) ↔ (s.buf b).busy = true ∨ (s.buf b).dirty = true := by
    classical
    simp only [inUse, Finset.mem_filter, Finset.mem_univ, true_and, ← dirty]
    have holders : (∃ p, s.holds p b = true) ↔ (s.buf b).busy = true :=
      ⟨fun ⟨p, holds⟩ => sound.2.busy p b holds, sound.2.holder b⟩
    rw [holders]
  have all : (∀ b, (s.buf b).busy = true ∨ (s.buf b).dirty = true) ↔ inUse (s, pinned) = Finset.univ := by
    simp only [← same, Finset.eq_univ_iff_forall]
  rw [all, ← Finset.card_eq_iff_eq_univ, Fintype.card_fin]
  have most := (inUse (s, pinned)).card_le_univ
  rw [Fintype.card_fin] at most
  omega

theorem Watched.step {w w' : State P × Finset BufId} (watched : Watched disk w) (moved : watch disksize w a = some w') :
    Watched disk w' ∧ (w'.1.panic ≠ some .bgetNoBuffers ↔ Room w a) := by
  obtain ⟨sound, dirty⟩ := watched
  obtain ⟨moved, pinned⟩ := watch_step moved
  have runs := step_runs moved
  have sound' := (sound.step moved).1
  rcases sound.step_outcome moved with ⟨p, dev, blockno, rfl, at_, got⟩ | ⟨other, quiet, after⟩
  · obtain ⟨same, panic⟩ := sound.get_outcome runs got
    refine ⟨⟨sound', fun _ b => ?_⟩, ?_⟩
    · rw [pinned, same]
      exact dirty runs b
    · have room : Room w (.run p) ↔ (∃ b, (w.1.buf b).dev = dev ∧ (w.1.buf b).blockno = blockno) ∨ (inUse w).card < NBUF := by
        constructor
        · exact fun room => room p dev blockno rfl at_
        · rintro room q dev' blockno' ⟨⟩ at_'
          cases at_.symm.trans at_'
          exact room
      rw [room, inUse_full sound w.2 (dirty runs), ne_eq, panic, not_and_or]
      refine or_congr ?_ Iff.rfl
      push Not
      rfl
  · refine ⟨⟨sound', fun runs' b => ?_⟩, ?_⟩
    · rw [pinned]
      exact after runs' w.2 b (dirty runs b)
    · exact ⟨fun _ p dev blockno same at_ => absurd at_ (other p dev blockno same), fun _ => quiet⟩

theorem Watched.run {w w' : State P × Finset BufId} (watched : Watched disk w) (runs : w.1.panic ≠ some .bgetNoBuffers)
    (actions : List (Action P)) (ran : Run.exec (watch disksize) w actions = some w') :
    w'.1.panic ≠ some .bgetNoBuffers ↔ Run.Meets (watch disksize) Room w actions := by
  induction actions generalizing w with
  | nil =>
    cases ran
    exact ⟨fun _ => trivial, fun _ => runs⟩
  | cons a actions ih =>
    rw [Run.exec_cons] at ran
    obtain ⟨w₁, moved, ran⟩ := Option.bind_eq_some_iff.mp ran
    obtain ⟨watched₁, room⟩ := watched.step moved
    rw [Run.Meets, moved]
    by_cases found : w₁.1.panic = some .bgetNoBuffers
    · -- nothing happens after a panic
      cases actions with
      | nil =>
        cases ran
        rw [← room]
        exact ⟨fun other => absurd found other, fun both => both.1⟩
      | cons b actions =>
        rw [Run.exec_cons] at ran
        obtain ⟨w₂, moved₂, -⟩ := Option.bind_eq_some_iff.mp ran
        rw [step_runs (watch_step moved₂).1] at found
        cases found
    · rw [ih watched₁ found ran]
      exact ⟨fun rest => ⟨room.mp found, rest⟩, fun both => both.2⟩

/-- A run comes to the panic of `bget` exactly if a process asks for a block without a buffer when all buffers
are in use. -/
theorem bget_finds_buffer_iff (disksize : Nat) (links : Links Node) (disk : Disk) (actions : List (Action P))
    (w : State P × Finset BufId) (ran : Run.exec (watch disksize) (init links disk, ∅) actions = some w) :
    w.1.panic ≠ some .bgetNoBuffers ↔ Run.Meets (watch disksize) Room (init links disk, ∅) actions := by
  refine Watched.run ⟨⟨⟨_, binit_ordered links⟩, init_coherent links disk⟩, fun _ b => ?_⟩ (by simp [init]) actions ran
  simp [State.buf, init, binit_buf]

end Watch

-- Processes that read a block each, and none of them has its block yet.
def readers (n : Nat) : List (Action (Fin NPROC)) :=
  (List.range n).flatMap fun i => [.bread (Fin.ofNat NPROC i) 1 (100 + i), .run (Fin.ofNat NPROC i)]

private def linear : Links Node := ⟨id, id⟩

theorem readers_exhaust : (Run.exec (watch 1000) (init linear (fun _ _ => 0), ∅) (readers (NBUF + 1))).map
    (fun w => w.1.panic) = some (some .bgetNoBuffers) := by
  decide +kernel

/-- One reader more than there are buffers. -/
theorem bget_runs_out : NBUF + 1 ≤ NPROC ∧ ∃ w : State (Fin NPROC) × Finset BufId,
    Run.exec (watch 1000) (init linear (fun _ _ => 0), ∅) (readers (NBUF + 1)) = some w ∧
      w.1.panic = some .bgetNoBuffers := by
  obtain ⟨w, ran, panic⟩ := Option.map_eq_some_iff.mp readers_exhaust
  exact ⟨by decide, w, ran, panic⟩

theorem bget_finds_buffer_iff_readers : ∃ w : State (Fin NPROC) × Finset BufId,
    Run.exec (watch 1000) (init linear (fun _ _ => 0), ∅) (readers (NBUF + 1)) = some w ∧
      (w.1.panic ≠ some .bgetNoBuffers ↔
        Run.Meets (watch 1000) Room (init linear (fun _ _ => 0), ∅) (readers (NBUF + 1))) := by
  obtain ⟨w, ran, -⟩ := Option.map_eq_some_iff.mp readers_exhaust
  exact ⟨w, ran, bget_finds_buffer_iff 1000 linear (fun _ _ => 0) (readers (NBUF + 1)) w ran⟩

end Xv6.Bio
