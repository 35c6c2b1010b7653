import Xv6.Lib.Run
import Xv6.Fs.Inode

set_option autoImplicit false
set_option linter.unusedSectionVars false

/-!
# The inode cache under concurrency

`iget`, `idup`, `ilock`, `iunlock`, `iput`, `ialloc` and `iupdate` by any number of processes. A
section under `icache.lock`, or with the buffer of the inode block in hand, is one step. A reference
has a name; the callers put a reference only while nobody works with it, change the fields of an inode
only with the lock held, and never store its type.
-/

namespace Xv6.Fs.Icache

/-- Where a process is. The last six are in the part of `iput` that frees the inode. -/
inductive Pc (R : Type) where
  | idle
  -- The loop of `ialloc`, and its call of `iget`.
  | scanning (dev : Nat) (type : Int16) (inum : Nat)
  | getting (dev inum : Nat)
  -- `ilock` before it has set `I_BUSY`, before it has read the inode, and after.
  | locking (r : R)
  | loading (r : R)
  | validating (r : R)
  | truncating (r : R)
  | truncated (r : R)
  | clearing (r : R)
  | freeing (r : R)
  | finishing (r : R)
deriving DecidableEq

namespace Pc

variable {R : Type}

/-- The reference that the call works with. -/
def token : Pc R → Option R
  | .locking r => some r
  | .loading r => some r
  | .validating r => some r
  | .truncating r => some r
  | .truncated r => some r
  | .clearing r => some r
  | .freeing r => some r
  | .finishing r => some r
  | _ => none

/-- The reference whose inode the call has locked. -/
def locked : Pc R → Option R
  | .locking _ => none
  | pc => pc.token

/-- The reference that the call is giving up. -/
def putting : Pc R → Option R
  | .truncating r => some r
  | .truncated r => some r
  | .clearing r => some r
  | .freeing r => some r
  | .finishing r => some r
  | _ => none

/-- The call has stored a type of 0. -/
def Cleared (r : R) (pc : Pc R) : Prop := pc = .freeing r ∨ pc = .finishing r

theorem token_of_locked {pc : Pc R} {r : R} (locked : pc.locked = some r) : pc.token = some r := by
  cases pc <;> first | exact locked | cases locked

theorem token_of_putting {pc : Pc R} {r : R} (putting : pc.putting = some r) : pc.token = some r := by
  cases pc <;> first | exact putting | cases putting

end Pc

structure Machine (P R : Type) where
  icache : Slot → Inode
  -- The inodes as the buffers of their blocks have them.
  disk : Nat → Nat → Dinode
  ninodes : Nat
  pc : P → Pc R
  live : Finset R
  slot : R → Slot
  -- The references through which a process has set `I_BUSY` and not cleared it.
  locks : P → Finset R
  -- The fields have changed since the last `iupdate`.
  dirty : Slot → Bool

inductive Action (R : Type) where
  | iget (dev inum : Nat) (new : R)
  | idup (r new : R)
  | ialloc (dev : Nat) (type : Int16)
  | ilock (r : R)
  | iunlock (r : R)
  | iput (r : R)
  | iupdate (r : R)
  | modify (r : R) (d : Dinode)
  -- The call in progress goes on; `new` names the reference that the `iget` of `ialloc` returns.
  | next (new : R)

namespace Machine

variable {P R : Type}

def inode (m : Machine P R) (r : R) : Inode := m.icache (m.slot r)

def setInode (m : Machine P R) (e : Slot) (i : Inode) : Machine P R := { m with icache := Function.update m.icache e i }

def goto [DecidableEq P] (m : Machine P R) (p : P) (pc : Pc R) : Machine P R := { m with pc := Function.update m.pc p pc }

def name [DecidableEq R] (m : Machine P R) (new : R) (e : Slot) : Machine P R :=
  { m with live := insert new m.live, slot := Function.update m.slot new e }

def writeDinode (m : Machine P R) (dev inum : Nat) (d : Dinode) : Machine P R :=
  { m with disk := Function.update m.disk dev (Function.update (m.disk dev) inum d) }

section

variable [DecidableEq P] [DecidableEq R]

def iget (m : Machine P R) (dev inum : Nat) (new : R) : Option (Machine P R) :=
  if new ∈ m.live then none
  else
    match (List.finRange NINODE).find? fun e =>
        0 < (m.icache e).ref ∧ (m.icache e).dev = dev ∧ (m.icache e).inum = inum with
    | some e => some ((m.setInode e { m.icache e with ref := (m.icache e).ref + 1 }).name new e)
    | none =>
      match (List.finRange NINODE).find? fun e => (m.icache e).ref = 0 with
      | none => none
      | some e =>
        some ({ m.setInode e { m.icache e with dev := dev, inum := inum, ref := 1, busy := false, valid := false } with
          dirty := Function.update m.dirty e false }.name new e)

-- A reference that nobody is giving up.
def Usable (m : Machine P R) (r : R) : Prop := r ∈ m.live ∧ ∀ q, (m.pc q).putting ≠ some r

instance [Fintype P] (m : Machine P R) (r : R) : Decidable (m.Usable r) := inferInstanceAs (Decidable (_ ∧ _))

def idup [Fintype P] (m : Machine P R) (r new : R) : Option (Machine P R) :=
  if m.Usable r ∧ new ∉ m.live then
    some ((m.setInode (m.slot r) { m.inode r with ref := (m.inode r).ref + 1 }).name new (m.slot r))
  else none

def iunlock (m : Machine P R) (p : P) (r : R) : Option (Machine P R) :=
  if r ∈ m.locks p ∧ m.dirty (m.slot r) = false then
    if (m.inode r).busy = false ∨ (m.inode r).ref < 1 then none
    else some { m.setInode (m.slot r) { m.inode r with busy := false } with
      locks := Function.update m.locks p ((m.locks p).erase r) }
  else none

def Unused (m : Machine P R) (r : R) : Prop := r ∈ m.live ∧ ∀ q, r ∉ m.locks q ∧ (m.pc q).token ≠ some r

instance [Fintype P] (m : Machine P R) (r : R) : Decidable (m.Unused r) := inferInstanceAs (Decidable (_ ∧ _))

def drop (m : Machine P R) (r : R) : Machine P R :=
  { m.setInode (m.slot r) { m.inode r with ref := (m.inode r).ref - 1 } with live := m.live.erase r }

def iput [Fintype P] (m : Machine P R) (p : P) (r : R) : Option (Machine P R) :=
  if m.Unused r then
    if (m.inode r).ref = 1 ∧ (m.inode r).valid ∧ (m.inode r).nlink = 0 then
      if (m.inode r).busy then none
      else some ({ m.setInode (m.slot r) { m.inode r with busy := true } with
        locks := Function.update m.locks p (insert r (m.locks p)) }.goto p (.truncating r))
    else some (m.drop r)
  else none

def iupdate (m : Machine P R) (r : R) : Machine P R :=
  { m.writeDinode (m.inode r).dev (m.inode r).inum (m.inode r).toDinode with
    dirty := Function.update m.dirty (m.slot r) false }

def modify (m : Machine P R) (r : R) (d : Dinode) : Machine P R :=
  { m.setInode (m.slot r) { m.inode r with toDinode := d } with dirty := Function.update m.dirty (m.slot r) true }

-- The next step of a call in progress.
def advance (m : Machine P R) (p : P) (new : R) : Option (Machine P R) :=
  match m.pc p with
  | .idle => none
  | .scanning dev type inum =>
    if inum < m.ninodes then
      if (m.disk dev inum).type = 0 then
        some ((m.writeDinode dev inum { Dinode.zero with type := type }).goto p (.getting dev inum))
      else some (m.goto p (.scanning dev type (inum + 1)))
    else none
  | .getting dev inum => (m.iget dev inum new).map fun m => m.goto p .idle
  | .locking r =>
    if (m.inode r).busy then some m
    else some ({ m.setInode (m.slot r) { m.inode r with busy := true } with
      locks := Function.update m.locks p (insert r (m.locks p)) }.goto p (.loading r))
  | .loading r =>
    if (m.inode r).valid then some (m.goto p .idle)
    else some ((m.setInode (m.slot r) { m.inode r with toDinode := m.disk (m.inode r).dev (m.inode r).inum }).goto p
      (.validating r))
  | .validating r =>
    if (m.inode r).type = 0 then none
    else some ((m.setInode (m.slot r) { m.inode r with valid := true }).goto p .idle)
  | .truncating r => some ((m.modify r { (m.inode r).toDinode with size := 0, addrs := fun _ => 0 }).goto p (.truncated r))
  | .truncated r => some ((m.iupdate r).goto p (.clearing r))
  | .clearing r => some ((m.modify r { (m.inode r).toDinode with type := 0 }).goto p (.freeing r))
  | .freeing r => some ((m.iupdate r).goto p (.finishing r))
  | .finishing r =>
    some ({ (m.setInode (m.slot r) { m.inode r with busy := false, valid := false }).drop r with
      locks := Function.update m.locks p ((m.locks p).erase r)
      dirty := Function.update m.dirty (m.slot r) false }.goto p .idle)

-- A call that an idle process begins; some are over in one step.
def call [Fintype P] (m : Machine P R) (p : P) : Action R → Option (Machine P R)
  | .iget dev inum new => m.iget dev inum new
  | .idup r new => m.idup r new
  | .ialloc dev type => some (m.goto p (.scanning dev type 1))
  | .ilock r => if m.Usable r ∧ 1 ≤ (m.inode r).ref then some (m.goto p (.locking r)) else none
  | .iunlock r => m.iunlock p r
  | .iput r => m.iput p r
  | .iupdate r => if r ∈ m.locks p then some (m.iupdate r) else none
  | .modify r d => if r ∈ m.locks p ∧ d.type = (m.inode r).type then some (m.modify r d) else none
  | .next _ => none

def step [Fintype P] (m : Machine P R) : P × Action R → Option (Machine P R)
  | (p, .next new) => m.advance p new
  | (p, action) => if m.pc p = .idle then m.call p action else none

end

structure Sound (m : Machine P R) : Prop where
  ref : ∀ e, (m.icache e).ref = ((m.live.filter fun r => m.slot r = e).card : Int)
  unique : ∀ e e', 0 < (m.icache e).ref → 0 < (m.icache e').ref → (m.icache e).dev = (m.icache e').dev →
    (m.icache e).inum = (m.icache e').inum → e = e'
  locked : ∀ p r, r ∈ m.locks p → r ∈ m.live ∧ (m.icache (m.slot r)).busy = true
  single : ∀ p q r s, r ∈ m.locks p → s ∈ m.locks q → m.slot r = m.slot s → p = q ∧ r = s
  working : ∀ p r, (m.pc p).locked = some r → r ∈ m.locks p
  waiting : ∀ p r, (m.pc p).token = some r → r ∈ m.live
  putting : ∀ p q r, (m.pc p).putting = some r → (m.pc q).token = some r → q = p
  clean : ∀ e, m.dirty e = true → (m.icache e).busy = true
  loaded : ∀ p r, m.pc p = .validating r → (m.icache (m.slot r)).type = 0 ∨
    (m.icache (m.slot r)).toDinode = m.disk (m.icache (m.slot r)).dev (m.icache (m.slot r)).inum
  typed : ∀ e, 0 < (m.icache e).ref → (m.icache e).valid = true → (m.icache e).type ≠ 0 →
    (m.disk (m.icache e).dev (m.icache e).inum).type = (m.icache e).type
  synced : ∀ e, 0 < (m.icache e).ref → (m.icache e).valid = true → m.dirty e = false → (m.icache e).type ≠ 0 →
    (m.icache e).toDinode = m.disk (m.icache e).dev (m.icache e).inum
  freed : ∀ e, 0 < (m.icache e).ref → (m.icache e).valid = true → (m.icache e).type = 0 →
    (m.icache e).busy = true ∧ ∃ p r, (m.pc p).Cleared r ∧ m.slot r = e

namespace Sound

variable {m : Machine P R}

theorem goto [DecidableEq P] (sound : m.Sound) (p : P) (c : Pc R) (locks : ∀ r, c.locked = some r → r ∈ m.locks p)
    (lives : ∀ r, c.token = some r → r ∈ m.live)
    (loads : ∀ r, c = .validating r → (m.icache (m.slot r)).type = 0 ∨
      (m.icache (m.slot r)).toDinode = m.disk (m.icache (m.slot r)).dev (m.icache (m.slot r)).inum)
    (puts : ∀ q r, q ≠ p → c.putting = some r → (m.pc q).token ≠ some r)
    (joins : ∀ q r, q ≠ p → c.token = some r → (m.pc q).putting ≠ some r)
    (leaves : ∀ r, (m.pc p).Cleared r → c.Cleared r ∨ (m.icache (m.slot r)).valid = false) : (m.goto p c).Sound where
  ref := sound.ref
  unique := sound.unique
  locked := sound.locked
  single := sound.single
  working := by
    intro q r
    simp only [Machine.goto, Function.update_apply]
    split
    next same => exact same ▸ locks r
    next => exact sound.working q r
  waiting := by
    intro q r
    simp only [Machine.goto, Function.update_apply]
    split
    next => exact lives r
    next => exact sound.waiting q r
  putting := by
    intro q₁ q₂ r
    simp only [Machine.goto, Function.update_apply]
    split
    next same =>
      split
      next same' => exact fun _ _ => same'.trans same.symm
      next other => exact fun put at_ => absurd at_ (puts q₂ r other put)
    next other =>
      split
      next => exact fun put at_ => absurd put (joins q₁ r other at_)
      next => exact sound.putting q₁ q₂ r
  clean := sound.clean
  loaded := by
    intro q r
    simp only [Machine.goto, Function.update_apply]
    split
    next => exact loads r
    next => exact sound.loaded q r
  typed := sound.typed
  synced := sound.synced
  freed := by
    intro e used valid cleared
    obtain ⟨busy, q, r, at_, same⟩ := sound.freed e used valid cleared
    refine ⟨busy, q, r, ?_, same⟩
    simp only [Machine.goto, Function.update_apply]
    split
    next equal =>
      rw [equal] at at_
      rcases leaves r at_ with still | gone
      · exact still
      · have there : (m.icache e).valid = true := valid
        rw [same, there] at gone
        cases gone
    next => exact at_

theorem goWithout [DecidableEq P] (sound : m.Sound) (p : P) (c : Pc R) (token : c.token = none)
    (leaves : ∀ s, ¬ (m.pc p).Cleared s) : (m.goto p c).Sound := by
  have without (r : R) : c.token ≠ some r := by simp [token]
  apply sound.goto
  · exact fun r locked => absurd (Pc.token_of_locked locked) (without r)
  · exact fun r at_ => absurd at_ (without r)
  · rintro r rfl
    exact absurd rfl (without r)
  · exact fun _ r _ putting => absurd (Pc.token_of_putting putting) (without r)
  · exact fun _ r _ at_ => absurd at_ (without r)
  · exact fun r cleared => absurd cleared (leaves r)

-- Of two holders of one lock both are the same, so an entry is read in by the holder of its lock only.
theorem loading_elsewhere (sound : m.Sound) {p : P} {r : R} (held : r ∈ m.locks p)
    (calm : ∀ s, m.pc p ≠ .validating s) (q : P) (s : R) (at_ : m.pc q = .validating s) : m.slot s ≠ m.slot r := by
  intro same
  have held' : s ∈ m.locks q := sound.working q s (by rw [at_]; rfl)
  rw [(sound.single q p s r held' held same).1] at at_
  exact calm s at_

theorem ref_set (sound : m.Sound) (e : Slot) (i : Inode) (same : i.ref = (m.icache e).ref) (e' : Slot) :
    (Function.update m.icache e i e').ref = ((m.live.filter fun r => m.slot r = e').card : Int) := by
  rw [← sound.ref e', Function.update_apply]
  split
  next equal => rw [same, equal]
  next => rfl

theorem ref_pos (sound : m.Sound) {r : R} (live : r ∈ m.live) : 0 < (m.inode r).ref := by
  rw [inode, sound.ref]
  have member : r ∈ m.live.filter fun s => m.slot s = m.slot r := Finset.mem_filter.mpr ⟨live, rfl⟩
  exact_mod_cast Finset.card_pos.mpr ⟨r, member⟩

-- `ialloc` takes an inode of type 0, which no valid copy in use is of.
theorem allocate (sound : m.Sound) (dev inum : Nat) (d : Dinode) (unused : (m.disk dev inum).type = 0) :
    (m.writeDinode dev inum d).Sound := by
  have notLoaded : ∀ q r, m.pc q = .validating r → (m.icache (m.slot r)).type ≠ 0 →
      ¬ ((m.icache (m.slot r)).dev = dev ∧ (m.icache (m.slot r)).inum = inum) := by
    rintro q r at_ typed ⟨rfl, rfl⟩
    rcases sound.loaded q r at_ with zero | same
    · exact typed zero
    · exact typed (by rw [← same] at unused; exact unused)
  have notValid : ∀ e, 0 < (m.icache e).ref → (m.icache e).valid = true → (m.icache e).type ≠ 0 →
      ¬ ((m.icache e).dev = dev ∧ (m.icache e).inum = inum) := by
    rintro e used valid typed ⟨rfl, rfl⟩
    exact typed ((sound.typed e used valid typed).symm.trans unused)
  obtain ⟨ref, unique, locked, single, working, waiting, putting, clean, loaded, typed, synced, freed⟩ := sound
  refine ⟨ref, unique, locked, single, working, waiting, putting, clean, ?_, ?_, ?_, freed⟩ <;>
    simp only [writeDinode, Function.update_apply] at * <;> grind -linarith

variable [DecidableEq P] [DecidableEq R]

theorem lock (sound : m.Sound) (p : P) (r : R) (live : r ∈ m.live) (open_ : (m.inode r).busy = false) :
    Sound { m.setInode (m.slot r) { m.inode r with busy := true } with
      locks := Function.update m.locks p (insert r (m.locks p)) } := by
  have free : ∀ q s, s ∈ m.locks q → m.slot s ≠ m.slot r := by
    intro q s held same
    have busy := (sound.locked q s held).2
    rw [same, ← inode, open_] at busy
    cases busy
  have counts := sound.ref_set (m.slot r) { m.inode r with busy := true } rfl
  obtain ⟨-, unique, locked, single, working, waiting, putting, clean, loaded, typed, synced, freed⟩ := sound
  refine ⟨counts, ?_, ?_, ?_, ?_, waiting, putting, ?_, ?_, ?_, ?_, ?_⟩ <;>
    simp only [setInode, inode, Function.update_apply] at * <;> grind -linarith

theorem unlock (sound : m.Sound) (p : P) (r : R) (held : r ∈ m.locks p) (idle : m.pc p = .idle)
    (clean' : m.dirty (m.slot r) = false) :
    Sound { m.setInode (m.slot r) { m.inode r with busy := false } with
      locks := Function.update m.locks p ((m.locks p).erase r) } := by
  -- Nobody else works on this inode.
  have alone : ∀ q s, s ∈ m.locks q → m.slot s = m.slot r → q = p ∧ s = r := fun q s held' same =>
    sound.single q p s r held' held same
  have notCleared : ∀ q s, (m.pc q).Cleared s → m.slot s ≠ m.slot r := by
    intro q s cleared same
    have held' : s ∈ m.locks q := sound.working q s (by rcases cleared with at_ | at_ <;> rw [at_] <;> rfl)
    rw [(alone q s held' same).1, Pc.Cleared, idle] at cleared
    simp at cleared
  have notWorking : ∀ q, (m.pc q).locked ≠ some r := by
    intro q at_
    have same := (alone q r (sound.working q r at_) rfl).1
    rw [same, idle] at at_
    cases at_
  have counts := sound.ref_set (m.slot r) { m.inode r with busy := false } rfl
  obtain ⟨-, unique, locked, single, working, waiting, putting, clean, loaded, typed, synced, freed⟩ := sound
  refine ⟨counts, ?_, ?_, ?_, ?_, waiting, putting, ?_, ?_, ?_, ?_, ?_⟩ <;>
    simp only [setInode, inode, Function.update_apply] at * <;> grind -linarith

-- The fields of an inode whose lock is held, with the type kept or cleared by the end of `iput`.
theorem modify (sound : m.Sound) (p : P) (r : R) (held : r ∈ m.locks p) (d : Dinode)
    (calm : ∀ s, m.pc p ≠ .validating s) (type : d.type = (m.inode r).type) : (m.modify r d).Sound := by
  have notLoading := sound.loading_elsewhere held calm
  have busy := (sound.locked p r held).2
  have counts := sound.ref_set (m.slot r) { m.inode r with toDinode := d } rfl
  obtain ⟨-, unique, locked, single, working, waiting, putting, clean, loaded, typed, synced, freed⟩ := sound
  refine ⟨counts, ?_, ?_, single, working, waiting, putting, ?_, ?_, ?_, ?_, ?_⟩ <;>
    simp only [Machine.modify, setInode, inode, Function.update_apply] at * <;> grind -linarith

-- The copy of the inode goes to its block. No other entry in use is for the same inode.
theorem iupdate (sound : m.Sound) (p : P) (r : R) (held : r ∈ m.locks p) (calm : ∀ s, m.pc p ≠ .validating s) :
    (m.iupdate r).Sound := by
  have used := sound.ref_pos (sound.locked p r held).1
  have others : ∀ e, 0 < (m.icache e).ref → (m.icache e).dev = (m.inode r).dev →
      (m.icache e).inum = (m.inode r).inum → e = m.slot r := fun e used' => sound.unique e (m.slot r) used' used
  have notLoading : ∀ q s, m.pc q = .validating s → 0 < (m.inode s).ref ∧ m.slot s ≠ m.slot r := by
    intro q s at_
    have held' : s ∈ m.locks q := sound.working q s (by rw [at_]; rfl)
    exact ⟨sound.ref_pos (sound.locked q s held').1, sound.loading_elsewhere held calm q s at_⟩
  obtain ⟨ref, unique, locked, single, working, waiting, putting, clean, loaded, typed, synced, freed⟩ := sound
  refine ⟨ref, unique, locked, single, working, waiting, putting, ?_, ?_, ?_, ?_, freed⟩ <;>
    simp only [Machine.iupdate, writeDinode, inode, Function.update_apply] at * <;> grind -linarith

-- Between the two `iupdate`s of `iput`.
theorem clear (sound : m.Sound) (p : P) (r : R) (at_ : m.pc p = .clearing r) :
    ((m.modify r { (m.inode r).toDinode with type := 0 }).goto p (.freeing r)).Sound := by
  have held : r ∈ m.locks p := sound.working p r (by rw [at_]; rfl)
  have busy := (sound.locked p r held).2
  have counts := sound.ref_set (m.slot r) { m.inode r with type := 0 } rfl
  have notLoading := sound.loading_elsewhere held (by rw [at_]; simp)
  obtain ⟨-, unique, locked, single, working, waiting, putting, clean, loaded, typed, synced, freed⟩ := sound
  refine ⟨counts, ?_, ?_, single, ?_, ?_, ?_, ?_, ?_, ?_, ?_, ?_⟩ <;>
    simp only [Machine.goto, Machine.modify, setInode, inode, Function.update_apply] at * <;>
    grind -linarith [Pc.Cleared, Pc.locked, Pc.token, Pc.putting]

theorem load (sound : m.Sound) (p : P) (r : R) (at_ : m.pc p = .loading r) (stale : (m.inode r).valid = false) :
    ((m.setInode (m.slot r) { m.inode r with toDinode := m.disk (m.inode r).dev (m.inode r).inum }).goto p
      (.validating r)).Sound := by
  have held : r ∈ m.locks p := sound.working p r (by rw [at_]; rfl)
  have counts := sound.ref_set (m.slot r) { m.inode r with toDinode := m.disk (m.inode r).dev (m.inode r).inum } rfl
  obtain ⟨-, unique, locked, single, working, waiting, putting, clean, loaded, typed, synced, freed⟩ := sound
  refine ⟨counts, ?_, ?_, single, ?_, ?_, ?_, ?_, ?_, ?_, ?_, ?_⟩ <;>
    simp only [Machine.goto, setInode, inode, Function.update_apply] at * <;>
    grind -linarith [Pc.Cleared, Pc.locked, Pc.token, Pc.putting]

theorem validate (sound : m.Sound) (p : P) (r : R) (at_ : m.pc p = .validating r) (typed' : (m.inode r).type ≠ 0) :
    ((m.setInode (m.slot r) { m.inode r with valid := true }).goto p .idle).Sound := by
  have held : r ∈ m.locks p := sound.working p r (by rw [at_]; rfl)
  have same := (sound.loaded p r at_).resolve_left typed'
  have counts := sound.ref_set (m.slot r) { m.inode r with valid := true } rfl
  obtain ⟨-, unique, locked, single, working, waiting, putting, clean, loaded, typed, synced, freed⟩ := sound
  refine ⟨counts, ?_, ?_, single, ?_, ?_, ?_, ?_, ?_, ?_, ?_, ?_⟩ <;>
    simp only [Machine.goto, setInode, inode, Function.update_apply] at * <;>
    grind -linarith [Pc.Cleared, Pc.locked, Pc.token, Pc.putting]

theorem card_name (live : Finset R) (slot : R → Slot) (new : R) (fresh : new ∉ live) (e e' : Slot) :
    (((insert new live).filter fun r => Function.update slot new e r = e').card : Int) =
      (live.filter fun r => slot r = e').card + if e = e' then 1 else 0 := by
  have same : (live.filter fun r => Function.update slot new e r = e') = live.filter fun r => slot r = e' := by
    apply Finset.filter_congr
    intro r member
    rw [Function.update_of_ne (ne_of_mem_of_not_mem member fresh)]
  rw [Finset.filter_insert, Function.update_self, same]
  split
  next => simp [Finset.card_insert_of_notMem, fresh]
  next => simp

theorem card_erase (live : Finset R) (slot : R → Slot) {r : R} (member : r ∈ live) (e : Slot) :
    (((live.erase r).filter fun s => slot s = e).card : Int) =
      (live.filter fun s => slot s = e).card - if slot r = e then 1 else 0 := by
  rw [Finset.filter_erase]
  split
  next same =>
    have inside : r ∈ live.filter fun s => slot s = e := Finset.mem_filter.mpr ⟨member, same⟩
    have card := Finset.card_erase_add_one inside
    omega
  next other =>
    rw [Finset.erase_eq_of_notMem (by simp [other])]
    simp

theorem addRef (sound : m.Sound) (e : Slot) (new : R) (fresh : new ∉ m.live) (used : 0 < (m.icache e).ref) :
    ((m.setInode e { m.icache e with ref := (m.icache e).ref + 1 }).name new e).Sound := by
  have named : ∀ q r, r ∈ m.locks q → r ≠ new := fun q r held =>
    ne_of_mem_of_not_mem (sound.locked q r held).1 fresh
  have known : ∀ q r, (m.pc q).token = some r → r ≠ new := fun q r at_ =>
    ne_of_mem_of_not_mem (sound.waiting q r at_) fresh
  have counts : ∀ e', (Function.update m.icache e { m.icache e with ref := (m.icache e).ref + 1 } e').ref =
      (((insert new m.live).filter fun r => Function.update m.slot new e r = e').card : Int) := by
    intro e'
    rw [card_name m.live m.slot new fresh, ← sound.ref e', Function.update_apply]
    by_cases same : e' = e
    · simp [same]
    · simp [same, Ne.symm same]
  obtain ⟨-, unique, locked, single, working, waiting, putting, clean, loaded, typed, synced, freed⟩ := sound
  refine ⟨counts, ?_, ?_, ?_, working, ?_, putting, ?_, ?_, ?_, ?_, ?_⟩ <;>
    simp only [name, setInode, Function.update_apply] at * <;> grind -linarith [Pc.Cleared, Pc.token]

theorem recycle (sound : m.Sound) (e : Slot) (new : R) (fresh : new ∉ m.live) (dev inum : Nat)
    (empty : (m.icache e).ref = 0)
    (absent : ∀ e', 0 < (m.icache e').ref → ¬ ((m.icache e').dev = dev ∧ (m.icache e').inum = inum)) :
    ({ m.setInode e { m.icache e with dev := dev, inum := inum, ref := 1, busy := false, valid := false } with
      dirty := Function.update m.dirty e false }.name new e).Sound := by
  have elsewhere : ∀ r, r ∈ m.live → m.slot r ≠ e := by
    rintro r live rfl
    have used := sound.ref_pos live
    rw [inode, empty] at used
    cases used
  have named : ∀ q r, r ∈ m.locks q → r ≠ new ∧ m.slot r ≠ e := fun q r held =>
    ⟨ne_of_mem_of_not_mem (sound.locked q r held).1 fresh, elsewhere r (sound.locked q r held).1⟩
  have known : ∀ q r, (m.pc q).token = some r → r ≠ new ∧ m.slot r ≠ e := fun q r at_ =>
    ⟨ne_of_mem_of_not_mem (sound.waiting q r at_) fresh, elsewhere r (sound.waiting q r at_)⟩
  have counts : ∀ e', (Function.update m.icache e
      { m.icache e with dev := dev, inum := inum, ref := 1, busy := false, valid := false } e').ref =
      (((insert new m.live).filter fun r => Function.update m.slot new e r = e').card : Int) := by
    intro e'
    rw [card_name m.live m.slot new fresh, ← sound.ref e', Function.update_apply]
    by_cases same : e' = e
    · simp [same, empty]
    · simp [same, Ne.symm same]
  obtain ⟨-, unique, locked, single, working, waiting, putting, clean, loaded, typed, synced, freed⟩ := sound
  refine ⟨counts, ?_, ?_, ?_, working, ?_, putting, ?_, ?_, ?_, ?_, ?_⟩ <;>
    simp only [name, setInode, Function.update_apply] at * <;> grind -linarith [Pc.Cleared, Pc.token]

theorem drop (sound : m.Sound) (r : R) (unused : m.Unused r) : (m.drop r).Sound := by
  obtain ⟨live, nobody⟩ := unused
  have counts : ∀ e, (Function.update m.icache (m.slot r) { m.inode r with ref := (m.inode r).ref - 1 } e).ref =
      (((m.live.erase r).filter fun s => m.slot s = e).card : Int) := by
    intro e
    rw [card_erase m.live m.slot live, ← sound.ref e, Function.update_apply]
    by_cases same : e = m.slot r
    · simp [same, inode]
    · simp [same, Ne.symm same]
  have others : ∀ q s, s ∈ m.locks q → s ≠ r := by
    rintro q s held rfl
    exact (nobody q).1 held
  have waits : ∀ q s, (m.pc q).token = some s → s ≠ r := by
    rintro q s at_ rfl
    exact (nobody q).2 at_
  obtain ⟨-, unique, locked, single, working, waiting, putting, clean, loaded, typed, synced, freed⟩ := sound
  refine ⟨counts, ?_, ?_, single, working, ?_, putting, ?_, ?_, ?_, ?_, ?_⟩ <;>
    simp only [Machine.drop, setInode, inode, Function.update_apply] at * <;> grind -linarith

-- The end of `iput` after it freed the inode: the flags go, whatever `ialloc` has made of the inode.
theorem release (sound : m.Sound) (p : P) (r : R) (at_ : m.pc p = .finishing r) :
    Sound ({ m.setInode (m.slot r) { m.inode r with busy := false, valid := false } with
      locks := Function.update m.locks p ((m.locks p).erase r)
      dirty := Function.update m.dirty (m.slot r) false }.goto p .idle) := by
  have held : r ∈ m.locks p := sound.working p r (by rw [at_]; rfl)
  have alone : ∀ q s, s ∈ m.locks q → m.slot s = m.slot r → q = p ∧ s = r := fun q s held' same =>
    sound.single q p s r held' held same
  have counts := sound.ref_set (m.slot r) { m.inode r with busy := false, valid := false } rfl
  have notWorking : ∀ q, q ≠ p → (m.pc q).locked ≠ some r := fun q other working =>
    other (alone q r (sound.working q r working) rfl).1
  have notLoading : ∀ q s, q ≠ p → m.pc q = .validating s → m.slot s ≠ m.slot r := by
    intro q s other loading same
    exact other (alone q s (sound.working q s (by rw [loading]; rfl)) same).1
  cases sound
  refine ⟨counts, ?_, ?_, ?_, ?_, ?_, ?_, ?_, ?_, ?_, ?_, ?_⟩ <;>
    simp only [Machine.goto, setInode, inode, Function.update_apply] at * <;>
    grind -linarith [Pc.Cleared, Pc.locked, Pc.token, Pc.putting]

theorem finish (sound : m.Sound) (p : P) (r : R) (at_ : m.pc p = .finishing r) :
    ({ (m.setInode (m.slot r) { m.inode r with busy := false, valid := false }).drop r with
      locks := Function.update m.locks p ((m.locks p).erase r)
      dirty := Function.update m.dirty (m.slot r) false }.goto p .idle).Sound := by
  have held : r ∈ m.locks p := sound.working p r (by rw [at_]; rfl)
  have released := sound.release p r at_
  refine released.drop r ⟨(sound.locked p r held).1, fun q => ?_⟩
  by_cases same : q = p
  · simp [Machine.goto, same, Pc.token]
  · refine ⟨?_, ?_⟩
    · simp only [Machine.goto, Function.update_of_ne same]
      exact fun held' => same (sound.single q p r r held' held rfl).1
    · simp only [Machine.goto, Function.update_of_ne same]
      exact fun token => same (sound.putting p q r (by rw [at_]; rfl) token)

theorem goOn (sound : m.Sound) (p : P) (r : R) (c : Pc R) (before : (m.pc p).locked = some r)
    (after : c.locked = some r) (token : c.token = some r) (put : c.putting = some r → (m.pc p).putting = some r)
    (calm : ∀ s, c ≠ .validating s) (leaves : ∀ s, (m.pc p).Cleared s → c.Cleared s) : (m.goto p c).Sound := by
  have held : r ∈ m.locks p := sound.working p r before
  have onlyPut (s : R) (putting : c.putting = some s) : s = r :=
    Option.some.inj ((Pc.token_of_putting putting).symm.trans token)
  apply sound.goto
  · intro s locked
    rw [after, Option.some.injEq] at locked
    exact locked ▸ held
  · intro s at_
    rw [token, Option.some.injEq] at at_
    exact at_ ▸ (sound.locked p r held).1
  · exact fun s at_ => absurd at_ (calm s)
  · intro q s other putting
    have same := onlyPut s putting
    rw [same] at putting ⊢
    exact fun at_ => other (sound.putting p q r (put putting) at_)
  · intro q s other at_ putting
    rw [token, Option.some.injEq] at at_
    rw [← at_] at putting
    exact other (sound.putting q p r putting (Pc.token_of_locked before)).symm
  · exact fun s cleared => Or.inl (leaves s cleared)

theorem goIdle (sound : m.Sound) (p : P) (leaves : ∀ s, ¬ (m.pc p).Cleared s) : (m.goto p .idle).Sound :=
  sound.goWithout p .idle rfl leaves

theorem lockAs (sound : m.Sound) (p : P) (r : R) (c : Pc R) (live : r ∈ m.live) (open_ : (m.inode r).busy = false)
    (token : c.token = some r) (calm : ∀ s, c ≠ .validating s)
    (puts : ∀ q, q ≠ p → c.putting = some r → (m.pc q).token ≠ some r)
    (joins : ∀ q, q ≠ p → (m.pc q).putting ≠ some r) (leaves : ∀ s, ¬ (m.pc p).Cleared s) :
    ({ m.setInode (m.slot r) { m.inode r with busy := true } with
      locks := Function.update m.locks p (insert r (m.locks p)) }.goto p c).Sound := by
  have onlyLocked (s : R) (locked : c.locked = some s) : s = r :=
    Option.some.inj ((Pc.token_of_locked locked).symm.trans token)
  have onlyPut (s : R) (putting : c.putting = some s) : s = r :=
    Option.some.inj ((Pc.token_of_putting putting).symm.trans token)
  apply (sound.lock p r live open_).goto
  · intro s locked
    rw [onlyLocked s locked]
    simp
  · intro s at_
    rw [token, Option.some.injEq] at at_
    exact at_ ▸ live
  · exact fun s at_ => absurd at_ (calm s)
  · intro q s other putting
    have same := onlyPut s putting
    rw [same] at putting ⊢
    exact puts q other putting
  · intro q s other at_
    rw [token, Option.some.injEq] at at_
    exact at_ ▸ joins q other
  · exact fun s cleared => absurd cleared (leaves s)

theorem iget (sound : m.Sound) {dev inum : Nat} {new : R} {m' : Machine P R}
    (moved : m.iget dev inum new = some m') : m'.Sound ∧ m'.pc = m.pc := by
  rw [Machine.iget] at moved
  split at moved
  next => cases moved
  next fresh =>
    split at moved
    next e found =>
      cases moved
      have used := List.find?_some found
      simp only [decide_eq_true_eq] at used
      exact ⟨sound.addRef e new fresh used.1, rfl⟩
    next none_ =>
      split at moved
      next => cases moved
      next e found =>
        cases moved
        have empty := List.find?_some found
        simp only [decide_eq_true_eq] at empty
        refine ⟨sound.recycle e new fresh dev inum empty ?_, rfl⟩
        intro e' used same
        have absent := List.find?_eq_none.mp none_ e' (List.mem_finRange e')
        simp only [decide_eq_true_eq] at absent
        exact absent ⟨used, same⟩

theorem advance (sound : m.Sound) (p : P) (new : R) {m' : Machine P R} (moved : m.advance p new = some m') :
    m'.Sound := by
  rw [Machine.advance] at moved
  split at moved
  next => cases moved
  next dev type inum at_ =>
    have quiet (s : R) : ¬ (m.pc p).Cleared s := by rw [at_]; simp [Pc.Cleared]
    split at moved
    next =>
      split at moved
      next unused =>
        cases moved
        have written := sound.allocate dev inum { Dinode.zero with type := type } unused
        exact written.goWithout p _ rfl quiet
      next =>
        cases moved
        exact sound.goWithout p _ rfl quiet
    next => cases moved
  next dev inum at_ =>
    obtain ⟨got, found, rfl⟩ := Option.map_eq_some_iff.mp moved
    obtain ⟨sound', same⟩ := sound.iget found
    exact sound'.goIdle p fun s => by rw [same, at_]; simp [Pc.Cleared]
  next r at_ =>
    split at moved
    next =>
      cases moved
      exact sound
    next open_ =>
      cases moved
      refine sound.lockAs p r _ (sound.waiting p r (by rw [at_]; rfl)) (by simpa using open_) rfl (by simp)
        (by simp [Pc.putting]) (fun q other put => ?_) (fun s => by rw [at_]; simp [Pc.Cleared])
      exact other (sound.putting q p r put (by rw [at_]; rfl)).symm
  next r at_ =>
    split at moved
    next =>
      cases moved
      exact sound.goIdle p fun s => by rw [at_]; simp [Pc.Cleared]
    next stale =>
      cases moved
      exact sound.load p r at_ (by simpa using stale)
  next r at_ =>
    split at moved
    next => cases moved
    next typed =>
      cases moved
      exact sound.validate p r at_ typed
  next r at_ =>
    cases moved
    have held := sound.working p r (by rw [at_]; rfl)
    have shrunk := sound.modify p r held { (m.inode r).toDinode with size := 0, addrs := fun _ => 0 }
      (by rw [at_]; simp) rfl
    have here : (m.modify r { (m.inode r).toDinode with size := 0, addrs := fun _ => 0 }).pc p = .truncating r := at_
    exact shrunk.goOn p r _ (by rw [here]; rfl) rfl rfl (by rw [here]; exact fun _ => rfl) (by simp)
      (by rw [here]; simp [Pc.Cleared])
  next r at_ =>
    cases moved
    have held := sound.working p r (by rw [at_]; rfl)
    have written := sound.iupdate p r held (by rw [at_]; simp)
    have here : (m.iupdate r).pc p = .truncated r := at_
    exact written.goOn p r _ (by rw [here]; rfl) rfl rfl (by rw [here]; exact fun _ => rfl) (by simp)
      (by rw [here]; simp [Pc.Cleared])
  next r at_ =>
    cases moved
    exact sound.clear p r at_
  next r at_ =>
    cases moved
    have held := sound.working p r (by rw [at_]; rfl)
    have written := sound.iupdate p r held (by rw [at_]; simp)
    have here : (m.iupdate r).pc p = .freeing r := at_
    exact written.goOn p r _ (by rw [here]; rfl) rfl rfl (by rw [here]; exact fun _ => rfl) (by simp)
      (by rw [here]; simp [Pc.Cleared])
  next r at_ =>
    cases moved
    exact sound.finish p r at_

theorem iput [Fintype P] (sound : m.Sound) {p : P} (idle : m.pc p = .idle) {r : R} {m' : Machine P R}
    (moved : m.iput p r = some m') : m'.Sound := by
  rw [Machine.iput] at moved
  split at moved
  next unused =>
    split at moved
    next =>
      split at moved
      next => cases moved
      next open_ =>
        cases moved
        refine sound.lockAs p r _ unused.1 (by simpa using open_) rfl (by simp) (fun q _ _ => (unused.2 q).2)
          (fun q _ put => ?_) (fun s => by rw [idle]; simp [Pc.Cleared])
        exact (unused.2 q).2 (Pc.token_of_putting put)
    next =>
      cases moved
      exact sound.drop r unused
  next => cases moved

theorem call [Fintype P] (sound : m.Sound) {p : P} (idle : m.pc p = .idle) (action : Action R) {m' : Machine P R}
    (moved : m.call p action = some m') : m'.Sound := by
  have quiet (s : R) : ¬ (m.pc p).Cleared s := by rw [idle]; simp [Pc.Cleared]
  cases action with
  | next new => cases moved
  | iget dev inum new => exact (sound.iget moved).1
  | idup r new =>
    dsimp only [Machine.call, Machine.idup] at moved
    split at moved
    next usable =>
      cases moved
      exact sound.addRef (m.slot r) new usable.2 (sound.ref_pos usable.1.1)
    next => cases moved
  | ialloc dev type =>
    cases moved
    exact sound.goWithout p _ rfl quiet
  | ilock r =>
    dsimp only [Machine.call] at moved
    split at moved
    next usable =>
      cases moved
      refine sound.goto p _ (by simp [Pc.locked]) ?_ (by simp) (by simp [Pc.putting]) ?_
        fun s cleared => absurd cleared (quiet s)
      · intro s at_
        cases at_
        exact usable.1.1
      · intro q s _ at_
        cases at_
        exact usable.1.2 q
    next => cases moved
  | iunlock r =>
    dsimp only [Machine.call, Machine.iunlock] at moved
    split at moved
    next held =>
      split at moved
      next => cases moved
      next =>
        cases moved
        exact sound.unlock p r held.1 idle held.2
    next => cases moved
  | iput r => exact sound.iput idle moved
  | iupdate r =>
    dsimp only [Machine.call] at moved
    split at moved
    next held =>
      cases moved
      exact sound.iupdate p r held (by rw [idle]; simp)
    next => cases moved
  | modify r d =>
    dsimp only [Machine.call] at moved
    split at moved
    next held =>
      cases moved
      exact sound.modify p r held.1 d (by rw [idle]; simp) held.2
    next => cases moved

theorem step [Fintype P] (sound : m.Sound) (l : P × Action R) {m' : Machine P R} (moved : m.step l = some m') :
    m'.Sound := by
  rw [Machine.step.eq_def] at moved
  split at moved
  next p new => exact sound.advance p new moved
  next p action _ =>
    split at moved
    next idle => exact sound.call idle action moved
    next => cases moved

end Sound

/-- Process `p` has set `I_BUSY` on the entry and not cleared it. -/
def Holds (m : Machine P R) (p : P) (e : Slot) : Prop := ∃ r ∈ m.locks p, m.slot r = e

structure Coherent (m : Machine P R) : Prop where
  unique : ∀ e e', 0 < (m.icache e).ref → 0 < (m.icache e').ref → (m.icache e).dev = (m.icache e').dev →
    (m.icache e).inum = (m.icache e').inum → e = e'
  single : ∀ p q e, m.Holds p e → m.Holds q e → p = q ∧ (m.icache e).busy = true
  equal : ∀ e, 0 < (m.icache e).ref → (m.icache e).valid = true → (m.icache e).busy = false →
    (m.icache e).toDinode = m.disk (m.icache e).dev (m.icache e).inum

theorem Sound.coherent {m : Machine P R} (sound : m.Sound) : m.Coherent where
  unique := sound.unique
  single := by
    rintro p q e ⟨r, held, rfl⟩ ⟨s, held', same⟩
    exact ⟨(sound.single p q r s held held' same.symm).1, (sound.locked p r held).2⟩
  equal := by
    intro e used valid open_
    have clean : m.dirty e = false := by
      by_contra dirty
      have busy := sound.clean e (by simpa using dirty)
      rw [open_] at busy
      cases busy
    have typed : (m.icache e).type ≠ 0 := by
      intro zero
      have busy := (sound.freed e used valid zero).1
      rw [open_] at busy
      cases busy
    exact sound.synced e used valid clean typed

def boot (disk : Nat → Nat → Dinode) (ninodes : Nat) : Machine P R where
  icache := fun _ => ⟨⟨0, 0, 0, false, false⟩, Dinode.zero⟩
  disk := disk
  ninodes := ninodes
  pc := fun _ => .idle
  live := ∅
  slot := fun _ => 0
  locks := fun _ => ∅
  dirty := fun _ => false

theorem boot_sound (disk : Nat → Nat → Dinode) (ninodes : Nat) : (boot disk ninodes : Machine P R).Sound := by
  refine ⟨fun e => rfl, ?_, ?_, ?_, ?_, ?_, ?_, ?_, ?_, ?_, ?_, ?_⟩ <;> simp [boot, Pc.locked, Pc.token, Pc.putting]

/-- Of the entries in use none is there twice, a lock has one holder, and a valid copy that nobody has
locked is the inode. -/
theorem cache_coherent {P R : Type} [Fintype P] [DecidableEq P] [DecidableEq R] (disk : Nat → Nat → Dinode)
    (ninodes : Nat) (labels : List (P × Action R)) (m : Machine P R)
    (run : Run.exec step (boot disk ninodes) labels = some m) : m.Coherent :=
  (Run.exec_invariant step Sound (fun _ l _ sound moved => sound.step l moved) (boot disk ninodes) m labels
    (boot_sound disk ninodes) run).coherent

def unlinked : Nat → Nat → Dinode := fun _ inum => if inum = 1 then { Dinode.zero with type := tFile } else Dinode.zero

-- Process 0 puts the last reference to an unlinked file. When it has freed the inode on the disk, and before it
-- has cleared the flags, `ialloc` of process 1 takes the same inode.
def takeover : List (Fin 2 × Action Nat) :=
  [(0, .iget 1 1 0), (0, .ilock 0), (0, .next 0), (0, .next 0), (0, .next 0), (0, .iunlock 0), (0, .iput 0), (0, .next 0),
    (0, .next 0), (0, .next 0), (0, .next 0), (1, .ialloc 1 tDir), (1, .next 0), (1, .next 1), (0, .next 0),
    (1, .ilock 1), (1, .next 0), (1, .next 0), (1, .next 0), (1, .iunlock 1)]

theorem cache_coherent_takeover : ∃ m, Run.exec step (boot unlinked 2) takeover = some m ∧ (m.icache 0).valid = true ∧
    (m.icache 0).type = tDir ∧ (m.icache 0).ref = 1 ∧ m.Coherent := by
  have ends : ∃ m, Run.exec step (boot unlinked 2) takeover = some m ∧
      (decide ((m.icache 0).valid = true ∧ (m.icache 0).type = tDir ∧ (m.icache 0).ref = 1)) = true :=
    (Option.any_eq_true _ _).mp (by decide +kernel)
  obtain ⟨m, run, final⟩ := ends
  obtain ⟨valid, type, ref⟩ := of_decide_eq_true final
  exact ⟨m, run, valid, type, ref, cache_coherent unlinked 2 takeover m run⟩

def linked : Nat → Nat → Dinode := fun _ inum =>
  if inum = 0 then Dinode.zero else { Dinode.zero with type := tDir, nlink := 1 }

-- Inode 2 is cached in slot 1, both slots are given up, and inode 2 comes back in slot 0.
def moveAway : List (Fin 1 × Action Nat) :=
  [(0, .iget 1 1 0), (0, .iget 1 2 1), (0, .ilock 1), (0, .next 0), (0, .next 0), (0, .next 0), (0, .iunlock 1),
    (0, .iput 0), (0, .iput 1), (0, .iget 1 2 2), (0, .ilock 2), (0, .next 0), (0, .next 0), (0, .next 0),
    (0, .modify 2 { Dinode.zero with type := tDir, nlink := 2 }), (0, .iupdate 2), (0, .iunlock 2)]

theorem unused_entry_is_stale : ∃ m e, Run.exec step (boot linked 3) moveAway = some m ∧ (m.icache e).valid = true ∧
    (m.icache e).busy = false ∧ (m.icache e).toDinode ≠ m.disk (m.icache e).dev (m.icache e).inum := by
  have ends : ∃ m, Run.exec step (boot linked 3) moveAway = some m ∧
      (decide ((m.icache 1).valid = true ∧ (m.icache 1).busy = false ∧
        (m.icache 1).toDinode ≠ m.disk (m.icache 1).dev (m.icache 1).inum)) = true :=
    (Option.any_eq_true _ _).mp (by decide +kernel)
  obtain ⟨m, run, final⟩ := ends
  obtain ⟨valid, open_, differs⟩ := of_decide_eq_true final
  exact ⟨m, 1, run, valid, open_, differs⟩

end Machine

end Xv6.Fs.Icache
