import Xv6.Io.Bio

set_option autoImplicit false

/-!
# The buffer cache is coherent

The list of buffers keeps its shape and is ordered by release. A block has at most one buffer, and the
buffer or else the disk has what was last written to the block.
-/

namespace Xv6.Bio

open Io

section Order

/-- `l` is the list of all buffers as the links have it, the last one released first. -/
structure Ordered (links : Links Node) (released : BufId → Nat) (clock : Nat) (l : List BufId) : Prop where
  circle : links.Circle none (l.map some)
  all : ∀ b, b ∈ l
  recent : l.Pairwise fun a b => released b < released a ∨ released b = 0
  past : ∀ b, released b ≤ clock

variable {links : Links Node} {released : BufId → Nat} {clock : Nat} {l : List BufId}

theorem circle_nodup (circle : links.Circle none (l.map some)) : l.Nodup :=
  (List.nodup_cons.mp circle.distinct).2.of_map some

theorem circle_length (circle : links.Circle none (l.map some)) : (l.map some).length < NBUF + 1 := by
  rw [List.length_map]
  have := (circle_nodup circle).length_le_card
  simp at this
  omega

theorem join_map_some (o : Option BufId) : (o.map some).join = o := by cases o <;> rfl

theorem find_next (circle : links.Circle none (l.map some)) (p : BufId → Bool) :
    find links.next p = some (l.find? p) := by
  rw [find, Links.scan_next _ (NBUF + 1) circle.path (by simp) (circle_length circle), List.find?_map,
    Option.map_some, join_map_some]
  rfl

theorem find_prev (circle : links.Circle none (l.map some)) (p : BufId → Bool) :
    find links.prev p = some (l.reverse.find? p) := by
  rw [find, Links.scan_prev _ (NBUF + 1) circle.path (by simp) (circle_length circle), ← List.map_reverse,
    List.find?_map, Option.map_some, join_map_some]
  rfl

theorem Ordered.release (ordered : Ordered links released clock l) (b : BufId) :
    Ordered ((links.remove (some b)).insertFront none (some b)) (Function.update released b (clock + 1)) (clock + 1)
      (b :: l.erase b) := by
  obtain ⟨before, after, split⟩ := List.append_of_mem (ordered.all b)
  have distinct := circle_nodup ordered.circle
  rw [split] at distinct
  have circle := ordered.circle
  rw [split, List.map_append, List.map_cons] at circle
  have erased : l.erase b = before ++ after := by
    rw [split, List.erase_append_right _ (by grind -linarith), List.erase_cons_head]
  rw [erased]
  constructor
  · rw [List.map_cons, List.map_append]
    exact circle.remove.insertFront (by grind -linarith)
  · intro c
    have := ordered.all c
    grind -linarith
  · have recent := ordered.recent
    rw [split] at recent
    have kept : (before ++ after).Pairwise fun a c => released c < released a ∨ released c = 0 :=
      recent.sublist (by simp)
    rw [List.pairwise_cons]
    constructor
    · intro c member
      have other : c ≠ b := by grind -linarith
      rw [Function.update_self, Function.update_of_ne other]
      have := ordered.past c
      omega
    · apply kept.imp_of_mem
      intro a c first second
      have other : a ≠ b ∧ c ≠ b := by grind -linarith
      simp [Function.update_of_ne other.1, Function.update_of_ne other.2]
  · intro c
    rw [Function.update_apply]
    have := ordered.past c
    split <;> omega

theorem add_buf (bs : List BufId) (c : Bcache) (b : BufId) :
    (bs.foldl Bcache.add c).buf b = if b ∈ bs then { c.buf b with dev := NODEV } else c.buf b := by
  induction bs generalizing c with
  | nil => simp
  | cons a bs ih =>
    rw [List.foldl_cons, ih]
    by_cases same : b = a
    · subst same
      simp [Bcache.add]
    · simp [Bcache.add, same]

theorem add_links (bs : List BufId) (c : Bcache) (circle : c.links.Circle none (l.map some)) (distinct : bs.Nodup)
    (new : ∀ b ∈ bs, b ∉ l) : (bs.foldl Bcache.add c).links.Circle none ((bs.reverse ++ l).map some) := by
  induction bs generalizing c l with
  | nil => simpa using circle
  | cons a bs ih =>
    obtain ⟨absent, distinct⟩ := List.nodup_cons.mp distinct
    have first : (c.add a).links.Circle none ((a :: l).map some) :=
      circle.insertFront (by simpa using new a List.mem_cons_self)
    have rest := ih (c.add a) first distinct (by grind -linarith)
    rw [List.foldl_cons, List.reverse_cons, List.append_assoc, List.singleton_append]
    exact rest

theorem binit_buf (links : Links Node) (b : BufId) :
    (binit links).buf b = ⟨false, false, false, NODEV, 0, fun _ => 0⟩ := by
  rw [binit, add_buf, if_pos (List.mem_finRange b)]
  rfl

theorem binit_ordered (links : Links Node) :
    Ordered (binit links).links (fun _ => 0) 0 (List.finRange NBUF).reverse := by
  have empty : ((links.setPrev none none).setNext none none).Circle none ([].map some) :=
    ⟨by simp [Links.Path, Links.setPrev, Links.setNext], by simp⟩
  have circle := add_links (List.finRange NBUF)
    { buf := fun _ => zeroBuf, links := (links.setPrev none none).setNext none none } empty
    (List.nodup_finRange NBUF) (by simp)
  rw [List.append_nil] at circle
  exact ⟨circle, by simp, List.pairwise_of_forall (by simp), by simp⟩

end Order

section Get

variable {c : Bcache} {l : List BufId}

theorem bget_cases (circle : c.links.Circle none (l.map some)) (all : ∀ b, b ∈ l) (dev blockno : Nat) :
    (∃ b, (c.buf b).dev = dev ∧ (c.buf b).blockno = blockno ∧
        if (c.buf b).busy = false then
          bget c dev blockno = some (.returned b, c.setBuf b { c.buf b with busy := true })
        else bget c dev blockno = some (.sleeps b, c)) ∨
      ((∀ b, (c.buf b).dev = dev → (c.buf b).blockno ≠ blockno) ∧
        ((∃ b, (c.buf b).busy = false ∧ (c.buf b).dirty = false ∧
            bget c dev blockno = some (.returned b, c.setBuf b
              { c.buf b with dev := dev, blockno := blockno, busy := true, valid := false, dirty := false })) ∨
          (∀ b, (c.buf b).busy = true ∨ (c.buf b).dirty = true) ∧ bget c dev blockno = some (.panics, c))) := by
  simp only [bget, find_next circle, find_prev circle]
  cases cached : l.find? fun b => decide ((c.buf b).dev = dev ∧ (c.buf b).blockno = blockno) with
  | some b =>
    left
    have key := List.find?_some cached
    simp only [decide_eq_true_eq] at key
    refine ⟨b, key.1, key.2, ?_⟩
    split
    next free => simp [free]
    next busy => simp [busy]
  | none =>
    right
    refine ⟨?_, ?_⟩
    · intro b same other
      have := List.find?_eq_none.mp cached b (all b)
      simp [same, other] at this
    · cases recycled : l.reverse.find? fun b => decide ((c.buf b).busy = false ∧ (c.buf b).dirty = false) with
      | some b =>
        have free := List.find?_some recycled
        simp only [decide_eq_true_eq] at free
        exact Or.inl ⟨b, free.1, free.2, rfl⟩
      | none =>
        refine Or.inr ⟨fun b => ?_, rfl⟩
        have taken := List.find?_eq_none.mp recycled b (List.mem_reverse.mpr (all b))
        simp only [decide_eq_true_eq] at taken
        cases busy : (c.buf b).busy
        · exact .inr (by simpa [busy] using taken)
        · exact .inl rfl

end Get

section Content

variable {P : Type}

-- What was last written to a block of the disk, or what was there before.
def State.content (disk : Disk) (s : State P) (blockno : Nat) : Block := (s.written 1 blockno).getD (disk blockno)

-- The buffer that `bread` is about to return.
@[grind =] def Pc.target : Pc → Option BufId
  | .reading _ _ b => some b
  | _ => none

structure Coherent (disk : Disk) (s : State P) : Prop where
  unique : ∀ a b, (s.buf a).dev ≠ NODEV → (s.buf a).dev = (s.buf b).dev → (s.buf a).blockno = (s.buf b).blockno → a = b
  busy : ∀ p b, s.holds p b = true → (s.buf b).busy = true
  holder : ∀ b, (s.buf b).busy = true → ∃ p, s.holds p b = true
  exclusive : ∀ p q b, s.holds p b = true → s.holds q b = true → p = q
  reading : ∀ p dev blockno b, s.pc p = .reading dev blockno b →
    s.holds p b = true ∧ (s.buf b).dev = dev ∧ (s.buf b).blockno = blockno ∧ s.touched b = false
  held : ∀ p b, s.holds p b = true → (s.buf b).valid = true ∨ (s.pc p).target = some b
  touched : ∀ b, s.touched b = true → (s.buf b).busy = true
  valid : ∀ b, (s.buf b).valid = true → (s.buf b).dev = 1
  dirty : ∀ b, (s.buf b).dirty = true → (s.buf b).valid = true
  data : ∀ b, (s.buf b).valid = true → s.touched b = false → (s.buf b).data = s.content disk (s.buf b).blockno
  disk : ∀ n, (∀ b, (s.buf b).dev = 1 → (s.buf b).blockno = n → (s.buf b).dirty = false) → s.disk n = s.content disk n

theorem init_coherent (links : Links Node) (disk : Disk) : Coherent disk (init links disk : State P) := by
  constructor <;> simp [State.buf, init, State.content, binit_buf]

theorem iderw_ok {disksize : Nat} {m m' : Memory} {b : BufId} (ok : Memide.iderw disksize m b = .ok m') :
    (m.buf b).dev = 1 ∧ m' = m.transfer b := by
  simp only [Memide.iderw] at ok
  split at ok
  next => cases ok
  next =>
    split at ok
    next => cases ok
    next =>
      split at ok
      next => cases ok
      next disk1 =>
        split at ok
        next => cases ok
        next =>
          cases ok
          exact ⟨not_not.mp disk1, rfl⟩

variable [DecidableEq P] {disk : Disk} {s : State P} {p : P} {b : BufId} (coherent : Coherent disk s)

include coherent

theorem Coherent.call (dev blockno : Nat) (idle : s.pc p = .idle) :
    Coherent disk { s with pc := Function.update s.pc p (.getting dev blockno) } := by
  obtain ⟨unique, busy, holder, exclusive, reading, held, touched, valid, dirty, data, disk⟩ := coherent
  refine ⟨unique, busy, holder, exclusive, ?_, ?_, touched, valid, dirty, data, disk⟩
  · intro q dev' blockno' b at_
    simp only [Function.update_apply] at at_
    split at at_
    next => cases at_
    next => exact reading q dev' blockno' b at_
  · intro q b holds
    rcases held q b holds with valid | at_
    · exact Or.inl valid
    · have other : q ≠ p := fun same => by simp [same, idle, Pc.target] at at_
      simp only [Function.update_of_ne other]
      exact Or.inr at_

-- The buffer that has just been taken has a holder, and the others keep theirs.
theorem Coherent.taken_holder (taken : Buf) (c : BufId) (isBusy : (Function.update s.cache.buf b taken c).busy = true) :
    ∃ q, (s.hold p b true).holds q c = true := by
  by_cases same : c = b
  · exact ⟨p, by simp [State.hold, same]⟩
  · rw [Function.update_of_ne same] at isBusy
    obtain ⟨q, holds⟩ := coherent.holder c isBusy
    exact ⟨q, by simp [State.hold, same, holds]⟩

theorem Coherent.hit {dev blockno : Nat} (at_ : s.pc p = .getting dev blockno) (key : (s.buf b).dev = dev)
    (key' : (s.buf b).blockno = blockno) (free : (s.buf b).busy = false) :
    Coherent disk { s.hold p b true with
      cache := s.cache.setBuf b { s.buf b with busy := true }
      pc := Function.update s.pc p (.reading dev blockno b) } := by
  have holder (taken : Buf) := coherent.taken_holder (p := p) (b := b) taken
  cases coherent
  simp only [State.buf] at *
  have unheld : ∀ q, s.holds q b = false := by grind -linarith
  refine ⟨?_, ?_, holder _, ?_, ?_, ?_, ?_, ?_, ?_, ?_, ?_⟩ <;>
    simp only [State.buf, State.hold, State.content, Bcache.setBuf, Function.update_apply] at * <;> grind -linarith

theorem Coherent.recycle {dev blockno : Nat} (at_ : s.pc p = .getting dev blockno)
    (missing : ∀ c, (s.buf c).dev = dev → (s.buf c).blockno ≠ blockno) (free : (s.buf b).busy = false)
    (clean : (s.buf b).dirty = false) :
    Coherent disk { s.hold p b true with
      cache := s.cache.setBuf b
        { s.buf b with dev := dev, blockno := blockno, busy := true, valid := false, dirty := false }
      pc := Function.update s.pc p (.reading dev blockno b) } := by
  have holder (taken : Buf) := coherent.taken_holder (p := p) (b := b) taken
  cases coherent
  simp only [State.buf] at *
  have unheld : ∀ q, s.holds q b = false := by grind -linarith
  refine ⟨?_, ?_, holder _, ?_, ?_, ?_, ?_, ?_, ?_, ?_, ?_⟩ <;>
    simp only [State.buf, State.hold, State.content, Bcache.setBuf, Function.update_apply] at * <;> grind -linarith

omit [DecidableEq P] in
theorem Coherent.modify (data : Block) (owns : s.Owns p b) :
    Coherent disk { s with
      cache := s.cache.setBuf b { s.buf b with data := data }
      touched := Function.update s.touched b true } := by
  cases coherent
  obtain ⟨idle, holds⟩ := owns
  constructor <;> simp only [State.buf, State.content, Bcache.setBuf, Function.update_apply] at *
  all_goals grind -linarith

omit [DecidableEq P] in
theorem Coherent.logWrite (owns : s.Owns p b) :
    Coherent disk { s.write b with cache := s.cache.setBuf b { s.buf b with dirty := true } } := by
  cases coherent
  obtain ⟨idle, holds⟩ := owns
  constructor <;> simp only [State.buf, State.write, State.content, Bcache.setBuf, Function.update_apply] at *
  all_goals grind -linarith

theorem Coherent.release (owns : s.Owns p b) (written : s.touched b = false) (links : Links Node)
    (chan : P → Option BufId) (clock : Nat) (released : BufId → Nat) :
    Coherent disk { s.hold p b false with
      cache := { buf := Function.update s.cache.buf b { s.cache.buf b with busy := false }, links := links }
      chan := chan
      clock := clock
      released := released } := by
  cases coherent
  obtain ⟨idle, holds⟩ := owns
  constructor <;> simp only [State.buf, State.hold, State.content, Function.update_apply] at *
  all_goals grind -linarith

theorem Coherent.read {disksize dev blockno : Nat} {m : Memory} (at_ : s.pc p = .reading dev blockno b)
    (ok : breadRest disksize s.memory b = .ok m) :
    Coherent disk { s.setMemory m with pc := Function.update s.pc p .idle } ∧ (m.buf b).valid = true ∧
      (m.buf b).dev = (s.buf b).dev ∧ (m.buf b).blockno = (s.buf b).blockno := by
  cases coherent
  have target : (s.pc p).target = some b := by rw [at_]; rfl
  unfold breadRest at ok
  split at ok
  next invalid =>
    obtain ⟨disk1, rfl⟩ := iderw_ok ok
    simp only [State.memory, State.buf] at *
    have clean : (s.cache.buf b).dirty = false := by grind -linarith
    simp only [Memory.transfer, clean, Bool.false_eq_true, if_false, Function.update_self, and_true]
    constructor <;>
      simp only [State.buf, State.setMemory, State.content, Function.update_apply] at *
    all_goals grind -linarith
  next =>
    cases ok
    simp only [State.memory, State.buf] at *
    refine ⟨?_, by grind -linarith⟩
    constructor <;>
      simp only [State.buf, State.setMemory, State.content, Function.update_apply] at *
    all_goals grind -linarith

omit [DecidableEq P] in
theorem Coherent.bwrite {disksize : Nat} {m : Memory} (owns : s.Owns p b)
    (ok : bwrite disksize s.memory b = .ok m) : Coherent disk ((s.write b).setMemory m) := by
  cases coherent
  obtain ⟨idle, holds⟩ := owns
  unfold Bio.bwrite at ok
  split at ok
  next => cases ok
  next =>
    obtain ⟨disk1, rfl⟩ := iderw_ok ok
    simp only [State.memory, State.buf, Memory.setBuf, Function.update_self] at *
    constructor <;>
      simp only [State.buf, State.write, State.setMemory, State.content, Memory.transfer, Function.update_apply,
        if_true] at *
    all_goals grind -linarith

end Content

section Runs

variable {P : Type} [DecidableEq P] {disk : Disk} {s s' : State P} {disksize : Nat}

-- No buffer with a change that is not on the disk is given to another block.
def Pinned (s s' : State P) : Prop :=
  ∀ b, (s.buf b).dirty = true → (s'.buf b).dev = (s.buf b).dev ∧ (s'.buf b).blockno = (s.buf b).blockno

def Sound (disk : Disk) (s : State P) : Prop :=
  (∃ l, Ordered s.cache.links s.released s.clock l) ∧ Coherent disk s

omit [DecidableEq P] in
theorem setBuf_pinned {t : State P} {b : BufId} {v : Buf} (buf : t.cache.buf = Function.update s.cache.buf b v)
    (same : (s.buf b).dirty = true → v.dev = (s.buf b).dev ∧ v.blockno = (s.buf b).blockno) : Pinned s t := by
  intro c dirty
  simp only [State.buf, buf, Function.update_apply]
  split
  next equal =>
    subst equal
    exact same dirty
  next => exact ⟨rfl, rfl⟩

theorem Sound.get {p : P} {dev blockno : Nat} (sound : Sound disk s) (at_ : s.pc p = .getting dev blockno) :
    ∃ t, get s p dev blockno = some t ∧ Sound disk t ∧ Pinned s t := by
  obtain ⟨⟨l, ordered⟩, coherent⟩ := sound
  unfold Bio.get
  obtain ⟨b, key, key', found⟩ | ⟨missing, ⟨b, free, clean, found⟩ | ⟨-, found⟩⟩ :=
    bget_cases ordered.circle ordered.all dev blockno
  · split at found
    next free =>
      rw [found]
      exact ⟨_, rfl, ⟨⟨l, ordered⟩, coherent.hit at_ key key' free⟩, setBuf_pinned rfl fun _ => ⟨rfl, rfl⟩⟩
    next =>
      rw [found]
      obtain ⟨unique, busy, holder, exclusive, reading, held, touched, valid, dirty, data, disk⟩ := coherent
      exact ⟨_, rfl, ⟨⟨l, ordered⟩, unique, busy, holder, exclusive, reading, held, touched, valid, dirty, data, disk⟩,
        fun _ _ => ⟨rfl, rfl⟩⟩
  · rw [found]
    refine ⟨_, rfl, ⟨⟨l, ordered⟩, coherent.recycle at_ missing free clean⟩, setBuf_pinned rfl fun dirty => ?_⟩
    exact absurd (clean.symm.trans dirty) Bool.false_ne_true
  · rw [found]
    obtain ⟨unique, busy, holder, exclusive, reading, held, touched, valid, dirty, data, disk⟩ := coherent
    exact ⟨_, rfl, ⟨⟨l, ordered⟩, unique, busy, holder, exclusive, reading, held, touched, valid, dirty, data, disk⟩,
      fun _ _ => ⟨rfl, rfl⟩⟩

omit [DecidableEq P] in
theorem Sound.stop (sound : Sound disk s) (e : Panic) :
    Sound disk { s with panic := some e } ∧ Pinned s { s with panic := some e } := by
  obtain ⟨ordered, unique, busy, holder, exclusive, reading, held, touched, valid, dirty, data, disk⟩ := sound
  exact ⟨⟨ordered, unique, busy, holder, exclusive, reading, held, touched, valid, dirty, data, disk⟩,
    fun _ _ => ⟨rfl, rfl⟩⟩

theorem breadRest_key {m m' : Memory} {b : BufId} (ok : breadRest disksize m b = .ok m') (c : BufId) :
    (m'.buf c).dev = (m.buf c).dev ∧ (m'.buf c).blockno = (m.buf c).blockno := by
  unfold breadRest at ok
  split at ok
  next =>
    obtain ⟨-, rfl⟩ := iderw_ok ok
    exact m.transfer_key b c
  next =>
    cases ok
    exact ⟨rfl, rfl⟩

theorem bwrite_key {m m' : Memory} {b : BufId} (ok : bwrite disksize m b = .ok m') (c : BufId) :
    (m'.buf c).dev = (m.buf c).dev ∧ (m'.buf c).blockno = (m.buf c).blockno := by
  unfold Bio.bwrite at ok
  split at ok
  next => cases ok
  next =>
    obtain ⟨-, rfl⟩ := iderw_ok ok
    have moved := (m.setBuf b { m.buf b with dirty := true }).transfer_key b c
    by_cases same : c = b
    · subst same
      simpa [Memory.setBuf] using moved
    · simpa [Memory.setBuf, same] using moved

theorem brelse_ok {c c' : Bcache} {b : BufId} (ok : brelse c b = .ok c') :
    c' =
      { buf := Function.update c.buf b { c.buf b with busy := false }
        links := (c.links.remove (some b)).insertFront none (some b) } := by
  unfold Bio.brelse at ok
  split at ok <;> cases ok
  rfl

theorem Sound.step {a : Action P} (sound : Sound disk s) (moved : step disksize s a = some s') :
    Sound disk s' ∧ Pinned s s' := by
  unfold Bio.step at moved
  split at moved
  next => cases moved
  next =>
    cases a with
    | bread p dev blockno =>
      simp only at moved
      split at moved <;> cases moved
      next idle => exact ⟨⟨sound.1, sound.2.call dev blockno idle⟩, fun _ _ => ⟨rfl, rfl⟩⟩
    | run p =>
      simp only at moved
      split at moved
      next => cases moved
      next =>
        cases at_ : s.pc p with
        | idle => simp [at_] at moved
        | getting dev blockno =>
          simp only [at_] at moved
          obtain ⟨t, got, sound', pinned⟩ := sound.get at_
          cases got.symm.trans moved
          exact ⟨sound', pinned⟩
        | reading dev blockno b =>
          simp only [at_] at moved
          split at moved <;> cases moved
          next e _ => exact sound.stop e
          next m ok => exact ⟨⟨sound.1, (sound.2.read at_ ok).1⟩, fun c _ => breadRest_key ok c⟩
    | awaken p =>
      cases moved
      obtain ⟨ordered, unique, busy, holder, exclusive, reading, held, touched, valid, dirty, data, disk⟩ := sound
      exact ⟨⟨ordered, unique, busy, holder, exclusive, reading, held, touched, valid, dirty, data, disk⟩,
        fun _ _ => ⟨rfl, rfl⟩⟩
    | modify p b data =>
      simp only at moved
      split at moved <;> cases moved
      next owns => exact ⟨⟨sound.1, sound.2.modify data owns⟩, setBuf_pinned rfl fun _ => ⟨rfl, rfl⟩⟩
    | logWrite p b =>
      simp only at moved
      split at moved <;> cases moved
      next owns => exact ⟨⟨sound.1, sound.2.logWrite owns⟩, setBuf_pinned rfl fun _ => ⟨rfl, rfl⟩⟩
    | bwrite p b =>
      simp only at moved
      split at moved
      next owns =>
        split at moved <;> cases moved
        next e _ => exact sound.stop e
        next m ok => exact ⟨⟨sound.1, sound.2.bwrite owns ok⟩, fun c _ => bwrite_key ok c⟩
      next => cases moved
    | brelse p b =>
      simp only at moved
      split at moved
      next owns =>
        split at moved <;> cases moved
        next e _ => exact sound.stop e
        next c ok =>
          obtain ⟨l, ordered⟩ := sound.1
          rw [brelse_ok ok]
          exact ⟨⟨⟨_, ordered.release b⟩, sound.2.release owns.1 owns.2 _ _ _ _⟩,
            setBuf_pinned rfl fun _ => ⟨rfl, rfl⟩⟩
      next => cases moved

theorem Sound.read {p : P} {dev blockno : Nat} {b : BufId} (sound : Sound disk s)
    (at_ : s.pc p = .reading dev blockno b) (moved : Bio.step disksize s (.run p) = some s') (runs : s'.panic = none) :
    s'.pc p = .idle ∧ s'.holds p b = true ∧ (s'.buf b).dev = dev ∧ (s'.buf b).blockno = blockno ∧
      (s'.buf b).data = (s.written dev blockno).getD (disk blockno) := by
  obtain ⟨holds, rfl, rfl, untouched⟩ := sound.2.reading p dev blockno b at_
  unfold Bio.step at moved
  split at moved
  next => cases moved
  next =>
    simp only [at_] at moved
    split at moved
    next => cases moved
    next =>
      split at moved <;> cases moved
      next => cases runs
      next m ok =>
        obtain ⟨coherent, valid, dev, blockno⟩ := sound.2.read at_ ok
        have disk1 : (m.buf b).dev = 1 := coherent.valid b valid
        have data : (m.buf b).data = (s.written 1 (m.buf b).blockno).getD (disk (m.buf b).blockno) :=
          coherent.data b valid untouched
        refine ⟨Function.update_self .., holds, dev, blockno, ?_⟩
        rw [← dev, ← blockno, disk1]
        exact data

/-- The buffer cache: shape and order of the list, at most one buffer for a block, at most one holder of
a buffer, no eviction of dirty buffers, and `bread` returns what was last written. -/
theorem buffer_cache (disksize : Nat) (links : Links Node) (disk : Disk) (actions : List (Action P)) (s : State P)
    (run : Run.exec (step disksize) (init links disk) actions = some s) :
    (∃ l : List BufId, s.cache.links.Circle none (l.map some) ∧ l.Perm (List.finRange NBUF) ∧
      l.Pairwise fun a b => s.released b < s.released a ∨ s.released b = 0) ∧
    (∀ a b, (s.buf a).dev ≠ NODEV → (s.buf a).dev = (s.buf b).dev → (s.buf a).blockno = (s.buf b).blockno → a = b) ∧
    (∀ b, (s.buf b).busy = true ↔ ∃ p, s.holds p b = true) ∧
    (∀ p q b, s.holds p b = true → s.holds q b = true → p = q) ∧
    (∀ a s' b, step disksize s a = some s' → (s.buf b).dirty = true →
      (s'.buf b).dev = (s.buf b).dev ∧ (s'.buf b).blockno = (s.buf b).blockno) ∧
    (∀ p dev blockno, s.panic = none → s.chan p = none → s.pc p = .getting dev blockno →
      (step disksize s (.run p)).isSome = true) ∧
    ∀ p dev blockno b s', s.pc p = .reading dev blockno b → step disksize s (.run p) = some s' → s'.panic = none →
      s'.pc p = .idle ∧ s'.holds p b = true ∧ (s'.buf b).dev = dev ∧ (s'.buf b).blockno = blockno ∧
        (s'.buf b).data = (s.written dev blockno).getD (disk blockno) := by
  have sound : Sound disk s := Run.exec_invariant (step disksize) (Sound disk)
    (fun _ _ _ before moved => (before.step moved).1) (init links disk) s actions
    ⟨⟨_, binit_ordered links⟩, init_coherent links disk⟩ run
  obtain ⟨l, ordered⟩ := sound.1
  have distinct := circle_nodup ordered.circle
  refine ⟨⟨l, ordered.circle, ?_, ordered.recent⟩, sound.2.unique, ?_, sound.2.exclusive, ?_, ?_, ?_⟩
  · exact (List.perm_ext_iff_of_nodup distinct (List.nodup_finRange NBUF)).mpr fun b => by simp [ordered.all b]
  · intro b
    exact ⟨sound.2.holder b, fun ⟨p, holds⟩ => sound.2.busy p b holds⟩
  · intro a s' b moved dirty
    exact (sound.step moved).2 b dirty
  · intro p dev blockno panic awake at_
    obtain ⟨t, got, -, -⟩ := sound.get at_
    simp [step, panic, awake, at_, got]
  · intro p dev blockno b s' at_ moved runs
    exact sound.read at_ moved runs

-- Two processes want the same block. The second one sleeps, and then gets what the first one has written.
private def contention : List (Action (Fin 2)) :=
  [.bread 0 1 7, .run 0, .bread 1 1 7, .run 1, .run 0, .modify 0 0 fun _ => 5, .logWrite 0 0, .brelse 0 0, .run 1]

private def straight : Links Node := ⟨id, id⟩

theorem buffer_cache_contention :
    ∃ s s' : State (Fin 2), Run.exec (step 1000) (init straight fun _ _ => 9) contention = some s ∧
      step 1000 s (.run 1) = some s' ∧ (s.buf 0).dirty = true ∧
        (s'.buf 0).data = (s.written 1 7).getD (fun _ => 9) := by
  have reached : (Run.exec (step 1000) (init straight fun _ _ => 9) contention).any
      (fun s => decide (s.pc 1 = .reading 1 7 0 ∧ (s.buf 0).dirty = true) &&
        (step 1000 s (.run 1)).any fun s' => decide (s'.panic = none)) = true := by decide +kernel
  obtain ⟨s, run, final⟩ := (Option.any_eq_true _ _).mp reached
  obtain ⟨at_, moves⟩ := (Bool.and_eq_true _ _).mp final
  obtain ⟨s', moved, runs⟩ := (Option.any_eq_true _ _).mp moves
  have read := (buffer_cache 1000 straight (fun _ _ => 9) contention s run).2.2.2.2.2.2 1 1 7 0 s'
    (of_decide_eq_true at_).1 moved (of_decide_eq_true runs)
  exact ⟨s, s', run, moved, (of_decide_eq_true at_).2, read.2.2.2.2⟩

end Runs

end Xv6.Bio
