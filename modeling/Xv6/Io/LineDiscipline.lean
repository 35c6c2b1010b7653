import Xv6.Io.Console

set_option autoImplicit false

/-!
# The line discipline

What the console is for: a queue of committed bytes and a line under edit, as lists. The three indices
of `input` and the ring implement it, also when the indices wrap.
-/

namespace Xv6.Console

/-- The bytes that readers may take, and the line that the keyboard still edits. -/
structure Tty where
  ready : List UInt8
  line : List UInt8

namespace Tty

-- A line is committed by a newline, by ^D, and when there is no more room.
def key (t : Tty) (c : Nat) : Tty :=
  if c = C 'P' then t
  else if c = C 'U' then { t with line := t.line.rdropWhile (· ≠ UInt8.ofNat newline) }
  else if c = C 'H' ∨ c = DEL then { t with line := t.line.dropLast }
  else if c ≠ 0 ∧ t.ready.length + t.line.length < INPUT_BUF then
    let c := if c = carriageReturn then newline else c
    let line := t.line ++ [UInt8.ofNat c]
    if c = newline ∨ c = C 'D' ∨ t.ready.length + line.length = INPUT_BUF then ⟨t.ready ++ line, []⟩
    else { t with line := line }
  else t

end Tty

/-- The input buffer holds the queue between `r` and `w` and the line between `w` and `e`. -/
structure Rep (i : Input) (t : Tty) : Prop where
  mark : i.w = i.r + UInt32.ofNat t.ready.length
  bytes : i.ring.contents INPUT_BUF = t.ready ++ t.line
  room : t.ready.length + t.line.length ≤ INPUT_BUF

theorem input_buf_divides : INPUT_BUF ∣ 2 ^ 32 := by decide

theorem toNat_ofNat_of_le (n : Nat) (small : n ≤ INPUT_BUF) : (UInt32.ofNat n).toNat = n := by
  rw [UInt32.toNat_ofNat']
  exact Nat.mod_eq_of_lt (lt_of_le_of_lt small (by decide))

section Views

variable {i : Input} {t : Tty} (rep : Rep i t)

include rep

theorem Rep.count : i.ring.count = t.ready.length + t.line.length := by
  rw [← RingBuf.contents_length INPUT_BUF, rep.bytes, List.length_append]

theorem Rep.edit : i.e = i.w + UInt32.ofNat t.line.length := by
  have last := i.ring.last_eq
  rw [rep.count, UInt32.ofNat_add, ← add_assoc] at last
  rw [rep.mark]
  exact last

theorem Rep.ready_count : (i.w - i.r).toNat = t.ready.length := by
  rw [rep.mark, add_sub_cancel_left, toNat_ofNat_of_le _ (by have := rep.room; omega)]

theorem Rep.line_count : (i.e - i.w).toNat = t.line.length := by
  rw [rep.edit, add_sub_cancel_left, toNat_ofNat_of_le _ (by have := rep.room; omega)]

theorem Rep.split : i.ready = t.ready ∧ i.line = t.line := by
  have cut := i.ring.contents_split input_buf_divides t.ready.length (by rw [rep.count]; omega)
  rw [rep.bytes] at cut
  have mark : i.ring.first + UInt32.ofNat t.ready.length = i.w := rep.mark.symm
  rw [mark] at cut
  have length : t.ready.length = i.ready.length := by
    rw [Input.ready, RingBuf.contents_length, RingBuf.count, rep.ready_count]
  obtain ⟨ready, line⟩ := List.append_inj cut length
  exact ⟨ready.symm, line.symm⟩

theorem Rep.empty_iff : i.r = i.w ↔ t.ready = [] := by
  rw [← List.length_eq_zero_iff, ← rep.ready_count]
  exact (RingBuf.count_eq_zero_iff (RingBuf.mk i.buf i.r i.w)).symm

theorem Rep.unedited_iff : i.e = i.w ↔ t.line = [] := by
  rw [← List.length_eq_zero_iff, ← rep.line_count, eq_comm]
  exact (RingBuf.count_eq_zero_iff (RingBuf.mk i.buf i.w i.e)).symm

theorem Rep.not_full_iff :
    i.e - i.r < UInt32.ofNat INPUT_BUF ↔ t.ready.length + t.line.length < INPUT_BUF := by
  rw [UInt32.lt_iff_toNat_lt, toNat_ofNat_of_le _ (le_refl _), ← rep.count]
  rfl

end Views

section Operations

variable {i : Input} {ready line : List UInt8}

theorem Rep.put (rep : Rep i ⟨ready, line⟩) (c : UInt8) (free : ready.length + line.length < INPUT_BUF) :
    Rep (i.put c) ⟨ready, line ++ [c]⟩ := by
  have pushed := i.ring.push_contents input_buf_divides (by decide) c (by rw [rep.count]; exact free)
  constructor
  · exact rep.mark
  · have stored : (i.put c).ring = i.ring.push INPUT_BUF c := rfl
    rw [stored, pushed.2, rep.bytes, List.append_assoc]
  · simp only [List.length_append, List.length_singleton]
    omega

theorem Rep.commit (rep : Rep i ⟨ready, line⟩) : Rep i.commit ⟨ready ++ line, []⟩ := by
  have last := i.ring.last_eq
  have count := rep.count
  constructor
  · rw [List.length_append, ← count]
    exact last
  · rw [List.append_nil]
    exact rep.bytes
  · simpa using rep.room

theorem Rep.erase {b : UInt8} (rep : Rep i ⟨ready, line ++ [b]⟩) :
    i.buf ((i.e - 1).toNat % INPUT_BUF) = b ∧ Rep i.erase ⟨ready, line⟩ := by
  have count := rep.count
  have room := rep.room
  simp only [List.length_append, List.length_singleton] at count room
  have back := (i.ring.unpush_contents input_buf_divides (by omega)).2
  rw [rep.bytes, ← List.append_assoc] at back
  obtain ⟨before, last⟩ := List.append_inj_left' back rfl, List.append_inj_right' back rfl
  refine ⟨(List.singleton_inj.mp last).symm, rep.mark, before.symm, ?_⟩
  simp only
  omega

theorem Rep.drop {b : UInt8} (rep : Rep i ⟨b :: ready, line⟩) : i.next = b ∧ Rep i.drop ⟨ready, line⟩ := by
  have count := rep.count
  have room := rep.room
  have mark := rep.mark
  simp only [List.length_cons] at count room mark
  have front := (i.ring.pop_contents input_buf_divides (by omega)).2
  rw [rep.bytes, List.cons_append] at front
  obtain ⟨same, rest⟩ := List.cons.inj front
  refine ⟨same.symm, ?_, rest.symm, ?_⟩
  · rw [Nat.add_comm, UInt32.ofNat_add, ← add_assoc] at mark
    exact mark
  · simp only
    omega

end Operations

section Keys

theorem Rep.killLine (line : List UInt8) {i : Input} {ready : List UInt8} (rep : Rep i ⟨ready, line⟩) :
    Rep (killLine line.length i) ⟨ready, line.rdropWhile (· ≠ UInt8.ofNat newline)⟩ := by
  induction line using List.reverseRecOn generalizing i with
  | nil => simpa [Console.killLine] using rep
  | append_singleton line b ih =>
    obtain ⟨back, erased⟩ := rep.erase
    have edited : i.e ≠ i.w := by
      rw [Ne, rep.unedited_iff]
      simp
    rw [List.length_append, List.length_singleton, Console.killLine, back]
    by_cases stop : b = UInt8.ofNat newline
    · rw [if_neg (fun more => more.2 stop), List.rdropWhile_concat_neg _ _ _ (by simp [stop])]
      exact rep
    · rw [if_pos ⟨edited, stop⟩, List.rdropWhile_concat_pos _ _ _ (by simp [stop])]
      exact ih erased

theorem Rep.backspace {i : Input} {t : Tty} (rep : Rep i t) :
    Rep (if i.e ≠ i.w then i.erase else i) { t with line := t.line.dropLast } := by
  obtain ⟨ready, line⟩ := t
  rcases List.eq_nil_or_concat line with rfl | ⟨line, b, rfl⟩
  · have clean : i.e = i.w := rep.unedited_iff.mpr rfl
    simpa [clean] using rep
  · have edited : i.e ≠ i.w := by
      rw [Ne, rep.unedited_iff]
      simp
    rw [if_pos edited, List.concat_eq_append] at *
    simpa using (Rep.erase rep).2

/-- One round of `consoleintr` is one key of the line discipline, and it records what the key commits. -/
theorem Rep.getc {s : Intr} {t : Tty} (rep : Rep s.input t) (c : Nat) :
    Rep (s.getc c).input (t.key c) ∧
      ∃ fresh, (s.getc c).committed = s.committed ++ fresh ∧ (t.key c).ready = t.ready ++ fresh := by
  have nothing (t' : Tty) (same : t'.ready = t.ready) :
      ∃ fresh, s.committed = s.committed ++ fresh ∧ t'.ready = t.ready ++ fresh := ⟨[], by simp, by simp [same]⟩
  unfold Intr.getc Tty.key
  split
  next => exact ⟨rep, nothing t rfl⟩
  split
  next => exact ⟨by rw [rep.line_count]; exact Rep.killLine t.line rep, nothing _ rfl⟩
  split
  next =>
    have erased := rep.backspace
    split at erased
    next edited =>
      rw [if_pos edited]
      exact ⟨erased, nothing _ rfl⟩
    next clean =>
      rw [if_neg clean]
      exact ⟨erased, nothing _ rfl⟩
  simp only [rep.not_full_iff]
  split
  next free =>
    generalize (if c = carriageReturn then newline else c) = c'
    have stored := Rep.put rep (UInt8.ofNat c') free.2
    have full : (s.input.put (UInt8.ofNat c')).e = (s.input.put (UInt8.ofNat c')).r + UInt32.ofNat INPUT_BUF ↔
        t.ready.length + (t.line ++ [UInt8.ofNat c']).length = INPUT_BUF := by
      rw [← stored.count]
      exact ((s.input.put (UInt8.ofNat c')).ring.count_eq_size_iff INPUT_BUF (by decide)).symm
    simp only [full]
    split
    next => exact ⟨stored.commit, _, by rw [stored.split.2], rfl⟩
    next => exact ⟨stored, nothing _ rfl⟩
  next => exact ⟨rep, nothing t rfl⟩

theorem Rep.getcs (cs : List Nat) {s : Intr} {t : Tty} (rep : Rep s.input t) :
    Rep (cs.foldl Intr.getc s).input (cs.foldl Tty.key t) ∧
      ∃ fresh, (cs.foldl Intr.getc s).committed = s.committed ++ fresh ∧
        (cs.foldl Tty.key t).ready = t.ready ++ fresh := by
  induction cs generalizing s t with
  | nil => exact ⟨rep, [], by simp, by simp⟩
  | cons c cs ih =>
    obtain ⟨one, first, committed, ready⟩ := rep.getc c
    obtain ⟨all, rest, committed', ready'⟩ := ih one
    refine ⟨all, first ++ rest, ?_, ?_⟩
    · rw [List.foldl_cons, committed', committed, List.append_assoc]
    · rw [List.foldl_cons, ready', ready, List.append_assoc]

theorem Rep.consoleintr {i : Input} {t : Tty} (rep : Rep i t) (cs : List Nat) :
    Rep (consoleintr i cs).input (cs.foldl Tty.key t) ∧
      (cs.foldl Tty.key t).ready = t.ready ++ (consoleintr i cs).committed := by
  obtain ⟨all, fresh, committed, ready⟩ := Rep.getcs cs (s := ⟨i, false, false, []⟩) rep
  refine ⟨all, ?_⟩
  rw [ready, Console.consoleintr, committed, List.nil_append]

end Keys

section Readers

def EOF : UInt8 := UInt8.ofNat (C 'D')

def NL : UInt8 := UInt8.ofNat newline

/-- What one turn of a reader does to the queue: it takes bytes from its front, and stops for a reason. -/
structure Turn.Takes (u : Turn) (target n : Int) (killed : Bool) (t t' : Tty) : Prop where
  rep : Rep u.input t'
  took : ∃ gone, t.ready = gone ++ t'.ready ∧ u.bytes = gone.filter (· ≠ EOF)
  left : u.n = n - u.bytes.length
  plain : NL ∉ u.bytes.dropLast
  sleeps : u.result = none → 0 < u.n ∧ NL ∉ u.bytes ∧ t'.ready = []
  returns : 0 < n → ∀ ret, u.result = some ret → killed = true ∨
    ret = target - u.n ∧ 0 ≤ u.n ∧
      (u.n = 0 ∨ u.bytes.getLast? = some NL ∨ u.n < target ∧ t'.ready.head? = some EOF ∨
        ¬ u.n < target ∧ t.ready = u.bytes ++ EOF :: t'.ready)

theorem Turn.Takes.cons {u : Turn} {target n : Int} {killed : Bool} {b : UInt8} {ready line : List UInt8}
    {t' : Tty} (takes : u.Takes target n killed ⟨ready, line⟩ t') (more : 0 ≤ n) (text : b ≠ EOF)
    (inside : b ≠ NL) (last : n = 0 → u.result = some target ∧ u.n = 0) :
    Turn.Takes { u with bytes := b :: u.bytes } target (n + 1) killed ⟨b :: ready, line⟩ t' where
  rep := takes.rep
  took := by
    obtain ⟨gone, front, bytes⟩ := takes.took
    exact ⟨b :: gone, congrArg (b :: ·) front, by simp [bytes, text]⟩
  left := by
    have left := takes.left
    simp only [List.length_cons, Nat.cast_add, Nat.cast_one]
    omega
  plain := by
    have plain := takes.plain
    cases rest : u.bytes with
    | nil => simp
    | cons c bytes =>
      rw [rest] at plain
      simpa [List.dropLast_cons_cons, inside.symm] using plain
  sleeps := by
    intro sleeps
    obtain ⟨some, no, empty⟩ := takes.sleeps sleeps
    exact ⟨some, by simp [inside.symm, no], empty⟩
  returns := by
    intro _ ret result
    rcases more.eq_or_lt with none | some
    · obtain ⟨full, left⟩ := last none.symm
      right
      cases full.symm.trans result
      exact ⟨by simp [left], by simp [left], Or.inl left⟩
    · refine (takes.returns some ret result).imp_right fun ⟨value, nonneg, why⟩ => ⟨value, nonneg, ?_⟩
      rcases why with full | line | saved | consumed
      · exact Or.inl full
      · exact Or.inr (Or.inl (by simp [List.getLast?_cons, line]))
      · exact Or.inr (Or.inr (Or.inl saved))
      · exact Or.inr (Or.inr (Or.inr ⟨consumed.1, by simpa using consumed.2⟩))

theorem readLoop_takes (target : Int) (killed : Bool) (n : Nat) {i : Input} {t : Tty} (rep : Rep i t) :
    ∃ t', (readLoop target killed n i).Takes target n killed t t' := by
  induction n generalizing i t with
  | zero =>
    refine ⟨t, rep, ⟨[], rfl, rfl⟩, rfl, by simp [readLoop], by simp [readLoop], ?_⟩
    intro some
    simp at some
  | succ n ih =>
    obtain ⟨ready, line⟩ := t
    rw [readLoop]
    cases ready with
    | nil =>
      rw [if_pos (rep.empty_iff.mpr rfl)]
      refine ⟨_, rep, ⟨[], rfl, rfl⟩, by simp, by simp, ?_, ?_⟩
      · intro _
        exact ⟨by simp only; omega, by simp, rfl⟩
      · intro _ ret result
        cases killed with
        | true => exact Or.inl rfl
        | false => cases result
    | cons b ready =>
      obtain ⟨rfl, dropped⟩ := rep.drop
      rw [if_neg (by rw [rep.empty_iff]; simp)]
      simp only
      split
      next eof =>
        split
        next delivered =>
          have back : { i.drop with r := i.drop.r - 1 } = i := by simp [Input.drop]
          rw [back]
          refine ⟨_, rep, ⟨[], rfl, rfl⟩, by simp, by simp, by simp, ?_⟩
          intro _ ret result
          cases result
          exact Or.inr ⟨rfl, by simp only; omega, Or.inr (Or.inr (Or.inl ⟨delivered, by simp [eof, EOF]⟩))⟩
        next fresh =>
          refine ⟨_, dropped, ⟨[i.next], rfl, by simp [eof, EOF]⟩, by simp, by simp, by simp, ?_⟩
          intro _ ret result
          cases result
          exact Or.inr ⟨rfl, by simp only; omega, Or.inr (Or.inr (Or.inr ⟨fresh, by simp [eof, EOF]⟩))⟩
      next text =>
        split
        next stop =>
          refine ⟨_, dropped, ⟨[i.next], rfl, by simp [EOF, text]⟩, by simp, by simp, by simp, ?_⟩
          intro _ ret result
          cases result
          exact Or.inr ⟨rfl, by simp, Or.inr (Or.inl (by simp [stop, NL]))⟩
        next inside =>
          obtain ⟨t', takes⟩ := ih dropped
          refine ⟨t', takes.cons (by omega) text inside ?_⟩
          intro none
          have zero : n = 0 := by omega
          subst zero
          simp [readLoop]

theorem consoleread_takes (target n : Int) (killed : Bool) {i : Input} {t : Tty} (rep : Rep i t) :
    ∃ t', (consoleread i target n killed).Takes target n killed t t' := by
  unfold consoleread
  split
  next some =>
    obtain ⟨t', takes⟩ := readLoop_takes target killed n.toNat rep
    rw [Int.toNat_of_nonneg (by omega)] at takes
    exact ⟨t', takes⟩
  next none => exact ⟨t, rep, ⟨[], rfl, rfl⟩, by simp, by simp, by simp, fun some => absurd some none⟩

end Readers

section Runs

variable {P : Type}

/-- The queue holds the committed bytes that have not been consumed, and those consumed have been
delivered except for ^D. A call in progress has not yet met a reason to end. -/
structure Sound (s : State P) : Prop where
  queue : ∃ t consumed, Rep s.input t ∧ s.committed = consumed ++ t.ready ∧
    s.taken.map Prod.snd = consumed.filter (· ≠ EOF)
  tags : ∀ byte ∈ s.taken, byte.1 < s.started
  ids : ∀ p call, s.call p = some call → call.id < s.started
  apart : ∀ p q a b, s.call p = some a → s.call q = some b → a.id = b.id → p = q
  left : ∀ p call, s.call p = some call → call.n = call.target - (s.delivered call.id).length
  goes : ∀ p call, s.call p = some call → 0 < call.target → 0 < call.n ∧ NL ∉ s.delivered call.id

section Delivered

variable (s : State P) (id other : Nat) (bytes : List UInt8)

theorem delivered_same :
    ((s.taken ++ bytes.map fun b => (id, b)).filter (fun byte => byte.1 = id)).map Prod.snd =
      s.delivered id ++ bytes := by
  have all : (bytes.map fun b => (id, b)).filter (fun byte => byte.1 = id) = bytes.map fun b => (id, b) :=
    List.filter_eq_self.mpr (by simp)
  rw [List.filter_append, List.map_append, all, List.map_map]
  simp [State.delivered, Function.comp_def]

theorem delivered_other (different : id ≠ other) :
    ((s.taken ++ bytes.map fun b => (id, b)).filter (fun byte => byte.1 = other)).map Prod.snd =
      s.delivered other := by
  have none : (bytes.map fun b => (id, b)).filter (fun byte => byte.1 = other) = [] :=
    List.filter_eq_nil_iff.mpr (by simp [different])
  rw [List.filter_append, none, List.append_nil]
  rfl

theorem delivered_fresh (unused : ∀ byte ∈ s.taken, byte.1 < id) : s.delivered id = [] := by
  have none : s.taken.filter (fun byte => byte.1 = id) = [] := by
    apply List.filter_eq_nil_iff.mpr
    intro byte member
    have := unused byte member
    simp only [decide_eq_true_eq]
    omega
  rw [State.delivered, none, List.map_nil]

end Delivered

variable [DecidableEq P]

omit [DecidableEq P] in
theorem Sound.intr {s : State P} (sound : Sound s) (cs : List Nat) (asleep : P → Bool) :
    Sound { s with
      input := (consoleintr s.input cs).input
      asleep := asleep
      committed := s.committed ++ (consoleintr s.input cs).committed } where
  queue := by
    obtain ⟨t, consumed, rep, committed, taken⟩ := sound.queue
    obtain ⟨typed, ready⟩ := rep.consoleintr cs
    exact ⟨_, consumed, typed, by simp only [committed, ready, List.append_assoc], taken⟩
  tags := sound.tags
  ids := sound.ids
  apart := sound.apart
  left := sound.left
  goes := sound.goes

theorem Sound.start {s : State P} (sound : Sound s) (p : P) (n : Int) :
    Sound { s with call := Function.update s.call p (some ⟨s.started, n, n⟩), started := s.started + 1 } := by
  have fresh : s.delivered s.started = [] := delivered_fresh s s.started sound.tags
  -- either the new call or one that was there before
  have calls (q : P) (call : Call)
      (active : Function.update s.call p (some ⟨s.started, n, n⟩) q = some call) :
      q = p ∧ call = ⟨s.started, n, n⟩ ∨ q ≠ p ∧ s.call q = some call := by
    by_cases same : q = p
    · subst same
      rw [Function.update_self, Option.some.injEq] at active
      exact Or.inl ⟨rfl, active.symm⟩
    · rw [Function.update_of_ne same] at active
      exact Or.inr ⟨same, active⟩
  constructor
  · exact sound.queue
  · intro byte member
    have := sound.tags byte member
    simp only
    omega
  · intro q call active
    simp only
    rcases calls q call active with ⟨-, rfl⟩ | ⟨-, old⟩
    · simp
    · have := sound.ids q call old
      omega
  · intro q q' a b first second same
    rcases calls q a first with ⟨rfl, rfl⟩ | ⟨-, old⟩
    · rcases calls q' b second with ⟨rfl, -⟩ | ⟨-, old'⟩
      · rfl
      · have := sound.ids q' b old'
        simp only at same
        omega
    · rcases calls q' b second with ⟨-, rfl⟩ | ⟨-, old'⟩
      · have := sound.ids q a old
        simp only at same
        omega
      · exact sound.apart q q' a b old old' same
  · intro q call active
    rcases calls q call active with ⟨-, rfl⟩ | ⟨-, old⟩
    · have none : (s.delivered s.started).length = 0 := by rw [fresh, List.length_nil]
      change n = n - ((s.delivered s.started).length : Int)
      omega
    · exact sound.left q call old
  · intro q call active positive
    rcases calls q call active with ⟨-, rfl⟩ | ⟨-, old⟩
    · refine ⟨positive, ?_⟩
      change NL ∉ s.delivered s.started
      simp [fresh]
    · exact sound.goes q call old positive

-- The state after a turn of `p`.
def State.after (s : State P) (p : P) (call : Call) : State P :=
  let t := s.turn p call
  { s with
    input := t.input
    call := Function.update s.call p (if t.result = none then some { call with n := t.n } else none)
    asleep := Function.update s.asleep p t.result.isNone
    taken := s.taken ++ t.bytes.map fun b => (call.id, b) }

theorem after_delivered (s : State P) (p : P) (call : Call) :
    (s.after p call).delivered call.id = s.delivered call.id ++ (s.turn p call).bytes :=
  delivered_same s call.id _

theorem Sound.turn {s : State P} (sound : Sound s) (p : P) (call : Call) (active : s.call p = some call) :
    Sound (s.after p call) := by
  obtain ⟨t, consumed, rep, committed, taken⟩ := sound.queue
  obtain ⟨t', takes⟩ := consoleread_takes call.target call.n (s.killed p) rep
  obtain ⟨gone, front, bytes⟩ := takes.took
  have calls (q : P) (other : Call) (still : (s.after p call).call q = some other) :
      q = p ∧ (s.turn p call).result = none ∧ other = { call with n := (s.turn p call).n } ∨
        q ≠ p ∧ s.call q = some other := by
    simp only [State.after] at still
    by_cases same : q = p
    · subst same
      rw [Function.update_self] at still
      split at still
      next sleeps => exact Or.inl ⟨rfl, sleeps, (Option.some.inj still).symm⟩
      next => cases still
    · rw [Function.update_of_ne same] at still
      exact Or.inr ⟨same, still⟩
  have elsewhere (q : P) (other : Call) (apart : q ≠ p) (old : s.call q = some other) :
      (s.after p call).delivered other.id = s.delivered other.id :=
    delivered_other s call.id other.id _ (fun same => apart (sound.apart q p other call old active same.symm))
  constructor
  · refine ⟨t', consumed ++ gone, takes.rep, ?_, ?_⟩
    · change s.committed = _
      rw [committed, front, List.append_assoc]
    · change (s.taken ++ (s.turn p call).bytes.map fun b => (call.id, b)).map Prod.snd = _
      have same : (s.turn p call).bytes = gone.filter (· ≠ EOF) := bytes
      rw [List.map_append, taken, List.map_map, List.filter_append, ← same]
      simp [Function.comp_def]
  · intro byte member
    change byte ∈ s.taken ++ (s.turn p call).bytes.map fun b => (call.id, b) at member
    rcases List.mem_append.mp member with old | new
    · exact sound.tags byte old
    · obtain ⟨b, -, rfl⟩ := List.mem_map.mp new
      exact sound.ids p call active
  · intro q other still
    rcases calls q other still with ⟨-, -, rfl⟩ | ⟨-, old⟩
    · exact sound.ids p call active
    · exact sound.ids q other old
  · intro q q' a b first second same
    rcases calls q a first with ⟨rfl, -, rfl⟩ | ⟨-, old⟩
    · rcases calls q' b second with ⟨rfl, -, -⟩ | ⟨-, old'⟩
      · rfl
      · exact sound.apart q q' call b active old' same
    · rcases calls q' b second with ⟨rfl, -, rfl⟩ | ⟨-, old'⟩
      · exact sound.apart q q' a call old active same
      · exact sound.apart q q' a b old old' same
  · intro q other still
    rcases calls q other still with ⟨-, -, rfl⟩ | ⟨apart, old⟩
    · have before := sound.left p call active
      have now : (s.turn p call).n = call.n - ((s.turn p call).bytes.length : Int) := takes.left
      simp only [after_delivered, List.length_append, Nat.cast_add]
      omega
    · rw [elsewhere q other apart old]
      exact sound.left q other old
  · intro q other still positive
    rcases calls q other still with ⟨-, sleeps, rfl⟩ | ⟨apart, old⟩
    · obtain ⟨some, no, -⟩ := takes.sleeps sleeps
      refine ⟨some, ?_⟩
      have before := (sound.goes p call active positive).2
      simp only [after_delivered, List.mem_append, not_or]
      exact ⟨before, no⟩
    · rw [elsewhere q other apart old]
      exact sound.goes q other old positive

theorem Sound.step {s s' : State P} (sound : Sound s) (a : Action P) (moved : step s a = some s') : Sound s' := by
  cases a with
  | consoleintr cs =>
    cases moved
    exact sound.intr cs _
  | consoleread p n =>
    simp only [Console.step] at moved
    split at moved
    next =>
      cases moved
      exact sound.start p n
    next => cases moved
  | run p =>
    simp only [Console.step] at moved
    split at moved
    next => cases moved
    next call active =>
      split at moved
      next => cases moved
      next =>
        cases moved
        exact sound.turn p call active
  | kill p =>
    cases moved
    exact ⟨sound.queue, sound.tags, sound.ids, sound.apart, sound.left, sound.goes⟩

omit [DecidableEq P] in
theorem Initial.sound {s : State P} (initial : Initial s) : Sound s where
  queue := by
    refine ⟨⟨[], []⟩, [], ⟨?_, ?_, by decide⟩, by simp [initial.committed], by simp [initial.taken]⟩
    · rw [initial.w]
      simp
    · apply List.eq_nil_of_length_eq_zero
      rw [RingBuf.contents_length]
      exact (RingBuf.count_eq_zero_iff _).mpr initial.e.symm
  tags := by simp [initial.taken]
  ids := by simp [initial.call]
  apart := by simp [initial.call]
  left := by simp [initial.call]
  goes := by simp [initial.call]

theorem Reachable.sound {s : State P} (reached : Reachable s) : Sound s := by
  obtain ⟨start, actions, initial, run⟩ := reached
  exact Run.exec_invariant step Sound (fun s a s' sound moved => sound.step a moved) start s actions
    initial.sound run

-- A reader sleeps, a line is typed with a correction, and the reader goes on, with the indices about to wrap.
def quiet : State Unit where
  input := ⟨fun _ => 0, 0xffffffff, 0xffffffff, 0xffffffff⟩
  call := fun _ => none
  asleep := fun _ => false
  killed := fun _ => false
  started := 0
  committed := []
  taken := []

def typed : List (Action Unit) := [.consoleread () 5, .run (), .consoleintr [104, 106, 8, 105, 10]]

end Runs

end Xv6.Console
