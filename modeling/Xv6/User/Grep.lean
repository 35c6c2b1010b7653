import Xv6.Lib.Lines
import Xv6.User.Match

set_option autoImplicit false

/-!
# The lines that `grep` writes

The loops of `grep` over its buffer. A pointer into the buffer is its offset. The chunks that `read`
delivers are an input; the end of the list is the end of the file.
-/

namespace Xv6.Grep

abbrev BUF : Nat := 1024

abbrev newline : UInt8 := 10

-- `strchr`, as the offset of the character.
def strchr (c : UInt8) : List UInt8 → Option Nat
  | [] => none
  | b :: s => if b = 0 then none else if b = c then some 0 else (strchr c s).map (· + 1)

def cstring (s : List UInt8) : List UInt8 := s.takeWhile (· ≠ 0)

-- `n` bytes from the offset `m` on are replaced.
def overwrite (buf : List UInt8) (m : Nat) (bytes : List UInt8) : List UInt8 :=
  buf.take m ++ bytes ++ buf.drop (m + bytes.length)

theorem strchr_lt {c : UInt8} {s : List UInt8} {k : Nat} (found : strchr c s = some k) : k < s.length := by
  induction s generalizing k with
  | nil => cases found
  | cons b s ih =>
    rw [strchr] at found
    split_ifs at found with ended here
    · cases found
      exact Nat.succ_pos _
    · obtain ⟨j, later, rfl⟩ := Option.map_eq_some_iff.mp found
      exact Nat.succ_lt_succ (ih later)

-- The inner loop from `p` on: what is written, the buffer, and `p` at the end.
def scanLines (pattern buf : List UInt8) (p : Nat) : List (List UInt8) × List UInt8 × Nat :=
  match h : strchr newline (buf.drop p) with
  | none => ([], buf, p)
  | some k =>
    let q := p + k
    let cut := buf.set q 0
    if match_ pattern (cstring (cut.drop p)) then
      let back := cut.set q newline
      let rest := scanLines pattern back (q + 1)
      ((back.drop p).take (q + 1 - p) :: rest.1, rest.2)
    else scanLines pattern cut (q + 1)
termination_by buf.length - p
decreasing_by
  all_goals
    have inside := strchr_lt h
    rw [List.length_drop] at inside
    simp only [List.length_set]
    omega

-- One round of the outer loop: what is written, the buffer, and `m`.
def round (pattern buf : List UInt8) (m : Nat) (chunk : List UInt8) : List (List UInt8) × List UInt8 × Nat :=
  let buf := overwrite buf m chunk
  let m := m + chunk.length
  let buf := buf.set m 0
  let (writes, buf, p) := scanLines pattern buf 0
  let m := if p = 0 then 0 else m
  if m > 0 then
    let m := m - p
    (writes, overwrite buf 0 ((buf.drop p).take m), m)
  else (writes, buf, m)

def grepFrom (pattern : List UInt8) : List UInt8 → Nat → List (List UInt8) → List (List UInt8)
  | _, _, [] => []
  | buf, m, chunk :: chunks =>
    let r := round pattern buf m chunk
    r.1 ++ grepFrom pattern r.2.1 r.2.2 chunks

def grep (pattern buf : List UInt8) (chunks : List (List UInt8)) : List (List UInt8) := grepFrom pattern buf 0 chunks

/-- `read` may deliver the chunks: none of them is empty or longer than requested. -/
def Delivers (pattern : List UInt8) : List UInt8 → Nat → List (List UInt8) → Prop
  | _, _, [] => True
  | buf, m, chunk :: chunks =>
    (chunk ≠ [] ∧ chunk.length ≤ BUF - m - 1) ∧
      Delivers pattern (round pattern buf m chunk).2.1 (round pattern buf m chunk).2.2 chunks

/-- The lines that match, each with its newline. -/
def matching (pattern text : List UInt8) : List (List UInt8) :=
  ((Lines.bodies newline text).filter (match_ pattern)).map fun line => line ++ [newline]

section Scan

variable {pattern buf a text front junk : List UInt8} {p k : Nat} {c : UInt8}

theorem strchr_open (absent : c ∉ a) (clean : 0 ∉ a) (junk : List UInt8) : strchr c (a ++ 0 :: junk) = none := by
  induction a with
  | nil => rw [List.nil_append, strchr, if_pos rfl]
  | cons b a ih =>
    rw [List.mem_cons, not_or] at absent clean
    rw [List.cons_append, strchr, if_neg (Ne.symm clean.1), if_neg (Ne.symm absent.1), ih absent.2 clean.2]
    rfl

theorem strchr_line (absent : c ∉ a) (clean : 0 ∉ a) (visible : c ≠ 0) (text : List UInt8) :
    strchr c (a ++ c :: text) = some a.length := by
  induction a with
  | nil => rw [List.nil_append, strchr, if_neg visible, if_pos rfl, List.length_nil]
  | cons b a ih =>
    rw [List.mem_cons, not_or] at absent clean
    rw [List.cons_append, strchr, if_neg (Ne.symm clean.1), if_neg (Ne.symm absent.1), ih absent.2 clean.2]
    rfl

theorem cstring_append (clean : 0 ∉ a) (junk : List UInt8) : cstring (a ++ 0 :: junk) = a := by
  rw [cstring, List.takeWhile_append_of_pos]
  · simp
  · intro b member
    have visible : b ≠ 0 := fun zero => clean (zero ▸ member)
    simpa using visible

theorem scanLines_none (none_ : strchr newline (buf.drop p) = none) : scanLines pattern buf p = ([], buf, p) := by
  rw [scanLines]
  split
  · rfl
  next found => cases none_.symm.trans found

theorem scanLines_some (found : strchr newline (buf.drop p) = some k) :
    scanLines pattern buf p =
      if match_ pattern (cstring ((buf.set (p + k) 0).drop p)) then
        let back := (buf.set (p + k) 0).set (p + k) newline
        let rest := scanLines pattern back (p + k + 1)
        ((back.drop p).take (p + k + 1 - p) :: rest.1, rest.2)
      else scanLines pattern (buf.set (p + k) 0) (p + k + 1) := by
  rw [scanLines]
  split
  next none_ => cases none_.symm.trans found
  next other =>
    cases found.symm.trans other
    rfl

theorem matching_open (unfinished : newline ∉ a) : matching pattern a = [] := by
  rw [matching, Lines.bodies_open unfinished]
  rfl

theorem matching_line (unfinished : newline ∉ a) (text : List UInt8) :
    matching pattern (a ++ newline :: text) =
      if match_ pattern a then (a ++ [newline]) :: matching pattern text else matching pattern text := by
  rw [matching, matching, Lines.bodies_line unfinished, List.filter_cons]
  split <;> rfl

theorem set_end (front a rest : List UInt8) (b c : UInt8) :
    (front ++ (a ++ b :: rest)).set (front.length + a.length) c = front ++ (a ++ c :: rest) := by
  rw [List.set_append_right _ _ (Nat.le_add_right ..), Nat.add_sub_cancel_left,
    List.set_append_right _ _ (Nat.le_refl _), Nat.sub_self, List.set_cons_zero]

theorem scanLines_spec (pattern : List UInt8) (clean : 0 ∉ text) (front junk : List UInt8) :
    ∃ front', front'.length + (Lines.tail newline text).length = front.length + text.length ∧
      scanLines pattern (front ++ (text ++ 0 :: junk)) front.length =
        (matching pattern text, front' ++ (Lines.tail newline text ++ 0 :: junk), front'.length) := by
  induction text using Lines.line_induction newline generalizing front with
  | unfinished a absent =>
    rw [Lines.tail_open absent, matching_open absent]
    refine ⟨front, rfl, scanLines_none ?_⟩
    rw [List.drop_left, strchr_open absent clean]
  | line a text absent ih =>
    simp only [List.mem_append, List.mem_cons, not_or] at clean
    obtain ⟨cleanLine, -, cleanText⟩ := clean
    have found : strchr newline ((front ++ (a ++ newline :: text ++ 0 :: junk)).drop front.length) = some a.length := by
      rw [List.drop_left, List.append_assoc]
      exact strchr_line absent cleanLine (by decide) _
    rw [scanLines_some found, matching_line absent, Lines.tail_line]
    rw [List.append_assoc, List.cons_append]
    simp only [set_end, List.drop_left, cstring_append cleanLine]
    by_cases hit : match_ pattern a = true
    · obtain ⟨front', count, later⟩ := ih cleanText (front ++ (a ++ [newline]))
      simp only [List.length_append, List.length_cons, List.length_nil, List.append_assoc, List.cons_append,
        List.nil_append] at count later ⊢
      refine ⟨front', by omega, ?_⟩
      have line : (a ++ newline :: (text ++ 0 :: junk)).take (front.length + a.length + 1 - front.length) =
          a ++ [newline] := by
        rw [List.take_append, List.take_of_length_le (by omega)]
        have one : front.length + a.length + 1 - front.length - a.length = 1 := by omega
        rw [one]
        rfl
      rw [if_pos hit, if_pos hit, line, Nat.add_assoc, later]
    · obtain ⟨front', count, later⟩ := ih cleanText (front ++ (a ++ [0]))
      simp only [List.length_append, List.length_cons, List.length_nil, List.append_assoc, List.cons_append,
        List.nil_append] at count later ⊢
      refine ⟨front', by omega, ?_⟩
      rw [if_neg hit, if_neg hit, Nat.add_assoc, later]

end Scan

section Rounds

variable {pattern buf held chunk : List UInt8} {chunks : List (List UInt8)}

/-- What a round keeps of the bytes in the buffer: without a newline it starts again. -/
def keep (text : List UInt8) : List UInt8 := if newline ∈ text then Lines.tail newline text else []

/-- The buffer starts with these bytes. -/
def Holds (buf held : List UInt8) : Prop := buf.length = BUF ∧ ∃ junk, buf = held ++ junk

theorem overwrite_held (held junk bytes : List UInt8) :
    overwrite (held ++ junk) held.length bytes = held ++ bytes ++ junk.drop bytes.length := by
  rw [overwrite, List.take_left, ← List.drop_drop, List.drop_left]

theorem round_spec (pattern : List UInt8) (holds : Holds buf held) (some_ : chunk ≠ [])
    (room : chunk.length ≤ BUF - held.length - 1) (clean : 0 ∉ held ++ chunk) :
    ∃ buf', round pattern buf held.length chunk =
        (matching pattern (held ++ chunk), buf', (keep (held ++ chunk)).length) ∧ Holds buf' (keep (held ++ chunk)) := by
  obtain ⟨size, junk, rfl⟩ := holds
  have length := List.length_pos_iff.mpr some_
  rw [List.length_append] at size
  -- The NUL behind the chunk still is in the buffer.
  obtain ⟨x, junk', split⟩ : ∃ x junk', junk.drop chunk.length = x :: junk' := by
    apply List.exists_cons_of_length_pos
    rw [List.length_drop]
    omega
  have filled : (overwrite (held ++ junk) held.length chunk).set (held.length + chunk.length) 0 =
      held ++ chunk ++ 0 :: junk' := by
    have stored := set_end [] (held ++ chunk) junk' x 0
    rw [List.nil_append, List.nil_append, List.length_nil, Nat.zero_add] at stored
    rw [overwrite_held, split, ← List.length_append, stored]
  have rest : junk'.length + 1 + held.length + chunk.length = BUF := by
    have tail := congrArg List.length split
    rw [List.length_drop, List.length_cons] at tail
    omega
  obtain ⟨front', count, scanned⟩ := scanLines_spec pattern clean [] junk'
  simp only [List.nil_append, List.length_nil, Nat.zero_add, List.length_append] at count scanned
  rw [round]
  simp only [filled, scanned, keep]
  by_cases more : newline ∈ held ++ chunk
  · have shorter := Lines.length_tail_lt more
    rw [List.length_append] at shorter
    have moved : front'.length ≠ 0 := by omega
    have left : held.length + chunk.length - front'.length = (Lines.tail newline (held ++ chunk)).length := by omega
    rw [if_neg moved, if_pos (by omega), if_pos more, left, List.drop_left, List.take_left]
    refine ⟨_, rfl, ?_, _, List.append_assoc [] _ _⟩
    simp only [overwrite, List.length_append, List.length_take, List.length_drop, List.length_cons]
    omega
  · rw [Lines.tail_open more, List.length_append] at count
    have start : front'.length = 0 := by omega
    rw [if_pos start, if_neg (Nat.lt_irrefl 0), if_neg more]
    refine ⟨_, rfl, ?_, _, rfl⟩
    rw [Lines.tail_open more]
    simp only [List.length_append, List.length_cons]
    omega

-- `Delivers` without the buffer.
def Fits : List UInt8 → List (List UInt8) → Prop
  | _, [] => True
  | held, chunk :: chunks =>
    (chunk ≠ [] ∧ chunk.length ≤ BUF - held.length - 1) ∧ Fits (keep (held ++ chunk)) chunks

-- What is written, without the buffer.
def writesFrom (pattern : List UInt8) : List UInt8 → List (List UInt8) → List (List UInt8)
  | _, [] => []
  | held, chunk :: chunks => matching pattern (held ++ chunk) ++ writesFrom pattern (keep (held ++ chunk)) chunks

theorem keep_subset (text : List UInt8) : keep text ⊆ text := by
  rw [keep]
  split
  · exact Lines.tail_subset text
  · exact List.nil_subset text

theorem clean_keep (clean : 0 ∉ held ++ (chunk :: chunks).flatten) :
    0 ∉ held ++ chunk ∧ 0 ∉ keep (held ++ chunk) ++ chunks.flatten := by
  rw [List.flatten_cons, ← List.append_assoc, List.mem_append, not_or] at clean
  refine ⟨clean.1, ?_⟩
  rw [List.mem_append, not_or]
  exact ⟨fun zero => clean.1 (keep_subset _ zero), clean.2⟩

theorem delivers_iff (pattern : List UInt8) (holds : Holds buf held) (clean : 0 ∉ held ++ chunks.flatten) :
    Delivers pattern buf held.length chunks ↔ Fits held chunks := by
  induction chunks generalizing buf held with
  | nil => exact Iff.rfl
  | cons chunk chunks ih =>
    obtain ⟨here, later⟩ := clean_keep clean
    rw [Delivers, Fits]
    refine and_congr_right fun ⟨some_, room⟩ => ?_
    obtain ⟨buf', run, holds'⟩ := round_spec pattern holds some_ room here
    rw [run]
    exact ih holds' later

theorem grepFrom_eq (pattern : List UInt8) (holds : Holds buf held) (clean : 0 ∉ held ++ chunks.flatten)
    (fits : Fits held chunks) : grepFrom pattern buf held.length chunks = writesFrom pattern held chunks := by
  induction chunks generalizing buf held with
  | nil => rfl
  | cons chunk chunks ih =>
    obtain ⟨here, later⟩ := clean_keep clean
    obtain ⟨⟨some_, room⟩, fits⟩ := fits
    obtain ⟨buf', run, holds'⟩ := round_spec pattern holds some_ room here
    rw [grepFrom, run, writesFrom, ih holds' later fits]

end Rounds

section Streams

variable {held : List UInt8} {chunks : List (List UInt8)}

/-- Behind a chunk without a newline no newline comes. -/
def Prompt : List (List UInt8) → Prop
  | [] => True
  | chunk :: chunks => (newline ∉ chunk → newline ∉ chunks.flatten) ∧ Prompt chunks

theorem matching_append (pattern s t : List UInt8) :
    matching pattern (s ++ t) = matching pattern s ++ matching pattern (Lines.tail newline s ++ t) := by
  rw [matching, Lines.bodies_append, List.filter_append, List.map_append]
  rfl

theorem writesFrom_prompt (pattern : List UInt8) (unfinished : newline ∉ held) (prompt : Prompt chunks) :
    writesFrom pattern held chunks = matching pattern (held ++ chunks.flatten) := by
  induction chunks generalizing held with
  | nil =>
    rw [writesFrom, List.flatten_nil, List.append_nil, matching_open unfinished]
  | cons chunk chunks ih =>
    obtain ⟨last, prompt⟩ := prompt
    rw [writesFrom, keep, List.flatten_cons, ← List.append_assoc]
    by_cases more : newline ∈ held ++ chunk
    · rw [if_pos more, ih (Lines.not_mem_tail _) prompt, matching_append pattern (held ++ chunk)]
    -- The beginning of the line is lost, but the line does not end.
    · have final : newline ∉ chunks.flatten := last fun member => more (List.mem_append_right _ member)
      have whole : newline ∉ held ++ chunk ++ chunks.flatten := by
        rw [List.mem_append, not_or]
        exact ⟨more, final⟩
      rw [if_neg more, ih List.not_mem_nil prompt, matching_open more, matching_open whole, List.nil_append,
        List.nil_append, matching_open final]

theorem match_nil (text : List UInt8) : match_ [] text = true := by
  cases text <;> simp [match_, matchfrom, matchhere]

theorem length_matching_nil (text : List UInt8) :
    (matching [] text).flatten.length + (Lines.tail newline text).length = text.length := by
  have all : (Lines.bodies newline text).filter (match_ []) = Lines.bodies newline text :=
    List.filter_eq_self.mpr fun line _ => match_nil line
  rw [matching, all]
  exact Lines.length_bodies text

theorem length_writesFrom (fits : Fits held chunks) (unfinished : newline ∉ held) :
    (writesFrom [] held chunks).flatten.length ≤ (matching [] (held ++ chunks.flatten)).flatten.length ∧
      ((matching [] (held ++ chunks.flatten)).flatten.length ≤ (writesFrom [] held chunks).flatten.length →
        Prompt chunks) := by
  induction chunks generalizing held with
  | nil => exact ⟨Nat.zero_le _, fun _ => trivial⟩
  | cons chunk chunks ih =>
    obtain ⟨⟨some_, -⟩, fits⟩ := fits
    have length := List.length_pos_iff.mpr some_
    rw [writesFrom, List.flatten_cons, ← List.append_assoc, List.flatten_append, List.length_append, Prompt]
    rw [keep] at fits ⊢
    by_cases more : newline ∈ held ++ chunk
    · rw [if_pos more] at fits ⊢
      have later := ih fits (Lines.not_mem_tail _)
      rw [matching_append [] (held ++ chunk) chunks.flatten, List.flatten_append, List.length_append]
      have here : newline ∈ chunk := (List.mem_append.mp more).resolve_left unfinished
      exact ⟨by omega, fun enough => ⟨fun absent => absurd here absent, later.2 (by omega)⟩⟩
    · rw [if_neg more] at fits ⊢
      have later := ih fits List.not_mem_nil
      rw [List.nil_append] at later
      rw [matching_open more]
      have whole := length_matching_nil (held ++ chunk ++ chunks.flatten)
      have rest := length_matching_nil chunks.flatten
      rw [List.length_append, List.length_append] at whole
      by_cases final : newline ∈ chunks.flatten
      · rw [Lines.tail_append _ final] at whole
        simp only [List.flatten_nil, List.length_nil]
        omega
      · rw [matching_open final] at later
        have none_ : newline ∉ held ++ chunk ++ chunks.flatten := by
          rw [List.mem_append, not_or]
          exact ⟨more, final⟩
        rw [matching_open none_]
        exact ⟨by simpa using later.1, fun _ => ⟨fun _ => final, later.2 (Nat.zero_le _)⟩⟩

/-- `grep` is right for every pattern exactly if no newline comes behind a chunk without one. -/
theorem grep_exact_iff (buf : List UInt8) (size : buf.length = BUF) (chunks : List (List UInt8))
    (clean : 0 ∉ chunks.flatten) (delivered : ∀ pattern, Delivers pattern buf 0 chunks) :
    (∀ pattern, grep pattern buf chunks = matching pattern chunks.flatten) ↔ Prompt chunks := by
  have holds : Holds buf [] := ⟨size, buf, rfl⟩
  have fits : Fits [] chunks := (delivers_iff [] holds clean).mp (delivered [])
  have run : ∀ pattern, grep pattern buf chunks = writesFrom pattern [] chunks :=
    fun pattern => grepFrom_eq pattern holds clean fits
  constructor
  · intro exact_
    have bound := (length_writesFrom fits List.not_mem_nil).2
    rw [List.nil_append, ← exact_ [], run] at bound
    exact bound (Nat.le_refl _)
  · intro prompt pattern
    rw [run, writesFrom_prompt pattern List.not_mem_nil prompt, List.nil_append]

-- The buffer is zero before the first file is read.
def zeroed : List UInt8 := List.replicate BUF 0

theorem zeroed_delivers {chunks : List (List UInt8)} (clean : 0 ∉ chunks.flatten) (fits : Fits [] chunks)
    (pattern : List UInt8) : Delivers pattern zeroed 0 chunks :=
  (delivers_iff pattern ⟨List.length_replicate, zeroed, rfl⟩ clean).mpr fits

-- "ab\n" and "c\n" at once, then "d" without a newline.
theorem grep_exact_iff_prompt : Prompt [[97, 98, 10, 99, 10], [100]] ∧
    grep [98] zeroed [[97, 98, 10, 99, 10], [100]] = matching [98] [97, 98, 10, 99, 10, 100] := by
  have fits : Fits [] [[97, 98, 10, 99, 10], [100]] := ⟨by decide, by decide, trivial⟩
  have clean : (0 : UInt8) ∉ [[97, 98, 10, 99, 10], [100]].flatten := by decide
  have prompt : Prompt [[97, 98, 10, 99, 10], [100]] := ⟨by decide, by decide, trivial⟩
  exact ⟨prompt, (grep_exact_iff zeroed List.length_replicate _ clean (zeroed_delivers clean fits)).mpr prompt [98]⟩

theorem matchhere_a (t : UInt8) (text : List UInt8) : matchhere [97] (t :: text) = decide (t = 97) := by
  have dot : ¬ (97 : UInt8) = '.'.toUInt8 := by decide
  have dollar : ¬ ((97 : UInt8) = '$'.toUInt8 ∧ ([] : List UInt8) = []) := by decide
  rw [matchhere_cons, if_neg (by simp), if_neg dollar]
  by_cases same : t = 97
  · simp [same, matchhere]
  · simp [same, dot, Ne.symm same]

-- The line "ab\n", read as "a" and "b\n", has an 'a' and is not written.
theorem grep_loses_beginning : (∀ pattern, Delivers pattern zeroed 0 [[97], [98, 10]]) ∧
    grep [97] zeroed [[97], [98, 10]] = [] ∧ matching [97] [97, 98, 10] = [[97, 98, 10]] := by
  have fits : Fits [] [[97], [98, 10]] := ⟨by decide, by decide, trivial⟩
  have clean : (0 : UInt8) ∉ [] ++ [[97], [98, 10]].flatten := by decide
  have holds : Holds zeroed [] := ⟨List.length_replicate, zeroed, rfl⟩
  have start : ¬ (97 : UInt8) = '^'.toUInt8 := by decide
  have ending : matchhere [97] [] = false := by
    rw [matchhere_cons]
    decide
  have whole : match_ [97] [97, 98] = true := by simp [match_, start, matchfrom, matchhere_a]
  have rest : match_ [97] [98] = false := by simp [match_, start, matchfrom, matchhere_a, ending]
  have first : Lines.bodies newline [97] = [] := by decide
  have second : Lines.bodies newline [98, 10] = [[98]] := by decide
  have both : Lines.bodies newline [97, 98, 10] = [[97, 98]] := by decide
  have lost : keep [97] = [] := by decide
  refine ⟨zeroed_delivers clean fits, ?_, ?_⟩
  · refine (grepFrom_eq [97] holds clean fits).trans ?_
    simp [writesFrom, matching, lost, first, second, rest]
  · simp [matching, both, whole]

end Streams

end Xv6.Grep
