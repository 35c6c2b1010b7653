import Xv6.Lib.Pattern

set_option autoImplicit false

/-!
# The matcher of `grep`

`match`, `matchhere` and `matchstar` of `grep.c`. A string is the list of its characters before the
NUL, and a pointer into it is the rest of the list.
-/

namespace Xv6.Grep

open Pattern

mutual

def matchhere : List UInt8 → List UInt8 → Bool
  | [], _ => true
  | c :: re, text =>
    if re.head? = some '*'.toUInt8 then matchstar c re.tail text
    else if c = '$'.toUInt8 ∧ re = [] then text = []
    else
      match text with
      | [] => false
      | t :: text => if c = '.'.toUInt8 ∨ c = t then matchhere re text else false
termination_by re text => (re.length, text.length, 0)

def matchstar (c : UInt8) (re text : List UInt8) : Bool :=
  if matchhere re text then true
  else
    match text with
    | [] => false
    | t :: text => if t = c ∨ c = '.'.toUInt8 then matchstar c re text else false
termination_by (re.length, text.length, 1)

end

-- The loop of `match`, which also looks at the empty string.
def matchfrom (re : List UInt8) : List UInt8 → Bool
  | [] => matchhere re []
  | t :: text => if matchhere re (t :: text) then true else matchfrom re text

def match_ (re text : List UInt8) : Bool :=
  if re.head? = some '^'.toUInt8 then matchhere re.tail text else matchfrom re text

-- '.' is any character.
def accepts (c t : UInt8) : Bool := c = '.'.toUInt8 ∨ c = t

/-- The pattern read from left to right. -/
def items : List UInt8 → List (Item UInt8)
  | [] => []
  | [c] => if c = '$'.toUInt8 then [.stop] else [.one (accepts c)]
  | c :: d :: re => if d = '*'.toUInt8 then .many (accepts c) :: items re else .one (accepts c) :: items (d :: re)

theorem matchhere_cons (c : UInt8) (re text : List UInt8) :
    matchhere (c :: re) text =
      if re.head? = some '*'.toUInt8 then matchstar c re.tail text
      else if c = '$'.toUInt8 ∧ re = [] then decide (text = [])
      else
        match text with
        | [] => false
        | t :: text => if c = '.'.toUInt8 ∨ c = t then matchhere re text else false := by
  rw [matchhere.eq_def]

-- A star is tried at each length, as long as the characters allow.
theorem matchstar_iff (c : UInt8) {re : List UInt8} {rest : List (Item UInt8)}
    (here : ∀ text, matchhere re text = true ↔ Starts rest text) (text : List UInt8) :
    matchstar c re text = true ↔ Starts (.many (accepts c) :: rest) text := by
  induction text with
  | nil =>
    rw [matchstar, starts_many_nil, ← here]
    cases matchhere re [] <;> simp
  | cons t text ih =>
    rw [matchstar, starts_many_cons, ← here, ← ih]
    have same : (t = c ∨ c = '.'.toUInt8) ↔ accepts c t = true := by
      rw [accepts, decide_eq_true_iff, or_comm, @eq_comm _ t c]
    cases matchhere re (t :: text) with
    | true => simp
    | false => simp [same]

theorem matchhere_one {c : UInt8} {re : List UInt8} {rest : List (Item UInt8)}
    (here : ∀ text, matchhere re text = true ↔ Starts rest text) (noStar : re.head? ≠ some '*'.toUInt8)
    (noEnd : ¬ (c = '$'.toUInt8 ∧ re = [])) (text : List UInt8) :
    matchhere (c :: re) text = true ↔ Starts (.one (accepts c) :: rest) text := by
  rw [matchhere_cons, if_neg noStar, if_neg noEnd]
  cases text with
  | nil => simp [not_starts_one_nil]
  | cons t text =>
    rw [starts_one_cons, ← here, accepts, decide_eq_true_iff]
    simp

theorem matchhere_iff (re text : List UInt8) : matchhere re text = true ↔ Starts (items re) text := by
  induction re using items.induct generalizing text with
  | case1 =>
    rw [matchhere, items]
    exact iff_of_true rfl (starts_nil text)
  | case2 =>
    rw [items, if_pos rfl, starts_stop, matchhere_cons, if_neg (by simp), if_pos ⟨rfl, rfl⟩, decide_eq_true_iff]
  | case3 c other =>
    rw [items, if_neg other]
    refine matchhere_one (fun text => ?_) (by simp) (fun ended => other ended.1) text
    rw [matchhere]
    exact iff_of_true rfl (starts_nil text)
  | case4 c re ih =>
    rw [items, if_pos rfl, matchhere_cons, if_pos List.head?_cons]
    exact matchstar_iff c ih text
  | case5 c d re other ih =>
    rw [items, if_neg other]
    exact matchhere_one ih (by simpa using other) (by simp) text

theorem matchfrom_iff (re text : List UInt8) :
    matchfrom re text = true ↔ ∃ before behind, text = before ++ behind ∧ Starts (items re) behind := by
  induction text with
  | nil =>
    rw [matchfrom, matchhere_iff]
    constructor
    · exact fun starts => ⟨[], [], rfl, starts⟩
    · rintro ⟨before, behind, split, starts⟩
      rwa [(List.append_eq_nil_iff.mp split.symm).2] at starts
  | cons t text ih =>
    rw [matchfrom]
    constructor
    · intro found
      split at found
      next starts => exact ⟨[], t :: text, rfl, (matchhere_iff re _).mp starts⟩
      next =>
        obtain ⟨before, behind, rfl, starts⟩ := ih.mp found
        exact ⟨t :: before, behind, rfl, starts⟩
    · rintro ⟨before, behind, split, starts⟩
      cases before with
      | nil =>
        rw [if_pos]
        rw [matchhere_iff, split]
        exact starts
      | cons u before =>
        have later := ih.mpr ⟨before, behind, (List.cons.inj split).2, starts⟩
        rw [later, ite_self]

-- The pattern without the leading '^'.
def body (re : List UInt8) : List UInt8 := if re.head? = some '^'.toUInt8 then re.tail else re

/-- `match` finds the pattern exactly if the items derive a part of the text, which starts at the beginning if
the pattern starts with '^' and reaches the end where the items say so. -/
theorem match_correct (re text : List UInt8) :
    match_ re text = true ↔
      ∃ before sub after, text = before ++ sub ++ after ∧ (re.head? = some '^'.toUInt8 → before = []) ∧
        Derives (items (body re)) sub after := by
  by_cases anchored : re.head? = some '^'.toUInt8
  · rw [match_, if_pos anchored, matchhere_iff, body, if_pos anchored]
    constructor
    · rintro ⟨sub, after, split, derived⟩
      exact ⟨[], sub, after, split, fun _ => rfl, derived⟩
    · rintro ⟨before, sub, after, split, start, derived⟩
      rw [start anchored] at split
      exact ⟨sub, after, split, derived⟩
  · rw [match_, if_neg anchored, matchfrom_iff, body, if_neg anchored]
    constructor
    · rintro ⟨before, behind, rfl, sub, after, rfl, derived⟩
      exact ⟨before, sub, after, (List.append_assoc ..).symm, fun start => absurd start anchored, derived⟩
    · rintro ⟨before, sub, after, rfl, -, derived⟩
      exact ⟨before, sub ++ after, List.append_assoc .., sub, after, rfl, derived⟩

end Xv6.Grep
