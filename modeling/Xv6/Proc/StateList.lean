import Xv6.Lib.LinkQueue
import Xv6.Proc.Table

set_option autoImplicit false

/-!
# The state lists

`stateListAdd` and `stateListRemove` on the six lists of `ptable.pLists`, which are linked through the
processes. A result of `none` is a call that follows a null pointer or never returns.
-/

namespace Xv6.StateList

open Ptable LinkQueue

inductive ListName where
  | ready
  | free
  | sleep
  | zombie
  | running
  | embryo
deriving DecidableEq

structure Links where
  head : ListName → Option Slot
  tail : ListName → Option Slot
  -- `p->next`
  next : Slot → Option Slot

def stateListAdd (s : Links) (l : ListName) (p : Slot) : Option (Int × Links) :=
  match s.head l, s.tail l with
  | none, _ =>
    some (0,
      { head := Function.update s.head l (some p)
        tail := Function.update s.tail l (some p)
        next := Function.update s.next p none })
  | some _, some q =>
    some (0,
      { s with
        tail := Function.update s.tail l (some p)
        next := Function.update (Function.update s.next q (some p)) p none })
  | some _, none => none

-- The loop of `stateListRemove`: the values of `previous` and `current` behind it. More rounds than there
-- are processes mean that the links run in a circle.
def walk (next : Slot → Option Slot) (p : Slot) : Nat → Option Slot → Option Slot → Option (Option Slot × Option Slot)
  | 0, _, _ => none
  | _ + 1, previous, none => some (previous, none)
  | rounds + 1, previous, some current =>
    if current = p then some (previous, some current) else walk next p rounds (some current) (next current)

def stateListRemove (s : Links) (l : ListName) (p : Option Slot) : Option (Int × Links) :=
  match s.head l, s.tail l, p with
  | some head, some tail, some p =>
    if head = p then some (0, { s with head := Function.update s.head l (s.next head) })
    else
      match walk s.next p (NPROC + 1) none (some head) with
      | some (_, none) => some (-1, s)
      | some (some previous, some current) =>
        if current = tail then
          some (0,
            { s with
              tail := Function.update s.tail l (some previous)
              next := Function.update (Function.update s.next previous none) p none })
        else
          some (0,
            { s with next := Function.update (Function.update s.next previous (s.next current)) p none })
      | _ => none
  | _, _, _ => some (-1, s)

-- The links of the processes are left as they are.
def initProcessLists (next : Slot → Option Slot) : Links where
  head := fun _ => none
  tail := fun _ => none
  next := next

-- The lock that the function asks for is held.
def initFreeList (s : Links) : Option Links :=
  (List.finRange NPROC).foldlM (fun s p => (stateListAdd s .free p).map Prod.snd) s

section Specification

/-- The processes of each list, from its head to its tail. -/
abbrev Members : Type := ListName → List Slot

/-- The links are those of the lists. -/
structure WellFormed (s : Links) (m : Members) : Prop where
  empty : ∀ l, s.head l = none ↔ s.tail l = none
  -- Following `next` from the head visits the members and comes to a null pointer.
  chain : ∀ l, Chain s.next (s.head l) (m l)
  last : ∀ l, s.tail l = (m l).getLast?
  ended : ∀ l q, s.tail l = some q → s.next q = none
  distinct : ∀ l, (m l).Nodup
  apart : ∀ l l' p, p ∈ m l → p ∈ m l' → l = l'

inductive Op where
  | add (l : ListName) (p : Slot)
  | remove (l : ListName) (p : Option Slot)

def run (s : Links) : Op → Option (Int × Links)
  | .add l p => stateListAdd s l p
  | .remove l p => stateListRemove s l p

def Members.after (m : Members) : Op → Members
  | .add l p => Function.update m l (m l ++ [p])
  | .remove l (some p) => Function.update m l ((m l).erase p)
  | .remove _ none => m

def Does (s : Links) (m : Members) (op : Op) (ret : Int) (s' : Links) : Prop :=
  WellFormed s' (m.after op) ∧
    match op with
    | .add _ _ => ret = 0
    | .remove l (some p) => if p ∈ m l then ret = 0 ∧ s'.next p = none else ret = -1 ∧ s' = s
    | .remove _ none => ret = -1 ∧ s' = s

-- A process that is added is in no list.
def Fresh (m : Members) : Op → Prop
  | .add _ p => ∀ l, p ∉ m l
  | .remove _ _ => True

def RemovesFirst (m : Members) : Op → Prop
  | .add _ _ => False
  | .remove l p => ∃ q, p = some q ∧ (m l).head? = some q

/-- Each call of the sequence does what it should. -/
def AllDo : Links → Members → List Op → Prop
  | _, _, [] => True
  | s, m, op :: ops => ∃ ret s', run s op = some (ret, s') ∧ Does s m op ret s' ∧ AllDo s' (m.after op) ops

def AllFresh : Members → List Op → Prop
  | _, [] => True
  | m, op :: ops => Fresh m op ∧ AllFresh (m.after op) ops

def NoneFirst : Members → List Op → Prop
  | _, [] => True
  | m, op :: ops => ¬ RemovesFirst m op ∧ NoneFirst (m.after op) ops

end Specification

section Steps

variable {s : Links} {m : Members} {l : ListName} {p : Slot}

theorem chain_head {next : Slot → Option Slot} {start : Option Slot} {members : List Slot}
    (chain : Chain next start members) : start = members.head? := by
  cases members with
  | nil => exact chain
  | cons a rest => exact chain.1

theorem wellFormed_of (chain : ∀ l, Chain s.next (s.head l) (m l)) (last : ∀ l, s.tail l = (m l).getLast?)
    (distinct : ∀ l, (m l).Nodup) (apart : ∀ l l' p, p ∈ m l → p ∈ m l' → l = l') : WellFormed s m where
  empty l := by rw [chain_head (chain l), last l, List.head?_eq_none_iff, List.getLast?_eq_none_iff]
  chain := chain
  last := last
  ended l q end_ := chain_getLast (chain l) ((last l).symm.trans end_)
  distinct := distinct
  apart := apart

theorem wellFormed_init (next : Slot → Option Slot) : WellFormed (initProcessLists next) fun _ => [] :=
  wellFormed_of (fun _ => rfl) (fun _ => rfl) (fun _ => List.nodup_nil) (fun _ _ _ member => nomatch member)

theorem WellFormed.replace {s' : Links} (formed : WellFormed s m) (members : List Slot)
    (chain : Chain s'.next (s'.head l) members) (last : s'.tail l = members.getLast?) (distinct : members.Nodup)
    (others : ∀ l', l' ≠ l → s'.head l' = s.head l' ∧ s'.tail l' = s.tail l' ∧
      ∀ q ∈ m l', s'.next q = s.next q ∧ q ∉ members) : WellFormed s' (Function.update m l members) := by
  refine wellFormed_of (fun l' => ?_) (fun l' => ?_) (fun l' => ?_) (fun l' l'' q member member' => ?_)
  · by_cases same : l' = l
    · subst same
      rw [Function.update_self]
      exact chain
    · obtain ⟨head, -, links⟩ := others l' same
      rw [Function.update_of_ne same, head]
      exact chain_congr (formed.chain l') fun q member => (links q member).1
  · by_cases same : l' = l
    · subst same
      rw [Function.update_self]
      exact last
    · rw [Function.update_of_ne same, (others l' same).2.1]
      exact formed.last l'
  · by_cases same : l' = l
    · subst same
      rw [Function.update_self]
      exact distinct
    · rw [Function.update_of_ne same]
      exact formed.distinct l'
  · by_cases same : l' = l
    · by_cases same' : l'' = l
      · rw [same, same']
      · rw [same, Function.update_self] at member
        rw [Function.update_of_ne same'] at member'
        exact absurd member ((others l'' same').2.2 q member').2
    · rw [Function.update_of_ne same] at member
      by_cases same' : l'' = l
      · rw [same', Function.update_self] at member'
        exact absurd member' ((others l' same).2.2 q member).2
      · rw [Function.update_of_ne same'] at member'
        exact formed.apart l' l'' q member member'

theorem stateListAdd_does (l : ListName) (formed : WellFormed s m) (fresh : ∀ l, p ∉ m l) :
    ∃ s', stateListAdd s l p = some (0, s') ∧ WellFormed s' (m.after (.add l p)) := by
  have apart {l' : ListName} (other : l' ≠ l) {q : Slot} (member : q ∈ m l') : q ≠ p ∧ q ∉ m l ++ [p] := by
    have notNew : q ≠ p := fun same => fresh l' (same ▸ member)
    refine ⟨notNew, ?_⟩
    simpa [notNew] using fun here => other (formed.apart l' l q member here)
  have distinct : (m l ++ [p]).Nodup :=
    List.Nodup.append (formed.distinct l) (List.nodup_singleton p) (by simpa using fresh l)
  have chain := formed.chain l
  cases list : m l with
  | nil =>
    rw [list] at chain
    have empty : s.head l = none := chain
    simp only [stateListAdd, empty]
    refine ⟨_, rfl, formed.replace _ ?_ ?_ distinct fun l' other => ⟨?_, ?_, fun q member => ⟨?_, ?_⟩⟩⟩
    · simp [list, Chain]
    · simp [list]
    · exact Function.update_of_ne other ..
    · exact Function.update_of_ne other ..
    · exact Function.update_of_ne (apart other member).1 ..
    · exact (apart other member).2
  | cons first rest =>
    have some_ : m l ≠ [] := by simp [list]
    have last : s.tail l = some ((m l).getLast some_) := by rw [formed.last l, List.getLast?_eq_some_getLast some_]
    have head : s.head l = some first := by
      rw [list] at chain
      exact chain.1
    have old : (m l).getLast some_ ≠ p := fun same => fresh l (same ▸ List.getLast_mem some_)
    simp only [stateListAdd, head, last]
    refine ⟨_, rfl, formed.replace _ ?_ ?_ distinct fun l' other => ⟨rfl, ?_, fun q member => ⟨?_, ?_⟩⟩⟩
    · have linked : Chain (Function.update s.next p none) (s.head l) (m l) :=
        chain_congr (formed.chain l) fun q member =>
          Function.update_of_ne (ne_of_mem_of_not_mem member (fresh l)) ..
      simp only [Function.update_comm old]
      exact chain_append p linked (formed.distinct l) (fresh l) (Function.update_self ..) some_
    · simp
    · exact Function.update_of_ne other ..
    · have outside : q ≠ (m l).getLast some_ := by
        intro same
        exact other (formed.apart l' l q member (same ▸ List.getLast_mem some_))
      simp only [Function.update_of_ne (apart other member).1, Function.update_of_ne outside]
    · exact (apart other member).2

theorem walk_missing {next : Slot → Option Slot} {current : Option Slot} {members : List Slot}
    (chain : Chain next current members) (missing : p ∉ members) (rounds : Nat) (enough : members.length < rounds)
    (previous : Option Slot) : ∃ last, walk next p rounds previous current = some (last, none) := by
  induction members generalizing current previous rounds with
  | nil =>
    obtain ⟨n, rfl⟩ : ∃ n, rounds = n + 1 := ⟨rounds - 1, by omega⟩
    obtain rfl : current = none := chain
    exact ⟨previous, rfl⟩
  | cons a rest ih =>
    obtain ⟨n, rfl⟩ : ∃ n, rounds = n + 1 := ⟨rounds - 1, by omega⟩
    obtain ⟨rfl, later⟩ := chain
    simp only [List.mem_cons, not_or] at missing
    rw [List.length_cons] at enough
    rw [walk, if_neg (Ne.symm missing.1)]
    exact ih later missing.2 n (by omega) (some a)

theorem walk_found {next : Slot → Option Slot} {current : Option Slot} {before after : List Slot}
    (chain : Chain next current (before ++ p :: after)) (first : p ∉ before) (rounds : Nat)
    (enough : before.length < rounds) (previous : Option Slot) :
    walk next p rounds previous current = some (before.getLast?.or previous, some p) := by
  induction before generalizing current previous rounds with
  | nil =>
    obtain ⟨n, rfl⟩ : ∃ n, rounds = n + 1 := ⟨rounds - 1, by omega⟩
    obtain ⟨rfl, -⟩ := chain
    rw [walk, if_pos rfl]
    rfl
  | cons a before ih =>
    obtain ⟨n, rfl⟩ : ∃ n, rounds = n + 1 := ⟨rounds - 1, by omega⟩
    obtain ⟨rfl, later⟩ := chain
    simp only [List.mem_cons, not_or] at first
    rw [List.length_cons] at enough
    rw [walk, if_neg (Ne.symm first.1), ih later first.2 n (by omega) (some a), List.getLast?_cons]
    cases before.getLast? <;> rfl

theorem members_length_lt (formed : WellFormed s m) (l : ListName) : (m l).length < NPROC + 1 := by
  have bound := (formed.distinct l).length_le_card
  rw [Fintype.card_fin] at bound
  omega

theorem stateListRemove_missing (formed : WellFormed s m) (missing : p ∉ m l) :
    stateListRemove s l (some p) = some (-1, s) := by
  have chain := formed.chain l
  cases head : s.head l with
  | none => simp only [stateListRemove, head]
  | some first =>
    cases tail : s.tail l with
    | none => simp only [stateListRemove, head, tail]
    | some last =>
      have notFirst : first ≠ p := by
        rintro rfl
        exact missing (List.mem_of_head? ((chain_head chain).symm.trans head))
      rw [head] at chain
      obtain ⟨_, walked⟩ := walk_missing chain missing _ (members_length_lt formed l) none
      simp only [stateListRemove, head, tail, if_neg notFirst, walked]

theorem split_at (member : p ∈ m l) (notFirst : (m l).head? ≠ some p) :
    ∃ before q after, m l = before ++ q :: p :: after := by
  obtain ⟨front, after, split⟩ := List.append_of_mem member
  cases front using List.reverseRecOn with
  | nil => exact absurd (by rw [split]; rfl) notFirst
  | append_singleton before q => exact ⟨before, q, after, by simpa using split⟩

-- The last member and the others are unlinked in the same way.
theorem stateListRemove_member (formed : WellFormed s m) {before after : List Slot} {q : Slot}
    (split : m l = before ++ q :: p :: after) :
    stateListRemove s l (some p) = some (0,
      { s with
        tail := Function.update s.tail l (before ++ q :: after).getLast?
        next := Function.update (Function.update s.next q (s.next p)) p none }) := by
  have distinct := formed.distinct l
  have chain := formed.chain l
  have last := formed.last l
  have few := members_length_lt formed l
  rw [split, ← List.singleton_append, ← List.append_assoc] at distinct chain last few
  have early : p ∉ before ++ [q] := fun member =>
    (List.nodup_append.mp distinct).2.2 p member p List.mem_cons_self rfl
  have late : p ∉ after := (List.nodup_cons.mp (List.nodup_append.mp distinct).2.1).1
  have walked := walk_found chain early (NPROC + 1) (by rw [List.length_append] at few; omega) none
  rw [List.getLast?_concat, Option.some_or] at walked
  obtain ⟨first, head⟩ : ∃ first, s.head l = some first := by
    rw [chain_head chain]
    exact Option.isSome_iff_exists.mp (by simp)
  have notFirst : first ≠ p := by
    have found := (chain_head chain).symm.trans head
    rw [List.head?_append_of_ne_nil _ (by simp)] at found
    exact ne_of_mem_of_not_mem (List.mem_of_head? found) early
  rw [head] at walked
  cases after with
  | nil =>
    rw [List.getLast?_concat] at last
    have null : s.next p = none := formed.ended l p last
    simp only [stateListRemove, head, last, if_neg notFirst, walked, if_true, null, List.getLast?_concat]
  | cons b after =>
    rw [List.getLast?_append_of_ne_nil _ (by simp), List.getLast?_cons_cons] at last
    obtain ⟨t, tail⟩ : ∃ t, (b :: after).getLast? = some t := Option.isSome_iff_exists.mp (by simp)
    have notLast : p ≠ t := (ne_of_mem_of_not_mem (List.mem_of_getLast? tail) late).symm
    rw [tail] at last
    have same : (before ++ q :: b :: after).getLast? = s.tail l := by
      rw [List.getLast?_append_of_ne_nil _ (by simp), List.getLast?_cons_cons, tail, last]
    rw [same, Function.update_eq_self]
    simp only [stateListRemove, head, last, if_neg notFirst, walked, if_neg notLast]

theorem stateListRemove_does (formed : WellFormed s m) (member : p ∈ m l) (notFirst : (m l).head? ≠ some p) :
    ∃ s', stateListRemove s l (some p) = some (0, s') ∧ WellFormed s' (m.after (.remove l (some p))) ∧
      s'.next p = none := by
  obtain ⟨before, q, after, split⟩ := split_at member notFirst
  have distinct := formed.distinct l
  have chain := formed.chain l
  rw [split] at distinct chain
  refine ⟨_, stateListRemove_member formed split, ?_, Function.update_self ..⟩
  have erased : (m l).erase p = before ++ q :: after := by
    have early : p ∉ before ++ [q] := by
      rw [← List.singleton_append, ← List.append_assoc] at distinct
      exact fun here => (List.nodup_append.mp distinct).2.2 p here p List.mem_cons_self rfl
    rw [split, ← List.singleton_append, ← List.append_assoc, List.erase_append_right _ early, List.erase_cons_head,
      List.append_assoc, List.singleton_append]
  have apart {l' : ListName} (other : l' ≠ l) {r : Slot} (there : r ∈ m l') : r ∉ before ++ q :: p :: after :=
    fun here => other (formed.apart l' l r there (split ▸ here))
  rw [Members.after, erased]
  refine formed.replace _ (chain_unlink chain distinct) (Function.update_self ..) ?_
    fun l' other => ⟨rfl, Function.update_of_ne other .., fun r there => ⟨?_, ?_⟩⟩
  · exact distinct.sublist (.append_left (.cons_cons q (.cons p (.refl _))) before)
  · have away := apart other there
    simp only [List.mem_append, List.mem_cons, not_or] at away
    simp only [Function.update_of_ne away.2.2.1, Function.update_of_ne away.2.1]
  · have away := apart other there
    simp only [List.mem_append, List.mem_cons, not_or] at away ⊢
    exact ⟨away.1, away.2.1, away.2.2.2⟩

theorem stateListRemove_first (formed : WellFormed s m) (first : (m l).head? = some p) :
    stateListRemove s l (some p) = some (0, { s with head := Function.update s.head l (s.next p) }) := by
  have head : s.head l = some p := (chain_head (formed.chain l)).trans first
  obtain ⟨t, tail⟩ : ∃ t, s.tail l = some t := by
    rw [← Option.ne_none_iff_exists', ne_eq, ← formed.empty l, head]
    exact Option.some_ne_none p
  simp only [stateListRemove, head, tail, if_true]

theorem stateListRemove_null (s : Links) (l : ListName) : stateListRemove s l none = some (-1, s) := by
  rw [stateListRemove]
  exact nofun

theorem does_remove_iff (ret : Int) (s' : Links) :
    Does s m (.remove l (some p)) ret s' ↔
      WellFormed s' (m.after (.remove l (some p))) ∧
        if p ∈ m l then ret = 0 ∧ s'.next p = none else ret = -1 ∧ s' = s := Iff.rfl

-- Removing the first member leaves the tail, if it is the only one, and its link otherwise.
theorem not_does_first (formed : WellFormed s m) (first : (m l).head? = some p) {ret : Int} {s' : Links}
    (removed : stateListRemove s l (some p) = some (ret, s')) : ¬ Does s m (.remove l (some p)) ret s' := by
  rw [does_remove_iff, if_pos (List.mem_of_head? first)]
  rintro ⟨formed', -, null⟩
  rw [stateListRemove_first formed first] at removed
  cases removed
  have chain := formed.chain l
  have last := formed'.last l
  obtain ⟨rest, list⟩ : ∃ rest, m l = p :: rest := ⟨_, List.eq_cons_of_mem_head? first⟩
  rw [list] at chain
  simp only [Members.after, Function.update_self, list, List.erase_cons_head, formed.last l] at last
  change s.next p = none at null
  have alone : rest = [] := by
    cases rest with
    | nil => rfl
    | cons b rest => cases null.symm.trans chain.2.1
  subst alone
  cases last

theorem run_does_iff (formed : WellFormed s m) (op : Op) (fresh : Fresh m op) :
    (∃ ret s', run s op = some (ret, s') ∧ Does s m op ret s') ↔ ¬ RemovesFirst m op := by
  cases op with
  | add l p =>
    obtain ⟨s', added, formed'⟩ := stateListAdd_does l formed fresh
    exact iff_of_true ⟨0, s', added, formed', rfl⟩ id
  | remove l p =>
    cases p with
    | none => exact iff_of_true ⟨-1, s, stateListRemove_null s l, formed, rfl, rfl⟩ (by rintro ⟨_, absent, _⟩; cases absent)
    | some p =>
      constructor
      · rintro ⟨ret, s', removed, does⟩ ⟨q, same, first⟩
        cases same
        exact not_does_first formed first removed does
      · intro other
        have notFirst : (m l).head? ≠ some p := fun first => other ⟨p, rfl, first⟩
        by_cases member : p ∈ m l
        · obtain ⟨s', removed, formed', null⟩ := stateListRemove_does formed member notFirst
          refine ⟨0, s', removed, ?_⟩
          rw [does_remove_iff, if_pos member]
          exact ⟨formed', rfl, null⟩
        · refine ⟨-1, s, stateListRemove_missing formed member, ?_⟩
          rw [does_remove_iff, if_neg member, Members.after, List.erase_of_not_mem member, Function.update_eq_self]
          exact ⟨formed, rfl, rfl⟩

theorem allDo_iff (formed : WellFormed s m) (ops : List Op) (fresh : AllFresh m ops) :
    AllDo s m ops ↔ NoneFirst m ops := by
  induction ops generalizing s m with
  | nil => exact Iff.rfl
  | cons op ops ih =>
    obtain ⟨fresh, later⟩ := fresh
    constructor
    · rintro ⟨ret, s', ran, does, rest⟩
      exact ⟨(run_does_iff formed op fresh).mp ⟨ret, s', ran, does⟩, (ih does.1 later).mp rest⟩
    · rintro ⟨other, rest⟩
      obtain ⟨ret, s', ran, does⟩ := (run_does_iff formed op fresh).mpr other
      exact ⟨ret, s', ran, does, (ih does.1 later).mpr rest⟩

end Steps

theorem addAll_wellFormed (slots : List Slot) (distinct : slots.Nodup) {s : Links} {m : Members}
    (formed : WellFormed s m) (fresh : ∀ p ∈ slots, ∀ l, p ∉ m l) :
    ∃ s', slots.foldlM (fun s p => (stateListAdd s .free p).map Prod.snd) s = some s' ∧
      WellFormed s' (Function.update m .free (m .free ++ slots)) := by
  induction slots generalizing s m with
  | nil => exact ⟨s, rfl, by simpa using formed⟩
  | cons p slots ih =>
    obtain ⟨new, distinct⟩ := List.nodup_cons.mp distinct
    obtain ⟨s₁, added, formed₁⟩ := stateListAdd_does .free formed (fresh p List.mem_cons_self)
    obtain ⟨s₂, rest, formed₂⟩ := ih distinct formed₁ (by
      intro q member l
      have old := fresh q (List.mem_cons_of_mem p member) l
      by_cases same : l = .free
      · subst same
        simpa [Members.after, old] using ne_of_mem_of_not_mem member new
      · simpa [Members.after, Function.update_of_ne same] using old)
    refine ⟨s₂, ?_, ?_⟩
    · rw [List.foldlM_cons, added]
      exact rest
    · simpa [Members.after] using formed₂

theorem initFreeList_wellFormed (next : Slot → Option Slot) :
    ∃ s, initFreeList (initProcessLists next) = some s ∧
      WellFormed s (Function.update (fun _ => []) .free (List.finRange NPROC)) :=
  addAll_wellFormed (List.finRange NPROC) (List.nodup_finRange NPROC) (wellFormed_init next) (by simp)

/-- Whatever is added and removed, the calls do what they should exactly if none removes the first process
of a list. -/
theorem state_lists_correct_iff (next : Slot → Option Slot) (ops : List Op) (fresh : AllFresh (fun _ => []) ops) :
    AllDo (initProcessLists next) (fun _ => []) ops ↔ NoneFirst (fun _ => []) ops :=
  allDo_iff (wellFormed_init next) ops fresh

theorem state_lists_correct_iff_two :
    AllDo (initProcessLists fun _ => none) (fun _ => [])
      [.add .ready 0, .add .ready 1, .remove .ready (some 1), .remove .ready (some 1), .add .sleep 1] := by
  have fresh : AllFresh (fun _ => [])
      [.add .ready 0, .add .ready 1, .remove .ready (some 1), .remove .ready (some 1), .add .sleep 1] := by
    simp only [AllFresh, Fresh, Members.after]
    refine ⟨?_, ?_, trivial, trivial, ?_, trivial⟩ <;> intro l <;> cases l <;> decide
  refine (state_lists_correct_iff _ _ fresh).mpr ?_
  simp [NoneFirst, RemovesFirst, Members.after]

-- The only process of the list, then the first of two.
theorem state_list_first_removed :
    ((stateListAdd (initProcessLists fun _ => none) .ready 0).bind fun r => stateListRemove r.2 .ready (some 0)).map
        (fun r => (r.1, r.2.head .ready, r.2.tail .ready)) = some (0, none, some 0) ∧
      ¬ AllDo (initProcessLists fun _ => none) (fun _ => []) [.add .ready 0, .remove .ready (some 0)] ∧
      ((stateListAdd (initProcessLists fun _ => none) .ready 0).bind fun r =>
        (stateListAdd r.2 .ready 1).bind fun r => stateListRemove r.2 .ready (some 0)).map
        (fun r => (r.1, r.2.next 0)) = some (0, some 1) ∧
      ¬ AllDo (initProcessLists fun _ => none) (fun _ => []) [.add .ready 0, .add .ready 1, .remove .ready (some 0)] := by
  have one : AllFresh (fun _ => []) [.add .ready 0, .remove .ready (some 0)] := by simp [AllFresh, Fresh]
  have two : AllFresh (fun _ => []) [.add .ready 0, .add .ready 1, .remove .ready (some 0)] := by
    simp only [AllFresh, Fresh, Members.after]
    refine ⟨?_, ?_, trivial, trivial⟩ <;> intro l <;> cases l <;> decide
  refine ⟨by decide +kernel, ?_, by decide +kernel, ?_⟩
  · rw [allDo_iff (wellFormed_init _) _ one]
    rintro ⟨-, notFirst, -⟩
    exact notFirst ⟨0, rfl, by simp [Members.after]⟩
  · rw [allDo_iff (wellFormed_init _) _ two]
    rintro ⟨-, -, notFirst, -⟩
    exact notFirst ⟨0, rfl, by simp [Members.after]⟩

end Xv6.StateList
