import Xv6.Lib.Memory
import Xv6.Lib.Scan
import Xv6.Proc.Table

set_option autoImplicit false

/-!
# `getproc`

The listing of the process table into user memory. Each assignment to a field of `table[count]` is a
store, in the order of the source; `prio` is never assigned.
-/

namespace Xv6.Ptable

open Memory

def convertState : ProcState → String
  | .unused => "Unused  "
  | .embryo => "Embryo  "
  | .sleeping => "Sleeping"
  | .runnable => "Runnable"
  | .running => "Running "
  | .zombie => "Zombie  "

-- `struct uproc`: the size and the offsets of its fields.
abbrev UPROC : Nat := 96

-- `parent->uid`. Through a null pointer it is the word of the caller's own memory at the offset of
-- `uid` in `struct proc`.
def parentUid (t : Table) (mem : Mem) (p : Proc) : UInt32 :=
  match p.parent with
  | some q => (t.proc q).uid
  | none => wordAt mem 128

def nameBytes (p : Proc) : List UInt8 := safestrcpy (List.ofFn p.name.bytes) 16

def stateBytes (p : Proc) : List UInt8 :=
  safestrcpy (ascii (convertState p.state) ++ [0]) ((ascii (convertState p.state)).length + 1)

-- The fields stored before the parent is followed.
def headStores (p : Proc) (base : Nat) : List Store :=
  [wordStore base p.pid, wordStore (base + 4) p.uid, wordStore (base + 8) p.gid]

def tailStores (t : Table) (p : Proc) (ppid : UInt32) (base : Nat) : List Store :=
  [wordStore (base + 12) ppid,
    wordStore (base + 20) p.cpuTicksTotal,
    wordStore (base + 16) (t.ticks - p.startTicks),
    wordStore (base + 56) p.sz,
    ⟨base + 64, nameBytes p⟩,
    ⟨base + 24, stateBytes p⟩]

-- One turn of the loop: the stores into `table[count]`.
def uprocStores (t : Table) (mem : Mem) (base : Nat) (i : Slot) : List Store :=
  let p := t.proc i
  let parent := parentUid t (stores mem (headStores p base)) p
  headStores p base ++ tailStores t p (if parent = 0 then p.uid else parent) base

-- The loop over the rest of the slots, one list of stores for each entry filled.
def getprocLoop (t : Table) (max : Int) (table : Nat) : List Slot → Nat → Mem → List (List Store)
  | [], _, _ => []
  | i :: rest, count, mem =>
    if (t.proc i).state ≠ .unused ∧ (i.val : Int) < max then
      let entry := uprocStores t mem (table + UPROC * count) i
      entry :: getprocLoop t max table rest (count + 1) (stores mem entry)
    else []

def getprocEntries (t : Table) (max : Int) (table : Nat) (mem : Mem) : List (List Store) :=
  getprocLoop t max table (List.finRange NPROC) 0 mem

-- The value returned and the stores made.
def getproc (t : Table) (max : Int) (table : Nat) (mem : Mem) : Int × List Store :=
  ((getprocEntries t max table mem).length, (getprocEntries t max table mem).flatten)

-- The test of the loop, and the slots that a complete listing has.
def listed (t : Table) (max : Int) (i : Slot) : Bool := (t.proc i).state ≠ .unused ∧ (i.val : Int) < max

def used (t : Table) (i : Slot) : Bool := (t.proc i).state ≠ .unused

def visited (t : Table) (max : Int) (slots : List Slot) : List Slot := slots.takeWhile (listed t max)

def active (t : Table) : List Slot := (List.finRange NPROC).filter (used t)

theorem getprocLoop_length (t : Table) (max : Int) (table : Nat) (slots : List Slot) (count : Nat) (mem : Mem) :
    (getprocLoop t max table slots count mem).length = (visited t max slots).length := by
  induction slots generalizing count mem with
  | nil => rfl
  | cons i rest ih =>
    by_cases taken : (t.proc i).state ≠ .unused ∧ (i.val : Int) < max
    · simp [getprocLoop, visited, listed, taken, ih]
    · simp [getprocLoop, visited, listed, taken]

/-- The entry at `base` describes the process in slot `i`. The parent that it reports is left out. -/
structure Describes (t : Table) (i : Slot) (mem : Mem) (base : Nat) : Prop where
  pid : wordAt mem base = (t.proc i).pid
  uid : wordAt mem (base + 4) = (t.proc i).uid
  gid : wordAt mem (base + 8) = (t.proc i).gid
  elapsed : wordAt mem (base + 16) = t.ticks - (t.proc i).startTicks
  cpu : wordAt mem (base + 20) = (t.proc i).cpuTicksTotal
  state : cstringAt mem (base + 24) 32 = ascii (convertState (t.proc i).state)
  size : wordAt mem (base + 56) = (t.proc i).sz
  name : cstringAt mem (base + 64) 32 = (t.proc i).name.text

theorem ascii_convertState (state : ProcState) :
    (ascii (convertState state)).length = 8 ∧
      (ascii (convertState state)).takeWhile (· ≠ 0) = ascii (convertState state) := by
  cases state <;> decide

theorem nameBytes_length (p : Proc) : (nameBytes p).length ≤ 16 := safestrcpy_length _ 16

theorem stateBytes_length (p : Proc) : (stateBytes p).length ≤ 9 := by
  have bound := safestrcpy_length (ascii (convertState p.state) ++ [0]) ((ascii (convertState p.state)).length + 1)
  rw [stateBytes]
  rw [(ascii_convertState p.state).1] at bound ⊢
  exact bound

theorem nameBytes_text (p : Proc) : (nameBytes p).takeWhile (· ≠ 0) = p.name.text := by
  rw [nameBytes, safestrcpy_text, Name.text_take]

theorem stateBytes_text (p : Proc) : (stateBytes p).takeWhile (· ≠ 0) = ascii (convertState p.state) := by
  rw [stateBytes, safestrcpy_text, Nat.add_sub_cancel, List.take_left]
  exact (ascii_convertState p.state).2

theorem uprocStores_inside (t : Table) (mem : Mem) (base : Nat) (i : Slot) :
    ∀ s ∈ uprocStores t mem base i, base ≤ s.addr ∧ s.stop ≤ base + UPROC := by
  have nameFits := nameBytes_length (t.proc i)
  have stateFits := stateBytes_length (t.proc i)
  simp only [uprocStores, headStores, tailStores, List.cons_append, List.nil_append, List.forall_mem_cons,
    Store.stop, wordStore_addr, wordStore_bytes, wordBytes_length, UPROC]
  refine ⟨?_, ?_, ?_, ?_, ?_, ?_, ?_, ?_, ?_, by simp⟩ <;> omega

theorem uprocStores_kept (t : Table) (mem : Mem) (base : Nat) (i : Slot) :
    Kept (uprocStores t mem base i) := by
  have nameFits := nameBytes_length (t.proc i)
  have stateFits := stateBytes_length (t.proc i)
  simp only [Kept, uprocStores, headStores, tailStores, List.cons_append, List.nil_append,
    List.pairwise_cons, List.forall_mem_cons, Store.Away, Store.stop, wordStore_addr, wordStore_bytes,
    wordBytes_length]
  simp
  omega

theorem uprocStores_word (t : Table) (mem : Mem) (base : Nat) (i : Slot) (rest : List Store)
    (away : ∀ s ∈ rest, base + UPROC ≤ s.addr) (a : Nat) (w : UInt32)
    (member : wordStore a w ∈ uprocStores t mem base i) :
    wordAt (stores mem (uprocStores t mem base i ++ rest)) a = w := by
  have inside := uprocStores_inside t mem base i _ member
  simp only [Store.stop, wordStore_addr, wordStore_bytes, wordBytes_length] at inside
  rw [stores_append, wordAt, bytesAt_stores_away]
  · exact wordAt_stores_kept mem _ (uprocStores_kept t mem base i) a w member
  · exact fun s later => Or.inr (by have := away s later; omega)

theorem uprocStores_describes (t : Table) (mem : Mem) (base : Nat) (i : Slot) (rest : List Store)
    (away : ∀ s ∈ rest, base + UPROC ≤ s.addr) :
    Describes t i (stores mem (uprocStores t mem base i ++ rest)) base := by
  have kept : Kept (uprocStores t mem base i) := uprocStores_kept t mem base i
  have text (a : Nat) (bytes : List UInt8) (member : ⟨a, bytes⟩ ∈ uprocStores t mem base i)
      (fits : bytes.length ≤ 32) (field : a + 32 ≤ base + UPROC) (ended : 0 ∈ bytes) :
      cstringAt (stores mem (uprocStores t mem base i ++ rest)) a 32 = bytes.takeWhile (· ≠ 0) := by
    rw [stores_append, cstringAt, bytesAt_stores_away]
    · exact cstringAt_stores_kept mem _ kept ⟨a, bytes⟩ member 32 fits ended
    · exact fun s later => Or.inr (by have := away s later; omega)
  have nameFits := nameBytes_length (t.proc i)
  have stateFits := stateBytes_length (t.proc i)
  constructor
  case state =>
    rw [← stateBytes_text]
    exact text _ (stateBytes _) (by simp [uprocStores, tailStores]) (by omega) (by simp [UPROC])
      (zero_mem_safestrcpy _ _)
  case name =>
    rw [← nameBytes_text]
    exact text _ (nameBytes _) (by simp [uprocStores, tailStores]) (by omega) (by simp [UPROC])
      (zero_mem_safestrcpy _ 15)
  all_goals exact uprocStores_word t mem base i rest away _ _ (by simp [uprocStores, headStores, tailStores])

theorem getprocLoop_inside (t : Table) (max : Int) (table : Nat) (slots : List Slot) (count : Nat) (mem : Mem) :
    ∀ s ∈ (getprocLoop t max table slots count mem).flatten,
      table + UPROC * count ≤ s.addr ∧
        s.stop ≤ table + UPROC * (count + (getprocLoop t max table slots count mem).length) := by
  induction slots generalizing count mem with
  | nil => simp [getprocLoop]
  | cons i rest ih =>
    rw [getprocLoop]
    split
    · intro s member
      rw [List.flatten_cons, List.mem_append] at member
      simp only [List.length_cons, Nat.mul_add, Nat.mul_one]
      rcases member with here | later
      · have inside := uprocStores_inside t mem _ i s here
        omega
      · have inside := ih (count + 1) _ s later
        simp only [Nat.mul_add, Nat.mul_one] at inside
        omega
    · simp

-- The k-th entry is made for the k-th slot visited, and the entries behind it are stored behind it.
theorem getprocLoop_entry (t : Table) (max : Int) (table : Nat) (slots : List Slot) (count : Nat) (mem : Mem)
    (k : Nat) (i : Slot) (at_ : (visited t max slots)[k]? = some i) :
    ∃ before rest, stores mem (getprocLoop t max table slots count mem).flatten =
        stores before (uprocStores t before (table + UPROC * (count + k)) i ++ rest) ∧
      ∀ s ∈ rest, table + UPROC * (count + k) + UPROC ≤ s.addr := by
  induction slots generalizing count mem k with
  | nil => simp [visited] at at_
  | cons j rest ih =>
    by_cases taken : (t.proc j).state ≠ .unused ∧ (j.val : Int) < max
    · rw [getprocLoop, if_pos taken, List.flatten_cons]
      have more : visited t max (j :: rest) = j :: visited t max rest := by
        simp [visited, listed, taken]
      rw [more] at at_
      cases k with
      | zero =>
        cases at_
        refine ⟨mem, _, rfl, fun s member => ?_⟩
        have above := (getprocLoop_inside t max table rest (count + 1) _ s member).1
        omega
      | succ k =>
        rw [stores_append, show count + (k + 1) = count + 1 + k by omega]
        exact ih (count + 1) (stores mem (uprocStores t mem (table + UPROC * count) j)) k at_
    · simp [visited, listed, taken] at at_

theorem getproc_entry (t : Table) (max : Int) (table : Nat) (mem : Mem) (k : Nat) (i : Slot)
    (at_ : (visited t max (List.finRange NPROC))[k]? = some i) :
    ∃ before rest, stores mem (getproc t max table mem).2 =
        stores before (uprocStores t before (table + UPROC * k) i ++ rest) ∧
      ∀ s ∈ rest, table + UPROC * k + UPROC ≤ s.addr := by
  have entry := getprocLoop_entry t max table (List.finRange NPROC) 0 mem k i at_
  rwa [Nat.zero_add] at entry

theorem used_of_listed (t : Table) (max : Int) (i : Slot) (taken : listed t max i = true) : used t i = true := by
  simp only [listed, used, decide_eq_true_eq] at taken ⊢
  exact taken.1

theorem stop_listed_le (t : Table) (max : Nat) : Scan.stop (listed t max) ≤ max := by
  by_contra exceeded
  rw [not_le] at exceeded
  have small := Scan.stop_le (listed t max)
  have taken := Scan.test_of_lt_stop (listed t max) ⟨max, by omega⟩ exceeded
  simp [listed] at taken

/-- No process is behind a free slot that the scan can reach. -/
def Compact (t : Table) (max : Nat) : Prop :=
  ∀ i j : Slot, i < j → (t.proc i).state = .unused → (t.proc j).state ≠ .unused → max ≤ i.val

instance (t : Table) (max : Nat) : Decidable (Compact t max) := by
  unfold Compact
  infer_instance

theorem stop_listed_iff (t : Table) (max : Nat) :
    Scan.stop (listed t max) = min max (active t).length ↔ Compact t max := by
  have byCount := stop_listed_le t max
  have scanned := Scan.filter_eq_scan_append (listed t max) (used t) (used_of_listed t max)
  have atLeast : Scan.stop (listed t max) ≤ (active t).length := by
    rw [active, scanned, List.length_append, Scan.scan_length]
    omega
  have nothing := Scan.filter_length_le_iff (listed t max) (used t) (used_of_listed t max)
  rw [← active] at nothing
  constructor
  · intro full i j before free busy
    by_contra early
    have reached : Scan.stop (listed t max) ≤ i.val := by
      by_contra inside
      have taken := Scan.test_of_lt_stop (listed t max) i (by omega)
      simp [listed, free] at taken
    have behind : Scan.stop (listed t max) ≤ j.val := le_trans reached (le_of_lt before)
    have unseen := nothing.mp (by omega) j behind
    simp [used] at unseen
    exact busy unseen
  · intro compact
    by_cases byMax : max ≤ Scan.stop (listed t max)
    · omega
    -- The scan stopped before the count: at a free slot, or at the end of the table.
    · have rest : ∀ j : Slot, Scan.stop (listed t max) ≤ j.val → used t j = false := by
        intro j behind
        by_contra busy
        have bound := j.isLt
        have failed := Scan.not_test_at_stop (listed t max) ⟨Scan.stop (listed t max), by omega⟩ rfl
        have free : (t.proc ⟨Scan.stop (listed t max), by omega⟩).state = .unused := by
          by_contra other
          simp [listed, other] at failed
          omega
        simp [used] at busy
        by_cases same : j.val = Scan.stop (listed t max)
        · exact busy (by rw [← free]; congr; exact Fin.ext same)
        · have late := compact ⟨Scan.stop (listed t max), by omega⟩ j (Fin.lt_def.mpr (by simp; omega)) free busy
          exact byMax late
      have most := nothing.mpr rest
      omega

/-- The listing asked for: as many processes as there are, up to `max`, in table order. -/
def ListsAll (t : Table) (max table : Nat) (mem : Mem) : Prop :=
  (getproc t max table mem).1 = min max (active t).length ∧
    ∀ (k : Nat) (i : Slot), (k : Int) < (getproc t max table mem).1 → (active t)[k]? = some i →
      Describes t i (stores mem (getproc t max table mem).2) (table + UPROC * k)

theorem getproc_count (t : Table) (max : Int) (table : Nat) (mem : Mem) :
    (getproc t max table mem).1 = Scan.stop (listed t max) := by
  rw [getproc, getprocEntries, getprocLoop_length]
  exact congrArg Nat.cast (Scan.scan_length (listed t max))

theorem getproc_count_le (t : Table) (max : Int) (nonneg : 0 ≤ max) (table : Nat) (mem : Mem) :
    (getproc t max table mem).1 ≤ max := by
  obtain ⟨bound, rfl⟩ := Int.eq_ofNat_of_zero_le nonneg
  rw [getproc_count]
  exact_mod_cast stop_listed_le t bound

theorem getproc_inside (t : Table) (max : Int) (table : Nat) (mem : Mem) :
    ∀ s ∈ (getproc t max table mem).2,
      table ≤ s.addr ∧ (s.stop : Int) ≤ table + (getproc t max table mem).1 * UPROC := by
  intro s member
  have inside := getprocLoop_inside t max table (List.finRange NPROC) 0 mem s member
  simp only [getproc, getprocEntries, UPROC] at inside ⊢
  omega

theorem getproc_describes (t : Table) (max table : Nat) (mem : Mem) (k : Nat) (i : Slot)
    (below : (k : Int) < (getproc t max table mem).1) (at_ : (active t)[k]? = some i) :
    Describes t i (stores mem (getproc t max table mem).2) (table + UPROC * k) := by
  rw [getproc_count] at below
  have split := Scan.filter_eq_scan_append (listed t max) (used t) (used_of_listed t max)
  have inScan : (visited t max (List.finRange NPROC))[k]? = some i := by
    rw [active, split, List.getElem?_append_left (by rw [Scan.scan_length]; exact_mod_cast below)] at at_
    exact at_
  obtain ⟨before, rest, stored, away⟩ := getproc_entry t max table mem k i inScan
  rw [stored]
  exact uprocStores_describes t before _ i rest away

theorem getproc_lists_all_iff (t : Table) (max table : Nat) (mem : Mem) :
    ListsAll t max table mem ↔ Compact t max := by
  rw [← stop_listed_iff]
  constructor
  · rintro ⟨count, -⟩
    rw [getproc_count] at count
    exact_mod_cast count
  · intro count
    refine ⟨?_, getproc_describes t max table mem⟩
    rw [getproc_count]
    exact_mod_cast count

-- init forks twice, the older child exits and init reaps it: the younger one is behind a free slot.
def reapOlder : List Event :=
  .dispatch 0 :: forkSteps 0 ++ .forkRun 0 :: forkSteps 0 ++
    [.forkRun 0, .wait 0, .dispatch 1, .exit 1, .dispatch 0, .wait 0]

theorem getproc_omits_active : ∃ k, Reachable k ∧ ¬ ListsAll k.table 64 0 (fun _ => 0) := by
  have runs : (Run.exec step userinit reapOlder).isSome = true := by decide +kernel
  obtain ⟨k, run⟩ := Option.isSome_iff_exists.mp runs
  refine ⟨k, ⟨reapOlder, run⟩, ?_⟩
  rintro ⟨count, -⟩
  have short : (Run.exec step userinit reapOlder).all
      (fun k => Scan.stop (listed k.table 64) = 1 ∧ (active k.table).length = 2) = true := by
    decide +kernel
  rw [run] at short
  simp only [Option.all_some, decide_eq_true_eq] at short
  rw [getproc_count] at count
  have stopped := short.1
  have two := short.2
  norm_num [two] at count
  omega

end Xv6.Ptable
