import Xv6.User.Shell

set_option autoImplicit false

/-!
# The shell's grammar

Tokens and command lines as the shell's user thinks of them, without pointers: the tokens of a text,
and which token sequences derive which command.
-/

namespace Xv6.Shell

inductive Token where
  | word (text : List UInt8)
  | bar
  | lpar
  | rpar
  | semi
  | amp
  | lt
  | gt
  -- `>>`
  | app
deriving DecidableEq

-- The symbols of one character other than `>`.
def Token.ofSymbol (c : UInt8) : Option Token :=
  if c = '|'.toUInt8 then some .bar
  else if c = '('.toUInt8 then some .lpar
  else if c = ')'.toUInt8 then some .rpar
  else if c = ';'.toUInt8 then some .semi
  else if c = '&'.toUInt8 then some .amp
  else if c = '<'.toUInt8 then some .lt
  else none

/-- The tokens of a text: whitespace separates them, and a word is as long as possible. -/
def lex : List UInt8 → List Token
  | [] => []
  | c :: text =>
    if isWhite c then lex text
    else if c = '>'.toUInt8 then
      match text with
      | [] => [.gt]
      | d :: rest => if d = '>'.toUInt8 then .app :: lex rest else .gt :: lex (d :: rest)
    else
      match Token.ofSymbol c with
      | some t => t :: lex text
      | none => .word (c :: text.takeWhile isWord) :: lex (text.dropWhile isWord)
termination_by text => text.length
decreasing_by
  all_goals simp only [List.length_cons]
  all_goals first
    | omega
    | exact Nat.lt_succ_of_le (List.dropWhile_sublist isWord).length_le

section Grammar

/-- The three kinds of redirection, with the mode and the descriptor for `open`. -/
inductive Op where
  | input
  | output
  | append
deriving DecidableEq

namespace Op

def token : Op → Token
  | input => .lt
  | output => .gt
  | append => .app

def mode : Op → UInt32
  | input => O_RDONLY
  | output | append => O_WRONLY ||| O_CREATE

def fd : Op → Nat
  | input => 0
  | output | append => 1

end Op

abbrev Word := List UInt8

-- Later redirections wrap earlier ones.
def wrap (redirs : List (Op × Word)) (cmd : Cmd Word) : Cmd Word :=
  redirs.foldl (fun cmd r => .redir cmd r.2 r.1.mode r.1.fd) cmd

/-- redir* -/
inductive Redirs : List Token → List (Op × Word) → Prop where
  | nil : Redirs [] []
  | cons (op : Op) (file : Word) {ts : List Token} {rs : List (Op × Word)} (later : Redirs ts rs) :
      Redirs (op.token :: .word file :: ts) ((op, file) :: rs)

/-- (word redir*)* -/
inductive Args : List Token → List Word → List (Op × Word) → Prop where
  | nil : Args [] [] []
  | cons (arg : Word) {us ts : List Token} {rs rs' : List (Op × Word)} {args : List Word} (redirs : Redirs us rs)
      (later : Args ts args rs') : Args (.word arg :: (us ++ ts)) (arg :: args) (rs ++ rs')

mutual

/-- line -> pipe '&'* [';' line] -/
inductive Line : List Token → Cmd Word → Prop where
  | last (n : Nat) {ts : List Token} {cmd : Cmd Word} (first : Pipe ts cmd) :
      Line (ts ++ List.replicate n .amp) (Cmd.back^[n] cmd)
  | more (n : Nat) {ts us : List Token} {cmd cmd' : Cmd Word} (first : Pipe ts cmd) (later : Line us cmd') :
      Line (ts ++ (List.replicate n .amp ++ .semi :: us)) (.list (Cmd.back^[n] cmd) cmd')

/-- pipe -> exec ['|' pipe] -/
inductive Pipe : List Token → Cmd Word → Prop where
  | last {ts : List Token} {cmd : Cmd Word} (first : Exec ts cmd) : Pipe ts cmd
  | more {ts us : List Token} {cmd cmd' : Cmd Word} (first : Exec ts cmd) (later : Pipe us cmd') :
      Pipe (ts ++ .bar :: us) (.pipe cmd cmd')

/-- exec -> '(' line ')' redir* | redir* (word redir*)* -/
inductive Exec : List Token → Cmd Word → Prop where
  | block {ts us : List Token} {cmd : Cmd Word} {rs : List (Op × Word)} (body : Line ts cmd) (redirs : Redirs us rs) :
      Exec (.lpar :: (ts ++ .rpar :: us)) (wrap rs cmd)
  | simple {us ts : List Token} {rs rs' : List (Op × Word)} {args : List Word} (redirs : Redirs us rs)
      (words : Args ts args rs') (few : args.length ≤ MAXARGS - 1) :
      Exec (us ++ ts) (wrap (rs ++ rs') (.exec args))

end

end Grammar

section Lexing

variable {line : List UInt8} {s : Nat} {t : Token} {ts : List Token}

-- The code that `gettoken` returns for a token, and the character that `peek` looks at.
def Token.ret : Token → UInt8
  | word _ => 'a'.toUInt8
  | bar => '|'.toUInt8
  | lpar => '('.toUInt8
  | rpar => ')'.toUInt8
  | semi => ';'.toUInt8
  | amp => '&'.toUInt8
  | lt => '<'.toUInt8
  | gt => '>'.toUInt8
  | app => '+'.toUInt8

def Token.first : Token → UInt8
  | app => '>'.toUInt8
  | t => t.ret

/-- `ts` are the tokens from the pointer `s` on. -/
structure At (line : List UInt8) (s : Nat) (ts : List Token) : Prop where
  tokens : lex (line.drop s) = ts
  within : s ≤ line.length

/-- The span is a word of the line. -/
structure Span.Word (line : List UInt8) (a : Span) : Prop where
  start : isWord (char line a.q) = true
  stop : a.eq = wordEnd line a.q
  within : a.eq ≤ line.length

def Span.text (line : List UInt8) (a : Span) : List UInt8 := (line.drop a.q).takeWhile isWord

theorem lex_white {c : UInt8} (text : List UInt8) (white : isWhite c = true) : lex (c :: text) = lex text := by
  rw [lex.eq_def]
  simp only [white, if_true]

theorem lex_dropWhile (text : List UInt8) : lex (text.dropWhile isWhite) = lex text := by
  induction text with
  | nil => rfl
  | cons c text ih =>
    by_cases white : isWhite c = true
    · rw [List.dropWhile_cons_of_pos white, ih, lex_white text white]
    · rw [List.dropWhile_cons_of_neg white]

theorem drop_add_takeWhile (p : UInt8 → Bool) (line : List UInt8) (s : Nat) :
    line.drop (s + ((line.drop s).takeWhile p).length) = (line.drop s).dropWhile p := by
  have whole := @List.takeWhile_append_dropWhile _ p (line.drop s)
  rw [← List.drop_drop]
  generalize (line.drop s).takeWhile p = front at whole ⊢
  generalize (line.drop s).dropWhile p = back at whole ⊢
  rw [← whole]
  exact List.drop_left

theorem add_takeWhile_le (p : UInt8 → Bool) (line : List UInt8) (s : Nat) (within : s ≤ line.length) :
    s + ((line.drop s).takeWhile p).length ≤ line.length := by
  have := (List.takeWhile_sublist p (l := line.drop s)).length_le
  rw [List.length_drop] at this
  omega

theorem At.skip (at_ : At line s ts) : At line (skip line s) ts where
  tokens := by
    rw [Shell.skip, drop_add_takeWhile, lex_dropWhile]
    exact at_.tokens
  within := add_takeWhile_le isWhite line s at_.within

theorem skip_cases (line : List UInt8) (s : Nat) (within : s ≤ line.length) :
    (line.drop (skip line s) = [] ∧ skip line s = line.length) ∨
      ∃ c text, line.drop (skip line s) = c :: text ∧ isWhite c = false ∧ char line (skip line s) = c := by
  cases rest : line.drop (skip line s) with
  | nil =>
    left
    have above := List.drop_eq_nil_iff.mp rest
    have below : skip line s ≤ line.length := add_takeWhile_le isWhite line s within
    exact ⟨rfl, by omega⟩
  | cons c text =>
    right
    refine ⟨c, text, rfl, ?_, ?_⟩
    · have dropped := drop_add_takeWhile isWhite line s
      rw [← skip, rest] at dropped
      have head := List.head?_dropWhile_not isWhite (line.drop s)
      rw [← dropped] at head
      simpa using head
    · have head := congrArg List.head? rest
      rw [List.head?_drop, List.head?_cons] at head
      rw [char, List.getD_eq_getElem?_getD, head, Option.getD_some]

theorem lex_symbol {c : UInt8} (text : List UInt8) (known : Token.ofSymbol c = some t) :
    lex (c :: text) = t :: lex text ∧ t.ret = c ∧ t.first = c ∧ (∀ w, t ≠ .word w) ∧
      c ∈ ['|'.toUInt8, '('.toUInt8, ')'.toUInt8, ';'.toUInt8, '&'.toUInt8, '<'.toUInt8] := by
  rw [lex.eq_def]
  unfold Token.ofSymbol at known
  split_ifs at known <;> cases known <;> subst c <;> exact ⟨rfl, rfl, rfl, by simp, by decide⟩

theorem ofSymbol_none {c : UInt8} (unknown : Token.ofSymbol c = none) (other : c ≠ '>'.toUInt8) :
    c ∉ ['|'.toUInt8, '('.toUInt8, ')'.toUInt8, ';'.toUInt8, '&'.toUInt8, '<'.toUInt8] ∧ c ∉ symbols := by
  unfold Token.ofSymbol at unknown
  split_ifs at unknown with bar lpar rpar semi amp lt
  constructor
  · simp [bar, lpar, rpar, semi, amp, lt]
  · change c ∉ ['<'.toUInt8, '|'.toUInt8, '>'.toUInt8, '&'.toUInt8, ';'.toUInt8, '('.toUInt8, ')'.toUInt8]
    simp [bar, lpar, rpar, semi, amp, lt, other]

theorem lex_word {c : UInt8} (text : List UInt8) (black : isWhite c = false) (unknown : Token.ofSymbol c = none)
    (other : c ≠ '>'.toUInt8) :
    lex (c :: text) = .word ((c :: text).takeWhile isWord) :: lex ((c :: text).dropWhile isWord) ∧ isWord c = true := by
  have inWord : isWord c = true := by
    have symbol := (ofSymbol_none unknown other).2
    have notWhite : c ∉ whitespace := by simpa [isWhite] using black
    simp [isWord, symbol, notWhite]
  refine ⟨?_, inWord⟩
  rw [lex.eq_def, List.takeWhile_cons_of_pos inWord, List.dropWhile_cons_of_pos inWord]
  simp only [black, other, unknown]
  rfl

theorem drop_succ_of_cons {c : UInt8} {text : List UInt8} (rest : line.drop s = c :: text) :
    line.drop (s + 1) = text ∧ s + 1 ≤ line.length := by
  constructor
  · rw [← List.tail_drop, rest, List.tail_cons]
  · by_contra beyond
    rw [List.drop_eq_nil_of_le (by omega)] at rest
    cases rest

theorem gettoken_cons (clean : 0 ∉ line) (at_ : At line s (t :: ts)) :
    (gettoken line s).ret = t.ret ∧ At line (gettoken line s).s ts ∧
      ∀ w, t = .word w → (gettoken line s).span.Word line ∧ (gettoken line s).span.text line = w := by
  have tokens := at_.skip.tokens
  rcases skip_cases line s at_.within with ⟨empty, -⟩ | ⟨c, text, rest, black, here⟩
  · rw [empty, lex] at tokens
    cases tokens
  · have nonzero : c ≠ 0 := by
      rintro rfl
      exact clean (List.mem_of_mem_drop (rest ▸ List.mem_cons_self))
    obtain ⟨next, within⟩ := drop_succ_of_cons rest
    rw [rest] at tokens
    simp only [gettoken, here, nonzero, if_false]
    cases known : Token.ofSymbol c with
    | some t' =>
      obtain ⟨lexed, ret, -, notWord, listed⟩ := lex_symbol text known
      rw [lexed] at tokens
      obtain ⟨rfl, rfl⟩ := List.cons.inj tokens
      rw [if_pos listed]
      exact ⟨ret.symm, At.skip ⟨by rw [next], within⟩, fun w same => absurd same (notWord w)⟩
    | none =>
      by_cases other : c = '>'.toUInt8
      · subst other
        rw [if_neg (by decide), if_pos rfl]
        cases text with
        | nil =>
          have ends : char line (skip line s + 1) ≠ '>'.toUInt8 := by
            have beyond := List.drop_eq_nil_iff.mp next
            rw [char, List.getD_eq_default _ _ beyond]
            decide
          have lexed : lex ['>'.toUInt8] = [.gt] := by
            rw [lex.eq_def]
            rfl
          rw [lexed] at tokens
          obtain ⟨rfl, rfl⟩ := List.cons.inj tokens
          rw [if_neg ends]
          exact ⟨rfl, At.skip ⟨by rw [next, lex], within⟩, by simp⟩
        | cons d text =>
          have head := congrArg List.head? next
          rw [List.head?_drop, List.head?_cons] at head
          have second : char line (skip line s + 1) = d := by
            rw [char, List.getD_eq_getElem?_getD, head, Option.getD_some]
          obtain ⟨next', within'⟩ := drop_succ_of_cons next
          rw [second]
          by_cases double : d = '>'.toUInt8
          · have lexed : lex ('>'.toUInt8 :: d :: text) = .app :: lex text := by
              rw [lex.eq_def]
              simp only [double]
              rfl
            rw [lexed] at tokens
            obtain ⟨rfl, rfl⟩ := List.cons.inj tokens
            rw [if_pos double]
            exact ⟨rfl, At.skip ⟨by rw [← next'], within'⟩, by simp⟩
          · have lexed : lex ('>'.toUInt8 :: d :: text) = .gt :: lex (d :: text) := by
              rw [lex.eq_def]
              simp only [double]
              rfl
            rw [lexed] at tokens
            obtain ⟨rfl, rfl⟩ := List.cons.inj tokens
            rw [if_neg double]
            exact ⟨rfl, At.skip ⟨by rw [next], within⟩, by simp⟩
      · obtain ⟨lexed, inWord⟩ := lex_word text black known other
        rw [lexed] at tokens
        obtain ⟨rfl, rfl⟩ := List.cons.inj tokens
        rw [if_neg (ofSymbol_none known other).1, if_neg other]
        have bound : wordEnd line (skip line s) ≤ line.length := add_takeWhile_le isWord line _ at_.skip.within
        refine ⟨rfl, At.skip ⟨?_, bound⟩, ?_⟩
        · rw [wordEnd, drop_add_takeWhile, rest]
        · intro w same
          cases same
          exact ⟨⟨by rw [here, inWord], rfl, bound⟩, by rw [Span.text, rest]⟩

theorem lex_first {c : UInt8} (text : List UInt8) (black : isWhite c = false) :
    ∃ t ts, lex (c :: text) = t :: ts ∧ (t.first = c ∨ isWord c = true ∧ ∃ w, t = .word w) := by
  cases known : Token.ofSymbol c with
  | some t =>
    obtain ⟨lexed, -, first, -, -⟩ := lex_symbol text known
    exact ⟨t, _, lexed, Or.inl first⟩
  | none =>
    by_cases other : c = '>'.toUInt8
    · subst other
      rw [lex.eq_def]
      cases text with
      | nil => exact ⟨.gt, [], rfl, Or.inl rfl⟩
      | cons d text =>
        by_cases double : d = '>'.toUInt8
        · exact ⟨.app, lex text, by simp only [double]; rfl, Or.inl rfl⟩
        · exact ⟨.gt, lex (d :: text), by simp only [double]; rfl, Or.inl rfl⟩
    · obtain ⟨lexed, inWord⟩ := lex_word text black known other
      exact ⟨_, _, lexed, Or.inr ⟨inWord, _, rfl⟩⟩

theorem At.ended (at_ : At line s []) : Shell.skip line s = line.length := by
  rcases skip_cases line s at_.within with ⟨-, last⟩ | ⟨c, text, rest, black, -⟩
  · exact last
  · obtain ⟨t, ts, lexed, -⟩ := lex_first text black
    have tokens := at_.skip.tokens
    rw [rest, lexed] at tokens
    cases tokens

theorem At.ended_iff (at_ : At line s ts) : Shell.skip line s = line.length ↔ ts = [] := by
  constructor
  · intro last
    have tokens := at_.skip.tokens
    rw [last, List.drop_length, lex] at tokens
    exact tokens.symm
  · rintro rfl
    exact at_.ended

theorem gettoken_nil (at_ : At line s []) : (gettoken line s).ret = 0 ∧ At line (gettoken line s).s [] := by
  have zero : char line (skip line s) = 0 := by
    rw [char, List.getD_eq_default _ _ (le_of_eq at_.ended.symm)]
  constructor
  · simp only [gettoken, zero, if_true]
  · simp only [gettoken, zero, if_true]
    exact at_.skip.skip

theorem peek_at (at_ : At line s ts) (toks : List UInt8) : At line (peek line s toks).1 ts := at_.skip

theorem peek_flag (clean : 0 ∉ line) (at_ : At line s ts) (toks : List UInt8) (known : ∀ c ∈ toks, c ∈ symbols) :
    (peek line s toks).2 = ts.head?.any (fun t => decide (t.first ∈ toks)) := by
  have tokens := at_.skip.tokens
  simp only [peek]
  rcases skip_cases line s at_.within with ⟨empty, last⟩ | ⟨c, text, rest, black, here⟩
  · rw [empty, lex] at tokens
    have zero : char line (skip line s) = 0 := by
      rw [char, List.getD_eq_default _ _ (le_of_eq last.symm)]
    rw [← tokens, zero]
    simp
  · have nonzero : c ≠ 0 := by
      rintro rfl
      exact clean (List.mem_of_mem_drop (rest ▸ List.mem_cons_self))
    obtain ⟨t, later, lexed, first⟩ := lex_first text black
    rw [rest, lexed] at tokens
    rw [← tokens, here]
    rcases first with same | ⟨inWord, w, rfl⟩
    · simp [nonzero, same]
    · have outside : c ∉ toks := fun member => by
        have := known c member
        simp [isWord, this] at inWord
      have outside' : (Token.word w).first ∉ toks := fun member =>
        absurd (known _ member) (show 'a'.toUInt8 ∉ symbols by decide)
      simp [outside, outside']

end Lexing

end Xv6.Shell
