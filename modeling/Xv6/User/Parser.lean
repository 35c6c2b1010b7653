import Xv6.User.Grammar

set_option autoImplicit false

/-!
# The shell parses its grammar

Each parse function consumes tokens that derive the command it returns, and finds every derivation
whose next token it cannot mistake for its own. Both are proved by induction on the bound of the calls.
-/

namespace Xv6.Shell

section Trees

variable {W V : Type}

def Cmd.Forall (P : W → Prop) : Cmd W → Prop
  | .exec argv => ∀ a ∈ argv, P a
  | .redir cmd file _ _ => cmd.Forall P ∧ P file
  | .pipe left right => left.Forall P ∧ right.Forall P
  | .list left right => left.Forall P ∧ right.Forall P
  | .back cmd => cmd.Forall P

theorem map_addArg (f : W → V) (cmd : Cmd W) (a : W) : (cmd.addArg a).map f = (cmd.map f).addArg (f a) := by
  induction cmd with
  | exec argv => simp [Cmd.addArg, Cmd.map]
  | redir cmd file mode fd ih => simp [Cmd.addArg, Cmd.map, ih]
  | pipe | list | back => rfl

theorem forall_addArg (P : W → Prop) (cmd : Cmd W) (a : W) (all : cmd.Forall P) (holds : P a) :
    (cmd.addArg a).Forall P := by
  induction cmd with
  | exec argv =>
    intro b member
    rcases List.mem_append.mp member with old | new
    · exact all b old
    · rw [List.mem_singleton.mp new]
      exact holds
  | redir cmd file mode fd ih => exact ⟨ih all.1, all.2⟩
  | pipe | list | back => exact all

theorem wrap_append (rs : List (Op × Word)) (op : Op) (file : Word) (cmd : Cmd Word) :
    wrap (rs ++ [(op, file)]) cmd = .redir (wrap rs cmd) file op.mode op.fd := by
  simp [wrap]

theorem addArg_wrap (rs : List (Op × Word)) (args : List Word) (w : Word) :
    (wrap rs (.exec args)).addArg w = wrap rs (.exec (args ++ [w])) := by
  induction rs using List.reverseRecOn with
  | nil => rfl
  | append_singleton rs r ih =>
    obtain ⟨op, file⟩ := r
    rw [wrap_append, wrap_append, Cmd.addArg, ih]

/-- The command with pointers into the line is the command with words. -/
structure Reads (line : List UInt8) (cmd : Cmd Span) (t : Cmd Word) : Prop where
  text : cmd.map (Span.text line) = t
  words : cmd.Forall (Span.Word line)

variable {line : List UInt8} {cmd : Cmd Span} {t : Cmd Word}

theorem Reads.back (reads : Reads line cmd t) : Reads line (.back cmd) (.back t) :=
  ⟨congrArg Cmd.back reads.text, reads.words⟩

theorem Reads.addArg {rs : List (Op × Word)} {args : List Word} (reads : Reads line cmd (wrap rs (.exec args)))
    (a : Span) (word : a.Word line) : Reads line (cmd.addArg a) (wrap rs (.exec (args ++ [a.text line]))) where
  text := by rw [map_addArg, reads.text, addArg_wrap]
  words := forall_addArg _ cmd a reads.words word

theorem Reads.redir (reads : Reads line cmd t) (op : Op) (a : Span) (word : a.Word line) :
    Reads line (.redir cmd a op.mode op.fd) (wrap [(op, a.text line)] t) where
  text := by simp [Cmd.map, reads.text, wrap]
  words := ⟨reads.words, word⟩

end Trees

section Equations

/-! The parse functions with the pair that `peek` returns taken apart. -/

variable (line : List UInt8) (fuel argc s : Nat) (cmd : Cmd Span)

theorem parseredirs_succ :
    parseredirs line (fuel + 1) cmd s =
      if (peek line s ['<'.toUInt8, '>'.toUInt8]).2 then
        let tok := gettoken line (peek line s ['<'.toUInt8, '>'.toUInt8]).1
        let file := gettoken line tok.s
        if file.ret ≠ 'a'.toUInt8 then .error (.panic .missingFile)
        else
          let cmd :=
            if tok.ret = '<'.toUInt8 then .redir cmd file.span O_RDONLY 0
            else if tok.ret = '>'.toUInt8 then .redir cmd file.span (O_WRONLY ||| O_CREATE) 1
            else if tok.ret = '+'.toUInt8 then .redir cmd file.span (O_WRONLY ||| O_CREATE) 1
            else cmd
          parseredirs line fuel cmd file.s
      else .ok (cmd, (peek line s ['<'.toUInt8, '>'.toUInt8]).1) := rfl

theorem parseargs_succ :
    parseargs line (fuel + 1) cmd argc s =
      if (peek line s ['|'.toUInt8, ')'.toUInt8, '&'.toUInt8, ';'.toUInt8]).2 then
        .ok (cmd, (peek line s ['|'.toUInt8, ')'.toUInt8, '&'.toUInt8, ';'.toUInt8]).1)
      else
        let tok := gettoken line (peek line s ['|'.toUInt8, ')'.toUInt8, '&'.toUInt8, ';'.toUInt8]).1
        if tok.ret = 0 then .ok (cmd, tok.s)
        else if tok.ret ≠ 'a'.toUInt8 then .error (.panic .malformed)
        else if argc + 1 ≥ MAXARGS then .error (.panic .tooManyArgs)
        else (parseredirs line fuel (cmd.addArg tok.span) tok.s).bind fun r =>
          parseargs line fuel r.1 (argc + 1) r.2 := rfl

theorem parseback_succ :
    parseback line (fuel + 1) cmd s =
      if (peek line s ['&'.toUInt8]).2 then
        parseback line fuel (.back cmd) (gettoken line (peek line s ['&'.toUInt8]).1).s
      else .ok (cmd, (peek line s ['&'.toUInt8]).1) := rfl

theorem parseline_succ :
    parseline line (fuel + 1) s =
      (parsepipe line fuel s).bind fun first =>
        (parseback line fuel first.1 first.2).bind fun r =>
          if (peek line r.2 [';'.toUInt8]).2 then
            (parseline line fuel (gettoken line (peek line r.2 [';'.toUInt8]).1).s).bind fun right =>
              .ok (.list r.1 right.1, right.2)
          else .ok (r.1, (peek line r.2 [';'.toUInt8]).1) := by
  rw [parseline]
  rfl

theorem parsepipe_succ :
    parsepipe line (fuel + 1) s =
      (parseexec line fuel s).bind fun r =>
        if (peek line r.2 ['|'.toUInt8]).2 then
          (parsepipe line fuel (gettoken line (peek line r.2 ['|'.toUInt8]).1).s).bind fun right =>
            .ok (.pipe r.1 right.1, right.2)
        else .ok (r.1, (peek line r.2 ['|'.toUInt8]).1) := by
  rw [parsepipe]
  rfl

theorem parseexec_succ :
    parseexec line (fuel + 1) s =
      if (peek line s ['('.toUInt8]).2 then parseblock line fuel (peek line s ['('.toUInt8]).1
      else (parseredirs line fuel (.exec []) (peek line s ['('.toUInt8]).1).bind fun r =>
        parseargs line fuel r.1 0 r.2 := by
  rw [parseexec]
  rfl

theorem parseblock_succ :
    parseblock line (fuel + 1) s =
      if (peek line s ['('.toUInt8]).2 then
        (parseline line fuel (gettoken line (peek line s ['('.toUInt8]).1).s).bind fun r =>
          if (peek line r.2 [')'.toUInt8]).2 then
            parseredirs line fuel r.1 (gettoken line (peek line r.2 [')'.toUInt8]).1).s
          else .error (.panic .missingParen)
      else .error (.panic .parseblock) := by
  rw [parseblock]
  rfl

end Equations

section Steps

/-! One round of each loop, by the tokens that come next. -/

variable {line : List UInt8} {s : Nat} {ts : List Token}

theorem accept (clean : 0 ∉ line) (at_ : At line s ts) (tok : Token)
    (single : tok ∈ [Token.bar, Token.lpar, Token.rpar, Token.semi, Token.amp]) :
    (∃ later, ts = tok :: later ∧ (peek line s [tok.first]).2 = true ∧
        At line (gettoken line (peek line s [tok.first]).1).s later) ∨
      (∀ later, ts ≠ tok :: later) ∧ (peek line s [tok.first]).2 = false ∧ At line (peek line s [tok.first]).1 ts := by
  simp only [List.mem_cons, List.not_mem_nil, or_false] at single
  have known : ∀ c ∈ [tok.first], c ∈ symbols := by
    intro c member
    rw [List.mem_singleton.mp member]
    rcases single with rfl | rfl | rfl | rfl | rfl <;> decide
  have flag := peek_flag clean at_ [tok.first] known
  have moved := peek_at at_ [tok.first]
  have only (t : Token) (same : t.first = tok.first) : t = tok := by
    rcases single with rfl | rfl | rfl | rfl | rfl <;> cases t with
    | word w => exact absurd (show 'a'.toUInt8 = _ from same) (by decide)
    | _ => first | rfl | exact absurd same (by decide)
  cases ts with
  | nil => exact Or.inr ⟨by simp, flag, moved⟩
  | cons t later =>
    by_cases same : t = tok
    · subst same
      exact Or.inl ⟨later, rfl, by simpa using flag, (gettoken_cons clean moved).2.1⟩
    · refine Or.inr ⟨fun _ equal => same (List.cons.inj equal).1, ?_, moved⟩
      rw [flag]
      simpa using fun equal => same (only t equal)

def StartsRedir (ts : List Token) : Prop := ∃ (op : Op) (later : List Token), ts = op.token :: later

theorem token_redir (t : Token) : t.first ∈ ['<'.toUInt8, '>'.toUInt8] ↔ ∃ op : Op, t = op.token := by
  constructor
  · intro member
    cases t with
    | lt => exact ⟨.input, rfl⟩
    | gt => exact ⟨.output, rfl⟩
    | app => exact ⟨.append, rfl⟩
    | word w => exact absurd (show 'a'.toUInt8 ∈ _ from member) (by decide)
    | bar | lpar | rpar | semi | amp => exact absurd member (by decide)
  · rintro ⟨op, rfl⟩
    cases op <;> decide

theorem ret_word (t : Token) : t.ret = 'a'.toUInt8 ↔ ∃ w, t = .word w := by
  constructor
  · intro same
    cases t with
    | word w => exact ⟨w, rfl⟩
    | _ => exact absurd same (by decide)
  · rintro ⟨w, rfl⟩
    rfl

-- The tokens from which a redirection list goes on, stops or fails.
inductive RedirStep (line : List UInt8) (cmd : Cmd Span) (t : Cmd Word) (fuel : Nat) : List Token → Parse → Prop where
  | done (ts : List Token) (s' : Nat) (other : ¬ StartsRedir ts) (at_ : At line s' ts) :
      RedirStep line cmd t fuel ts (.ok (cmd, s'))
  | more (op : Op) (w : Word) (ts : List Token) (cmd' : Cmd Span) (s' : Nat) (at_ : At line s' ts)
      (reads : Reads line cmd' (wrap [(op, w)] t)) :
      RedirStep line cmd t fuel (op.token :: .word w :: ts) (parseredirs line fuel cmd' s')
  | fails (op : Op) (ts : List Token) (missing : ∀ w later, ts ≠ .word w :: later) :
      RedirStep line cmd t fuel (op.token :: ts) (.error (.panic .missingFile))

theorem redir_symbols : ∀ c ∈ ['<'.toUInt8, '>'.toUInt8], c ∈ symbols := by
  simp only [List.mem_cons, List.not_mem_nil, or_false]
  rintro c (rfl | rfl) <;> decide

theorem parseredirs_step (clean : 0 ∉ line) (at_ : At line s ts) {cmd : Cmd Span} {t : Cmd Word}
    (reads : Reads line cmd t) (fuel : Nat) :
    RedirStep line cmd t fuel ts (parseredirs line (fuel + 1) cmd s) := by
  have flag := peek_flag clean at_ ['<'.toUInt8, '>'.toUInt8] redir_symbols
  have moved := peek_at at_ ['<'.toUInt8, '>'.toUInt8]
  rw [parseredirs_succ]
  cases ts with
  | nil =>
    rw [flag]
    exact .done [] _ (by rintro ⟨op, later, equal⟩; cases equal) moved
  | cons tok later =>
    by_cases redir : ∃ op : Op, tok = op.token
    · obtain ⟨op, rfl⟩ := redir
      have taken : (peek line s ['<'.toUInt8, '>'.toUInt8]).2 = true := by
        rw [flag]
        simpa using (token_redir op.token).mpr ⟨op, rfl⟩
      obtain ⟨ret, after, -⟩ := gettoken_cons clean moved
      rw [taken, if_pos rfl]
      simp only
      cases later with
      | nil =>
        rw [if_pos (by rw [(gettoken_nil after).1]; decide)]
        exact .fails op [] (by simp)
      | cons file later =>
        obtain ⟨ret', after', word⟩ := gettoken_cons clean after
        by_cases isFile : ∃ w, file = .word w
        · obtain ⟨w, rfl⟩ := isFile
          obtain ⟨good, text⟩ := word w rfl
          rw [if_neg (by rw [ret']; simp [Token.ret]), ret]
          subst text
          have step := reads.redir op _ good
          cases op <;> exact .more _ _ _ _ _ after' step
        · rw [if_pos (by rw [ret']; exact mt (ret_word file).mp isFile)]
          refine .fails op _ ?_
          rintro w rest equal
          cases equal
          exact isFile ⟨w, rfl⟩
    · have other : (peek line s ['<'.toUInt8, '>'.toUInt8]).2 = false := by
        rw [flag]
        simpa using mt (token_redir tok).mp redir
      rw [other]
      refine .done _ _ ?_ moved
      rintro ⟨op, rest, equal⟩
      exact redir ⟨op, (List.cons.inj equal).1⟩

-- The end of a simple command.
def Ends (ts : List Token) : Prop :=
  ∀ t later, ts = t :: later → t ∈ [Token.bar, Token.rpar, Token.amp, Token.semi]

theorem token_ends (t : Token) :
    t.first ∈ ['|'.toUInt8, ')'.toUInt8, '&'.toUInt8, ';'.toUInt8] ↔
      t ∈ [Token.bar, Token.rpar, Token.amp, Token.semi] := by
  cases t with
  | word w => exact iff_of_false (show 'a'.toUInt8 ∉ _ by decide) (by simp)
  | _ => decide

theorem ends_symbols : ∀ c ∈ ['|'.toUInt8, ')'.toUInt8, '&'.toUInt8, ';'.toUInt8], c ∈ symbols := by
  simp only [List.mem_cons, List.not_mem_nil, or_false]
  rintro c (rfl | rfl | rfl | rfl) <;> decide

inductive ArgStep (line : List UInt8) (ret : Cmd Span) (argc fuel : Nat) : List Token → Parse → Prop where
  | done (ts : List Token) (s' : Nat) (ends : Ends ts) (at_ : At line s' ts) :
      ArgStep line ret argc fuel ts (.ok (ret, s'))
  | more (w : Word) (ts : List Token) (a : Span) (s' : Nat) (few : argc + 1 < MAXARGS) (at_ : At line s' ts)
      (word : a.Word line) (text : a.text line = w) :
      ArgStep line ret argc fuel (.word w :: ts)
        ((parseredirs line fuel (ret.addArg a) s').bind fun r => parseargs line fuel r.1 (argc + 1) r.2)
  | many (w : Word) (ts : List Token) (many : MAXARGS ≤ argc + 1) :
      ArgStep line ret argc fuel (.word w :: ts) (.error (.panic .tooManyArgs))
  | fails (t : Token) (ts : List Token) (noWord : ∀ w, t ≠ .word w)
      (noEnd : t ∉ [Token.bar, Token.rpar, Token.amp, Token.semi]) :
      ArgStep line ret argc fuel (t :: ts) (.error (.panic .malformed))

theorem parseargs_step (clean : 0 ∉ line) (at_ : At line s ts) (ret : Cmd Span) (argc fuel : Nat) :
    ArgStep line ret argc fuel ts (parseargs line (fuel + 1) ret argc s) := by
  have flag := peek_flag clean at_ ['|'.toUInt8, ')'.toUInt8, '&'.toUInt8, ';'.toUInt8] ends_symbols
  have moved := peek_at at_ ['|'.toUInt8, ')'.toUInt8, '&'.toUInt8, ';'.toUInt8]
  rw [parseargs_succ]
  cases ts with
  | nil =>
    obtain ⟨ret, after⟩ := gettoken_nil moved
    rw [flag, if_neg (by simp)]
    simp only [ret]
    exact .done [] _ (by intro t later equal; cases equal) after
  | cons t later =>
    obtain ⟨code, after, word⟩ := gettoken_cons clean moved
    by_cases ends : t ∈ [Token.bar, Token.rpar, Token.amp, Token.semi]
    · have taken : (peek line s ['|'.toUInt8, ')'.toUInt8, '&'.toUInt8, ';'.toUInt8]).2 = true := by
        rw [flag]
        simpa only [List.head?_cons, Option.any_some, decide_eq_true_eq] using (token_ends t).mpr ends
      rw [taken, if_pos rfl]
      refine .done _ _ ?_ moved
      intro t' rest equal
      cases equal
      exact ends
    · have notTaken : ¬ (peek line s ['|'.toUInt8, ')'.toUInt8, '&'.toUInt8, ';'.toUInt8]).2 = true := by
        rw [flag]
        simpa only [List.head?_cons, Option.any_some, decide_eq_true_eq] using mt (token_ends t).mp ends
      have nonzero : t.ret ≠ 0 := by
        cases t with
        | word w => exact show 'a'.toUInt8 ≠ 0 by decide
        | _ => decide
      rw [if_neg notTaken]
      simp only [code, nonzero, if_false]
      by_cases isArg : ∃ w, t = .word w
      · obtain ⟨w, rfl⟩ := isArg
        obtain ⟨good, text⟩ := word w rfl
        rw [if_neg (by simp [Token.ret])]
        by_cases many : argc + 1 ≥ MAXARGS
        · rw [if_pos many]
          exact .many w later many
        · rw [if_neg many]
          exact .more w later _ _ (by omega) after good text
      · rw [if_pos (mt (ret_word t).mp isArg)]
        exact .fails t later (fun w same => isArg ⟨w, same⟩) ends

end Steps

section Soundness

variable {line : List UInt8} {ts : List Token}

theorem bind_ok {α β : Type} {m : Except Stop α} {k : α → Except Stop β} {b : β} (result : m.bind k = .ok b) :
    ∃ a, m = .ok a ∧ k a = .ok b := by
  cases m with
  | error stop => cases result
  | ok a => exact ⟨a, rfl, result⟩

theorem parseredirs_sound (clean : 0 ∉ line) (fuel : Nat) {s : Nat} {cmd cmd' : Cmd Span} {t : Cmd Word} {s' : Nat}
    (at_ : At line s ts) (reads : Reads line cmd t) (parsed : parseredirs line fuel cmd s = .ok (cmd', s')) :
    ∃ us vs rs, ts = us ++ vs ∧ Redirs us rs ∧ At line s' vs ∧ Reads line cmd' (wrap rs t) := by
  induction fuel generalizing s cmd t ts with
  | zero => cases parsed
  | succ fuel ih =>
    have step := parseredirs_step clean at_ reads fuel
    rw [parsed] at step
    generalize result : Except.ok (cmd', s') = r at step
    cases step with
    | done ts s'' other after =>
      cases result
      exact ⟨[], ts, [], rfl, .nil, after, reads⟩
    | more op w ts cmd'' s'' after reads' =>
      obtain ⟨us, vs, rs, rfl, redirs, rest, final⟩ := ih after reads' result.symm
      exact ⟨_, vs, _, rfl, .cons op w redirs, rest, final⟩
    | fails op ts missing => cases result

theorem parseargs_sound (clean : 0 ∉ line) (fuel : Nat) {s : Nat} {ret ret' : Cmd Span} {s' : Nat}
    {rs : List (Op × Word)} {args : List Word} (at_ : At line s ts)
    (reads : Reads line ret (wrap rs (.exec args))) (few : args.length < MAXARGS)
    (parsed : parseargs line fuel ret args.length s = .ok (ret', s')) :
    ∃ us vs rs' args', ts = us ++ vs ∧ Args us args' rs' ∧ (args ++ args').length < MAXARGS ∧ At line s' vs ∧
      Reads line ret' (wrap (rs ++ rs') (.exec (args ++ args'))) := by
  induction fuel generalizing s ret ts rs args with
  | zero => cases parsed
  | succ fuel ih =>
    have step := parseargs_step clean at_ ret args.length fuel
    rw [parsed] at step
    generalize result : Except.ok (ret', s') = r at step
    cases step with
    | done ts s'' ends after =>
      cases result
      exact ⟨[], ts, [], [], rfl, .nil, by simpa using few, after, by simpa using reads⟩
    | more w ts a s'' less after word text =>
      obtain ⟨⟨ret₁, s₁⟩, redirected, later⟩ := bind_ok result.symm
      obtain ⟨us, vs, rs₁, rfl, redirs, after', reads'⟩ := parseredirs_sound clean fuel after (reads.addArg a word) redirected
      have wrapped : wrap rs₁ (wrap rs (.exec (args ++ [a.text line]))) = wrap (rs ++ rs₁) (.exec (args ++ [w])) := by
        rw [text, wrap, wrap, wrap, List.foldl_append]
      rw [wrapped] at reads'
      have count : args.length + 1 = (args ++ [w]).length := by simp
      rw [count] at less later
      obtain ⟨us', vs', rs', args', rfl, words, total, final, reads''⟩ := ih after' reads' less later
      refine ⟨_, vs', rs₁ ++ rs', w :: args', by simp, .cons w redirs words, ?_, final, ?_⟩
      · simpa using total
      · simpa using reads''
    | many w ts many => cases result
    | fails t ts noWord noEnd => cases result

theorem parseback_sound (clean : 0 ∉ line) (fuel : Nat) {s : Nat} {cmd cmd' : Cmd Span} {t : Cmd Word} {s' : Nat}
    (at_ : At line s ts) (reads : Reads line cmd t) (parsed : parseback line fuel cmd s = .ok (cmd', s')) :
    ∃ n vs, ts = List.replicate n .amp ++ vs ∧ At line s' vs ∧ Reads line cmd' (Cmd.back^[n] t) := by
  induction fuel generalizing s cmd t ts with
  | zero => cases parsed
  | succ fuel ih =>
    rw [parseback_succ] at parsed
    rcases accept clean at_ .amp (by simp) with ⟨later, rfl, taken, after⟩ | ⟨-, notTaken, after⟩
    · change (peek line s ['&'.toUInt8]).2 = true at taken
      rw [if_pos taken] at parsed
      obtain ⟨n, vs, rfl, rest, final⟩ := ih after reads.back parsed
      exact ⟨n + 1, vs, rfl, rest, final⟩
    · change (peek line s ['&'.toUInt8]).2 = false at notTaken
      rw [notTaken] at parsed
      cases parsed
      exact ⟨0, ts, rfl, after, reads⟩

/-- What the function consumes derives what it returns. -/
def Sound (line : List UInt8) (parse : Nat → Parse) (derives : List Token → Cmd Word → Prop) : Prop :=
  ∀ s ts cmd s', At line s ts → parse s = .ok (cmd, s') →
    ∃ us vs t, ts = us ++ vs ∧ derives us t ∧ At line s' vs ∧ Reads line cmd t

variable {fuel : Nat}

theorem parseline_sound (clean : 0 ∉ line) (pipe : Sound line (parsepipe line fuel) Pipe)
    (more : Sound line (parseline line fuel) Line) : Sound line (parseline line (fuel + 1)) Line := by
  intro s ts cmd s' at_ parsed
  rw [parseline_succ] at parsed
  obtain ⟨⟨c₁, s₁⟩, first, parsed⟩ := bind_ok parsed
  obtain ⟨⟨c₂, s₂⟩, backed, parsed⟩ := bind_ok parsed
  obtain ⟨us, vs, t₁, rfl, derived, at₁, reads₁⟩ := pipe s ts c₁ s₁ at_ first
  obtain ⟨n, vs, rfl, at₂, reads₂⟩ := parseback_sound clean fuel at₁ reads₁ backed
  rcases accept clean at₂ .semi (by simp) with ⟨later, rfl, taken, at₃⟩ | ⟨-, notTaken, at₃⟩
  · change (peek line s₂ [';'.toUInt8]).2 = true at taken
    rw [if_pos taken] at parsed
    obtain ⟨⟨c₃, s₃⟩, right, parsed⟩ := bind_ok parsed
    cases parsed
    obtain ⟨us', vs', t', rfl, derived', final, reads'⟩ := more _ later c₃ _ at₃ right
    exact ⟨_, vs', _, by simp, .more n derived derived', final, congrArg₂ Cmd.list reads₂.text reads'.text,
      reads₂.words, reads'.words⟩
  · change (peek line s₂ [';'.toUInt8]).2 = false at notTaken
    rw [notTaken] at parsed
    cases parsed
    exact ⟨_, vs, _, by simp, .last n derived, at₃, reads₂⟩

theorem parsepipe_sound (clean : 0 ∉ line) (exec : Sound line (parseexec line fuel) Exec)
    (more : Sound line (parsepipe line fuel) Pipe) : Sound line (parsepipe line (fuel + 1)) Pipe := by
  intro s ts cmd s' at_ parsed
  rw [parsepipe_succ] at parsed
  obtain ⟨⟨c₁, s₁⟩, first, parsed⟩ := bind_ok parsed
  obtain ⟨us, vs, t₁, rfl, derived, at₁, reads₁⟩ := exec s ts c₁ s₁ at_ first
  rcases accept clean at₁ .bar (by simp) with ⟨later, rfl, taken, at₂⟩ | ⟨-, notTaken, at₂⟩
  · change (peek line s₁ ['|'.toUInt8]).2 = true at taken
    rw [if_pos taken] at parsed
    obtain ⟨⟨c₂, s₂⟩, right, parsed⟩ := bind_ok parsed
    cases parsed
    obtain ⟨us', vs', t', rfl, derived', final, reads'⟩ := more _ later c₂ _ at₂ right
    exact ⟨_, vs', _, by simp, .more derived derived', final, congrArg₂ Cmd.pipe reads₁.text reads'.text,
      reads₁.words, reads'.words⟩
  · change (peek line s₁ ['|'.toUInt8]).2 = false at notTaken
    rw [notTaken] at parsed
    cases parsed
    exact ⟨_, vs, _, rfl, .last derived, at₂, reads₁⟩

theorem parseblock_sound (clean : 0 ∉ line) (body : Sound line (parseline line fuel) Line) :
    Sound line (parseblock line (fuel + 1)) Exec := by
  intro s ts cmd s' at_ parsed
  rw [parseblock_succ] at parsed
  rcases accept clean at_ .lpar (by simp) with ⟨later, rfl, taken, at₁⟩ | ⟨-, notTaken, -⟩
  · change (peek line s ['('.toUInt8]).2 = true at taken
    rw [if_pos taken] at parsed
    obtain ⟨⟨c₁, s₁⟩, inner, parsed⟩ := bind_ok parsed
    obtain ⟨us, vs, t₁, rfl, derived, at₂, reads₁⟩ := body _ later c₁ s₁ at₁ inner
    rcases accept clean at₂ .rpar (by simp) with ⟨later', rfl, taken', at₃⟩ | ⟨-, notTaken', -⟩
    · change (peek line s₁ [')'.toUInt8]).2 = true at taken'
      rw [if_pos taken'] at parsed
      obtain ⟨us', vs', rs, rfl, redirs, final, reads'⟩ := parseredirs_sound clean fuel at₃ reads₁ parsed
      exact ⟨_, vs', _, by simp, .block derived redirs, final, reads'⟩
    · change (peek line s₁ [')'.toUInt8]).2 = false at notTaken'
      rw [notTaken'] at parsed
      cases parsed
  · change (peek line s ['('.toUInt8]).2 = false at notTaken
    rw [notTaken] at parsed
    cases parsed

theorem parseexec_sound (clean : 0 ∉ line) (block : Sound line (parseblock line fuel) Exec) :
    Sound line (parseexec line (fuel + 1)) Exec := by
  intro s ts cmd s' at_ parsed
  rw [parseexec_succ] at parsed
  rcases accept clean at_ .lpar (by simp) with ⟨later, rfl, taken, -⟩ | ⟨-, notTaken, at₁⟩
  · change (peek line s ['('.toUInt8]).2 = true at taken
    rw [if_pos taken] at parsed
    exact block _ _ cmd s' (peek_at at_ _) parsed
  · change (peek line s ['('.toUInt8]).2 = false at notTaken
    rw [notTaken] at parsed
    obtain ⟨⟨c₁, s₁⟩, first, parsed⟩ := bind_ok parsed
    have empty : Reads line (.exec []) (.exec []) := ⟨rfl, by simp [Cmd.Forall]⟩
    obtain ⟨us, vs, rs, rfl, redirs, at₂, reads₁⟩ := parseredirs_sound clean fuel at₁ empty first
    obtain ⟨us', vs', rs', args, rfl, words, few, final, reads'⟩ :=
      parseargs_sound clean fuel at₂ reads₁ (by decide) parsed
    exact ⟨_, vs', _, by simp, .simple redirs words (by simp at few; omega), final, by simpa using reads'⟩

theorem parse_sound (clean : 0 ∉ line) (fuel : Nat) :
    Sound line (parseline line fuel) Line ∧ Sound line (parsepipe line fuel) Pipe ∧
      Sound line (parseexec line fuel) Exec ∧ Sound line (parseblock line fuel) Exec := by
  induction fuel with
  | zero =>
    refine ⟨?_, ?_, ?_, ?_⟩ <;> intro s ts cmd s' at_ parsed
    · rw [parseline] at parsed
      cases parsed
    · rw [parsepipe] at parsed
      cases parsed
    · rw [parseexec] at parsed
      cases parsed
    · rw [parseblock] at parsed
      cases parsed
  | succ fuel ih =>
    obtain ⟨line_, pipe, exec, block⟩ := ih
    exact ⟨parseline_sound clean pipe line_, parsepipe_sound clean exec pipe, parseexec_sound clean block,
      parseblock_sound clean line_⟩

end Soundness

end Xv6.Shell
