import Xv6.User.Parser

set_option autoImplicit false

/-!
# The shell accepts exactly its grammar

The parse functions find each derivation, they return, and `nulterminate` leaves the words of the
command as its strings.
-/

namespace Xv6.Shell

section Completeness

variable {line : List UInt8} {fuel : Nat}

theorem bind_rounds {α β : Type} {m : Except Stop α} {k : α → Except Stop β}
    (returns : m.bind k ≠ .error .rounds) : m ≠ .error .rounds ∧ ∀ a, m = .ok a → k a ≠ .error .rounds := by
  constructor
  · rintro rfl
    exact returns rfl
  · rintro a rfl
    exact returns

theorem parseredirs_complete (clean : 0 ∉ line) {us vs : List Token} {rs : List (Op × Word)} {s : Nat}
    {cmd : Cmd Span} {t : Cmd Word} (at_ : At line s (us ++ vs)) (redirs : Redirs us rs) (other : ¬ StartsRedir vs)
    (reads : Reads line cmd t) (returns : parseredirs line fuel cmd s ≠ .error .rounds) :
    ∃ cmd' s', parseredirs line fuel cmd s = .ok (cmd', s') ∧ At line s' vs ∧ Reads line cmd' (wrap rs t) := by
  induction fuel generalizing s cmd t us rs with
  | zero => exact absurd rfl returns
  | succ fuel ih =>
    have step := parseredirs_step clean at_ reads fuel
    generalize parseredirs line (fuel + 1) cmd s = r at step returns ⊢
    cases redirs with
    | nil =>
      generalize list : [] ++ vs = ts at step
      cases step with
      | done ts s' _ after =>
        subst list
        exact ⟨cmd, s', rfl, after, reads⟩
      | more op w ts cmd' s' => exact absurd ⟨op, _, list⟩ other
      | fails op ts => exact absurd ⟨op, _, list⟩ other
    | @cons op file us rs later =>
      generalize list : op.token :: .word file :: us ++ vs = ts at step
      cases step with
      | done ts s' stops after => exact absurd ⟨op, _, list.symm⟩ stops
      | more op' w ts cmd' s' after reads' =>
        have same : op' = op := by
          have head := (List.cons.inj list).1
          cases op <;> cases op' <;> first | rfl | cases head
        subst same
        obtain ⟨rfl, rfl⟩ : file = w ∧ us ++ vs = ts := by simpa using list
        have found := ih after later reads' returns
        exact found
      | fails op' ts missing => exact absurd (List.cons.inj list).2.symm (missing file _)

theorem Ends.notRedir {vs : List Token} (ends : Ends vs) : ¬ StartsRedir vs := by
  rintro ⟨op, later, rfl⟩
  have member := ends _ _ rfl
  cases op <;> simp [Op.token] at member

theorem Args.notRedir {us vs : List Token} {args : List Word} {rs : List (Op × Word)} (words : Args us args rs)
    (ends : Ends vs) : ¬ StartsRedir (us ++ vs) := by
  cases words with
  | nil => exact ends.notRedir
  | cons arg redirs later =>
    rintro ⟨op, rest, equal⟩
    cases op <;> cases (List.cons.inj equal).1

theorem parseargs_complete (clean : 0 ∉ line) {us vs : List Token} {rs rs' : List (Op × Word)} {s : Nat}
    {ret : Cmd Span} {args args' : List Word} (at_ : At line s (us ++ vs)) (words : Args us args' rs') (ends : Ends vs)
    (reads : Reads line ret (wrap rs (.exec args))) (few : (args ++ args').length < MAXARGS)
    (returns : parseargs line fuel ret args.length s ≠ .error .rounds) :
    ∃ ret' s', parseargs line fuel ret args.length s = .ok (ret', s') ∧ At line s' vs ∧
      Reads line ret' (wrap (rs ++ rs') (.exec (args ++ args'))) := by
  induction fuel generalizing s ret us rs rs' args args' with
  | zero => exact absurd rfl returns
  | succ fuel ih =>
    have step := parseargs_step clean at_ ret args.length fuel
    generalize parseargs line (fuel + 1) ret args.length s = r at step returns ⊢
    cases words with
    | nil =>
      generalize list : [] ++ vs = ts at step
      cases step with
      | done ts s' _ after =>
        subst list
        exact ⟨ret, s', rfl, after, by simpa using reads⟩
      | more w ts | many w ts =>
        have member := ends _ _ list
        simp at member
      | fails t ts noWord noEnd => exact absurd (ends _ _ list) noEnd
    | @cons arg us us' rs₁ rs₂ args' redirs later =>
      generalize list : .word arg :: (us ++ us') ++ vs = ts at step
      cases step with
      | done ts s' stops after =>
        have member := stops _ _ list.symm
        simp at member
      | many w ts many =>
        simp only [List.length_append, List.length_cons] at few
        omega
      | fails t ts noWord noEnd => exact absurd (List.cons.inj list).1.symm (noWord arg)
      | more w ts a s' less after word text =>
        obtain ⟨rfl, rfl⟩ : arg = w ∧ us ++ (us' ++ vs) = ts := by simpa using list
        obtain ⟨first, rest⟩ := bind_rounds returns
        obtain ⟨ret₁, s₁, parsed, at₁, reads₁⟩ :=
          parseredirs_complete clean after redirs (later.notRedir ends) (reads.addArg a word) first
        have wrapped : wrap rs₁ (wrap rs (.exec (args ++ [a.text line]))) = wrap (rs ++ rs₁) (.exec (args ++ [arg])) := by
          rw [text, wrap, wrap, wrap, List.foldl_append]
        rw [wrapped] at reads₁
        have more := rest (ret₁, s₁) parsed
        have count : args.length + 1 = (args ++ [arg]).length := by simp
        simp only [count] at more
        obtain ⟨ret', s', parsed', final, reads'⟩ := ih at₁ later reads₁ (by simpa using few) more
        refine ⟨ret', s', ?_, final, by simpa using reads'⟩
        rw [parsed, count]
        exact parsed'

theorem parseback_complete (clean : 0 ∉ line) (n : Nat) {vs : List Token} {s : Nat} {cmd : Cmd Span} {t : Cmd Word}
    (at_ : At line s (List.replicate n .amp ++ vs)) (other : ∀ later, vs ≠ .amp :: later) (reads : Reads line cmd t)
    (returns : parseback line fuel cmd s ≠ .error .rounds) :
    ∃ cmd' s', parseback line fuel cmd s = .ok (cmd', s') ∧ At line s' vs ∧ Reads line cmd' (Cmd.back^[n] t) := by
  induction fuel generalizing s cmd t n with
  | zero => exact absurd rfl returns
  | succ fuel ih =>
    rw [parseback_succ] at returns ⊢
    rcases accept clean at_ .amp (by simp) with ⟨later, list, taken, after⟩ | ⟨missing, notTaken, after⟩
    · change (peek line s ['&'.toUInt8]).2 = true at taken
      rw [if_pos taken] at returns ⊢
      cases n with
      | zero => exact absurd list (other later)
      | succ n =>
        rw [List.replicate_succ, List.cons_append] at list
        obtain rfl := (List.cons.inj list).2
        exact ih n after reads.back returns
    · change (peek line s ['&'.toUInt8]).2 = false at notTaken
      rw [notTaken]
      cases n with
      | zero => exact ⟨cmd, _, rfl, after, reads⟩
      | succ n => exact absurd rfl (missing _)

/-- The function finds a derivation that is followed by one of its followers. -/
def Complete (line : List UInt8) (parse : Nat → Parse) (derives : List Token → Cmd Word → Prop)
    (followers : List Token) : Prop :=
  ∀ s us vs t, At line s (us ++ vs) → derives us t → (∀ tok later, vs = tok :: later → tok ∈ followers) →
    parse s ≠ .error .rounds → ∃ cmd s', parse s = .ok (cmd, s') ∧ At line s' vs ∧ Reads line cmd t

theorem parseline_complete (clean : 0 ∉ line)
    (pipe : Complete line (parsepipe line fuel) Pipe [.rpar, .amp, .semi])
    (more : Complete line (parseline line fuel) Line [.rpar]) :
    Complete line (parseline line (fuel + 1)) Line [.rpar] := by
  intro s us vs t at_ derived follow returns
  rw [parseline_succ] at returns ⊢
  obtain ⟨first, rest⟩ := bind_rounds returns
  cases derived with
  | @last n ts cmd derived =>
    rw [List.append_assoc] at at_
    obtain ⟨c₁, s₁, parsed₁, at₁, reads₁⟩ := pipe s ts _ cmd at_ derived (by
      intro tok later list
      cases n with
      | zero =>
        have member := follow tok later list
        simp only [List.mem_singleton] at member
        simp [member]
      | succ n =>
        obtain ⟨rfl, -⟩ := List.cons.inj list
        simp) first
    obtain ⟨second, rest⟩ := bind_rounds (rest _ parsed₁)
    obtain ⟨c₂, s₂, parsed₂, at₂, reads₂⟩ := parseback_complete clean n at₁ (by
      rintro later rfl
      have member := follow _ _ rfl
      simp at member) reads₁ second
    rcases accept clean at₂ .semi (by simp) with ⟨later, rfl, -, -⟩ | ⟨-, notTaken, at₃⟩
    · have member := follow _ _ rfl
      simp at member
    · change (peek line s₂ [';'.toUInt8]).2 = false at notTaken
      simp only [parsed₁, parsed₂, Except.bind, notTaken]
      exact ⟨c₂, _, rfl, at₃, reads₂⟩
  | @more n ts us cmd cmd' derived later =>
    rw [List.append_assoc, List.append_assoc] at at_
    obtain ⟨c₁, s₁, parsed₁, at₁, reads₁⟩ := pipe s ts _ cmd at_ derived (by
      intro tok later list
      cases n with
      | zero =>
        obtain ⟨rfl, -⟩ := List.cons.inj list
        simp
      | succ n =>
        obtain ⟨rfl, -⟩ := List.cons.inj list
        simp) first
    obtain ⟨second, rest⟩ := bind_rounds (rest _ parsed₁)
    obtain ⟨c₂, s₂, parsed₂, at₂, reads₂⟩ := parseback_complete clean n at₁ (by simp) reads₁ second
    rcases accept clean at₂ .semi (by simp) with ⟨tokens, list, taken, at₃⟩ | ⟨missing, -, -⟩
    · change (peek line s₂ [';'.toUInt8]).2 = true at taken
      obtain rfl := (List.cons.inj list).2
      have third := rest _ parsed₂
      simp only [taken, if_true] at third
      obtain ⟨c₃, s₃, parsed₃, final, reads₃⟩ := more _ us vs cmd' at₃ later follow (bind_rounds third).1
      simp only [parsed₁, parsed₂, Except.bind, taken, if_true]
      change parseline line fuel (gettoken line (peek line s₂ [';'.toUInt8]).1).s = _ at parsed₃
      rw [parsed₃]
      exact ⟨_, s₃, rfl, final, congrArg₂ Cmd.list reads₂.text reads₃.text, reads₂.words, reads₃.words⟩
    · exact absurd rfl (missing _)

theorem parsepipe_complete (clean : 0 ∉ line)
    (exec : Complete line (parseexec line fuel) Exec [.bar, .rpar, .amp, .semi])
    (more : Complete line (parsepipe line fuel) Pipe [.rpar, .amp, .semi]) :
    Complete line (parsepipe line (fuel + 1)) Pipe [.rpar, .amp, .semi] := by
  intro s us vs t at_ derived follow returns
  rw [parsepipe_succ] at returns ⊢
  obtain ⟨first, rest⟩ := bind_rounds returns
  cases derived with
  | last derived =>
    obtain ⟨c₁, s₁, parsed₁, at₁, reads₁⟩ := exec s us vs t at_ derived
      (fun tok later list => List.mem_cons_of_mem _ (follow tok later list)) first
    rcases accept clean at₁ .bar (by simp) with ⟨later, rfl, -, -⟩ | ⟨-, notTaken, at₂⟩
    · have member := follow _ _ rfl
      simp at member
    · change (peek line s₁ ['|'.toUInt8]).2 = false at notTaken
      simp only [parsed₁, Except.bind, notTaken]
      exact ⟨c₁, _, rfl, at₂, reads₁⟩
  | @more ts us cmd cmd' derived later =>
    rw [List.append_assoc] at at_
    obtain ⟨c₁, s₁, parsed₁, at₁, reads₁⟩ := exec s ts _ cmd at_ derived (by
      intro tok later list
      obtain ⟨rfl, -⟩ := List.cons.inj list
      simp) first
    rcases accept clean at₁ .bar (by simp) with ⟨tokens, list, taken, at₂⟩ | ⟨missing, -, -⟩
    · change (peek line s₁ ['|'.toUInt8]).2 = true at taken
      obtain rfl := (List.cons.inj list).2
      have second := rest _ parsed₁
      simp only [taken, if_true] at second
      obtain ⟨c₂, s₂, parsed₂, final, reads₂⟩ := more _ us vs cmd' at₂ later follow (bind_rounds second).1
      simp only [parsed₁, Except.bind, taken, if_true]
      change parsepipe line fuel (gettoken line (peek line s₁ ['|'.toUInt8]).1).s = _ at parsed₂
      rw [parsed₂]
      exact ⟨_, s₂, rfl, final, congrArg₂ Cmd.pipe reads₁.text reads₂.text, reads₁.words, reads₂.words⟩
    · exact absurd rfl (missing _)

-- The first form of exec.
inductive Block : List Token → Cmd Word → Prop where
  | mk {ts us : List Token} {cmd : Cmd Word} {rs : List (Op × Word)} (body : Line ts cmd) (redirs : Redirs us rs) :
      Block (.lpar :: (ts ++ .rpar :: us)) (wrap rs cmd)

theorem parseblock_complete (clean : 0 ∉ line) (body : Complete line (parseline line fuel) Line [.rpar]) :
    Complete line (parseblock line (fuel + 1)) Block [.bar, .rpar, .amp, .semi] := by
  intro s us vs t at_ derived follow returns
  obtain @⟨ts, us, cmd, rs, derived, redirs⟩ := derived
  rw [parseblock_succ] at returns ⊢
  rw [List.cons_append, List.append_assoc] at at_
  rcases accept clean at_ .lpar (by simp) with ⟨tokens, list, taken, at₁⟩ | ⟨missing, -, -⟩
  · change (peek line _ ['('.toUInt8]).2 = true at taken
    obtain rfl := (List.cons.inj list).2
    rw [if_pos taken] at returns ⊢
    obtain ⟨first, rest⟩ := bind_rounds returns
    obtain ⟨c₁, s₁, parsed₁, at₂, reads₁⟩ := body _ ts _ cmd at₁ derived (by
      intro tok later list
      obtain ⟨rfl, -⟩ := List.cons.inj list
      simp) first
    rcases accept clean at₂ .rpar (by simp) with ⟨later, list, closed, at₃⟩ | ⟨missing, -, -⟩
    · change (peek line s₁ [')'.toUInt8]).2 = true at closed
      obtain rfl := (List.cons.inj list).2
      have second := rest _ parsed₁
      simp only [closed, if_true] at second
      obtain ⟨c₂, s₂, parsed₂, final, reads₂⟩ :=
        parseredirs_complete clean at₃ redirs (Ends.notRedir follow) reads₁ second
      change parseline line fuel (gettoken line (peek line s ['('.toUInt8]).1).s = _ at parsed₁
      rw [parsed₁]
      simp only [Except.bind, closed, if_true]
      exact ⟨c₂, s₂, parsed₂, final, reads₂⟩
    · exact absurd rfl (missing _)
  · exact absurd rfl (missing _)

theorem simple_first {us ts vs : List Token} {rs rs' : List (Op × Word)} {args : List Word} (redirs : Redirs us rs)
    (words : Args ts args rs') (follow : Ends vs) (later : List Token) : us ++ (ts ++ vs) ≠ .lpar :: later := by
  intro list
  cases redirs with
  | nil =>
    cases words with
    | nil =>
      have member := follow _ _ list
      simp at member
    | cons arg redirs later => cases (List.cons.inj list).1
  | cons op file later => cases op <;> cases (List.cons.inj list).1

theorem parseexec_complete (clean : 0 ∉ line)
    (block : Complete line (parseblock line fuel) Block [.bar, .rpar, .amp, .semi]) :
    Complete line (parseexec line (fuel + 1)) Exec [.bar, .rpar, .amp, .semi] := by
  intro s us vs t at_ derived follow returns
  rw [parseexec_succ] at returns ⊢
  cases derived with
  | @block ts us cmd rs derived redirs =>
    rcases accept clean at_ .lpar (by simp) with ⟨tokens, list, taken, -⟩ | ⟨missing, -, -⟩
    · change (peek line s ['('.toUInt8]).2 = true at taken
      rw [if_pos taken] at returns ⊢
      exact block _ _ vs _ (peek_at at_ _) (.mk derived redirs) follow returns
    · exact absurd rfl (missing _)
  | @simple us ts rs rs' args redirs words few =>
    rw [List.append_assoc] at at_
    rcases accept clean at_ .lpar (by simp) with ⟨later, list, -, -⟩ | ⟨-, notTaken, at₁⟩
    · exact absurd list (simple_first redirs words follow later)
    · change (peek line s ['('.toUInt8]).2 = false at notTaken
      rw [notTaken] at returns ⊢
      obtain ⟨first, rest⟩ := bind_rounds returns
      have empty : Reads line (.exec []) (.exec []) := ⟨rfl, by simp [Cmd.Forall]⟩
      obtain ⟨c₁, s₁, parsed₁, at₂, reads₁⟩ :=
        parseredirs_complete clean at₁ redirs (words.notRedir follow) empty first
      have fits : ([] ++ args).length < MAXARGS := Nat.lt_of_le_pred (by decide) few
      obtain ⟨c₂, s₂, parsed₂, final, reads₂⟩ := parseargs_complete clean at₂ words follow reads₁ fits (rest _ parsed₁)
      refine ⟨c₂, s₂, ?_, final, by simpa using reads₂⟩
      change parseredirs line fuel (.exec []) (peek line s ['('.toUInt8]).1 = _ at parsed₁
      rw [parsed₁]
      exact parsed₂

theorem parse_complete (clean : 0 ∉ line) (fuel : Nat) :
    Complete line (parseline line fuel) Line [.rpar] ∧ Complete line (parsepipe line fuel) Pipe [.rpar, .amp, .semi] ∧
      Complete line (parseexec line fuel) Exec [.bar, .rpar, .amp, .semi] ∧
      Complete line (parseblock line fuel) Block [.bar, .rpar, .amp, .semi] := by
  induction fuel with
  | zero =>
    refine ⟨?_, ?_, ?_, ?_⟩ <;> intro s us vs t at_ derived follow returns
    · rw [parseline] at returns
      exact absurd rfl returns
    · rw [parsepipe] at returns
      exact absurd rfl returns
    · rw [parseexec] at returns
      exact absurd rfl returns
    · rw [parseblock] at returns
      exact absurd rfl returns
  | succ fuel ih =>
    obtain ⟨line_, pipe, exec, block⟩ := ih
    exact ⟨parseline_complete clean pipe line_, parsepipe_complete clean exec pipe, parseexec_complete clean block,
      parseblock_complete clean line_⟩

end Completeness

section Termination

variable {line : List UInt8} {fuel : Nat} {s : Nat} {ts : List Token}

theorem rounds_bind {α β : Type} {m : Except Stop α} {k : α → Except Stop β} (first : m ≠ .error .rounds)
    (rest : ∀ a, m = .ok a → k a ≠ .error .rounds) : m.bind k ≠ .error .rounds := by
  cases m with
  | error why =>
    intro same
    exact first (congrArg Except.error (Except.error.inj same))
  | ok a => exact rest a rfl

theorem parseredirs_returns (clean : 0 ∉ line) (at_ : At line s ts) {cmd : Cmd Span} {t : Cmd Word}
    (reads : Reads line cmd t) (enough : ts.length < fuel) : parseredirs line fuel cmd s ≠ .error .rounds := by
  induction fuel generalizing s cmd t ts with
  | zero => omega
  | succ fuel ih =>
    have step := parseredirs_step clean at_ reads fuel
    generalize parseredirs line (fuel + 1) cmd s = r at step ⊢
    cases step with
    | done ts s' _ after => exact fun same => by cases same
    | more op w ts cmd' s' after reads' =>
      simp only [List.length_cons] at enough
      exact ih after reads' (by omega)
    | fails op ts _ => exact nofun

theorem parseargs_returns (clean : 0 ∉ line) (at_ : At line s ts) {ret : Cmd Span} {rs : List (Op × Word)}
    {args : List Word} (argc : Nat) (reads : Reads line ret (wrap rs (.exec args))) (enough : ts.length < fuel) :
    parseargs line fuel ret argc s ≠ .error .rounds := by
  induction fuel generalizing s ret rs args argc ts with
  | zero => omega
  | succ fuel ih =>
    have step := parseargs_step clean at_ ret argc fuel
    generalize parseargs line (fuel + 1) ret argc s = r at step ⊢
    cases step with
    | done ts s' _ after => exact fun same => by cases same
    | more w ts a s' less after word text =>
      simp only [List.length_cons] at enough
      refine rounds_bind (parseredirs_returns clean after (reads.addArg a word) (by omega)) ?_
      rintro ⟨ret₁, s₁⟩ parsed
      obtain ⟨us, vs, rs₁, rfl, -, at₁, reads₁⟩ := parseredirs_sound clean fuel after (reads.addArg a word) parsed
      rw [wrap, wrap, ← List.foldl_append, ← wrap] at reads₁
      simp only [List.length_append] at enough
      exact ih at₁ _ reads₁ (by omega)
    | many w ts _ => exact fun same => by cases same
    | fails t ts _ _ => exact fun same => by cases same

theorem parseback_returns (clean : 0 ∉ line) (at_ : At line s ts) (cmd : Cmd Span) (enough : ts.length < fuel) :
    parseback line fuel cmd s ≠ .error .rounds := by
  induction fuel generalizing s cmd ts with
  | zero => omega
  | succ fuel ih =>
    rw [parseback_succ]
    rcases accept clean at_ .amp (by simp) with ⟨later, rfl, taken, after⟩ | ⟨-, notTaken, -⟩
    · change (peek line s ['&'.toUInt8]).2 = true at taken
      rw [if_pos taken]
      exact ih after _ (by simpa using enough)
    · change (peek line s ['&'.toUInt8]).2 = false at notTaken
      rw [notTaken]
      exact nofun

/-- The function returns if it may call itself and the others `4 * k + extra` deep on `k` tokens. -/
def Returns (line : List UInt8) (parse : Nat → Parse) (fuel extra : Nat) : Prop :=
  ∀ s ts, At line s ts → 4 * ts.length + extra ≤ fuel → parse s ≠ .error .rounds

theorem parseline_returns (clean : 0 ∉ line) (pipe : Returns line (parsepipe line fuel) fuel 3)
    (more : Returns line (parseline line fuel) fuel 4) : Returns line (parseline line (fuel + 1)) (fuel + 1) 4 := by
  intro s ts at_ enough
  rw [parseline_succ]
  refine rounds_bind (pipe s ts at_ (by omega)) ?_
  rintro ⟨c₁, s₁⟩ parsed₁
  obtain ⟨us, vs, t₁, rfl, -, at₁, reads₁⟩ := (parse_sound clean fuel).2.1 s ts c₁ s₁ at_ parsed₁
  simp only [List.length_append] at enough
  refine rounds_bind (parseback_returns clean at₁ c₁ (by omega)) ?_
  rintro ⟨c₂, s₂⟩ parsed₂
  obtain ⟨n, vs, rfl, at₂, -⟩ := parseback_sound clean fuel at₁ reads₁ parsed₂
  simp only [List.length_append] at enough
  rcases accept clean at₂ .semi (by simp) with ⟨later, rfl, taken, at₃⟩ | ⟨-, notTaken, -⟩
  · change (peek line s₂ [';'.toUInt8]).2 = true at taken
    simp only [taken, if_true]
    simp only [List.length_cons] at enough
    exact rounds_bind (more _ later at₃ (by omega)) (fun _ _ => nofun)
  · change (peek line s₂ [';'.toUInt8]).2 = false at notTaken
    simp only [notTaken]
    exact nofun

theorem parsepipe_returns (clean : 0 ∉ line) (exec : Returns line (parseexec line fuel) fuel 2)
    (more : Returns line (parsepipe line fuel) fuel 3) : Returns line (parsepipe line (fuel + 1)) (fuel + 1) 3 := by
  intro s ts at_ enough
  rw [parsepipe_succ]
  refine rounds_bind (exec s ts at_ (by omega)) ?_
  rintro ⟨c₁, s₁⟩ parsed₁
  obtain ⟨us, vs, t₁, rfl, -, at₁, -⟩ := (parse_sound clean fuel).2.2.1 s ts c₁ s₁ at_ parsed₁
  simp only [List.length_append] at enough
  rcases accept clean at₁ .bar (by simp) with ⟨later, rfl, taken, at₂⟩ | ⟨-, notTaken, -⟩
  · change (peek line s₁ ['|'.toUInt8]).2 = true at taken
    simp only [taken, if_true]
    simp only [List.length_cons] at enough
    exact rounds_bind (more _ later at₂ (by omega)) (fun _ _ => nofun)
  · change (peek line s₁ ['|'.toUInt8]).2 = false at notTaken
    simp only [notTaken]
    exact nofun

theorem parseexec_returns (clean : 0 ∉ line) (block : Returns line (parseblock line fuel) fuel 1) :
    Returns line (parseexec line (fuel + 1)) (fuel + 1) 2 := by
  intro s ts at_ enough
  rw [parseexec_succ]
  by_cases taken : (peek line s ['('.toUInt8]).2 = true
  · rw [if_pos taken]
    exact block _ ts (peek_at at_ _) (by omega)
  · rw [if_neg taken]
    have at₁ := peek_at at_ ['('.toUInt8]
    have empty : Reads line (.exec []) (.exec []) := ⟨rfl, by simp [Cmd.Forall]⟩
    refine rounds_bind (parseredirs_returns clean at₁ empty (by omega)) ?_
    rintro ⟨c₁, s₁⟩ parsed₁
    obtain ⟨us, vs, rs, rfl, -, at₂, reads₁⟩ := parseredirs_sound clean fuel at₁ empty parsed₁
    simp only [List.length_append] at enough
    exact parseargs_returns clean at₂ 0 reads₁ (by omega)

theorem parseblock_returns (clean : 0 ∉ line) (body : Returns line (parseline line fuel) fuel 4) :
    Returns line (parseblock line (fuel + 1)) (fuel + 1) 1 := by
  intro s ts at_ enough
  rw [parseblock_succ]
  rcases accept clean at_ .lpar (by simp) with ⟨later, rfl, taken, at₁⟩ | ⟨-, notTaken, -⟩
  · change (peek line s ['('.toUInt8]).2 = true at taken
    rw [if_pos taken]
    simp only [List.length_cons] at enough
    refine rounds_bind (body _ later at₁ (by omega)) ?_
    rintro ⟨c₁, s₁⟩ parsed₁
    obtain ⟨us, vs, t₁, rfl, -, at₂, reads₁⟩ := (parse_sound clean fuel).1 _ later c₁ s₁ at₁ parsed₁
    simp only [List.length_append] at enough
    rcases accept clean at₂ .rpar (by simp) with ⟨later, rfl, closed, at₃⟩ | ⟨-, notClosed, -⟩
    · change (peek line s₁ [')'.toUInt8]).2 = true at closed
      simp only [closed, if_true]
      simp only [List.length_cons] at enough
      exact parseredirs_returns clean at₃ reads₁ (by omega)
    · change (peek line s₁ [')'.toUInt8]).2 = false at notClosed
      simp only [notClosed]
      exact nofun
  · change (peek line s ['('.toUInt8]).2 = false at notTaken
    rw [notTaken]
    exact nofun

theorem parse_returns (clean : 0 ∉ line) (fuel : Nat) :
    Returns line (parseline line fuel) fuel 4 ∧ Returns line (parsepipe line fuel) fuel 3 ∧
      Returns line (parseexec line fuel) fuel 2 ∧ Returns line (parseblock line fuel) fuel 1 := by
  induction fuel with
  | zero => refine ⟨?_, ?_, ?_, ?_⟩ <;> intro s ts at_ enough <;> omega
  | succ fuel ih =>
    obtain ⟨line_, pipe, exec, block⟩ := ih
    exact ⟨parseline_returns clean pipe line_, parsepipe_returns clean exec pipe, parseexec_returns clean block,
      parseblock_returns clean line_⟩

theorem lex_length_le (text : List UInt8) : (lex text).length ≤ text.length := by
  fun_induction lex text with
  | case1 => exact le_rfl
  | case2 c text white ih => exact ih.trans (Nat.le_succ _)
  | case3 => simp
  | case4 => simp only [List.length_cons]; omega
  | case5 => simp only [List.length_cons] at *; omega
  | case6 => simp only [List.length_cons]; omega
  | case7 c text black other unknown ih =>
    have shorter := (List.dropWhile_sublist isWord (l := text)).length_le
    simp only [List.length_cons]
    omega

end Termination

section Strings

variable {W V : Type} {line : List UInt8}

def Cmd.words : Cmd W → List W
  | .exec argv => argv
  | .redir cmd file _ _ => cmd.words ++ [file]
  | .pipe left right => left.words ++ right.words
  | .list left right => left.words ++ right.words
  | .back cmd => cmd.words

theorem Cmd.forall_iff (P : W → Prop) (cmd : Cmd W) : cmd.Forall P ↔ ∀ a ∈ cmd.words, P a := by
  induction cmd with
  | exec argv => rfl
  | redir cmd file mode fd ih => simp [Forall, words, ih, or_imp, forall_and]
  | pipe left right ih ih' => simp [Forall, words, ih, ih', or_imp, forall_and]
  | list left right ih ih' => simp [Forall, words, ih, ih', or_imp, forall_and]
  | back cmd ih => exact ih

theorem Cmd.map_congr (f g : W → V) (cmd : Cmd W) (same : ∀ a ∈ cmd.words, f a = g a) : cmd.map f = cmd.map g := by
  induction cmd with
  | exec argv => exact congrArg Cmd.exec (List.map_congr_left same)
  | redir cmd file mode fd ih =>
    simp only [words, List.mem_append, List.mem_singleton] at same
    rw [map, map, ih fun a member => same a (.inl member), same file (.inr rfl)]
  | pipe left right ih ih' =>
    simp only [words, List.mem_append] at same
    rw [map, map, ih fun a member => same a (.inl member), ih' fun a member => same a (.inr member)]
  | list left right ih ih' =>
    simp only [words, List.mem_append] at same
    rw [map, map, ih fun a member => same a (.inl member), ih' fun a member => same a (.inr member)]
  | back cmd ih => rw [map, map, ih same]

theorem nulterminate_eq (cmd : Cmd Span) (buf : List UInt8) :
    nulterminate cmd buf = cmd.words.foldl (fun buf a => buf.set a.eq 0) buf := by
  induction cmd generalizing buf with
  | exec argv => rfl
  | redir cmd file mode fd ih => simp [nulterminate, Cmd.words, ih]
  | pipe left right ih ih' => simp [nulterminate, Cmd.words, ih, ih']
  | list left right ih ih' => simp [nulterminate, Cmd.words, ih, ih']
  | back cmd ih => exact ih buf

theorem set_ends_kept (spans : List Span) (buf : List UInt8) (i : Nat) (other : ∀ a ∈ spans, a.eq ≠ i) :
    (spans.foldl (fun buf a => buf.set a.eq 0) buf)[i]? = buf[i]? := by
  induction spans generalizing buf with
  | nil => rfl
  | cons a spans ih =>
    rw [List.foldl_cons, ih _ fun b member => other b (.tail _ member),
      List.getElem?_set_ne (other a (.head _))]

theorem set_ends_stays (spans : List Span) (buf : List UInt8) (i : Nat) (zero : buf[i]? = some 0) :
    (spans.foldl (fun buf a => buf.set a.eq 0) buf)[i]? = some 0 := by
  induction spans generalizing buf with
  | nil => exact zero
  | cons a spans ih =>
    refine ih _ ?_
    rw [List.getElem?_set]
    split_ifs with same within
    · rfl
    · exact absurd (List.getElem?_eq_some_iff.mp zero).1 (same ▸ within)
    · exact zero

theorem set_ends_zero (spans : List Span) (buf : List UInt8) (a : Span) (member : a ∈ spans)
    (within : a.eq < buf.length) : (spans.foldl (fun buf a => buf.set a.eq 0) buf)[a.eq]? = some 0 := by
  induction spans generalizing buf with
  | nil => cases member
  | cons b spans ih =>
    cases member with
    | head => exact set_ends_stays spans _ a.eq (by rw [List.getElem?_set_self within])
    | tail _ later => exact ih _ later (by rw [List.length_set]; exact within)

theorem takeWhile_of_getElem? (text w : List UInt8) (same : ∀ i < w.length, text[i]? = w[i]?) (clean : 0 ∉ w)
    (stop : text[w.length]? = some 0) : text.takeWhile (· ≠ 0) = w := by
  induction w generalizing text with
  | nil =>
    cases text with
    | nil => rfl
    | cons c text =>
      obtain rfl : c = 0 := by simpa using stop
      rfl
  | cons c w ih =>
    cases text with
    | nil => cases stop
    | cons d text =>
      obtain rfl : d = c := by simpa using same 0 (Nat.succ_pos _)
      rw [List.mem_cons, not_or] at clean
      rw [List.takeWhile_cons_of_pos (by simpa using Ne.symm clean.1)]
      congr 1
      refine ih text (fun i inside => ?_) clean.2 (by simpa using stop)
      simpa using same (i + 1) (Nat.succ_lt_succ inside)

theorem getElem?_text (a : Span) (i : Nat) (inside : i < (a.text line).length) :
    (line)[a.q + i]? = (a.text line)[i]? := by
  obtain ⟨rest, split⟩ : a.text line <+: line.drop a.q := List.takeWhile_prefix isWord
  rw [← List.getElem?_drop, ← split, List.getElem?_append_left inside]

-- A word of a command keeps its characters, since none of them ends a word.
theorem Span.stop_ne (a : Span) {b : Span} (word : b.Word line) (i : Nat) (inside : i < (a.text line).length) :
    b.eq ≠ a.q + i := by
  intro same
  have character := getElem?_text a i inside
  rw [List.getElem?_eq_getElem inside] at character
  have letter : isWord (a.text line)[i] = true := List.mem_takeWhile_imp (List.getElem_mem inside)
  have dropped := drop_add_takeWhile isWord line b.q
  rw [← wordEnd, ← word.stop, same] at dropped
  have head := List.head?_dropWhile_not isWord (line.drop b.q)
  rw [← dropped, List.head?_drop, character] at head
  simp only [letter] at head
  cases head

theorem Reads.cstring_eq (clean : 0 ∉ line) {cmd : Cmd Span} {t : Cmd Word} (reads : Reads line cmd t) {a : Span}
    (member : a ∈ cmd.words) : cstring (nulterminate cmd (line ++ [0])) a = a.text line := by
  have words := (Cmd.forall_iff _ cmd).mp reads.words
  rw [nulterminate_eq, cstring]
  have word := words a member
  have ended : a.eq = a.q + (a.text line).length := word.stop
  have within := word.within
  refine takeWhile_of_getElem? _ _ (fun i inside => ?_) ?_ ?_
  · rw [List.getElem?_drop, set_ends_kept _ _ _ fun b other => a.stop_ne (words b other) i inside,
      List.getElem?_append_left (by omega), getElem?_text a i inside]
  · intro zero
    exact clean (List.mem_of_mem_drop ((List.takeWhile_prefix isWord).subset zero))
  · rw [List.getElem?_drop, ← ended]
    exact set_ends_zero _ _ a member (by simp; omega)

theorem Reads.strings (clean : 0 ∉ line) {cmd : Cmd Span} {t : Cmd Word} (reads : Reads line cmd t) :
    cmd.map (cstring (nulterminate cmd (line ++ [0]))) = t := by
  rw [← reads.text]
  exact Cmd.map_congr _ _ cmd fun a member => reads.cstring_eq clean member

end Strings

section Main

variable {line : List UInt8}

theorem at_start (line : List UInt8) : At line 0 (lex line) := ⟨rfl, Nat.zero_le _⟩

theorem parseline_start (clean : 0 ∉ line) (fuel : Nat) (enough : 4 * line.length + 4 ≤ fuel) :
    parseline line fuel 0 ≠ .error .rounds := by
  have short := lex_length_le line
  exact (parse_returns clean fuel).1 0 (lex line) (at_start line) (by omega)

theorem parsecmd_eq (fuel : Nat) :
    parsecmd fuel line = (parseline line fuel 0).bind fun r =>
      if skip line r.2 ≠ line.length then .error (.panic .malformed) else .ok (nulterminate r.1 (line ++ [0]), r.1) := rfl

theorem parsecmd_returns (clean : 0 ∉ line) (fuel : Nat) (enough : 4 * line.length + 4 ≤ fuel) :
    parsecmd fuel line ≠ .error .rounds := by
  rw [parsecmd_eq]
  refine rounds_bind (parseline_start clean fuel enough) ?_
  rintro ⟨cmd, s⟩ parsed
  simp only
  split_ifs
  · exact nofun
  · exact nofun

theorem command_ok_iff (fuel : Nat) (t : Cmd Word) :
    command fuel line = .ok t ↔ ∃ buf cmd, parsecmd fuel line = .ok (buf, cmd) ∧ cmd.map (cstring buf) = t := by
  change (parsecmd fuel line).bind (fun r => .ok (r.2.map (cstring r.1))) = .ok t ↔ _
  cases parsecmd fuel line with
  | error why => exact iff_of_false nofun (by rintro ⟨_, _, same, _⟩; cases same)
  | ok r =>
    obtain ⟨buf, cmd⟩ := r
    constructor
    · intro same
      exact ⟨buf, cmd, rfl, Except.ok.inj same⟩
    · rintro ⟨_, _, same, text⟩
      cases same
      exact congrArg Except.ok text

theorem parsecmd_reads (clean : 0 ∉ line) {fuel : Nat} {buf : List UInt8} {cmd : Cmd Span}
    (accepted : parsecmd fuel line = .ok (buf, cmd)) :
    buf = nulterminate cmd (line ++ [0]) ∧ ∃ t, Line (lex line) t ∧ Reads line cmd t := by
  rw [parsecmd_eq] at accepted
  obtain ⟨⟨cmd', s⟩, found, accepted⟩ := bind_ok accepted
  obtain ⟨us, vs, t, split, derived, after, reads⟩ := (parse_sound clean fuel).1 0 _ cmd' s (at_start line) found
  simp only at accepted
  split_ifs at accepted with ended
  cases accepted
  obtain rfl := after.ended_iff.mp (not_not.mp ended)
  rw [List.append_nil] at split
  exact ⟨rfl, t, split ▸ derived, reads⟩

theorem command_sound (clean : 0 ∉ line) (fuel : Nat) (t : Cmd Word) (returned : command fuel line = .ok t) :
    Line (lex line) t := by
  obtain ⟨buf, cmd, parsed, text⟩ := (command_ok_iff fuel t).mp returned
  obtain ⟨rfl, t', derived, reads⟩ := parsecmd_reads clean parsed
  rw [reads.strings clean] at text
  exact text ▸ derived

theorem command_complete (clean : 0 ∉ line) (fuel : Nat) (enough : 4 * line.length + 4 ≤ fuel) (t : Cmd Word)
    (derived : Line (lex line) t) : command fuel line = .ok t := by
  have start : At line 0 (lex line ++ []) := by
    rw [List.append_nil]
    exact at_start line
  obtain ⟨cmd, s, parsed, after, reads⟩ :=
    (parse_complete clean fuel).1 0 (lex line) [] t start derived nofun (parseline_start clean fuel enough)
  refine (command_ok_iff fuel t).mpr ⟨_, cmd, ?_, reads.strings clean⟩
  rw [parsecmd_eq, parsed]
  exact if_neg (not_not.mpr (after.ended_iff.mpr rfl))

/-- On every line `parsecmd` comes to an end: it returns the tree that the tokens of the line derive, and
takes a panic branch if they derive none. -/
theorem parsecmd_accepts_grammar (line : List UInt8) (clean : 0 ∉ line) (fuel : Nat)
    (enough : 4 * line.length + 4 ≤ fuel) :
    (∀ t, command fuel line = .ok t ↔ Line (lex line) t) ∧
      ((¬ ∃ t, Line (lex line) t) → ∃ why, parsecmd fuel line = .error (.panic why)) := by
  constructor
  · intro t
    exact ⟨command_sound clean fuel t, command_complete clean fuel enough t⟩
  · intro none
    cases result : parsecmd fuel line with
    | error why =>
      cases why with
      | panic why => exact ⟨why, rfl⟩
      | rounds => exact absurd result (parsecmd_returns clean fuel enough)
    | ok r =>
      have returned := (command_ok_iff fuel _).mpr ⟨r.1, r.2, result, rfl⟩
      exact absurd ⟨_, command_sound clean fuel _ returned⟩ none

theorem parsecmd_accepts_grammar_block :
    command 60 [97, 60, 98, 124, 40, 99, 59, 100, 41, 62, 62, 101, 38] =
        .ok (.back (.pipe (.redir (.exec [[97]]) [98] 0 0)
          (.redir (.list (.exec [[99]]) (.exec [[100]])) [101] 0x201 1))) ∧
      Line (lex [97, 60, 98, 124, 40, 99, 59, 100, 41, 62, 62, 101, 38])
        (.back (.pipe (.redir (.exec [[97]]) [98] 0 0)
          (.redir (.list (.exec [[99]]) (.exec [[100]])) [101] 0x201 1))) := by
  have returned : command 60 [97, 60, 98, 124, 40, 99, 59, 100, 41, 62, 62, 101, 38] =
      .ok (.back (.pipe (.redir (.exec [[97]]) [98] 0 0)
        (.redir (.list (.exec [[99]]) (.exec [[100]])) [101] 0x201 1))) := by decide +kernel
  exact ⟨returned, ((parsecmd_accepts_grammar _ (by decide) 60 (by decide)).1 _).mp returned⟩

end Main

end Xv6.Shell
