import Xv6.User.Parsecmd

set_option autoImplicit false

/-!
# The strings of a parsed command

`nulterminate` writes into the line that the tokens were found in. The NULs it writes lie right behind
words, so each string of the tree is still the text of its token.
-/

namespace Xv6.Shell

section Words

def Token.text : Token → Option Word
  | word w => some w
  | _ => none

def texts (ts : List Token) : List Word := ts.filterMap Token.text

theorem texts_word (w : Word) (ts : List Token) : texts (.word w :: ts) = w :: texts ts := rfl

theorem texts_symbol {t : Token} (ts : List Token) (symbol : t.text = none) : texts (t :: ts) = texts ts :=
  List.filterMap_cons_none symbol

theorem texts_append (ts us : List Token) : texts (ts ++ us) = texts ts ++ texts us :=
  List.filterMap_append

theorem texts_amps (n : Nat) : texts (List.replicate n .amp) = [] :=
  List.filterMap_replicate_of_none rfl

theorem text_op (op : Op) : op.token.text = none := by
  cases op <;> rfl

theorem text_ofSymbol {c : UInt8} {t : Token} (known : Token.ofSymbol c = some t) : t.text = none := by
  obtain ⟨-, -, -, notWord, -⟩ := lex_symbol [] known
  cases t with
  | word w => exact absurd rfl (notWord w)
  | _ => rfl

theorem lex_nonempty (text : List UInt8) : [] ∉ texts (lex text) := by
  fun_induction lex text with
  | case1 => exact List.not_mem_nil
  | case2 c text white ih => exact ih
  | case3 => exact List.not_mem_nil
  | case4 text black ih => exact ih
  | case5 d text other black ih => exact ih
  | case6 c text black other t known ih =>
    rw [texts_symbol _ (text_ofSymbol known)]
    exact ih
  | case7 c text black other unknown ih =>
    rw [texts_word, List.mem_cons, not_or]
    exact ⟨List.cons_ne_nil _ _ ∘ Eq.symm, ih⟩

theorem words_wrap (rs : List (Op × Word)) (cmd : Cmd Word) : (wrap rs cmd).words = cmd.words ++ rs.map Prod.snd := by
  induction rs using List.reverseRecOn with
  | nil => simp [wrap]
  | append_singleton rs r ih =>
    obtain ⟨op, file⟩ := r
    rw [wrap_append, Cmd.words, ih, List.map_append, List.append_assoc]
    rfl

theorem words_back (n : Nat) (cmd : Cmd Word) : (Cmd.back^[n] cmd).words = cmd.words := by
  induction n with
  | zero => rfl
  | succ n ih => rw [Function.iterate_succ_apply', Cmd.words, ih]

theorem words_map {W V : Type} (f : W → V) (cmd : Cmd W) : (cmd.map f).words = cmd.words.map f := by
  induction cmd with
  | exec argv => rfl
  | redir cmd file mode fd ih => simp [Cmd.map, Cmd.words, ih]
  | pipe left right ih ih' => simp [Cmd.map, Cmd.words, ih, ih']
  | list left right ih ih' => simp [Cmd.map, Cmd.words, ih, ih']
  | back cmd ih => exact ih

theorem Redirs.words {ts : List Token} {rs : List (Op × Word)} (redirs : Redirs ts rs) :
    texts ts = rs.map Prod.snd := by
  induction redirs with
  | nil => rfl
  | cons op file later ih =>
    rw [texts_symbol _ (text_op op), texts_word, ih]
    rfl

theorem Args.words {ts : List Token} {args : List Word} {rs : List (Op × Word)} (derived : Args ts args rs) :
    (args ++ rs.map Prod.snd).Perm (texts ts) := by
  induction derived with
  | nil => exact .refl _
  | @cons arg us ts rs rs' args redirs later ih =>
    rw [texts_word, texts_append, redirs.words, List.map_append, List.cons_append]
    exact .cons arg ((List.perm_append_comm_assoc _ _ _).trans (ih.append_left _))

mutual

theorem Line.words {ts : List Token} {t : Cmd Word} : Line ts t → t.words.Perm (texts ts)
  | .last n first => by
    rw [words_back, texts_append, texts_amps, List.append_nil]
    exact first.words
  | .more n first later => by
    rw [Cmd.words, words_back, texts_append, texts_append, texts_amps, List.nil_append, texts_symbol _ rfl]
    exact first.words.append later.words

theorem Pipe.words {ts : List Token} {t : Cmd Word} : Pipe ts t → t.words.Perm (texts ts)
  | .last first => first.words
  | .more first later => by
    rw [Cmd.words, texts_append, texts_symbol _ rfl]
    exact first.words.append later.words

theorem Exec.words {ts : List Token} {t : Cmd Word} : Exec ts t → t.words.Perm (texts ts)
  | .block body redirs => by
    rw [words_wrap, texts_symbol _ rfl, texts_append, texts_symbol _ rfl, redirs.words]
    exact body.words.append_right _
  | .simple redirs args few => by
    rw [words_wrap, Cmd.words, texts_append, redirs.words, List.map_append]
    exact (List.perm_append_comm_assoc _ _ _).trans (args.words.append_left _)

end

end Words

section Spans

variable {line : List UInt8} {a : Span}

theorem Span.Word.drop_eq (word : a.Word line) (nonempty : a.text line ≠ []) :
    ∃ c text, line.drop a.q = c :: text ∧ isWord c = true ∧ char line a.q = c := by
  cases rest : line.drop a.q with
  | nil => exact absurd (by rw [Span.text, rest]; rfl) nonempty
  | cons c text =>
    have head := congrArg List.head? rest
    rw [List.head?_drop, List.head?_cons] at head
    have here : char line a.q = c := by rw [char, List.getD_eq_getElem?_getD, head, Option.getD_some]
    exact ⟨c, text, rfl, here ▸ word.start, here⟩

theorem Span.Word.gettoken_eq (clean : 0 ∉ line) (word : a.Word line) (nonempty : a.text line ≠ []) :
    (gettoken line a.q).ret = 'a'.toUInt8 ∧ (gettoken line a.q).span = a := by
  obtain ⟨c, text, rest, inWord, here⟩ := word.drop_eq nonempty
  have nonzero : c ≠ 0 := by
    rintro rfl
    exact clean (List.mem_of_mem_drop (rest ▸ List.mem_cons_self))
  simp only [isWord, decide_eq_true_eq] at inWord
  have black : isWhite c = false := by simpa [isWhite] using inWord.1
  have still : skip line a.q = a.q := by
    rw [skip, rest, List.takeWhile_cons_of_neg (by simp [black])]
    rfl
  have noSymbol : c ∉ ['|'.toUInt8, '('.toUInt8, ')'.toUInt8, ';'.toUInt8, '&'.toUInt8, '<'.toUInt8] := by
    simp only [List.mem_cons, List.not_mem_nil, or_false]
    rintro (rfl | rfl | rfl | rfl | rfl | rfl) <;> exact inWord.2 (by decide)
  have other : c ≠ '>'.toUInt8 := by
    rintro rfl
    exact inWord.2 (by decide)
  simp only [gettoken, still, here, if_neg nonzero, if_neg noSymbol, if_neg other, ← word.stop, and_self]

theorem Span.Word.text_eq (word : a.Word line) : a.text line = (line.drop a.q).take (a.eq - a.q) := by
  have length : a.eq - a.q = (a.text line).length := by
    rw [word.stop, wordEnd, Span.text, Nat.add_sub_cancel_left]
  rw [length, Span.text]
  exact List.prefix_iff_eq_take.mp (List.takeWhile_prefix isWord)

-- No word ends inside another, since the character behind a word is in none.
theorem Span.Word.apart (word : a.Word line) {b : Span} (other : b.Word line) : b.eq < a.q ∨ a.eq ≤ b.eq := by
  by_contra inside
  rw [not_or, not_lt, not_le] at inside
  have length : a.eq = a.q + (a.text line).length := word.stop
  exact a.stop_ne other (b.eq - a.q) (by omega) (by omega)

end Spans

/-- Each argument and file name of a command that `parsecmd` returns is a token of the line and is read from
the buffer as the text of that token, no NUL is written into any of them, and they are all the words of the line. -/
theorem parsecmd_strings_exact (line : List UInt8) (clean : 0 ∉ line) (fuel : Nat) (buf : List UInt8) (cmd : Cmd Span)
    (accepted : parsecmd fuel line = .ok (buf, cmd)) :
    (∀ a ∈ cmd.words, (gettoken line a.q).ret = 'a'.toUInt8 ∧ (gettoken line a.q).span = a ∧
        cstring buf a = (line.drop a.q).take (a.eq - a.q)) ∧
      (∀ a ∈ cmd.words, ∀ b ∈ cmd.words, b.eq < a.q ∨ a.eq ≤ b.eq) ∧
      (cmd.words.map (cstring buf)).Perm (texts (lex line)) := by
  obtain ⟨rfl, t, derived, reads⟩ := parsecmd_reads clean accepted
  have words := (Cmd.forall_iff _ cmd).mp reads.words
  have strings := reads.strings clean
  have texts_eq : t.words = cmd.words.map (Span.text line) := by rw [← reads.text, words_map]
  refine ⟨fun a member => ?_, fun a member b other => (words a member).apart (words b other), ?_⟩
  · have nonempty : a.text line ≠ [] := by
      intro empty
      refine lex_nonempty line (derived.words.subset ?_)
      rw [texts_eq, ← empty]
      exact List.mem_map_of_mem member
    obtain ⟨ret, span⟩ := (words a member).gettoken_eq clean nonempty
    refine ⟨ret, span, ?_⟩
    rw [← (words a member).text_eq]
    exact reads.cstring_eq clean member
  · rw [← words_map, strings]
    exact derived.words

-- `a<b|(c;d)>>e&`: every word touches a symbol.
theorem parsecmd_strings_exact_block :
    (nulterminate (.back (.pipe (.redir (.exec [⟨0, 1⟩]) ⟨2, 3⟩ 0 0)
        (.redir (.list (.exec [⟨5, 6⟩]) (.exec [⟨7, 8⟩])) ⟨11, 12⟩ 0x201 1)))
        [97, 60, 98, 124, 40, 99, 59, 100, 41, 62, 62, 101, 38, 0] =
          [97, 0, 98, 0, 40, 99, 0, 100, 0, 62, 62, 101, 0, 0]) ∧
      List.Perm [[97], [98], [99], [100], [101]] (texts (lex [97, 60, 98, 124, 40, 99, 59, 100, 41, 62, 62, 101, 38])) :=
  ⟨by decide +kernel, (parsecmd_strings_exact [97, 60, 98, 124, 40, 99, 59, 100, 41, 62, 62, 101, 38] (by decide) 60
    [97, 0, 98, 0, 40, 99, 0, 100, 0, 62, 62, 101, 0, 0]
    (.back (.pipe (.redir (.exec [⟨0, 1⟩]) ⟨2, 3⟩ 0 0)
      (.redir (.list (.exec [⟨5, 6⟩]) (.exec [⟨7, 8⟩])) ⟨11, 12⟩ 0x201 1))) (by decide +kernel)).2.2⟩

end Xv6.Shell
