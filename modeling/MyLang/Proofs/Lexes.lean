/-
The tokens of a text are determined by it, and the lexer finds them.

The one thing between the lexer and the longest match is the length of the input: it is
kept in an `int`, and of an input whose length does not fit, only a first part is read.

`Lexes` is a relation with several rules, and a text could be thought to have several
sequences of tokens.  It has one: what a text starts with tells which rule applies, and
the longest word is one word (`unique`).  So what the loop of the lexer comes to
(`Proofs/Munch.lean`) is all there is.

A longer input may still come out right, namely if the part that is read has the same
tokens as the whole.  `StandsFor` says this without a word about the lexer, and
`lexesRight_iff` has it as its condition; an input of `2 ^ 31` characters, a name and
newlines, shows that it may fail, since nothing of it is read.
-/
import MyLang.Proofs.Munch

namespace MyLang

open LongestMatch

/-! ### A text has one sequence of tokens

Each rule is inverted: if a text starts like that, the sequence starts like that.
-/

namespace Lexes

variable {line : Int} {c : Char} {rest body w : List Char} {ls : List Lexeme}

/-- No token starts with white space. -/
theorem not_blank_of_isLexeme (h : IsLexeme (c :: w)) : c ∉ [' ', '\t', '\n'] := by
  have hheads : (spellings.map Prod.fst).all
      (fun v => v.head?.all fun c => !([' ', '\t', '\n'].contains c)) = true := by rfl
  intro hc
  have hdi : c.isDigit = false ∧ isIdentStart c = false := by
    simp only [List.mem_cons, List.not_mem_nil, or_false] at hc
    rcases hc with rfl | rfl | rfl <;> exact ⟨rfl, rfl⟩
  have h := List.all_eq_true.mp hheads _ (spelled h hdi.1 hdi.2)
  simp only [List.head?_cons, Option.all_some, Bool.not_eq_true', List.contains_eq_mem,
    decide_eq_false_iff_not] at h
  exact h hc

/-- No token is empty. -/
theorem ne_nil_of_isLexeme (h : IsLexeme w) : w ≠ [] := by
  rintro rfl
  rw [IsLexeme] at h
  exact absurd h (by decide)

theorem inv_nil (h : Lexes line [] ls) : ls = [] := by
  generalize htext : ([] : List Char) = text at h
  cases h with
  | nil => rfl
  | token hw hty hcomment h =>
      exact absurd (List.append_eq_nil_iff.mp htext.symm).1 (ne_nil_of_isLexeme hw.word)
  | _ => simp at htext

/-- The first character of a token, and what that of a text says about it. -/
theorem head_of_append {text : List Char} (hw : IsLexeme w) (h : c :: text = w ++ rest) :
    ∃ v, w = c :: v ∧ text = v ++ rest := by
  cases w with
  | nil => exact absurd rfl (ne_nil_of_isLexeme hw)
  | cons d v =>
      rw [List.cons_append, List.cons.injEq] at h
      exact ⟨v, by rw [h.1], h.2⟩

/-- White space in front is passed over. -/
theorem inv_blank (hc : c = ' ' ∨ c = '\t') (h : Lexes line (c :: rest) ls) :
    Lexes line rest ls := by
  generalize htext : c :: rest = text at h
  cases h with
  | nil => simp at htext
  | blank hc' h =>
      obtain ⟨-, rfl⟩ := List.cons.inj htext
      exact h
  | newline h =>
      obtain ⟨rfl, -⟩ := List.cons.inj htext
      simp at hc
  | comment hbody h =>
      obtain ⟨rfl, -⟩ := List.cons.inj htext
      simp at hc
  | lastComment hbody =>
      obtain ⟨rfl, -⟩ := List.cons.inj htext
      simp at hc
  | token hw hty hcomment h =>
      obtain ⟨v, rfl, -⟩ := head_of_append hw.word htext
      refine absurd ?_ (not_blank_of_isLexeme hw.word)
      rcases hc with rfl | rfl <;> simp

/-- A newline in front starts the next line. -/
theorem inv_newline (h : Lexes line ('\n' :: rest) ls) : Lexes (line + 1) rest ls := by
  generalize htext : '\n' :: rest = text at h
  cases h with
  | nil => simp at htext
  | blank hc h =>
      obtain ⟨rfl, -⟩ := List.cons.inj htext
      simp at hc
  | newline h =>
      obtain ⟨-, rfl⟩ := List.cons.inj htext
      exact h
  | comment hbody h => simp at htext
  | lastComment hbody => simp at htext
  | token hw hty hcomment h =>
      obtain ⟨v, rfl, -⟩ := head_of_append hw.word htext
      exact absurd (by simp) (not_blank_of_isLexeme hw.word)

/-- The first newline of a text is in one place. -/
theorem newline_unique {body' rest' : List Char} (h : '\n' ∉ body) (h' : '\n' ∉ body')
    (heq : body ++ '\n' :: rest = body' ++ '\n' :: rest') : rest = rest' := by
  induction body generalizing body' with
  | nil =>
      cases body' with
      | nil => exact (List.cons.inj heq).2
      | cons c body' =>
          obtain ⟨rfl, -⟩ := List.cons.inj heq
          simp at h'
  | cons c body ih =>
      cases body' with
      | nil =>
          obtain ⟨rfl, -⟩ := List.cons.inj heq
          simp at h
      | cons d body' =>
          have heq := (List.cons.inj heq).2
          exact ih (fun hb => h (List.mem_cons_of_mem _ hb))
            (fun hb => h' (List.mem_cons_of_mem _ hb)) heq

/-- A comment in front goes as far as its newline. -/
theorem inv_comment (hbody : '\n' ∉ body)
    (h : Lexes line ('/' :: '/' :: (body ++ '\n' :: rest)) ls) : Lexes line ('\n' :: rest) ls := by
  generalize htext : '/' :: '/' :: (body ++ '\n' :: rest) = text at h
  cases h with
  | nil => simp at htext
  | blank hc h =>
      obtain ⟨rfl, -⟩ := List.cons.inj htext
      simp at hc
  | newline h => simp at htext
  | comment hbody' h =>
      obtain ⟨-, htext⟩ := List.cons.inj htext
      obtain rfl := newline_unique hbody hbody' (List.cons.inj htext).2
      exact h
  | lastComment hbody' =>
      obtain ⟨-, htext⟩ := List.cons.inj htext
      obtain ⟨-, rfl⟩ := List.cons.inj htext
      simp at hbody'
  | token hw hty hcomment h => exact absurd ⟨_, htext⟩ hcomment

/-- A comment without a newline behind it is the rest of the text. -/
theorem inv_lastComment (hbody : '\n' ∉ body) (h : Lexes line ('/' :: '/' :: body) ls) :
    ls = [] := by
  generalize htext : '/' :: '/' :: body = text at h
  cases h with
  | nil => rfl
  | blank hc h =>
      obtain ⟨rfl, -⟩ := List.cons.inj htext
      simp at hc
  | newline h => simp at htext
  | comment hbody' h =>
      obtain ⟨-, htext⟩ := List.cons.inj htext
      obtain ⟨-, rfl⟩ := List.cons.inj htext
      simp at hbody
  | lastComment hbody' => rfl
  | token hw hty hcomment h => exact absurd ⟨_, htext⟩ hcomment

/-- A text that starts with a token starts with this one. -/
theorem inv_token (hw : Longest IsLexeme w rest) (hcomment : ¬ ['/', '/'] <+: w ++ rest)
    (h : Lexes line (w ++ rest) ls) :
    ∃ ty ls', lexemeType w = some ty ∧ ls = { type := ty, value := lexemeText w, line } :: ls' ∧
      Lexes line rest ls' := by
  generalize htext : w ++ rest = text at h
  cases h with
  | nil => exact absurd (List.append_eq_nil_iff.mp htext).1 (ne_nil_of_isLexeme hw.word)
  | blank hc h =>
      obtain ⟨v, rfl, -⟩ := head_of_append hw.word htext.symm
      refine absurd ?_ (not_blank_of_isLexeme hw.word)
      rcases hc with rfl | rfl <;> simp
  | newline h =>
      obtain ⟨v, rfl, -⟩ := head_of_append hw.word htext.symm
      exact absurd (by simp) (not_blank_of_isLexeme hw.word)
  | comment hbody h => exact absurd ⟨_, htext.symm⟩ hcomment
  | lastComment hbody => exact absurd ⟨_, htext.symm⟩ hcomment
  | token hw' hty hcomment' h =>
      obtain ⟨rfl, rfl⟩ := hw.unique hw' htext
      exact ⟨_, _, hty, rfl, h⟩

/-- **A text has one sequence of tokens.** -/
theorem unique {text : List Char} {ls' : List Lexeme} (h : Lexes line text ls)
    (h' : Lexes line text ls') : ls = ls' := by
  induction h generalizing ls' with
  | nil => exact (inv_nil h').symm
  | blank hc h ih => exact ih (inv_blank hc h')
  | newline h ih => exact ih (inv_newline h')
  | comment hbody h ih => exact ih (inv_comment hbody h')
  | lastComment hbody => exact (inv_lastComment hbody h').symm
  | token hw hty hcomment h ih =>
      obtain ⟨ty', ls'', hty', rfl, h''⟩ := inv_token hw hcomment h'
      obtain rfl := Option.some.inj (hty.symm.trans hty')
      rw [ih h'']

end Lexes

/-! ### The whole input

The memory of fresh tokens may be anything, and a result that depends on it is not right.
-/

section Tokenize

variable {uninit : Nat → Token} {input : List Char}

/-- More turns than enough change nothing. -/
theorem tokenizeLoop_mono {fuel fuel' : Nat} {s : LexState} {r : Except LexError (List Token)}
    (h : tokenizeLoop uninit fuel s = some r) (hle : fuel ≤ fuel') :
    tokenizeLoop uninit fuel' s = some r := by
  induction fuel generalizing fuel' s with
  | zero => simp [tokenizeLoop] at h
  | succ fuel ih =>
      obtain ⟨n, rfl⟩ := Nat.exists_eq_succ_of_ne_zero (by omega : fuel' ≠ 0)
      rw [tokenizeLoop] at h ⊢
      cases hstep : tokenizeStep uninit s with
      | error e =>
          rw [hstep] at h
          exact h
      | ok o =>
          rw [hstep] at h
          cases o with
          | none => exact h
          | some s' => exact ih h (by omega)

theorem tokenize_unique {fuel fuel' : Nat} {r r' : Except LexError (List Token)}
    (h : tokenize uninit fuel input = some r) (h' : tokenize uninit fuel' input = some r') :
    r = r' := by
  have h1 := tokenizeLoop_mono h (Nat.le_max_left fuel fuel')
  have h2 := tokenizeLoop_mono h' (Nat.le_max_right fuel fuel')
  exact Option.some.inj (h1.symm.trans h2)

/-- The lexer does with an input what longest match asks for. -/
structure LexesRight (uninit : Nat → Token) (input : List Char) : Prop where
  stops : (∃ fuel c, tokenize uninit fuel input = some (.error (.unexpectedChar c))) ↔
    HasUnexpected input
  returns : ¬ HasUnexpected input → ∃ fuel ts, tokenize uninit fuel input = some (.ok ts) ∧
    ∀ ls, Lexes 1 input ls ↔ ls = ts.map Token.lexeme

/-- A text stands for the whole input. -/
structure StandsFor (text input : List Char) : Prop where
  unexpected : HasUnexpected text ↔ HasUnexpected input
  pending : endsPending text = false
  comment : ¬ HasUnexpected input → endsInComment text = false
  tokens : ¬ HasUnexpected input → ∀ ls, Lexes 1 text ls ↔ Lexes 1 input ls

theorem lexed_prefix (input : List Char) : lexed input <+: input := List.take_prefix _ _

theorem tokenize_lexes (hnul : nul ∉ input) (hfit : DigitsFit input)
    (hp : endsPending (lexed input) = false) :
    ∃ fuel, LoopLexes uninit (LexState.initial input) (lexed input)
      (tokenize uninit fuel input) := by
  have hpre := lexed_prefix input
  exact ⟨_, tokenizeLoop_lexes (fun h => hnul (hpre.subset h))
    (fun w hw hin => hfit w hw (hin.trans hpre.isInfix))
    hp (View.initial input) (Nat.lt_succ_self _)⟩

/-- What is returned are the tokens of what was read, and perhaps a comment taken for one. -/
theorem LoopLexes.returned {text : List Char} {fuel : Nat}
    (h : LoopLexes uninit (LexState.initial input) text (tokenize uninit fuel input))
    (hb : ¬ HasUnexpected text) :
    ∃ ts line, Lexes 1 text (ts.map Token.lexeme) ∧
      tokenize uninit fuel input = some (.ok (ts ++ commentToken uninit ts.length line text)) := by
  obtain ⟨ts, line, hl, hres⟩ := h.returns hb
  refine ⟨ts, line, hl, ?_⟩
  rw [hres]
  simp [LexState.initial]

/-- The lexer does right with an input if the text it reads stands for it. -/
theorem StandsFor.lexesRight (h : StandsFor (lexed input) input) (hnul : nul ∉ input)
    (hfit : DigitsFit input) : LexesRight uninit input := by
  obtain ⟨fuel, hl⟩ := tokenize_lexes hnul hfit h.pending
  refine ⟨⟨?_, fun hb => ?_⟩, fun hb => ?_⟩
  · rintro ⟨fuel', c, herr⟩
    by_contra hb
    obtain ⟨ts, line, -, hres⟩ := hl.returned fun hb' => hb (h.unexpected.mp hb')
    exact absurd (tokenize_unique herr hres) (by simp)
  · obtain ⟨c, herr⟩ := hl.stops (h.unexpected.mpr hb)
    exact ⟨fuel, c, herr⟩
  · obtain ⟨ts, line, hlex, hres⟩ := hl.returned fun hb' => hb (h.unexpected.mp hb')
    rw [commentToken, h.comment hb, if_neg (by simp), List.append_nil] at hres
    refine ⟨fuel, ts, hres, fun ls => ?_⟩
    rw [← h.tokens hb ls]
    constructor
    · exact fun hls => hls.unique hlex
    · rintro rfl
      exact hlex

/-- If it does right, whatever the memory holds, the text it reads stands for the input. -/
theorem standsFor_of_lexesRight (h : ∀ uninit, LexesRight uninit input) (hnul : nul ∉ input)
    (hfit : DigitsFit input) : StandsFor (lexed input) input := by
  have hp : endsPending (lexed input) = false := by
    by_contra hp
    have hnone : ∀ fuel, tokenize (fun _ => { type := .ident, value := "" }) fuel input = none :=
      tokenizeLoop_pending (Bool.eq_true_of_not_eq_false hp) (View.initial input)
    by_cases hb : HasUnexpected input
    · obtain ⟨fuel, c, herr⟩ := (h _).stops.mpr hb
      exact absurd ((hnone fuel).symm.trans herr) (by simp)
    · obtain ⟨fuel, ts, hres, -⟩ := (h _).returns hb
      exact absurd ((hnone fuel).symm.trans hres) (by simp)
  have hbad : HasUnexpected (lexed input) ↔ HasUnexpected input := by
    obtain ⟨fuel, hl⟩ := @tokenize_lexes (fun _ => { type := .ident, value := "" }) _ hnul hfit hp
    constructor
    · intro hb
      obtain ⟨c, herr⟩ := hl.stops hb
      exact (h _).stops.mp ⟨fuel, c, herr⟩
    · intro hb
      obtain ⟨fuel', c, herr⟩ := (h _).stops.mpr hb
      by_contra hb'
      obtain ⟨ts, line, -, hres⟩ := hl.returned hb'
      exact absurd (tokenize_unique herr hres) (by simp)
  -- what a run returns are the tokens of the input
  have hret : ¬ HasUnexpected input → ∀ uninit, ∃ ts line, Lexes 1 (lexed input)
    (ts.map Token.lexeme) ∧
      ∀ ls, Lexes 1 input ls ↔
        ls = (ts ++ commentToken uninit ts.length line (lexed input)).map Token.lexeme := by
    intro hb uninit
    obtain ⟨fuel, hl⟩ := @tokenize_lexes uninit _ hnul hfit hp
    obtain ⟨ts, line, hlex, hres⟩ := hl.returned fun hb' => hb (hbad.mp hb')
    obtain ⟨fuel', ts', hres', hall⟩ := (h uninit).returns hb
    obtain rfl := Except.ok.inj (tokenize_unique hres' hres)
    exact ⟨ts, line, hlex, hall⟩
  have hcom : ¬ HasUnexpected input → endsInComment (lexed input) = false := by
    intro hb
    by_contra hc
    have hc := Bool.eq_true_of_not_eq_false hc
    -- two memories, two texts of the token a comment is taken for
    obtain ⟨ts0, line0, hlex0, hall0⟩ := hret hb fun _ => { type := .ident, value := "" }
    obtain ⟨ts1, line1, hlex1, hall1⟩ := hret hb fun _ => { type := .ident, value := "?" }
    have heq := ((hall0 _).mpr rfl).unique ((hall1 _).mpr rfl)
    rw [List.map_append, List.map_append, hlex0.unique hlex1, List.append_cancel_left_eq] at heq
    simp [commentToken, hc, Token.lexeme] at heq
  refine ⟨hbad, hp, hcom, fun hb ls => ?_⟩
  obtain ⟨ts, line, hlex, hall⟩ := hret hb fun _ => { type := .ident, value := "" }
  rw [commentToken, hcom hb, if_neg (by simp), List.append_nil] at hall
  rw [hall]
  constructor
  · exact fun hls => hls.unique hlex
  · rintro rfl
    exact hlex

/-- Behind a newline nothing is open. -/
theorem endsIn_newline {q : LexMode → Bool} (hstart : q .start = false) (mode : LexMode)
    (s : List Char) : endsIn q mode (s ++ ['\n']) = false := by
  induction s generalizing mode with
  | nil =>
      have hread : mode.read '\n' = some .start := by
        cases mode with
        | op p =>
            have : completes p '\n' = false := by
              unfold completes
              split <;> rfl
            simp only [LexMode.read, this]
            rfl
        | _ => rfl
      rw [List.nil_append, endsIn, hread]
      exact hstart
  | cons c s ih =>
      rw [List.cons_append, endsIn]
      cases mode.read c with
      | none => rfl
      | some mode' => exact ih mode'

theorem lexed_eq (h : input.length < 2 ^ 31) : lexed input = input := by
  have hnat : (BitVec.ofNat 32 input.length).toNat = input.length := by
    rw [BitVec.toNat_ofNat, Nat.mod_eq_of_lt (by omega)]
  have hint : (BitVec.ofNat 32 input.length).toInt.toNat = input.length := by
    rw [BitVec.toInt_eq_toNat_of_lt (by omega), hnat, Int.toNat_natCast]
  rw [lexed, hint, List.take_length]

/--
**The lexer takes the longest token, in every input that is not too long for an `int`.**
Of longer inputs only a part is read, and they come out right exactly if that part stands
for the whole.
-/
theorem lexesRight_iff (hnul : nul ∉ input) (hend : input.getLast? = some '\n')
    (hfit : DigitsFit input) :
    (∀ uninit, LexesRight uninit input) ↔ input.length < 2 ^ 31 ∨
      StandsFor (lexed input) input := by
  constructor
  · exact fun h => Or.inr (standsFor_of_lexesRight h hnul hfit)
  · rintro (hlen | h) uninit
    · obtain ⟨s, rfl⟩ := List.getLast?_eq_some_iff.mp hend
      have hstands : StandsFor (lexed (s ++ ['\n'])) (s ++ ['\n']) := by
        rw [lexed_eq hlen]
        exact ⟨Iff.rfl, endsIn_newline rfl .start s, fun _ => endsIn_newline rfl .start s,
          fun _ _ => Iff.rfl⟩
      exact hstands.lexesRight hnul hfit
    · exact h.lexesRight hnul hfit

/-- A text of at most nine digits has no number that is too large. -/
theorem digitsFit_of_few {text : List Char} (h : (text.filter Char.isDigit).length ≤ 9) :
    DigitsFit text := by
  intro w hw hin
  have hall : ∀ c ∈ w, c.isDigit = true := by
    simp only [isNumber, Bool.and_eq_true] at hw
    exact List.all_eq_true.mp hw.2
  have hsub : w.Sublist (text.filter Char.isDigit) := by
    have hfilter := hin.sublist.filter Char.isDigit
    rwa [List.filter_eq_self.mpr hall] at hfilter
  have hlen := hsub.length_le
  calc digitsValue w < 10 ^ w.length := digitsValue_lt hall
    _ ≤ 10 ^ 9 := Nat.pow_le_pow_right (by decide) (by omega)
    _ ≤ 2 ^ 31 := by decide

/-- A keyword, an operator of two characters, a number that is not canonical and a comment. -/
def ifLine : List Char := "if (a <= 07) // b\n;\n".toList

theorem lexesRight_iff_ifLine :
    (∀ uninit, LexesRight uninit ifLine) ∧ ∀ ls, Lexes 1 ifLine ls ↔
      ls = [⟨.if_, "if", 1⟩, ⟨.lparen, "(", 1⟩, ⟨.ident, "a", 1⟩, ⟨.ltEq, "<=", 1⟩,
        ⟨.num, "7", 1⟩, ⟨.rparen, ")", 1⟩, ⟨.semicolon, ";", 2⟩] := by
  have hright : ∀ uninit, LexesRight uninit ifLine :=
    (lexesRight_iff (by decide) (by decide) (digitsFit_of_few (by decide))).mpr
      (Or.inl (by decide))
  refine ⟨hright, fun ls => ?_⟩
  have hnone : ¬ HasUnexpected ifLine := by
    rintro ⟨c, hc, hbad⟩
    have htext : (outsideComments false ifLine).all isTextChar = true := rfl
    rw [List.all_eq_true.mp htext c hc] at hbad
    simp at hbad
  obtain ⟨fuel, ts, hres, hall⟩ := (hright fun _ => { type := .ident, value := "" }).returns hnone
  have hrun : tokenize (fun _ => { type := .ident, value := "" }) 20 ifLine =
      some (.ok [⟨.if_, "if", 1, 1⟩, ⟨.lparen, "(", 3, 1⟩, ⟨.ident, "a", 4, 1⟩,
        ⟨.ltEq, "<=", 6, 1⟩, ⟨.num, "7", 8, 1⟩, ⟨.rparen, ")", 9, 1⟩,
          ⟨.semicolon, ";", 2, 2⟩]) := by
    rfl
  obtain rfl := Except.ok.inj (tokenize_unique hres hrun)
  exact hall ls

/-! ### A name and `n` newlines

The counterexample has a length that is no `int`, so it is not run but reasoned about.
-/

/-- One name, and then `n` newlines. -/
def nameLines (n : Nat) : List Char := 'x' :: List.replicate n '\n'

theorem nul_not_mem_nameLines (n : Nat) : nul ∉ nameLines n := by
  rw [nameLines, List.mem_cons, List.mem_replicate]
  rintro (h | ⟨-, h⟩) <;> exact absurd h (by decide)

theorem nameLines_getLast? (n : Nat) : (nameLines (n + 1)).getLast? = some '\n' := by
  rw [nameLines, List.replicate_succ', ← List.cons_append]
  exact List.getLast?_concat

theorem nameLines_length (n : Nat) : (nameLines n).length = n + 1 := by
  rw [nameLines, List.length_cons, List.length_replicate]

/-- There is no digit to begin with. -/
theorem nameLines_digitsFit (n : Nat) : DigitsFit (nameLines n) := by
  have hnone : (nameLines n).filter Char.isDigit = [] := by
    rw [List.filter_eq_nil_iff]
    intro c hc
    rw [nameLines, List.mem_cons, List.mem_replicate] at hc
    -- an input that is short enough stands for itself
    rcases hc with rfl | ⟨-, rfl⟩ <;> decide
  exact digitsFit_of_few (by simp [hnone])

theorem nameLines_not_hasUnexpected (n : Nat) : ¬ HasUnexpected (nameLines n) := by
  have hlines : outsideComments false (List.replicate n '\n') = List.replicate n '\n' := by
    induction n with
    | zero => rfl
    | succ n ih => rw [List.replicate_succ, outsideComments_cons (by decide), ih]
  rintro ⟨c, hc, hbad⟩
  rw [nameLines, outsideComments_cons (by decide), hlines, List.mem_cons, List.mem_replicate] at hc
  rcases hc with rfl | ⟨-, rfl⟩ <;> exact absurd hbad (by decide)

theorem nameLines_ne_nil {n : Nat} {line : Int} {ls : List Lexeme}
    (h : Lexes line (nameLines n) ls) : ls ≠ [] := by
  rw [nameLines] at h
  generalize htext : 'x' :: List.replicate n '\n' = text at h
  cases h with
  | blank hc h =>
      obtain ⟨rfl, -⟩ := List.cons.inj htext
      simp at hc
  | token hw hty hcomment h => simp
  | _ => simp at htext

/-- An input of `2 ^ 31` characters counts as one of a negative length, and nothing is read. -/
theorem lexed_eq_nil (h : input.length = 2 ^ 31) : lexed input = [] := by
  rw [lexed, h]
  rfl

theorem nameLines_not_lexesRight :
    ∃ n, nul ∉ nameLines n ∧ (nameLines n).getLast? = some '\n' ∧ DigitsFit (nameLines n) ∧
      ∀ uninit, ¬ LexesRight uninit (nameLines n) := by
  obtain ⟨n, hn⟩ : ∃ n, n + 2 = 2 ^ 31 := ⟨2147483646, rfl⟩
  refine ⟨n + 1, nul_not_mem_nameLines _, nameLines_getLast? n, nameLines_digitsFit _, ?_⟩
  intro uninit h
  have hread : lexed (nameLines (n + 1)) = [] := lexed_eq_nil (by rw [nameLines_length, ← hn])
  have hv : View (lexed (nameLines (n + 1))) (LexState.initial (nameLines (n + 1))).lexer
      (lexed (nameLines (n + 1))) := View.initial _
  rw [hread] at hv
  -- no token is returned, but there is one
  obtain ⟨fuel, ts, hres, hall⟩ := h.returns (nameLines_not_hasUnexpected _)
  obtain rfl := Except.ok.inj (tokenize_unique hres (tokenizeLoop_nil hv Nat.one_pos))
  exact nameLines_ne_nil ((hall []).mpr rfl) rfl

end Tokenize

end MyLang
