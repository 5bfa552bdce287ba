/-
The lexer and the parser read a program back from its text.

A text that spells a list of tokens is cut by the lexer into these: a gap is passed over
in turns that push nothing, and where a token stands the longest match is this token,
because what follows it does not join.  With what the parser does with the tokens of a
program as it is written, the two together find the program in every text that spells it.

`Written` says what such a text is (`Writing.lean`): tokens, and between any two a gap of
white space and comments, which may be empty if the second does not join the first.  Two
tokens join if the beginning of the second, behind the first, makes a longer token than
the first.  This is asked of the text alone, and the lexer does not come into it.

A program ends with a brace.  So there is no operator at the end of the text for the lexer
to read again and again, and a comment behind the brace has to be closed by its newline.
-/
import MyLang.Proofs.Lexes
import MyLang.Proofs.StmtRender
import MyLang.Writing

namespace MyLang

open LongestMatch

variable {w v rest text gap : List Char} {c : Char} {p : Piece} {ps : List Piece} {ty : TokenType}

/-! ### A token and what follows it

A token that is longer than the one that stands there would begin with it and a part of
what follows.
-/

/-- The beginning of a token of two characters or more is a token. -/
theorem isLexeme_of_append (hwv : IsLexeme (w ++ v)) (hw : w ≠ []) : IsLexeme w := by
  obtain ⟨c, u, rfl⟩ := List.exists_cons_of_ne_nil hw
  rcases isLexeme_cases hwv with h | h | h
  · rw [isNumber, Bool.and_eq_true, List.all_append, Bool.and_eq_true] at h
    have hnum : isNumber (c :: u) = true := by
      rw [isNumber, h.2.1]
      rfl
    rw [IsLexeme, lexemeType, if_pos hnum]
    rfl
  · rw [List.cons_append, isWord, List.all_append, Bool.and_eq_true, Bool.and_eq_true] at h
    have hword : isWord (c :: u) = true := by
      rw [isWord, h.1, h.2.1]
      rfl
    rw [IsLexeme, lexemeType, if_pos hword]
    split <;> rfl
  · -- an operator: its first character is one as well
    have hall : (spellings.map Prod.fst).all (fun w => decide (w.length ≤ 2) &&
        w.head?.all fun c => (lexemeType [c]).isSome) = true := by decide
    have hop := List.all_eq_true.mp hall _ h
    simp only [List.cons_append, List.length_cons, List.length_append, List.head?_cons,
      Option.all_some, Bool.and_eq_true, decide_eq_true_eq] at hop
    cases v with
    | nil => rwa [List.append_nil] at hwv
    | cons d v =>
        have hu : u = [] := by
          rw [← List.length_eq_zero_iff]
          rw [List.length_cons] at hop
          omega
        rw [hu]
        exact hop.2

/-- A token is the longest one if what follows does not join. -/
theorem longest_of_joins (hw : IsLexeme w) (hjoins : ∀ c ∈ rest.head?, joins w c = false) :
    Longest IsLexeme w rest ∧ ¬ ['/', '/'] <+: w ++ rest := by
  refine ⟨Longest.of_not hw fun v hv hpre hwv => ?_, fun hpre => ?_⟩
  · obtain ⟨c, u, rfl⟩ := List.exists_cons_of_ne_nil hv
    obtain ⟨t, rfl⟩ := hpre
    have hc : joins w c = false := hjoins c rfl
    rw [joins, Bool.or_eq_false_iff] at hc
    rw [← List.singleton_append, ← List.append_assoc] at hwv
    have hlex : IsLexeme (w ++ [c]) := isLexeme_of_append hwv (by simp)
    exact Bool.false_ne_true (hc.1.symm.trans hlex)
  · obtain ⟨c, u, rfl⟩ := List.exists_cons_of_ne_nil (Lexes.ne_nil_of_isLexeme hw)
    rw [List.cons_append, List.cons_prefix_cons] at hpre
    obtain ⟨rfl, hpre⟩ := hpre
    rcases (isLexeme_text hw).1 with hslash | hslash
    · obtain rfl := (List.cons.inj hslash).2
      obtain ⟨t, rfl⟩ := hpre
      have hc : joins ['/'] '/' = false := hjoins '/' rfl
      exact absurd hc (by decide)
    · exact hslash List.mem_cons_self

/-- The operators that could be longer. -/
theorem pending_type (h : lexemeType [c] = some ty) (hbehind : LexMode.behind c = some (.op c)) :
    ty ∈ [.div, .and, .or, .assign, .not, .lt, .gt] := by
  have hop : isPrefixOp c = true := by
    by_contra hop
    rw [LexMode.behind, if_neg hop] at hbehind
    split at hbehind
    · simp at hbehind
    · split at hbehind
      · simp at hbehind
      · split at hbehind <;> simp at hbehind
  simp only [isPrefixOp, decide_eq_true_eq, List.mem_cons, List.not_mem_nil, or_false] at hop
  rcases hop with rfl | rfl | rfl | rfl | rfl | rfl | rfl <;>
    · obtain rfl := Option.some.inj h
      decide

/-- **Where a token stands and nothing behind it joins, the next turn finds it.** -/
theorem turn_spelled (hw : Spells w p) (hjoins : ∀ c ∈ rest.head?, joins w c = false)
    (hend : rest = [] → p.1 = .rbrace) (hnul : nul ∉ w ++ rest) :
    turn (w ++ rest) = .token p.1 p.2 rest := by
  have hlex : IsLexeme w := by
    rw [IsLexeme, hw.type]
    rfl
  obtain ⟨hlong, hcomment⟩ := longest_of_joins hlex hjoins
  have hturn : TurnLexes (w ++ rest) (turn (w ++ rest)) := by
    obtain ⟨c, u, rfl⟩ := List.exists_cons_of_ne_nil (Lexes.ne_nil_of_isLexeme hlex)
    refine turn_lexes_of hnul (fun d t heq hd => ?_) fun d t heq hbehind ht => ?_
    · -- the digits in front are the token
      obtain ⟨rfl, rfl⟩ := List.cons.inj heq
      have hnum : isNumber (c :: (u ++ rest).takeWhile Char.isDigit) = true := by
        rw [isNumber, List.all_cons, hd, takeWhile_all]
        rfl
      have hty : lexemeType (c :: (u ++ rest).takeWhile Char.isDigit) = some .num := if_pos hnum
      have hlong' : Longest IsLexeme (c :: (u ++ rest).takeWhile Char.isDigit)
          ((u ++ rest).dropWhile Char.isDigit) :=
        longest_takeWhile (by rw [IsLexeme, hty]; rfl) fun v => digits_of_isLexeme hd
      obtain ⟨heq, -⟩ := hlong'.unique hlong (by
        rw [List.cons_append, List.takeWhile_append_dropWhile, List.cons_append])
      have hfits := hw.fits (Option.some.inj (hw.type.symm.trans (heq ▸ hty)))
      rwa [← heq] at hfits
    · rw [ht, List.cons_append] at heq
      obtain ⟨rfl, hnil⟩ := List.cons.inj heq
      obtain ⟨rfl, rfl⟩ := List.append_eq_nil_iff.mp hnil
      have := pending_type hw.type hbehind
      rw [hend rfl] at this
      exact absurd this (by decide)
  obtain ⟨hslash, htext⟩ := isLexeme_text hlex
  generalize heq : w ++ rest = text at hturn hcomment
  have hhead : ∀ c t, text = c :: t → c ∈ w := by
    intro c t h
    obtain ⟨v, rfl, -⟩ := Lexes.head_of_append hlex (h.symm.trans heq.symm)
    exact List.mem_cons_self
  generalize turn text = tn at hturn
  cases hturn with
  | done h =>
      exact absurd (List.append_eq_nil_iff.mp (heq.trans h)).1 (Lexes.ne_nil_of_isLexeme hlex)
  | stop h hc => exact absurd (htext _ (hhead _ _ h)) (by rw [hc]; simp)
  | blank h hc =>
      obtain ⟨v, rfl, -⟩ := Lexes.head_of_append hlex (h.symm.trans heq.symm)
      refine absurd ?_ (Lexes.not_blank_of_isLexeme hlex)
      rcases hc with rfl | rfl <;> simp
  | newline h =>
      obtain ⟨v, rfl, -⟩ := Lexes.head_of_append hlex (h.symm.trans heq.symm)
      exact absurd (by simp) (Lexes.not_blank_of_isLexeme hlex)
  | comment hbody h => exact absurd ⟨_, h.symm⟩ hcomment
  | lastComment hbody h => exact absurd ⟨_, h.symm⟩ hcomment
  | token hw' hty hcomment' h =>
      obtain ⟨rfl, rfl⟩ := hw'.unique hlong (h.symm.trans heq.symm)
      rw [Option.some.inj (hty.symm.trans hw.type), hw.text]

/-! ### The loop

One turn for each token, and one for each white space or comment of a gap.
-/

section Loop

variable {uninit : Nat → Token} {whole : List Char} {s s' : LexState}

/-- From a state on the loop pushes tokens with the types and texts `ps`. -/
def Pushes (uninit : Nat → Token) (s : LexState) (ps : List Piece) : Prop :=
  ∃ fuel ts, tokenizeLoop uninit fuel s = some (.ok (s.vector ++ ts)) ∧ ts.map Token.piece = ps

theorem Pushes.skip (hstep : tokenizeStep uninit s = .ok (some s')) (hvec : s'.vector = s.vector)
    (h : Pushes uninit s' ps) : Pushes uninit s ps := by
  obtain ⟨fuel, ts, hloop, hts⟩ := h
  refine ⟨fuel + 1, ts, ?_, hts⟩
  rw [tokenizeLoop, hstep, ← hvec]
  exact hloop

theorem Pushes.push {t : Token} (hstep : tokenizeStep uninit s = .ok (some s'))
    (hvec : s'.vector = s.vector ++ [t]) (h : Pushes uninit s' ps) :
    Pushes uninit s (t.piece :: ps) := by
  obtain ⟨fuel, ts, hloop, hts⟩ := h
  refine ⟨fuel + 1, t :: ts, ?_, by rw [List.map_cons, hts]⟩
  rw [tokenizeLoop, hstep, ← List.singleton_append, ← List.append_assoc, ← hvec]
  exact hloop

theorem Pushes.nil (hv : View whole s.lexer []) : Pushes uninit s [] := by
  refine ⟨1, [], ?_, rfl⟩
  rw [List.append_nil]
  exact tokenizeLoop_nil hv Nat.one_pos

/-- Behind a comment its newline is read. -/
theorem turnComment_body (hbody : ∀ c ∈ gap, c ≠ nul ∧ c ≠ '\n') :
    turnComment (gap ++ '\n' :: rest) = .newline rest := by
  have hdrop : (gap ++ '\n' :: rest).dropWhile inComment = '\n' :: rest := by
    rw [List.dropWhile_append_of_pos, List.dropWhile_cons_of_neg (by decide)]
    intro c hc
    simp [inComment, hbody c hc]
  rw [turnComment, hdrop]
  rfl

/-- In a gap nothing is pushed. -/
theorem Gap.pushes (hgap : Gap gap) (h : ∀ s, View whole s.lexer rest → Pushes uninit s ps)
    (hv : View whole s.lexer (gap ++ rest)) : Pushes uninit s ps := by
  have hskip : ∀ text rest' gap', turn text = .blank rest' ∨ turn text = .newline rest' →
    rest' = gap' ++ rest →
      (∀ s, View whole s.lexer (gap' ++ rest) → Pushes uninit s ps) →
      ∀ s, View whole s.lexer text → Pushes uninit s ps := by
    intro text rest' gap' hturn heq ih s hv
    have hstep : Stepped uninit whole s (turn text) (tokenizeStep uninit s) :=
      tokenizeStep_stepped hv
    generalize hres : tokenizeStep uninit s = res at hstep
    rcases hturn with hturn | hturn
    · rw [hturn] at hstep
      cases hstep with
      | blank hv' => exact Pushes.skip hres rfl (ih _ (heq ▸ hv'))
    · rw [hturn] at hstep
      cases hstep with
      | newline hv' => exact Pushes.skip hres rfl (ih _ (heq ▸ hv'))
  induction hgap generalizing s with
  | nil => exact h s hv
  | @blank c gap hc hgap ih =>
      refine hskip (c :: (gap ++ rest)) (gap ++ rest) gap ?_ rfl (fun s hv => ih hv) s hv
      simp only [isBlank, decide_eq_true_eq, List.mem_cons, List.not_mem_nil, or_false] at hc
      rcases hc with rfl | rfl | rfl
      · exact Or.inl rfl
      · exact Or.inl rfl
      · exact Or.inr rfl
  | @comment body gap hbody hgap ih =>
      refine hskip ('/' :: '/' :: (body ++ '\n' :: (gap ++ rest))) (gap ++ rest) gap (Or.inr ?_) rfl
        (fun s hv => ih hv) s (by simpa using hv)
      exact turnComment_body hbody

/-- No terminator stands in a text that spells tokens. -/
theorem Gap.no_nul (h : Gap gap) : nul ∉ gap := by
  induction h with
  | nil => simp
  | blank hc h ih =>
      rw [List.mem_cons, not_or]
      exact ⟨fun heq => absurd (heq ▸ hc) (by decide), ih⟩
  | comment hbody h ih =>
      simp only [List.mem_cons, List.mem_append, not_or]
      exact ⟨by decide, by decide, fun hn => (hbody _ hn).1 rfl, by decide, ih⟩

theorem Written.no_nul (h : Written ps text) : nul ∉ text := by
  induction h with
  | done hgap => exact hgap.no_nul
  | token hgap hw _ _ ih =>
      rw [List.mem_append, List.mem_append, not_or, not_or]
      refine ⟨hgap.no_nul, fun hn => ?_, ih⟩
      exact absurd ((isLexeme_text (by rw [IsLexeme, hw.type]; rfl)).2 _ hn) (by decide)

theorem Written.eq_nil (h : Written ps text) (htext : text = []) : ps = [] := by
  cases h with
  | done => rfl
  | token hgap hw _ _ =>
      have hnil := (List.append_eq_nil_iff.mp (List.append_eq_nil_iff.mp htext).2).1
      exact absurd hnil (Lexes.ne_nil_of_isLexeme (by rw [IsLexeme, hw.type]; rfl))

/-- **In a text that spells tokens and ends with a brace the loop finds these tokens.** -/
theorem Written.pushes (h : Written ps text) (hlast : ∀ p ∈ ps.getLast?, p.1 = .rbrace)
    (hv : View whole s.lexer text) : Pushes uninit s ps := by
  induction h generalizing s with
  | @done gap hgap =>
      have hnil : ∀ s : LexState, View whole s.lexer [] → Pushes uninit s [] :=
        fun s hv => Pushes.nil hv
      refine hgap.pushes hnil ?_
      rwa [List.append_nil]
  | @token gap w p ps rest hgap hw hjoins h ih =>
      refine hgap.pushes (fun s hv => ?_) hv
      have hnul : nul ∉ w ++ rest := (Written.token Gap.nil hw hjoins h).no_nul
      have hend : rest = [] → p.1 = .rbrace := by
        intro hrest
        obtain rfl := h.eq_nil hrest
        exact hlast p rfl
      have hstep : Stepped uninit whole s _ (tokenizeStep uninit s) := tokenizeStep_stepped hv
      rw [turn_spelled hw hjoins hend hnul] at hstep
      generalize hres : tokenizeStep uninit s = res at hstep
      cases hstep with
      | token hv' =>
          refine Pushes.push hres rfl (ih (fun q hq => hlast q ?_) hv')
          rw [List.getLast?_cons, Option.mem_def.mp hq]
          rfl

end Loop

/-! ### Programs

The texts of the tokens of a program are those `render` gives.
-/

/-- A function ends with a brace. -/
theorem render_ends {func : AstNode} (h : func.funcWF = true) :
    ∃ lex, func.render 0 = lex ++ [punct .rbrace] := by
  unfold AstNode.funcWF at h
  split at h
  · rename_i value type body params symbol
    refine ⟨(.type, type) :: (.ident, value) :: punct .lparen ::
      (commas (params.map fun p => [(.type, p.type), (.ident, p.value)])
        ++ punct .rparen :: punct .lbrace :: (AstNode.renderList 0 body).flatten), ?_⟩
    simp [AstNode.render]
  · cases h

theorem prog_ends {prog : List AstNode} (h : ∀ n ∈ prog, n.funcWF = true) :
    ∀ p ∈ (prog.flatMap (AstNode.render 0)).getLast?, p.1 = .rbrace := by
  induction prog using List.reverseRecOn with
  | nil => simp
  | append_singleton prog func _ =>
      obtain ⟨lex, hlex⟩ := render_ends (h func (by simp))
      intro p hp
      rw [List.flatMap_append, List.flatMap_singleton, hlex, ← List.append_assoc,
        List.getLast?_concat] at hp
      rw [← Option.some.inj hp]
      exact punct_type _

/--
**The front end reads a program back from every text that spells it**, however the
tokens are separated.
-/
theorem frontEnd_reads {uninit : Nat → Token} {undef : Int} {prog : List AstNode}
    {input : List Char} (h : ∀ n ∈ prog, n.funcWF = true)
    (hinput : Written (prog.flatMap (AstNode.render 0)) input) (hlen : input.length < 2 ^ 31) :
    ∃ fuel tokens, tokenize uninit fuel input = some (.ok tokens) ∧
      parse undef tokens = .ok (prog.map AstNode.erase, []) := by
  have hv : View (lexed input) (LexState.initial input).lexer (lexed input) := View.initial input
  rw [lexed_eq hlen] at hv
  have hpushes : Pushes uninit (LexState.initial input) _ := hinput.pushes (prog_ends h) hv
  obtain ⟨fuel, tokens, hrun, htokens⟩ := hpushes
  exact ⟨fuel, tokens, hrun, parse_render h htokens⟩

/-- No token takes a blank. -/
theorem not_joins_blank (w : List Char) : joins w ' ' = false := by
  have hnone : ¬ IsLexeme (w ++ [' ']) := by
    intro h
    rcases isLexeme_cases h with h | h | h
    · rw [isNumber, Bool.and_eq_true, List.all_append, Bool.and_eq_true] at h
      exact absurd h.2.2 (by decide)
    · cases w with
      | nil => exact absurd h (by decide)
      | cons c w =>
          rw [List.cons_append, isWord, List.all_append, Bool.and_eq_true, Bool.and_eq_true] at h
          exact absurd h.2.2 (by decide)
    · have hall : (spellings.map Prod.fst).all (fun w => w.getLast? ≠ some ' ') = true := by decide
      have hlast := List.all_eq_true.mp hall _ h
      rw [List.getLast?_concat] at hlast
      simp at hlast
  rw [joins, Bool.or_eq_false_iff]
  refine ⟨?_, by simp⟩
  rwa [IsLexeme, Bool.not_eq_true] at hnone

/-- Tokens with a blank behind each spell themselves. -/
theorem print_written (h : ∀ p ∈ ps, Spells p.2.toList p) : Written ps (print ps) := by
  have hgap : ∀ gap, Gap gap → Written ps (gap ++ print ps) := by
    induction ps with
    | nil =>
        intro gap hgap
        rw [print, List.flatMap_nil, List.append_nil]
        exact Written.done hgap
    | cons p ps ih =>
        intro gap hgap
        have hrest := ih (fun q hq => h q (List.mem_cons_of_mem _ hq)) [' '] (Gap.blank rfl Gap.nil)
        rw [print, List.flatMap_cons, List.append_assoc]
        refine Written.token hgap (h p List.mem_cons_self) (fun c hc => ?_) hrest
        obtain rfl := Option.some.inj hc
        exact not_joins_blank _
  exact hgap [] Gap.nil

theorem frontEnd_reads_prog : ∃ input :
    List Char, Written (renderProg.flatMap (AstNode.render 0)) input ∧
    input.length < 2 ^ 31 ∧ ∃ fuel tokens, tokenize (fun _ => tok .ident "") fuel input
      = some (.ok tokens) ∧ parse 0 tokens = .ok (renderProg.map AstNode.erase, []) := by
  have hspells : ∀ p ∈ renderProg.flatMap (AstNode.render 0), Spells p.2.toList p := by
    have hall : ∀ p ∈ renderProg.flatMap (AstNode.render 0), lexemeType p.2.toList = some p.1 ∧
        lexemeText p.2.toList = p.2 ∧ (p.1 = .num → digitsValue p.2.toList < 2 ^ 31) := by decide
    intro p hp
    obtain ⟨htype, htext, hfits⟩ := hall p hp
    exact ⟨htype, htext, hfits⟩
  have hinput := print_written hspells
  have hlen : (print (renderProg.flatMap (AstNode.render 0))).length < 2 ^ 31 := by decide
  exact ⟨_, hinput, hlen, frontEnd_reads (by decide) hinput hlen⟩

end MyLang
