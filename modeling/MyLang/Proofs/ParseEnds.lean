/-
The parser ends, on every list of tokens.

The model bounds the recursion and each loop of the parser.  `PReads` says that none of
these bounds is ever reached, so nothing depends on them; and it says so with everything
refused but what happens on shorter streams, so each turn of a loop and each level of the
recursion takes at least one token.

The first half is a comparison: `PApprox` says of two parse functions that the one does
what the other does, unless its bound runs out.  It goes through the parser
(`Lib/Approx.lean` has the rules), so a larger bound never changes a result.  Since with
enough of it no bound runs out, all sufficient bounds give the same.

The second half puts in the place of the loop, or of the function called again, one that
stops on every stream that is not shorter.  The automaton is followed all the same, which
could not be if a turn did not take a token.
-/
import MyLang.Proofs.StmtReads

namespace MyLang

open StateExcept PushDown PushDown.Automaton

variable {α β : Type} {ts : TokenStream} {n k : Nat}

/-- A parse function that does as another one does, unless its bound runs out. -/
abbrev PApprox (p q : Parser α) : Prop := Approx .outOfFuel p q

/-- Where the automaton is followed, no bound runs out. -/
theorem PReads.ne_outOfFuel {p : Parser α} {s s' : List Sym} (h : PReads p s s' ts n) :
    p ts ≠ .error .outOfFuel := by
  intro herr
  have hv := h.error herr []
  simp [ParseError.verdict] at hv

/-! ### Better parts make a better whole

A lemma for each function of the parser that is handed another one.
-/

section Mono

variable {uninit : Int} {p q s s' : Parser AstNode}

theorem argsTurn_mono (h : PApprox p q) {next next' : List AstNode → Parser (List AstNode)}
    (hnext : ∀ args, PApprox (next args) (next' args)) (args : List AstNode) :
    PApprox (argsTurn p next args) (argsTurn q next' args) := by
  refine Approx.bind_right fun _ => Approx.bind_right fun _ => Approx.ite (Approx.refl _) ?_
  refine Approx.bind h fun expr => Approx.bind_right fun _ => Approx.bind_right fun _ => ?_
  exact Approx.ite (Approx.refl _) (Approx.bind_right fun _ => hnext _)

theorem parseArgs_mono (h : PApprox p q) (n : Nat) (args : List AstNode) :
    PApprox (parseArgs p n args) (parseArgs q n args) := by
  induction n generalizing args with
  | zero => exact Approx.refl _
  | succ n ih => exact argsTurn_mono h ih args

theorem parseFuncCall_mono (h : PApprox p q) : PApprox (parseFuncCall p) (parseFuncCall q) := by
  refine Approx.bind_right fun _ => Approx.bind_right fun _ => Approx.bind_right fun _ => ?_
  refine Approx.bind_right fun ts => ?_
  exact Approx.bind (parseArgs_mono h _ _) fun _ => Approx.refl _

theorem parseIdent_mono (h : PApprox p q) : PApprox (parseIdent p) (parseIdent q) := by
  refine Approx.bind_right fun _ => Approx.bind_right fun _ => Approx.bind_right fun _ => ?_
  exact Approx.ite (parseFuncCall_mono h) (Approx.refl _)

theorem parsePrimaryExpression_mono (h : PApprox p q) :
    PApprox (parsePrimaryExpression uninit p) (parsePrimaryExpression uninit q) := by
  refine Approx.bind_right fun current => ?_
  cases current with
  | none => exact Approx.refl _
  | some current =>
      refine Approx.ite (Approx.refl _) (Approx.ite (parseIdent_mono h)
        (Approx.ite ?_ (Approx.refl _)))
      exact Approx.bind_right fun _ => Approx.bind h fun _ => Approx.refl _

theorem parseUnaryExpression_mono (h : PApprox p q) :
    PApprox (parseUnaryExpression uninit p) (parseUnaryExpression uninit q) := by
  refine Approx.bind_right fun _ => Approx.bind_right fun _ => Approx.ite ?_ ?_
  · exact Approx.bind_right fun _ => Approx.bind (parsePrimaryExpression_mono h) fun _ =>
      Approx.refl _
  · exact parsePrimaryExpression_mono h

theorem binaryTurn_mono (h : PApprox p q) {isOp : TokenType → Bool}
    {next next' : AstNode → Parser AstNode} (hnext : ∀ left, PApprox (next left) (next' left))
    (left : AstNode) : PApprox (binaryTurn p isOp next left) (binaryTurn q isOp next' left) := by
  refine Approx.bind_right fun current => ?_
  cases current with
  | none => exact Approx.refl _
  | some current =>
      refine Approx.ite ?_ (Approx.refl _)
      exact Approx.bind_right fun _ => Approx.bind h fun _ => hnext _

theorem binaryLoop_mono (h : PApprox p q) (isOp : TokenType → Bool) (n : Nat) (left : AstNode) :
    PApprox (binaryLoop isOp p n left) (binaryLoop isOp q n left) := by
  induction n generalizing left with
  | zero => exact Approx.refl _
  | succ n ih => exact binaryTurn_mono h ih left

theorem binaryLevel_mono (h : PApprox p q) (isOp : TokenType → Bool) :
    PApprox (binaryLevel isOp p) (binaryLevel isOp q) :=
  Approx.bind h fun _ => Approx.bind_right fun _ => binaryLoop_mono h _ _ _

theorem parseConditionalExpression_mono (h : PApprox p q) :
    PApprox (parseConditionalExpression uninit p) (parseConditionalExpression uninit q) := by
  have hunary : PApprox (parseUnaryExpression uninit p) (parseUnaryExpression uninit q) :=
    parseUnaryExpression_mono h
  have hmul := binaryLevel_mono hunary isMultiplicativeOp
  have hshift := binaryLevel_mono (binaryLevel_mono hmul isAdditiveOp) isShiftOp
  have hequal := binaryLevel_mono (binaryLevel_mono hshift isRelationalOp) isEqualityOp
  have hxor := binaryLevel_mono (binaryLevel_mono hequal (· = .and)) (· = .xor)
  have hlogAnd := binaryLevel_mono (binaryLevel_mono hxor (· = .or)) (· = .logAnd)
  exact binaryLevel_mono hlogAnd (· = .logOr)

theorem expressionBody_mono (h : PApprox p q) :
    PApprox (expressionBody uninit p) (expressionBody uninit q) := by
  refine Approx.bind_right fun _ => Approx.ite ?_ (parseConditionalExpression_mono h)
  refine Approx.bind (parseIdent_mono h) fun _ => Approx.bind_right fun _ => ?_
  exact Approx.bind h fun _ => Approx.refl _

theorem parseVarDef_mono (h : PApprox p q) : PApprox (parseVarDef p) (parseVarDef q) := by
  refine Approx.bind_right fun _ => Approx.bind_right fun _ => Approx.bind_right fun _ => ?_
  refine Approx.bind_right fun _ => Approx.bind_right fun _ => Approx.bind_right fun _ => ?_
  exact Approx.ite (Approx.bind_right fun _ => Approx.bind h fun _ => Approx.refl _) (Approx.refl _)

theorem parseDeclartion_mono (h : PApprox p q) : PApprox (parseDeclartion p) (parseDeclartion q) :=
  Approx.bind_right fun _ => Approx.ite (parseVarDef_mono h) (Approx.refl _)

theorem parseIfElseStatement_mono (h : PApprox p q) (hs : PApprox s s') :
    PApprox (parseIfElseStatement p s) (parseIfElseStatement q s') := by
  refine Approx.bind_right fun _ => Approx.bind_right fun _ => Approx.bind h fun _ => ?_
  refine Approx.bind_right fun _ => Approx.bind hs fun _ => Approx.bind_right fun current => ?_
  cases current with
  | none => exact Approx.refl _
  | some current =>
      refine Approx.ite ?_ (Approx.refl _)
      exact Approx.bind_right fun _ => Approx.bind hs fun _ => Approx.refl _

theorem enumeratorsTurn_mono {next next' : List String → Parser (List String)}
    (hnext : ∀ enums, PApprox (next enums) (next' enums)) (enums : List String) :
    PApprox (enumeratorsTurn next enums) (enumeratorsTurn next' enums) := by
  refine Approx.bind_right fun current => ?_
  cases current with
  | none => exact Approx.refl _
  | some current =>
      refine Approx.ite (Approx.refl _) ?_
      refine Approx.bind_right fun _ => Approx.bind_right fun _ => Approx.bind_right fun tail => ?_
      cases tail with
      | none => exact Approx.bind_right fun _ => hnext _
      | some tail => exact Approx.ite (Approx.refl _) (Approx.bind_right fun _ => hnext _)

theorem statementsTurn_mono (hs : PApprox s s') {next next' : List AstNode → Parser (List AstNode)}
    (hnext : ∀ body, PApprox (next body) (next' body)) (body : List AstNode) :
    PApprox (statementsTurn s next body) (statementsTurn s' next' body) := by
  refine Approx.bind_right fun current => ?_
  cases current with
  | none => exact Approx.refl _
  | some current => exact Approx.ite (Approx.refl _) (Approx.bind hs fun _ => hnext _)

theorem parseCompStmt_mono (hs : PApprox s s') : PApprox (parseCompStmt s) (parseCompStmt s') := by
  have hloop : ∀ n body, PApprox (parseStatements s n body) (parseStatements s' n body) := by
    intro n
    induction n with
    | zero => exact fun _ => Approx.refl _
    | succ n ih => exact statementsTurn_mono hs ih
  refine Approx.bind_right fun _ => Approx.bind_right fun _ => ?_
  exact Approx.bind (hloop _ _) fun _ => Approx.refl _

theorem parseIterStatement_mono (h : PApprox p q) (hs : PApprox s s') :
    PApprox (parseIterStatement p s) (parseIterStatement q s') := by
  refine Approx.bind_right fun _ => Approx.bind_right fun _ => Approx.ite ?_ ?_
  · refine Approx.bind_right fun _ => Approx.bind_right fun _ => Approx.bind ?_ fun _ => ?_
    · refine Approx.bind_right fun _ => Approx.ite (parseDeclartion_mono h) ?_
      exact Approx.bind h fun _ => Approx.refl _
    · refine Approx.bind h fun _ => Approx.bind_right fun _ => Approx.bind h fun _ => ?_
      exact Approx.bind_right fun _ => Approx.bind hs fun _ => Approx.refl _
  · refine Approx.bind_right fun _ => Approx.bind_right fun _ => Approx.bind h fun _ => ?_
    exact Approx.bind_right fun _ => Approx.bind hs fun _ => Approx.refl _

theorem statementBody_mono (h : PApprox p q) (hs : PApprox s s') :
    PApprox (statementBody p s) (statementBody q s') := by
  refine Approx.bind_right fun _ => Approx.bind_right fun current => ?_
  refine Approx.ite (parseIterStatement_mono h hs) (Approx.bind_right fun _ => ?_)
  refine Approx.ite (parseDeclartion_mono h) (Approx.ite ?_ ?_)
  · exact Approx.bind_right fun _ => Approx.bind h fun _ => Approx.refl _
  refine Approx.ite (parseIfElseStatement_mono h hs) (Approx.ite (Approx.refl _) ?_)
  exact Approx.ite (parseCompStmt_mono hs) (Approx.bind h fun _ => Approx.refl _)

theorem funcParamsTurn_mono {next next' : List Param → Parser (List Param)}
    (hnext : ∀ params, PApprox (next params) (next' params)) (params : List Param) :
    PApprox (funcParamsTurn next params) (funcParamsTurn next' params) := by
  refine Approx.bind_right fun current => ?_
  cases current with
  | none => exact Approx.refl _
  | some current =>
      refine Approx.ite (Approx.refl _) ?_
      refine Approx.bind_right fun _ => Approx.bind_right fun _ => Approx.bind_right fun _ => ?_
      refine Approx.bind_right fun _ => Approx.bind_right fun _ => Approx.bind_right fun _ => ?_
      exact Approx.ite (Approx.refl _) (Approx.bind_right fun _ => hnext _)

theorem progTurn_mono (hs : PApprox s s') {next next' : List AstNode → Parser (List AstNode)}
    (hnext : ∀ prog, PApprox (next prog) (next' prog)) (prog : List AstNode) :
    PApprox (progTurn s next prog) (progTurn s' next' prog) := by
  refine Approx.bind_right fun current => ?_
  cases current with
  | none => exact Approx.refl _
  | some current =>
      refine Approx.bind ?_ fun _ => hnext _
      refine Approx.bind_right fun _ => Approx.bind_right fun _ => Approx.bind_right fun _ => ?_
      refine Approx.bind_right fun _ => Approx.bind_right fun _ => Approx.bind_right fun _ => ?_
      refine Approx.bind_right fun _ => Approx.bind_right fun _ => ?_
      exact Approx.bind (parseCompStmt_mono hs) fun _ => Approx.refl _

end Mono

/-! ### The bounds do not matter

By induction on the bound, with the next smaller one for the parts.
-/

section Ends

variable (uninit : Int) {n' : Nat}

theorem parseExpression_mono (hn : n ≤ n') :
    PApprox (parseExpression uninit n) (parseExpression uninit n') :=
  (parseExpression_isLoop uninit).approx (fun _ _ h _ => expressionBody_mono (h ())) hn ()

theorem parseStatement_mono (hn : n ≤ n') : PApprox (parseStatement uninit n)
    (parseStatement uninit n') := by
  induction n generalizing n' with
  | zero => exact Approx.throw_bot
  | succ n ih =>
      obtain ⟨m, rfl⟩ : ∃ m, n' = m + 1 := ⟨n' - 1, by omega⟩
      exact statementBody_mono (parseExpression_mono uninit hn) (ih (Nat.le_of_succ_le_succ hn))

theorem parseProg_mono {s s' : Parser AstNode} (hs : PApprox s s') {k k' : Nat} (hk : k ≤ k')
    (prog : List AstNode) : PApprox (parseProg s k prog) (parseProg s' k' prog) := by
  have hloop : ∀ k prog, PApprox (parseProg s k prog) (parseProg s' k prog) := by
    intro k
    induction k with
    | zero => exact fun _ => Approx.refl _
    | succ k ih => exact progTurn_mono hs ih
  exact (hloop k prog).trans
    ((parseProg_isLoop s').approx (fun _ _ => progTurn_mono (Approx.refl _)) hk prog)

/-- A program is parsed the same way with all sufficient bounds. -/
theorem parseProg_bound {tokens : List Token} (hn : tokens.length < n) (hk : tokens.length < k) :
    parseProg (parseStatement uninit n) k [] tokens = parse uninit tokens := by
  have hreads : PReads (parseProg (parseStatement uninit (tokens.length + 1)) (tokens.length + 1)
    [])
      [.prog] [.prog] tokens 0 :=
    parseProg_reads (parseStatement_reads uninit _) [] (Nat.lt_succ_self _) (Nat.lt_succ_self _)
  exact ((parseProg_mono (parseStatement_mono uninit hn) hk []).eq_of_ne hreads.ne_outOfFuel).symm

/-! ### Progress

Each loop and each recursion by itself.
-/

theorem reads_onShorter {p : Parser α} {s s' : List Sym} {ts' : TokenStream}
    (h : ts'.length < ts.length) : PReads (onShorter ts p) s s' ts' n ↔ PReads p s s' ts' n := by
  have heq : onShorter ts p ts' = p ts' := if_pos h
  unfold PReads Reads
  rw [heq]

/-- **Every turn of a loop and every call of a function in itself has taken a token.** -/
theorem parseProgress (hn : ts.length < n) : ParseProgress uninit n ts where
  expression := by
    refine (parseExpression_isLoop uninit).cut_eq (fun _ _ h _ => expressionBody_mono (h ()))
      (i := ()) ?_ (parseExpression_reads uninit n hn).ne_outOfFuel
    refine (expressionBody_reads (fun ts' h => ?_) (Nat.le_refl _)).ne_outOfFuel
    exact (reads_onShorter h).mpr (parseExpression_reads uninit n (Nat.lt_trans h hn))
  statement := by
    have hbody : statementBody (parseExpression uninit n)
      (onShorter ts (parseStatement uninit n)) ts
        = statementBody (parseExpression uninit n) (parseStatement uninit n) ts := by
      refine (statementBody_mono (Approx.refl _) cut_approx).eq_of_ne
        (statementBody_reads (fun ts' h => ?_) (fun ts' h => ?_) (Nat.le_refl _)).ne_outOfFuel
      · exact parseExpression_reads uninit n (by omega)
      · exact (reads_onShorter h).mpr (parseStatement_reads uninit n (Nat.lt_trans h hn))
    obtain ⟨m, rfl⟩ : ∃ m, n = m + 1 := ⟨n - 1, by omega⟩
    rw [hbody]
    exact ((statementBody_mono (Approx.refl _)
      (parseStatement_mono uninit (Nat.le_succ m))).eq_of_ne
      (parseStatement_reads uninit (m + 1) hn).ne_outOfFuel).symm
  args k args hk := by
    have hE := parseExpression_reads uninit n
    refine (parseArgs_isLoop _).cut_eq (fun _ _ => argsTurn_mono (Approx.refl _)) ?_
      (parseArgs_reads hE args hk hn).ne_outOfFuel
    refine (argsTurn_reads hE (fun args ts' h => ?_) args hn).ne_outOfFuel
    exact (reads_onShorter h).mpr (parseArgs_reads hE args (Nat.lt_trans h hk) (Nat.lt_trans h hn))
  operators level hlevel k left hk := by
    obtain ⟨⟨isOp, hl⟩, hop⟩ := (binaryLevels_read (parseExpression_reads uninit n)).2 level hlevel
    refine (binaryLoop_isLoop _ _).cut_eq (fun _ _ => binaryTurn_mono (Approx.refl _)) ?_
      (binaryLoop_reads hl hop left hk (Nat.le_of_lt hn)).ne_outOfFuel
    refine (binaryTurn_reads hl hop (fun left ts' h => ?_) left (Nat.le_of_lt hn)).ne_outOfFuel
    exact (reads_onShorter h).mpr (binaryLoop_reads hl hop left (Nat.lt_trans h hk)
      (Nat.le_of_lt (Nat.lt_trans h hn)))
  enumerators k enums hk := by
    refine parseEnumerators_isLoop.cut_eq (fun _ _ => enumeratorsTurn_mono) ?_
      (parseEnumerators_reads enums hk).ne_outOfFuel
    refine (enumeratorsTurn_reads (fun enums ts' h => ?_) enums).ne_outOfFuel
    exact (reads_onShorter h).mpr (parseEnumerators_reads enums (Nat.lt_trans h hk))
  statements k body hk := by
    have hS := parseStatement_reads uninit n
    refine (parseStatements_isLoop _).cut_eq (fun _ _ => statementsTurn_mono (Approx.refl _)) ?_
      (parseStatements_reads hS body hk hn).ne_outOfFuel
    refine (statementsTurn_reads hS (fun body ts' h => ?_) body hn).ne_outOfFuel
    exact (reads_onShorter h).mpr (parseStatements_reads hS body (Nat.lt_trans h hk)
      (Nat.lt_trans h hn))
  params k params hk := by
    refine parseFuncParams_isLoop.cut_eq (fun _ _ => funcParamsTurn_mono) ?_
      (parseFuncParams_reads params hk).ne_outOfFuel
    refine (funcParamsTurn_reads (fun params ts' h => ?_) params).ne_outOfFuel
    exact (reads_onShorter h).mpr (parseFuncParams_reads params (Nat.lt_trans h hk))
  funcs k prog hk := by
    have hS := parseStatement_reads uninit n
    refine (parseProg_isLoop _).cut_eq (fun _ _ => progTurn_mono (Approx.refl _)) ?_
      (parseProg_reads hS prog hk hn).ne_outOfFuel
    refine (progTurn_reads hS (fun prog ts' h => ?_) prog hn).ne_outOfFuel
    exact (reads_onShorter h).mpr (parseProg_reads hS prog (Nat.lt_trans h hk) (Nat.lt_trans h hn))

end Ends

/--
**Parsing ends on every list of tokens.**  It returns, stops with an error or looks into a missing
token, and no larger bound changes anything: wherever a loop turns or a function calls itself,
the stream has become shorter.
-/
theorem parse_terminates (uninit : Int) (tokens : List Token) :
    parse uninit tokens ≠ .error .outOfFuel ∧
      (∀ n k, tokens.length < n → tokens.length < k →
        parseProg (parseStatement uninit n) k [] tokens = parse uninit tokens) ∧
      ∀ n ts, ts.length < n → ParseProgress uninit n ts := by
  refine ⟨?_, fun n k hn hk => parseProg_bound uninit hn hk, fun n ts hn => parseProgress uninit hn⟩
  rw [← parseProg_bound uninit (Nat.lt_succ_self _) (Nat.lt_succ_self _)]
  exact (parseProg_reads (parseStatement_reads uninit _) [] (Nat.lt_succ_self _)
    (Nat.lt_succ_self _)).ne_outOfFuel

end MyLang
