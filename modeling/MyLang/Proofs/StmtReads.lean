/-
The parser follows the automaton of the grammar, from declarations to programs.

With that the ways the parser ends are the verdicts of the automaton, and the inputs on
which it looks into a missing token are those that end where a symbol of the stack needs
one.

`grammar` is a table (`Grammar.lean`): a symbol of the stack and the next token give the
symbols that come in its place, or say that the parser stops.  A function of the parser
`reads` a symbol if it ends as the automaton does that starts with the symbol, and leaves
what the automaton leaves; `Proofs/ParseReads.lean` has this for expressions.  It composes
along the stack, so each lemma here goes through one function of the parser and reads one
symbol after the other.  A loop is its turn, which reads the symbol of the loop again.

Where the automaton is at the end of the tokens and its symbol needs one, the parser has
looked into a token that is not there: `expect` returns `NULL` and the next function uses
it.
-/
import MyLang.Proofs.ParseReads

namespace MyLang

open StateExcept PushDown PushDown.Automaton

variable {α : Type} {ts : TokenStream} {t u : Token} {n N : Nat} {stack : List Sym}

/-! ### Reactions

What the table says at a few places, where it is not read off at once.
-/

theorem react_elsePart (h : t.type = .else_) : grammar.react .elsePart t = .take [.stmt] :=
  if_pos h

theorem react_enumTail (h : t.type = .comma) : grammar.react .enumTail t = .take [.enumItems] :=
  if_pos h

theorem react_params (h : t.type = .type) :
    grammar.react .params t = .take [.name, .paramTail] := if_pos h

theorem react_stmt_ne_leave : grammar.react .stmt t ≠ .leave := by
  intro h
  unfold grammar Sym.react at h
  dsimp only at h
  generalize t.type = ty at h
  cases ty <;> nomatch h

theorem verdict_declTail (h1 : t.type ≠ .semicolon) (h2 : t.type ≠ .assign) :
    grammar.verdict (.declTail :: stack) (t :: ts) = .refused := by
  refine verdict_refuse ?_
  unfold grammar Sym.react Sym.reactDeclTail
  dsimp only
  split
  · contradiction
  · contradiction
  · rfl

/-- A type starts no expression. -/
theorem verdict_expr_type {ty : TokenType} (ht : t.type = .type) (hty : ty ≠ .type) :
    grammar.verdict (.expr :: .tok ty :: stack) (t :: ts) = .refused := by
  have hexpr : grammar.react .expr t = .leave := by
    simp [grammar, Sym.react, Sym.reactExpr, Sym.reactUnary, Sym.reactPrimary, Sym.reactOps,
      Reaction.over, ht, isBinaryOp, isMultiplicativeOp, isAdditiveOp, isShiftOp, isRelationalOp,
      isEqualityOp]
  rw [verdict_leave hexpr]
  exact verdict_refuse (if_neg (ht.trans_ne hty.symm))

/-! ### Declarations

Up to three tokens decide whether there is one.  The table reads them one after the other,
the parser looks at all three and then reads them again.
-/

section Statements

variable {parseExpression parseStatement : Parser AstNode}

theorem isDeclartion_bind {f : Bool → Parser α} {b c : Bool}
    (hdec : isVarDec ts = .ok (b, ts)) (hdef : isVarDefStart ts = .ok (c, ts)) :
    (isDeclartion >>= f) ts = f (b || c) ts := by
  have hrun : isDeclartion ts = .ok (b || c, ts) := by
    unfold isDeclartion
    refine bind_eq_ok.mpr ⟨b, ts, hdec, ?_⟩
    cases b
    · exact hdef
    · rfl
  change (isDeclartion ts >>= fun q => f q.1 q.2) = _
  rw [hrun]
  rfl

theorem isDeclartion_missing (h : isVarDec ts = .error .nullToken) :
    isDeclartion ts = .error .nullToken := bind_eq_error.mpr (Or.inl h)

/-- A token that is no type starts no declaration. -/
theorem isDeclartion_other {f : Bool → Parser α} (ht : t.type ≠ .type) :
    (isDeclartion >>= f) (t :: ts) = f false (t :: ts) := by
  have h : ∀ third, isDeclStart third (t :: ts) = .ok (false, t :: ts) := fun third =>
    isDeclStart_eq_ok.mpr ⟨rfl, t, ts, rfl, Or.inl ⟨ht, rfl⟩⟩
  exact isDeclartion_bind (h _) (h _)

/-- A type starts no declaration if another token than a name follows. -/
theorem isDeclartion_no_name {f : Bool → Parser α} (ht : t.type = .type) (hu : u.type ≠ .ident) :
    (isDeclartion >>= f) (t :: u :: ts) = f false (t :: u :: ts) := by
  have h : ∀ third, isDeclStart third (t :: u :: ts) = .ok (false, t :: u :: ts) := fun third =>
    isDeclStart_eq_ok.mpr ⟨rfl, t, _, rfl, Or.inr ⟨ht, u, ts, rfl, Or.inl ⟨hu, rfl⟩⟩⟩
  exact isDeclartion_bind (h _) (h _)

section Declaration

variable {v : Token}

theorem isDeclStart_three {third : TokenType} (ht : t.type = .type) (hu : u.type = .ident) :
    isDeclStart third (t :: u :: v :: ts)
      = .ok (decide (v.type = third), t :: u :: v :: ts) :=
  isDeclStart_eq_ok.mpr ⟨rfl, t, _, rfl, Or.inr ⟨ht, u, _, rfl, Or.inr ⟨hu, v, ts, rfl, rfl⟩⟩⟩

theorem isDeclStart_missing {third : TokenType} (ht : t.type = .type)
    (hts : ts = [] ∨ ∃ u : Token, u.type = .ident ∧ ts = [u]) :
    isDeclStart third (t :: ts) = .error .nullToken := by
  simp only [isDeclStart, currentToken_bind, peek_bind, List.head?_cons, deref_some_bind]
  rw [if_pos ht]
  rcases hts with rfl | ⟨u, hu, rfl⟩
  · rfl
  · simp only [List.getElem?_cons_succ, List.getElem?_cons_zero, deref_some_bind]
    rw [if_pos hu]
    rfl

/-- A declaration, from a type with a name and `;` or `=` behind it on. -/
theorem parseDeclartion_reads {x : Sym} (hE : ReadsExpr N parseExpression)
    (hx : grammar.react x t = .take [.name, .declTail]) (ht : t.type = .type)
    (hu : u.type = .ident) (hv : v.type = .semicolon ∨ v.type = .assign) (hN : ts.length < N) :
    PReads (parseDeclartion parseExpression) [x] [] (t :: u :: v :: ts) ts.length := by
  unfold parseDeclartion
  refine reads_look (isDeclStart_three ht hu) ?_
  by_cases hv2 : v.type = .assign
  · rw [if_pos (decide_eq_true hv2)]
    refine reads_expect_here ht hx ?_
    refine reads_expect_here hu (react_name hu) ?_
    rw [reads_deref_some, reads_deref_some, reads_currentToken, List.head?_cons, reads_deref_some,
      if_pos hv2]
    have hreact : grammar.react .declTail v = .take [.expr, .tok .semicolon] := by
      simp [grammar, Sym.react, Sym.reactDeclTail, hv2]
    refine reads_nextToken hreact ?_
    refine reads_seq (hE hN) fun init ts' _ hk => ?_
    exact reads_expect_seq fun _ ts'' hk' => Reads.pure (by omega)
  · have hv1 : v.type = .semicolon := hv.resolve_right hv2
    rw [if_neg (by simpa using hv2)]
    refine reads_expect_here ht hx ?_
    refine reads_expect_here hu (react_name hu) ?_
    rw [reads_deref_some, reads_deref_some]
    have hreact : grammar.react .declTail v = .take [] := by
      simp [grammar, Sym.react, Sym.reactDeclTail, hv1]
    exact reads_expect_here hv1 hreact (Reads.pure (Nat.le_refl _))

end Declaration

/--
A declaration where the stack has one, and what is tried if the tokens after the type are
others.
-/
theorem reads_declaration {q : Parser AstNode} {x : Sym} (hE : ReadsExpr N parseExpression)
    (hq : PReads q [.expr, .tok .semicolon] [] (t :: ts) ts.length)
    (hx : grammar.react x t = .take [.name, .declTail]) (ht : t.type = .type)
    (hN : ts.length < N) :
    PReads (isDeclartion >>= fun b => if b then parseDeclartion parseExpression else q) [x] []
      (t :: ts) ts.length := by
  have hrefused : ∀ {us : TokenStream}, (∀ stack,
      grammar.verdict (.name :: .declTail :: stack) us = .refused) → ts = us →
      PReads q [x] [] (t :: ts) ts.length := by
    rintro us hv rfl
    refine reads_as [.expr, .tok .semicolon] (fun stack => ?_) hq
    rw [List.cons_append, verdict_take hx]
    exact (hv stack).trans (verdict_expr_type ht (by decide)).symm
  cases ts with
  | nil =>
      refine reads_look_missing (isDeclartion_missing (isDeclStart_missing ht (Or.inl rfl)))
        fun stack => ?_
      rw [List.cons_append, verdict_take hx]
      exact verdict_needs rfl
  | cons u us =>
      by_cases hu : u.type = .ident
      · cases us with
        | nil =>
            refine reads_look_missing (isDeclartion_missing
              (isDeclStart_missing ht (Or.inr ⟨u, hu, rfl⟩))) fun stack => ?_
            rw [List.cons_append, verdict_take hx, List.cons_append, verdict_take (react_name hu)]
            exact verdict_needs rfl
        | cons v vs =>
            let f : Bool → Parser AstNode := fun b =>
              if b then parseDeclartion parseExpression else q
            have hrun : (isDeclartion >>= f) (t :: u :: v :: vs) = _ :=
              isDeclartion_bind (isDeclStart_three ht hu) (isDeclStart_three ht hu)
            simp only [List.length_cons] at hN hrefused ⊢
            by_cases hv : v.type = .semicolon ∨ v.type = .assign
            · refine Reads.of_run ((parseDeclartion_reads hE hx ht hu hv (by omega)).mono ?_)
                (hrun.trans (congrFun (if_pos (by simpa using hv)) _)) fun _ => rfl
              omega
            · refine Reads.of_run (hrefused (fun stack => ?_) rfl)
                (hrun.trans (congrFun (if_neg (by simpa using hv)) _)) fun _ => rfl
              rw [not_or] at hv
              rw [verdict_take (react_name hu)]
              exact verdict_declTail hv.1 hv.2
      · refine Reads.of_run (hrefused (fun stack => ?_) rfl)
          (isDeclartion_no_name ht hu) fun _ => rfl
        exact verdict_refuse (if_neg hu)

/-- An expression and a semicolon. -/
theorem reads_exprSemi {f : AstNode → AstNode} (hE : ReadsExpr N parseExpression)
    (hN : ts.length < N) :
    PReads (do
      let expr ← parseExpression
      let _ ← expect .semicolon
      return f expr) [.expr, .tok .semicolon] [] ts (ts.length - 1) := by
  refine reads_seq (hE hN) fun expr ts' _ hk => ?_
  exact reads_expect_seq fun _ ts'' hk' => Reads.pure (by omega)

/-! ### Statements

The first token of a statement says which of the functions reads it.
-/

/-- A statement is read from every stream of fewer than `N` tokens, and takes one. -/
abbrev ReadsStmt (N : Nat) (p : Parser AstNode) : Prop :=
  ∀ ⦃ts : TokenStream⦄, ts.length < N → PReads p [.stmt] [] ts (ts.length - 1)

theorem parseWhile_reads (hE : ReadsExpr N parseExpression) (hS : ReadsStmt N parseStatement)
    (ht : t.type = .while_) (hN : ts.length < N) :
    PReads (parseWhile parseExpression parseStatement) [.stmt] [] (t :: ts) ts.length := by
  have hreact : grammar.react .stmt t = .take [.tok .lparen, .expr, .tok .rparen, .stmt] := by
    simp [grammar, Sym.react, Sym.reactStmt, ht]
  unfold parseWhile
  refine reads_expect_here ht hreact ?_
  refine reads_expect_seq fun _ ts1 h1 => ?_
  refine reads_seq (hE (by omega)) fun expr ts2 _ h2 => ?_
  refine reads_expect_seq fun _ ts3 h3 => ?_
  refine reads_seq (hS (by omega)) fun body ts4 _ h4 => ?_
  exact Reads.pure (by omega)

/-- The first part of a `for` header is a declaration, or an expression and a semicolon. -/
theorem parseForInit_reads (hE : ReadsExpr N parseExpression) (hN : ts.length < N) :
    PReads (parseForInit parseExpression) [.forInit] [] ts (ts.length - 1) := by
  unfold parseForInit
  cases ts with
  | nil => exact reads_look_missing rfl fun _ => verdict_needs rfl
  | cons t ts =>
      by_cases ht : t.type = .type
      · exact reads_declaration hE (reads_exprSemi (f := fun e => e) hE hN) (if_pos ht) ht
          (Nat.lt_of_succ_lt hN)
      · refine Reads.of_run (reads_exprSemi (f := fun e => e) hE hN) (isDeclartion_other ht)
          fun stack => ?_
        exact verdict_over (x := Sym.forInit) (y := Sym.expr) (z := Sym.tok .semicolon)
          (if_neg ht) fun _ => rfl

/-- The header of a `for`, and its body. -/
theorem parseFor_reads (hE : ReadsExpr N parseExpression) (hS : ReadsStmt N parseStatement)
    (ht : t.type = .for_) (hN : ts.length < N) :
    PReads (parseFor parseExpression parseStatement) [.stmt] [] (t :: ts) ts.length := by
  have hreact : grammar.react .stmt t = .take [.tok .lparen, .forInit, .expr, .tok .semicolon,
      .expr, .tok .rparen, .stmt] := by
    simp [grammar, Sym.react, Sym.reactStmt, ht]
  unfold parseFor
  refine reads_expect_here ht hreact ?_
  refine reads_expect_seq fun _ ts1 h1 => ?_
  refine reads_seq (parseForInit_reads hE (by omega)) fun init ts2 _ h2 => ?_
  refine reads_seq (hE (by omega)) fun cond ts3 _ h3 => ?_
  refine reads_expect_seq fun _ ts4 h4 => ?_
  refine reads_seq (hE (by omega)) fun step ts5 _ h5 => ?_
  refine reads_expect_seq fun _ ts6 h6 => ?_
  refine reads_seq (hS (by omega)) fun body ts7 _ h7 => ?_
  exact Reads.pure (by omega)

/-- The condition, the first branch, and an `else` if it comes next. -/
theorem parseIfElseStatement_reads (hE : ReadsExpr N parseExpression)
    (hS : ReadsStmt N parseStatement) (ht : t.type = .if_) (hN : ts.length < N) :
    PReads (parseIfElseStatement parseExpression parseStatement) [.stmt] []
      (t :: ts) ts.length := by
  have hreact : grammar.react .stmt t
      = .take [.tok .lparen, .expr, .tok .rparen, .stmt, .elsePart] := by
    simp [grammar, Sym.react, Sym.reactStmt, ht]
  unfold parseIfElseStatement
  refine reads_expect_here ht hreact ?_
  refine reads_expect_seq fun _ ts1 h1 => ?_
  refine reads_seq (hE (by omega)) fun expr ts2 _ h2 => ?_
  refine reads_expect_seq fun _ ts3 h3 => ?_
  refine reads_seq (hS (by omega)) fun ifBody ts4 _ h4 => ?_
  rw [reads_currentToken]
  cases ts4 with
  | nil => exact Reads.of_ok rfl (Nat.zero_le _) fun _ => verdict_nil rfl
  | cons u us =>
      rw [List.head?_cons]
      dsimp only
      rw [List.length_cons] at h4
      by_cases hu : u.type = .else_
      · rw [if_pos hu]
        refine reads_expect_here hu (react_elsePart hu) ?_
        refine reads_seq (hS (by omega)) fun elseBody ts5 _ h5 => ?_
        exact Reads.pure (by omega)
      · rw [if_neg hu]
        refine Reads.of_ok rfl ?_ fun _ => verdict_leave (if_neg hu)
        rw [List.length_cons]
        omega

/-- A name, and the comma or the brace behind it. -/
theorem enumeratorsTurn_reads {next : List String → Parser (List String)}
    (hnext : ∀ enums ts', ts'.length < ts.length → PReads (next enums) [.enumItems]
      [] ts' ts'.length)
    (enums : List String) : PReads (enumeratorsTurn next enums) [.enumItems] [] ts ts.length := by
  rw [enumeratorsTurn, reads_currentToken]
  cases ts with
  | nil => exact Reads.of_ok rfl (Nat.le_refl _) fun _ => verdict_nil rfl
  | cons t ts =>
      rw [List.head?_cons]
      dsimp only
      rw [List.length_cons] at hnext ⊢
      by_cases hr : t.type = .rbrace
      · rw [if_pos hr]
        refine Reads.of_ok rfl (Nat.le_refl _) fun _ => verdict_leave ?_
        simp [grammar, Sym.react, Sym.reactEnumItems, hr]
      rw [if_neg hr]
      by_cases hi : t.type = .ident
      · have hreact : grammar.react .enumItems t = .take [.enumTail] := by
          simp [grammar, Sym.react, Sym.reactEnumItems, hi]
        refine reads_expect_here hi hreact ?_
        rw [reads_deref_some, reads_currentToken]
        cases ts with
        | nil =>
            -- `expect` takes the missing comma for one
            refine reads_as [.tok .comma, .enumItems] (fun _ => ?_) ?_
            · exact (verdict_nil rfl).trans ((verdict_nil rfl).trans (verdict_nil rfl)).symm
            · refine reads_expect_seq fun _ ts' hk => ?_
              have hk : ts'.length ≤ 0 := hk
              rw [List.length_nil] at hnext ⊢
              exact (hnext _ _ (by omega)).mono (by omega)
        | cons u us =>
            rw [List.head?_cons]
            dsimp only
            simp only [List.length_cons] at hnext ⊢
            by_cases hu : u.type = .comma
            · rw [if_neg (not_not.mpr hu)]
              refine reads_expect_here hu (react_enumTail hu) ?_
              exact (hnext _ _ (by omega)).mono (by omega)
            · rw [if_pos hu]
              refine Reads.of_ok rfl (Nat.le_succ _) fun _ => verdict_leave (if_neg hu)
      · refine reads_expect_other hi ?_
        unfold Sym.react Sym.reactEnumItems
        dsimp only
        split
        · contradiction
        · contradiction
        · rfl

theorem parseEnumerators_reads (enums : List String) (hn : ts.length < n) :
    PReads (parseEnumerators n enums) [.enumItems] [] ts ts.length :=
  parseEnumerators_isLoop.induct (R := fun p ts => PReads p [.enumItems]
    [] ts ts.length) List.length (fun _ enums _ _ hnext => enumeratorsTurn_reads hnext enums) hn hn

/-- An enum is its name and the list of its constants. -/
theorem parseEnum_reads (ht : t.type = .enum) :
    PReads parseEnum [.stmt] [] (t :: ts) ts.length := by
  have hreact : grammar.react .stmt t
      = .take [.name, .tok .lbrace, .enumItems, .tok .rbrace, .tok .semicolon] := by
    simp [grammar, Sym.react, Sym.reactStmt, ht]
  unfold parseEnum
  refine reads_expect_here ht hreact ?_
  cases ts with
  | nil => exact Reads.of_error rfl fun _ => congrArg some (verdict_needs rfl).symm
  | cons u us =>
      by_cases hu : u.type = .ident
      · refine reads_expect_here hu (react_name hu) ?_
        refine reads_expect_seq fun _ ts1 h1 => ?_
        rw [reads_get]
        refine reads_seq (parseEnumerators_reads [] (Nat.lt_succ_self _)) fun enums ts2 _ h2 => ?_
        refine reads_expect_seq fun _ ts3 h3 => ?_
        refine reads_expect_seq fun _ ts4 h4 => ?_
        rw [reads_deref_some, List.length_cons]
        exact Reads.pure (by omega)
      · exact reads_expect_other hu (if_neg hu)

/-- A statement of a block, or the end of the block. -/
theorem statementsTurn_reads (hS : ReadsStmt N parseStatement)
    {next : List AstNode → Parser (List AstNode)}
    (hnext : ∀ body ts', ts'.length < ts.length → PReads (next body) [.stmts] [] ts' ts'.length)
    (body : List AstNode) (hN : ts.length < N) :
    PReads (statementsTurn parseStatement next body) [.stmts] [] ts ts.length := by
  rw [statementsTurn, reads_currentToken]
  cases ts with
  | nil => exact Reads.of_ok rfl (Nat.le_refl _) fun _ => verdict_nil rfl
  | cons t ts =>
      rw [List.head?_cons]
      dsimp only
      by_cases hr : t.type = .rbrace
      · rw [if_pos hr]
        exact Reads.of_ok rfl (Nat.le_refl _) fun _ => verdict_leave (if_pos hr)
      · rw [if_neg hr]
        refine reads_as [.stmt, .stmts] (fun _ => verdict_over (if_neg hr) fun h =>
          absurd h react_stmt_ne_leave) ?_
        refine reads_seq (hS hN) fun stmt ts' _ hk => ?_
        rw [List.length_cons] at *
        exact (hnext _ _ (by omega)).mono (by omega)

theorem parseStatements_reads (hS : ReadsStmt N parseStatement) (body : List AstNode)
    (hn : ts.length < n) (hN : ts.length < N) :
    PReads (parseStatements parseStatement n body) [.stmts] [] ts ts.length :=
  (parseStatements_isLoop parseStatement).induct (R := fun p ts => PReads p [.stmts]
    [] ts ts.length)
    List.length (fun _ body _ hN hnext => statementsTurn_reads hS hnext body hN) hn hN

theorem parseCompStmt_reads (hS : ReadsStmt N parseStatement) (hN : ts.length - 1 < N) :
    PReads (parseCompStmt parseStatement) [.tok .lbrace, .stmts, .tok .rbrace] [] ts
      (ts.length - 1) := by
  unfold parseCompStmt
  refine reads_expect_seq fun _ ts1 h1 => ?_
  rw [reads_get]
  refine reads_seq (parseStatements_reads hS [] (Nat.lt_succ_self _) (by omega))
    fun body ts2 _ h2 => ?_
  exact reads_expect_seq fun _ ts3 h3 => Reads.pure (by omega)

/-- A statement is read if the statements in it are. -/
theorem statementBody_reads (hE : ReadsExpr (N + 1) parseExpression)
    (hS : ReadsStmt N parseStatement) (hN : ts.length ≤ N) :
    PReads (statementBody parseExpression parseStatement) [.stmt] [] ts (ts.length - 1) := by
  rw [statementBody, reads_currentToken]
  -- one case for each kind of first token
  cases ts with
  | nil => exact reads_deref_none rfl
  | cons t ts =>
      have hE' : ReadsExpr N parseExpression := fun _ h => hE (Nat.lt_succ_of_lt h)
      have hlen : ts.length < N := hN
      rw [List.head?_cons, reads_deref_some]
      by_cases hiter : t.type = .while_ ∨ t.type = .for_
      · rw [if_pos hiter]
        unfold parseIterStatement
        rw [reads_currentToken, List.head?_cons, reads_deref_some]
        by_cases hfor : t.type = .for_
        · rw [if_pos hfor]
          exact parseFor_reads hE' hS hfor hlen
        · rw [if_neg hfor]
          exact parseWhile_reads hE' hS (hiter.resolve_right hfor) hlen
      rw [if_neg hiter]
      by_cases htype : t.type = .type
      · have hq : PReads (parseExpressionStatement parseExpression)
            [.expr, .tok .semicolon] [] (t :: ts) ts.length :=
              reads_exprSemi hE (Nat.lt_succ_of_le hN)
        have hx : grammar.react .stmt t = .take [.name, .declTail] := by
          simp [grammar, Sym.react, Sym.reactStmt, htype]
        have := reads_declaration hE hq hx htype (by omega)
        simpa [htype] using this
      refine Reads.of_run ?_ (isDeclartion_other htype) fun _ => rfl
      rw [if_neg (by simp)]
      by_cases hret : t.type = .return_
      · rw [if_pos hret]
        have hreact : grammar.react .stmt t = .take [.expr, .tok .semicolon] := by
          simp [grammar, Sym.react, Sym.reactStmt, hret]
        refine reads_expect_here hret hreact ?_
        exact (reads_exprSemi (f := fun e => .ret e none) hE' hlen).mono (by simp)
      rw [if_neg hret]
      by_cases hif : t.type = .if_
      · rw [if_pos hif]
        exact parseIfElseStatement_reads hE' hS hif hlen
      rw [if_neg hif]
      by_cases henum : t.type = .enum
      · rw [if_pos henum]
        exact parseEnum_reads henum
      rw [if_neg henum]
      by_cases hbrace : t.type = .lbrace
      · rw [if_pos hbrace]
        have hreact : grammar.react .stmt t = .take [.stmts, .tok .rbrace] := by
          simp [grammar, Sym.react, Sym.reactStmt, hbrace]
        refine reads_as [.tok .lbrace, .stmts, .tok .rbrace] (fun stack => ?_)
          (parseCompStmt_reads hS hlen)
        rw [List.cons_append, verdict_take hreact]
        exact (verdict_take (react_tok hbrace)).symm
      rw [if_neg hbrace]
      refine reads_as [.expr, .tok .semicolon] (fun stack => verdict_over ?_ fun _ => rfl)
        (reads_exprSemi (f := AstNode.exprStmt) hE (Nat.lt_succ_of_le hN))
      obtain ⟨hwhile, hfor⟩ := not_or.mp hiter
      unfold grammar Sym.react Sym.reactStmt
      dsimp only
      split <;> first | contradiction | rfl

end Statements

/-- **A statement is read by its symbol, and takes a token.** -/
theorem parseStatement_reads (uninit : Int) (n : Nat) :
    ReadsStmt n (parseStatement uninit n) := by
  induction n with
  | zero => intro ts hN; omega
  | succ n ih =>
      exact fun ts hN => statementBody_reads (parseExpression_reads uninit _) ih
        (Nat.le_of_lt_succ hN)

/-! ### Functions and programs

The definitions of a program are read in a loop up to the end of the tokens.
-/

/-- A type and a name, and the comma or the parenthesis behind them. -/
theorem funcParamsTurn_reads {next : List Param → Parser (List Param)}
    (hnext : ∀ ps ts', ts'.length < ts.length → PReads (next ps) [.params] [] ts' ts'.length)
    (ps : List Param) : PReads (funcParamsTurn next ps) [.params] [] ts ts.length := by
  rw [funcParamsTurn, reads_currentToken]
  cases ts with
  | nil => exact Reads.of_ok rfl (Nat.le_refl _) fun _ => verdict_nil rfl
  | cons t ts =>
      rw [List.head?_cons]
      dsimp only
      by_cases ht : t.type = .type
      · rw [if_neg (not_not.mpr ht)]
        refine reads_expect_here ht (react_params ht) ?_
        cases ts with
        | nil => exact Reads.of_error rfl fun _ => congrArg some (verdict_needs rfl).symm
        | cons u us =>
            by_cases hu : u.type = .ident
            · refine reads_expect_here hu (react_name hu) ?_
              rw [reads_deref_some, reads_deref_some, reads_currentToken]
              cases us with
              | nil => exact reads_deref_none rfl
              | cons v vs =>
                  rw [List.head?_cons, reads_deref_some]
                  simp only [List.length_cons] at hnext ⊢
                  by_cases hv : v.type = .rparen
                  · rw [if_pos hv]
                    exact Reads.of_ok rfl (by simp) fun _ => paramTail_isTail.verdict_end hv
                  · rw [if_neg hv]
                    refine reads_as [.tok .comma, .params]
                      (fun _ => paramTail_isTail.verdict_more hv) ?_
                    refine reads_expect_seq fun _ ts' hk => ?_
                    have hk' : ts'.length ≤ vs.length := hk
                    exact (hnext _ _ (by omega)).mono (by omega)
            · exact reads_expect_other hu (if_neg hu)
      · rw [if_pos ht]
        exact Reads.of_ok rfl (Nat.le_refl _) fun _ => verdict_leave (if_neg ht)

theorem parseFuncParams_reads (ps : List Param) (hn : ts.length < n) :
    PReads (parseFuncParams n ps) [.params] [] ts ts.length :=
  parseFuncParams_isLoop.induct (R := fun p ts => PReads p [.params] [] ts ts.length) List.length
    (fun _ ps _ _ hnext => funcParamsTurn_reads hnext ps) hn hn

section Prog

variable {parseStatement : Parser AstNode}

/-- A function definition, at the beginning of a program. -/
theorem parseFuncDef_reads (hS : ReadsStmt N parseStatement) (hN : ts.length < N) :
    PReads (parseFuncDef parseStatement) [.prog] [.prog] (t :: ts) ts.length := by
  unfold parseFuncDef
  by_cases ht : t.type = .type
  · have hreact : grammar.react .prog t = .take [.name, .tok .lparen, .params, .tok .rparen,
        .tok .lbrace, .stmts, .tok .rbrace, .prog] := if_pos ht
    refine reads_expect_here ht hreact ?_
    refine reads_name fun name ts1 h1 => ?_
    refine reads_expect_seq fun _ ts2 h2 => ?_
    rw [reads_get]
    refine reads_seq (parseFuncParams_reads [] (Nat.lt_succ_self _)) fun ps ts3 _ h3 => ?_
    refine reads_expect_seq fun _ ts4 h4 => ?_
    rw [reads_deref_some]
    refine Reads.bind (Reads.frame [Sym.prog] (parseCompStmt_reads hS (by omega)))
      fun body ts5 _ h5 => ?_
    exact Reads.pure (by omega)
  · exact reads_expect_other ht (if_neg ht)

theorem progTurn_reads (hS : ReadsStmt N parseStatement)
    {next : List AstNode → Parser (List AstNode)} (hnext : ∀ prog ts', ts'.length < ts.length →
      PReads (next prog) [.prog] [.prog] ts' 0) (prog : List AstNode) (hN : ts.length < N) :
    PReads (progTurn parseStatement next prog) [.prog] [.prog] ts 0 := by
  rw [progTurn, reads_currentToken]
  cases ts with
  | nil => exact Reads.pure (Nat.le_refl _)
  | cons t ts =>
      rw [List.head?_cons]
      dsimp only
      rw [List.length_cons] at hnext hN
      refine Reads.bind (parseFuncDef_reads hS (by omega)) fun stmt ts' _ hk => ?_
      exact hnext _ _ (by omega)

theorem parseProg_reads (hS : ReadsStmt N parseStatement) (prog : List AstNode)
    (hn : ts.length < n) (hN : ts.length < N) :
    PReads (parseProg parseStatement n prog) [.prog] [.prog] ts 0 :=
  (parseProg_isLoop parseStatement).induct (R := fun p ts => PReads p [.prog]
    [.prog] ts 0) List.length (fun _ prog _ hN hnext => progTurn_reads hS hnext prog hN) hn hN

end Prog

/-- **The parser ends as the automaton says.** -/
theorem parse_verdict (uninit : Int) (tokens : List Token) :
    (∃ prog, parse uninit tokens = .ok (prog, []) ∧ grammar.verdict [.prog] tokens = .done) ∨
      ∃ e, parse uninit tokens = .error e ∧ e.verdict = some (grammar.verdict [.prog] tokens) := by
  have hreads : PReads (parseProg (parseStatement uninit (tokens.length + 1))
      (tokens.length + 1) []) [.prog] [.prog] tokens 0 :=
    parseProg_reads (parseStatement_reads uninit _) [] (Nat.lt_succ_self _) (Nat.lt_succ_self _)
  cases hrun : parse uninit tokens with
  | error e => exact Or.inr ⟨e, rfl, hreads.error hrun []⟩
  | ok p =>
      obtain ⟨prog, ts'⟩ := p
      obtain ⟨hk, hv⟩ := hreads.ok hrun
      obtain rfl : ts' = [] := List.length_eq_zero_iff.mp (Nat.le_zero.mp hk)
      exact Or.inl ⟨prog, rfl, (hv []).trans rfl⟩

/-! ### The parser and missing tokens

A run that does not return has stopped with an error, or it has looked into a missing
token.
-/

/--
**The parser looks into no missing token exactly if the tokens do not end where the grammar
needs one.**
-/
theorem parse_returns_or_expects_iff (uninit : Int) (tokens : List Token) :
    ((∃ prog rest, parse uninit tokens = .ok (prog, rest)) ∨
      (∃ expect line pos actual,
        parse uninit tokens = .error (.expectedToken expect line pos actual))) ↔
      grammar.verdict [.prog] tokens ≠ .cut := by
  rcases parse_verdict uninit tokens with ⟨prog, hok, hv⟩ | ⟨e, herr, hv⟩
  · rw [hok, hv]
    exact iff_of_true (Or.inl ⟨prog, [], rfl⟩) (by decide)
  · rw [herr]
    cases e with
    | expectedToken ty line pos actual =>
        refine iff_of_true (Or.inr ⟨ty, line, pos, actual, rfl⟩) ?_
        rw [← Option.some.inj hv]
        decide
    | nullToken =>
        refine iff_of_false ?_ (not_not.mpr (Option.some.inj hv).symm)
        rintro (⟨_, _, h⟩ | ⟨_, _, _, _, h⟩) <;> cases h
    | outOfFuel => simp [ParseError.verdict] at hv

/-- The tokens of `int main() { return`. -/
def unfinishedReturn : List Token :=
  [⟨.type, "int", 1, 1⟩, ⟨.ident, "main", 5, 1⟩, ⟨.lparen, "(", 9, 1⟩, ⟨.rparen, ")", 10, 1⟩,
    ⟨.lbrace, "\x7b", 12, 1⟩, ⟨.return_, "return", 14, 1⟩]

/-- The parser looks into a missing token on a beginning of a program it accepts. -/
theorem unfinishedReturn_missing :
    (∃ more prog, parse 0 (unfinishedReturn ++ more) = .ok (prog, [])) ∧
      ¬((∃ prog rest, parse 0 unfinishedReturn = .ok (prog, rest)) ∨
        ∃ expect line pos actual,
          parse 0 unfinishedReturn = .error (.expectedToken expect line pos actual)) := by
  refine ⟨⟨[⟨.num, "0", 21, 1⟩, ⟨.semicolon, ";", 22, 1⟩, ⟨.rbrace, "\x7d", 24, 1⟩], _, rfl⟩, ?_⟩
  have hrun : parse 0 unfinishedReturn = .error .nullToken := rfl
  rw [hrun]
  rintro (⟨_, _, h⟩ | ⟨_, _, _, _, h⟩) <;> cases h

end MyLang
