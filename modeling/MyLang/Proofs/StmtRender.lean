/-
The parser of statements and of programs reads back what was written.

A statement needs nothing behind it to be complete, with one exception: behind one that
ends with an `if` an `else` would be taken for its own.  In a block what follows is the
next statement or the closing brace, and no statement starts with `else`.

`ReadsBack` (`Lib/ReadBack.lean`) is about a parser, what was written and what may follow.
There is a lemma for each kind of statement, `stmtReadsBack_*`, which takes that its parts
are read back, and `stmtWF_readsBack` is the induction on the statement.  Which of these
parsers is called is decided by the first tokens: a declaration needs up to three of them,
everything else is told by one (`readsBack_statement`).

The well-formedness of a tree (`stmtWF`) asks for what cannot be written otherwise: an
`if` in front of an `else` has to have one itself or stand in a block.
-/
import MyLang.Compiler
import MyLang.Proofs.ExprRender

namespace MyLang

open StateExcept ReadBack

variable {uninit : Int} {M N m : Nat} {lex : List Piece} {p : Piece} {node : AstNode}
  {follow : TokenStream → Prop} {β : Type} {b : β} {self : Parser AstNode}

/-! ### Expressions that may be missing

`;` and `)` start no expression, so where one is missing every level of the expression
parser returns the empty expression without having read anything.
-/

/-- Where an expression is missing each level finds none. -/
theorem parserAt_missing {u : Token} {us : TokenStream}
    (hu : u.type = .rparen ∨ u.type = .comma ∨ u.type = .semicolon) {k : Nat} (hk : k ≤ 11) :
    parserAt uninit self k (u :: us) = .ok (.emptyExpr, u :: us) := by
  have hprimary : parsePostfixExpression uninit self (u :: us) = .ok (.emptyExpr, u :: us) := by
    rw [parsePostfixExpression, parsePrimaryExpression, currentToken_bind, List.head?_cons]
    dsimp only
    rcases hu with h | h | h <;> simp only [h, reduceCtorEq, if_false] <;> rfl
  have hlevel : opLevel u.type = 12 := by rcases hu with h | h | h <;> rw [h] <;> rfl
  induction k with
  | zero => exact hprimary
  | succ k ih =>
      cases k with
      | zero =>
          rw [parserAt, parseCastExpression, parseUnaryExpression, currentToken_bind,
            List.head?_cons, deref_some, pure_bind, if_neg]
          · exact hprimary
          · rcases hu with h | h | h <;> rw [h] <;> decide
      | succ k =>
          rw [parserAt, binaryLevel, StateExcept.bind_of_ok (ih (by omega)), get_bind_apply]
          refine binaryLoop_stop ?_ (Nat.zero_lt_succ _)
          rw [hlevel, decide_eq_false_iff_not]
          omega

theorem optWF_readsBack (h : node.optWF = true) :
    ReadsBack Token.piece N (parseExpression uninit (N + 1))
      (node.render 0) EndsExpr node.erase := by
  rw [AstNode.optWF, Bool.or_eq_true] at h
  rcases h with h | h
  · obtain rfl := AstNode.eq_emptyExpr h
    refine ReadsBack.stop fun us hus => ?_
    obtain ⟨u, us', rfl, hu⟩ := hus
    have hname : u.type ≠ .ident := by rcases hu with h | h | h <;> rw [h] <;> decide
    have hasgn : isVarAsgn (u :: us') = .ok (false, u :: us') :=
      isVarAsgn_eq_ok.mpr ⟨rfl, u, us', rfl, Or.inl ⟨hname, rfl⟩⟩
    rw [parseExpression, StateExcept.bind_of_ok hasgn, if_neg Bool.false_ne_true,
      ← parserAt_conditional]
    exact parserAt_missing hu (Nat.le_refl 11)
  · exact ((exprWF_restored h).whole uninit N).mono (Nat.le_refl N) fun us hus => hus.follows

theorem AstNode.optWF_of_exprWF (h : node.exprWF = true) : node.optWF = true := by
  rw [optWF, h, Bool.or_true]

/-- An expression with the token behind it. -/
theorem readsBack_exprThen {ty : TokenType} (hty : ty = .rparen ∨ ty = .semicolon)
    (h : node.optWF = true) {f : AstNode → Parser β} (hM : M ≤ N)
    (hf : ReadsBack Token.piece M (f node.erase) lex follow b) :
    ReadsBack Token.piece M (parseExpression uninit (N + 1) >>= fun e => expect ty >>= fun _ => f e)
      (node.render 0 ++ punct ty :: lex) follow b := by
  refine ReadsBack.bind ((optWF_readsBack h).mono hM fun _ hus => hus) ?_ fun ts us hts _ => ?_
  · exact readsBack_expect (punct_type _) (Nat.le_succ M) fun _ _ => hf
  · obtain ⟨u, us', rfl, hu, -⟩ := List.map_eq_cons_iff.mp hts
    refine ⟨u, _, rfl, ?_⟩
    rw [piece_type hu, punct_type]
    rcases hty with rfl | rfl
    · exact Or.inl rfl
    · exact Or.inr (Or.inr rfl)

/-! ### Declarations

A declaration starts with a type and a name, which may be a call as well until the third
token is seen.
-/

theorem isDeclStart_other {third : TokenType} {t : Token} {ts : TokenStream} (ht : t.type ≠ .type) :
    isDeclStart third (t :: ts) = .ok (false, t :: ts) :=
  isDeclStart_eq_ok.mpr ⟨rfl, t, ts, rfl, Or.inl ⟨ht, rfl⟩⟩

/-- A declaration is looked at up to its third token. -/
theorem isDeclStart_ahead {type value : String} {third ty : TokenType} {rest : List Piece}
    {ts us : TokenStream}
    (hts : ts.map Token.piece = (.type, type) :: (.ident, value) :: punct third :: rest) :
    isDeclStart ty (ts ++ us) = .ok (decide (third = ty), ts ++ us) := by
  obtain ⟨t, ts, rfl, ht, hts⟩ := List.map_eq_cons_iff.mp hts
  obtain ⟨u, ts, rfl, hu, hts⟩ := List.map_eq_cons_iff.mp hts
  obtain ⟨v, ts, rfl, hv, -⟩ := List.map_eq_cons_iff.mp hts
  have hthird : v.type = third := (piece_type hv).trans (punct_type _)
  refine isDeclStart_eq_ok.mpr ⟨rfl, t, _, rfl,
    Or.inr ⟨piece_type ht, u, _, rfl, Or.inr ⟨piece_type hu, v, _, rfl, ?_⟩⟩⟩
  rw [hthird]

theorem isDeclartion_no_type {t : Token} {ts : TokenStream} (ht : t.type ≠ .type) :
    isDeclartion (t :: ts) = .ok (false, t :: ts) := by
  have h : isVarDec (t :: ts) = .ok (false, t :: ts) := isDeclStart_other ht
  rw [isDeclartion, StateExcept.bind_of_ok h, if_neg Bool.false_ne_true]
  exact isDeclStart_other ht

theorem isDeclartion_ahead (h : node.isDeclaration = true) {ts us : TokenStream}
    (hts : ts.map Token.piece = node.render 0) :
    isDeclartion (ts ++ us) = .ok (true, ts ++ us) := by
  cases node with
  | varDec value type symbol =>
      have hdec : isVarDec (ts ++ us) = .ok (true, ts ++ us) := isDeclStart_ahead hts
      rw [isDeclartion, StateExcept.bind_of_ok hdec]
      rfl
  | varDef value type expr symbol =>
      have hdec : isVarDec (ts ++ us) = .ok (false, ts ++ us) := isDeclStart_ahead hts
      rw [isDeclartion, StateExcept.bind_of_ok hdec]
      exact isDeclStart_ahead hts
  | _ => simp [AstNode.isDeclaration] at h

/-- A declaration, with or without a value. -/
theorem parseDeclartion_readsBack (hdecl : node.isDeclaration = true) (h : node.stmtWF = true)
    (hM : M ≤ N) :
    ReadsBack Token.piece M (parseDeclartion (parseExpression uninit (N + 1))) (node.render 0)
      (fun _ => True) node.erase := by
  cases node with
  | varDec value type symbol =>
      refine ReadsBack.ahead (a := false) (fun ts us hts _ => isDeclStart_ahead hts) ?_
      refine readsBack_expect rfl (Nat.le_succ M) fun t ht => ?_
      refine readsBack_expect rfl (Nat.le_succ M) fun u hu => ?_
      rw [deref_some, pure_bind, deref_some, pure_bind, piece_value ht, piece_value hu]
      exact readsBack_expect (punct_type _) (Nat.le_succ M) fun _ _ => ReadsBack.pure
  | varDef value type expr symbol =>
      rw [AstNode.stmtWF] at h
      refine ReadsBack.ahead (a := true) (fun ts us hts _ => isDeclStart_ahead hts) ?_
      refine readsBack_expect rfl (Nat.le_succ M) fun t ht => ?_
      refine readsBack_expect rfl (Nat.le_succ M) fun u hu => ?_
      rw [deref_some, pure_bind, deref_some, pure_bind, piece_value ht, piece_value hu]
      refine readsBack_current fun v hv => ?_
      rw [deref_some, pure_bind, if_pos ((piece_type hv).trans (punct_type _))]
      refine readsBack_next (Nat.le_succ M) ?_
      exact readsBack_exprThen (Or.inr rfl) (AstNode.optWF_of_exprWF h) hM ReadsBack.pure
  | _ => simp [AstNode.isDeclaration] at hdecl

/-! ### Lists of names

Both lists are read in a loop that goes on behind a comma.
-/

/-- Behind an enumerator either the list is closed or a comma takes the loop on. -/
theorem parseEnumerators_readsBack {names acc : List String} (hm : M < m) :
    ReadsBack Token.piece M (parseEnumerators m acc)
      (commas (names.map fun name => [(.ident, name)]))
      (fun us => ∃ u us', us = u :: us' ∧ u.type = .rbrace) (acc ++ names) := by
  induction names generalizing acc M m with
  | nil =>
      refine ReadsBack.stop fun us hus => ?_
      obtain ⟨u, us', rfl, hu⟩ := hus
      obtain ⟨m, rfl⟩ := Nat.exists_eq_succ_of_ne_zero (Nat.ne_of_gt (Nat.zero_lt_of_lt hm))
      rw [parseEnumerators, currentToken_bind, List.head?_cons, List.append_nil]
      dsimp only
      rw [if_pos hu]
      rfl
  | cons name rest ih =>
      obtain ⟨m, rfl⟩ := Nat.exists_eq_succ_of_ne_zero (Nat.ne_of_gt (Nat.zero_lt_of_lt hm))
      rw [List.append_cons, List.map_cons, commas, List.singleton_append]
      refine readsBack_current fun t ht => ?_
      have htype : t.type = .ident := piece_type ht
      dsimp only
      rw [if_neg (by rw [htype]; decide)]
      refine readsBack_expect rfl (Nat.le_succ M) fun t ht => ?_
      rw [deref_some, pure_bind, piece_value ht]
      cases rest with
      | nil =>
          refine ReadsBack.stop fun us hus => ?_
          obtain ⟨u, us', rfl, hu⟩ := hus
          rw [currentToken_bind, List.head?_cons, List.append_nil]
          dsimp only
          rw [if_pos (by rw [hu]; decide)]
          rfl
      | cons name' rest =>
          rw [List.map_cons, commas_tail]
          refine readsBack_current fun u hu => ?_
          dsimp only
          rw [if_neg (by rw [piece_type hu, punct_type]; decide)]
          cases M with
          | zero => exact ReadsBack.short (by simp)
          | succ M => exact readsBack_expect (punct_type _) (Nat.le_refl _) fun _ _ => ih (by omega)

/-- The same for parameters, which the parenthesis closes. -/
theorem parseFuncParams_readsBack {params acc : List Param} (hm : M < m) :
    ReadsBack Token.piece M (parseFuncParams m acc)
      (commas (params.map fun p => [(.type, p.type), (.ident, p.value)])) Closes
      (acc ++ params.map Param.erase) := by
  induction params generalizing acc M m with
  | nil =>
      refine ReadsBack.stop fun us hus => ?_
      obtain ⟨u, us', rfl, hu⟩ := hus
      obtain ⟨m, rfl⟩ := Nat.exists_eq_succ_of_ne_zero (Nat.ne_of_gt (Nat.zero_lt_of_lt hm))
      rw [parseFuncParams, currentToken_bind, List.head?_cons, List.map_nil, List.append_nil]
      dsimp only
      rw [if_pos (by rw [hu]; decide)]
      rfl
  | cons param rest ih =>
      obtain ⟨m, rfl⟩ := Nat.exists_eq_succ_of_ne_zero (Nat.ne_of_gt (Nat.zero_lt_of_lt hm))
      rw [List.map_cons, List.map_cons, List.append_cons, commas, List.cons_append,
        List.singleton_append]
      refine readsBack_current fun t ht => ?_
      have htype : t.type = .type := piece_type ht
      dsimp only
      rw [if_neg (by rw [htype]; decide)]
      refine readsBack_expect rfl (Nat.le_succ M) fun t ht => ?_
      refine readsBack_expect rfl (Nat.le_succ M) fun u hu => ?_
      rw [deref_some, pure_bind, deref_some, pure_bind, piece_value ht, piece_value hu]
      cases rest with
      | nil =>
          refine ReadsBack.stop fun us hus => ?_
          obtain ⟨u, us', rfl, hu⟩ := hus
          rw [currentToken_bind, List.head?_cons, deref_some_bind, if_pos hu, List.map_nil,
            List.append_nil]
          rfl
      | cons param' rest =>
          rw [List.map_cons, commas_tail]
          refine readsBack_current fun v hv => ?_
          rw [deref_some, pure_bind, if_neg (by rw [piece_type hv, punct_type]; decide)]
          cases M with
          | zero => exact ReadsBack.short (by simp)
          | succ M => exact readsBack_expect (punct_type _) (Nat.le_refl _) fun _ _ => ih (by omega)

/-! ### Statements

A statement is complete with its last token, a semicolon or a brace, or with its last
part.
-/

/-- What may follow a statement. -/
def FollowsStmt (node : AstNode) (us : TokenStream) : Prop :=
  node.endsOpen = true → ∀ u ∈ us.head?, u.type ≠ .else_

/-- A statement is read as it is written. -/
def StmtReadsBack (node : AstNode) : Prop :=
  ∀ uninit N, ReadsBack Token.piece N (parseStatement uninit (N + 1)) (node.render 0)
    (FollowsStmt node) node.erase

/-- How a statement starts. -/
def StartsStmt (lex : List Piece) : Prop := ∃ p rest, lex = p :: rest ∧ p.1 ≠ .else_ ∧ p.1 ≠ .rbrace

/-- A statement that is no declaration is told by its first token. -/
private theorem readsBack_statement (hp : p.1 ≠ .type) (h : ReadsBack Token.piece N
      (if p.1 = .while_ ∨ p.1 = .for_ then
        parseIterStatement (parseExpression uninit (N + 1)) (parseStatement uninit N)
      else if p.1 = .return_ then parseJumpStatement (parseExpression uninit (N + 1))
      else if p.1 = .if_ then parseSelectionStatement (parseExpression uninit (N + 1))
        (parseStatement uninit N)
      else if p.1 = .enum then parseEnum
      else if p.1 = .lbrace then parseCompStmt (parseStatement uninit N)
      else parseExpressionStatement (parseExpression uninit (N + 1))) (p :: lex) follow node) :
    ReadsBack Token.piece N (parseStatement uninit (N + 1)) (p :: lex) follow node := by
  refine readsBack_current fun t ht => ?_
  rw [deref_some, pure_bind, piece_type ht]
  by_cases hloop : p.1 = .while_ ∨ p.1 = .for_
  · rw [if_pos hloop] at h ⊢
    exact h
  · rw [if_neg hloop] at h ⊢
    refine ReadsBack.ahead (a := false) (fun ts us hts _ => ?_) h
    obtain ⟨u, ts, rfl, hu, -⟩ := List.map_eq_cons_iff.mp hts
    exact isDeclartion_no_type (by rw [piece_type hu]; exact hp)

/-- A declaration is told from a call by its third token. -/
theorem stmtReadsBack_decl (hdecl : node.isDeclaration = true) (h : node.stmtWF = true) :
    StmtReadsBack node := by
  intro uninit N
  obtain ⟨type, value, third, rest, hlex⟩ : ∃ type value third rest,
      node.render 0 = (.type, type) :: (.ident, value) :: punct third :: rest := by
    cases node with
    | varDec value type symbol => exact ⟨type, value, .semicolon, [], rfl⟩
    | varDef value type expr symbol => exact ⟨type, value, .assign, _, rfl⟩
    | _ => simp [AstNode.isDeclaration] at hdecl
  have hread : ReadsBack Token.piece N (parseDeclartion (parseExpression uninit (N + 1)))
    (node.render 0)
      (fun _ => True) node.erase := parseDeclartion_readsBack hdecl h (Nat.le_refl N)
  have hahead : ∀ ts us : TokenStream, ts.map Token.piece = node.render 0 →
      isDeclartion (ts ++ us) = .ok (true, ts ++ us) := fun ts us hts =>
        isDeclartion_ahead hdecl hts
  rw [hlex] at hread hahead ⊢
  refine readsBack_current fun t ht => ?_
  have htype : t.type = .type := piece_type ht
  rw [deref_some, pure_bind, if_neg (by rw [htype]; decide)]
  refine ReadsBack.ahead (a := true) (fun ts us hts _ => hahead ts us hts) ?_
  exact hread.mono (Nat.le_refl N) fun _ _ => trivial

/-- An expression as a statement of its own. -/
theorem stmtReadsBack_exprStmt {expr : AstNode} (h : expr.optWF = true) :
    StmtReadsBack (.exprStmt expr) := by
  intro uninit N
  have hread : ReadsBack Token.piece N (parseExpressionStatement (parseExpression uninit (N + 1)))
      (expr.render 0 ++ [punct .semicolon]) (FollowsStmt (.exprStmt expr)) (.exprStmt expr.erase) :=
    readsBack_exprThen (Or.inr rfl) h (Nat.le_refl N) ReadsBack.pure
  -- the first token is one of the expression, or the semicolon
  obtain ⟨p, rest, hlex, hp⟩ : ∃ p rest, expr.render 0 ++ [punct .semicolon] = p :: rest ∧
      (startsExpr p.1 = true ∨ p.1 = .semicolon) := by
    rw [AstNode.optWF, Bool.or_eq_true] at h
    rcases h with h | h
    · obtain rfl := AstNode.eq_emptyExpr h
      exact ⟨_, _, rfl, Or.inr (punct_type _)⟩
    · obtain ⟨p, rest, hlex, hstart, -, -⟩ := render_starts h
      exact ⟨p, rest ++ [punct .semicolon], by rw [hlex, List.cons_append], Or.inl hstart⟩
  have hne : ∀ ty, startsExpr ty = false → ty ≠ .semicolon → p.1 ≠ ty := by
    intro ty hty hsemi heq
    rcases hp with hp | hp
    · rw [heq, hty] at hp
      cases hp
    · exact hsemi (heq.symm.trans hp)
  show ReadsBack Token.piece N _ (expr.render 0 ++ [punct .semicolon]) _ _
  rw [hlex] at hread ⊢
  refine readsBack_statement (hne _ rfl (by decide)) ?_
  rw [if_neg (not_or.mpr ⟨hne _ rfl (by decide), hne _ rfl (by decide)⟩),
    if_neg (hne _ rfl (by decide)),
    if_neg (hne _ rfl (by decide)), if_neg (hne _ rfl (by decide)), if_neg (hne _ rfl (by decide))]
  exact hread

theorem stmtReadsBack_ret {expr : AstNode} {func : Option SymId} (h : expr.optWF = true) :
    StmtReadsBack (.ret expr func) := by
  intro uninit N
  refine readsBack_statement (by rw [punct_type]; decide) ?_
  simp only [punct_type, reduceCtorEq, or_self, if_false, if_true]
  refine readsBack_expect (punct_type _) (Nat.le_succ N) fun _ _ => ?_
  exact readsBack_exprThen (Or.inr rfl) h (Nat.le_refl N) ReadsBack.pure

/-- An enum is told by its first token. -/
theorem stmtReadsBack_enum {value : String} {enums : List String} :
    StmtReadsBack (.enum value enums) := by
  intro uninit N
  refine readsBack_statement (by rw [punct_type]; decide) ?_
  simp only [punct_type, reduceCtorEq, or_self, if_false, if_true]
  refine readsBack_expect (punct_type _) (Nat.le_succ N) fun _ _ => ?_
  refine readsBack_expect rfl (Nat.le_succ N) fun t ht => ?_
  refine readsBack_expect (punct_type _) (Nat.le_succ N) fun _ _ => ?_
  refine ReadsBack.sized (f := fun n => parseEnumerators (n + 1)
    [] >>= fun enums => expect .rbrace >>= fun _ =>
    expect .semicolon >>= fun _ => deref (some t) >>= fun name =>
      pure (AstNode.enum name.value enums)) fun M _ => ?_
  refine (parseEnumerators_readsBack (Nat.lt_succ_self M)).bind ?_ fun ts us hts _ => ?_
  · refine readsBack_expect (punct_type _) (Nat.le_succ M) fun _ _ => ?_
    refine readsBack_expect (punct_type _) (Nat.le_succ M) fun _ _ => ?_
    rw [deref_some, pure_bind, piece_value ht, List.nil_append]
    exact ReadsBack.pure
  · obtain ⟨u, us', rfl, hu, -⟩ := List.map_eq_cons_iff.mp hts
    exact ⟨u, _, rfl, (piece_type hu).trans (punct_type _)⟩

theorem stmtReadsBack_while {expr body : AstNode} (h : expr.exprWF = true)
    (hbody : StmtReadsBack body) : StmtReadsBack (.while_ expr body) := by
  intro uninit N
  cases N with
  | zero => exact ReadsBack.short (by simp [AstNode.render])
  | succ N =>
      refine readsBack_statement (by rw [punct_type]; decide) ?_
      rw [punct_type, if_pos (Or.inl rfl)]
      refine readsBack_current fun t ht => ?_
      rw [deref_some, pure_bind, piece_type ht, punct_type, if_neg (by decide)]
      refine readsBack_expect (punct_type _) (Nat.le_refl _) fun _ _ => ?_
      refine readsBack_expect (punct_type _) (Nat.le_succ N) fun _ _ => ?_
      refine readsBack_exprThen (Or.inl rfl) (AstNode.optWF_of_exprWF h) (Nat.le_succ N) ?_
      exact (hbody uninit N).bind_nil ReadsBack.pure fun us hus => hus

/-- The first part of a `for` header, with its semicolon. -/
theorem parseForInit_readsBack {init : AstNode}
    (h : (init.isDeclaration = true ∧ init.stmtWF = true) ∨ init.optWF = true) (hM : M ≤ N) :
    ReadsBack Token.piece M (parseForInit (parseExpression uninit (N + 1)))
      (init.render 0 ++ if init.isDeclaration then [] else [punct .semicolon])
      (fun _ => True) init.erase := by
  by_cases hdecl : init.isDeclaration = true
  · have hwf : init.stmtWF = true := by
      rcases h with h | h
      · exact h.2
      · rw [AstNode.optWF, Bool.or_eq_true] at h
        cases init with
        | varDec value type symbol => rfl
        | varDef value type expr symbol => simp [AstNode.isEmptyExpr, AstNode.exprWF] at h
        | _ => simp [AstNode.isDeclaration] at hdecl
    rw [if_pos hdecl, List.append_nil]
    refine ReadsBack.ahead (a := true) (fun ts us hts _ => isDeclartion_ahead hdecl hts) ?_
    exact parseDeclartion_readsBack hdecl hwf hM
  · have hopt : init.optWF = true := by
      rcases h with h | h
      · exact absurd h.1 hdecl
      · exact h
    rw [if_neg hdecl]
    refine ReadsBack.ahead (a := false) (fun ts us hts _ => ?_) ?_
    · -- what starts here is an expression, or the semicolon
      obtain ⟨t, ts', hcons, ht⟩ : ∃ t ts', ts = t :: ts' ∧ t.type ≠ .type := by
        rw [AstNode.optWF, Bool.or_eq_true] at hopt
        rcases hopt with hopt | hopt
        · obtain rfl := AstNode.eq_emptyExpr hopt
          obtain ⟨t, ts', rfl, ht, -⟩ := List.map_eq_cons_iff.mp hts
          exact ⟨t, ts', rfl, by rw [piece_type ht, punct_type]; decide⟩
        · obtain ⟨p, rest, hlex, hstart, -, -⟩ := render_starts hopt
          rw [hlex, List.cons_append] at hts
          obtain ⟨t, ts', rfl, ht, -⟩ := List.map_eq_cons_iff.mp hts
          refine ⟨t, ts', rfl, fun htype => ?_⟩
          rw [← piece_type ht, htype] at hstart
          cases hstart
      rw [hcons]
      exact isDeclartion_no_type ht
    · exact readsBack_exprThen (Or.inr rfl) hopt hM ReadsBack.pure

/-- A `for` is told by its first token. -/
theorem stmtReadsBack_for {init cond step body : AstNode}
    (hinit : (init.isDeclaration = true ∧ init.stmtWF = true) ∨ init.optWF = true)
    (hcond : cond.optWF = true) (hstep : step.optWF = true) (hbody : StmtReadsBack body) :
    StmtReadsBack (.for_ init cond step body) := by
  intro uninit N
  cases N with
  | zero => exact ReadsBack.short (by simp [AstNode.render])
  | succ N =>
      refine readsBack_statement (by rw [punct_type]; decide) ?_
      rw [punct_type, if_pos (Or.inr rfl)]
      refine readsBack_current fun t ht => ?_
      rw [deref_some, pure_bind, piece_type ht, punct_type, if_pos rfl]
      refine readsBack_expect (punct_type _) (Nat.le_refl _) fun _ _ => ?_
      refine readsBack_expect (punct_type _) (Nat.le_succ N) fun _ _ => ?_
      refine ReadsBack.bind (parseForInit_readsBack hinit (Nat.le_succ N)) ?_ fun _ _ _ _ => trivial
      refine readsBack_exprThen (Or.inr rfl) hcond (Nat.le_succ N) ?_
      refine readsBack_exprThen (Or.inl rfl) hstep (Nat.le_succ N) ?_
      exact (hbody uninit N).bind_nil ReadsBack.pure fun us hus => hus

/-- Behind the first branch an `else` is taken, so there it has to be the one of this `if`. -/
theorem stmtReadsBack_ifElse {ifExpr ifBody elseBody : AstNode} (hexpr : ifExpr.exprWF = true)
    (hif : StmtReadsBack ifBody) (helse : elseBody.nonNull = true → ifBody.endsOpen = false ∧
      StmtReadsBack elseBody) : StmtReadsBack (.ifElse ifExpr ifBody elseBody) := by
  intro uninit N
  cases N with
  | zero => exact ReadsBack.short (by simp [AstNode.render])
  | succ N =>
      refine readsBack_statement (by rw [punct_type]; decide) ?_
      simp only [punct_type, reduceCtorEq, or_self, if_false, if_true]
      refine readsBack_expect (punct_type _) (Nat.le_refl _) fun _ _ => ?_
      refine readsBack_expect (punct_type _) (Nat.le_succ N) fun _ _ => ?_
      refine readsBack_exprThen (Or.inl rfl) (AstNode.optWF_of_exprWF hexpr) (Nat.le_succ N) ?_
      by_cases hnull : elseBody.nonNull = true
      · obtain ⟨hclosed, helse⟩ := helse hnull
        rw [if_pos hnull]
        refine (hif uninit N).bind ?_ fun ts us _ _ hopen => ?_
        · refine readsBack_current fun u hu => ?_
          dsimp only
          rw [if_pos ((piece_type hu).trans (punct_type _))]
          refine readsBack_expect (punct_type _) (Nat.le_succ N) fun _ _ => ?_
          refine (helse uninit N).bind_nil ReadsBack.pure fun us hus hopen => hus ?_
          rw [AstNode.endsOpen, hopen, Bool.or_true]
        · rw [hclosed] at hopen
          cases hopen
      · obtain rfl := AstNode.eq_null hnull
        have hnot : ∀ us, FollowsStmt (.ifElse ifExpr ifBody .null) us →
            ∀ u ∈ us.head?, u.type ≠ .else_ :=
          fun us hus => hus rfl
        rw [if_neg hnull, List.append_nil]
        refine (hif uninit N).bind_nil (ReadsBack.stop fun us hus => ?_) fun us hus _ => hnot us hus
        cases us with
        | nil => rfl
        | cons u us =>
            rw [currentToken_bind, List.head?_cons]
            dsimp only
            rw [if_neg (hnot _ hus u rfl)]
            rfl

/-! ### Blocks

A block is read statement by statement until the closing brace, which starts no statement.
-/

/-- The statements of a block, up to the brace. -/
theorem parseStatements_readsBack {body acc : List AstNode}
    (h : ∀ n ∈ body, StmtReadsBack n ∧ StartsStmt (n.render 0)) (hM : M ≤ N) (hm : M < m) :
    ReadsBack Token.piece M (parseStatements (parseStatement uninit (N + 1)) m acc)
      (AstNode.renderList 0 body).flatten (fun us => ∃ u us', us = u :: us' ∧ u.type = .rbrace)
      (acc ++ AstNode.eraseList body) := by
  induction body generalizing acc M m with
  | nil =>
      refine ReadsBack.stop fun us hus => ?_
      obtain ⟨u, us', rfl, hu⟩ := hus
      obtain ⟨m, rfl⟩ := Nat.exists_eq_succ_of_ne_zero (Nat.ne_of_gt (Nat.zero_lt_of_lt hm))
      rw [parseStatements, currentToken_bind, List.head?_cons, AstNode.eraseList, List.append_nil]
      dsimp only
      rw [if_pos hu]
      rfl
  | cons stmt rest ih =>
      obtain ⟨m, rfl⟩ := Nat.exists_eq_succ_of_ne_zero (Nat.ne_of_gt (Nat.zero_lt_of_lt hm))
      obtain ⟨hread, p, lex, hlex, -, hp⟩ := h stmt (by simp)
      have hlen : 1 ≤ (stmt.render 0).length := by rw [hlex]; exact Nat.succ_le_succ (Nat.zero_le _)
      rw [AstNode.renderList, List.flatten_cons, AstNode.eraseList, List.append_cons, hlex,
        List.cons_append]
      refine readsBack_current fun t ht => ?_
      dsimp only
      rw [if_neg (by rw [piece_type ht]; exact hp), ← List.cons_append, ← hlex]
      cases M with
      | zero =>
          refine ReadsBack.short ?_
          rw [List.length_append]
          omega
      | succ M =>
          refine ReadsBack.bind_rest ((hread uninit N).mono hM fun us hus => hus) ?_
            fun ts us hts hus _ u hu => ?_
          · exact ih (fun n hn => h n (by simp [hn])) (by omega) (by omega)
          · -- what follows is the closing brace or the next statement
            cases rest with
            | nil =>
                obtain ⟨u', us', rfl, hrbrace⟩ := hus
                rw [List.map_eq_nil_iff.mp hts] at hu
                obtain rfl : u' = u := by simpa using hu
                rw [hrbrace]
                decide
            | cons next rest =>
                obtain ⟨-, q, lex', hlex', helse, -⟩ := h next (by simp)
                rw [AstNode.renderList, List.flatten_cons, hlex', List.cons_append] at hts
                obtain ⟨v, ts', rfl, hv, -⟩ := List.map_eq_cons_iff.mp hts
                obtain rfl : v = u := by simpa using hu
                rw [piece_type hv]
                exact helse

theorem parseCompStmt_readsBack {body : List AstNode}
    (h : ∀ n ∈ body, StmtReadsBack n ∧ StartsStmt (n.render 0)) (hM : M ≤ N + 1) :
    ReadsBack Token.piece M (parseCompStmt (parseStatement uninit (N + 1)))
      (punct .lbrace :: ((AstNode.renderList 0 body).flatten ++ [punct .rbrace])) (fun _ => True)
      (.compStmt (AstNode.eraseList body)) := by
  refine readsBack_expect (punct_type _) hM fun _ _ => ?_
  refine ReadsBack.sized (f := fun n => parseStatements (parseStatement uninit (N + 1)) (n + 1)
    [] >>= fun body =>
    expect .rbrace >>= fun _ => pure (AstNode.compStmt body)) fun M hM => ?_
  refine (parseStatements_readsBack h hM (Nat.lt_succ_self M)).bind ?_ fun ts us hts _ => ?_
  · refine readsBack_expect (punct_type _) (Nat.le_succ M) fun _ _ => ?_
    rw [List.nil_append]
    exact ReadsBack.pure
  · obtain ⟨u, us', rfl, hu, -⟩ := List.map_eq_cons_iff.mp hts
    exact ⟨u, _, rfl, (piece_type hu).trans (punct_type _)⟩

theorem stmtReadsBack_compStmt {body : List AstNode}
    (h : ∀ n ∈ body, StmtReadsBack n ∧ StartsStmt (n.render 0)) :
    StmtReadsBack (.compStmt body) := by
  intro uninit N
  cases N with
  | zero => exact ReadsBack.short (by simp [AstNode.render])
  | succ N =>
      refine readsBack_statement (by rw [punct_type]; decide) ?_
      simp only [punct_type, reduceCtorEq, or_self, if_false, if_true]
      exact (parseCompStmt_readsBack h (Nat.le_refl _)).mono (Nat.le_refl _) fun _ _ => trivial

/-! ### Every statement

By induction on the tree, with the lemma of its kind in each case.
-/

/-- No statement starts with `else` or with a closing brace. -/
theorem stmt_starts (h : node.stmtWF = true) : StartsStmt (node.render 0) := by
  have hpunct : ∀ ty : TokenType, ty ≠ .else_ → ty ≠ .rbrace →
      ∀ rest, StartsStmt (punct ty :: rest) :=
    fun ty helse hbrace rest => ⟨_, rest, rfl, by rwa [punct_type], by rwa [punct_type]⟩
  cases node with
  | varDec value type symbol => exact ⟨_, _, rfl, by simp, by simp⟩
  | varDef value type expr symbol => exact ⟨_, _, rfl, by simp, by simp⟩
  | exprStmt expr =>
      rw [AstNode.stmtWF, AstNode.optWF, Bool.or_eq_true] at h
      rcases h with h | h
      · obtain rfl := AstNode.eq_emptyExpr h
        exact hpunct .semicolon (by decide) (by decide) []
      · obtain ⟨p, rest, hlex, hstart, -, -⟩ := render_starts h
        refine ⟨p,
          rest ++ [punct .semicolon], by rw [AstNode.render, hlex, List.cons_append], ?_, ?_⟩ <;>
          intro hp <;> rw [hp] at hstart <;> cases hstart
  | ret expr func => exact hpunct .return_ (by decide) (by decide) _
  | ifElse ifExpr ifBody elseBody => exact hpunct .if_ (by decide) (by decide) _
  | while_ expr body => exact hpunct .while_ (by decide) (by decide) _
  | for_ init cond step body => exact hpunct .for_ (by decide) (by decide) _
  | enum value enums => exact hpunct .enum (by decide) (by decide) _
  | compStmt body => exact hpunct .lbrace (by decide) (by decide) _
  | _ => simp [AstNode.stmtWF] at h

theorem AstNode.stmtsWF_iff {nodes : List AstNode} : stmtsWF nodes = true ↔
    ∀ n ∈ nodes, n.stmtWF = true := by
  induction nodes with
  | nil => simp [stmtsWF]
  | cons n nodes ih => simp [stmtsWF, ih]

/-- **The parser of statements reads back every statement as it is written.** -/
theorem stmtWF_readsBack (h : node.stmtWF = true) : StmtReadsBack node := by
  induction node with
  | varDec value type symbol => exact stmtReadsBack_decl rfl h
  | varDef value type expr symbol _ => exact stmtReadsBack_decl rfl h
  | exprStmt expr _ => exact stmtReadsBack_exprStmt h
  | ret expr func _ => exact stmtReadsBack_ret h
  | enum value enums => exact stmtReadsBack_enum
  | ifElse ifExpr ifBody elseBody _ ihif ihelse =>
      simp only [AstNode.stmtWF, Bool.and_eq_true, Bool.or_eq_true, Bool.not_eq_true'] at h
      refine stmtReadsBack_ifElse h.1.1 (ihif h.1.2) fun hnull => ?_
      rcases h.2 with h | ⟨hclosed, helse⟩
      · rw [h] at hnull
        cases hnull
      · exact ⟨hclosed, ihelse helse⟩
  | while_ expr body _ ih =>
      rw [AstNode.stmtWF, Bool.and_eq_true] at h
      exact stmtReadsBack_while h.1 (ih h.2)
  | for_ init cond step body _ _ _ ih =>
      simp only [AstNode.stmtWF, Bool.and_eq_true, Bool.or_eq_true] at h
      exact stmtReadsBack_for h.1.1.1 h.1.1.2 h.1.2 (ih h.2)
  | compStmt body ih =>
      rw [AstNode.stmtWF, AstNode.stmtsWF_iff] at h
      exact stmtReadsBack_compStmt fun n hn => ⟨ih n hn (h n hn), stmt_starts (h n hn)⟩
  | _ => simp [AstNode.stmtWF] at h

/-! ### Programs

A program is its functions one after the other, up to the end of the tokens.
-/

/-- A function, in front of another one or at the end. -/
theorem parseFuncDef_readsBack (h : node.funcWF = true) (hM : M ≤ N) :
    ReadsBack Token.piece M (parseFuncDef (parseStatement uninit (N + 1))) (node.render 0)
      (fun _ => True) node.erase := by
  unfold AstNode.funcWF at h
  split at h
  · rename_i value type body params symbol
    refine readsBack_expect rfl (Nat.le_succ M) fun t ht => ?_
    refine readsBack_expect rfl (Nat.le_succ M) fun u hu => ?_
    rw [deref_some, pure_bind]
    refine readsBack_expect (punct_type _) (Nat.le_succ M) fun _ _ => ?_
    refine ReadsBack.sized (f := fun n => parseFuncParams (n + 1)
      [] >>= fun params => expect .rparen >>= fun _ =>
      deref (some t) >>= fun ty => parseCompStmt (parseStatement uninit (N + 1)) >>= fun body =>
        pure (AstNode.funcDef u.value ty.value body params none)) fun K hK => ?_
    refine (parseFuncParams_readsBack (Nat.lt_succ_self K)).bind ?_ fun ts us hts _ => ?_
    · refine readsBack_expect (punct_type _) (Nat.le_succ K) fun _ _ => ?_
      rw [deref_some, pure_bind, piece_value ht, piece_value hu, List.nil_append]
      rw [AstNode.stmtsWF_iff] at h
      refine (parseCompStmt_readsBack (fun n hn => ⟨stmtWF_readsBack (h n hn),
        stmt_starts (h n hn)⟩) ?_).bind_nil ReadsBack.pure fun _ _ => trivial
      omega
    · obtain ⟨v, us', rfl, hv, -⟩ := List.map_eq_cons_iff.mp hts
      exact ⟨v, _, rfl, (piece_type hv).trans (punct_type _)⟩
  · cases h

/-- The functions of a program, up to the end of the tokens. -/
theorem parseProg_readsBack {prog acc : List AstNode} (h : ∀ n ∈ prog, n.funcWF = true) (hM : M ≤ N)
    (hm : M < m) :
    ReadsBack Token.piece M (parseProg (parseStatement uninit (N + 1)) m acc)
      (prog.flatMap (AstNode.render 0)) (fun us => us = []) (acc ++ prog.map AstNode.erase) := by
  induction prog generalizing acc M m with
  | nil =>
      refine ReadsBack.stop fun us hus => ?_
      obtain ⟨m, rfl⟩ := Nat.exists_eq_succ_of_ne_zero (Nat.ne_of_gt (Nat.zero_lt_of_lt hm))
      rw [hus, parseProg, List.map_nil, List.append_nil]
      rfl
  | cons func rest ih =>
      obtain ⟨m, rfl⟩ := Nat.exists_eq_succ_of_ne_zero (Nat.ne_of_gt (Nat.zero_lt_of_lt hm))
      have hwf : func.funcWF = true := h func (by simp)
      obtain ⟨p, lex, hlex⟩ : ∃ p lex, func.render 0 = p :: lex := by
        unfold AstNode.funcWF at hwf
        split at hwf
        · exact ⟨_, _, rfl⟩
        · cases hwf
      have hlen : 1 ≤ (func.render 0).length := by rw [hlex]; exact Nat.succ_le_succ (Nat.zero_le _)
      rw [List.flatMap_cons, List.map_cons, List.append_cons, hlex, List.cons_append]
      refine readsBack_current fun t _ => ?_
      dsimp only
      rw [← List.cons_append, ← hlex]
      cases M with
      | zero =>
          refine ReadsBack.short ?_
          rw [List.length_append]
          omega
      | succ M =>
          refine ReadsBack.bind_rest (parseFuncDef_readsBack hwf hM) ?_ fun _ _ _ _ => trivial
          exact ih (fun n hn => h n (by simp [hn])) (by omega) (by omega)

/-- **Parsing a program as it is written gives the program, and no token is left.** -/
theorem parse_render {prog : List AstNode} {tokens : List Token} (h : ∀ n ∈ prog, n.funcWF = true)
    (htokens : tokens.map Token.piece = prog.flatMap (AstNode.render 0)) :
    parse uninit tokens = .ok (prog.map AstNode.erase, []) := by
  have hread : ReadsBack Token.piece tokens.length
      (parseProg (parseStatement uninit (tokens.length + 1)) (tokens.length + 1) []) _ _ _ :=
    parseProg_readsBack h (Nat.le_refl _) (Nat.lt_succ_self _)
  have hrun := hread tokens [] htokens rfl (by simp)
  rwa [List.append_nil] at hrun

/-- `int f(int n) { if (n < 2) return !n; else { n = n - (1 - 2); } for (;;) ; }` -/
def renderProg : List AstNode :=
  [.funcDef "f" "int"
    (.compStmt
      [.ifElse (.binExp "<" .lt (.ident "n" none) (.intConst 2))
        (.ret (.unaryExpr (.ident "n" none) "!" .not) none)
        (.compStmt [.exprStmt (.varAsgn (.lval .ident (.ident "n" none))
          (.binExp "-" .sub (.ident "n" none) (.binExp "-" .sub (.intConst 1) (.intConst 2))))]),
       .for_ .emptyExpr .emptyExpr .emptyExpr (.exprStmt .emptyExpr)])
    [{ value := "n", type := "int", symbol := none }] none]

/-- Its tokens. -/
def renderTokens : List Token :=
  [tok .type "int", tok .ident "f", tok .lparen "(", tok .type "int", tok .ident "n",
    tok .rparen ")", tok .lbrace "\x7b",
    tok .if_ "if", tok .lparen "(", tok .ident "n", tok .lt "<", tok .num "2", tok .rparen ")",
    tok .return_ "return", tok .not "!", tok .ident "n", tok .semicolon ";",
    tok .else_ "else", tok .lbrace "\x7b", tok .ident "n", tok .assign "=", tok .ident "n",
      tok .sub "-",
    tok .lparen "(", tok .num "1", tok .sub "-", tok .num "2", tok .rparen ")", tok .semicolon ";",
    tok .rbrace "\x7d",
    tok .for_ "for", tok .lparen "(", tok .semicolon ";", tok .semicolon ";", tok .rparen ")",
    tok .semicolon ";", tok .rbrace "\x7d"]

theorem parse_render_prog : (∀ n ∈ renderProg, n.funcWF = true) ∧
    renderTokens.map Token.piece = renderProg.flatMap (AstNode.render 0) ∧
    parse 0 renderTokens = .ok (renderProg.map AstNode.erase, []) := by
  have hwf : ∀ n ∈ renderProg, n.funcWF = true := by decide
  have htokens : renderTokens.map Token.piece = renderProg.flatMap (AstNode.render 0) := by decide
  exact ⟨hwf, htokens, parse_render hwf htokens⟩

end MyLang
