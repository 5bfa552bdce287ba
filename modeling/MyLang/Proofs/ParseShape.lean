/-
The trees the parser builds.

Whatever the tokens are, `parse_expression` returns an expression, `parse_statement` a
statement and `parse` a list of function definitions, in the sense of `isExpr`, `isStmt`
and `isFuncDef`.  `Returns` says that of a parse function, and goes through the source
function by function.

So what comes behind the parser can take the tree apart by the sorts of the grammar, and
the cases that the parser never builds, a statement as an operand or a function in a
function, need not be looked at.  The tree the analysis hands on is the parsed one but for
its symbols (`Proofs/SemaShape.lean`), and has the same sorts.

The functions of the parser call each other, and the induction is on the bound of the
recursion: `ReturnsExpr` and `ReturnsStmt` for the calls that are one level further down
are the assumptions of the lemmas.
-/
import MyLang.Parse
import MyLang.Proofs.Ast
import MyLang.Proofs.ParseStep

namespace MyLang

open StateExcept AstNode

/-- Everything a parse function returns satisfies `Q`. -/
def Returns {α : Type} (p : Parser α) (Q : α → Prop) : Prop :=
  ∀ ⦃ts a ts'⦄, p ts = .ok (a, ts') → Q a

namespace Returns

variable {α β : Type} {Q R : α → Prop}

theorem bind {x : Parser β} {f : β → Parser α} {S : β → Prop} (hx : Returns x S)
    (hf : ∀ b, S b → Returns (f b) Q) : Returns (x >>= f) Q := by
  intro ts a ts' h
  rw [bind_eq_ok] at h
  obtain ⟨b, ts1, hb, h⟩ := h
  exact hf b (hx hb) h

/-- The first result does not matter. -/
theorem seq {x : Parser β} {f : β → Parser α} (hf : ∀ b, Returns (f b) Q) : Returns (x >>= f) Q :=
  bind (S := fun _ => True) (fun _ _ _ _ => trivial) fun b _ => hf b

theorem pure {a : α} (h : Q a) : Returns (Pure.pure a) Q := by
  intro ts b ts' hb
  rw [pure_eq_ok] at hb
  exact hb.1 ▸ h

theorem throw {e : ParseError} : Returns (MonadExcept.throw e : Parser α) Q := by
  intro ts a ts' h
  simp at h

theorem ite {c : Prop} [Decidable c] {x y : Parser α} (hx : Returns x Q) (hy : Returns y Q) :
    Returns (if c then x else y) Q := by
  split
  · exact hx
  · exact hy

end Returns

/-! ### Expressions

An empty expression is an expression, too; where one must not be is not a matter of sorts.
-/

section Expressions

variable {uninit : Int} {parseExpression : Parser AstNode}

/-- A parse function of expressions. -/
abbrev ReturnsExpr (p : Parser AstNode) : Prop := Returns p fun n => n.isExpr = true

/-- Arguments are expressions. -/
theorem parseArgs_returns (h : ReturnsExpr parseExpression) :
    ∀ (n : Nat) (args : List AstNode), (∀ a ∈ args, a.isExpr = true) →
      Returns (parseArgs parseExpression n args) fun l => ∀ a ∈ l, a.isExpr = true := by
  intro n
  induction n with
  | zero => intro args _; exact Returns.throw
  | succ n ih =>
      intro args hargs
      rw [parseArgs]
      refine Returns.seq fun cur => Returns.seq fun tok => Returns.ite (Returns.pure hargs) ?_
      refine Returns.bind h fun e he => Returns.seq fun cur' => Returns.seq fun tok' => ?_
      have hall : ∀ a ∈ args ++ [e], a.isExpr = true := by
        intro a ha
        rcases List.mem_append.mp ha with ha | ha
        · exact hargs a ha
        · rw [List.mem_singleton.mp ha, he]
      exact Returns.ite (Returns.pure hall) (Returns.seq fun _ => ih _ hall)

theorem parseIdent_returns (h : ReturnsExpr parseExpression) :
    ReturnsExpr (parseIdent parseExpression) := by
  rw [parseIdent]
  refine Returns.seq fun cur => Returns.seq fun tok => Returns.seq fun b => Returns.ite ?_ ?_
  · rw [parseFuncCall]
    refine Returns.seq fun name => Returns.seq fun nameStr => Returns.seq fun _ =>
      Returns.seq fun ts => Returns.bind (parseArgs_returns h _ [] (by simp)) fun args hargs => ?_
    exact Returns.seq fun _ => Returns.pure (by rw [isExpr, areExprs_iff]; exact hargs)
  · exact Returns.seq fun _ => Returns.pure rfl

theorem parsePrimaryExpression_returns (h : ReturnsExpr parseExpression) :
    ReturnsExpr (parsePrimaryExpression uninit parseExpression) := by
  rw [parsePrimaryExpression]
  refine Returns.seq fun cur => ?_
  cases cur with
  | none => exact Returns.pure rfl
  | some current =>
      refine Returns.ite (Returns.seq fun _ => ?_) (Returns.ite (parseIdent_returns h)
        (Returns.ite (Returns.seq fun _ => ?_) (Returns.pure rfl)))
      · cases str2int current.value with
        | ok lit => exact Returns.pure rfl
        | error e => exact Returns.pure rfl
      · exact Returns.bind h fun ret hret => Returns.seq fun _ => Returns.pure hret

theorem parseCastExpression_returns (h : ReturnsExpr parseExpression) :
    ReturnsExpr (parseCastExpression uninit parseExpression) := by
  rw [parseCastExpression, parseUnaryExpression]
  refine Returns.seq fun cur => Returns.seq fun current => ?_
  split
  · rename_i hop
    refine Returns.seq fun _ => Returns.bind (parsePrimaryExpression_returns h) fun e he =>
      Returns.pure ?_
    rw [isExpr, he, Bool.and_true]
    exact hop
  · exact parsePrimaryExpression_returns h

/-- A level of operators makes an expression of expressions. -/
theorem binaryLevel_returns {isOp : TokenType → Bool} {operand : Parser AstNode}
    (hop : ∀ t, isOp t = true → isBinOp t = true) (h : ReturnsExpr operand) :
    ReturnsExpr (binaryLevel isOp operand) := by
  have hloop : ∀ (n : Nat) (left : AstNode), left.isExpr = true →
      ReturnsExpr (binaryLoop isOp operand n left) := by
    intro n
    induction n with
    | zero => intro left _; exact Returns.throw
    | succ n ih =>
        intro left hleft
        rw [binaryLoop]
        refine Returns.seq fun cur => ?_
        cases cur with
        | none => exact Returns.pure hleft
        | some current =>
            dsimp only
            split
            · rename_i hcur
              refine Returns.seq fun _ => Returns.bind h fun right hright => ih _ ?_
              simp [isExpr, hop _ hcur, hleft, hright]
            · exact Returns.pure hleft
  rw [binaryLevel]
  exact Returns.bind h fun left hleft => Returns.seq fun _ => hloop _ left hleft

theorem parseLogOrExpression_returns (h : ReturnsExpr parseExpression) :
    ReturnsExpr (parseLogOrExpression uninit parseExpression) := by
  refine binaryLevel_returns ?_ (binaryLevel_returns ?_ (binaryLevel_returns
    ?_ (binaryLevel_returns ?_ (binaryLevel_returns ?_
    (binaryLevel_returns ?_ (binaryLevel_returns ?_ (binaryLevel_returns ?_ (binaryLevel_returns ?_
    (binaryLevel_returns ?_ (parseCastExpression_returns h))))))))))
  all_goals
    intro t
    cases t <;> decide

/-- An assignment starts with an identifier that is no call. -/
private theorem parseVarAsgn_returns (h : ReturnsExpr parseExpression) {ts ts' : TokenStream}
    {n : AstNode} (hasgn : isVarAsgn ts = .ok (true, ts))
    (hn : parseVarAsgn parseExpression ts = .ok (n, ts')) : n.isExpr = true := by
  obtain ⟨-, t, rest, rfl, ht⟩ := isVarAsgn_eq_ok.mp hasgn
  rcases ht with ⟨-, hf⟩ | ⟨ht, u, rest', rfl, hu⟩
  · simp at hf
  have hu : u.type = .assign := by simpa using hu.symm
  have hcall : isFuncCallStart (t :: u :: rest') = .ok (false, t :: u :: rest') :=
    isFuncCallStart_eq_ok.mpr ⟨rfl, t, _, rfl, Or.inr ⟨ht, u, rest', rfl, by simp [hu]⟩⟩
  rw [parseVarAsgn, bind_eq_ok] at hn
  obtain ⟨ident, ts1, hident, hn⟩ := hn
  have hident : ident = .ident t.value none := by
    rw [parseIdent, currentToken_bind, List.head?_cons, deref_some_bind, bind_eq_ok] at hident
    obtain ⟨b, ts2, hb, hident⟩ := hident
    rw [hcall] at hb
    cases hb
    simp only [Bool.false_eq_true, if_false, nextToken_bind, pure_eq_ok] at hident
    exact hident.1
  subst hident
  have hr : Returns (do let _ ← expect .assign; let rval ← parseExpression
                        return AstNode.varAsgn (.lval .ident (.ident t.value none)) rval)
      fun n => n.isExpr = true :=
    Returns.seq fun _ => Returns.bind h fun rval hrval => Returns.pure (by rw [isExpr, hrval])
  exact hr hn

theorem parseExpression_returns (uninit : Int) :
    ∀ n, ReturnsExpr (MyLang.parseExpression uninit n) := by
  intro n
  induction n with
  | zero => exact Returns.throw
  | succ n ih =>
      intro ts a ts' h
      rw [MyLang.parseExpression, bind_eq_ok] at h
      obtain ⟨b, ts1, hb, h⟩ := h
      obtain ⟨rfl, -⟩ := isVarAsgn_eq_ok.mp hb
      cases b with
      | true => exact parseVarAsgn_returns ih hb h
      | false => exact parseLogOrExpression_returns ih h

end Expressions

/-! ### Statements

`isStmt` allows a branch or a body to be any statement, and a `for` header to start with a
declaration or an expression.
-/

section Statements

variable {parseExpression parseStatement : Parser AstNode}

/-- A parse function of statements. -/
abbrev ReturnsStmt (p : Parser AstNode) : Prop := Returns p fun n => n.isStmt = true

/-- A variable declaration, with an initialiser that is an expression. -/
private theorem parseDeclartion_returns (h : ReturnsExpr parseExpression) :
    Returns (parseDeclartion parseExpression) fun n => n.isDecl = true := by
  intro ts n ts' hn
  rw [parseDeclartion, bind_eq_ok] at hn
  obtain ⟨b, ts1, hb, hn⟩ := hn
  cases b with
  | true =>
      obtain ⟨rfl, t, u, v, rest, rfl, hv⟩ := isVarDefStart_eq_ok_true.mp hb
      rw [if_pos rfl, parseVarDef, expect_cons_bind hv.1, expect_cons_bind hv.2.1,
        deref_some_bind, deref_some_bind, currentToken_bind, List.head?_cons, deref_some_bind,
        if_pos hv.2.2, nextToken_bind, bind_eq_ok] at hn
      obtain ⟨init, ts2, hinit, hn⟩ := hn
      rw [bind_eq_ok] at hn
      obtain ⟨_, ts3, _, hn⟩ := hn
      rw [pure_eq_ok] at hn
      rw [hn.1, isDecl, h hinit]
  | false =>
      have : Returns parseVarDec fun n => n.isDecl = true := by
        rw [parseVarDec]
        exact Returns.seq fun _ => Returns.seq fun _ => Returns.seq fun _ => Returns.seq fun _ =>
          Returns.seq fun _ => Returns.pure rfl
      exact this hn

theorem parseIfElseStatement_returns (h : ReturnsExpr parseExpression)
    (hs : ReturnsStmt parseStatement) :
    ReturnsStmt (parseIfElseStatement parseExpression parseStatement) := by
  rw [parseIfElseStatement]
  refine Returns.seq fun _ => Returns.seq fun _ => Returns.bind h fun e he => Returns.seq fun _ =>
    Returns.bind hs fun b hb => Returns.seq fun cur => ?_
  have hnull : (AstNode.ifElse e b .null).isStmt = true := by simp [isStmt, he, hb, nonNull]
  cases cur with
  | none => exact Returns.pure hnull
  | some current =>
      refine Returns.ite (Returns.seq fun _ => Returns.bind hs fun e' he' => Returns.pure ?_)
        (Returns.pure hnull)
      simp [isStmt, he, hb, he']

theorem parseEnum_returns : ReturnsStmt parseEnum := by
  rw [parseEnum]
  exact Returns.seq fun _ => Returns.seq fun _ => Returns.seq fun _ => Returns.seq fun _ =>
    Returns.seq fun _ => Returns.seq fun _ => Returns.seq fun _ => Returns.seq fun _ =>
    Returns.pure rfl

/-- The statements of a block are statements. -/
theorem parseStatements_returns (hs : ReturnsStmt parseStatement) :
    ∀ (n : Nat) (body : List AstNode), (∀ a ∈ body, a.isStmt = true) →
      Returns (parseStatements parseStatement n body) fun l => ∀ a ∈ l, a.isStmt = true := by
  intro n
  induction n with
  | zero => intro body _; exact Returns.throw
  | succ n ih =>
      intro body hbody
      rw [parseStatements]
      refine Returns.seq fun cur => ?_
      cases cur with
      | none => exact Returns.pure hbody
      | some current =>
          refine Returns.ite (Returns.pure hbody) (Returns.bind hs fun s hst => ih _ ?_)
          intro a ha
          rcases List.mem_append.mp ha with ha | ha
          · exact hbody a ha
          · rw [List.mem_singleton.mp ha, hst]

theorem parseCompStmt_returns (hs : ReturnsStmt parseStatement) :
    Returns (parseCompStmt parseStatement) fun n => ∃ body, n = .compStmt body ∧
      areStmts body = true := by
  rw [parseCompStmt]
  exact Returns.seq fun _ => Returns.seq fun _ => Returns.bind
    (parseStatements_returns hs _ [] (by simp)) fun body hbody => Returns.seq fun _ =>
    Returns.pure ⟨body, rfl, areStmts_iff.mpr hbody⟩

theorem parseWhile_returns (h : ReturnsExpr parseExpression) (hs : ReturnsStmt parseStatement) :
    ReturnsStmt (parseWhile parseExpression parseStatement) := by
  rw [parseWhile]
  exact Returns.seq fun _ => Returns.seq fun _ => Returns.bind h fun e he => Returns.seq fun _ =>
    Returns.bind hs fun b hb => Returns.pure (by simp [isStmt, he, hb])

theorem parseFor_returns (h : ReturnsExpr parseExpression) (hs : ReturnsStmt parseStatement) :
    ReturnsStmt (parseFor parseExpression parseStatement) := by
  have hinit : Returns (parseForInit parseExpression) fun n =>
      (n.isDecl || n.isExpr) = true := by
    rw [parseForInit]
    refine Returns.seq fun _ => Returns.ite ?_ (Returns.bind h fun e he => Returns.seq fun _ =>
      Returns.pure (by simp [he]))
    exact fun ts n ts' hn => by simp [parseDeclartion_returns h hn]
  rw [parseFor]
  exact Returns.seq fun _ => Returns.seq fun _ => Returns.bind hinit fun i hi =>
    Returns.bind h fun c hc => Returns.seq fun _ => Returns.bind h fun s hst =>
    Returns.seq fun _ => Returns.bind hs fun b hb =>
    Returns.pure (by simp only [isStmt, hi, hc, hst, hb, Bool.and_self])

/-- A statement is one of the kinds. -/
theorem parseStatement_returns (uninit : Int) :
    ∀ n, ReturnsStmt (MyLang.parseStatement uninit n) := by
  intro n
  induction n with
  | zero => exact Returns.throw
  | succ n ih =>
      have h := parseExpression_returns uninit (n + 1)
      rw [MyLang.parseStatement]
      refine Returns.seq fun _ => Returns.seq fun current => Returns.ite ?_ (Returns.seq fun _ =>
        Returns.ite ?_ (Returns.ite ?_ (Returns.ite ?_ (Returns.ite parseEnum_returns
        (Returns.ite ?_ ?_)))))
      · rw [parseIterStatement]
        exact Returns.seq fun _ => Returns.seq fun _ =>
          Returns.ite (parseFor_returns h ih) (parseWhile_returns h ih)
      · exact fun ts a ts' ha => isStmt_of_isDecl (parseDeclartion_returns h ha)
      · rw [parseJumpStatement, parseReturn]
        exact Returns.seq fun _ => Returns.bind h fun e he => Returns.seq fun _ => Returns.pure he
      · exact parseIfElseStatement_returns h ih
      · intro ts a ts' ha
        obtain ⟨body, rfl, hb⟩ := parseCompStmt_returns ih ha
        exact hb
      · rw [parseExpressionStatement]
        exact Returns.bind h fun e he => Returns.seq fun _ => Returns.pure he

end Statements

/-! ### Programs

The loop stops at the first function that is none.
-/

/-- **The parser returns a list of function definitions.** -/
theorem parse_isFuncDef {uninit : Int} {tokens rest : List Token} {prog : List AstNode}
    (h : parse uninit tokens = .ok (prog, rest)) : ∀ n ∈ prog, n.isFuncDef = true := by
  have hdef : Returns (parseFuncDef (MyLang.parseStatement uninit (tokens.length + 1)))
      fun n => n.isFuncDef = true := by
    rw [parseFuncDef]
    refine Returns.seq fun _ => Returns.seq fun _ => Returns.seq fun _ => Returns.seq fun _ =>
      Returns.seq fun _ => Returns.seq fun _ => Returns.seq fun _ => Returns.seq fun _ =>
      Returns.bind (parseCompStmt_returns (parseStatement_returns uninit _)) ?_
    rintro _ ⟨body, rfl, hb⟩
    exact Returns.pure hb
  have hprog : ∀ (n : Nat) (prog : List AstNode), (∀ a ∈ prog, a.isFuncDef = true) →
      Returns (parseProg (MyLang.parseStatement uninit (tokens.length + 1)) n prog)
        fun l => ∀ a ∈ l, a.isFuncDef = true := by
    intro n
    induction n with
    | zero => intro prog _; exact Returns.throw
    | succ n ih =>
        intro prog hprog
        rw [parseProg]
        refine Returns.seq fun cur => ?_
        cases cur with
        | none => exact Returns.pure hprog
        | some current =>
            refine Returns.bind hdef fun s hst => ih _ ?_
            intro a ha
            rcases List.mem_append.mp ha with ha | ha
            · exact hprog a ha
            · rw [List.mem_singleton.mp ha, hst]
  exact hprog _ [] (by simp) h

end MyLang
