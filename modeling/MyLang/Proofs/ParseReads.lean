/-
The parser of expressions follows the automaton of the grammar.

Each parse function turns the symbol that stands for it into nothing, whatever lies below,
and where it stops instead the automaton stops too: it refuses the token `expect`
complains about, and a missing token is one a symbol of its stack needs.  The bound on the
recursion never shows.

The ten levels of binary operators are one symbol, `ops`.  A level leaves it on the stack,
since a later level may still take an operator; after the last one the next token is none.

`Reads` (`Lib/PushDown.lean`) is the relation, with the symbols that a function takes off
the stack, those that it puts there, and how many tokens may be left behind it.  The
number of tokens is what the recursion is bounded by: a function that is called again has
a shorter stream before it, so that a bound of one more than the length is enough.

`reads_seq` composes two functions along the stack, and there is a lemma for each
primitive of `parse.c`: a look at the current token, `next_token`, `expect`, and the use
of a token that may not be there.
-/
import MyLang.Grammar
import MyLang.Proofs.ParseStep
import MyLang.Turns

namespace MyLang

open StateExcept PushDown PushDown.Automaton

variable {α β : Type} {ts ts' : TokenStream} {t u : Token} {n k N : Nat} {s s' s1 stack : List Sym}

/-- `PushDown.Reads` for the grammar. -/
abbrev PReads (p : Parser α) (s s' : List Sym) (ts : TokenStream) (n : Nat) : Prop :=
  Reads grammar ParseError.verdict p s s' ts n

/-! ### Reactions

The entries of the table that are used, and what two lists of items have in common.
-/

theorem react_tok {ty : TokenType} (h : t.type = ty) : grammar.react (.tok ty) t = .take [] :=
  if_pos h

theorem react_name (h : t.type = .ident) : grammar.react .name t = .take [] := if_pos h

theorem react_primary_ident (h : t.type = .ident) :
    grammar.react .primary t = .take [.operandName] := by
  simp [grammar, Sym.react, Sym.reactPrimary, h]

theorem react_unary_not (h : t.type = .not) : grammar.react .unary t = .take [.primary] := if_pos h

theorem react_ops (h : isBinaryOp t.type = true) :
    grammar.react .ops t = .take [.unary, .ops] := if_pos h

theorem react_expr_ident (h : t.type = .ident) : grammar.react .expr t = .take [.exprName] :=
  if_pos h

theorem react_exprName_assign (h : t.type = .assign) :
    grammar.react .exprName t = .take [.expr] := if_pos h

/--
What stands between the items of a list: a comma and the next ones, or the closing
parenthesis.
-/
def IsTail (x items : Sym) : Prop :=
  ∀ t : Token, grammar.react x t =
    if t.type = .rparen then .leave else if t.type = .comma then .take [items] else .refuse

theorem argsTail_isTail : IsTail .argsTail .args := by
  intro t
  unfold grammar Sym.react Sym.reactArgsTail
  dsimp only
  split <;> simp_all

theorem paramTail_isTail : IsTail .paramTail .params := by
  intro t
  unfold grammar Sym.react Sym.reactParamTail
  dsimp only
  split <;> simp_all

theorem IsTail.verdict_end {x items : Sym} (hx : IsTail x items) (h : t.type = .rparen) :
    grammar.verdict (x :: stack) (t :: ts) = grammar.verdict stack (t :: ts) :=
  verdict_leave ((hx t).trans (if_pos h))

theorem IsTail.verdict_more {x items : Sym} (hx : IsTail x items) (h : t.type ≠ .rparen) :
    grammar.verdict (x :: stack) (t :: ts)
      = grammar.verdict (.tok .comma :: items :: stack) (t :: ts) := by
  have hreact := hx t
  rw [if_neg h] at hreact
  by_cases hc : t.type = .comma
  · rw [if_pos hc] at hreact
    rw [verdict_take hreact, verdict_take (react_tok hc)]
    rfl
  · rw [if_neg hc] at hreact
    rw [verdict_refuse hreact, verdict_refuse (if_neg hc)]

/-! ### Primitives

A primitive reads one symbol or none.
-/

section Primitives

variable {p : Parser β} {f : Option Token → Parser α}

theorem reads_currentToken : PReads (currentToken >>= f) s s' ts n ↔
    PReads (f ts.head?) s s' ts n :=
  Iff.rfl

theorem reads_get {f : TokenStream → Parser α} :
    PReads (get >>= f) s s' ts n ↔ PReads (f ts) s s' ts n :=
  Iff.rfl

theorem reads_deref_some {f : Token → Parser α} :
    PReads (deref (some t) >>= f) s s' ts n ↔ PReads (f t) s s' ts n :=
  Iff.rfl

/-- A missing token is looked into where a symbol needs one. -/
theorem reads_deref_none {f : Token → Parser α} {x : Sym} (h : x.needs = true) :
    PReads (deref none >>= f) (x :: s) s' [] n :=
  Reads.of_error rfl fun _ => congrArg some (verdict_needs h).symm

/-- A lookahead that returns leaves the stream. -/
theorem reads_look {b : β} {f : β → Parser α} (h : p ts = .ok (b, ts))
    (hf : PReads (f b) s s' ts n) : PReads (p >>= f) s s' ts n := by
  refine Reads.of_run hf ?_ fun _ => rfl
  change (p ts >>= fun q => f q.1 q.2) = _
  rw [h]
  rfl

/-- A lookahead that misses a token stops where the automaton needs one. -/
theorem reads_look_missing {f : β → Parser α} (h : p ts = .error .nullToken)
    (hv : ∀ stack, grammar.verdict (s ++ stack) ts = .cut) : PReads (p >>= f) s s' ts n := by
  refine Reads.of_error (bind_eq_error.mpr (Or.inl h)) fun stack => ?_
  rw [hv]
  rfl

/-- A token is taken. -/
theorem reads_nextToken {f : Unit → Parser α} {x : Sym} {push : List Sym}
    (h : x.react t.type = .take push) (hf : PReads (f ()) (push ++ s) s' ts n) :
    PReads (nextToken >>= f) (x :: s) s' (t :: ts) n :=
  Reads.of_run hf rfl fun stack => by
    rw [List.cons_append, verdict_take h, List.append_assoc]

/-- `expect` takes a token of its type, refuses another, and returns where there is none. -/
theorem reads_expect {ty : TokenType} : PReads (expect ty) [.tok ty] [] ts (ts.length - 1) := by
  cases ts with
  | nil => exact Reads.of_ok rfl (Nat.le_refl 0) fun _ => verdict_nil rfl
  | cons t ts =>
      by_cases h : t.type = ty
      · have hrun : expect ty (t :: ts) = .ok (some t, ts) := by
          simp only [expect, currentToken_bind, List.head?_cons]
          rw [if_pos h]
          rfl
        refine Reads.of_ok hrun (by simp) fun stack => ?_
        exact verdict_take (react_tok h)
      · have hrun : expect ty (t :: ts) = .error (.expectedToken ty t.line t.pos t.type) := by
          simp only [expect, currentToken_bind, List.head?_cons]
          rw [if_neg h]
          rfl
        refine Reads.of_error hrun fun stack => ?_
        rw [List.cons_append, verdict_refuse (if_neg h)]
        rfl

/-- Another stack that is read the same way. -/
theorem reads_as (s1 : List Sym)
    (h : ∀ stack, grammar.verdict (s ++ stack) ts = grammar.verdict (s1 ++ stack) ts)
    (hp : PReads p s1 s' ts n) : PReads p s s' ts n :=
  hp.congr h

/-- One parse function, and then what follows it. -/
theorem reads_seq {x : Sym} {f : β → Parser α} (hp : PReads p [x] [] ts k)
    (hf : ∀ b ts', p ts = .ok (b, ts') → ts'.length ≤ k → PReads (f b) s s' ts' n) :
    PReads (p >>= f) (x :: s) s' ts n :=
  Reads.bind (hp.frame s) hf

theorem reads_expect_seq {ty : TokenType}
    (hf : ∀ o ts', ts'.length ≤ ts.length - 1 → PReads (f o) s s' ts' n) :
    PReads (expect ty >>= f) (.tok ty :: s) s' ts n :=
  reads_seq reads_expect fun o ts' _ hk => hf o ts' hk

/-- A token of the type that is expected is there. -/
theorem reads_expect_here {ty : TokenType} {x : Sym} {push : List Sym} (ht : t.type = ty)
    (h : x.react t.type = .take push) (hf : PReads (f (some t)) (push ++ s) s' ts n) :
    PReads (expect ty >>= f) (x :: s) s' (t :: ts) n :=
  Reads.of_run hf (expect_cons_bind ht) fun stack => by
    rw [List.cons_append, verdict_take h, List.append_assoc]

/-- A token of another type stops the parser, and is refused. -/
theorem reads_expect_other {ty : TokenType} {x : Sym} (ht : t.type ≠ ty)
    (h : x.react t.type = .refuse) : PReads (expect ty >>= f) (x :: s) s' (t :: ts) n := by
  have hrun : (expect ty >>= f) (t :: ts) = .error (.expectedToken ty t.line t.pos t.type) := by
    simp only [expect, bind_assoc, currentToken_bind, List.head?_cons]
    rw [if_neg ht]
    rfl
  refine Reads.of_error hrun fun stack => ?_
  rw [List.cons_append, verdict_refuse h]
  rfl

/-- A name whose text is used is looked into at once. -/
theorem reads_name {f : Token → Parser α}
    (hf : ∀ t ts', ts'.length ≤ ts.length - 1 → PReads (f t) s s' ts' n) :
    PReads (expect .ident >>= fun o => deref o >>= f) (.name :: s) s' ts n := by
  cases ts with
  | nil => exact Reads.of_error rfl fun _ => congrArg some (verdict_needs rfl).symm
  | cons t ts =>
      by_cases h : t.type = .ident
      · exact reads_expect_here h (if_pos h) (hf t ts (by simp))
      · exact reads_expect_other h (if_neg h)

end Primitives

/-! ### Operands

An operand is told by its first token, and a name by the token behind it as well.
-/

section Expressions

variable {uninit : Int} {parseExpression : Parser AstNode}

/-- An expression is read from every stream of fewer than `N` tokens. -/
abbrev ReadsExpr (N : Nat) (p : Parser AstNode) : Prop :=
  ∀ ⦃ts : TokenStream⦄, ts.length < N → PReads p [.expr] [] ts ts.length

/-- An argument, if there is one, is an expression. -/
theorem verdict_args (h : t.type ≠ .rparen) :
    grammar.verdict (.args :: stack) (t :: ts)
      = grammar.verdict (.expr :: .argsTail :: stack) (t :: ts) :=
  verdict_over (y := Sym.expr) (z := Sym.argsTail) (if_neg h) fun _ => rfl

theorem verdict_args_end (h : t.type = .rparen) :
    grammar.verdict (.args :: stack) (t :: ts) = grammar.verdict stack (t :: ts) :=
  verdict_leave (if_pos h)

/-- One argument, and the comma or the parenthesis behind it. -/
theorem argsTurn_reads (hE : ReadsExpr N parseExpression)
    {next : List AstNode → Parser (List AstNode)} (hnext : ∀ args ts', ts'.length < ts.length →
      PReads (next args) [.args] [] ts' ts'.length) (args : List AstNode) (hN : ts.length < N) :
    PReads (argsTurn parseExpression next args) [.args] [] ts ts.length := by
  rw [argsTurn, reads_currentToken]
  cases ts with
  | nil => exact reads_deref_none rfl
  | cons t ts =>
      rw [List.head?_cons, reads_deref_some]
      by_cases ht : t.type = .rparen
      · rw [if_pos ht]
        exact Reads.of_ok rfl (Nat.le_refl _) fun _ => verdict_args_end ht
      · rw [if_neg ht]
        refine reads_as [.expr, .argsTail] (fun _ => verdict_args ht) ?_
        refine reads_seq (hE hN) fun expr ts' _ hk => ?_
        rw [reads_currentToken]
        cases ts' with
        | nil => exact reads_deref_none rfl
        | cons u us =>
            rw [List.head?_cons, reads_deref_some]
            by_cases hu : u.type = .rparen
            · rw [if_pos hu]
              exact Reads.of_ok rfl hk fun _ => argsTail_isTail.verdict_end hu
            · rw [if_neg hu]
              refine reads_as [.tok .comma, .args] (fun _ => argsTail_isTail.verdict_more hu) ?_
              have hk' : us.length ≤ ts.length := Nat.le_of_succ_le_succ hk
              rw [List.length_cons] at hnext ⊢
              refine reads_expect_seq fun _ ts' hts' => ?_
              have hts : ts'.length ≤ us.length := hts'
              exact (hnext _ _ (by omega)).mono (by omega)

theorem parseArgs_reads (hE : ReadsExpr N parseExpression) (args : List AstNode)
    (hn : ts.length < n) (hN : ts.length < N) :
    PReads (parseArgs parseExpression n args) [.args] [] ts ts.length :=
  (parseArgs_isLoop parseExpression).induct (R := fun p ts => PReads p [.args]
    [] ts ts.length) List.length (fun _ args _ hN hnext => argsTurn_reads hE hnext args hN) hn hN

/-- A call, from its name on. -/
theorem parseFuncCall_reads (hE : ReadsExpr N parseExpression) (ht : t.type = .ident)
    (hu : u.type = .lparen) (hN : ts.length < N) :
    PReads (parseFuncCall parseExpression) [.primary] [] (t :: u :: ts) ts.length := by
  refine reads_expect_here ht (react_primary_ident ht) ?_
  rw [reads_deref_some]
  refine reads_expect_here hu (if_pos hu) ?_
  rw [reads_get]
  refine reads_seq (parseArgs_reads hE [] (by omega) hN) fun args ts' _ hk => ?_
  refine reads_expect_seq fun _ ts' hk' => ?_
  exact Reads.pure (by omega)

/-- An identifier that is an operand, alone or as the name of a call. -/
theorem parseIdent_reads (hE : ReadsExpr N parseExpression) (ht : t.type = .ident)
    (hN : ts.length < N) :
    PReads (parseIdent parseExpression) [.primary] [] (t :: ts) ts.length := by
  unfold parseIdent
  rw [reads_currentToken, List.head?_cons, reads_deref_some]
  cases ts with
  | nil =>
      refine reads_look_missing ?_ fun stack => ?_
      · simp only [isFuncCallStart, currentToken_bind, peek_bind, List.head?_cons, deref_some_bind]
        rw [if_pos ht]
        rfl
      · rw [List.cons_append, verdict_take (react_primary_ident ht)]
        exact verdict_needs rfl
  | cons u ts =>
      refine reads_look (isFuncCallStart_eq_ok.mpr
        ⟨rfl, t, _, rfl, Or.inr ⟨ht, u, ts, rfl, rfl⟩⟩) ?_
      rw [List.length_cons] at hN ⊢
      by_cases hu : u.type = .lparen
      · rw [if_pos (decide_eq_true hu)]
        exact (parseFuncCall_reads hE ht hu (by omega)).mono (by omega)
      · rw [if_neg (by simpa using hu)]
        refine reads_nextToken (react_primary_ident ht) ?_
        exact Reads.of_ok rfl (Nat.le_refl _) fun stack => verdict_leave (if_neg hu)

/-- An operand: a number, a name, a call, or an expression in parentheses. -/
theorem parsePrimaryExpression_reads (hE : ReadsExpr N parseExpression) (hN : ts.length ≤ N) :
    PReads (parsePrimaryExpression uninit parseExpression) [.primary] [] ts ts.length := by
  unfold parsePrimaryExpression
  rw [reads_currentToken]
  cases ts with
  | nil => exact Reads.of_ok rfl (Nat.le_refl _) fun _ => verdict_nil rfl
  | cons t ts =>
      rw [List.head?_cons]
      dsimp only
      rw [List.length_cons] at hN ⊢
      by_cases hnum : t.type = .num
      · rw [if_pos hnum]
        have hreact : grammar.react .primary t = .take [] := by
          simp [grammar, Sym.react, Sym.reactPrimary, hnum]
        refine reads_nextToken hreact ?_
        cases str2int t.value <;> exact Reads.pure (Nat.le_succ _)
      rw [if_neg hnum]
      by_cases hident : t.type = .ident
      · rw [if_pos hident]
        exact (parseIdent_reads hE hident (by omega)).mono (Nat.le_succ _)
      rw [if_neg hident]
      by_cases hlparen : t.type = .lparen
      · rw [if_pos hlparen]
        have hreact : grammar.react .primary t = .take [.expr, .tok .rparen] := by
          simp [grammar, Sym.react, Sym.reactPrimary, hlparen]
        refine reads_nextToken hreact ?_
        refine reads_seq (hE (by omega)) fun ret ts' _ hk => ?_
        refine reads_expect_seq fun _ ts'' hk' => Reads.pure ?_
        omega
      rw [if_neg hlparen]
      refine Reads.of_ok rfl (Nat.le_refl _) fun stack => verdict_leave ?_
      unfold grammar Sym.react Sym.reactPrimary
      dsimp only
      split
      · contradiction
      · contradiction
      · contradiction
      · rfl

/-- An operand, with or without `!`. -/
theorem parseUnaryExpression_reads (hE : ReadsExpr N parseExpression) (hN : ts.length ≤ N) :
    PReads (parseUnaryExpression uninit parseExpression) [.unary] [] ts ts.length := by
  unfold parseUnaryExpression
  rw [reads_currentToken]
  cases ts with
  | nil => exact reads_deref_none rfl
  | cons t ts =>
      rw [List.head?_cons, reads_deref_some]
      by_cases ht : t.type = .not
      · have hop : isUnaryOp t.type = true := by simp [isUnaryOp, ht]
        rw [if_pos hop]
        refine reads_nextToken (react_unary_not ht) ?_
        refine reads_seq (x := .primary) (parsePrimaryExpression_reads hE ?_) fun e ts' _ hk => ?_
        · exact Nat.le_trans (Nat.le_succ _) hN
        · exact Reads.pure (Nat.le_trans hk (Nat.le_succ _))
      · have hop : isUnaryOp t.type ≠ true := by simpa [isUnaryOp] using ht
        rw [if_neg hop]
        exact reads_as [.primary] (fun _ => verdict_same (if_neg ht))
          (parsePrimaryExpression_reads hE hN)

/-! ### Binary operators

That a later operator is left for its own level is the condition `StopsBefore`.
-/

/-- What a parse function returns in front of is not one of these operators. -/
def StopsBefore (p : Parser AstNode) (isOp : TokenType → Bool) : Prop :=
  ∀ ⦃ts a ts'⦄, p ts = .ok (a, ts') → ∀ t ∈ ts'.head?, isOp t.type = false

/-- A level of binary operators: it leaves `ops`, and stops before its operators. -/
structure ReadsLevel (N : Nat) (p : Parser AstNode) (isOp : TokenType → Bool) : Prop where
  reads : ∀ ⦃ts : TokenStream⦄, ts.length ≤ N → PReads p [.unary, .ops] [.ops] ts ts.length
  stops : StopsBefore p isOp

variable {isOp isOp' : TokenType → Bool} {operand : Parser AstNode}

/-- An operator of the level and its right operand. -/
theorem binaryTurn_reads (h : ReadsLevel N operand isOp)
    (hop : ∀ t, isOp' t = true → isBinaryOp t = true) {next : AstNode → Parser AstNode}
    (hnext : ∀ left ts', ts'.length < ts.length → PReads (next left) [.ops] [.ops] ts' ts'.length)
    (left : AstNode) (hN : ts.length ≤ N) :
    PReads (binaryTurn operand isOp' next left) [.ops] [.ops] ts ts.length := by
  rw [binaryTurn, reads_currentToken]
  cases ts with
  | nil => exact Reads.pure (Nat.le_refl _)
  | cons t ts =>
      rw [List.head?_cons]
      dsimp only
      rw [List.length_cons] at hnext hN ⊢
      by_cases ht : isOp' t.type = true
      · rw [if_pos ht]
        refine reads_nextToken (react_ops (hop _ ht)) ?_
        refine Reads.bind (h.reads (by omega)) fun right ts' _ hk => ?_
        exact (hnext _ _ (by omega)).mono (by omega)
      · rw [if_neg ht]
        exact Reads.pure (Nat.le_refl _)

/-- The loop of a level takes its operators one by one. -/
theorem binaryLoop_reads (h : ReadsLevel N operand isOp)
    (hop : ∀ t, isOp' t = true → isBinaryOp t = true) (left : AstNode)
    (hn : ts.length < n) (hN : ts.length ≤ N) :
    PReads (binaryLoop isOp' operand n left) [.ops] [.ops] ts ts.length :=
  (binaryLoop_isLoop operand isOp').induct (R := fun p ts => PReads p [.ops]
    [.ops] ts ts.length) List.length
    (fun _ left _ hN hnext => binaryTurn_reads h hop hnext left (Nat.le_of_lt_succ hN)) hn
    (Nat.lt_succ_of_le hN)

/-- The loop stops before a token that is no operator of its level. -/
theorem binaryLoop_stops (h : StopsBefore operand isOp) {left a : AstNode}
    (hts : ∀ t ∈ ts.head?, isOp t.type = false)
    (hrun : binaryLoop isOp' operand n left ts = .ok (a, ts')) :
    ∀ t ∈ ts'.head?, (isOp t.type || isOp' t.type) = false := by
  induction n generalizing ts left with
  | zero => simp [binaryLoop] at hrun
  | succ n ih =>
      rw [binaryLoop, currentToken_bind] at hrun
      cases ts with
      | nil =>
          obtain ⟨-, rfl⟩ := pure_eq_ok.mp hrun
          simp
      | cons t ts =>
          rw [List.head?_cons] at hrun
          dsimp only at hrun
          by_cases ht : isOp' t.type = true
          · rw [if_pos ht, nextToken_bind, List.tail_cons, bind_eq_ok] at hrun
            obtain ⟨right, ts1, hright, hrun⟩ := hrun
            exact ih (h hright) hrun
          · rw [if_neg ht] at hrun
            obtain ⟨-, rfl⟩ := pure_eq_ok.mp hrun
            intro u hu
            obtain rfl : t = u := by simpa using hu
            rw [hts t hu, Bool.false_or]
            simpa using ht

/--
**A level of binary operators reads operands and operators, and leaves the later levels
theirs.**
-/
theorem ReadsLevel.next (isOp' : TokenType → Bool) (h : ReadsLevel N operand isOp)
    (hop : ∀ t, isOp' t = true → isBinaryOp t = true) :
    ReadsLevel N (binaryLevel isOp' operand) fun t => isOp t || isOp' t where
  reads ts hN := by
    refine Reads.bind (h.reads hN) fun left ts' _ hk => reads_get.mpr ?_
    exact (binaryLoop_reads h hop left (Nat.lt_succ_self _) (Nat.le_trans hk hN)).mono hk
  stops ts a ts' hrun := by
    rw [binaryLevel, bind_eq_ok] at hrun
    obtain ⟨left, ts1, hleft, hrun⟩ := hrun
    rw [get_bind_apply] at hrun
    exact binaryLoop_stops h.stops (h.stops hleft) hrun

/-- The operands of the first level. -/
theorem parseCastExpression_level (hE : ReadsExpr N parseExpression) :
    ReadsLevel N (parseCastExpression uninit parseExpression) fun _ => false where
  reads _ hN := Reads.frame [Sym.ops] (parseUnaryExpression_reads hE hN)
  stops _ _ _ _ _ _ := rfl

/--
Every level has operators of the language, and operands that stop before those of the levels
before.
-/
theorem binaryLevels_read (hE : ReadsExpr N parseExpression) :
    ReadsLevel N (parseConditionalExpression uninit parseExpression) isBinaryOp ∧
      ∀ level ∈ binaryLevels uninit parseExpression,
        (∃ isOp, ReadsLevel N level.2 isOp) ∧ ∀ t, level.1 t = true → isBinaryOp t = true := by
  have h : ReadsLevel N (parseCastExpression uninit parseExpression) fun _ => false :=
    parseCastExpression_level hE
  have hops : ∀ level ∈ binaryLevels uninit parseExpression, ∀ t, level.1 t = true →
      isBinaryOp t = true := by
    simp only [binaryLevels, List.forall_mem_cons]
    refine ⟨?_, ?_, ?_, ?_, ?_, ?_, ?_, ?_, ?_, ?_, by simp⟩ <;> simp +contextual [isBinaryOp]
  have hop := hops
  simp only [binaryLevels, List.forall_mem_cons] at hop
  obtain ⟨o1, o2, o3, o4, o5, o6, o7, o8, o9, o10, -⟩ := hop
  have h1 := h.next isMultiplicativeOp o1
  have h2 := h1.next isAdditiveOp o2
  have h3 := h2.next isShiftOp o3
  have h4 := h3.next isRelationalOp o4
  have h5 := h4.next isEqualityOp o5
  have h6 := h5.next (· = .and) o6
  have h7 := h6.next (· = .xor) o7
  have h8 := h7.next (· = .or) o8
  have h9 := h8.next (· = .logAnd) o9
  have h10 := h9.next (· = .logOr) o10
  refine ⟨h10, fun level hl => ⟨?_, hops level hl⟩⟩
  simp only [binaryLevels, List.mem_cons, List.not_mem_nil, or_false] at hl
  rcases hl with rfl | rfl | rfl | rfl | rfl | rfl | rfl | rfl | rfl | rfl
  · exact ⟨_, h⟩
  · exact ⟨_, h1⟩
  · exact ⟨_, h2⟩
  · exact ⟨_, h3⟩
  · exact ⟨_, h4⟩
  · exact ⟨_, h5⟩
  · exact ⟨_, h6⟩
  · exact ⟨_, h7⟩
  · exact ⟨_, h8⟩
  · exact ⟨_, h9⟩

/-- After the last level no operator is left. -/
theorem parseConditionalExpression_reads (hE : ReadsExpr N parseExpression) (hN : ts.length ≤ N) :
    PReads (parseConditionalExpression uninit parseExpression) [.unary, .ops] [] ts ts.length := by
  have hlevel : ReadsLevel N (parseConditionalExpression uninit parseExpression) isBinaryOp :=
    (binaryLevels_read hE).1
  have hreads := hlevel.reads hN
  cases hrun : parseConditionalExpression uninit parseExpression ts with
  | error e => exact Reads.of_error hrun (hreads.error hrun)
  | ok p =>
      obtain ⟨a, ts'⟩ := p
      obtain ⟨hk, hv⟩ := hreads.ok hrun
      refine Reads.of_ok hrun hk fun stack => (hv stack).trans ?_
      have hstop := hlevel.stops hrun
      cases ts' with
      | nil => exact verdict_nil rfl
      | cons t ts' =>
          refine verdict_leave (if_neg ?_)
          simp [hstop t rfl]

/-! ### Expressions

Two tokens decide whether an expression is an assignment.
-/

theorem isVarAsgn_missing (ht : t.type = .ident) : isVarAsgn [t] = .error .nullToken := by
  simp only [isVarAsgn, currentToken_bind, peek_bind, List.head?_cons, deref_some_bind]
  rw [if_pos ht]
  rfl

/-- An assignment, from its variable on. -/
theorem parseVarAsgn_reads (hE : ReadsExpr N parseExpression) (ht : t.type = .ident)
    (hu : u.type = .assign) (hN : ts.length < N) :
    PReads (parseVarAsgn parseExpression) [.expr] [] (t :: u :: ts) ts.length := by
  have hident : parseIdent parseExpression (t :: u :: ts) = .ok (.ident t.value none, u :: ts) := by
    simp only [parseIdent, currentToken_bind, List.head?_cons, deref_some_bind]
    refine bind_eq_ok.mpr ⟨false, t :: u :: ts, isFuncCallStart_eq_ok.mpr
      ⟨rfl, t, _, rfl, Or.inr ⟨ht, u, ts, rfl, by simp [hu]⟩⟩, rfl⟩
  have hname : PReads (parseIdent parseExpression) [.expr] [.exprName] (t :: u :: ts)
      (ts.length + 1) :=
    Reads.of_ok hident (Nat.le_refl _) fun _ => verdict_take (if_pos ht)
  refine Reads.bind hname fun identNode ts' hrun _ => ?_
  obtain ⟨-, rfl⟩ : identNode = _ ∧ ts' = u :: ts := by simpa [hident, eq_comm] using hrun
  refine reads_expect_here hu (react_exprName_assign hu) ?_
  exact reads_seq (hE hN) fun rval ts' _ hk => Reads.pure hk

end Expressions

/-- An expression is read if the expressions in it are. -/
theorem expressionBody_reads {uninit : Int} {self : Parser AstNode} (hE : ReadsExpr n self)
    (hN : ts.length ≤ n) : PReads (expressionBody uninit self) [.expr] [] ts ts.length := by
  rw [expressionBody]
  cases ts with
  | nil =>
      exact reads_look_missing rfl fun _ => verdict_needs rfl
  | cons t ts =>
      by_cases ht : t.type = .ident
      · cases ts with
        | nil =>
            refine reads_look_missing (isVarAsgn_missing ht) fun stack => ?_
            rw [List.cons_append, verdict_take (react_expr_ident ht)]
            exact verdict_needs rfl
        | cons u ts =>
            refine reads_look (isVarAsgn_eq_ok.mpr
              ⟨rfl, t, _, rfl, Or.inr ⟨ht, u, ts, rfl, rfl⟩⟩) ?_
            by_cases hu : u.type = .assign
            · rw [if_pos (decide_eq_true hu)]
              simp only [List.length_cons] at hN ⊢
              exact (parseVarAsgn_reads hE ht hu (by omega)).mono (by omega)
            · rw [if_neg (by simpa using hu)]
              refine reads_as [.unary, .ops] (fun stack => ?_)
                (parseConditionalExpression_reads hE hN)
              have hunary : grammar.react .unary t = .take [.operandName] := by
                rw [← react_primary_ident ht]
                exact if_neg (by simp [ht])
              simp only [List.cons_append, List.nil_append]
              rw [verdict_take (react_expr_ident ht), verdict_take hunary]
              exact verdict_over (y := Sym.operandName) (if_neg hu) fun _ => rfl
      · refine reads_look (isVarAsgn_eq_ok.mpr ⟨rfl, t, _, rfl, Or.inl ⟨ht, rfl⟩⟩) ?_
        rw [if_neg (by simp)]
        exact reads_as [.unary, .ops] (fun _ => verdict_over (if_neg ht) fun _ => rfl)
          (parseConditionalExpression_reads hE hN)

/-- **An expression is read by its symbol.** -/
theorem parseExpression_reads (uninit : Int) (n : Nat) :
    ReadsExpr n (parseExpression uninit n) := by
  induction n with
  | zero => intro ts hN; omega
  | succ n ih => exact fun ts hN => expressionBody_reads ih (Nat.le_of_lt_succ hN)

end MyLang
