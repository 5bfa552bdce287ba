/-
Programs as they are written.

`render` writes a tree as a list of pieces.  An expression stands at one of the levels
of the grammar: 0 for what `parse_postfix_expression` reads, 1 for `!`, 2 to 11 for the
binary operators from `*` down to `||`, 12 for an assignment.  It is put in
parentheses exactly where it stands at a tighter level than its own.  The right
operand of a binary operator stands one level tighter than the operator, the left one
at its level, so that operators of one level need none to the left.

`notLevel` is the level the operand of `!` stands at: 1 in C, where `!!a` is an
expression, and 0 in `parse_unary_expression`.
-/
import MyLang.Lexing
import MyLang.Parse

namespace MyLang

/-- A token without its place: the type and the text. -/
abbrev Piece := TokenType × String

/-- What a token says, wherever it stands. -/
def Token.piece (t : Token) : Piece := (t.type, t.value)

/-- A token type that is written in only one way. -/
def punct (ty : TokenType) : Piece :=
  match spellings.find? (fun p => decide (p.2 = ty)), keywords.find? (fun p => decide (p.2 = ty))
    with
  | some p, _ => (ty, String.ofList p.1)
  | none, some p => (ty, p.1)
  | none, none => (ty, "")

/-- Lists with commas between them. -/
def commas : List (List Piece) → List Piece
  | [] => []
  | lex :: rest => lex ++ rest.flatMap fun lex => punct .comma :: lex

theorem commas_tail (lex : List Piece) (rest : List (List Piece)) :
    ((lex :: rest).flatMap fun lex => punct .comma :: lex)
      = punct .comma :: commas (lex :: rest) := by
  rw [List.flatMap_cons, List.cons_append, commas]

/-- The level of a binary operator. -/
def opLevel : TokenType → Nat
  | .mult | .div => 2
  | .add | .sub => 3
  | .lshift | .rshift => 4
  | .gt | .lt | .gtEq | .ltEq => 5
  | .notEqual | .equal => 6
  | .and => 7
  | .xor => 8
  | .or => 9
  | .logAnd => 10
  | .logOr => 11
  | _ => 12

/-- What has the level `own` where the grammar has the level `level`. -/
def atLevel (level own : Nat) (lex : List Piece) : List Piece :=
  if own ≤ level then lex else punct .lparen :: (lex ++ [punct .rparen])

namespace AstNode

/-- The level of an expression. -/
def level : AstNode → Nat
  | .unaryExpr .. => 1
  | .binExp _ opType _ _ => opLevel opType
  | .varAsgn .. => 12
  | _ => 0

/-- Declarations end with a semicolon of their own. -/
def isDeclaration : AstNode → Bool
  | .varDec .. => true
  | .varDef .. => true
  | _ => false

mutual

/-- A tree as it is written. -/
def render (notLevel : Nat) : AstNode → List Piece
  | .intConst value => [(.num, Nat.repr value.toNat)]
  | .ident value _ => [(.ident, value)]
  | .funcCall value args _ =>
      (.ident, value) :: punct .lparen :: (commas (renderList notLevel args) ++ [punct .rparen])
  | .binExp value opType left right =>
      atLevel (opLevel opType) left.level (left.render notLevel) ++
        (opType, value) :: atLevel (opLevel opType - 1) right.level (right.render notLevel)
  | .unaryExpr postfixExpr value opType =>
      (opType, value) :: atLevel notLevel postfixExpr.level (postfixExpr.render notLevel)
  | .varAsgn target rval => target.render notLevel ++ punct .assign :: rval.render notLevel
  | .lval _ target => target.render notLevel
  | .emptyExpr => []
  | .varDec value type _ => [(.type, type), (.ident, value), punct .semicolon]
  | .varDef value type expr _ =>
      (.type, type) :: (.ident, value) :: punct .assign :: (expr.render notLevel
        ++ [punct .semicolon])
  | .exprStmt expr => expr.render notLevel ++ [punct .semicolon]
  | .ret expr _ => punct .return_ :: (expr.render notLevel ++ [punct .semicolon])
  | .ifElse ifExpr ifBody elseBody =>
      punct .if_ :: punct .lparen :: (ifExpr.render notLevel
        ++ punct .rparen :: (ifBody.render notLevel ++
        if elseBody.nonNull then punct .else_ :: elseBody.render notLevel else []))
  | .while_ expr body =>
      punct .while_ :: punct .lparen :: (expr.render notLevel
        ++ punct .rparen :: body.render notLevel)
  | .for_ init cond step body =>
      punct .for_ :: punct .lparen ::
        ((init.render notLevel ++ if init.isDeclaration then [] else [punct .semicolon]) ++
          (cond.render notLevel ++ punct .semicolon ::
            (step.render notLevel ++ punct .rparen :: body.render notLevel)))
  | .enum value enums =>
      punct .enum :: (.ident, value) :: punct .lbrace ::
        (commas (enums.map fun name => [(.ident, name)]) ++ [punct .rbrace, punct .semicolon])
  | .compStmt body => punct .lbrace :: ((renderList notLevel body).flatten ++ [punct .rbrace])
  | .funcDef value type body params _ =>
      (.type, type) :: (.ident, value) :: punct .lparen ::
        (commas (params.map fun p => [(.type, p.type), (.ident, p.value)]) ++
          punct .rparen :: body.render notLevel)
  | .null => []
termination_by structural node => node

/-- The elements of a list as they are written. -/
def renderList (notLevel : Nat) : List AstNode → List (List Piece)
  | [] => []
  | node :: rest => node.render notLevel :: renderList notLevel rest
termination_by structural nodes => nodes

end

/-! ### Well-formed programs

What can be written so that it is read back, which excludes holes, operators the parser
does not know, and an `else` that would be taken for another one's.
-/

/-- The target of an assignment: a name. -/
def isTarget : AstNode → Bool
  | .lval .ident (.ident _ _) => true
  | _ => false

mutual

/-- Expressions without holes. -/
def exprWF : AstNode → Bool
  | .intConst value => decide (0 ≤ value) && decide (value ≤ intMax)
  | .ident _ _ => true
  | .funcCall _ args _ => exprsWF args
  | .binExp _ opType left right => decide (opLevel opType < 12) && left.exprWF && right.exprWF
  | .unaryExpr postfixExpr _ opType => decide (opType = .not) && postfixExpr.exprWF
  | .varAsgn target rval => target.isTarget && rval.exprWF
  | _ => false
termination_by structural node => node

/-- The same for lists. -/
def exprsWF : List AstNode → Bool
  | [] => true
  | node :: rest => node.exprWF && exprsWF rest
termination_by structural nodes => nodes

end

/-- An expression, or none. -/
def optWF (node : AstNode) : Bool := node.isEmptyExpr || node.exprWF

/-- The statement ends with an `if` that an `else` behind it would belong to. -/
def endsOpen : AstNode → Bool
  | .ifElse _ _ elseBody => !elseBody.nonNull || elseBody.endsOpen
  | .while_ _ body => body.endsOpen
  | .for_ _ _ _ body => body.endsOpen
  | _ => false
termination_by structural node => node

mutual

/-- Statements that can be written. -/
def stmtWF : AstNode → Bool
  | .varDec _ _ _ => true
  | .varDef _ _ expr _ => expr.exprWF
  | .exprStmt expr => expr.optWF
  | .ret expr _ => expr.optWF
  | .ifElse ifExpr ifBody elseBody =>
      ifExpr.exprWF && ifBody.stmtWF && (!elseBody.nonNull || (!ifBody.endsOpen && elseBody.stmtWF))
  | .while_ expr body => expr.exprWF && body.stmtWF
  | .for_ init cond step body =>
      ((init.isDeclaration && init.stmtWF) || init.optWF) && cond.optWF && step.optWF && body.stmtWF
  | .enum _ _ => true
  | .compStmt body => stmtsWF body
  | _ => false
termination_by structural node => node

/-- The same for lists. -/
def stmtsWF : List AstNode → Bool
  | [] => true
  | node :: rest => node.stmtWF && stmtsWF rest
termination_by structural nodes => nodes

end

/-- Function definitions whose body is a block. -/
def funcWF : AstNode → Bool
  | .funcDef _ _ (.compStmt body) _ _ => stmtsWF body
  | _ => false

end AstNode

end MyLang
