/-
One turn of each loop of the parser, and one level of its recursion.

What comes after the turn, or is called on the next level, is left open, so that it can be
asked on which streams it is used.  `ParseProgress` asks that of the parse functions as
they are: with everything but shorter streams refused, nothing changes.

A turn is the body of the loop as it stands in `Parse.lean`, with the rest of the loop as
an argument, and the last section says that the loops are made of their turns.  So what is
said of a turn is said of the loop in the source: behind each turn the stream is shorter,
and a function that comes to call itself does so on a shorter stream.
-/
import MyLang.Parse
import MyLang.Lib.Approx

namespace MyLang

open StateExcept

section Turns

variable (uninit : Int) (parseExpression parseStatement operand : Parser AstNode)

/-- A turn of `parseArgs`. -/
def argsTurn (next : List AstNode → Parser (List AstNode)) (args : List AstNode) :
    Parser (List AstNode) := do
  if (← deref (← currentToken)).type = .rparen then
    return args
  let expr ← parseExpression
  if (← deref (← currentToken)).type = .rparen then
    return args ++ [expr]
  let _ ← expect .comma
  next (args ++ [expr])

/-- A turn of `binaryLoop`. -/
def binaryTurn (isOp : TokenType → Bool) (next : AstNode → Parser AstNode) (left : AstNode) :
    Parser AstNode := do
  match ← currentToken with
  | none => return left
  | some current =>
      if isOp current.type then
        nextToken
        let right ← operand
        next (.binExp current.value current.type left right)
      else
        return left

/-- A turn of `parseEnumerators`. -/
def enumeratorsTurn (next : List String → Parser (List String)) (enums : List String) :
    Parser (List String) := do
  match ← currentToken with
  | none => return enums
  | some curr =>
      if curr.type = .rbrace then
        return enums
      let enumIdent ← expect .ident
      let enums := enums ++ [(← deref enumIdent).value]
      match ← currentToken with
      | some curr =>
          if curr.type ≠ .comma then
            return enums
          let _ ← expect .comma
          next enums
      | none =>
          let _ ← expect .comma
          next enums

/-- A turn of `parseStatements`. -/
def statementsTurn (next : List AstNode → Parser (List AstNode)) (body : List AstNode) :
    Parser (List AstNode) := do
  match ← currentToken with
  | none => return body
  | some current =>
      if current.type = .rbrace then
        return body
      let stmt ← parseStatement
      next (body ++ [stmt])

/-- A turn of `parseFuncParams`. -/
def funcParamsTurn (next : List Param → Parser (List Param)) (params : List Param) :
    Parser (List Param) := do
  match ← currentToken with
  | none => return params
  | some current =>
      if current.type ≠ .type then
        return params
      let paramType ← expect .type
      let paramName ← expect .ident
      let type := (← deref paramType).value
      let value := (← deref paramName).value
      let params := params ++ [{ value := value, type := type : Param }]
      if (← deref (← currentToken)).type = .rparen then
        return params
      let _ ← expect .comma
      next params

/-- A turn of `parseProg`. -/
def progTurn (next : List AstNode → Parser (List AstNode)) (prog : List AstNode) :
    Parser (List AstNode) := do
  match ← currentToken with
  | none => return prog
  | some _ =>
      let stmt ← parseFuncDef parseStatement
      next (prog ++ [stmt])

/-- `parse_expression`, with `self` for its calls of itself. -/
def expressionBody (self : Parser AstNode) : Parser AstNode := do
  if ← isVarAsgn then
    parseVarAsgn self
  else
    parseConditionalExpression uninit self

/-- `parse_statement`, with `self` for its calls of itself. -/
def statementBody (self : Parser AstNode) : Parser AstNode := do
  let current ← deref (← currentToken)
  if current.type = .while_ ∨ current.type = .for_ then
    parseIterStatement parseExpression self
  else if ← isDeclartion then
    parseDeclartion parseExpression
  else if current.type = .return_ then
    parseJumpStatement parseExpression
  else if current.type = .if_ then
    parseSelectionStatement parseExpression self
  else if current.type = .enum then
    parseEnum
  else if current.type = .lbrace then
    parseCompStmt self
  else
    parseExpressionStatement parseExpression

/-- The operators and the operands of the ten loops of `binaryLoop`. -/
def binaryLevels : List ((TokenType → Bool) × Parser AstNode) :=
  [(isMultiplicativeOp, parseCastExpression uninit parseExpression),
    (isAdditiveOp, parseMultiplicativeExpression uninit parseExpression),
    (isShiftOp, parseAdditiveExpression uninit parseExpression),
    (isRelationalOp, parseShiftExpression uninit parseExpression),
    (isEqualityOp, parseRelationalExpression uninit parseExpression),
    ((· = .and), parseEqualityExpression uninit parseExpression),
    ((· = .xor), parseAndExpression uninit parseExpression),
    ((· = .or), parseXorExpression uninit parseExpression),
    ((· = .logAnd), parseOrExpression uninit parseExpression),
    ((· = .logOr), parseLogAndExpression uninit parseExpression)]

end Turns

/-! ### Progress

The streams are compared with the one at the start of the turn or of the call.
-/

/-- A parse function that is refused on streams not shorter than `ts`. -/
abbrev onShorter {α : Type} (ts : TokenStream) (p : Parser α) : Parser α :=
  cut (fun ts' => ts'.length < ts.length) .outOfFuel p

/--
On `ts` the parser gets on: a function that calls itself does so on a shorter stream, and a turn of
a loop leaves a shorter one to the next.  The recursion is bounded by `n`.
-/
structure ParseProgress (uninit : Int) (n : Nat) (ts : TokenStream) : Prop where
  expression : expressionBody uninit (onShorter ts (parseExpression uninit n)) ts
    = parseExpression uninit n ts
  statement : statementBody (parseExpression uninit n) (onShorter ts (parseStatement uninit n)) ts
    = parseStatement uninit n ts
  args : ∀ k args, ts.length < k →
    argsTurn (parseExpression uninit n)
        (fun args => onShorter ts (parseArgs (parseExpression uninit n) k args)) args ts
      = parseArgs (parseExpression uninit n) k args ts
  operators : ∀ level ∈ binaryLevels uninit (parseExpression uninit n), ∀ k left, ts.length < k →
    binaryTurn level.2 level.1 (fun left => onShorter ts (binaryLoop level.1 level.2 k left)) left
      ts = binaryLoop level.1 level.2 k left ts
  enumerators : ∀ k enums, ts.length < k →
    enumeratorsTurn (fun enums => onShorter ts (parseEnumerators k enums)) enums ts
      = parseEnumerators k enums ts
  statements : ∀ k body, ts.length < k →
    statementsTurn (parseStatement uninit n)
        (fun body => onShorter ts (parseStatements (parseStatement uninit n) k body)) body ts
      = parseStatements (parseStatement uninit n) k body ts
  params : ∀ k params, ts.length < k →
    funcParamsTurn (fun params => onShorter ts (parseFuncParams k params)) params ts
      = parseFuncParams k params ts
  funcs : ∀ k prog, ts.length < k →
    progTurn (parseStatement uninit n)
        (fun prog => onShorter ts (parseProg (parseStatement uninit n) k prog)) prog ts
      = parseProg (parseStatement uninit n) k prog ts

/-! ### The loops are made of their turns

By the definition of each.
-/

section IsLoop

variable (uninit : Int) (parseExpression parseStatement operand : Parser AstNode)

theorem parseArgs_isLoop : IsLoop .outOfFuel (argsTurn parseExpression)
    (parseArgs parseExpression) :=
  ⟨fun _ => rfl, fun _ _ => rfl⟩

theorem binaryLoop_isLoop (isOp : TokenType → Bool) :
    IsLoop .outOfFuel (binaryTurn operand isOp) (binaryLoop isOp operand) :=
  ⟨fun _ => rfl, fun _ _ => rfl⟩

theorem parseEnumerators_isLoop : IsLoop .outOfFuel enumeratorsTurn parseEnumerators :=
  ⟨fun _ => rfl, fun _ _ => rfl⟩

theorem parseStatements_isLoop :
    IsLoop .outOfFuel (statementsTurn parseStatement) (parseStatements parseStatement) :=
  ⟨fun _ => rfl, fun _ _ => rfl⟩

theorem parseFuncParams_isLoop : IsLoop .outOfFuel funcParamsTurn parseFuncParams :=
  ⟨fun _ => rfl, fun _ _ => rfl⟩

theorem parseProg_isLoop : IsLoop .outOfFuel (progTurn parseStatement) (parseProg parseStatement) :=
  ⟨fun _ => rfl, fun _ _ => rfl⟩

theorem parseExpression_isLoop :
    IsLoop .outOfFuel (fun next (_ : Unit) => expressionBody uninit (next ()))
      (fun n _ => MyLang.parseExpression uninit n) :=
  ⟨fun _ => rfl, fun _ _ => rfl⟩

end IsLoop

end MyLang
