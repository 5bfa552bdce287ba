/-
The recursive-descent parser of `parse.c`.

A token stream is the list of tokens from `current` on, so `current_token` is its
head and `next_token` drops it.  The parser stops in three ways besides returning:
`expect` exits with its message; a missing token, which `current_token`, `peek` and
`expect` report as `NULL`, is looked into; or the bound on the recursion runs out.
The second is undefined behaviour in the source and its own outcome here, `deref`
being the place where it happens.

`parse_expression` and `parse_statement` are the two functions the grammar recurs
through.  They recurse on a bound, and every function between two calls of them takes them
as an argument; a list of `n` tokens never nests deeper than `n`, so `parse` starts
with the bound `n + 1`.  Each loop has the number of tokens left for its bound.

`lit` of `parse_primary_expression` stays uninitialised when `str2int` fails.
`uninit` is the value it then has.
-/
import MyLang.Ast

namespace MyLang

/-- How the parser stops without a result. -/
inductive ParseError where
  /-- `Expected token of type %d at line: %d, pos: %d, actual type: %d` -/
  | expectedToken (expect : TokenType) (line pos : Int) (actual : TokenType)
  /-- A `NULL` token was looked into. -/
  | nullToken
  /-- The bound on the recursion ran out. -/
  | outOfFuel
deriving DecidableEq, Repr

/-- `TokenStream`: the tokens from `current` on. -/
abbrev TokenStream := List Token

/-- A parse function: it reads and advances the stream, or stops. -/
abbrev Parser := StateT TokenStream (Except ParseError)

/-! ### `str2int`

`strtol` with a check that all of the text was read and that the value is an `int`.
-/

/-- `str2int_errno`, its failures. -/
inductive Str2IntErrno where
  | overflow
  | underflow
  | inconvertible
deriving DecidableEq, Repr

/-- `isspace`. -/
def isSpace (c : Char) : Bool :=
  c = ' ' || c = '\t' || c = '\n' || c = '\x0b' || c = '\x0c' || c = '\r'

/-- The number a string of decimal digits denotes. -/
def digitsVal (ds : List Char) : Nat :=
  ds.foldl (fun n c => 10 * n + (c.toNat - '0'.toNat)) 0

/-- `strtol` in base 10 on a string that starts with no blank: the number, and what follows it. -/
def strtol (s : List Char) : Int × List Char :=
  match s with
  | '-' :: body =>
      if (body.takeWhile Char.isDigit).isEmpty then (0, s)
      else (-(digitsVal (body.takeWhile Char.isDigit) : Int), body.dropWhile Char.isDigit)
  | '+' :: body =>
      if (body.takeWhile Char.isDigit).isEmpty then (0, s)
      else (digitsVal (body.takeWhile Char.isDigit), body.dropWhile Char.isDigit)
  | body =>
      if (body.takeWhile Char.isDigit).isEmpty then (0, s)
      else (digitsVal (body.takeWhile Char.isDigit), body.dropWhile Char.isDigit)

/-- `INT_MAX`. -/
abbrev intMax : Int := 2147483647

/-- `INT_MIN`. -/
abbrev intMin : Int := -2147483648

/-- `str2int` in base 10. -/
def str2int (s : String) : Except Str2IntErrno Int :=
  match s.toList with
  | [] => .error .inconvertible
  | c :: cs =>
      if isSpace c then .error .inconvertible
      else
        let (l, rest) := strtol (c :: cs)
        if l > intMax then .error .overflow
        else if l < intMin then .error .underflow
        else if rest ≠ [] then .error .inconvertible
        else .ok l

/-! ### The token stream

A missing token is `none` until something is read out of it.
-/

/-- `current_token`: the current token, or `NULL` at the end of the stream. -/
def currentToken : Parser (Option Token) := do return (← get).head?

/-- `peek`: the `n`th next token, or `NULL` outside the stream. -/
def peek (n : Nat) : Parser (Option Token) := do return (← get)[n]?

/-- `next_token`. -/
def nextToken : Parser Unit := modify List.tail

/-- Look into a token. -/
def deref : Option Token → Parser Token
  | some t => return t
  | none => throw .nullToken

/--
`expect`: the current token if it has the type, an error if it has another, `NULL` at the
end.
-/
def expect (expected : TokenType) : Parser (Option Token) := do
  match ← currentToken with
  | none => return none
  | some current =>
      if current.type = expected then
        nextToken
        return some current
      else
        throw (.expectedToken expected current.line current.pos current.type)

/-! ### Lookahead

Up to three tokens are looked at, and nothing is consumed.
-/

/-- `is_func_call_start`. -/
def isFuncCallStart : Parser Bool := do
  let funcName ← currentToken
  let lparen ← peek 1
  if (← deref funcName).type = .ident then
    return (← deref lparen).type = .lparen
  else
    return false

/--
`TYPE IDENT` followed by a token of the given type; each token is looked into only if the
ones before match.
-/
def isDeclStart (third : TokenType) : Parser Bool := do
  let varType ← currentToken
  let varName ← peek 1
  let last ← peek 2
  if (← deref varType).type = .type then
    if (← deref varName).type = .ident then
      return (← deref last).type = third
    else
      return false
  else
    return false

/-- `is_var_def_start`. -/
def isVarDefStart : Parser Bool := isDeclStart .assign

/-- `is_var_dec`. -/
def isVarDec : Parser Bool := isDeclStart .semicolon

/-- `is_var_asgn`. -/
def isVarAsgn : Parser Bool := do
  let varName ← currentToken
  let asgn ← peek 1
  if (← deref varName).type = .ident then
    return (← deref asgn).type = .assign
  else
    return false

/-- `is_declartion`. -/
def isDeclartion : Parser Bool := do
  if ← isVarDec then return true else isVarDefStart

/-! ### Expressions

The levels of binary operators differ in their operators only, so they are one function.
-/

section Expressions

variable (uninit : Int) (parseExpression : Parser AstNode)

/-- The `while` loop of `parse_func_call`. -/
def parseArgs : Nat → List AstNode → Parser (List AstNode)
  | 0, _ => throw .outOfFuel
  | n + 1, args => do
      if (← deref (← currentToken)).type = .rparen then
        return args
      let expr ← parseExpression
      if (← deref (← currentToken)).type = .rparen then
        return args ++ [expr]
      let _ ← expect .comma
      parseArgs n (args ++ [expr])

/-- `parse_func_call`. -/
def parseFuncCall : Parser AstNode := do
  let name ← expect .ident
  let nameStr := (← deref name).value
  let _ ← expect .lparen
  let args ← parseArgs parseExpression ((← get).length + 1) []
  let _ ← expect .rparen
  return .funcCall nameStr args none

/-- `parse_ident`. -/
def parseIdent : Parser AstNode := do
  let current ← currentToken
  let value := (← deref current).value
  if ← isFuncCallStart then
    parseFuncCall parseExpression
  else
    nextToken
    return .ident value none

/-- `parse_primary_expression`. -/
def parsePrimaryExpression : Parser AstNode := do
  match ← currentToken with
  | none => return .emptyExpr
  | some current =>
      if current.type = .num then
        nextToken
        match str2int current.value with
        | .ok lit => return .intConst lit
        | .error _ => return .intConst uninit
      else if current.type = .ident then
        parseIdent parseExpression
      else if current.type = .lparen then
        nextToken
        let ret ← parseExpression
        let _ ← expect .rparen
        return ret
      else
        return .emptyExpr

/-- `parse_postfix_expression`. -/
def parsePostfixExpression : Parser AstNode := parsePrimaryExpression uninit parseExpression

/-- `is_unary_op`. -/
def isUnaryOp (t : TokenType) : Bool := t = .not

/-- `parse_unary_expression`. -/
def parseUnaryExpression : Parser AstNode := do
  let current ← deref (← currentToken)
  if isUnaryOp current.type then
    nextToken
    return .unaryExpr (← parsePostfixExpression uninit parseExpression) current.value current.type
  else
    parsePostfixExpression uninit parseExpression

/-- `parse_cast_expression`. -/
def parseCastExpression : Parser AstNode := parseUnaryExpression uninit parseExpression

end Expressions

/-- The `while` loop of the ten binary operator functions. -/
def binaryLoop (isOp : TokenType → Bool) (operand : Parser AstNode) : Nat → AstNode → Parser AstNode
  | 0, _ => throw .outOfFuel
  | n + 1, left => do
      match ← currentToken with
      | none => return left
      | some current =>
          if isOp current.type then
            nextToken
            let right ← operand
            binaryLoop isOp operand n (.binExp current.value current.type left right)
          else
            return left

/-- What the ten binary operator functions share: operands of the next level, joined to the left. -/
def binaryLevel (isOp : TokenType → Bool) (operand : Parser AstNode) : Parser AstNode := do
  let left ← operand
  binaryLoop isOp operand ((← get).length + 1) left

section Levels

variable (uninit : Int) (parseExpression : Parser AstNode)

/-- The operators of `parse_multiplicative_expression`. -/
def isMultiplicativeOp (t : TokenType) : Bool := t = .mult || t = .div

/-- `parse_multiplicative_expression`. -/
def parseMultiplicativeExpression : Parser AstNode :=
  binaryLevel isMultiplicativeOp (parseCastExpression uninit parseExpression)

/-- The operators of `parse_additive_expression`. -/
def isAdditiveOp (t : TokenType) : Bool := t = .add || t = .sub

/-- `parse_additive_expression`. -/
def parseAdditiveExpression : Parser AstNode :=
  binaryLevel isAdditiveOp (parseMultiplicativeExpression uninit parseExpression)

/-- The operators of `parse_shift_expression`. -/
def isShiftOp (t : TokenType) : Bool := t = .lshift || t = .rshift

/-- `parse_shift_expression`. -/
def parseShiftExpression : Parser AstNode :=
  binaryLevel isShiftOp (parseAdditiveExpression uninit parseExpression)

/-- `is_relational_op`. -/
def isRelationalOp (t : TokenType) : Bool :=
  t = .gt || t = .lt || t = .gtEq || t = .ltEq

/-- `parse_relational_expression`. -/
def parseRelationalExpression : Parser AstNode :=
  binaryLevel isRelationalOp (parseShiftExpression uninit parseExpression)

/-- The operators of `parse_equality_expression`. -/
def isEqualityOp (t : TokenType) : Bool := t = .notEqual || t = .equal

/-- `parse_equality_expression`. -/
def parseEqualityExpression : Parser AstNode :=
  binaryLevel isEqualityOp (parseRelationalExpression uninit parseExpression)

/-- `parse_and_expression`. -/
def parseAndExpression : Parser AstNode :=
  binaryLevel (· = .and) (parseEqualityExpression uninit parseExpression)

/-- `parse_xor_expression`. -/
def parseXorExpression : Parser AstNode :=
  binaryLevel (· = .xor) (parseAndExpression uninit parseExpression)

/-- `parse_or_expression`. -/
def parseOrExpression : Parser AstNode :=
  binaryLevel (· = .or) (parseXorExpression uninit parseExpression)

/-- `parse_log_and_expression`. -/
def parseLogAndExpression : Parser AstNode :=
  binaryLevel (· = .logAnd) (parseOrExpression uninit parseExpression)

/-- `parse_log_or_expression`. -/
def parseLogOrExpression : Parser AstNode :=
  binaryLevel (· = .logOr) (parseLogAndExpression uninit parseExpression)

/-- `parse_conditional_expression`. -/
def parseConditionalExpression : Parser AstNode := parseLogOrExpression uninit parseExpression

/-- `parse_var_asgn`. -/
def parseVarAsgn : Parser AstNode := do
  let identNode ← parseIdent parseExpression
  let _ ← expect .assign
  let rval ← parseExpression
  return .varAsgn (.lval .ident identNode) rval

end Levels

/-- `parse_expression`, nested at most `n` deep. -/
def parseExpression (uninit : Int) : Nat → Parser AstNode
  | 0 => throw .outOfFuel
  | n + 1 => do
      if ← isVarAsgn then
        parseVarAsgn (parseExpression uninit n)
      else
        parseConditionalExpression uninit (parseExpression uninit n)

/-! ### Statements

What is parsed next is decided by the first token, but for declarations, which need up to
three.
-/

section Statements

variable (parseExpression parseStatement : Parser AstNode)

/-- `parse_var_dec`. -/
def parseVarDec : Parser AstNode := do
  let decType ← expect .type
  let decValue ← expect .ident
  let value := (← deref decValue).value
  let type := (← deref decType).value
  let _ ← expect .semicolon
  return .varDec value type none

/-- `parse_var_def`. -/
def parseVarDef : Parser AstNode := do
  let varType ← expect .type
  let varName ← expect .ident
  let varStr := (← deref varName).value
  let typeStr := (← deref varType).value
  if (← deref (← currentToken)).type = .assign then
    nextToken
    let init ← parseExpression
    let _ ← expect .semicolon
    return .varDef varStr typeStr init none
  else
    let _ ← expect .semicolon
    return .varDef varStr typeStr .null none

/-- `parse_declartion`. -/
def parseDeclartion : Parser AstNode := do
  if ← isVarDefStart then parseVarDef parseExpression else parseVarDec

/-- `parse_if_else_statement`. -/
def parseIfElseStatement : Parser AstNode := do
  let _ ← expect .if_
  let _ ← expect .lparen
  let expr ← parseExpression
  let _ ← expect .rparen
  let ifBody ← parseStatement
  match ← currentToken with
  | some current =>
      if current.type = .else_ then
        let _ ← expect .else_
        let elseBody ← parseStatement
        return .ifElse expr ifBody elseBody
      else
        return .ifElse expr ifBody .null
  | none => return .ifElse expr ifBody .null

/-- The `while` loop of `parse_enum`. -/
def parseEnumerators : Nat → List String → Parser (List String)
  | 0, _ => throw .outOfFuel
  | n + 1, enums => do
      match ← currentToken with
      | none => return enums
      | some curr =>
          if curr.type = .rbrace then
            return enums
          let enumIdent ← expect .ident
          let enums := enums ++ [(← deref enumIdent).value]
          match ← currentToken with
          | some curr =>
              if curr.type ≠ .comma then
                return enums
              let _ ← expect .comma
              parseEnumerators n enums
          | none =>
              let _ ← expect .comma
              parseEnumerators n enums

/-- `parse_enum`. -/
def parseEnum : Parser AstNode := do
  let _ ← expect .enum
  let parentEnum ← expect .ident
  let _ ← expect .lbrace
  let enums ← parseEnumerators ((← get).length + 1) []
  let _ ← expect .rbrace
  let _ ← expect .semicolon
  return .enum (← deref parentEnum).value enums

/-- The `while` loop of `parse_comp_stmt`. -/
def parseStatements : Nat → List AstNode → Parser (List AstNode)
  | 0, _ => throw .outOfFuel
  | n + 1, body => do
      match ← currentToken with
      | none => return body
      | some current =>
          if current.type = .rbrace then
            return body
          let stmt ← parseStatement
          parseStatements n (body ++ [stmt])

/-- `parse_comp_stmt`. -/
def parseCompStmt : Parser AstNode := do
  let _ ← expect .lbrace
  let body ← parseStatements parseStatement ((← get).length + 1) []
  let _ ← expect .rbrace
  return .compStmt body

/-- `parse_while`. -/
def parseWhile : Parser AstNode := do
  let _ ← expect .while_
  let _ ← expect .lparen
  let expr ← parseExpression
  let _ ← expect .rparen
  let body ← parseStatement
  return .while_ expr body

/-- The first part of a `for` header, up to and including its semicolon. -/
def parseForInit : Parser AstNode := do
  if ← isDeclartion then
    parseDeclartion parseExpression
  else
    let init ← parseExpression
    let _ ← expect .semicolon
    return init

/-- `parse_for`. -/
def parseFor : Parser AstNode := do
  let _ ← expect .for_
  let _ ← expect .lparen
  let init ← parseForInit parseExpression
  let cond ← parseExpression
  let _ ← expect .semicolon
  let step ← parseExpression
  let _ ← expect .rparen
  let body ← parseStatement
  return .for_ init cond step body

/-- `parse_expression_statement`. -/
def parseExpressionStatement : Parser AstNode := do
  let expr ← parseExpression
  let _ ← expect .semicolon
  return .exprStmt expr

/-- `parse_iter_statement`. -/
def parseIterStatement : Parser AstNode := do
  if (← deref (← currentToken)).type = .for_ then
    parseFor parseExpression parseStatement
  else
    parseWhile parseExpression parseStatement

/-- `parse_return`. -/
def parseReturn : Parser AstNode := do
  let _ ← expect .return_
  let expr ← parseExpression
  let _ ← expect .semicolon
  return .ret expr none

/-- `parse_jump_statement`. -/
def parseJumpStatement : Parser AstNode := parseReturn parseExpression

/-- `parse_selection_statement`. -/
def parseSelectionStatement : Parser AstNode := parseIfElseStatement parseExpression parseStatement

end Statements

/-- `parse_statement`, nested at most `n` deep. -/
def parseStatement (uninit : Int) : Nat → Parser AstNode
  | 0 => throw .outOfFuel
  | n + 1 => do
      let current ← deref (← currentToken)
      if current.type = .while_ ∨ current.type = .for_ then
        parseIterStatement (parseExpression uninit (n + 1)) (parseStatement uninit n)
      else if ← isDeclartion then
        parseDeclartion (parseExpression uninit (n + 1))
      else if current.type = .return_ then
        parseJumpStatement (parseExpression uninit (n + 1))
      else if current.type = .if_ then
        parseSelectionStatement (parseExpression uninit (n + 1)) (parseStatement uninit n)
      else if current.type = .enum then
        parseEnum
      else if current.type = .lbrace then
        parseCompStmt (parseStatement uninit n)
      else
        parseExpressionStatement (parseExpression uninit (n + 1))

/-! ### Functions and programs

A program is functions and nothing else.
-/

/-- `parse_func_params`. -/
def parseFuncParams : Nat → List Param → Parser (List Param)
  | 0, _ => throw .outOfFuel
  | n + 1, params => do
      match ← currentToken with
      | none => return params
      | some current =>
          if current.type ≠ .type then
            return params
          let paramType ← expect .type
          let paramName ← expect .ident
          let type := (← deref paramType).value
          let value := (← deref paramName).value
          let params := params ++ [{ value, type }]
          if (← deref (← currentToken)).type = .rparen then
            return params
          let _ ← expect .comma
          parseFuncParams n params

/-- `parse_func_def`. -/
def parseFuncDef (parseStatement : Parser AstNode) : Parser AstNode := do
  let funcType ← expect .type
  let funcName ← expect .ident
  let funcStr := (← deref funcName).value
  let _ ← expect .lparen
  let params ← parseFuncParams ((← get).length + 1) []
  let _ ← expect .rparen
  let tsName := (← deref funcType).value
  let body ← parseCompStmt parseStatement
  return .funcDef funcStr tsName body params none

/-- `parse_prog`. -/
def parseProg (parseStatement : Parser AstNode) : Nat → List AstNode → Parser (List AstNode)
  | 0, _ => throw .outOfFuel
  | n + 1, prog => do
      match ← currentToken with
      | none => return prog
      | some _ =>
          let stmt ← parseFuncDef parseStatement
          parseProg parseStatement n (prog ++ [stmt])

/-- `parse`: the program, and the tokens left over. -/
def parse (uninit : Int) (tokens : List Token) : Except ParseError (List AstNode × TokenStream) :=
  (parseProg (parseStatement uninit (tokens.length + 1)) (tokens.length + 1) []).run tokens

end MyLang
