/-
What the parser expects next, as a pushdown automaton.

This is an abstract model of `parse.c`: no tree, no recursion, only the stack of what is
still to come, one symbol a piece of the grammar.  The stack after a list of tokens says
which constructs are open where the list ends.

A symbol and the next token decide what happens: the token is taken and other symbols come
in the place of the symbol, the symbol is done without it, or the token is refused.  That
one token is enough although the parser looks at up to three comes from symbols for what
has been begun, such as a type with a name behind it.

Some symbols need a token.  Where one of them is on the stack when the tokens end, the
parser looks into a token that is missing.
-/
import MyLang.Parse
import MyLang.Lib.PushDown

namespace MyLang

open PushDown

/-- A piece of the grammar that is still to come. -/
inductive Sym where
  /-- One token of the type. -/
  | tok (ty : TokenType)
  /-- An identifier whose text is used. -/
  | name
  | expr
  /-- The operand of a binary operator, with its `!` if it has one. -/
  | unary
  | primary
  /-- Binary operators with their right operands, as many as there are. -/
  | ops
  /-- What follows an identifier that starts an expression. -/
  | exprName
  /-- What follows an identifier that is an operand. -/
  | operandName
  /-- The arguments of a call, from the beginning of one on. -/
  | args
  /-- What follows an argument. -/
  | argsTail
  | stmt
  | stmts
  /-- The `else` of an `if`, if there is one. -/
  | elsePart
  /-- What follows the name in a declaration. -/
  | declTail
  | forInit
  | enumItems
  /-- What follows an enumerator. -/
  | enumTail
  | params
  /-- What follows a parameter. -/
  | paramTail
  | prog
deriving DecidableEq, Repr

/-- The binary operators, of all ten levels. -/
def isBinaryOp (t : TokenType) : Bool :=
  isMultiplicativeOp t || isAdditiveOp t || isShiftOp t || isRelationalOp t || isEqualityOp t ||
    t = .and || t = .xor || t = .or || t = .logAnd || t = .logOr

namespace Sym

/-- One token of the type, and no other. -/
def reactTok (ty t : TokenType) : Reaction Sym :=
  if t = ty then .take [] else .refuse

def reactPrimary (t : TokenType) : Reaction Sym :=
  match t with
  | .num => .take []
  | .ident => .take [operandName]
  | .lparen => .take [expr, tok .rparen]
  | _ => .leave

def reactUnary (t : TokenType) : Reaction Sym :=
  if t = .not then .take [primary] else reactPrimary t

def reactOps (t : TokenType) : Reaction Sym :=
  if isBinaryOp t then .take [unary, ops] else .leave

def reactOperandName (t : TokenType) : Reaction Sym :=
  if t = .lparen then .take [args, tok .rparen] else .leave

def reactExprName (t : TokenType) : Reaction Sym :=
  if t = .assign then .take [expr] else .over ops (reactOps t) (reactOperandName t)

def reactExpr (t : TokenType) : Reaction Sym :=
  if t = .ident then .take [exprName] else .over ops (reactOps t) (reactUnary t)

def reactArgsTail (t : TokenType) : Reaction Sym :=
  match t with
  | .rparen => .leave
  | .comma => .take [args]
  | _ => .refuse

def reactArgs (t : TokenType) : Reaction Sym :=
  if t = .rparen then .leave else .over argsTail (reactArgsTail t) (reactExpr t)

/-- An expression with a semicolon behind it. -/
def reactExprSemi (t : TokenType) : Reaction Sym :=
  .over (tok .semicolon) (reactTok .semicolon t) (reactExpr t)

def reactStmt (t : TokenType) : Reaction Sym :=
  match t with
  | .while_ => .take [tok .lparen, expr, tok .rparen, stmt]
  | .for_ =>
      .take [tok .lparen, forInit, expr, tok .semicolon, expr, tok .rparen, stmt]
  | .type => .take [name, declTail]
  | .return_ => .take [expr, tok .semicolon]
  | .if_ => .take [tok .lparen, expr, tok .rparen, stmt, elsePart]
  | .enum => .take [name, tok .lbrace, enumItems, tok .rbrace, tok .semicolon]
  | .lbrace => .take [stmts, tok .rbrace]
  | _ => reactExprSemi t

def reactDeclTail (t : TokenType) : Reaction Sym :=
  match t with
  | .semicolon => .take []
  | .assign => .take [expr, tok .semicolon]
  | _ => .refuse

def reactEnumItems (t : TokenType) : Reaction Sym :=
  match t with
  | .rbrace => .leave
  | .ident => .take [enumTail]
  | _ => .refuse

def reactParamTail (t : TokenType) : Reaction Sym :=
  match t with
  | .rparen => .leave
  | .comma => .take [params]
  | _ => .refuse

/-- What each symbol does about a token. -/
def react : Sym → TokenType → Reaction Sym
  | tok ty, t => reactTok ty t
  | name, t => reactTok .ident t
  | expr, t => reactExpr t
  | unary, t => reactUnary t
  | primary, t => reactPrimary t
  | ops, t => reactOps t
  | exprName, t => reactExprName t
  | operandName, t => reactOperandName t
  | args, t => reactArgs t
  | argsTail, t => reactArgsTail t
  | stmt, t => reactStmt t
  | stmts, t => if t = .rbrace then .leave else .over stmts .refuse (reactStmt t)
  | elsePart, t => if t = .else_ then .take [stmt] else .leave
  | declTail, t => reactDeclTail t
  | forInit, t => if t = .type then .take [name, declTail] else reactExprSemi t
  | enumItems, t => reactEnumItems t
  | enumTail, t => if t = .comma then .take [enumItems] else .leave
  | params, t => if t = .type then .take [name, paramTail] else .leave
  | paramTail, t => reactParamTail t
  | prog, t =>
      if t = .type then
        .take [name, tok .lparen, params, tok .rparen, tok .lbrace, stmts, tok .rbrace, prog]
      else .refuse

/-- The symbols whose parse function looks into a token without a check that there is one. -/
def needs : Sym → Bool
  | name | expr | unary | exprName | operandName | args | argsTail | stmt | declTail | forInit
  | paramTail => true
  | tok _ | primary | ops | stmts | elsePart | enumItems | enumTail | params | prog => false

end Sym

/-- The automaton of the grammar. -/
def grammar : Automaton Sym Token where
  react x t := x.react t.type
  needs := Sym.needs

/-- How the parser's ways to stop show in the automaton: the bound on the recursion does not. -/
def ParseError.verdict : ParseError → Option Verdict
  | .expectedToken .. => some .refused
  | .nullToken => some .cut
  | .outOfFuel => none

end MyLang
