/-
Tokens, as `lex.h` declares them.

The parser only ever compares a token's type and copies its text; the position and the
line are carried for the text of the one error the parser reports.

The texts are strings, and a token that the lexer took from uninitialised memory has some
type and some text like any other.
-/

namespace MyLang

/-- `TokenType`. -/
inductive TokenType where
  | ident
  | num
  | add
  | sub
  | mult
  | div
  | lbracket
  | rbracket
  | lparen
  | rparen
  | lbrace
  | rbrace
  | semicolon
  | assign
  | type
  | comma
  | return_
  | if_
  | else_
  | equal
  | notEqual
  | not
  | enum
  | while_
  | for_
  | and
  | or
  | xor
  | logOr
  | logAnd
  | lshift
  | rshift
  | gt
  | lt
  | gtEq
  | ltEq
deriving DecidableEq, Repr

/-- `Token`.  The text is what `as_str` makes of the token's `String`. -/
structure Token where
  type : TokenType
  value : String
  pos : Int := 0
  line : Int := 0
deriving DecidableEq, Repr

end MyLang
