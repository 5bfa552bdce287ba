/-
The lexer, as in `lex.c`.

A `char` is the character with its code, and the string terminator `nul`.  The length of
the input goes from a `size_t` into an `int`; the other counters are `int`s that stay
below the length and do not overflow unless it does.

The memory of a token is not cleared: `uninit` is what it holds when the `n`th token of
the vector is allocated.  Arithmetic on the value of a literal is modulo `2 ^ 32`.

The loop of `tokenize` need not end, so it is run for a number of turns, and `none` means
that they were not enough.  The cases of the `switch` that do the same are one definition
with the characters and types of tokens as arguments; the case of the slash, which is also
that of comments, has its own.
-/
import Mathlib.Data.BitVec
import MyLang.Token

namespace MyLang

/-- How the lexer stops without a result. -/
inductive LexError where
  /-- `Unexpected char.` -/
  | unexpectedChar (c : Char)
deriving DecidableEq, Repr

/-- The string terminator. -/
abbrev nul : Char := Char.ofNat 0

/-! ### The stream

`next` gives the terminator at the end and does not advance; `back` takes a step back
anyway.
-/

/-- `Lexer`. -/
structure Lexer where
  input : List Char
  curr : Int
  length : Int

/-- `next`. -/
def next (lexer : Lexer) : Char × Lexer :=
  if lexer.curr ≥ lexer.length then
    (nul, lexer)
  else
    (lexer.input.getD lexer.curr.toNat nul, { lexer with curr := lexer.curr + 1 })

/-- `back`. -/
def back (lexer : Lexer) : Lexer := { lexer with curr := lexer.curr - 1 }

/-- How often `next` can advance. -/
def Lexer.remaining (lexer : Lexer) : Nat := (lexer.length - lexer.curr).toNat

/--
`while (c && p(c)) { acc = f(acc, c); c = next(lexer); }`.  Every turn advances, so as
many turns as there are characters left and one more are enough.
-/
def whileChar {α : Type} (p : Char → Bool) (f : α → Char → α) :
    Nat → α → Char → Lexer → α × Char × Lexer
  | 0, acc, c, lexer => (acc, c, lexer)
  | n + 1, acc, c, lexer =>
      if c ≠ nul && p c then
        let (c', lexer) := next lexer
        whileChar p f n (f acc c) c' lexer
      else
        (acc, c, lexer)

/-- Put back the last character, unless it is the terminator. -/
def putBack (c : Char) (lexer : Lexer) : Lexer := if c ≠ nul then back lexer else lexer

/-! ### Words and numbers

A loop that takes characters reads one too many, and puts it back.
-/

/-- `is_ident_char`. -/
def isIdentChar (c : Char) : Bool := c.isUpper || c.isLower || c.isDigit || c = '_'

/-- `is_ident_start`. -/
def isIdentStart (c : Char) : Bool := c.isUpper || c.isLower || c = '_'

/-- `int_to_str`: `snprintf` into `size` bytes, the terminator included. -/
def intToStr (num : BitVec 32) (size : Nat) : String :=
  String.ofList ((toString num.toInt).toList.take (size - 1))

/-- `tokenize_digit`. -/
def tokenizeDigit (c : Char) (t : Token) (lexer : Lexer) : Token × Lexer :=
  let ((digit, size), c, lexer) :=
    whileChar Char.isDigit (fun acc c => (acc.1 * 10 + BitVec.ofNat 32 (c.toNat - '0'.toNat),
      acc.2 + 1)) (lexer.remaining + 1) ((0 : BitVec 32), 1) c lexer
  ({ t with type := .num, value := intToStr digit size }, putBack c lexer)

/-- The type of a word: that of a keyword or type name, or an identifier. -/
def wordType (ident : String) : TokenType :=
  if ident = "int" then .type
  else if ident = "void" then .type
  else if ident = "return" then .return_
  else if ident = "if" then .if_
  else if ident = "else" then .else_
  else if ident = "enum" then .enum
  else if ident = "while" then .while_
  else if ident = "for" then .for_
  else .ident

/-- `tokenize_ident`. -/
def tokenizeIdent (c : Char) (t : Token) (lexer : Lexer) : Token × Lexer :=
  let (ident, c, lexer) :=
    whileChar isIdentChar (fun ident c => ident ++ [c]) (lexer.remaining + 1) [] c lexer
  ({ t with type := wordType (String.ofList ident), value := String.ofList ident }, putBack c lexer)

/-! ### The main loop

A turn reads a character, runs the `switch`, and adds the token if there is one.
-/

/-- The variables of `tokenize`. -/
structure LexState where
  lexer : Lexer
  vector : List Token
  pos : Int
  line : Int

/-- What the `switch` of `tokenize` leaves: `c`, the token and the variables. -/
abbrev Switched := Except LexError (Char × Token × LexState)

/-- A case of one character. -/
def oneChar (c : Char) (t : Token) (s : LexState) (ty : TokenType) (text : String) : Switched :=
  .ok (c, { t with type := ty, value := text }, s)

/-- A case that looks ahead for one character. -/
def twoChars (c : Char) (t : Token) (s : LexState) (second : Char) (ty2 : TokenType)
    (text2 : String) (ty1 : TokenType) (text1 : String) : Switched :=
  let (peek, lexer) := next s.lexer
  if peek = second then
    .ok (c, { t with type := ty2, value := text2 }, { s with lexer })
  else
    .ok (c, { t with type := ty1, value := text1 }, { s with lexer := back lexer })

/-- A case that looks ahead for the same character again or for `=`. -/
def twiceOrEq (c : Char) (t : Token) (s : LexState) (tyTwice : TokenType) (textTwice : String)
    (tyEq : TokenType) (textEq : String) (ty1 : TokenType) (text1 : String) : Switched :=
  let (peek, lexer) := next s.lexer
  if peek = c then
    .ok (c, { t with type := tyTwice, value := textTwice }, { s with lexer })
  else if peek = '=' then
    .ok (c, { t with type := tyEq, value := textEq }, { s with lexer })
  else
    .ok (c, { t with type := ty1, value := text1 }, { s with lexer := back lexer })

/-- The case `'/'`: a comment takes the newline with it and leaves the token as it is. -/
def slash (c : Char) (t : Token) (s : LexState) : Switched :=
  let (peek, lexer) := next s.lexer
  if peek = '/' then
    let (peek, lexer) := next lexer
    let (_, peek, lexer) :=
      whileChar (fun c => c ≠ '\n') (fun (_ : Unit) _ => ()) (lexer.remaining + 1) () peek lexer
    .ok (peek, t, { s with lexer, line := s.line + 1, pos := 1 })
  else
    .ok (c, { t with type := .div, value := "/" }, { s with lexer := back lexer })

/-- The `switch` of `tokenize`. -/
def switchChar (c : Char) (t : Token) (s : LexState) : Switched :=
  match c with
  | '+' => oneChar c t s .add "+"
  | '-' => oneChar c t s .sub "-"
  | '*' => oneChar c t s .mult "*"
  | '/' => slash c t s
  | ';' => oneChar c t s .semicolon ";"
  | '(' => oneChar c t s .lparen "("
  | ')' => oneChar c t s .rparen ")"
  | '\x7b' => oneChar c t s .lbrace "\x7b"
  | '\x7d' => oneChar c t s .rbrace "\x7d"
  | '^' => oneChar c t s .xor "^"
  | '&' => twoChars c t s '&' .logAnd "&&" .and "&"
  | '|' => twoChars c t s '|' .logOr "||" .or "|"
  | '=' => twoChars c t s '=' .equal "==" .assign "="
  | '!' => twoChars c t s '=' .notEqual "!=" .not "!"
  | '<' => twiceOrEq c t s .lshift "<<" .ltEq "<=" .lt "<"
  | '>' => twiceOrEq c t s .rshift ">>" .gtEq ">=" .gt ">"
  | ',' => oneChar c t s .comma ","
  | '\n' => .ok (c, t, { s with line := s.line + 1, pos := 1 })
  | '\t' => .ok (c, t, s)
  | ' ' => .ok (c, t, s)
  | c =>
      if c.isDigit then
        let (t, lexer) := tokenizeDigit c t s.lexer
        .ok (c, t, { s with lexer })
      else if isIdentStart c then
        let (t, lexer) := tokenizeIdent c t s.lexer
        .ok (c, t, { s with lexer })
      else
        .error (.unexpectedChar c)

/-- One turn of the loop of `tokenize`; `none` when the loop ends. -/
def tokenizeStep (uninit : Nat → Token) (s : LexState) : Except LexError (Option LexState) :=
  let (c, lexer) := next s.lexer
  if c = nul then
    .ok none
  else do
    let (c, t, s) ← switchChar c (uninit s.vector.length) { s with lexer }
    let t := { t with pos := s.pos, line := s.line }
    let s := { s with pos := s.pos + 1 }
    if c ≠ ' ' && c ≠ '\n' && c ≠ '\t' then
      return some { s with vector := s.vector ++ [t] }
    else
      return some s

/-- The loop of `tokenize`, for a number of turns; `none` when they are not enough. -/
def tokenizeLoop (uninit : Nat → Token) : Nat → LexState → Option (Except LexError (List Token))
  | 0, _ => none
  | fuel + 1, s =>
      match tokenizeStep uninit s with
      | .error e => some (.error e)
      | .ok none => some (.ok s.vector)
      | .ok (some s) => tokenizeLoop uninit fuel s

/-- The state `tokenize` starts from. -/
def LexState.initial (input : List Char) : LexState :=
  { lexer := { input, curr := 0, length := (BitVec.ofNat 32 input.length).toInt }
    vector := [], pos := 1, line := 1 }

/-- `tokenize`. -/
def tokenize (uninit : Nat → Token) (fuel : Nat) (input : List Char) :
    Option (Except LexError (List Token)) :=
  tokenizeLoop uninit fuel (LexState.initial input)

end MyLang
