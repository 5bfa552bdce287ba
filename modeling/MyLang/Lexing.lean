/-
What the lexer ought to do, apart from `lex.c`.

`LexMode` is what a reader going from left to right has to remember about the token or
comment the next character may belong to.  It reads each character once and never goes
back.

`Lexes` says which tokens a text has: a token is the longest beginning of what is left
that is a token at all, white space and comments are skipped, and lines are counted.

Both are about texts only.  The first says what a text leaves open at its end, on which it
depends whether `tokenize` ends and what a further newline does.  The second is the usual
specification of a lexer, and its rules do not say how a token is found.
-/
import MyLang.Lib.LongestMatch
import MyLang.Lex

namespace MyLang

open LongestMatch

/-! ### Reading from left to right

An operator that a second character may complete is open until the next character is read.
-/

/-- What the characters read so far leave open. -/
inductive LexMode where
  /-- Nothing: a token may start. -/
  | start
  /-- An operator `c` that could be the first half of a longer one, or of `//`. -/
  | op (c : Char)
  | number
  | word
  | comment
deriving DecidableEq, Repr

/-- The characters that are an operator and start a longer one, or a comment. -/
def isPrefixOp (c : Char) : Bool := c ∈ ['/', '&', '|', '=', '!', '<', '>']

/-- The second halves of the operators of two characters, and of `//`. -/
def completes (p c : Char) : Bool :=
  match p with
  | '/' => c = '/'
  | '&' => c = '&'
  | '|' => c = '|'
  | '=' => c = '='
  | '!' => c = '='
  | '<' => c = '<' || c = '='
  | '>' => c = '>' || c = '='
  | _ => false

/-- The characters that are a token by themselves. -/
def isPunct (c : Char) : Bool :=
  c ∈ ['+', '-', '*', ';', '(', ')', '\x7b', '\x7d', '^', ',']

/-- White space. -/
def isBlank (c : Char) : Bool := c ∈ [' ', '\t', '\n']

namespace LexMode

/-- Behind a character that starts a token; `none` where reading ends. -/
def behind (c : Char) : Option LexMode :=
  if isPrefixOp c then some (.op c)
  else if c.isDigit then some .number
  else if isIdentStart c then some .word
  else if isPunct c || isBlank c then some .start
  else none

/-- Behind one more character; `none` where reading ends. -/
def read : LexMode → Char → Option LexMode
  | .start, c => behind c
  | .op p, c => if completes p c then some (if p = '/' then .comment else .start) else behind c
  | .number, c => if c.isDigit then some .number else if c = nul then some .start else behind c
  | .word, c => if isIdentChar c then some .word else if c = nul then some .start else behind c
  | .comment, c => if c = nul || c = '\n' then some .start else some .comment

end LexMode

/-- What a text leaves open at its end is as `q` says, unless reading ends before. -/
def endsIn (q : LexMode → Bool) : LexMode → List Char → Bool
  | mode, [] => q mode
  | mode, c :: rest =>
      match mode.read c with
      | some mode => endsIn q mode rest
      | none => false

namespace LexMode

/-- An operator is open. -/
def isOp : LexMode → Bool
  | .op _ => true
  | _ => false

/-- A comment is open. -/
def isComment : LexMode → Bool
  | .comment => true
  | _ => false

end LexMode

/-- The text ends directly behind an operator that a further character could complete. -/
def endsPending (text : List Char) : Bool := endsIn LexMode.isOp .start text

/-- The text ends inside a comment. -/
def endsInComment (text : List Char) : Bool := endsIn LexMode.isComment .start text

/-! ### Tokens

What a token is, what its type is, and by which text it is known.
-/

/-- The operators and the punctuation. -/
def spellings : List (List Char × TokenType) :=
  [(['+'], .add), (['-'], .sub), (['*'], .mult), (['/'], .div), ([';'], .semicolon),
    (['('], .lparen), ([')'], .rparen), (['\x7b'], .lbrace), (['\x7d'], .rbrace), (['^'], .xor),
    ([','], .comma), (['&'], .and), (['&', '&'], .logAnd), (['|'], .or), (['|', '|'], .logOr),
    (['='], .assign), (['=', '='], .equal), (['!'], .not), (['!', '='], .notEqual), (['<'], .lt),
    (['<', '<'], .lshift), (['<', '='], .ltEq), (['>'], .gt), (['>', '>'], .rshift),
    (['>', '='], .gtEq)]

/-- The keywords and the names of types. -/
def keywords : List (String × TokenType) :=
  [("int", .type), ("void", .type), ("return", .return_), ("if", .if_), ("else", .else_),
    ("enum", .enum), ("while", .while_), ("for", .for_)]

/-- A number: one digit or more. -/
def isNumber (w : List Char) : Bool := w ≠ [] && w.all Char.isDigit

/-- A word: a letter or an underscore, then letters, digits and underscores. -/
def isWord : List Char → Bool
  | [] => false
  | c :: w => isIdentStart c && w.all isIdentChar

/-- The type of a text that is one token. -/
def lexemeType (w : List Char) : Option TokenType :=
  if isNumber w then some .num
  else if isWord w then some ((keywords.lookup (String.ofList w)).getD .ident)
  else spellings.lookup w

/-- A text is one token. -/
def IsLexeme (w : List Char) : Prop := (lexemeType w).isSome = true

/-- What the digits of a number denote. -/
def digitsValue (w : List Char) : Nat := w.foldl (fun n c => n * 10 + (c.toNat - '0'.toNat)) 0

/-- The text a token is known by: that of a number is canonical. -/
def lexemeText (w : List Char) : String :=
  if isNumber w then Nat.repr (digitsValue w) else String.ofList w

/-- A token without its place in the line. -/
structure Lexeme where
  type : TokenType
  value : String
  line : Int
deriving DecidableEq, Repr

/-- The token of `tokenize`, without its place in the line. -/
def Token.lexeme (t : Token) : Lexeme := { type := t.type, value := t.value, line := t.line }

/-- The tokens of a text that starts in a line. -/
inductive Lexes : Int → List Char → List Lexeme → Prop
  | nil {line} : Lexes line [] []
  | blank {line c rest ls} (hc : c = ' ' ∨ c = '\t') (h : Lexes line rest ls) :
    Lexes line (c :: rest) ls
  | newline {line rest ls} (h : Lexes (line + 1) rest ls) : Lexes line ('\n' :: rest) ls
  | comment {line body rest ls} (hbody : '\n' ∉ body) (h : Lexes line ('\n' :: rest) ls) :
      Lexes line ('/' :: '/' :: (body ++ '\n' :: rest)) ls
  | lastComment {line body} (hbody : '\n' ∉ body) : Lexes line ('/' :: '/' :: body) []
  | token {line w rest ty ls} (hw : Longest IsLexeme w rest) (hty : lexemeType w = some ty)
      (hcomment : ¬ ['/', '/'] <+: w ++ rest) (h : Lexes line rest ls) :
      Lexes line (w ++ rest) ({ type := ty, value := lexemeText w, line } :: ls)

/-- The characters outside comments; the flag says whether the text starts in one. -/
def outsideComments : Bool → List Char → List Char
  | _, [] => []
  | true, c :: rest => if c = '\n' then c :: outsideComments false rest
    else outsideComments true rest
  | false, '/' :: '/' :: rest => outsideComments true rest
  | false, c :: rest => c :: outsideComments false rest

/-- Letters, digits, the underscore, white space, operators and punctuation. -/
def isTextChar (c : Char) : Bool := isIdentChar c || isBlank c || isPunct c || isPrefixOp c

/-- Some character outside a comment is none of these. -/
def HasUnexpected (text : List Char) : Prop :=
  ∃ c ∈ outsideComments false text, isTextChar c = false

/-- Every run of digits denotes a number up to `INT_MAX`. -/
def DigitsFit (text : List Char) : Prop := ∀ w, isNumber w = true → w <:+:
    text → digitsValue w < 2 ^ 31

end MyLang
