/-
The passes in a row, as `my_lang` of `main.c` runs them on the tokens of a file.

Two things the source leaves open go in as parameters: the value of the variable
`parse_primary_expression` does not set when a literal is out of range, and the
contents of the memory the arena hands out.
-/
import MyLang.Parse
import MyLang.Asm

namespace MyLang

/-- The parser and the analysis accept a list of tokens; `r` is what they hand to `gen_asm`. -/
def Accepted (uninit : Int) (arena : SymId → Nat) (tokens : List Token) (r : SemaResult) : Prop :=
  ∃ prog rest, parse uninit tokens = .ok (prog, rest) ∧ semaCheck arena typeEnvInit prog = .ok r

/-- A token with a text and no position. -/
def tok (ty : TokenType) (value : String) : Token := { type := ty, value }

end MyLang
