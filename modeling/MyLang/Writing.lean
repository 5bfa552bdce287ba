/-
Texts that spell the tokens of a program.

Between tokens there may be white space and comments, and there has to be some where the
first character behind a token could be read as part of it.
-/
import MyLang.Render

namespace MyLang

/-- White space and comments, each up to the end of its line. -/
inductive Gap : List Char → Prop
  | nil : Gap []
  | blank {c rest} (hc : isBlank c = true) (h : Gap rest) : Gap (c :: rest)
  | comment {body rest} (hbody : ∀ c ∈ body, c ≠ nul ∧ c ≠ '\n') (h : Gap rest) :
      Gap ('/' :: '/' :: (body ++ '\n' :: rest))

/-- A token can be written `w`; a number has to fit an `int`. -/
structure Spells (w : List Char) (p : Piece) : Prop where
  type : lexemeType w = some p.1
  text : lexemeText w = p.2
  fits : p.1 = .num → digitsValue w < 2 ^ 31

/-- With `c` behind it, `w` is read as something else. -/
def joins (w : List Char) (c : Char) : Bool :=
  (lexemeType (w ++ [c])).isSome || (w = ['/'] && c = '/')

/-- A text spells a list of tokens. -/
inductive Written : List Piece → List Char → Prop
  | done {gap} (hgap : Gap gap) : Written [] gap
  | token {gap w p ps rest} (hgap : Gap gap) (hw : Spells w p)
    (hjoins : ∀ c ∈ rest.head?, joins w c = false)
      (h : Written ps rest) : Written (p :: ps) (gap ++ (w ++ rest))

/-- Tokens with a blank behind each. -/
def print (pieces : List Piece) : List Char := pieces.flatMap fun p => p.2.toList ++ [' ']

end MyLang
