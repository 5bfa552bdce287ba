/-
Where a token stands in its line.

`tokenize` counts the turns of its loop since the last newline, and a token has the count of
its turn.  The count starts at 1.  A newline sets it to 1 again, but in the middle of its
turn: at the end of the same turn one is added, so that every later line starts at 2.
-/
import MyLang.Lexing

namespace MyLang

/-- The line `k` of a text, counted from 0, with the newline that ends it. -/
def lineAt : Nat → List Char → List Char
  | _, [] => []
  | 0, c :: rest => if c = '\n' then [c] else c :: lineAt 0 rest
  | k + 1, c :: rest => if c = '\n' then lineAt k rest else lineAt (k + 1) rest

/-- What follows the first line. -/
def laterLines (text : List Char) : List Char := (text.dropWhile (· ≠ '\n')).tail

/-- The tokens of each line have the positions they get when the line is the whole input. -/
def PosLocal (text : List Char) (ts : List Token) : Prop :=
  ∀ (k : Nat) (uninit : Nat → Token), ∃ fuel alone, tokenize uninit fuel (lineAt k text)
    = some (.ok alone) ∧
    (ts.filter fun t => t.line = (k + 1 : Int)).map Token.pos = alone.map Token.pos

/-- White space and comments are all there is behind the first line. -/
def IdleBehindFirst (text : List Char) : Prop :=
  (outsideComments false (laterLines text)).all isBlank = true

instance (text : List Char) : Decidable (IdleBehindFirst text) :=
  inferInstanceAs (Decidable (_ = _))

end MyLang
