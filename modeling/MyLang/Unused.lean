/-
What ought to be warned about, apart from the analysis.

A linked tree has the functions and the local variables it declares, each with its symbol,
and the symbols its identifiers and calls resolve to.  A function other than `main` or a
local variable is unused if its symbol is not among these.

`warn_unused` does not see what was declared without a value, since only the cases of
functions and definitions put their symbol on its list.  And it passes over every symbol
that is called `main`.

Parameters and constants are neither on the list nor among the local variables: nobody is
to be warned about them.  A variable that is only assigned to is used, since the target of
an assignment is an identifier and resolves to it.
-/
import MyLang.Ast

namespace MyLang

/-- How a name comes in. -/
inductive DeclKind where
  | function
  /-- `int x = e;` -/
  | definition
  /-- `int x;` -/
  | declaration
deriving DecidableEq, Repr

/-- A function or a local variable. -/
structure Introduced where
  kind : DeclKind
  name : String
  symbol : Option SymId
deriving DecidableEq, Repr

namespace AstNode

mutual

/-- The functions and the local variables of a tree, in the order of `sym_check`. -/
def introduced : AstNode → List Introduced
  | .funcDef value _ body _ symbol => ⟨.function, value, symbol⟩ :: body.introduced
  | .varDef value _ expr symbol => expr.introduced ++ [⟨.definition, value, symbol⟩]
  | .varDec value _ symbol => [⟨.declaration, value, symbol⟩]
  | .compStmt body => introducedList body
  | .ifElse ifExpr ifBody elseBody =>
      ifBody.introduced ++ (ifExpr.introduced ++ elseBody.introduced)
  | .while_ expr body => expr.introduced ++ body.introduced
  | .for_ init cond step body =>
      init.introduced ++ (cond.introduced ++ (step.introduced ++ body.introduced))
  | .ret expr _ => expr.introduced
  | .exprStmt expr => expr.introduced
  | .binExp _ _ left right => left.introduced ++ right.introduced
  | .unaryExpr postfixExpr _ _ => postfixExpr.introduced
  | .varAsgn target rval => target.introduced ++ rval.introduced
  | .lval _ target => target.introduced
  | .funcCall _ args _ => introducedList args
  | _ => []
termination_by structural node => node

/-- `introduced` of the elements of a list. -/
def introducedList : List AstNode → List Introduced
  | [] => []
  | node :: rest => node.introduced ++ introducedList rest
termination_by structural nodes => nodes

end

mutual

/-- The symbols the identifiers and calls of a tree resolve to. -/
def resolvesTo : AstNode → List (Option SymId)
  | .ident _ symbol => [symbol]
  | .funcCall _ args symbol => symbol :: resolvesToList args
  | .funcDef _ _ body _ _ => body.resolvesTo
  | .varDef _ _ expr _ => expr.resolvesTo
  | .compStmt body => resolvesToList body
  | .ifElse ifExpr ifBody elseBody =>
      ifBody.resolvesTo ++ (ifExpr.resolvesTo ++ elseBody.resolvesTo)
  | .while_ expr body => expr.resolvesTo ++ body.resolvesTo
  | .for_ init cond step body =>
      init.resolvesTo ++ (cond.resolvesTo ++ (step.resolvesTo ++ body.resolvesTo))
  | .ret expr _ => expr.resolvesTo
  | .exprStmt expr => expr.resolvesTo
  | .binExp _ _ left right => left.resolvesTo ++ right.resolvesTo
  | .unaryExpr postfixExpr _ _ => postfixExpr.resolvesTo
  | .varAsgn target rval => target.resolvesTo ++ rval.resolvesTo
  | .lval _ target => target.resolvesTo
  | _ => []
termination_by structural node => node

/-- `resolvesTo` of the elements of a list. -/
def resolvesToList : List AstNode → List (Option SymId)
  | [] => []
  | node :: rest => node.resolvesTo ++ resolvesToList rest
termination_by structural nodes => nodes

end

end AstNode

/-- No identifier and no call of a linked program resolves to it. -/
def Introduced.Unused (prog : List AstNode) (d : Introduced) : Prop :=
  d.symbol ∉ AstNode.resolvesToList prog

/-- It is the function `main`. -/
def Introduced.IsMain (d : Introduced) : Prop := d.kind = .function ∧ d.name = "main"

/-- It is a variable that `warn_unused` passes over: one with no value, or one called `main`. -/
def Introduced.PassedOver (d : Introduced) : Prop :=
  d.kind = .declaration ∨ d.kind = .definition ∧ d.name = "main"

instance (prog : List AstNode) (d : Introduced) : Decidable (d.Unused prog) :=
  inferInstanceAs (Decidable (¬ _))

instance (d : Introduced) : Decidable d.IsMain := inferInstanceAs (Decidable (_ ∧ _))

instance (d : Introduced) : Decidable d.PassedOver := inferInstanceAs (Decidable (_ ∨ _))

/-- The names that ought to be warned about. -/
def unusedNames (prog : List AstNode) : List String :=
  ((AstNode.introducedList prog).filter fun d => d.Unused prog ∧ ¬ d.IsMain).map Introduced.name

end MyLang
