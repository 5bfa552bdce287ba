/-
Where the compiler reads memory it has not written.

`make_symtab_entry` leaves `offset` as it is in the memory it gets, and only for variables
with a place in a stack frame it is set later.  An assignment takes the `offset` of its
target, whatever that stands for; an identifier that stands for a constant or a parameter
is read elsewhere, but the name of a function is read by its `offset` too.

The uses are listed along the tree, in the order in which code is generated for them.
What a parameter is depends on where its function stands: in front of it no parameter has
been loaded, and behind it the parameter stays as it is.
-/
import MyLang.Main
import MyLang.Proofs.SemaLayout

namespace MyLang

namespace AstNode

section Unset

/-
The entries of the analysis, the variables with a place in a stack frame, and the
parameters of the functions so far.
-/
variable (entries : List SymTabEntry) (vars params : List SymId)

/-- A symbol that is read by an `offset` never set. -/
def readUnset (symbol : Option SymId) : List SymId :=
  symbol.toList.filter fun id =>
    (entries[id]?.map SymTabEntry.symbol) ≠ some .const && id ∉ params && id ∉ vars

/-- A symbol that is assigned to by an `offset` never set. -/
def writtenUnset : AstNode → List SymId
  | .ident _ symbol => symbol.toList.filter (· ∉ vars)
  | _ => []

mutual

/-- The symbols of which a tree uses an `offset` that was never set. -/
def unsetUses : AstNode → List SymId
  | .ident _ symbol => readUnset entries vars params symbol
  | .lval _ target => writtenUnset vars target
  | .binExp _ _ left right => left.unsetUses ++ right.unsetUses
  | .unaryExpr postfixExpr _ _ => postfixExpr.unsetUses
  | .varAsgn target rval => target.unsetUses ++ rval.unsetUses
  | .funcCall _ args _ => unsetUsesList args
  | .varDef _ _ expr _ => expr.unsetUses
  | .compStmt body => unsetUsesList body
  | .ret expr _ => expr.unsetUses
  | .ifElse ifExpr ifBody elseBody => ifExpr.unsetUses ++ (ifBody.unsetUses ++ elseBody.unsetUses)
  | .while_ expr body => expr.unsetUses ++ body.unsetUses
  | .for_ init cond step body =>
      init.unsetUses ++ (cond.unsetUses ++ (body.unsetUses ++ step.unsetUses))
  | .exprStmt expr => expr.unsetUses
  | _ => []
termination_by structural node => node

/-- `unsetUses` of the elements of a list. -/
def unsetUsesList : List AstNode → List SymId
  | [] => []
  | node :: rest => node.unsetUses ++ unsetUsesList rest
termination_by structural nodes => nodes

end

end Unset

end AstNode

/-- The variables of the functions of a program. -/
def progVars : List AstNode → List SymId
  | .funcDef _ _ body _ _ :: rest => body.localIds ++ progVars rest
  | _ => []

/--
`unsetUses` of the functions of a program, the parameters of each in place for those behind
it too.
-/
def unsetUsesProg (entries : List SymTabEntry) (vars : List SymId) (params : List SymId) :
    List AstNode → List SymId
  | .funcDef _ _ body ps _ :: rest =>
      body.unsetUses entries vars (params ++ ps.filterMap Param.symbol) ++
        unsetUsesProg entries vars (params ++ ps.filterMap Param.symbol) rest
  | _ => []

/-- The symbols of which the code generator uses an `offset` that was never set. -/
def SemaResult.unsetUses (r : SemaResult) : List SymId :=
  unsetUsesProg r.entries (progVars r.prog) [] r.prog

end MyLang
