/-
What linking leaves for code generation.

A symbol pointer is followed wherever code is generated for a name: it has to lead to an
entry, and where a function is called or returned from, to an entry with a stack frame.  A
`return` has the symbol that the name of its function stands for where it is, and that
need not be the function's.

`linked` asks this of all symbols of a tree, and of that of a `return` only that it leads
to an entry.  The symbols of `return`s are listed apart (`returnSymbols`), and
`returnsSee` says of a function whether its name has been taken where one of them stands.
-/
import MyLang.Scoping

namespace MyLang

/-- The stack frame of the function a symbol stands for. -/
def frameOf (entries : List SymTabEntry) (frames : List StackFrame) (symbol : Option SymId) :
    Option StackFrame := do
  let id ← symbol
  let entry ← entries[id]?
  let frame ← entry.frame
  frames[frame]?

namespace AstNode

mutual

/-- Every symbol leads to an entry, and a called one to that of a function with a frame. -/
def linked (entries : List SymTabEntry) (frames : List StackFrame) : AstNode → Bool
  | .ident _ symbol => (symbol.bind (entries[·]?)).isSome
  | .funcCall _ args symbol =>
      (frameOf entries frames symbol).isSome && linkedList entries frames args
  | .binExp _ _ left right => left.linked entries frames && right.linked entries frames
  | .unaryExpr postfixExpr _ _ => postfixExpr.linked entries frames
  | .varAsgn target rval => target.linked entries frames && rval.linked entries frames
  | .lval _ target => target.linked entries frames
  | .varDef _ _ expr symbol => (symbol.bind (entries[·]?)).isSome && expr.linked entries frames
  | .ret expr func => (func.bind (entries[·]?)).isSome && expr.linked entries frames
  | .exprStmt expr => expr.linked entries frames
  | .compStmt body => linkedList entries frames body
  | .ifElse ifExpr ifBody elseBody =>
      ifExpr.linked entries frames && ifBody.linked entries frames && elseBody.linked entries frames
  | .while_ expr body => expr.linked entries frames && body.linked entries frames
  | .for_ init cond step body =>
      init.linked entries frames && cond.linked entries frames && step.linked entries frames &&
        body.linked entries frames
  | .funcDef _ _ body _ symbol =>
      (frameOf entries frames symbol).isSome && body.linked entries frames
  | _ => true
termination_by structural node => node

/-- `linked` for each of the nodes. -/
def linkedList (entries : List SymTabEntry) (frames : List StackFrame) : List AstNode → Bool
  | [] => true
  | node :: rest => node.linked entries frames && linkedList entries frames rest
termination_by structural nodes => nodes

end

mutual

/-- The symbols the `return`s of a statement are linked to. -/
def returnSymbols : AstNode → List (Option SymId)
  | .ret _ func => [func]
  | .compStmt body => returnSymbolsList body
  | .ifElse _ ifBody elseBody => ifBody.returnSymbols ++ elseBody.returnSymbols
  | .while_ _ body => body.returnSymbols
  | .for_ _ _ _ body => body.returnSymbols
  | _ => []
termination_by structural node => node

/-- `returnSymbols` of the elements of a list. -/
def returnSymbolsList : List AstNode → List (Option SymId)
  | [] => []
  | node :: rest => node.returnSymbols ++ returnSymbolsList rest
termination_by structural nodes => nodes

end

mutual

/--
Where a `return` of the function `func` stands, no declaration in scope has taken that
name; `hidden` says that one has, and an enumeration constant is the only one that can.
-/
def returnsSee (func : String) (hidden : Bool) : AstNode → Bool
  | .ret _ _ => !hidden
  | .compStmt body => returnsSeeList func hidden body
  | .ifElse _ ifBody elseBody =>
      ifBody.returnsSee func hidden &&
        elseBody.returnsSee func (hidden || decide (func ∈ ifBody.names))
  | .while_ _ body => body.returnsSee func hidden
  | .for_ init _ _ body => body.returnsSee func (hidden || decide (func ∈ init.names))
  | _ => true
termination_by structural node => node

/-- `returnsSee` for each of the statements, in the scope of what the ones before declare. -/
def returnsSeeList (func : String) (hidden : Bool) : List AstNode → Bool
  | [] => true
  | node :: rest =>
      node.returnsSee func hidden &&
        returnsSeeList func (hidden || decide (func ∈ node.names)) rest
termination_by structural nodes => nodes

end

end AstNode

end MyLang
