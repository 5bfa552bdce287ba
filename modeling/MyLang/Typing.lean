/-
What ought to be well typed, apart from `type_check`.

`exprType` is the type of an expression, if it has one: the operands of a binary operator
have to agree.  `constructs` lists what has to have a certain type, wherever it occurs in a
tree: initialisers, right sides of assignments, returned expressions and arguments.

`skipped` lists those that `type_check` does not look at.  It passes over conditions,
headers of `for`, right operands and arguments, and over the operands of an operator of
which only the left one has the type that is asked for.  A `return` is compared with what
the name of its function stands for, which is another thing where an enum constant hides
it.

`visitedOperands` are the operands of the operators it does visit.  Each should have the type
of the other one; `laterHeads` are the leaves that decide whether they do.
-/
import MyLang.Scoping

namespace MyLang

/-- Something that has to have a certain type. -/
structure Construct where
  expected : Option TypeSpecifier
  actual : Option TypeSpecifier
deriving DecidableEq, Repr

/-- It has the type. -/
def Construct.WellTyped (c : Construct) : Prop := c.actual.isSome = true ∧ c.expected = c.actual

instance (c : Construct) : Decidable c.WellTyped := inferInstanceAs (Decidable (_ ∧ _))

/-- A construct, if its expression has no type. -/
def Construct.untyped (c : Construct) : List Construct := if c.actual.isSome then [] else [c]

section Typing

variable (entries : List SymTabEntry)

/-- The type of what a symbol stands for. -/
def entryType (symbol : Option SymId) : Option TypeSpecifier :=
  (symbol.bind (entries[·]?)).map SymTabEntry.type

/-- The parameters of the function a symbol stands for. -/
def entryParams (symbol : Option SymId) : List Param :=
  ((symbol.bind (entries[·]?)).bind SymTabEntry.params).getD []

namespace AstNode

/-- The type of an expression. -/
def exprType : AstNode → Option TypeSpecifier
  | .intConst _ => some .int
  | .ident _ symbol => entryType entries symbol
  | .funcCall _ _ symbol => entryType entries symbol
  | .binExp _ _ left right =>
      if left.exprType = right.exprType then left.exprType else none
  | .unaryExpr postfixExpr _ _ => postfixExpr.exprType
  | .varAsgn target _ => target.exprType
  | .lval _ target => target.exprType
  | .emptyExpr => some .void
  | _ => none
termination_by structural node => node

/-- Every argument has to have the type of its parameter. -/
def argConstructs (params : List Param) (args : List AstNode) : List Construct :=
  List.zipWith (fun param arg => ⟨entryType entries param.symbol, arg.exprType entries⟩) params args

mutual

/-- What has to have a certain type in a function that returns a `ret`. -/
def constructs (ret : Option TypeSpecifier) : AstNode → List Construct
  | .compStmt body => constructsList ret body
  | .ifElse ifExpr ifBody elseBody =>
      ifExpr.constructs ret ++ (ifBody.constructs ret ++ elseBody.constructs ret)
  | .varDef _ _ expr symbol =>
      ⟨entryType entries symbol, expr.exprType entries⟩ :: expr.constructs ret
  | .binExp _ _ left right => left.constructs ret ++ right.constructs ret
  | .funcDef _ _ body _ symbol => body.constructs (entryType entries symbol)
  | .funcCall _ args symbol =>
      argConstructs entries (entryParams entries symbol) args ++ constructsList ret args
  | .ret expr _ => ⟨ret, expr.exprType entries⟩ :: expr.constructs ret
  | .varAsgn target rval =>
      ⟨target.exprType entries, rval.exprType entries⟩ :: (target.constructs ret
        ++ rval.constructs ret)
  | .while_ expr body => expr.constructs ret ++ body.constructs ret
  | .for_ init cond step body =>
      init.constructs ret ++ (cond.constructs ret ++ (step.constructs ret ++ body.constructs ret))
  | .exprStmt expr => expr.constructs ret
  | .unaryExpr postfixExpr _ _ => postfixExpr.constructs ret
  | .lval _ target => target.constructs ret
  | _ => []
termination_by structural node => node

/-- `constructs` of the elements of a list. -/
def constructsList (ret : Option TypeSpecifier) : List AstNode → List Construct
  | [] => []
  | node :: rest => node.constructs ret ++ constructsList ret rest
termination_by structural nodes => nodes

end

mutual

/--
What `type_check` does not look at, in the function `func` that returns a `ret`; `hidden` says
that its name stands for something else.
-/
def skipped (func : String) (ret : Option TypeSpecifier) (hidden : Bool) : AstNode → List Construct
  | .compStmt body => skippedList func ret hidden body
  | .ifElse ifExpr ifBody elseBody =>
      ifExpr.constructs entries ret ++ (ifBody.skipped func ret hidden ++
        elseBody.skipped func ret (hidden || decide (func ∈ ifBody.names)))
  | .varDef _ _ expr symbol =>
      Construct.untyped ⟨entryType entries symbol, expr.exprType entries⟩
        ++ expr.skipped func ret hidden
  | .binExp _ _ left right => left.skipped func ret hidden ++ right.constructs entries ret
  | .funcDef value _ body _ symbol => body.skipped value (entryType entries symbol) false
  | .funcCall value args symbol => (AstNode.funcCall value args symbol).constructs entries ret
  | .ret expr _ =>
      (if hidden then [⟨ret, expr.exprType entries⟩]
        else Construct.untyped ⟨ret, expr.exprType entries⟩) ++ expr.skipped func ret hidden
  | .varAsgn target rval =>
      Construct.untyped ⟨target.exprType entries, rval.exprType entries⟩
        ++ rval.skipped func ret hidden
  | .while_ expr body => expr.constructs entries ret ++ body.skipped func ret hidden
  | .for_ init cond step body =>
      init.constructs entries ret ++ (cond.constructs entries ret ++ (step.constructs entries ret ++
        body.skipped func ret (hidden || decide (func ∈ init.names))))
  | .exprStmt expr => expr.skipped func ret hidden
  | .unaryExpr postfixExpr _ _ => postfixExpr.skipped func ret hidden
  | _ => []
termination_by structural node => node

/-- `skipped` of the elements of a list, each seeing what the ones before leave in scope. -/
def skippedList (func : String) (ret : Option TypeSpecifier) (hidden : Bool) :
    List AstNode → List Construct
  | [] => []
  | node :: rest =>
      node.skipped func ret hidden ++
        skippedList func ret (hidden || decide (func ∈ node.names)) rest
termination_by structural nodes => nodes

end

/-! ### The operators `type_check` visits

Only these are in question where operands are compared, and their leaves decide.
-/

/-- The operand an expression takes its type from: the leftmost one. -/
def head : AstNode → AstNode
  | .binExp _ _ left _ => left.head
  | .unaryExpr postfixExpr _ _ => postfixExpr.head
  | .varAsgn target _ => target.head
  | .lval _ target => target.head
  | node => node
termination_by structural node => node

/-- The type of an expression, whatever its right operands are. -/
def leftType : AstNode → Option TypeSpecifier
  | .intConst _ => some .int
  | .ident _ symbol => entryType entries symbol
  | .funcCall _ _ symbol => entryType entries symbol
  | .binExp _ _ left _ => left.leftType
  | .unaryExpr postfixExpr _ _ => postfixExpr.leftType
  | .varAsgn target _ => target.leftType
  | .lval _ target => target.leftType
  | .emptyExpr => some .void
  | _ => none
termination_by structural node => node

mutual

/-- The operands of the binary expressions `type_check` visits. -/
def visitedOperands : AstNode → List (AstNode × AstNode)
  | .compStmt body => visitedOperandsList body
  | .ifElse _ ifBody elseBody => ifBody.visitedOperands ++ elseBody.visitedOperands
  | .varDef _ _ expr _ => expr.visitedOperands
  | .binExp _ _ left right => (left, right) :: left.visitedOperands
  | .funcDef _ _ body _ _ => body.visitedOperands
  | .ret expr _ => expr.visitedOperands
  | .varAsgn target rval => target.visitedOperands ++ rval.visitedOperands
  | .while_ _ body => body.visitedOperands
  | .for_ _ _ _ body => body.visitedOperands
  | .exprStmt expr => expr.visitedOperands
  | .unaryExpr postfixExpr _ _ => postfixExpr.visitedOperands
  | _ => []
termination_by structural node => node

/-- `visitedOperands` of the elements of a list. -/
def visitedOperandsList : List AstNode → List (AstNode × AstNode)
  | [] => []
  | node :: rest => node.visitedOperands ++ visitedOperandsList rest
termination_by structural nodes => nodes

end

mutual

/-- The initialisers, returned expressions and expression statements `type_check` comes to. -/
def fullExprs : AstNode → List AstNode
  | .compStmt body => fullExprsList body
  | .ifElse _ ifBody elseBody => ifBody.fullExprs ++ elseBody.fullExprs
  | .varDef _ _ expr _ => [expr]
  | .funcDef _ _ body _ _ => body.fullExprs
  | .ret expr _ => [expr]
  | .while_ _ body => body.fullExprs
  | .for_ _ _ _ body => body.fullExprs
  | .exprStmt expr => [expr]
  | _ => []
termination_by structural node => node

/-- `fullExprs` of the elements of a list. -/
def fullExprsList : List AstNode → List AstNode
  | [] => []
  | node :: rest => node.fullExprs ++ fullExprsList rest
termination_by structural nodes => nodes

end

/-- The leftmost operands of the right operands that follow in an expression. -/
def laterHeads : AstNode → List AstNode
  | .binExp _ _ left right => right.head :: left.laterHeads
  | .unaryExpr postfixExpr _ _ => postfixExpr.laterHeads
  | .varAsgn _ rval => rval.laterHeads
  | _ => []
termination_by structural node => node

end AstNode

end Typing

end MyLang
