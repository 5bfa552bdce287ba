/-
The nodes `type_check` is called on.

`typeCheckTraced` is `type_check` with a log: each call writes down where its node stands
in the tree.  A call on `NULL` is undefined and is on no node, so it leaves nothing.

A binary operator has its left operand checked twice, and its right one not at all.
Whether a call gets so far is said without `type_check`: `plainType` is the type of a tree
that passes and in which no operator is visited, and `doubles` goes through a tree in the
order of the calls, as long as nothing stops them, to an operator with a left operand like
that.

The log is the state of the check, so it is there also where the check stops, with the
calls that were made until then.  A node is named by the way to it and not by what it is,
since two nodes of a tree may be alike.
-/
import MyLang.Sema
import MyLang.Typing

namespace MyLang

/-- Where a node stands in a tree: the children to take, from the root on. -/
abbrev Path := List Nat

/-- A check with the nodes it has been called on so far. -/
abbrev Traced := ExceptT SemaError (StateM (List Path))

/-- One more call. -/
def visit (path : Path) : Traced Unit := modify (· ++ [path])

/-- A check that calls nothing. -/
def quiet {α : Type} (x : Except SemaError α) : Traced α := ExceptT.mk (pure x)

section Visits

variable (entries : List SymTabEntry)

mutual

/-- `type_check` of the node at `path`. -/
def typeCheckTraced (path : Path) : AstNode → Traced TypeSpecifier
  | .compStmt body => do
      visit path
      typeCheckListTraced path 0 body
      return .void
  | .ifElse _ ifBody elseBody => do
      visit path
      let _ ← typeCheckTraced (path ++ [1]) ifBody
      if elseBody.nonNull then
        let _ ← typeCheckTraced (path ++ [2]) elseBody
        return .void
      else
        return .void
  | .varDef _ _ expr symbol => do
      visit path
      let expected ← quiet (symbolType entries symbol)
      let actual ← typeCheckTraced (path ++ [0]) expr
      quiet (assertTypeEq expected actual)
      return .void
  | .binExp _ _ left _ => do
      visit path
      let expected ← typeCheckTraced (path ++ [0]) left
      let actual ← typeCheckTraced (path ++ [0]) left
      quiet (assertTypeEq expected actual)
      return expected
  | .intConst _ => do
      visit path
      return .int
  | .funcDef _ _ body _ _ => do
      visit path
      let _ ← typeCheckTraced (path ++ [0]) body
      return .void
  | .ident _ symbol => do
      visit path
      quiet (symbolType entries symbol)
  | .funcCall _ _ symbol => do
      visit path
      quiet (symbolType entries symbol)
  | .ret expr func => do
      visit path
      let expected ← quiet (symbolType entries func)
      let actual ← typeCheckTraced (path ++ [0]) expr
      quiet (assertTypeEq expected actual)
      return expected
  | .varAsgn lval rval => do
      visit path
      let expected ← typeCheckTraced (path ++ [0]) lval
      let actual ← typeCheckTraced (path ++ [1]) rval
      quiet (assertTypeEq expected actual)
      return expected
  | .while_ _ body => do
      visit path
      typeCheckTraced (path ++ [1]) body
  | .for_ _ _ _ body => do
      visit path
      typeCheckTraced (path ++ [3]) body
  | .exprStmt expr => do
      visit path
      typeCheckTraced (path ++ [0]) expr
  | .unaryExpr postfixExpr _ _ => do
      visit path
      typeCheckTraced (path ++ [0]) postfixExpr
  | .enum _ _ => do
      visit path
      return .void
  | .varDec _ _ _ => do
      visit path
      return .void
  | .emptyExpr => do
      visit path
      return .void
  | .lval .ident (.ident _ symbol) => do
      visit path
      quiet (symbolType entries symbol)
  | .lval .ident _ => do
      visit path
      throw .undefined
  | .null => throw .undefined
termination_by structural node => node

/--
`type_check` on the elements of a vector, the first of them the child `i` of the node at
`path`.
-/
def typeCheckListTraced (path : Path) (i : Nat) : List AstNode → Traced Unit
  | [] => return ()
  | node :: rest => do
      let _ ← typeCheckTraced (path ++ [i]) node
      typeCheckListTraced path (i + 1) rest
termination_by structural nodes => nodes

end

/-- The nodes `type_check` is called on by a call on the root, in order. -/
def visits (node : AstNode) : List Path := (typeCheckTraced entries [] node []).2

mutual

/-- How many nodes a tree has. -/
def AstNode.nodeCount : AstNode → Nat
  | .compStmt body => AstNode.nodeCountList body + 1
  | .ifElse ifExpr ifBody elseBody => ifExpr.nodeCount + ifBody.nodeCount + elseBody.nodeCount + 1
  | .varDef _ _ expr _ => expr.nodeCount + 1
  | .binExp _ _ left right => left.nodeCount + right.nodeCount + 1
  | .funcDef _ _ body _ _ => body.nodeCount + 1
  | .funcCall _ args _ => AstNode.nodeCountList args + 1
  | .ret expr _ => expr.nodeCount + 1
  | .varAsgn target rval => target.nodeCount + rval.nodeCount + 1
  | .while_ expr body => expr.nodeCount + body.nodeCount + 1
  | .for_ init cond step body => init.nodeCount + cond.nodeCount + step.nodeCount + body.nodeCount
    + 1
  | .exprStmt expr => expr.nodeCount + 1
  | .unaryExpr postfixExpr _ _ => postfixExpr.nodeCount + 1
  | .lval _ target => target.nodeCount + 1
  | .intConst _ => 1
  | .ident _ _ => 1
  | .enum _ _ => 1
  | .varDec _ _ _ => 1
  | .emptyExpr => 1
  | .null => 0
termination_by structural node => node

/-- `nodeCount` of all the elements of a list. -/
def AstNode.nodeCountList : List AstNode → Nat
  | [] => 0
  | node :: rest => node.nodeCount + AstNode.nodeCountList rest
termination_by structural nodes => nodes

end

/-- No node is visited twice, and so no more calls are made than there are nodes. -/
def VisitsOnce (node : AstNode) : Prop := (visits entries node).Nodup ∧
    (visits entries node).length ≤ node.nodeCount

instance (node : AstNode) : Decidable (VisitsOnce entries node) :=
  inferInstanceAs (Decidable (_ ∧ _))

/-! ### Said of the tree

The two functions mirror the cases of `type_check`, without its log and its errors.
-/

/-- The type two things have, if it is one. -/
def sameType (expected actual : TypeSpecifier) : Option Unit :=
  if expected = actual then some () else none

namespace AstNode

mutual

/-- The type of a tree in which all that is visited passes, and is no binary operator. -/
def plainType : AstNode → Option TypeSpecifier
  | .compStmt body => do
      plainTypes body
      return .void
  | .ifElse _ ifBody elseBody => do
      let _ ← ifBody.plainType
      if elseBody.nonNull then
        let _ ← elseBody.plainType
        return .void
      else
        return .void
  | .varDef _ _ expr symbol => do
      let expected ← entryType entries symbol
      let actual ← expr.plainType
      sameType expected actual
      return .void
  | .binExp _ _ _ _ => none
  | .intConst _ => some .int
  | .funcDef _ _ body _ _ => do
      let _ ← body.plainType
      return .void
  | .ident _ symbol => entryType entries symbol
  | .funcCall _ _ symbol => entryType entries symbol
  | .ret expr func => do
      let expected ← entryType entries func
      let actual ← expr.plainType
      sameType expected actual
      return expected
  | .varAsgn target rval => do
      let expected ← target.plainType
      let actual ← rval.plainType
      sameType expected actual
      return expected
  | .while_ _ body => body.plainType
  | .for_ _ _ _ body => body.plainType
  | .exprStmt expr => expr.plainType
  | .unaryExpr postfixExpr _ _ => postfixExpr.plainType
  | .enum _ _ => some .void
  | .varDec _ _ _ => some .void
  | .emptyExpr => some .void
  | .lval .ident (.ident _ symbol) => entryType entries symbol
  | .lval .ident _ => none
  | .null => none
termination_by structural node => node

/-- All the elements of a list have a `plainType`. -/
def plainTypes : List AstNode → Option Unit
  | [] => some ()
  | node :: rest => do
      let _ ← node.plainType
      plainTypes rest
termination_by structural nodes => nodes

end

mutual

/-- A binary operator is met whose left operand passes, before anything stops the check. -/
def doubles : AstNode → Bool
  | .compStmt body => doublesList body
  | .ifElse _ ifBody elseBody =>
      ifBody.doubles || ((ifBody.plainType entries).isSome && elseBody.doubles)
  | .varDef _ _ expr symbol => (entryType entries symbol).isSome && expr.doubles
  | .binExp _ _ left _ => left.doubles || (left.plainType entries).isSome
  | .funcDef _ _ body _ _ => body.doubles
  | .ret expr func => (entryType entries func).isSome && expr.doubles
  | .varAsgn target rval => target.doubles || ((target.plainType entries).isSome && rval.doubles)
  | .while_ _ body => body.doubles
  | .for_ _ _ _ body => body.doubles
  | .exprStmt expr => expr.doubles
  | .unaryExpr postfixExpr _ _ => postfixExpr.doubles
  | _ => false
termination_by structural node => node

/-- The same of the elements of a list, one after another. -/
def doublesList : List AstNode → Bool
  | [] => false
  | node :: rest => node.doubles || ((node.plainType entries).isSome && doublesList rest)
termination_by structural nodes => nodes

end

end AstNode

end Visits

end MyLang
