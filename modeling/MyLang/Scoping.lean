/-
Lexical scoping, apart from the analysis.

`resolve` is what `sym_check` computes once scopes, heap and frames are put aside: it
links a tree in an environment, a list of the names in scope, newest first.  The
declarations of a program are numbered in the order of the source, and the number of a
declaration is its symbol.

What a program ought to satisfy is said apart from it.  `resolved` says of a linked tree
that every use of a name has the symbol of a declaration before it whose scope encloses
it.  `avoids` says of a tree that it looks up none of some names before it declares them
itself.

`resolve` follows the code where that is not lexical: the names a body declares without a
block are in scope in the condition of its `if`, and parameters stay in scope behind their
function.  `resolved` does not.  What the two have to do with each other is the matter of
`Proofs/Visible.lean`.
-/
import MyLang.HashMap
import MyLang.Ast

namespace MyLang

/--
What a name stands for: the number of its declaration, and how many parameters a function
has.
-/
structure Binding where
  id : SymId
  arity : Option Nat
deriving DecidableEq, Repr

/-- The names in scope, newest first. -/
abbrev Env := List (String × Binding)

/-- The bindings of names numbered from `next` on that are no functions, newest first. -/
def bindNames (next : Nat) (names : List String) : Env :=
  (names.zipIdx next).reverse.map fun p => (p.1, ⟨p.2, none⟩)

/-- A list without some elements. -/
def without (names drop : List String) : List String := names.filter (· ∉ drop)

namespace AstNode

/-! ### Uses and declarations

Read off the tree, in the order of the source.
-/

mutual

/-- The identifiers an expression looks up, each with the symbol it is linked to. -/
def uses : AstNode → List (String × Option SymId)
  | .ident value symbol => [(value, symbol)]
  | .funcCall value args symbol => (value, symbol) :: usesList args
  | .binExp _ _ left right => left.uses ++ right.uses
  | .unaryExpr postfixExpr _ _ => postfixExpr.uses
  | .varAsgn target rval => target.uses ++ rval.uses
  | .lval _ target => target.uses
  | _ => []
termination_by structural node => node

/-- `uses` of the elements of a list. -/
def usesList : List AstNode → List (String × Option SymId)
  | [] => []
  | node :: rest => node.uses ++ usesList rest
termination_by structural nodes => nodes

end

mutual

/-- How many declarations there are in a statement. -/
def declCount : AstNode → Nat
  | .varDec _ _ _ => 1
  | .varDef _ _ _ _ => 1
  | .enum _ enums => enums.length
  | .compStmt body => declCountList body
  | .ifElse _ ifBody elseBody => ifBody.declCount + elseBody.declCount
  | .while_ _ body => body.declCount
  | .for_ init _ _ body => init.declCount + body.declCount
  | _ => 0
termination_by structural node => node

/-- How many declarations there are in the elements of a list. -/
def declCountList : List AstNode → Nat
  | [] => 0
  | node :: rest => node.declCount + declCountList rest
termination_by structural nodes => nodes

end

/-- What a statement leaves in scope; its declarations are numbered from `next` on. -/
def binds (next : Nat) : AstNode → Env
  | .varDec value _ _ => bindNames next [value]
  | .varDef value _ _ _ => bindNames next [value]
  | .enum _ enums => bindNames next enums
  | .ifElse _ ifBody elseBody =>
      elseBody.binds (next + ifBody.declCount) ++ ifBody.binds next
  | .while_ _ body => body.binds next
  | _ => []

/-- The names a statement leaves in scope. -/
def names : AstNode → List String
  | .varDec value _ _ => [value]
  | .varDef value _ _ _ => [value]
  | .enum _ enums => enums
  | .ifElse _ ifBody elseBody => ifBody.names ++ elseBody.names
  | .while_ _ body => body.names
  | _ => []

/-! ### Linking

A name that is not in scope leaves the tree unlinked, and so does a variable whose name is
in scope already.
-/

section Resolve

variable (typeEnv : HashMap TypeSpecifier) (func : String)

mutual

/-- An expression linked in an environment. -/
def resolveExpr (env : Env) : AstNode → Option AstNode
  | .intConst value => some (.intConst value)
  | .emptyExpr => some .emptyExpr
  | .ident value _ => do
      let binding ← env.lookup value
      return .ident value (some binding.id)
  | .funcCall value args _ => do
      let binding ← env.lookup value
      if binding.arity ≠ some args.length then
        none
      let args ← resolveExprs env args
      return .funcCall value args (some binding.id)
  | .binExp value opType left right => do
      let left ← left.resolveExpr env
      let right ← right.resolveExpr env
      return .binExp value opType left right
  | .unaryExpr postfixExpr value opType => do
      let postfixExpr ← postfixExpr.resolveExpr env
      return .unaryExpr postfixExpr value opType
  | .varAsgn target rval => do
      let target ← target.resolveExpr env
      let rval ← rval.resolveExpr env
      return .varAsgn target rval
  | .lval kind target => do
      let target ← target.resolveExpr env
      return .lval kind target
  | _ => none
termination_by structural node => node

/-- Expressions linked in an environment. -/
def resolveExprs (env : Env) : List AstNode → Option (List AstNode)
  | [] => some []
  | node :: rest => do
      let node ← node.resolveExpr env
      let rest ← resolveExprs env rest
      return node :: rest
termination_by structural nodes => nodes

end

mutual

/--
A statement of the function `func` linked in an environment, its declarations
numbered from `next` on.  The body of an `if` comes before its condition.
-/
def resolve (env : Env) (next : Nat) : AstNode → Option AstNode
  | .varDec value type _ => do
      if (env.lookup value).isSome then
        none
      let _ ← hashmapGet typeEnv type
      return .varDec value type (some next)
  | .varDef value type expr _ => do
      if (env.lookup value).isSome then
        none
      let expr ← expr.resolveExpr env
      let _ ← hashmapGet typeEnv type
      return .varDef value type expr (some next)
  | .enum value enums => some (.enum value enums)
  | .compStmt body => do
      let body ← resolveList env next body
      return .compStmt body
  | .ifElse ifExpr ifBody elseBody => do
      let ifBody' ← ifBody.resolve env next
      let env := ifBody.binds next ++ env
      let ifExpr ← ifExpr.resolveExpr env
      if elseBody.nonNull then
        let elseBody ← elseBody.resolve env (next + ifBody.declCount)
        return .ifElse ifExpr ifBody' elseBody
      else
        return .ifElse ifExpr ifBody' elseBody
  | .while_ expr body => do
      let expr ← expr.resolveExpr env
      let body ← body.resolve env next
      return .while_ expr body
  | .for_ init cond step body => do
      let init' ← init.resolve env next
      let env := init.binds next ++ env
      let cond ← cond.resolveExpr env
      let step ← step.resolveExpr env
      let body ← body.resolve env (next + init.declCount)
      return .for_ init' cond step body
  | .ret expr _ => do
      let expr ← expr.resolveExpr env
      return .ret expr ((env.lookup func).map Binding.id)
  | .exprStmt expr => do
      let expr ← expr.resolveExpr env
      return .exprStmt expr
  | expr => expr.resolveExpr env
termination_by structural node => node

/-- Statements linked one after the other. -/
def resolveList (env : Env) (next : Nat) : List AstNode → Option (List AstNode)
  | [] => some []
  | node :: rest => do
      let node' ← node.resolve env next
      let rest ← resolveList (node.binds next ++ env) (next + node.declCount) rest
      return node' :: rest
termination_by structural nodes => nodes

end

end Resolve

/-! ### What linking ought to guarantee

The declarations in scope are passed down the tree, and each use is looked up among them.
-/

/-- Every use of a name in an expression is linked to one of the visible symbols. -/
def resolvedIn (vis : List SymId) (node : AstNode) : Bool :=
  node.uses.all fun u => u.2.any (· ∈ vis)

/-- The symbols of the declarations a statement leaves in scope. -/
def leaves (next : Nat) : AstNode → List SymId
  | .varDec _ _ symbol => symbol.toList
  | .varDef _ _ _ symbol => symbol.toList
  | .enum _ enums => List.range' next enums.length
  | .ifElse _ ifBody elseBody =>
      elseBody.leaves (next + ifBody.declCount) ++ ifBody.leaves next
  | .while_ _ body => body.leaves next
  | _ => []

mutual

/--
Every use of a name in a statement is linked to a declaration before it whose scope
encloses it; `vis` are those before the statement.
-/
def resolved (vis : List SymId) (next : Nat) : AstNode → Bool
  | .varDec _ _ _ => true
  | .enum _ _ => true
  | .varDef _ _ expr _ => expr.resolvedIn vis
  | .compStmt body => resolvedList vis next body
  | .ifElse ifExpr ifBody elseBody =>
      ifExpr.resolvedIn vis && ifBody.resolved vis next &&
        elseBody.resolved (ifBody.leaves next ++ vis) (next + ifBody.declCount)
  | .while_ expr body => expr.resolvedIn vis && body.resolved vis next
  | .for_ init cond step body =>
      init.resolved vis next && cond.resolvedIn (init.leaves next ++ vis) &&
        step.resolvedIn (init.leaves next ++ vis) &&
        body.resolved (init.leaves next ++ vis) (next + init.declCount)
  | .ret expr _ => expr.resolvedIn vis
  | .exprStmt expr => expr.resolvedIn vis
  | expr => expr.resolvedIn vis
termination_by structural node => node

/-- `resolved` for the elements of a list, each seeing what the ones before leave in scope. -/
def resolvedList (vis : List SymId) (next : Nat) : List AstNode → Bool
  | [] => true
  | node :: rest =>
      node.resolved vis next && resolvedList (node.leaves next ++ vis) (next + node.declCount) rest
termination_by structural nodes => nodes

end

/-! ### Names that are not looked up

A name that a statement declares is not avoided by being declared, only by not being used
before.
-/

/-- An expression looks up none of the names. -/
def looksUpNone (bad : List String) (node : AstNode) : Bool :=
  node.uses.all fun u => u.1 ∉ bad

mutual

/--
A statement looks up none of the names, unless it has declared them before, and declares
none as a variable.
-/
def avoids (bad : List String) : AstNode → Bool
  | .varDec value _ _ => value ∉ bad
  | .varDef value _ expr _ => value ∉ bad && expr.looksUpNone bad
  | .enum _ _ => true
  | .compStmt body => avoidsList bad body
  | .ifElse ifExpr ifBody elseBody =>
      ifBody.avoids bad && ifExpr.looksUpNone (without bad ifBody.names) &&
        elseBody.avoids (without bad ifBody.names)
  | .while_ expr body => expr.looksUpNone bad && body.avoids bad
  | .for_ init cond step body =>
      init.avoids bad && cond.looksUpNone (without bad init.names) &&
        step.looksUpNone (without bad init.names) && body.avoids (without bad init.names)
  | .ret expr _ => expr.looksUpNone bad
  | .exprStmt expr => expr.looksUpNone bad
  | expr => expr.looksUpNone bad
termination_by structural node => node

/-- `avoids` for the elements of a list, less and less to avoid. -/
def avoidsList (bad : List String) : List AstNode → Bool
  | [] => true
  | node :: rest => node.avoids bad && avoidsList (without bad node.names) rest
termination_by structural nodes => nodes

end

mutual

/-- No condition of an `if` looks up a name that the body of the `if` leaves in scope. -/
def condsApart : AstNode → Bool
  | .compStmt body => condsApartList body
  | .ifElse ifExpr ifBody elseBody =>
      ifExpr.looksUpNone ifBody.names && ifBody.condsApart && elseBody.condsApart
  | .while_ _ body => body.condsApart
  | .for_ _ _ _ body => body.condsApart
  | _ => true
termination_by structural node => node

/-- `condsApart` for the elements of a list. -/
def condsApartList : List AstNode → Bool
  | [] => true
  | node :: rest => node.condsApart && condsApartList rest
termination_by structural nodes => nodes

end

end AstNode

/-! ### Programs

A function is in scope in its own body and in all that comes behind it.
-/

/-- The names of some parameters. -/
def paramNames (params : List Param) : List String := params.map Param.value

/--
What a function with declarations numbered from `next` on leaves in scope: itself and its
parameters.
-/
def funcBinds (next : Nat) (value : String) (params : List Param) : Env :=
  (value, ⟨next + params.length, some params.length⟩) :: bindNames next (paramNames params)

/-- Parameters linked to the numbers from `next` on. -/
def linkParams (next : Nat) (params : List Param) : List Param :=
  (params.zipIdx next).map fun p => { p.1 with symbol := some p.2 }

/-- How many declarations there are in a function and its body. -/
def funcDeclCount (params : List Param) (body : AstNode) : Nat :=
  params.length + 1 + body.declCount

section ResolveProg

variable (typeEnv : HashMap TypeSpecifier)

/-- A function linked in an environment, its declarations numbered from `next` on. -/
def resolveFunc (env : Env) (next : Nat) (value type : String) (params : List Param)
    (body : AstNode) : Option AstNode := do
  if (env.lookup value).isSome then
    none
  if params.any fun param => (hashmapGet typeEnv param.type).isNone then
    none
  let _ ← hashmapGet typeEnv type
  let body ← body.resolve typeEnv value (funcBinds next value params ++ env)
    (next + params.length + 1)
  return .funcDef value type body (linkParams next params) (some (next + params.length))

/-- A program linked function by function. -/
def resolveProg (env : Env) (next : Nat) : List AstNode → Option (List AstNode)
  | [] => some []
  | .funcDef value type body params _ :: rest => do
      let node ← resolveFunc typeEnv env next value type params body
      let rest ← resolveProg (funcBinds next value params ++ env)
        (next + funcDeclCount params body) rest
      return node :: rest
  | _ => none

end ResolveProg

/--
In every function of a program every use of a name is linked to one of its own
parameters, to itself, to a function before it, `funcs`, or to a declaration in its
body before the use whose scope encloses it.
-/
def resolvedProg (funcs : List SymId) (next : Nat) : List AstNode → Bool
  | .funcDef _ _ body params symbol :: rest =>
      body.resolved (symbol.toList ++ (params.filterMap Param.symbol ++ funcs))
          (next + params.length + 1) &&
        resolvedProg (symbol.toList ++ funcs) (next + funcDeclCount params body) rest
  | _ => true

/--
No function uses a name that last stood for a parameter of a function before it;
`leaked` are those of the functions so far.
-/
def leakFree (leaked : List String) : List AstNode → Bool
  | .funcDef value _ body params _ :: rest =>
      body.avoids (without leaked (value :: paramNames params)) &&
        leakFree (without (paramNames params ++ leaked) [value]) rest
  | _ => true

/-- No `if` of a program looks up a name in its condition that its body leaves in scope. -/
def condsApartProg : List AstNode → Bool
  | .funcDef _ _ body _ _ :: rest => body.condsApart && condsApartProg rest
  | _ => true

/-! ### Renaming a parameter

Renaming is a function on names that is applied to a whole tree.  The parameter is renamed
where the function declares it and in its body, and the other functions stay as they are.
-/

namespace AstNode

mutual

/-- A tree with its identifiers renamed. -/
def relabel (f : String → String) : AstNode → AstNode
  | .intConst value => .intConst value
  | .binExp value opType left right => .binExp value opType (left.relabel f) (right.relabel f)
  | .funcDef value type body params symbol =>
      .funcDef (f value) type (body.relabel f)
        (params.map fun param => { param with value := f param.value }) symbol
  | .varDef value type expr symbol => .varDef (f value) type (expr.relabel f) symbol
  | .ident value symbol => .ident (f value) symbol
  | .compStmt body => .compStmt (relabelList f body)
  | .funcCall value args symbol => .funcCall (f value) (relabelList f args) symbol
  | .ret expr func => .ret (expr.relabel f) func
  | .ifElse ifExpr ifBody elseBody =>
      .ifElse (ifExpr.relabel f) (ifBody.relabel f) (elseBody.relabel f)
  | .enum value enums => .enum value (enums.map f)
  | .varDec value type symbol => .varDec (f value) type symbol
  | .varAsgn target rval => .varAsgn (target.relabel f) (rval.relabel f)
  | .while_ expr body => .while_ (expr.relabel f) (body.relabel f)
  | .for_ init cond step body =>
      .for_ (init.relabel f) (cond.relabel f) (step.relabel f) (body.relabel f)
  | .emptyExpr => .emptyExpr
  | .exprStmt expr => .exprStmt (expr.relabel f)
  | .unaryExpr postfixExpr value opType => .unaryExpr (postfixExpr.relabel f) value opType
  | .lval kind target => .lval kind (target.relabel f)
  | .null => .null
termination_by structural node => node

/-- The elements of a list with their identifiers renamed. -/
def relabelList (f : String → String) : List AstNode → List AstNode
  | [] => []
  | node :: rest => node.relabel f :: relabelList f rest
termination_by structural nodes => nodes

end

mutual

/-- The identifiers a statement uses or declares. -/
def idents : AstNode → List String
  | .binExp _ _ left right => left.idents ++ right.idents
  | .varDef value _ expr _ => value :: expr.idents
  | .ident value _ => [value]
  | .compStmt body => identsList body
  | .funcCall value args _ => value :: identsList args
  | .ret expr _ => expr.idents
  | .ifElse ifExpr ifBody elseBody => ifExpr.idents ++ (ifBody.idents ++ elseBody.idents)
  | .enum _ enums => enums
  | .varDec value _ _ => [value]
  | .varAsgn target rval => target.idents ++ rval.idents
  | .while_ expr body => expr.idents ++ body.idents
  | .for_ init cond step body => init.idents ++ (cond.idents ++ (step.idents ++ body.idents))
  | .exprStmt expr => expr.idents
  | .unaryExpr postfixExpr _ _ => postfixExpr.idents
  | .lval _ target => target.idents
  | _ => []
termination_by structural node => node

/-- `idents` of the elements of a list. -/
def identsList : List AstNode → List String
  | [] => []
  | node :: rest => node.idents ++ identsList rest
termination_by structural nodes => nodes

end

end AstNode

/-- `y` in the place of `x`. -/
def renamed (x y key : String) : String := if key = x then y else key

/--
A function with its parameter `x` renamed to `y`.  If the function is called `x` itself,
the name stands for the function in its body, which stays as it is.
-/
def renameParam (x y : String) : AstNode → AstNode
  | .funcDef value type body params symbol =>
      .funcDef value type (if value = x then body else body.relabel (renamed x y))
        (params.map fun param => { param with value := renamed x y param.value }) symbol
  | node => node

/--
The names that stand for something else behind a function called `value` once its parameter
`x` is called `y`.
-/
def renamedNames (value x y : String) : List String := if value = x then [y] else [x, y]

/--
No function looks up or declares one of the names, unless a parameter or function has
taken the name before.
-/
def avoidsProg (bad : List String) : List AstNode → Bool
  | .funcDef value _ body params _ :: rest =>
      value ∉ bad && body.avoids (without bad (value :: paramNames params)) &&
        avoidsProg (without bad (value :: paramNames params)) rest
  | _ => true

end MyLang
