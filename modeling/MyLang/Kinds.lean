/-
What `sym_check` comes across in a program.

A name stands for a variable, for a constant or for a function with so many parameters.
The uses and declarations of a program, in the order in which they are checked and each
with what its name stands for there, are its events.  Some of them end the analysis, with
a message or by following a pointer that leads nowhere; of the others some are no use that
a name of the kind allows.

The events are read off the tree, with an environment of kinds passed along that has in it
what the analysis has in its scopes.  Nothing of the analysis itself is used but the order
in which it goes through a node, so that what it reports can be said in terms of the
source: names, kinds, and numbers of arguments.
-/
import MyLang.Sema
import MyLang.Scoping

namespace MyLang

/-- What a name stands for. -/
inductive NameKind where
  | variable
  | const
  /-- A function and the number of its parameters. -/
  | function (arity : Nat)
deriving DecidableEq, Repr

/-- The names in scope, newest first. -/
abbrev KindEnv := List (String × NameKind)

/-- What the analysis comes across. -/
inductive Event where
  /-- A name is declared that may be taken; the error says so. -/
  | declare (error : SemaError) (taken : Bool)
  /-- A type is looked up. -/
  | typeName (known : Bool)
  | read (value : String) (kind : Option NameKind)
  | assign (value : String) (kind : Option NameKind)
  | call (value : String) (kind : Option NameKind) (numArgs : Nat)
deriving DecidableEq, Repr

namespace Event

/-- How an event stops the analysis, if it does. -/
def stop : Event → Option SemaError
  | .declare error taken => if taken then some error else none
  | .typeName known => if known then none else some .undefined
  | .read value kind => if kind.isSome then none else some (.undefinedVariable value)
  | .assign value kind => if kind.isSome then none else some (.undefinedVariable value)
  | .call value (some (.function arity)) numArgs =>
      if arity = numArgs then none else some (.mismatchingArgs value)
  | .call _ _ _ => some .undefined

/-- A name is used as what it stands for. -/
def right : Event → Bool
  | .read _ kind => kind = some .variable || kind = some .const
  | .assign _ kind => kind = some .variable
  | _ => true

end Event

namespace AstNode

/-- What the names stand for that a statement leaves in scope. -/
def kinds : AstNode → KindEnv
  | .varDec value _ _ => [(value, .variable)]
  | .varDef value _ _ _ => [(value, .variable)]
  | .enum _ enums => (enums.map fun key => (key, NameKind.const)).reverse
  | .ifElse _ ifBody elseBody => elseBody.kinds ++ ifBody.kinds
  | .while_ _ body => body.kinds
  | _ => []

/-- The environment behind some statements. -/
def kindsAfter (env : KindEnv) (l : List AstNode) : KindEnv :=
  l.foldl (fun env node => node.kinds ++ env) env

section Events

variable (typeEnv : HashMap TypeSpecifier)

mutual

/-- The events of an expression or a statement. -/
def events (env : KindEnv) : AstNode → List Event
  | .ident value _ => [.read value (env.lookup value)]
  | .lval _ (.ident value _) => [.assign value (env.lookup value)]
  | .funcCall value args _ => .call value (env.lookup value) args.length :: eventsList env args
  | .binExp _ _ left right => left.events env ++ right.events env
  | .unaryExpr postfixExpr _ _ => postfixExpr.events env
  | .varAsgn target rval => target.events env ++ rval.events env
  | .varDef value type expr _ =>
      .declare .redefinitionOfVariable (env.lookup value).isSome ::
        (expr.events env ++ [.typeName (hashmapGet typeEnv type).isSome])
  | .varDec value type _ =>
      [.declare .redeclarationOfVariable (env.lookup value).isSome,
        .typeName (hashmapGet typeEnv type).isSome]
  | .compStmt body => eventsList env body
  | .ifElse ifExpr ifBody elseBody =>
      ifBody.events env ++ (ifExpr.events (ifBody.kinds ++ env)
        ++ elseBody.events (ifBody.kinds ++ env))
  | .while_ expr body => expr.events env ++ body.events env
  | .for_ init cond step body =>
      init.events env ++ (cond.events (init.kinds ++ env) ++
        (step.events (init.kinds ++ env) ++ body.events (init.kinds ++ env)))
  | .ret expr _ => expr.events env
  | .exprStmt expr => expr.events env
  | _ => []
termination_by structural node => node

/-- The events of each of the nodes, in the scope of what the ones before declare. -/
def eventsList (env : KindEnv) : List AstNode → List Event
  | [] => []
  | node :: rest => node.events env ++ eventsList (node.kinds ++ env) rest
termination_by structural nodes => nodes

end

end Events

mutual

/-- Every call is of a function with as many parameters, and no other name is one of a function. -/
def usedRight (entries : List SymTabEntry) : AstNode → Bool
  | .ident _ symbol =>
      (symbol.bind (entries[·]?)).any fun e => e.symbol = .variable || e.symbol = .const
  | .lval _ (.ident _ symbol) => (symbol.bind (entries[·]?)).any fun e => e.symbol = .variable
  | .funcCall _ args symbol =>
      ((symbol.bind (entries[·]?)).any fun e =>
        e.symbol = .function && e.params.map List.length = some args.length) &&
          usedRightList entries args
  | .binExp _ _ left right => left.usedRight entries && right.usedRight entries
  | .unaryExpr postfixExpr _ _ => postfixExpr.usedRight entries
  | .varAsgn target rval => target.usedRight entries && rval.usedRight entries
  | .varDef _ _ expr _ => expr.usedRight entries
  | .compStmt body => usedRightList entries body
  | .ifElse ifExpr ifBody elseBody =>
      ifBody.usedRight entries && (ifExpr.usedRight entries && elseBody.usedRight entries)
  | .while_ expr body => expr.usedRight entries && body.usedRight entries
  | .for_ init cond step body =>
      init.usedRight entries && (cond.usedRight entries &&
        (step.usedRight entries && body.usedRight entries))
  | .ret expr _ => expr.usedRight entries
  | .exprStmt expr => expr.usedRight entries
  | .funcDef _ _ body _ _ => body.usedRight entries
  | _ => true
termination_by structural node => node

/-- `usedRight` for each of the nodes. -/
def usedRightList (entries : List SymTabEntry) : List AstNode → Bool
  | [] => true
  | node :: rest => node.usedRight entries && usedRightList entries rest
termination_by structural nodes => nodes

end

end AstNode

/-! ### Programs

The functions of a program, with the parameters of each left in scope for the next.
-/

/-- What a function leaves in scope: itself and its parameters. -/
def funcKinds (value : String) (params : List Param) : KindEnv :=
  (value, .function params.length) :: (params.map fun param => (param.value,
    NameKind.variable)).reverse

/-- The environment behind some functions. -/
def funcsAfter (env : KindEnv) : List AstNode → KindEnv
  | .funcDef value _ _ params _ :: rest => funcsAfter (funcKinds value params ++ env) rest
  | _ => env

section ProgEvents

variable (typeEnv : HashMap TypeSpecifier)

/-- The events of a program, function by function. -/
def progEvents (env : KindEnv) : List AstNode → List Event
  | .funcDef value type body params _ :: rest =>
      .declare (.redefinitionOfFunction value) (env.lookup value).isSome ::
        (params.map (fun param => .typeName (hashmapGet typeEnv param.type).isSome) ++
          (.typeName (hashmapGet typeEnv type).isSome ::
            (body.events typeEnv (funcKinds value params ++ env) ++
              progEvents (funcKinds value params ++ env) rest)))
  | _ => []

end ProgEvents

/--
The first event that stops the analysis does so with a message; if none does, every name is
used as what it stands for.
-/
def eventsFit (l : List Event) : Bool :=
  match l.findSome? Event.stop with
  | some e => e ≠ .undefined
  | none => l.all Event.right

end MyLang
