/-
What a function without calls means, by the rules of C rather than by its code.

A store gives every variable its value, or none while it has not been set.  An expression
has a value unless it does something undefined: an operation whose result does not fit, or
a read of a variable that has no value.  Operands are evaluated from left to right, and
the right operand of `&&` and `||` only where it decides.

`Exec` is the big-step semantics of statements.  A run that does not end, or does
something undefined, has no derivation.  The part of a `for` statement that is repeated is
no statement of its own, so what is executed is a `Cmd`: a statement, or such a loop.

Variables are known by their symbols, so that no environment is needed: two variables of
one name are two symbols.  A declaration without a value takes the value of its variable
away, which is what happens to the variable of a body each time the body is begun again.
-/
import MyLang.Ast
import MyLang.Lib.CInt

namespace MyLang

/-- The value of every variable, none where it has not been set. -/
abbrev Store := SymId → Option CInt

/-! ### Expressions

An expression may assign, so it has a value and leaves a store.
-/

/-- A binary operator; the short cut of `&&` and `||` is not taken here. -/
def sourceOp : TokenType → CInt → CInt → Option CInt
  | .add, x, y => x.add y
  | .sub, x, y => x.sub y
  | .mult, x, y => x.mul y
  | .div, x, y => x.div y
  | .lshift, x, y => x.shl y
  | .rshift, x, y => x.shr y
  | .and, x, y => some (CInt.bitwise (· &&& ·) x y)
  | .or, x, y => some (CInt.bitwise (· ||| ·) x y)
  | .xor, x, y => some (CInt.bitwise (· ^^^ ·) x y)
  | .equal, x, y => some (CInt.ofBool (x.val = y.val))
  | .notEqual, x, y => some (CInt.ofBool (x.val ≠ y.val))
  | .lt, x, y => some (CInt.ofBool (x.val < y.val))
  | .ltEq, x, y => some (CInt.ofBool (x.val ≤ y.val))
  | .gt, x, y => some (CInt.ofBool (y.val < x.val))
  | .gtEq, x, y => some (CInt.ofBool (y.val ≤ x.val))
  | .logAnd, x, y => some (CInt.ofBool (x.val ≠ 0 ∧ y.val ≠ 0))
  | .logOr, x, y => some (CInt.ofBool (x.val ≠ 0 ∨ y.val ≠ 0))
  | _, _, _ => none

/-- The left operand alone decides. -/
def shortcut : TokenType → CInt → Option CInt
  | .logAnd, x => if x.val = 0 then some (CInt.ofBool false) else none
  | .logOr, x => if x.val ≠ 0 then some (CInt.ofBool true) else none
  | _, _ => none

section Eval

/- The symbol table entries, for the values of enum constants. -/
variable (entries : List SymTabEntry)

/-- The value of an enum constant or a variable. -/
def identValue (symbol : Option SymId) (σ : Store) : Option CInt := do
  let id ← symbol
  let e ← entries[id]?
  if e.symbol = .const then CInt.ofInt? e.constValue else σ id

/-- The value of an expression and the store it leaves. -/
def evalExpr : AstNode → Store → Option (CInt × Store)
  | .intConst value, σ => do return (← CInt.ofInt? value, σ)
  | .ident _ symbol, σ => do return (← identValue entries symbol σ, σ)
  | .binExp _ opType left right, σ => do
      let (x, σ) ← evalExpr left σ
      match shortcut opType x with
      | some z => return (z, σ)
      | none => do
          let (y, σ) ← evalExpr right σ
          return (← sourceOp opType x y, σ)
  | .unaryExpr postfixExpr _ .not, σ => do
      let (x, σ) ← evalExpr postfixExpr σ
      return (CInt.ofBool (x.val = 0), σ)
  | .varAsgn (.lval .ident (.ident _ (some id))) rval, σ => do
      let (v, σ) ← evalExpr rval σ
      return (v, Function.update σ id (some v))
  | _, _ => none
termination_by structural node => node

/-- Whether a condition holds; an empty one does. -/
def evalCond (cond : AstNode) (σ : Store) : Option (Bool × Store) :=
  if cond.isEmptyExpr then some (true, σ)
  else (evalExpr entries cond σ).map fun r => (r.1.val ≠ 0, r.2)

end Eval

/-! ### Statements

A statement is run through or returns, and a `return` in it ends all that is around it.
-/

/-- How a statement ends: it is run through, or it leaves the function. -/
inductive Outcome where
  | normal
  | returned (value : Option CInt)

/-- What is executed: a statement, or the repeated part of a `for` statement. -/
inductive Cmd where
  | stmt (node : AstNode)
  | loop (cond step body : AstNode)

/-- The statement a `for` statement starts with. -/
def forInit (init : AstNode) : AstNode := if init.isForInit then init else .exprStmt init

/-- The big-step semantics: from a store to how the command ends and the store it leaves. -/
inductive Exec (entries : List SymTabEntry) : Cmd → Store → Outcome → Store → Prop
  | varDec {value type id σ} :
      Exec entries (.stmt (.varDec value type (some id))) σ .normal (Function.update σ id none)
  | varDef {value type expr id σ v σ1} (h : evalExpr entries expr σ = some (v, σ1)) :
      Exec entries (.stmt (.varDef value type expr (some id))) σ .normal
        (Function.update σ1 id (some v))
  | exprStmt {expr σ v σ1} (h : evalExpr entries expr σ = some (v, σ1)) :
      Exec entries (.stmt (.exprStmt expr)) σ .normal σ1
  | emptyStmt {σ} : Exec entries (.stmt (.exprStmt .emptyExpr)) σ .normal σ
  | emptyExpr {σ} : Exec entries (.stmt .emptyExpr) σ .normal σ
  | enum {value enums σ} : Exec entries (.stmt (.enum value enums)) σ .normal σ
  | blockNil {σ} : Exec entries (.stmt (.compStmt [])) σ .normal σ
  | blockCons {node rest σ σ1 o σ2} (h : Exec entries (.stmt node) σ .normal σ1)
      (hrest : Exec entries (.stmt (.compStmt rest)) σ1 o σ2) :
      Exec entries (.stmt (.compStmt (node :: rest))) σ o σ2
  | blockReturn {node rest σ v σ1} (h : Exec entries (.stmt node) σ (.returned v) σ1) :
      Exec entries (.stmt (.compStmt (node :: rest))) σ (.returned v) σ1
  | ifTrue {ifExpr ifBody elseBody σ x σ1 o σ2} (h : evalExpr entries ifExpr σ = some (x, σ1))
      (hx : x.val ≠ 0) (hbody : Exec entries (.stmt ifBody) σ1 o σ2) :
      Exec entries (.stmt (.ifElse ifExpr ifBody elseBody)) σ o σ2
  | ifFalse {ifExpr ifBody σ x σ1} (h : evalExpr entries ifExpr σ = some (x, σ1))
      (hx : x.val = 0) : Exec entries (.stmt (.ifElse ifExpr ifBody .null)) σ .normal σ1
  | ifElse {ifExpr ifBody elseBody σ x σ1 o σ2} (h : evalExpr entries ifExpr σ = some (x, σ1))
      (hx : x.val = 0) (hne : elseBody.nonNull = true)
      (hbody : Exec entries (.stmt elseBody) σ1 o σ2) :
      Exec entries (.stmt (.ifElse ifExpr ifBody elseBody)) σ o σ2
  | whileDone {expr body σ x σ1} (h : evalExpr entries expr σ = some (x, σ1)) (hx : x.val = 0) :
      Exec entries (.stmt (.while_ expr body)) σ .normal σ1
  | whileStep {expr body σ x σ1 σ2 o σ3} (h : evalExpr entries expr σ = some (x, σ1))
      (hx : x.val ≠ 0) (hbody : Exec entries (.stmt body) σ1 .normal σ2)
      (hrest : Exec entries (.stmt (.while_ expr body)) σ2 o σ3) :
      Exec entries (.stmt (.while_ expr body)) σ o σ3
  | whileReturn {expr body σ x σ1 v σ2} (h : evalExpr entries expr σ = some (x, σ1))
      (hx : x.val ≠ 0) (hbody : Exec entries (.stmt body) σ1 (.returned v) σ2) :
      Exec entries (.stmt (.while_ expr body)) σ (.returned v) σ2
  | forStart {init cond step body σ σ1 o σ2}
      (hinit : Exec entries (.stmt (forInit init)) σ .normal σ1)
      (hloop : Exec entries (.loop cond step body) σ1 o σ2) :
      Exec entries (.stmt (.for_ init cond step body)) σ o σ2
  | loopDone {cond step body σ σ1} (h : evalCond entries cond σ = some (false, σ1)) :
      Exec entries (.loop cond step body) σ .normal σ1
  | loopStep {cond step body σ σ1 σ2 σ3 o σ4} (h : evalCond entries cond σ = some (true, σ1))
      (hbody : Exec entries (.stmt body) σ1 .normal σ2)
      (hstep : Exec entries (.stmt (.exprStmt step)) σ2 .normal σ3)
      (hrest : Exec entries (.loop cond step body) σ3 o σ4) :
      Exec entries (.loop cond step body) σ o σ4
  | loopReturn {cond step body σ σ1 v σ2} (h : evalCond entries cond σ = some (true, σ1))
      (hbody : Exec entries (.stmt body) σ1 (.returned v) σ2) :
      Exec entries (.loop cond step body) σ (.returned v) σ2
  | ret {expr func σ v σ1} (h : evalExpr entries expr σ = some (v, σ1)) :
      Exec entries (.stmt (.ret expr func)) σ (.returned (some v)) σ1
  | retVoid {func σ} : Exec entries (.stmt (.ret .emptyExpr func)) σ (.returned none) σ

/-! ### Functions

A function begins with values for its parameters and for nothing else.
-/

/-- The store a function starts with: its parameters have the values of the arguments. -/
def bindParams : List Param → List CInt → Store
  | param :: params, v :: args =>
      match param.symbol with
      | some id => Function.update (bindParams params args) id (some v)
      | none => bindParams params args
  | _, _ => fun _ => none

/-- Called with `args`, a function runs to an end and returns `v`. -/
def FuncReturns (entries : List SymTabEntry) (params : List Param) (body : AstNode)
    (args : List CInt) (v : CInt) : Prop :=
  ∃ σ, Exec entries (.stmt body) (bindParams params args) (.returned (some v)) σ

end MyLang
