/-
What a program with calls means.

Expressions are as in `Source`, but now a call may stand in them, so evaluation is a
relation: a call has an effect only if it comes back, and a result only if the function
returns one.  What calls do is a parameter of expressions and statements.  `Calls` ties
the knot by the depth to which calls are nested: on the calls of one depth stand the
bodies of functions, and on these the calls of the next depth.

Every function gets a store of its own, and the stack is bounded: `room` is what is left
of it in bytes, and a call that needs more has no meaning.

There are no global variables, so a call changes nothing of its caller's store, and a
relation between arguments and a result is all there is to a function.  The stack a call
takes is given by the frame of its function, the only thing here that is not of the
source: how deep a recursion may go depends on it.
-/
import MyLang.Source
import MyLang.Proofs.SemaLayout

namespace MyLang

/-- A function, by name and symbol, called with arguments, comes back with a result or without. -/
abbrev CallRel := String → SymId → List CInt → Option CInt → Prop

/-! ### Expressions

The arguments of a call are evaluated from left to right, and each needs a result.
-/

mutual

/-- An expression has a result or none, and leaves a store. -/
inductive Eval (entries : List SymTabEntry) (call : CallRel) :
    AstNode → Store → Option CInt → Store → Prop
  | intConst {value σ v} (h : CInt.ofInt? value = some v) :
    Eval entries call (.intConst value) σ (some v) σ
  | ident {value symbol σ v} (h : identValue entries symbol σ = some v) :
      Eval entries call (.ident value symbol) σ (some v) σ
  | shortcut {value opType left right σ x σ1 z} (hleft : Eval entries call left σ (some x) σ1)
      (hz : shortcut opType x = some z) :
      Eval entries call (.binExp value opType left right) σ (some z) σ1
  | binExp {value opType left right σ x σ1 y σ2 z} (hleft : Eval entries call left σ (some x) σ1)
      (hnone : shortcut opType x = none) (hright : Eval entries call right σ1 (some y) σ2)
      (hz : sourceOp opType x y = some z) :
      Eval entries call (.binExp value opType left right) σ (some z) σ2
  | not {postfixExpr value σ x σ1} (h : Eval entries call postfixExpr σ (some x) σ1) :
      Eval entries call (.unaryExpr postfixExpr value .not) σ (some (CInt.ofBool (x.val = 0))) σ1
  | varAsgn {value id rval σ v σ1} (h : Eval entries call rval σ (some v) σ1) :
      Eval entries call (.varAsgn (.lval .ident (.ident value (some id))) rval) σ (some v)
        (Function.update σ1 id (some v))
  | funcCall {value args id σ vs σ1 res} (hargs : EvalAll entries call args σ vs σ1)
      (hcall : call value id vs res) : Eval entries call (.funcCall value args (some id)) σ res σ1

/-- Expressions from left to right, each with a result. -/
inductive EvalAll (entries : List SymTabEntry) (call : CallRel) :
    List AstNode → Store → List CInt → Store → Prop
  | nil {σ} : EvalAll entries call [] σ [] σ
  | cons {node rest σ v σ1 vs σ2} (h : Eval entries call node σ (some v) σ1)
      (hrest : EvalAll entries call rest σ1 vs σ2) :
      EvalAll entries call (node :: rest) σ (v :: vs) σ2

end

/-! ### Statements

As without calls, with the relation in the place of the function.
-/

section Execs

/- How expressions are evaluated. -/
variable (eval : AstNode → Store → Option CInt → Store → Prop)

/-- A condition holds or does not; an empty one does. -/
inductive EvalCond : AstNode → Store → Bool → Store → Prop
  | empty {σ} : EvalCond .emptyExpr σ true σ
  | expr {cond σ x σ1} (hne : cond.isEmptyExpr = false) (h : eval cond σ (some x) σ1) :
      EvalCond cond σ (x.val ≠ 0) σ1

/-- From a store to how a command ends and the store it leaves. -/
inductive Execs : Cmd → Store → Outcome → Store → Prop
  | varDec {value type id σ} : Execs (.stmt (.varDec value type (some id))) σ .normal
    (Function.update σ id none)
  | varDef {value type expr id σ v σ1} (h : eval expr σ (some v) σ1) :
      Execs (.stmt (.varDef value type expr (some id))) σ .normal (Function.update σ1 id (some v))
  | exprStmt {expr σ res σ1} (hne : expr.isEmptyExpr = false) (h : eval expr σ res σ1) :
      Execs (.stmt (.exprStmt expr)) σ .normal σ1
  | emptyStmt {σ} : Execs (.stmt (.exprStmt .emptyExpr)) σ .normal σ
  | emptyExpr {σ} : Execs (.stmt .emptyExpr) σ .normal σ
  | enum {value enums σ} : Execs (.stmt (.enum value enums)) σ .normal σ
  | blockNil {σ} : Execs (.stmt (.compStmt [])) σ .normal σ
  | blockCons {node rest σ σ1 o σ2} (h : Execs (.stmt node) σ .normal σ1)
      (hrest : Execs (.stmt (.compStmt rest)) σ1 o σ2) :
      Execs (.stmt (.compStmt (node :: rest))) σ o σ2
  | blockReturn {node rest σ v σ1} (h : Execs (.stmt node) σ (.returned v) σ1) :
      Execs (.stmt (.compStmt (node :: rest))) σ (.returned v) σ1
  | ifTrue {ifExpr ifBody elseBody σ x σ1 o σ2} (h : eval ifExpr σ (some x) σ1) (hx : x.val ≠ 0)
      (hbody : Execs (.stmt ifBody) σ1 o σ2) : Execs (.stmt (.ifElse ifExpr ifBody elseBody)) σ o σ2
  | ifFalse {ifExpr ifBody σ x σ1} (h : eval ifExpr σ (some x) σ1) (hx : x.val = 0) :
      Execs (.stmt (.ifElse ifExpr ifBody .null)) σ .normal σ1
  | ifElse {ifExpr ifBody elseBody σ x σ1 o σ2} (h : eval ifExpr σ (some x) σ1) (hx : x.val = 0)
      (hne : elseBody.nonNull = true) (hbody : Execs (.stmt elseBody) σ1 o σ2) :
      Execs (.stmt (.ifElse ifExpr ifBody elseBody)) σ o σ2
  | whileDone {expr body σ x σ1} (h : eval expr σ (some x) σ1) (hx : x.val = 0) :
      Execs (.stmt (.while_ expr body)) σ .normal σ1
  | whileStep {expr body σ x σ1 σ2 o σ3} (h : eval expr σ (some x) σ1) (hx : x.val ≠ 0)
      (hbody : Execs (.stmt body) σ1 .normal σ2)
      (hrest : Execs (.stmt (.while_ expr body)) σ2 o σ3) : Execs (.stmt (.while_ expr body)) σ o σ3
  | whileReturn {expr body σ x σ1 v σ2} (h : eval expr σ (some x) σ1) (hx : x.val ≠ 0)
      (hbody : Execs (.stmt body) σ1 (.returned v) σ2) :
      Execs (.stmt (.while_ expr body)) σ (.returned v) σ2
  | forStart {init cond step body σ σ1 o σ2} (hinit : Execs (.stmt (forInit init)) σ .normal σ1)
      (hloop : Execs (.loop cond step body) σ1 o σ2) :
      Execs (.stmt (.for_ init cond step body)) σ o σ2
  | loopDone {cond step body σ σ1} (h : EvalCond eval cond σ false σ1) :
      Execs (.loop cond step body) σ .normal σ1
  | loopStep {cond step body σ σ1 σ2 σ3 o σ4} (h : EvalCond eval cond σ true σ1)
      (hbody : Execs (.stmt body) σ1 .normal σ2)
      (hstep : Execs (.stmt (.exprStmt step)) σ2 .normal σ3)
      (hrest : Execs (.loop cond step body) σ3 o σ4) : Execs (.loop cond step body) σ o σ4
  | loopReturn {cond step body σ σ1 v σ2} (h : EvalCond eval cond σ true σ1)
      (hbody : Execs (.stmt body) σ1 (.returned v) σ2) :
      Execs (.loop cond step body) σ (.returned v) σ2
  | ret {expr func σ v σ1} (h : eval expr σ (some v) σ1) :
      Execs (.stmt (.ret expr func)) σ (.returned (some v)) σ1
  | retVoid {func σ} : Execs (.stmt (.ret .emptyExpr func)) σ (.returned none) σ

end Execs

/-! ### Calls

A function that is called finds what its caller has left of the stack.
-/

/-- The stack a function with this body takes. -/
def frameBytes (body : AstNode) : Nat := frameSize (intSize * body.localIds.length)

/-- What a body that ends so returns; only a `void` function may be left at its end. -/
def Outcome.result (type : String) : Outcome → Option CInt → Prop
  | .returned v, res => res = v
  | .normal, res => type = "void" ∧ res = none

/-- The calls in a program that are nested up to a depth and find `room` bytes of stack. -/
def Calls (r : SemaResult) : Nat → Nat → CallRel
  | 0, _ => fun _ _ _ _ => False
  | depth + 1, room => fun name id args res => ∃ type body params o σ,
      .funcDef name type body params (some id) ∈ r.prog ∧ args.length = params.length ∧
        frameBytes body ≤ room ∧
        Execs (Eval r.entries (Calls r depth (room - frameBytes body))) (.stmt body)
          (bindParams params args) o σ ∧
        o.result type res

end MyLang
