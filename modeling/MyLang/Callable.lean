/-
Functions in whose code calls disturb nothing.

A call writes to slots of its caller's frame that go by the frame of the function
called: first the busy temporaries, then the arguments.  `callExpr` follows an expression
with the number of busy temporaries and with the slots that are `held` by the calls around
it, and asks of every call that its slots are apart from these and from the variables, and
that what is needed behind it lies above the stack pointer.

The code of both operands of `&&` and `||` is run, and that of an `else` body behind the
other one; so a right operand has to be without effect, and a body in front of an `else`
has to return.
-/
import MyLang.SourceCalls
import MyLang.Proofs.CallArgs
import MyLang.Proofs.FuncRun

namespace MyLang

/-- What the code of a function depends on besides its body. -/
structure FrameShape where
  entries : List SymTabEntry
  frames : List StackFrame
  locals : List SymId
  ids : List SymId
  func : Option SymId
  frame : Nat

namespace FrameShape

variable (S : FrameShape)

/-- The slots of the variables. -/
def localSlots : List Nat := (List.range S.locals.length).map fun k => localsBase + intSize * k

/--
A call of `symbol` with `n` arguments while `busy` temporaries are busy keeps the slots
`held`.
-/
def spillFits (symbol : Option SymId) (held : List Nat) (busy n : Nat) : Bool :=
  let base := calleeBase S.entries S.frames symbol
  (slotsAfter base (busy + n)).all (fun w => (held ++ S.localSlots).all (slotsApart w)) &&
    (held ++ slotsAfter base busy).all fun w => decide (w ≤ S.frame)

end FrameShape

namespace AstNode

section

variable (S : FrameShape)

mutual

/--
An expression whose calls keep what is needed.  It reads variables of the function and enum
constants, assigns to locals only, and has neither a call nor an assignment on the right of
`&&` and `||`.
-/
def callExpr : AstNode → List Nat → Nat → Bool
  | .intConst _, _, _ => true
  | .ident _ (some id), _, _ => S.ids.contains id || isConstAt S.entries id
  | .binExp _ opType left right, held, busy =>
      left.callExpr held busy &&
        if opType = .logAnd || opType = .logOr then
          right.coreExpr S.entries S.locals S.ids && right.assigned.isEmpty
        else right.callExpr held (busy + 1)
  | .unaryExpr postfixExpr _ _, held, busy => postfixExpr.callExpr held (busy + 1)
  | .varAsgn (.lval _ (.ident _ (some id))) rval, held, busy =>
      S.locals.contains id && rval.callExpr held (busy + 1)
  | .funcCall _ args symbol, held, busy =>
      decide (args.length ≤ argLength) && S.spillFits symbol held busy args.length &&
        callArgs args held (calleeBase S.entries S.frames symbol) busy
  | _, _, _ => false
termination_by structural node => node

/-- The arguments of a call, of whose slots `n` are in use. -/
def callArgs : List AstNode → List Nat → Nat → Nat → Bool
  | [], _, _, _ => true
  | node :: rest, held, base, n =>
      node.callExpr (held ++ slotsAfter base n) 0 && callArgs rest held base (n + 1)
termination_by structural nodes => nodes

end

end

mutual

/-- Whatever happens in a statement, it is not run through. -/
def returns : AstNode → Bool
  | .ret _ _ => true
  | .compStmt body => returnsList body
  | .ifElse _ ifBody elseBody => elseBody.nonNull && ifBody.returns && elseBody.returns
  | _ => false
termination_by structural node => node

/-- One of the statements returns. -/
def returnsList : List AstNode → Bool
  | [] => false
  | node :: rest => node.returns || returnsList rest
termination_by structural nodes => nodes

end

section

variable (S : FrameShape)

/-- An expression that stands where no temporary is busy. -/
def callExpr0 (node : AstNode) : Bool := node.callExpr S [] 0

mutual

/--
A statement whose expressions are `callExpr`, in which an `if` body in front of an `else` returns,
and whose `return`s are those of the function.
-/
def callStmt : AstNode → Bool
  | .varDec _ _ _ => true
  | .varDef _ _ expr _ => expr.callExpr0 S
  | .exprStmt expr => expr.isEmptyExpr || expr.callExpr0 S
  | .emptyExpr => true
  | .enum _ _ => true
  | .compStmt body => callStmts body
  | .ifElse ifExpr ifBody elseBody =>
      ifExpr.callExpr0 S && ifBody.callStmt &&
        (!elseBody.nonNull || ifBody.returns && elseBody.callStmt)
  | .while_ expr body => expr.callExpr0 S && body.callStmt
  | .for_ init cond step body =>
      (init.isForInit && init.callStmt || init.callExpr0 S) &&
        (cond.isEmptyExpr || cond.callExpr0 S) && (step.isEmptyExpr || step.callExpr0 S) &&
          body.callStmt
  | .ret expr target => target = S.func && (expr.isEmptyExpr || expr.callExpr0 S)
  | _ => false
termination_by structural node => node

/-- `callStmt` for every element of a list. -/
def callStmts : List AstNode → Bool
  | [] => true
  | node :: rest => node.callStmt && callStmts rest
termination_by structural nodes => nodes

end

end

end AstNode

/-- The shape of a function of a checked program. -/
def FrameShape.of (r : SemaResult) (body : AstNode) (params : List Param) (symbol : Option SymId) :
    FrameShape where
  entries := r.entries
  frames := r.frames
  locals := body.localIds
  ids := paramIds params ++ body.localIds
  func := symbol
  frame := frameBytes body

/--
A function of which the code does what the source says, calls in it included.  It has at most eight
parameters, and in its body

  * an expression reads the variables of the function and enum constants, and assigns to its locals;
  * the right operand of `&&` and `||` has no call and no assignment, since its code is always run;
  * a body in front of an `else` returns, since its code runs on into the other body;
  * a `return` is one of this function;
  * a call has at most eight arguments, and spills to slots apart from the variables and from
    what the calls around it hold, with all that is needed behind it above the stack pointer.
-/
def AstNode.callFunc (r : SemaResult) : AstNode → Bool
  | .funcDef _ _ body params symbol =>
      decide (params.length ≤ argLength) && body.callStmt (FrameShape.of r body params symbol)
  | _ => false

end MyLang
