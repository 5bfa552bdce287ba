/-
Which immediates code generation writes.

Constants go into an `addi`, and so do the sizes of stack frames and the distances of
assigned variables from the frame pointer; slots of the frame are loaded and stored with
their distance from it.  None of them is bounded by the language.  `immediatesFit` goes
through a tree and asks of each whether twelve bits hold it.  A call spills the busy
registers and its arguments beyond the frame of the function called, so how far it reaches
depends on the number of both.

The number of busy registers is counted on the way down, as it is in `Faults.lean`.  What
is generated for a node that code generation does not get through is of no account: the
theorem that uses this is about programs that are compiled.
-/
import MyLang.Linking
import MyLang.Proofs.StmtGen

namespace MyLang

open Rv32

/-- The word at a distance below the frame pointer can be loaded and stored. -/
def slotFits (off : Nat) : Bool := off ≤ 2048

/-- The stack pointer can be moved by a frame and back. -/
def frameFits (frame : StackFrame) : Bool := frameSize frame.size ≤ 2047

/-- A name can be evaluated. -/
def identFits (e : SymTabEntry) : Bool :=
  if e.symbol = .const then Fits12 e.constValue
  else if e.isArgLoaded then slotFits (registerSize * (3 + e.argReg))
  else slotFits (e.offset + localsBase)

/-- A call can reach the slots it spills `n` words to. -/
def callFits (n : Nat) (frame : StackFrame) : Bool :=
  n = 0 || slotFits (frame.size + localsBase + registerSize * n)

namespace AstNode

section ImmediatesFit

variable (entries : List SymTabEntry) (frames : List StackFrame)

mutual

/--
The immediates of the code of a node fit.  An expression is evaluated with `b` registers
busy, and statements start with none.
-/
def immediatesFit (b : Nat) : AstNode → Bool
  | .intConst value => Fits12 value
  | .ident _ symbol => (symbol.bind (entries[·]?)).all identFits
  | .lval _ (.ident _ symbol) =>
      (symbol.bind (entries[·]?)).all fun e => Fits12 (sizeToInt (localsBase + e.offset))
  | .binExp _ _ left right => left.immediatesFit b && right.immediatesFit (b + 1)
  | .unaryExpr postfixExpr _ _ => postfixExpr.immediatesFit (b + 1)
  | .varAsgn target rval => target.immediatesFit b && rval.immediatesFit (b + 1)
  | .funcCall _ args symbol =>
      (frameOf entries frames symbol).all (callFits (b + args.length)) && immediatesFitList args
  | .varDef _ _ expr symbol =>
      (symbol.bind (entries[·]?)).all (fun e => slotFits (e.offset + localsBase)) &&
        expr.immediatesFit 0
  | .compStmt body => immediatesFitList body
  | .ifElse ifExpr ifBody elseBody =>
      ifExpr.immediatesFit 0 && (ifBody.immediatesFit 0 && elseBody.immediatesFit 0)
  | .while_ expr body => expr.immediatesFit 0 && body.immediatesFit 0
  | .for_ init cond step body =>
      init.immediatesFit 0 && (cond.immediatesFit 0 &&
        (body.immediatesFit 0 && step.immediatesFit 0))
  | .ret expr func => expr.immediatesFit 0 && (frameOf entries frames func).all frameFits
  | .exprStmt expr => expr.immediatesFit 0
  | _ => true
termination_by structural node => node

/-- `immediatesFit` for arguments or statements, each with no register busy. -/
def immediatesFitList : List AstNode → Bool
  | [] => true
  | node :: rest => node.immediatesFit 0 && immediatesFitList rest
termination_by structural nodes => nodes

end

end ImmediatesFit

end AstNode

/--
The immediates of the code of some functions fit.  The parameters of a function have their
slots from its definition on.
-/
def progImmediatesFit (entries : List SymTabEntry) (frames : List StackFrame) : List AstNode → Bool
  | [] => true
  | .funcDef _ _ body params symbol :: rest =>
      (frameOf entries frames symbol).all frameFits &&
        (body.immediatesFit (paramEntries 0 params entries) frames 0 &&
          progImmediatesFit (paramEntries 0 params entries) frames rest)
  | _ :: rest => progImmediatesFit entries frames rest

end MyLang
