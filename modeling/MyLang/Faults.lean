/-
What can stop code generation.

`eval_asm` keeps every value it is still going to need in one of seven temporaries, and it
has no case for an empty expression, which the parser puts wherever no expression stands.
Whether code generation gets through is therefore a question about the shape of the
program, and the functions here answer it by counting the busy registers: `fits` for an
expression without holes, `evaluable` and `generable` for whatever comes first.

A `return` is the third thing: it reads the frame of the symbol its function's name stands
for, and an enumeration constant with that name has none.

The functions go through a tree in the order in which the generator does, since the first
fault is the one that it stops with.  Where an empty expression is allowed, as in the
header of a `for` or behind `return`, the generator asks for it, and so do they.
-/
import MyLang.Asm

namespace MyLang

/-- What stops code generation. -/
inductive Fault where
  /-- An empty expression where a value is needed. -/
  | hole
  /-- A register is needed and all are busy. -/
  | registers
  /-- A `return` to a symbol without a frame. -/
  | frame
deriving DecidableEq, Repr

/-- The message a fault ends with. -/
def Fault.error : Fault → AsmError
  | .hole => .evalUnknownAstType
  | .registers => .noFreeRegisters
  | .frame => .undefined

/-- The registers an operator takes while it holds its two operands. -/
def opTemps : TokenType → Nat
  | .add | .sub | .mult | .div => 0
  | .ltEq | .gtEq => 2
  | _ => 1

/-- With `b` registers busy, `n` more are free. -/
def needs (b n : Nat) : Except Fault Unit :=
  if b + n ≤ tempLength then .ok () else .error .registers

namespace AstNode

mutual

/-- The registers are enough for an expression, with `b` of them busy. -/
def fits (b : Nat) : AstNode → Bool
  | .binExp _ opType left right =>
      left.fits b && right.fits (b + 1) &&
        (opTemps opType = 0 || b + 2 + opTemps opType ≤ tempLength)
  | .unaryExpr postfixExpr _ _ => b + 1 ≤ tempLength && postfixExpr.fits (b + 1)
  | .varAsgn _ rval => b + 1 ≤ tempLength && rval.fits (b + 1)
  | .funcCall _ args _ => b + 1 ≤ tempLength && allFit args
  | _ => b + 1 ≤ tempLength
termination_by structural node => node

/-- The registers are enough for each of the expressions, with none of them busy. -/
def allFit : List AstNode → Bool
  | [] => true
  | node :: rest => node.fits 0 && allFit rest
termination_by structural nodes => nodes

end

/-- Constants and variables. -/
def isAtom : AstNode → Bool
  | .intConst _ => true
  | .ident _ _ => true
  | _ => false

/-- Atoms joined by `+`, `-`, `*` and `/`, to the left. -/
def isChain : AstNode → Bool
  | .binExp _ opType left right => opTemps opType = 0 && left.isChain && right.isAtom
  | node => node.isAtom

mutual

/-- No operand, argument or assigned value is missing. -/
def holeFree : AstNode → Bool
  | .emptyExpr => false
  | .binExp _ _ left right => left.holeFree && right.holeFree
  | .unaryExpr postfixExpr _ _ => postfixExpr.holeFree
  | .varAsgn _ rval => rval.holeFree
  | .funcCall _ args _ => holeFreeList args
  | _ => true
termination_by structural node => node

/-- `holeFree` for each of the expressions. -/
def holeFreeList : List AstNode → Bool
  | [] => true
  | node :: rest => node.holeFree && holeFreeList rest
termination_by structural nodes => nodes

end

mutual

/-- What stops the evaluation of an expression with `b` registers busy, if anything does. -/
def evaluable (b : Nat) : AstNode → Except Fault Unit
  | .emptyExpr => .error .hole
  | .binExp _ opType left right => do
      left.evaluable b
      right.evaluable (b + 1)
      needs (b + 2) (opTemps opType)
  | .unaryExpr postfixExpr _ _ => do
      needs b 1
      postfixExpr.evaluable (b + 1)
  | .varAsgn _ rval => do
      needs b 1
      rval.evaluable (b + 1)
  | .funcCall _ args _ => do
      evaluableList args
      needs b 1
  | _ => needs b 1
termination_by structural node => node

/-- What stops the evaluation of the arguments of a call, which starts with no register busy. -/
def evaluableList : List AstNode → Except Fault Unit
  | [] => .ok ()
  | node :: rest => do
      node.evaluable 0
      evaluableList rest
termination_by structural nodes => nodes

end

/-- What stops the evaluation of an expression that may be left out. -/
def evaluableUnlessEmpty (node : AstNode) : Except Fault Unit :=
  if node.isEmptyExpr then .ok () else node.evaluable 0

section Generable

/- The symbols that lead to an entry with a stack frame. -/
variable (framed : Option SymId → Bool)

mutual

/--
What stops the code generation of a statement or a function, which starts with no register
busy.
-/
def generable : AstNode → Except Fault Unit
  | .ret expr func => do
      expr.evaluableUnlessEmpty
      if framed func then .ok () else .error .frame
  | .ifElse ifExpr ifBody elseBody => do
      ifExpr.evaluable 0
      ifBody.generable
      elseBody.generable
  | .compStmt body => generableList body
  | .funcDef _ _ body _ _ => body.generable
  | .varDef _ _ expr _ => expr.evaluable 0
  | .while_ expr body => do
      expr.evaluable 0
      body.generable
  | .for_ init cond step body => do
      (if init.isForInit then init.generable else init.evaluable 0)
      cond.evaluableUnlessEmpty
      body.generable
      step.evaluableUnlessEmpty
  | .exprStmt expr => expr.evaluableUnlessEmpty
  | _ => .ok ()
termination_by structural node => node

/-- What stops the code generation of some of them in a row. -/
def generableList : List AstNode → Except Fault Unit
  | [] => .ok ()
  | node :: rest => do
      node.generable
      generableList rest
termination_by structural nodes => nodes

end

end Generable

end AstNode

end MyLang
