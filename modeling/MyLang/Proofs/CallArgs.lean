/-
The arguments of a call on their way to its jump.

A call evaluates its arguments one after the other and keeps each in a slot of the frame
until all are there; the busy temporaries lie in the slots before.  The slots of a call in
an argument start from a base of their own, and what it calls may write everything below
the stack pointer.  `argsFit` says that neither meets a slot that is still needed.

The run is followed with `Reaches`, so nothing is known of the functions called but that
they keep the stack pointer, the frame pointer and what lies above the stack pointer.

`CallArrives` is what is proved of a call.  It is about the state at the jump, and about
values the arguments had when they had been evaluated, wherever this was on the way: what
they are depends on the functions called, so they are handed on from argument to argument
(`ArgsArrive`).
-/
import MyLang.Lib.CallSteps
import MyLang.Proofs.CallFrame
import MyLang.Proofs.IfElse

namespace MyLang

open Rv32 ByteMemory

/-! ### Slots a call needs and slots its arguments write

Both are computed from the tree, the sizes of the frames and the number of busy
temporaries.
-/

/-- The slots after `base`. -/
def slotsAfter (base n : Nat) : List Nat := (List.range n).map fun k =>
    base + registerSize * (k + 1)

/-- Two slots have no byte in common. -/
def slotsApart (a b : Nat) : Bool := decide (a + registerSize ≤ b ∨ b + registerSize ≤ a)

/-- The slot before the first one a call of the symbol spills to. -/
def calleeBase (entries : List SymTabEntry) (frames : List StackFrame) (symbol : Option SymId) :
    Nat :=
  match (entryOf entries symbol).bind SymTabEntry.frame with
  | none => 0
  | some id => (frames[id]?.map spillBase).getD 0

namespace AstNode

section

variable (entries : List SymTabEntry) (frames : List StackFrame)

mutual

/-- The slots the code of an expression writes, with `b` temporaries busy. -/
def writes : AstNode → Nat → List Nat
  | .binExp _ _ left right, b => left.writes b ++ right.writes (b + 1)
  | .unaryExpr postfixExpr _ _, b => postfixExpr.writes (b + 1)
  | .varAsgn (.lval _ (.ident _ symbol)) rval, b =>
      rval.writes (b + 1) ++ [storeOffset entries symbol]
  | .funcCall _ args symbol, b =>
      slotsAfter (calleeBase entries frames symbol) (b + args.length) ++ writesList args
  | _, _ => []
termination_by structural node => node

/-- The slots the code of the arguments of a call writes: no temporary is busy there. -/
def writesList : List AstNode → List Nat
  | [] => []
  | node :: rest => node.writes 0 ++ writesList rest
termination_by structural nodes => nodes

end

variable (frame : Nat)

mutual

/--
The assignments in an expression, with `b` temporaries busy, store where they should.  The
address is in a temporary while the right side is evaluated, so a call there has to bring
its temporaries back: their slots are not written by its arguments, and lie above the stack
pointer.  `held` says that a temporary holds an address.
-/
def keepsTargets : AstNode → Bool → Nat → Bool
  | .binExp _ _ left right, held, b =>
      left.keepsTargets held b && right.keepsTargets held (b + 1)
  | .unaryExpr postfixExpr _ _, held, b => postfixExpr.keepsTargets held (b + 1)
  | .varAsgn _ rval, _, b => rval.keepsTargets true (b + 1)
  | .funcCall _ args symbol, held, b =>
      (!held ||
        ((writesList entries frames args).all fun w =>
          (slotsAfter (calleeBase entries frames symbol) b).all (slotsApart w)) &&
        (b = 0 || calleeBase entries frames symbol + registerSize * b ≤ frame)) &&
      keepsTargetsList args
  | _, _, _ => true
termination_by structural node => node

def keepsTargetsList : List AstNode → Bool
  | [] => true
  | node :: rest => node.keepsTargets false 0 && keepsTargetsList rest
termination_by structural nodes => nodes

end

end

end AstNode

section Fits

variable (entries : List SymTabEntry) (frames : List StackFrame) (frame base : Nat)

/-- An argument leaves the first `n` slots after `base` alone. -/
def argFits (n : Nat) (arg : AstNode) : Bool :=
  (arg.writes entries frames 0).all (fun w => (slotsAfter base n).all (slotsApart w)) &&
    (arg.callFree || n = 0 || base + registerSize * n ≤ frame) &&
    arg.keepsTargets entries frames frame false 0

/-- Each argument leaves the slots of the busy temporaries and of the arguments before it alone. -/
def argsFit : Nat → List AstNode → Bool
  | _, [] => true
  | n, arg :: rest => argFits entries frames frame base n arg && argsFit (n + 1) rest

end Fits

/-! ### What a call has at its jump

The argument registers hold the arguments, as far as there are registers, and the slots of
the temporaries what they held.
-/

section Arrive

variable {P : List Line} (L : Layout P.length)

/-- Whatever is called returns to the line behind the call. -/
def ReturnsTo (entry back : Machine) : Prop := CalleeReturns entry back (L.decode (entry.get .ra))

/--
The state at the jump of a call that started in `start`: the first argument registers hold
`vals`, and the slots after `base` the values the busy temporaries had.
-/
structure AtJump (jump base : Nat) (busy : List Temp) (start : Machine) (vals : List Word)
    (m : Machine) : Prop where
  pc : m.pc = jump
  args : ∀ i (h : i < argLength) v, vals[i]? = some v → m.get (.a ⟨i, h⟩) = v
  saved : ∀ k i, busy[k]? = some i →
    loadWord m.mem (below (start.get fp) (base + registerSize * (k + 1))) = start.get (.t i)

/--
From the code of the arguments on, which starts at `p`, the activation comes to the end
of the code of each argument, one after the other, and at last to a state as `atJump` says
of the values the arguments had when their code ended.
-/
def ArgsArrive (frames : List StackFrame) (atJump : List Word → Machine → Prop) :
    List AstNode → AsmState → Nat → List Word → Machine → Prop
  | [], _, _, vals, m => Reaches L (ReturnsTo L) (atJump vals) m
  | arg :: rest, st, p, vals, m =>
      ∀ reg st' c, evalAsm frames arg st = .ok (reg, st', c) →
        Reaches L (ReturnsTo L) (fun m' => m'.pc = p + c.length ∧
          ArgsArrive frames atJump rest (st'.release reg) (p + c.length + 1)
            (vals ++ [m'.get (.t reg)]) m') m

end Arrive

/-- The stack has room for a frame and for slots below the frame pointer. -/
structure Room (frame : Nat) (slots : List Nat) (m : Machine) : Prop where
  sp : m.get .sp = below (m.get fp) frame
  frame : frame ≤ (m.get fp).toNat
  slots : ∀ w ∈ slots, w ≤ (m.get fp).toNat
  top : (m.get fp).toNat ≤ 2 ^ 32 - 4

/--
The arguments of a call arrive.  Take the code `c` of a call of `symbol` from a function
with a frame of `frame` bytes, in any program with the functions called in the arguments, and
any state with room for the frame and the slots written.  However these functions return, the
jump is reached with each argument's value in its register and with the values of the busy
temporaries in their slots.
-/
def CallArrives (frames : List StackFrame) (frame : Nat) (symbol : Option SymId)
    (args : List AstNode) (st : AsmState) (c : List Line) : Prop :=
  ∀ (P : List Line) (L : Layout P.length) (m : Machine), (labels P).Nodup →
    (∀ l ∈ AstNode.callsList args, .label l ∈ P) → CodeAt P m.pc c →
    Room frame ((AstNode.funcCall "" args symbol).writes st.entries frames st.busy.length) m →
    ArgsArrive L frames
      (AtJump (m.pc + c.length - (st.busy.length + 2)) (calleeBase st.entries frames symbol)
        st.busy m)
      args (st.withFree fun _ => true) (m.pc + st.busy.length) [] m

end MyLang
