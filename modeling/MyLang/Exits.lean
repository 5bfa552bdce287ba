/-
How a function is left.

The code of a function ends with a jump back, and before each `return` and before the end
of a `void` function stands the code that gives the frame back.  The end of any other
function has no such code, and control can come there: `fallOffLines` has the lines of
these jumps.

What the caller relies on is said of two states, the one a function is entered in and the
one at the jump that leaves it.

The two words in which a function saves these registers lie in its frame, and the function
or one that it calls could write over them.  `LeavesWell` is about activations in which
neither has, and which are not left by one of those jumps.
-/
import MyLang.Lib.CallStack
import MyLang.Proofs.FuncRun

namespace MyLang

open Rv32 ByteMemory

/-- A `void` function. -/
def AstNode.isVoid : AstNode → Bool
  | .funcDef _ type _ _ _ => type = "void"
  | _ => false

/--
The lines of the jumps behind bodies that are not those of `void` functions; the first
function stands at `p`.
-/
def fallOffLines (frames : List StackFrame) : Nat → List AstNode → AsmState → List Nat
  | _, [], _ => []
  | p, node :: rest, st =>
      match genAsmNode frames node st with
      | .ok (_, st', c) =>
          (if node.isVoid then [] else [p + c.length - 1]) ++ fallOffLines frames
          (p + c.length) rest st'
      | .error _ => []

/-- A line is the jump back at the end of a function that is not `void`. -/
def FallsOff (r : SemaResult) (line : Nat) : Prop :=
  line ∈ fallOffLines r.frames startCode.length r.prog (makeRiscv r.entries)

instance (r : SemaResult) (line : Nat) : Decidable (FallsOff r line) :=
  inferInstanceAs (Decidable (_ ∈ _))

/-- A program of `void` functions only has none of these jumps. -/
theorem fallOffLines_void {frames : List StackFrame} {p : Nat} {prog : List AstNode} {st : AsmState}
    (hvoid : ∀ node ∈ prog, node.isVoid = true) : fallOffLines frames p prog st = [] := by
  induction prog generalizing p st with
  | nil => rw [fallOffLines]
  | cons node rest ih =>
      rw [fallOffLines]
      split
      · rw [ih fun n hn => hvoid n (.tail _ hn), if_pos (hvoid node (.head _)), List.nil_append]
      · rfl

/-- The caller finds its stack, its frame and its place again. -/
structure Restores (entry exit : Machine) : Prop where
  sp : exit.get .sp = entry.get .sp
  fp : exit.get fp = entry.get fp
  ra : exit.get .ra = entry.get .ra

/-- How many lines a function has before its body. -/
def headLength : Nat := 1 + (prologueCode 0).length

/--
The words that the prologue has saved `ra` and the frame pointer in are what they were
behind it.
-/
def SlotsKept {P : List Line} (L : Layout P.length) (entry exit : Machine) : Prop :=
  ∀ body, runFor L headLength entry = some body →
    loadWord exit.mem (below (entry.get .sp) 4) = loadWord body.mem (below (entry.get .sp) 4) ∧
      loadWord exit.mem (below (entry.get .sp) 8) = loadWord body.mem (below (entry.get .sp) 8)

/-- A function is left with its save slots kept, and not by falling off its end. -/
def LeavesWell (r : SemaResult) {P : List Line} (L : Layout P.length) (entry exit : Machine) :
    Prop :=
  SlotsKept L entry exit ∧ ¬ FallsOff r exit.pc

end MyLang
