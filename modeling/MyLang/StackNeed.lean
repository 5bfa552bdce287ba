/-
How much stack a program needs.

A function can call itself and what is defined before it, and nothing else.  So where none calls
itself, what each of them needs is known before it runs: its own frame, and what the
deepest of the functions it calls needs.
-/
import MyLang.SourceCalls
import MyLang.Proofs.LabelNames

namespace MyLang

/-- The largest need among the functions of some names. -/
def deepest (needs : List (String × Nat)) (names : List String) : Nat :=
  (names.map fun name => (needs.lookup name).getD 0).foldr max 0

/-- What the functions of a program need, from the first to the last. -/
def stackNeeds (needs : List (String × Nat)) : List AstNode → List (String × Nat)
  | [] => needs
  | .funcDef name _ body _ _ :: rest =>
      stackNeeds ((name, frameBytes body + deepest needs body.calls) :: needs) rest
  | _ :: rest => stackNeeds needs rest

/-- The bytes of stack a function of the program needs. -/
def SemaResult.stackNeed (r : SemaResult) (name : String) : Nat :=
  ((stackNeeds [] r.prog).lookup name).getD 0

/-- A function that does not call itself. -/
def AstNode.selfFree : AstNode → Bool
  | .funcDef name _ body _ _ => name ∉ body.calls
  | _ => true

end MyLang
