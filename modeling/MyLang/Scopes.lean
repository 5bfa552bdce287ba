/-
The scopes of `sema.c` on the heap, and the environments they stand for.

A scope has a table of its own, which starts as a clone of its parent's, and a link to the
parent.  So a name is to be found in many tables at once, and `scope_lookup` takes the
first.  What it finds there is said without any table, by the adds that have been made in
the scopes that are still open.

A sequence of operations is well nested if no scope is left that was not entered.  The
global scope is there from the beginning, and a sequence may end with scopes still open,
as the analysis does where it stops.
-/
import MyLang.HashTable
import MyLang.Sema

namespace MyLang

open LinkedHeap

namespace Linked

/-- `Scope`: the symbol tables from the innermost to the global one. -/
abbrev Scope := List HashMap

/-- `enter_scope`. -/
def enterScope : Scope → HeapM (TableNode SymId) Scope
  | [] => failure
  | symtab :: parents => do return (← symtabClone symtab) :: symtab :: parents

/-- `exit_scope`. -/
def exitScope : Scope → HeapM (TableNode SymId) Scope
  | [] => failure
  | symtab :: parents => do
      hashmapFree symtab
      return parents

/-- `scope_add`. -/
def scopeAdd (entry : SymId) (key : String) : Scope → HeapM (TableNode SymId) Scope
  | [] => failure
  | symtab :: parents => do return (← hashmapAdd symtab entry key) :: parents

/-- `scope_lookup`. -/
def scopeLookup (key : String) : Scope → HeapM (TableNode SymId) (Option SymId)
  | [] => return none
  | symtab :: parents => do
      match ← hashmapGet symtab key with
      | some entry => return some entry
      | none => scopeLookup key parents

end Linked

/-- What is done with scopes. -/
inductive ScopeOp where
  | enter
  | add (entry : SymId) (key : String)
  | exit

namespace ScopeOp

/-- One operation on the innermost scope. -/
def run (scope : Linked.Scope) : ScopeOp → HeapM (TableNode SymId) Linked.Scope
  | enter => Linked.enterScope scope
  | add entry key => Linked.scopeAdd entry key scope
  | exit => Linked.exitScope scope

/-- The same on the scopes of the analysis. -/
def apply (scope : Scope) : ScopeOp → Scope
  | enter => enterScope scope
  | add entry key => scopeAdd scope entry key
  | exit => exitScope scope

/-- What it makes of the adds in the scopes that are open, those of the innermost first. -/
def record : List (List (SymId × String)) → ScopeOp → List (List (SymId × String))
  | scopes, enter => [] :: scopes
  | [], add _ _ => []
  | adds :: scopes, add entry key => (adds ++ [(entry, key)]) :: scopes
  | scopes, exit => scopes.tail

/-- A sequence of operations, on a global scope to begin with. -/
def runAll (ops : List ScopeOp) : HeapM (TableNode SymId) Linked.Scope :=
  ops.foldlM run [Linked.hashmapNew]

/-- The adds made in the scopes that are still open, in order. -/
def openAdds (ops : List ScopeOp) : List (SymId × String) := (ops.foldl record [[]]).reverse.flatten

/--
How many scopes are open behind a sequence, when `depth` were before it; no exit without its
enter.
-/
def depthAfter : Nat → List ScopeOp → Option Nat
  | depth, [] => some depth
  | depth, enter :: ops => depthAfter (depth + 1) ops
  | depth, add _ _ :: ops => depthAfter depth ops
  | 0, exit :: _ => none
  | depth + 1, exit :: ops => depthAfter depth ops

/-- Every exit has its enter. -/
def WellNested (ops : List ScopeOp) : Prop := (depthAfter 0 ops).isSome = true

/-- Every exit has its enter, and every enter its exit. -/
def Balanced (ops : List ScopeOp) : Prop := depthAfter 0 ops = some 0

instance (ops : List ScopeOp) : Decidable (WellNested ops) := inferInstanceAs (Decidable (_ = _))

instance (ops : List ScopeOp) : Decidable (Balanced ops) := inferInstanceAs (Decidable (_ = _))

end ScopeOp

end MyLang
