/-
The declarations that `sym_check` comes to.

`ComesTo` follows `sym_check` from a node to a declaration in it: what is checked before
it has returned, and left a state.  A `Site` is where it then is, with what the names in
scope stand for, and the names that the innermost scope has declared so far: the parameter
list, the block, or the header of the `for` the declaration stands in.

A rule of `ComesTo` is a way into a node, with the parts that are checked in front of the
one that is gone into.  The analysis may stop behind the declaration, or at it; nothing is
asked of what comes later.  `ScopeExact` is then about the declaration where it stands: it
is rejected just if its name has been declared in the same scope, and otherwise hides what
the name stood for.
-/
import MyLang.Kinds
import MyLang.Proofs.Ast
import MyLang.Proofs.SemaStep

namespace MyLang

/-- Where `sym_check` is. -/
structure Site where
  frame : Option FrameId
  state : SemaState
  /-- What the names in scope stand for. -/
  env : KindEnv
  /-- The names declared so far in the same parameter list, block or header. -/
  here : List String

namespace Site

/-- Behind some declarations of the same scope. -/
def behind (σ : Site) (s : SemaState) (declared : KindEnv) : Site :=
  { σ with state := s, env := declared ++ σ.env, here := declared.map Prod.fst ++ σ.here }

/-- At the start of a scope. -/
def opened (σ : Site) (s : SemaState) : Site := { σ with state := s, here := [] }

end Site

/-- What declares a name, other than a function. -/
inductive Declaration where
  | varDec (value type : String)
  | varDef (value type : String) (expr : AstNode)
  | param (p : Param)
  /-- The `i`th constant of an enumeration. -/
  | enumConst (i : Nat) (key : String)

namespace Declaration

/-- The name it declares. -/
def name : Declaration → String
  | .varDec value _ => value
  | .varDef value _ _ => value
  | .param p => p.value
  | .enumConst _ key => key

/--
A variable whose name is in scope has the name of one declared in the same scope; a
parameter or a constant has not.
-/
def fits (env : KindEnv) (here : List String) : Declaration → Bool
  | .varDec value _ => !(env.lookup value).isSome || value ∈ here
  | .varDef value _ _ => !(env.lookup value).isSome || value ∈ here
  | .param p => p.value ∉ here
  | .enumConst _ key => key ∉ here

section Check

variable (arena : SymId → Nat) (typeEnv : HashMap TypeSpecifier)

/-- The part of `sym_check` that checks it: its case, or its turn of the loop. -/
def check (frame : Option FrameId) : Declaration → Sema Unit
  | .varDec value type => do
      let _ ← symCheckVarDec arena typeEnv value type frame
  | .varDef value type expr => do
      let _ ← symCheckVarDef arena typeEnv value type frame (symCheck arena typeEnv frame expr)
  | .param p => do
      let _ ← symCheckParams arena typeEnv [p]
  | .enumConst i key => symCheckEnums arena i [key]

end Check

end Declaration

section ComesTo

variable (arena : SymId → Nat) (typeEnv : HashMap TypeSpecifier)

/-- Checking the node at the first site comes to the declaration, at the second. -/
inductive ComesTo : AstNode → Site → Declaration → Site → Prop
  | varDec {value type symbol σ} : ComesTo (.varDec value type symbol) σ (.varDec value type) σ
  | varDef {value type expr symbol σ} :
      ComesTo (.varDef value type expr symbol) σ (.varDef value type expr) σ
  | enumConst {value before key after σ s1}
    (h : symCheckEnums arena 0 before σ.state = .ok ((), s1)) :
      ComesTo (.enum value (before ++ key :: after)) σ (.enumConst before.length key)
        (σ.behind s1 (AstNode.enum value before).kinds)
  | compStmt {before before' node after σ s1 d σ'}
      (h : symCheckList arena typeEnv σ.frame before σ.state.enter = .ok (before', s1))
      (hd : ComesTo node ((σ.opened s1).behind s1 (AstNode.kindsAfter [] before)) d σ') :
      ComesTo (.compStmt (before ++ node :: after)) σ d σ'
  | ifBody {ifExpr ifBody elseBody σ d σ'} (hd : ComesTo ifBody σ d σ') :
      ComesTo (.ifElse ifExpr ifBody elseBody) σ d σ'
  | elseBody {ifExpr ifExpr' ifBody ifBody' elseBody σ s1 s2 d σ'}
      (hbody : symCheck arena typeEnv σ.frame ifBody σ.state = .ok (ifBody', s1))
      (hexpr : symCheck arena typeEnv σ.frame ifExpr s1 = .ok (ifExpr', s2))
      (helse : elseBody.nonNull = true) (hd : ComesTo elseBody (σ.behind s2 ifBody.kinds) d σ') :
      ComesTo (.ifElse ifExpr ifBody elseBody) σ d σ'
  | whileBody {expr expr' body σ s1 d σ'}
      (hexpr : symCheck arena typeEnv σ.frame expr σ.state = .ok (expr', s1))
      (hd : ComesTo body (σ.behind s1 []) d σ') : ComesTo (.while_ expr body) σ d σ'
  | forInit {init cond step body σ d σ'} (hd : ComesTo init (σ.opened σ.state.enter) d σ') :
      ComesTo (.for_ init cond step body) σ d σ'
  | forBody {init init' cond cond' step step' body σ s1 s2 s3 d σ'}
      (hinit : symCheck arena typeEnv σ.frame init σ.state.enter = .ok (init', s1))
      (hcond : symCheck arena typeEnv σ.frame cond s1 = .ok (cond', s2))
      (hstep : symCheck arena typeEnv σ.frame step s2 = .ok (step', s3))
      (hd : ComesTo body ((σ.opened s3).behind s3 init.kinds) d σ') :
      ComesTo (.for_ init cond step body) σ d σ'
  | param {value type body before ps p after symbol σ s1}
      (hscope : inScope σ.state.scope value = false)
      (h : symCheckParams arena typeEnv before (σ.state.pushFrame value) = .ok (ps, s1)) :
      ComesTo (.funcDef value type body (before ++ p :: after) symbol) σ (.param p)
        ((σ.opened s1).behind s1 (before.map fun p => (p.value, NameKind.variable)).reverse)
  | funcBody {value type body params ps symbol ts σ s1 d σ'}
      (hscope : inScope σ.state.scope value = false)
      (hparams : symCheckParams arena typeEnv params (σ.state.pushFrame value) = .ok (ps, s1))
      (htype : hashmapGet typeEnv type = some ts)
      (hd : ComesTo body
        { frame := some σ.state.frames.length
          state := s1.watch.declare (funcEntry value ts (arena s1.nextId) ps σ.state.frames.length)
          env := funcKinds value params ++ σ.env
          here := [] } d σ') :
      ComesTo (.funcDef value type body params symbol) σ d σ'

/-- Checking a program comes to the declaration, at the site. -/
inductive ProgComesTo (prog : List AstNode) : Declaration → Site → Prop
  | intro {before before' node after s1 d σ} (hprog : prog = before ++ node :: after)
      (h : symCheckList arena typeEnv none before SemaState.initial = .ok (before', s1))
      (hd : ComesTo arena typeEnv node
        { frame := none, state := s1, env := funcsAfter [] before, here := [] } d σ) : ProgComesTo
          prog d σ

end ComesTo

/-! ### What becomes of a declaration

Said of the check of the declaration alone, in the state in which it is come to.
-/

/-- The message says that the name of a variable is taken. -/
def SemaError.ofRedeclaration : SemaError → Bool
  | .redefinitionOfVariable => true
  | .redeclarationOfVariable => true
  | _ => false

section Fate

variable (arena : SymId → Nat) (d : Declaration) (σ : Site)

/-- The analysis stops at the declaration, since its name is taken. -/
def Rejected (prog : List AstNode) : Prop :=
  ∃ e, e.ofRedeclaration = true ∧ d.check arena typeEnvInit σ.frame σ.state = .error e ∧
    semaCheck arena typeEnvInit prog = .error e

/--
Behind the declaration its name stands for a new entry, and every other for what it did,
however many statements follow in the same scope, unless they declare the name; leaving the
scope brings back what was around it.
-/
def Shadows : Prop :=
  ∀ s', d.check arena typeEnvInit σ.frame σ.state = .ok ((), s') →
    ∃ id : SymId, σ.state.entries.length ≤ id ∧ (s'.entries[id]?).map SymTabEntry.key
      = some d.name ∧ ∀ after after' s'', (∀ node ∈ after, node.isStmt = true) →
        symCheckList arena typeEnvInit σ.frame after s' = .ok (after', s'') →
        exitScope s''.scope = exitScope σ.state.scope ∧ ∀ key, key ∉ after.flatMap AstNode.names →
          scopeLookup s''.scope key = if key = d.name then some id
            else scopeLookup σ.state.scope key

/--
A declaration is rejected if its name is declared in the same scope, and otherwise hides
what its name stood for.
-/
def ScopeExact (prog : List AstNode) : Prop :=
  (Rejected arena d σ prog ↔ d.name ∈ σ.here) ∧ (d.name ∉ σ.here → Shadows arena d σ)

end Fate

end MyLang
