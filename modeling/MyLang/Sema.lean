/-
Semantic analysis, as in `sema.c`: name resolution, frame layout and type checking.

`sym_check` walks the tree, allocates a symbol table entry for every declaration and links
every use to an entry.  The tree it returns is the one it was given with the `symbol`
fields set; the entries and the stack frames it allocates are the heap of `SemaState`.  A
scope is a hash map and a link to the enclosing scope, innermost first.

Stopping with a message is one constructor of `SemaError` per message.  Looking into a
`NULL` or unset pointer is undefined behaviour, and `undefined` is what becomes of it.

An entry is allocated with what is in memory, and `arena` is the `offset` that the memory
of an entry holds.  The cases of `sym_check` that do more than pass on to the children
have functions of their own here, under the name of the case, which take the check of a
child as an argument.
-/
import MyLang.HashMap
import MyLang.Ast

namespace MyLang

/-- How the analysis stops without a result. -/
inductive SemaError where
  /-- `Redefinition of variable.` -/
  | redefinitionOfVariable
  /-- `Redeclaration of variable.` -/
  | redeclarationOfVariable
  /-- `Redefinition of function '%s'` -/
  | redefinitionOfFunction (name : String)
  /-- `Cannot used undefined variable` -/
  | undefinedVariable (name : String)
  /-- `Mismatching args for function '%s'` -/
  | mismatchingArgs (name : String)
  /-- `Type Error: got types (%d) and (%d)` -/
  | typeError (type1 type2 : TypeSpecifier)
  /-- A `NULL` or unset pointer was looked into. -/
  | undefined
deriving DecidableEq, Repr

/-! ### Scopes

A child scope starts as a clone of its parent's table, so a lookup in it finds outer names
as well.
-/

/-- `Scope`: the symbol tables from the innermost to the global one. -/
abbrev Scope := List (HashMap SymId)

/-- `enter_scope`: the child starts as a clone of the parent's table. -/
def enterScope : Scope → Scope
  | [] => []
  | symtab :: parents => symtabClone symtab :: symtab :: parents

/-- `exit_scope`. -/
def exitScope (scope : Scope) : Scope := scope.tail

/-- `scope_add`. -/
def scopeAdd : Scope → SymId → String → Scope
  | [], _, _ => []
  | symtab :: parents, entry, key => hashmapAdd symtab entry key :: parents

/-- `scope_lookup`: the entry of the innermost scope that has one. -/
def scopeLookup : Scope → String → Option SymId
  | [], _ => none
  | symtab :: parents, key =>
      match hashmapGet symtab key with
      | some entry => some entry
      | none => scopeLookup parents key

/-- `in_scope`. -/
def inScope (scope : Scope) (key : String) : Bool := (scopeLookup scope key).isSome

/-! ### The heap

Entries and frames are only ever added, so an index stays good.
-/

/-- What the analysis allocates and where it stands. -/
structure SemaState where
  /-- The symbol table entries, in order of allocation. -/
  entries : List SymTabEntry
  /-- The stack frame records, in order of allocation. -/
  frames : List StackFrame
  /-- The entries `warn_unused` is going to look at. -/
  symbols : List SymId
  scope : Scope

/-- An analysis step: it works on the state, or stops. -/
abbrev Sema := StateT SemaState (Except SemaError)

/-- Follow a pointer that may be `NULL` or unset. -/
def derefPtr {α : Type} : Option α → Sema α
  | some a => return a
  | none => throw .undefined

/-- Look into a symbol table entry. -/
def getEntry (id : SymId) : Sema SymTabEntry := do derefPtr (← get).entries[id]?

/-- Write into a symbol table entry. -/
def modifyEntry (id : SymId) (f : SymTabEntry → SymTabEntry) : Sema Unit :=
  modify fun st => { st with entries := st.entries.modify id f }

section SymCheck

/-
`typeEnv` is the type environment `sema_check` is given, and `arena` the contents of
the memory `context_alloc` hands out: the value an entry's `offset` has before it is
set.
-/
variable (arena : SymId → Nat) (typeEnv : HashMap TypeSpecifier)

/-- `make_symtab_entry`. -/
def makeSymtabEntry (key : String) (type : TypeSpecifier) (symbol : SymbolType) : Sema SymId := do
  let id := (← get).entries.length
  let entry : SymTabEntry :=
    { key, symbol, type, isArgLoaded := false, argReg := 0, offset := arena id, params := none,
      constValue := 0, frame := none, isUsed := false }
  modify fun st => { st with entries := st.entries ++ [entry] }
  return id

/-- `make_stack_frame`. -/
def makeStackFrame (func : String) : Sema FrameId := do
  let id := (← get).frames.length
  modify fun st => { st with frames := st.frames ++ [{ size := 0, func }] }
  return id

/-- `stackframe_add`: the offset of the new variable, the old size of the frame. -/
def stackframeAdd (frame : Option FrameId) (n typeSize : Nat) : Sema Nat := do
  let id ← derefPtr frame
  let tmp := (← derefPtr (← get).frames[id]?).size
  modify fun st =>
    { st with frames := st.frames.modify id fun f => { f with size := f.size + typeSize * n } }
  return tmp

/-- `hashmap_get(type_env, type)->ts`. -/
def typeSpecifier (type : String) : Sema TypeSpecifier := derefPtr (hashmapGet typeEnv type)

/-- `vector_push(symbols, entry)`. -/
def pushSymbol (id : SymId) : Sema Unit := modify fun st =>
    { st with symbols := st.symbols ++ [id] }

/-- `scope_add` on the current scope. -/
def addToScope (id : SymId) (key : String) : Sema Unit :=
  modify fun st => { st with scope := scopeAdd st.scope id key }

/-- Run `body` between `enter_scope` and `exit_scope`. -/
def inChildScope {α : Type} (body : Sema α) : Sema α := do
  modify fun st => { st with scope := enterScope st.scope }
  let a ← body
  modify fun st => { st with scope := exitScope st.scope }
  return a

/-- The case `AST_VAR_DEF` of `sym_check`. -/
def symCheckVarDef (value type : String) (frame : Option FrameId) (checkExpr : Sema AstNode) :
    Sema AstNode := do
  if inScope (← get).scope value then
    throw .redefinitionOfVariable
  let expr ← checkExpr
  let entry ← makeSymtabEntry arena value (← typeSpecifier typeEnv type) .variable
  pushSymbol entry
  let offset ← stackframeAdd frame 1 intSize
  modifyEntry entry fun e => { e with offset }
  addToScope entry value
  return .varDef value type expr (some entry)

/-- The case `AST_VAR_DEC` of `sym_check`. -/
def symCheckVarDec (value type : String) (frame : Option FrameId) : Sema AstNode := do
  if inScope (← get).scope value then
    throw .redeclarationOfVariable
  let entry ← makeSymtabEntry arena value (← typeSpecifier typeEnv type) .variable
  let offset ← stackframeAdd frame 1 intSize
  modifyEntry entry fun e => { e with offset }
  addToScope entry value
  return .varDec value type (some entry)

/-- The parameter loop of the case `AST_FUNC_DEF` of `sym_check`. -/
def symCheckParams : List Param → Sema (List Param)
  | [] => return []
  | param :: rest => do
      let entry ← makeSymtabEntry arena param.value (← typeSpecifier typeEnv param.type) .variable
      addToScope entry param.value
      return { param with symbol := some entry } :: (← symCheckParams rest)

/-- The case `AST_FUNC_DEF` of `sym_check`; the body is checked with the new frame. -/
def symCheckFuncDef (value type : String) (params : List Param)
    (checkBody : FrameId → Sema AstNode) : Sema AstNode := do
  if inScope (← get).scope value then
    throw (.redefinitionOfFunction value)
  let frame ← makeStackFrame value
  let params ← symCheckParams arena typeEnv params
  let entry ← makeSymtabEntry arena value (← typeSpecifier typeEnv type) .function
  pushSymbol entry
  modifyEntry entry fun e => { e with params := some params, frame := some frame }
  addToScope entry value
  let body ← checkBody frame
  return .funcDef value type body params (some entry)

/-- The case `AST_IDENT` of `sym_check`. -/
def symCheckIdent (value : String) : Sema AstNode := do
  match scopeLookup (← get).scope value with
  | none => throw (.undefinedVariable value)
  | some entry =>
      modifyEntry entry fun e => { e with isUsed := true }
      return .ident value (some entry)

/--
The case `AST_FUNC_CALL` of `sym_check`.  The parameters are read before `entry` is checked
for `NULL`.
-/
def symCheckFuncCall (value : String) (numArgs : Nat) (checkArgs : Sema (List AstNode)) :
    Sema AstNode := do
  let entry ← derefPtr (scopeLookup (← get).scope value)
  let params := (← getEntry entry).params
  modifyEntry entry fun e => { e with isUsed := true }
  if (← derefPtr params).length ≠ numArgs then
    throw (.mismatchingArgs value)
  let args ← checkArgs
  return .funcCall value args (some entry)

/-- The case `AST_RET` of `sym_check`. -/
def symCheckRet (frame : Option FrameId) (checkExpr : Sema AstNode) : Sema AstNode := do
  let frame ← derefPtr frame
  let func := (← derefPtr (← get).frames[frame]?).func
  let entry := scopeLookup (← get).scope func
  let expr ← checkExpr
  return .ret expr entry

/-- The loop of the case `AST_ENUM` of `sym_check`, from the `i`th constant on. -/
def symCheckEnums : Nat → List String → Sema Unit
  | _, [] => return ()
  | i, key :: rest => do
      let entry ← makeSymtabEntry arena key .int .const
      modifyEntry entry fun e => { e with constValue := i }
      addToScope entry key
      symCheckEnums (i + 1) rest

mutual

/-- `sym_check`. -/
def symCheck (frame : Option FrameId) : AstNode → Sema AstNode
  | .compStmt body => inChildScope do return .compStmt (← symCheckList frame body)
  | .ifElse ifExpr ifBody elseBody => do
      let ifBody ← symCheck frame ifBody
      let ifExpr ← symCheck frame ifExpr
      if elseBody.nonNull then
        return .ifElse ifExpr ifBody (← symCheck frame elseBody)
      else
        return .ifElse ifExpr ifBody elseBody
  | .varDef value type expr _ =>
      symCheckVarDef arena typeEnv value type frame (symCheck frame expr)
  | .binExp value opType left right => do
      let left ← symCheck frame left
      let right ← symCheck frame right
      return .binExp value opType left right
  | .intConst value => return .intConst value
  | .funcDef value type body params _ =>
      symCheckFuncDef arena typeEnv value type params fun frame => symCheck (some frame) body
  | .ident value _ => symCheckIdent value
  | .funcCall value args _ => symCheckFuncCall value args.length (symCheckList frame args)
  | .ret expr _ => symCheckRet frame (symCheck frame expr)
  | .enum value enums => do
      symCheckEnums arena 0 enums
      return .enum value enums
  | .varDec value type _ => symCheckVarDec arena typeEnv value type frame
  | .varAsgn lval rval => do
      let lval ← symCheck frame lval
      let rval ← symCheck frame rval
      return .varAsgn lval rval
  | .while_ expr body => do
      let expr ← symCheck frame expr
      let body ← symCheck frame body
      return .while_ expr body
  | .for_ init cond step body => inChildScope do
      let init ← symCheck frame init
      let cond ← symCheck frame cond
      let step ← symCheck frame step
      let body ← symCheck frame body
      return .for_ init cond step body
  | .exprStmt expr => do return .exprStmt (← symCheck frame expr)
  | .unaryExpr postfixExpr value opType => do
      return .unaryExpr (← symCheck frame postfixExpr) value opType
  | .lval kind ident => do return .lval kind (← symCheck frame ident)
  | .emptyExpr => return .emptyExpr
  | .null => throw .undefined
termination_by structural node => node

/-- `sym_check` on the elements of a vector, in order. -/
def symCheckList (frame : Option FrameId) : List AstNode → Sema (List AstNode)
  | [] => return []
  | node :: rest => do
      let node ← symCheck frame node
      let rest ← symCheckList frame rest
      return node :: rest
termination_by structural nodes => nodes

end

end SymCheck

/-! ### Type checking

It comes behind `sym_check`, on the tree with symbols, and reads types out of the entries.
-/

/-- `assert_type_eq`. -/
def assertTypeEq (type1 type2 : TypeSpecifier) : Except SemaError Unit :=
  if type1 ≠ type2 then .error (.typeError type1 type2) else .ok ()

section TypeCheck

variable (entries : List SymTabEntry)

/-- `symbol->type`. -/
def symbolType (symbol : Option SymId) : Except SemaError TypeSpecifier :=
  match symbol.bind (entries[·]?) with
  | some entry => .ok entry.type
  | none => .error .undefined

mutual

/-- `type_check`. -/
def typeCheck : AstNode → Except SemaError TypeSpecifier
  | .compStmt body => do
      typeCheckList body
      return .void
  | .ifElse _ ifBody elseBody => do
      let _ ← typeCheck ifBody
      if elseBody.nonNull then
        let _ ← typeCheck elseBody
      return .void
  | .varDef _ _ expr symbol => do
      let expected ← symbolType entries symbol
      let actual ← typeCheck expr
      assertTypeEq expected actual
      return .void
  | .binExp _ _ left _ => do
      let expected ← typeCheck left
      let actual ← typeCheck left
      assertTypeEq expected actual
      return expected
  | .intConst _ => return .int
  | .funcDef _ _ body _ _ => do
      let _ ← typeCheck body
      return .void
  | .ident _ symbol => symbolType entries symbol
  | .funcCall _ _ symbol => symbolType entries symbol
  | .ret expr func => do
      let expected ← symbolType entries func
      let actual ← typeCheck expr
      assertTypeEq expected actual
      return expected
  | .varAsgn lval rval => do
      let expected ← typeCheck lval
      let actual ← typeCheck rval
      assertTypeEq expected actual
      return expected
  | .while_ _ body => typeCheck body
  | .for_ _ _ _ body => typeCheck body
  | .exprStmt expr => typeCheck expr
  | .unaryExpr postfixExpr _ _ => typeCheck postfixExpr
  | .enum _ _ => return .void
  | .varDec _ _ _ => return .void
  | .emptyExpr => return .void
  | .lval .ident (.ident _ symbol) => symbolType entries symbol
  | .lval .ident _ => throw .undefined
  | .null => throw .undefined
termination_by structural node => node

/-- `type_check` on the elements of a vector, in order. -/
def typeCheckList : List AstNode → Except SemaError Unit
  | [] => return ()
  | node :: rest => do
      let _ ← typeCheck node
      typeCheckList rest
termination_by structural nodes => nodes

end

end TypeCheck

/-! ### The whole analysis

Linking, type checking, and the warnings about what was never used.
-/

/-- `warn_unused`: the names it warns about, in order. -/
def warnUnused (entries : List SymTabEntry) (symbols : List SymId) : List String :=
  symbols.filterMap fun id =>
    match entries[id]? with
    | some symbol => if !symbol.isUsed && symbol.key ≠ "main" then some symbol.key else none
    | none => none

/-- `type_env_init` on a fresh map. -/
def typeEnvInit : HashMap TypeSpecifier :=
  [("int", .int), ("void", .void), ("char", .char), ("float", .float), ("double", .double),
    ("long", .long)].foldl (fun map e => hashmapAdd map e.2 e.1) hashmapNew

/-- What `sema_check` leaves behind: the linked program and the heap it points into. -/
structure SemaResult where
  prog : List AstNode
  entries : List SymTabEntry
  frames : List StackFrame
  symbols : List SymId
  warnings : List String

/-- The state `sema_check` starts from: an empty global scope. -/
def SemaState.initial : SemaState :=
  { entries := [], frames := [], symbols := [], scope := [hashmapNew] }

/-- `sema_check`. -/
def semaCheck (arena : SymId → Nat) (typeEnv : HashMap TypeSpecifier) (prog : List AstNode) :
    Except SemaError SemaResult := do
  let (prog, st) ← (symCheckList arena typeEnv none prog).run SemaState.initial
  typeCheckList st.entries prog
  return { prog, entries := st.entries, frames := st.frames, symbols := st.symbols,
           warnings := warnUnused st.entries st.symbols }

end MyLang
