/-
What each case of `sym_check` does, said once.

The analysis changes its state in a few ways: it declares a name, grows a stack frame,
marks an entry as used, and enters or leaves a scope.  Each of them is a function on
states here, and for every case of `sym_check` there is one lemma that says when it
returns and which of these it then made.  The proofs about the analysis use these lemmas
and do not look into the monadic code again.

The lemmas are equivalences, with everything in them that a case checks: a name that is in
scope already, a type that does not exist, a symbol without an entry, a number of
arguments.  The order of the changes is that of the code, where it matters: a function is
declared when its parameters have been, and the frame of a variable grows behind the check
of its initialiser.
-/
import MyLang.Sema
import MyLang.Lib.StateExcept

namespace MyLang

open StateExcept

variable {arena : SymId → Nat} {typeEnv : HashMap TypeSpecifier} {s s' : SemaState}

/-! ### Entries and changes of state

An entry has the offset that was in its memory, unless it is set at once.
-/

/-- The entry of a local variable. -/
def varEntry (key : String) (type : TypeSpecifier) (offset : Nat) : SymTabEntry :=
  { key, symbol := .variable, type, isArgLoaded := false, argReg := 0, offset, params := none,
    constValue := 0, frame := none, isUsed := false }

/-- The entry of an enum constant. -/
def constEntry (key : String) (offset value : Nat) : SymTabEntry :=
  { key, symbol := .const, type := .int, isArgLoaded := false, argReg := 0, offset,
    params := none, constValue := value, frame := none, isUsed := false }

/-- The entry of a function. -/
def funcEntry (key : String) (type : TypeSpecifier) (offset : Nat) (params : List Param)
    (frame : FrameId) : SymTabEntry :=
  { key, symbol := .function, type, isArgLoaded := false, argReg := 0, offset,
    params := some params, constValue := 0, frame := some frame, isUsed := false }

namespace SemaState

/-- The id of the next entry. -/
def nextId (s : SemaState) : Nat := s.entries.length

/-- A new entry, its name added to the current scope. -/
def declare (s : SemaState) (e : SymTabEntry) : SemaState :=
  { s with entries := s.entries ++ [e], scope := scopeAdd s.scope s.nextId e.key }

/-- One more variable in a stack frame. -/
def grow (s : SemaState) (frame : FrameId) : SemaState :=
  { s with frames := s.frames.modify frame fun f => { f with size := f.size + intSize } }

/-- The next entry is put on the list of symbols to warn about. -/
def watch (s : SemaState) : SemaState := { s with symbols := s.symbols ++ [s.nextId] }

/-- An entry is used. -/
def use (s : SemaState) (id : SymId) : SemaState :=
  { s with entries := s.entries.modify id fun e => { e with isUsed := true } }

/-- A new stack frame. -/
def pushFrame (s : SemaState) (func : String) : SemaState :=
  { s with frames := s.frames ++ [{ size := 0, func }] }

/-- A child scope is entered. -/
def enter (s : SemaState) : SemaState := { s with scope := enterScope s.scope }

/-- The current scope is left. -/
def exit (s : SemaState) : SemaState := { s with scope := exitScope s.scope }

end SemaState

theorem derefPtr_bind_eq_ok {α β : Type} {o : Option α} {f : α → Sema β} {b : β} :
    (derefPtr o >>= f) s = .ok (b, s') ↔ ∃ a, o = some a ∧ f a s = .ok (b, s') := by
  cases o with
  | none => simp [derefPtr]
  | some a => simp [derefPtr]

theorem modify_concat {α : Type} (l : List α) (a : α) (f : α → α) :
    (l ++ [a]).modify l.length f = l ++ [f a] := by
  induction l with
  | nil => rfl
  | cons x l ih => simpa using ih

/-! ### The cases

One lemma for each case, in the order of `sym_check`.
-/

section Cases

variable {frame : Option FrameId} {value type : String} {node : AstNode}

/-- A definition: the value is checked, the frame grows, and the name is declared. -/
theorem symCheckVarDef_eq_ok {checkExpr : Sema AstNode} :
    symCheckVarDef arena typeEnv value type frame checkExpr s = .ok (node, s') ↔
      inScope s.scope value = false ∧ ∃ expr s1 ts fid f, checkExpr s = .ok (expr, s1) ∧
        hashmapGet typeEnv type = some ts ∧ frame = some fid ∧ s1.frames[fid]? = some f ∧
        node = .varDef value type expr (some s1.nextId) ∧
        s' = (s1.watch.grow fid).declare (varEntry value ts f.size) := by
  by_cases hs : inScope s.scope value = true
  · simp [symCheckVarDef, hs]
  have hs' : inScope s.scope value = false := by simpa using hs
  simp only [symCheckVarDef, get_bind_apply]
  rw [if_neg hs]
  simp only [hs', true_and]
  rw [bind_eq_ok]
  refine exists_congr fun expr => exists_congr fun s1 => ?_
  simp only [typeSpecifier, derefPtr_bind_eq_ok, makeSymtabEntry, bind_assoc, get_bind_apply,
    modify_bind_apply, pure_bind, pushSymbol, stackframeAdd, modifyEntry, addToScope, pure_eq_ok,
    modify_concat, Nat.mul_one, exists_and_left]
  rfl

/-- A declaration without a value. -/
theorem symCheckVarDec_eq_ok :
    symCheckVarDec arena typeEnv value type frame s = .ok (node, s') ↔
      inScope s.scope value = false ∧ ∃ ts fid f, hashmapGet typeEnv type = some ts ∧
        frame = some fid ∧ s.frames[fid]? = some f ∧
        node = .varDec value type (some s.nextId) ∧
        s' = (s.grow fid).declare (varEntry value ts f.size) := by
  by_cases hs : inScope s.scope value = true
  · simp [symCheckVarDec, hs]
  have hs' : inScope s.scope value = false := by simpa using hs
  simp only [symCheckVarDec, get_bind_apply]
  rw [if_neg hs]
  simp only [hs', true_and]
  simp only [typeSpecifier, derefPtr_bind_eq_ok, makeSymtabEntry, bind_assoc, get_bind_apply,
    modify_bind_apply, pure_bind, stackframeAdd, modifyEntry, addToScope, pure_eq_ok,
    modify_concat, Nat.mul_one, exists_and_left]
  rfl

/-- A parameter is declared, and then the others. -/
theorem symCheckParams_cons_eq_ok {param : Param} {rest params : List Param} :
    symCheckParams arena typeEnv (param :: rest) s = .ok (params, s') ↔
      ∃ ts ps, hashmapGet typeEnv param.type = some ts ∧
        symCheckParams arena typeEnv rest
          (s.declare (varEntry param.value ts (arena s.nextId))) = .ok (ps, s') ∧
        params = { param with symbol := some s.nextId } :: ps := by
  simp only [symCheckParams, typeSpecifier, derefPtr_bind_eq_ok, makeSymtabEntry, bind_assoc,
    get_bind_apply, modify_bind_apply, pure_bind, addToScope]
  refine exists_congr fun ts => ?_
  rw [exists_and_left]
  refine and_congr_right fun _ => ?_
  rw [bind_eq_ok]
  simp only [pure_eq_ok]
  constructor
  · rintro ⟨ps, s1, h, rfl, rfl⟩
    exact ⟨ps, h, rfl⟩
  · rintro ⟨ps, h, rfl⟩
    exact ⟨ps, s', h, rfl, rfl⟩

/-- A function: its parameters, itself, and its body. -/
theorem symCheckFuncDef_eq_ok {params : List Param} {checkBody : FrameId → Sema AstNode} :
    symCheckFuncDef arena typeEnv value type params checkBody s = .ok (node, s') ↔
      inScope s.scope value = false ∧ ∃ ps s1 ts body,
        symCheckParams arena typeEnv params (s.pushFrame value) = .ok (ps, s1) ∧
        hashmapGet typeEnv type = some ts ∧
        checkBody s.frames.length (s1.watch.declare
          (funcEntry value ts (arena s1.nextId) ps s.frames.length)) = .ok (body, s') ∧
        node = .funcDef value type body ps (some s1.nextId) := by
  by_cases hs : inScope s.scope value = true
  · simp [symCheckFuncDef, hs]
  have hs' : inScope s.scope value = false := by simpa using hs
  simp only [symCheckFuncDef, get_bind_apply]
  rw [if_neg hs]
  simp only [hs', true_and, makeStackFrame, bind_assoc, get_bind_apply, modify_bind_apply,
    pure_bind]
  rw [bind_eq_ok]
  refine exists_congr fun ps => ?_
  have hcomm : ∀ {p : SemaState → Prop} {q : TypeSpecifier → SemaState → AstNode → Prop},
      (∃ s1 ts body, p s1 ∧ q ts s1 body) ↔ ∃ s1, p s1 ∧ ∃ ts body, q ts s1 body := by
    intro p q
    simp only [exists_and_left]
  rw [hcomm]
  refine exists_congr fun s1 => and_congr_right fun _ => ?_
  simp only [typeSpecifier, derefPtr_bind_eq_ok, makeSymtabEntry, bind_assoc, get_bind_apply,
    modify_bind_apply, pure_bind, pushSymbol, modifyEntry, addToScope, modify_concat]
  refine exists_congr fun ts => ?_
  rw [exists_and_left]
  refine and_congr_right fun _ => ?_
  rw [bind_eq_ok]
  simp only [pure_eq_ok]
  constructor
  · rintro ⟨body, s2, h, rfl, rfl⟩
    exact ⟨body, h, rfl⟩
  · rintro ⟨body, h, rfl⟩
    exact ⟨body, s', h, rfl, rfl⟩

theorem symCheckIdent_eq_ok :
    symCheckIdent value s = .ok (node, s') ↔
      ∃ id, scopeLookup s.scope value = some id ∧ node = .ident value (some id) ∧
        s' = s.use id := by
  simp only [symCheckIdent, get_bind_apply]
  cases h : scopeLookup s.scope value with
  | none => simp
  | some id => simp [modifyEntry, SemaState.use]

/-- A call: the function, the number of arguments, and the arguments. -/
theorem symCheckFuncCall_eq_ok {numArgs : Nat} {checkArgs : Sema (List AstNode)} :
    symCheckFuncCall value numArgs checkArgs s = .ok (node, s') ↔
      ∃ id e ps args, scopeLookup s.scope value = some id ∧ s.entries[id]? = some e ∧
        e.params = some ps ∧ ps.length = numArgs ∧ checkArgs (s.use id) = .ok (args, s') ∧
        node = .funcCall value args (some id) := by
  simp only [symCheckFuncCall, get_bind_apply, derefPtr_bind_eq_ok, getEntry, bind_assoc,
    modifyEntry, modify_bind_apply]
  constructor
  · rintro ⟨id, hid, e, he, ps, hps, h⟩
    split_ifs at h with hlen
    · simp at h
    rw [bind_eq_ok] at h
    obtain ⟨args, s1, hargs, h⟩ := h
    rw [pure_eq_ok] at h
    obtain ⟨rfl, rfl⟩ := h
    exact ⟨id, e, ps, args, hid, he, hps, not_not.mp hlen, hargs, rfl⟩
  · rintro ⟨id, e, ps, args, hid, he, hps, hlen, hargs, rfl⟩
    refine ⟨id, hid, e, he, ps, hps, ?_⟩
    rw [if_neg (not_not.mpr hlen), bind_eq_ok]
    exact ⟨args, s', hargs, pure_eq_ok.mpr ⟨rfl, rfl⟩⟩

/-- A `return` looks its function up by the name that the frame has. -/
theorem symCheckRet_eq_ok {checkExpr : Sema AstNode} :
    symCheckRet frame checkExpr s = .ok (node, s') ↔
      ∃ fid f expr, frame = some fid ∧ s.frames[fid]? = some f ∧ checkExpr s = .ok (expr, s') ∧
        node = .ret expr (scopeLookup s.scope f.func) := by
  simp only [symCheckRet, get_bind_apply, derefPtr_bind_eq_ok]
  constructor
  · rintro ⟨fid, rfl, f, hf, h⟩
    rw [bind_eq_ok] at h
    obtain ⟨expr, s1, he, h⟩ := h
    rw [pure_eq_ok] at h
    obtain ⟨rfl, rfl⟩ := h
    exact ⟨fid, f, expr, rfl, hf, he, rfl⟩
  · rintro ⟨fid, f, expr, rfl, hf, he, rfl⟩
    refine ⟨fid, rfl, f, hf, ?_⟩
    rw [bind_eq_ok]
    exact ⟨expr, s', he, pure_eq_ok.mpr ⟨rfl, rfl⟩⟩

theorem symCheckEnums_nil_eq_ok {i : Nat} {u : Unit} :
    symCheckEnums arena i [] s = .ok (u, s') ↔ s' = s := by
  simp [symCheckEnums]

theorem symCheckEnums_cons_eq_ok {i : Nat} {key : String} {rest : List String} {u : Unit} :
    symCheckEnums arena i (key :: rest) s = .ok (u, s') ↔
      symCheckEnums arena (i + 1) rest (s.declare (constEntry key (arena s.nextId) i))
        = .ok (u, s') := by
  simp only [symCheckEnums, makeSymtabEntry, bind_assoc, get_bind_apply, modify_bind_apply,
    pure_bind, modifyEntry, addToScope, modify_concat]
  rfl

theorem inChildScope_eq_ok {α : Type} {body : Sema α} {a : α} :
    inChildScope body s = .ok (a, s') ↔ ∃ s1, body s.enter = .ok (a, s1) ∧ s' = s1.exit := by
  simp only [inChildScope, modify_bind_apply]
  rw [bind_eq_ok]
  simp only [modify_bind_apply, pure_eq_ok]
  constructor
  · rintro ⟨_, s1, h, rfl, rfl⟩
    exact ⟨s1, h, rfl⟩
  · rintro ⟨s1, h, rfl⟩
    exact ⟨a, s1, h, rfl, rfl⟩

end Cases

end MyLang
