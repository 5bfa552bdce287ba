/-
The analysis meets the events of a program.

What an entry says of its name is never changed: `sym_check` appends entries, and of those
that exist it writes only the `is_used` flag.  So the tables say of every name in scope
what the environment of kinds does, and they go on saying it (`KeepsKinds`); what is true
of a linked use when it is made is true in the tables at the end, which the generator
reads.

The events of a tree are computed without `sym_check` (`Kinds.lean`).  `Meets` of
`Lib/Events.lean` says that a check goes through them: it stops for the first event that
stops it, with that event's error, and if there is none it returns and leaves what is
asked for.  Its rules follow the checks in sequence, so that each construct of the tree is
one or two of them.

What is left behind a check is `Checked`.  Its last field carries what is said of uses
through the induction: in all tables that go on from here the linked tree is used right
exactly if all its events are right.
-/
import MyLang.Kinds
import MyLang.Lib.Events
import MyLang.Proofs.SemaScope

namespace MyLang

open StateExcept

variable {arena : SymId → Nat} {typeEnv : HashMap TypeSpecifier} {s s' : SemaState}

/-! ### Kinds of entries

An entry that is made has a kind, and keeps it.  The three shapes of entries that
`sym_check` makes are the three kinds; a call is right if the name is a function's with as
many parameters as there are arguments, and a use of any other form if the kind is one it
can have.
-/

/-- What an entry says its name stands for. -/
def SymTabEntry.kind (e : SymTabEntry) : Option NameKind :=
  match e.symbol, e.params with
  | .variable, none => some .variable
  | .const, none => some .const
  | .function, some params => some (.function params.length)
  | _, _ => none

/-- What a symbol stands for. -/
def kindAt (entries : List SymTabEntry) (id : SymId) : Option NameKind :=
  (entries[id]?).bind SymTabEntry.kind

/-- What a symbol stands for it stands for later. -/
def KeepsKinds (entries entries' : List SymTabEntry) : Prop :=
  ∀ id k, kindAt entries id = some k → kindAt entries' id = some k

namespace KeepsKinds

variable {es es1 es2 : List SymTabEntry}

theorem refl (es : List SymTabEntry) : KeepsKinds es es := fun _ _ h => h

theorem trans (h : KeepsKinds es es1) (h1 : KeepsKinds es1 es2) : KeepsKinds es es2 :=
  fun id k hk => h1 id k (h id k hk)

theorem concat (es : List SymTabEntry) (e : SymTabEntry) : KeepsKinds es (es ++ [e]) := by
  intro id k hk
  obtain ⟨e', he', hk⟩ := Option.bind_eq_some_iff.mp hk
  have hlt := (List.getElem?_eq_some_iff.mp he').1
  rw [kindAt, List.getElem?_append_left hlt, he']
  exact hk

theorem use (s : SemaState) (id : SymId) : KeepsKinds s.entries (s.use id).entries := by
  intro i k hk
  obtain ⟨e, he, hk⟩ := Option.bind_eq_some_iff.mp hk
  rw [kindAt, SemaState.use, List.getElem?_modify, he]
  by_cases hi : id = i
  · simp only [if_pos hi]
    exact hk
  · simp only [if_neg hi]
    exact hk

end KeepsKinds

/-- The symbol of what a name stands for. -/
def NameKind.symbol : NameKind → SymbolType
  | .variable => .variable
  | .const => .const
  | .function _ => .function

/-- The number of parameters of what a name stands for, if it has any. -/
def NameKind.arity : NameKind → Option Nat
  | .function n => some n
  | _ => none

variable {entries : List SymTabEntry} {id : SymId} {k : NameKind}

/-- What the entry of a symbol is like if the symbol stands for something. -/
theorem entry_of_kindAt (h : kindAt entries id = some k) :
    ∃ e, entries[id]? = some e ∧ e.symbol = k.symbol ∧ e.params.map List.length = k.arity := by
  obtain ⟨e, he, hk⟩ := Option.bind_eq_some_iff.mp h
  refine ⟨e, he, ?_⟩
  unfold SymTabEntry.kind at hk
  split at hk
  · rename_i hsym hps
    obtain rfl := Option.some.inj hk
    exact ⟨hsym, by rw [hps]; rfl⟩
  · rename_i hsym hps
    obtain rfl := Option.some.inj hk
    exact ⟨hsym, by rw [hps]; rfl⟩
  · rename_i params hsym hps
    obtain rfl := Option.some.inj hk
    exact ⟨hsym, by rw [hps]; rfl⟩
  · simp at hk

theorem usedRight_ident (value : String) (h : kindAt entries id = some k) :
    (AstNode.ident value (some id)).usedRight entries = Event.right (.read value (some k)) := by
  obtain ⟨e, he, hsym, -⟩ := entry_of_kindAt h
  rw [AstNode.usedRight, Option.bind_some, he, Option.any_some, hsym]
  cases k <;> rfl

theorem usedRight_lval (value : String) (h : kindAt entries id = some k) :
    (AstNode.lval .ident (.ident value (some id))).usedRight entries
      = Event.right (.assign value (some k)) := by
  obtain ⟨e, he, hsym, -⟩ := entry_of_kindAt h
  rw [AstNode.usedRight, Option.bind_some, he, Option.any_some, hsym]
  cases k <;> rfl

theorem usedRight_funcCall (value : String) (args : List AstNode)
    (h : kindAt entries id = some (.function args.length)) :
    (AstNode.funcCall value args (some id)).usedRight entries
      = AstNode.usedRightList entries args := by
  obtain ⟨e, he, hsym, harity⟩ := entry_of_kindAt h
  -- the count of the call is the count that the entry has
  have hcall : (e.symbol = .function && e.params.map List.length = some args.length) = true := by
    rw [hsym, harity]
    simp [NameKind.symbol, NameKind.arity]
  rw [AstNode.usedRight, Option.bind_some, he, Option.any_some, hcall, Bool.true_and]

/-! ### States and environments of kinds

`scope_lookup` finds a name exactly if the environment has it, and the entry it finds is
of the kind the environment gives.  A block looks names up in a child scope, which has the
same names; what it declares goes with the child when it is left.
-/

/-- The tables say of a name what the environment does. -/
structure Kinded (outer : Scope) (env : KindEnv) (s : SemaState) : Prop where
  nonempty : s.scope ≠ []
  outer_eq : s.scope.tail = outer
  lookup : ∀ key, (scopeLookup s.scope key).map (kindAt s.entries) = (env.lookup key).map some

namespace Kinded

variable {outer : Scope} {env : KindEnv}

theorem inScope (h : Kinded outer env s) (key : String) :
    MyLang.inScope s.scope key = (env.lookup key).isSome := by
  have := congrArg Option.isSome (h.lookup key)
  simpa [MyLang.inScope] using this

/-- A name stands for something, or it is not in scope. -/
theorem scopeLookup_of (h : Kinded outer env s) {key : String} {k : NameKind}
    (hk : env.lookup key = some k) : ∃ id, scopeLookup s.scope key = some id ∧
      kindAt s.entries id = some k := by
  have hlook := h.lookup key
  rw [hk] at hlook
  obtain ⟨id, hid, hkind⟩ := Option.map_eq_some_iff.mp hlook
  exact ⟨id, hid, hkind⟩

theorem scopeLookup_none (h : Kinded outer env s) {key : String} (hk : env.lookup key = none) :
    scopeLookup s.scope key = none := by
  have hlook := h.lookup key
  rw [hk] at hlook
  exact Option.map_eq_none_iff.mp hlook

/-- The same scope, and more entries. -/
theorem keep (h : Kinded outer env s) (hscope : s'.scope = s.scope)
    (hkeep : KeepsKinds s.entries s'.entries) : Kinded outer env s' := by
  refine ⟨by rw [hscope]; exact h.nonempty, by rw [hscope]; exact h.outer_eq, fun key => ?_⟩
  rw [hscope]
  cases hk : env.lookup key with
  | none =>
      rw [h.scopeLookup_none hk]
      rfl
  | some k =>
      obtain ⟨id, hid, hkind⟩ := h.scopeLookup_of hk
      rw [hid, Option.map_some, hkeep id k hkind]
      rfl

theorem use (h : Kinded outer env s) (id : SymId) : Kinded outer env (s.use id) :=
  h.keep rfl (KeepsKinds.use s id)

theorem declare (h : Kinded outer env s) {e : SymTabEntry} {k : NameKind} (hk : e.kind = some k) :
    Kinded outer ((e.key, k) :: env) (s.declare e) := by
  have hscope : (s.declare e).scope ≠ [] ∧ (s.declare e).scope.tail = outer := by
    rw [← h.outer_eq]
    cases hs : s.scope with
    | nil => exact absurd hs h.nonempty
    | cons symtab parents => simp [SemaState.declare, hs, scopeAdd]
  refine ⟨hscope.1, hscope.2, fun key => ?_⟩
  have hkeep : Kinded outer env { s with entries := s.entries ++ [e] } :=
    h.keep rfl (KeepsKinds.concat s.entries e)
  have hlook := hkeep.lookup key
  rw [SemaState.declare, scopeLookup_scopeAdd h.nonempty, List.lookup_cons]
  by_cases hkey : key = e.key
  · -- the new entry is the last one, and its name now leads there
    have hnew : kindAt (s.entries ++ [e]) s.nextId = some k := by
      rw [kindAt, SemaState.nextId, List.getElem?_concat_length]
      exact hk
    simp [hkey, hnew]
  · -- any other name leads where it did, to an entry that is still there
    have hbeq : (key == e.key) = false := by simpa using hkey
    rw [if_neg hkey, hbeq]
    exact hlook

theorem enter (h : Kinded outer env s) : Kinded s.scope env s.enter := by
  refine ⟨?_, ?_, fun key => ?_⟩
  · cases hs : s.scope with
    | nil => exact absurd hs h.nonempty
    | cons symtab parents => simp [SemaState.enter, hs, enterScope]
  · cases hs : s.scope with
    | nil => exact absurd hs h.nonempty
    | cons symtab parents => simp [SemaState.enter, hs, enterScope]
  · rw [SemaState.enter, scopeLookup_enterScope]
    exact h.lookup key

/-- Behind a child scope the environment is the one before it. -/
theorem exit (h : Kinded outer env s) {env' : KindEnv} (h' : Kinded s.scope env' s')
    (hkeep : KeepsKinds s.entries s'.entries) : Kinded outer env s'.exit :=
  h.keep h'.outer_eq hkeep

end Kinded

/-! ### Expressions

A name that is not in scope stops the analysis with a message of its own, except in a
call: `AST_FUNC_CALL` reads `entry->params` before it checks `entry`, which has no defined
result for an unbound name, and none for one without parameters.
-/

/--
What checking leaves: the environment, the stack frame, and whether names are used right
wherever the entries go on from here, `right`, as the events say.
-/
structure Checked (fid : FrameId) (outer : Scope) (env : KindEnv) (entries : List SymTabEntry)
    (right : List SymTabEntry → Bool) (events : List Event) (s' : SemaState) : Prop where
  kinded : Kinded outer env s'
  frame : (s'.frames[fid]?).isSome = true
  keeps : KeepsKinds entries s'.entries
  right : ∀ es, KeepsKinds s'.entries es → right es = events.all Event.right

variable {fid : FrameId} {outer : Scope} {env env1 env2 : KindEnv}

namespace Checked

variable {es es1 : List SymTabEntry} {right right1 right2 : List SymTabEntry → Bool}
  {events events1 events2 : List Event} {s1 : SemaState}

theorem nil (h : Kinded outer env s) (hf : (s.frames[fid]?).isSome = true) :
    Checked fid outer env s.entries (fun _ => true) [] s :=
  ⟨h, hf, KeepsKinds.refl _, fun _ _ => rfl⟩

/-- One check behind another. -/
theorem append (h1 : Checked fid outer env1 es right1 events1 s1)
    (h2 : Checked fid outer env2 s1.entries right2 events2 s') :
    Checked fid outer env2 es (fun es => right1 es && right2 es) (events1 ++ events2) s' := by
  refine ⟨h2.kinded, h2.frame, h1.keeps.trans h2.keeps, fun es hes => ?_⟩
  rw [h1.right es (h2.keeps.trans hes), h2.right es hes, List.all_append]

/-- The same said of another tree. -/
theorem congr (h : Checked fid outer env es right events s') {right' : List SymTabEntry → Bool}
    (hright : ∀ es, right' es = right es) : Checked fid outer env es right' events s' :=
  ⟨h.kinded, h.frame, h.keeps, fun es hes => (hright es).trans (h.right es hes)⟩

end Checked

section Calls

variable {value : String} {n : Nat} {checkArgs : Sema (List AstNode)} {e : SymTabEntry}

theorem symCheckFuncCall_unbound (h : scopeLookup s.scope value = none) :
    symCheckFuncCall value n checkArgs s = .error .undefined := by
  simp only [symCheckFuncCall, get_bind_apply, h]
  rfl

/-- The entry of a name in scope is found, and its parameters are looked into. -/
theorem symCheckFuncCall_bound (h : scopeLookup s.scope value = some id)
    (he : s.entries[id]? = some e) : symCheckFuncCall value n checkArgs s =
      (do
        if (← derefPtr e.params).length ≠ n then
          throw (.mismatchingArgs value)
        let args ← checkArgs
        return .funcCall value args (some id) : Sema AstNode) (s.use id) := by
  simp only [symCheckFuncCall, get_bind_apply, h, getEntry, bind_assoc, modifyEntry]
  simp only [derefPtr, pure_bind, get_bind_apply, he, modify_bind_apply]
  rfl

end Calls

/-- The event a call is: it stops with no message unless the name is that of a function. -/
theorem symCheckFuncCall_meets {value : String} {args : List AstNode}
    {checkArgs : Sema (List AstNode)} {l : List Event} (h : Kinded outer env s)
    (hargs : ∀ id, Meets Event.stop checkArgs (s.use id) l fun args' s' => args'.length
      = args.length ∧
      Checked fid outer env (s.use id).entries (fun es => AstNode.usedRightList es args') l s') :
    Meets Event.stop (symCheckFuncCall value args.length checkArgs) s
      (.call value (env.lookup value) args.length :: l) fun node' s' =>
      Checked fid outer env s.entries (fun es => node'.usedRight es)
        (.call value (env.lookup value) args.length :: l) s' := by
  cases hk : env.lookup value with
  -- no entry, and its parameters are read
  | none => exact Meets.stopped rfl (symCheckFuncCall_unbound (h.scopeLookup_none hk))
  | some k =>
      obtain ⟨id, hid, hkind⟩ := h.scopeLookup_of hk
      obtain ⟨e, he, hsym, harity⟩ := entry_of_kindAt hkind
      have hrun := @symCheckFuncCall_bound s id value args.length checkArgs e hid he
      cases k with
      | function n =>
          obtain ⟨params, hps, hlen⟩ := Option.map_eq_some_iff.mp harity
          rw [hps] at hrun
          -- a function: the counts agree, or the analysis stops with a message
          by_cases hn : n = args.length
          · refine Meets.congr hrun (Meets.passed (by simp [Event.stop, hn]) ?_)
            simp only [derefPtr, pure_bind]
            rw [if_neg (by omega)]
            refine Meets.map (hargs id) ?_
            intro args' s' hargs'
            obtain ⟨hlen', hc⟩ := hargs'
            refine ⟨hc.kinded, hc.frame, (KeepsKinds.use s id).trans hc.keeps, fun es hes => ?_⟩
            have hes' := hes id _ (hc.keeps id _ (KeepsKinds.use s id id _ hkind))
            rw [usedRight_funcCall value args' (by rw [hes', hlen', hn]), hc.right es hes]
            rfl
          · have hstop : (Event.call value (some (.function n)) args.length).stop =
                some (.mismatchingArgs value) := if_neg hn
            refine Meets.stopped hstop (hrun.trans ?_)
            simp only [derefPtr, pure_bind]
            rw [if_pos (by omega)]
            rfl
      | _ =>
          -- a variable or a constant has no parameters, and `NULL` is read
          have hps : e.params = none := Option.map_eq_none_iff.mp harity
          rw [hps] at hrun
          exact Meets.stopped rfl hrun

/-- A name that is used meets the event of its use. -/
theorem symCheckIdent_meets (value : String) (h : Kinded outer env s) {event : Event}
    (hevent : event.stop = if (env.lookup value).isSome then none
      else some (.undefinedVariable value)) :
    Meets Event.stop (symCheckIdent value) s [event] fun node' s' =>
      ∃ id k, env.lookup value = some k ∧ kindAt s.entries id = some k ∧ s' = s.use id ∧
        node' = .ident value (some id) := by
  cases hk : env.lookup value with
  | none =>
      rw [hk] at hevent
      -- not in scope, which the message says
      refine Meets.stopped hevent ?_
      simp only [symCheckIdent, get_bind_apply, h.scopeLookup_none hk]
      rfl
  | some k =>
      obtain ⟨id, hid, hkind⟩ := h.scopeLookup_of hk
      rw [hk] at hevent
      refine Meets.passed hevent ⟨.ident value (some id), s.use id, ?_, id, k, rfl, hkind, rfl, rfl⟩
      exact symCheckIdent_eq_ok.mpr ⟨id, hid, rfl, rfl⟩

/-- Nodes one after the other, if each of them meets its events. -/
theorem symCheckList_meets {l : List AstNode}
    (hl : ∀ node ∈ l, ∀ {s : SemaState} {env : KindEnv}, Kinded outer env s →
      (s.frames[fid]?).isSome = true →
      Meets Event.stop (symCheck arena typeEnv (some fid) node) s (node.events typeEnv env)
        fun node' s' =>
        Checked fid outer (node.kinds ++ env) s.entries (fun es => node'.usedRight es)
          (node.events typeEnv env) s')
    (h : Kinded outer env s) (hf : (s.frames[fid]?).isSome = true) :
    Meets Event.stop (symCheckList arena typeEnv (some fid) l) s (AstNode.eventsList typeEnv env l)
      fun l' s' => l'.length = l.length ∧
        Checked fid outer (AstNode.kindsAfter env l) s.entries
          (fun es => AstNode.usedRightList es l') (AstNode.eventsList typeEnv env l) s' := by
  induction l generalizing s env with
  | nil => exact Meets.pure ⟨rfl, Checked.nil h hf⟩
  | cons node rest ih =>
      rw [symCheckList, AstNode.eventsList]
      -- the first node, and then the rest in the environment that it leaves
      refine Meets.bind (hl node (by simp) h hf) fun node' s1 h1 => ?_
      refine Meets.map (ih (fun n hn => hl n (by simp [hn])) h1.kinded h1.frame) ?_
      intro rest' s2 h2
      exact ⟨by rw [List.length_cons, List.length_cons, h2.1], h1.append h2.2⟩

theorem kinds_of_isExpr {node : AstNode} (he : node.isExpr = true) : node.kinds = [] := by
  cases node <;> first | rfl | simp [AstNode.isExpr] at he

theorem kindsAfter_exprs {l : List AstNode} (h : ∀ node ∈ l, node.isExpr = true) :
    AstNode.kindsAfter env l = env := by
  induction l generalizing env with
  | nil => rfl
  | cons node rest ih =>
      rw [AstNode.kindsAfter, List.foldl_cons, kinds_of_isExpr (h node (by simp))]
      exact ih fun n hn => h n (by simp [hn])

/-- **Checking an expression meets its events.** -/
theorem symCheck_meets_expr {node : AstNode} (he : node.isExpr = true) (h : Kinded outer env s)
    (hf : (s.frames[fid]?).isSome = true) :
    Meets Event.stop (symCheck arena typeEnv (some fid) node) s (node.events typeEnv env)
      fun node' s' =>
      Checked fid outer env s.entries (fun es => node'.usedRight es)
        (node.events typeEnv env) s' := by
  induction node generalizing s env with
  | intConst value => exact Meets.pure (Checked.nil h hf)
  | emptyExpr => exact Meets.pure (Checked.nil h hf)
  | ident value symbol =>
      refine Meets.mono (symCheckIdent_meets value h rfl) ?_
      rintro node' s' ⟨id, k, hk, hkind, rfl, rfl⟩
      refine ⟨h.use id, hf, KeepsKinds.use s id, fun es hes => ?_⟩
      have hes' := hes id k (KeepsKinds.use s id id k hkind)
      rw [usedRight_ident value hes', AstNode.events, hk, List.all_cons, List.all_nil,
        Bool.and_true]
  | funcCall value args symbol ih =>
      rw [AstNode.isExpr, AstNode.areExprs_iff] at he
      rw [symCheck, AstNode.events]
      refine symCheckFuncCall_meets h fun id => ?_
      have hargs : Meets Event.stop (symCheckList arena typeEnv (some fid) args) (s.use id) _ _ :=
        symCheckList_meets (fun n hn {s env} hs hf => by
          rw [kinds_of_isExpr (he n hn)]
          exact ih n hn (he n hn) hs hf) (h.use id) hf
      rw [kindsAfter_exprs he] at hargs
      exact hargs
  | binExp value opType left right ihl ihr =>
      simp only [AstNode.isExpr, Bool.and_eq_true] at he
      rw [symCheck, AstNode.events]
      refine Meets.bind (ihl he.1.2 h hf) fun left' s1 h1 => ?_
      exact Meets.map (ihr he.2 h1.kinded h1.frame) fun right' s2 h2 => h1.append h2
  | unaryExpr postfixExpr value opType ih =>
      simp only [AstNode.isExpr, Bool.and_eq_true] at he
      exact Meets.map (ih he.2 h hf) fun expr' s1 h1 => h1
  | varAsgn target rval _ ihr =>
      obtain ⟨⟨name, symbol, rfl⟩, hrval⟩ := AstNode.isExpr_varAsgn.mp he
      rw [symCheck, AstNode.events]
      have htarget : Meets Event.stop (symCheck arena typeEnv (some fid)
        (.lval .ident (.ident name symbol))) s
          ((AstNode.lval .ident (.ident name symbol)).events typeEnv env) fun node' s' =>
          Checked fid outer env s.entries (fun es => node'.usedRight es)
            ((AstNode.lval .ident (.ident name symbol)).events typeEnv env) s' := by
        rw [symCheck, symCheck, AstNode.events]
        refine Meets.map (symCheckIdent_meets name h rfl) ?_
        rintro node' s' ⟨id, k, hk, hkind, rfl, rfl⟩
        refine ⟨h.use id, hf, KeepsKinds.use s id, fun es hes => ?_⟩
        have hes' := hes id k (KeepsKinds.use s id id k hkind)
        rw [usedRight_lval name hes', hk, List.all_cons, List.all_nil, Bool.and_true]
      refine Meets.bind htarget fun target' s1 h1 => ?_
      exact Meets.map (ihr hrval h1.kinded h1.frame) fun rval' s2 h2 => h1.append h2
  | _ => simp [AstNode.isExpr] at he

/-! ### Statements

What a statement declares is in the environment of the next one, with its kind.  An entry
keeps its kind for good, so what was right of a use stays right.
-/

/-- One more declaration behind a check. -/
theorem Checked.declare {es : List SymTabEntry} {right : List SymTabEntry → Bool} {l : List Event}
    {s1 s2 : SemaState} {e : SymTabEntry} {k : NameKind} (h : Checked fid outer env es right l s1)
    (hf : (s2.frames[fid]?).isSome = true) (hscope : s2.scope = s1.scope)
    (hent : s2.entries = s1.entries) (hk : e.kind = some k) :
    Checked fid outer ((e.key, k) :: env) es right l (s2.declare e) := by
  have hkeep : KeepsKinds s1.entries s2.entries := by
    rw [hent]
    exact KeepsKinds.refl _
  have hall := hkeep.trans (KeepsKinds.concat s2.entries e)
  exact ⟨(h.kinded.keep hscope hkeep).declare hk, hf, h.keeps.trans hall,
    fun es' hes => h.right es' (hall.trans hes)⟩

theorem grow_frame (hf : (s.frames[fid]?).isSome = true) (i : FrameId) :
    ((s.grow i).frames[fid]?).isSome = true := by
  rw [SemaState.grow, List.getElem?_modify]
  cases h : s.frames[fid]? with
  | none => simp [h] at hf
  | some f => rfl

section Declarations

variable {value type : String} {checkExpr : Sema AstNode}

/-- A declaration without a value. -/
theorem symCheckVarDec_meets (h : Kinded outer env s) (hf : (s.frames[fid]?).isSome = true) :
    Meets Event.stop (symCheckVarDec arena typeEnv value type (some fid)) s
      [.declare .redeclarationOfVariable (env.lookup value).isSome,
        .typeName (hashmapGet typeEnv type).isSome]
      fun node' s' => Checked fid outer ((value, .variable) :: env) s.entries
        (fun es => node'.usedRight es) [.declare .redeclarationOfVariable (env.lookup value).isSome,
          .typeName (hashmapGet typeEnv type).isSome] s' := by
  have hscope := h.inScope value
  cases hk : env.lookup value with
  | some k =>
      rw [hk] at hscope
      refine Meets.stopped rfl ?_
      simp only [symCheckVarDec, get_bind_apply, hscope]
      rfl
  | none =>
      rw [hk] at hscope
      refine Meets.passed rfl ?_
      cases hts : hashmapGet typeEnv type with
      | none =>
          refine Meets.stopped rfl ?_
          simp only [symCheckVarDec, get_bind_apply, hscope, typeSpecifier, hts]
          rfl
      | some ts =>
          obtain ⟨f, hf'⟩ := Option.isSome_iff_exists.mp hf
          refine Meets.passed rfl ⟨_, _, symCheckVarDec_eq_ok.mpr ⟨hscope, ts, fid, f, hts, rfl,
            hf', rfl, rfl⟩, ?_⟩
          have hc := (Checked.nil h hf).declare (grow_frame hf fid) rfl rfl
            (show (varEntry value ts f.size).kind = some .variable from rfl)
          exact ⟨hc.kinded, hc.frame, hc.keeps, fun _ _ => rfl⟩

/-- A declaration with a value, which is checked before the name is declared. -/
theorem symCheckVarDef_meets {l : List Event} (h : Kinded outer env s)
    (hexpr : Meets Event.stop checkExpr s l fun node' s' =>
      Checked fid outer env s.entries (fun es => node'.usedRight es) l s') :
    Meets Event.stop (symCheckVarDef arena typeEnv value type (some fid) checkExpr) s
      (.declare .redefinitionOfVariable (env.lookup value).isSome ::
        (l ++ [.typeName (hashmapGet typeEnv type).isSome]))
      fun node' s' => Checked fid outer ((value, .variable) :: env) s.entries
        (fun es => node'.usedRight es)
        (.declare .redefinitionOfVariable (env.lookup value).isSome ::
          (l ++ [.typeName (hashmapGet typeEnv type).isSome])) s' := by
  have hscope := h.inScope value
  cases hk : env.lookup value with
  | some k =>
      rw [hk] at hscope
      refine Meets.stopped rfl ?_
      simp only [symCheckVarDef, get_bind_apply, hscope]
      rfl
  | none =>
      rw [hk] at hscope
      refine Meets.passed rfl ?_
      unfold Meets at hexpr ⊢
      rw [List.findSome?_append]
      cases hl : l.findSome? Event.stop with
      | some e =>
          rw [hl] at hexpr
          simp only [symCheckVarDef, get_bind_apply, hscope]
          exact bind_eq_error.mpr (Or.inl hexpr)
      | none =>
          rw [hl] at hexpr
          obtain ⟨expr, s1, hok, hc⟩ := hexpr
          cases hts : hashmapGet typeEnv type with
          | none =>
              simp only [symCheckVarDef, get_bind_apply, hscope, typeSpecifier, hts]
              exact bind_eq_error.mpr (Or.inr ⟨expr, s1, hok, rfl⟩)
          | some ts =>
              obtain ⟨f, hf'⟩ := Option.isSome_iff_exists.mp hc.frame
              refine ⟨_, _, symCheckVarDef_eq_ok.mpr ⟨hscope, expr, s1, ts, fid, f, hok, hts, rfl,
                hf', rfl, rfl⟩, ?_⟩
              have hd := hc.declare (grow_frame (s := s1.watch) hc.frame fid) rfl rfl
                (show (varEntry value ts f.size).kind = some .variable from rfl)
              refine ⟨hd.kinded, hd.frame, hd.keeps, fun es hes => ?_⟩
              rw [AstNode.usedRight, hd.right es hes]
              simp [Event.right]

/-- The constants of an enum, one after the other. -/
theorem symCheckEnums_meets {keys : List String} {i : Nat} (h : Kinded outer env s)
    (hf : (s.frames[fid]?).isSome = true) :
    Meets Event.stop (symCheckEnums arena i keys) s [] fun _ s' =>
      Checked fid outer ((keys.map fun key => (key, NameKind.const)).reverse ++ env) s.entries
        (fun _ => true) [] s' := by
  induction keys generalizing s i env with
  | nil => exact Meets.pure (Checked.nil h hf)
  | cons key rest ih =>
      have hc := (Checked.nil h hf).declare hf rfl rfl
        (show (constEntry key (arena s.nextId) i).kind = some .const from rfl)
      obtain ⟨u, s', hok, h'⟩ := ih (i := i + 1) hc.kinded hc.frame
      refine ⟨u, s', symCheckEnums_cons_eq_ok.mpr hok, ?_⟩
      have henv : ((key :: rest).map fun key => (key, NameKind.const)).reverse ++ env =
          (rest.map fun key => (key, NameKind.const)).reverse ++ ((key, .const) :: env) := by simp
      rw [henv]
      exact ⟨h'.kinded, h'.frame, hc.keeps.trans h'.keeps, h'.right⟩

end Declarations

/-- What is declared in a child scope is forgotten. -/
theorem inChildScope_meets {body : Sema AstNode} {l : List Event} (h : Kinded outer env s)
    (hbody : Meets Event.stop body s.enter l fun node' s' =>
      ∃ env', Checked fid s.scope env' s.entries (fun es => node'.usedRight es) l s') :
    Meets Event.stop (inChildScope body) s l fun node' s' =>
      Checked fid outer env s.entries (fun es => node'.usedRight es) l s' := by
  unfold Meets at hbody ⊢
  cases hl : l.findSome? Event.stop with
  | some e =>
      rw [hl] at hbody
      simp only [inChildScope, modify_bind_apply]
      exact bind_eq_error.mpr (Or.inl hbody)
  | none =>
      rw [hl] at hbody
      obtain ⟨node', s1, hok, env', hc⟩ := hbody
      exact ⟨node', s1.exit, inChildScope_eq_ok.mpr ⟨s1, hok, rfl⟩,
        h.exit hc.kinded hc.keeps, hc.frame, hc.keeps, hc.right⟩

theorem symCheckRet_meets {checkExpr : Sema AstNode} {l : List Event}
    (hf : (s.frames[fid]?).isSome = true) (hexpr : Meets Event.stop checkExpr s l fun node' s' =>
      Checked fid outer env s.entries (fun es => node'.usedRight es) l s') :
    Meets Event.stop (symCheckRet (some fid) checkExpr) s l fun node' s' =>
      Checked fid outer env s.entries (fun es => node'.usedRight es) l s' := by
  obtain ⟨f, hf⟩ := Option.isSome_iff_exists.mp hf
  have hrun : symCheckRet (some fid) checkExpr s =
      (do return .ret (← checkExpr) (scopeLookup s.scope f.func) : Sema AstNode) s := by
    simp only [symCheckRet, derefPtr, pure_bind, get_bind_apply, hf]
  exact Meets.congr hrun (Meets.map hexpr fun node' s' hc => hc)

/-- **Checking a statement meets its events.** -/
theorem symCheck_meets {node : AstNode} (hn : node.isStmt = true) (h : Kinded outer env s)
    (hf : (s.frames[fid]?).isSome = true) :
    Meets Event.stop (symCheck arena typeEnv (some fid) node) s (node.events typeEnv env)
      fun node' s' =>
      Checked fid outer (node.kinds ++ env) s.entries (fun es => node'.usedRight es)
        (node.events typeEnv env) s' := by
  induction node generalizing s env outer with
  | varDec value type symbol => exact symCheckVarDec_meets h hf
  | varDef value type expr symbol _ => exact symCheckVarDef_meets h (symCheck_meets_expr hn h hf)
  | enum value enums =>
      rw [symCheck]
      exact Meets.map (symCheckEnums_meets h hf) fun _ s' hc => hc
  | compStmt body ih =>
      rw [AstNode.isStmt, AstNode.areStmts_iff] at hn
      rw [symCheck, AstNode.events]
      refine inChildScope_meets h ?_
      exact Meets.map
        (symCheckList_meets (fun n hmem {s env} h' hf' => ih n hmem (hn n hmem) h' hf')
        h.enter hf) fun body' s1 hc => ⟨_, hc.2⟩
  | ifElse ifExpr ifBody elseBody _ ihb ihe =>
      simp only [AstNode.isStmt, Bool.and_eq_true, Bool.or_eq_true] at hn
      rw [symCheck, AstNode.events, AstNode.kinds, List.append_assoc]
      refine Meets.bind (ihb hn.1.2 h hf) fun ifBody' s1 h1 => ?_
      refine Meets.bind (symCheck_meets_expr hn.1.1 h1.kinded h1.frame) fun ifExpr' s2 h2 => ?_
      by_cases helse : elseBody.nonNull = true
      · rw [if_pos helse]
        have hstmt : elseBody.isStmt = true := hn.2.resolve_left (by simp [helse])
        exact Meets.map (ihe hstmt h2.kinded h2.frame) fun elseBody' s3 h3 =>
          h1.append (h2.append h3)
      · rw [if_neg helse]
        obtain rfl := AstNode.eq_null helse
        exact Meets.pure (h1.append (h2.append (Checked.nil h2.kinded h2.frame)))
  | while_ expr body _ ihb =>
      simp only [AstNode.isStmt, Bool.and_eq_true] at hn
      rw [symCheck, AstNode.events]
      refine Meets.bind (symCheck_meets_expr hn.1 h hf) fun expr' s1 h1 => ?_
      exact Meets.map (ihb hn.2 h1.kinded h1.frame) fun body' s2 h2 => h1.append h2
  | for_ init cond step body ihi _ _ ihb =>
      simp only [AstNode.isStmt, Bool.and_eq_true, Bool.or_eq_true] at hn
      obtain ⟨⟨⟨hinit, hcond⟩, hstep⟩, hbody⟩ := hn
      rw [symCheck, AstNode.events]
      refine inChildScope_meets h ?_
      have hinit' : Meets Event.stop (symCheck arena typeEnv (some fid) init) s.enter
        (init.events typeEnv env)
          fun node' s' => Checked fid s.scope (init.kinds ++ env) s.enter.entries
            (fun es => node'.usedRight es) (init.events typeEnv env) s' := by
        rcases hinit with hinit | hinit
        · exact ihi (AstNode.isStmt_of_isDecl hinit) h.enter hf
        · rw [kinds_of_isExpr hinit]
          exact symCheck_meets_expr hinit h.enter hf
      refine Meets.bind hinit' fun init' s1 h1 => ?_
      refine Meets.bind (symCheck_meets_expr hcond h1.kinded h1.frame) fun cond' s2 h2 => ?_
      refine Meets.bind (symCheck_meets_expr hstep h2.kinded h2.frame) fun step' s3 h3 => ?_
      exact Meets.map (ihb hbody h3.kinded h3.frame) fun body' s4 h4 =>
        ⟨_, h1.append (h2.append (h3.append h4))⟩
  | ret expr func _ => exact symCheckRet_meets hf (symCheck_meets_expr hn h hf)
  | exprStmt expr _ =>
      rw [symCheck, AstNode.events]
      exact Meets.map (symCheck_meets_expr hn h hf) fun expr' s1 h1 => h1
  | _ => simp [AstNode.isStmt] at hn

/-! ### Functions and programs

A function is declared behind its parameters and in front of its body, in the scope of the
program; the parameters stay there too.
-/

theorem typeSpecifier_meets (typeEnv : HashMap TypeSpecifier) (type : String) (s : SemaState) :
    Meets Event.stop (typeSpecifier typeEnv type) s [.typeName (hashmapGet typeEnv type).isSome]
      fun ts s' => hashmapGet typeEnv type = some ts ∧ s' = s := by
  cases hts : hashmapGet typeEnv type with
  | none =>
      refine Meets.stopped rfl ?_
      rw [typeSpecifier, hts]
      rfl
  | some ts =>
      refine Meets.passed rfl ⟨ts, s, ?_, rfl, rfl⟩
      rw [typeSpecifier, hts]
      rfl

/-- The parameters of a function, one after the other. -/
theorem symCheckParams_meets {params : List Param} (h : Kinded outer env s)
    (hf : (s.frames[fid]?).isSome = true) :
    Meets Event.stop (symCheckParams arena typeEnv params) s
      (params.map fun param => .typeName (hashmapGet typeEnv param.type).isSome) fun ps s' =>
      ps.length = params.length ∧
        Checked fid outer ((params.map fun param => (param.value, NameKind.variable)).reverse
          ++ env) s.entries (fun _ => true) [] s' := by
  induction params generalizing s env with
  | nil => exact Meets.pure ⟨rfl, Checked.nil h hf⟩
  | cons param rest ih =>
      rw [List.map_cons]
      cases hts : hashmapGet typeEnv param.type with
      | none =>
          -- the type of the parameter is not known
          refine Meets.stopped rfl ?_
          rw [symCheckParams, typeSpecifier, hts]
          rfl
      | some ts =>
          have hrun : symCheckParams arena typeEnv (param :: rest) s =
              (do
                let rest' ← symCheckParams arena typeEnv rest
                return { param with symbol := some s.nextId } :: rest' : Sema (List Param))
                (s.declare (varEntry param.value ts (arena s.nextId))) := by
            rw [symCheckParams, typeSpecifier, hts]
            rfl
          have hc := (Checked.nil h hf).declare hf rfl rfl
            (show (varEntry param.value ts (arena s.nextId)).kind = some .variable from rfl)
          refine Meets.passed rfl (Meets.congr hrun ?_)
          refine Meets.map (ih hc.kinded hc.frame) ?_
          intro ps s1 hps
          obtain ⟨hlen, h1⟩ := hps
          have henv : ((param :: rest).map fun param => (param.value, NameKind.variable)).reverse
            ++ env =
              (rest.map fun param => (param.value, NameKind.variable)).reverse ++
                ((param.value, .variable) :: env) := by simp
          rw [henv]
          exact ⟨by
            rw [List.length_cons, List.length_cons, hlen], h1.kinded, h1.frame,
              hc.keeps.trans h1.keeps,
            h1.right⟩

section FuncDefs

variable {value type : String} {params ps : List Param} {fid : FrameId} {ts : TypeSpecifier}
  (checkBody : FrameId → Sema AstNode)

/-- A function whose name is free is given a frame before its parameters are checked. -/
theorem symCheckFuncDef_free (hscope : inScope s.scope value = false) :
    symCheckFuncDef arena typeEnv value type params checkBody s =
      (symCheckParams arena typeEnv params >>= fun ps => typeSpecifier typeEnv type >>= fun ts => do
        let entry ← makeSymtabEntry arena value ts .function
        pushSymbol entry
        modifyEntry entry fun e => { e with params := some ps, frame := some s.frames.length }
        addToScope entry value
        let body ← checkBody s.frames.length
        return .funcDef value type body ps (some entry)) (s.pushFrame value) := by
  simp only [symCheckFuncDef, get_bind_apply, hscope, makeStackFrame, bind_assoc, pure_bind]
  rfl

/-- It is declared before its body is checked. -/
theorem symCheckFuncDef_declared :
    (do
      let entry ← makeSymtabEntry arena value ts .function
      pushSymbol entry
      modifyEntry entry fun e => { e with params := some ps, frame := some fid }
      addToScope entry value
      let body ← checkBody fid
      return AstNode.funcDef value type body ps (some entry) : Sema AstNode) s =
    (do return .funcDef value type (← checkBody fid) ps (some s.nextId) : Sema AstNode)
      (s.watch.declare (funcEntry value ts (arena s.nextId) ps fid)) := by
  simp only [makeSymtabEntry, bind_assoc, get_bind_apply, modify_bind_apply, pure_bind, pushSymbol,
    modifyEntry, addToScope, modify_concat]
  rfl

end FuncDefs

/-- Checking a function meets the events of its head and its body. -/
theorem symCheckFuncDef_meets {value type : String} {params : List Param} {body : List AstNode}
    {frame : Option FrameId} {symbol : Option SymId} (hbody : AstNode.areStmts body = true)
    (h : Kinded outer env s) :
    Meets Event.stop (symCheck arena typeEnv frame
      (.funcDef value type (.compStmt body) params symbol)) s
      (.declare (.redefinitionOfFunction value) (env.lookup value).isSome ::
        (params.map (fun param => .typeName (hashmapGet typeEnv param.type).isSome) ++
          (.typeName (hashmapGet typeEnv type).isSome ::
            (AstNode.compStmt body).events typeEnv (funcKinds value params ++ env))))
      fun node' s' => Kinded outer (funcKinds value params ++ env) s' ∧
        KeepsKinds s.entries s'.entries ∧ ∀ es, KeepsKinds s'.entries es → node'.usedRight es =
          ((AstNode.compStmt body).events typeEnv (funcKinds value params ++ env)).all
            Event.right := by
  have hscope := h.inScope value
  rw [symCheck]
  cases hk : env.lookup value with
  -- the name is taken, and nothing else is looked at
  | some k =>
      rw [hk] at hscope
      refine Meets.stopped rfl ?_
      simp only [symCheckFuncDef, get_bind_apply, hscope]
      rfl
  | none =>
      rw [hk] at hscope
      -- the name is free: the function gets a frame, its parameters, its type and its entry
      have hf : ((s.pushFrame value).frames[s.frames.length]?).isSome = true := by
        simp [SemaState.pushFrame]
      have hpush : Kinded outer env (s.pushFrame value) := h.keep rfl (KeepsKinds.refl _)
      refine Meets.passed rfl (Meets.congr (symCheckFuncDef_free
        (fun frame => symCheck arena typeEnv (some frame) (.compStmt body)) hscope) ?_)
      refine Meets.bind (symCheckParams_meets hpush hf) ?_
      intro ps s1 hps
      obtain ⟨hlen, h1⟩ := hps
      refine Meets.bind (l := [_]) (typeSpecifier_meets typeEnv type s1) ?_
      rintro ts s2 ⟨-, rfl⟩
      have hentry : (funcEntry value ts (arena s2.nextId) ps s.frames.length).kind =
          some (.function params.length) := by rw [← hlen]; rfl
      have hf2 : (s2.watch.frames[s.frames.length]?).isSome = true := h1.frame
      have hc := h1.declare hf2 rfl rfl hentry
      refine Meets.congr (symCheckFuncDef_declared
        fun frame => symCheck arena typeEnv (some frame) (.compStmt body)) ?_
      refine Meets.map (symCheck_meets hbody hc.kinded hc.frame) fun body' s3 h3 => ?_
      refine ⟨h3.kinded, h1.keeps.trans ((KeepsKinds.concat _ _).trans h3.keeps), fun es hes => ?_⟩
      exact h3.right es hes

/-- The types of a function's head are no use of a name. -/
theorem all_right_typeNames (params : List Param) :
    (params.map fun param => Event.typeName (hashmapGet typeEnv param.type).isSome).all Event.right
      = true := by
  rw [List.all_map, List.all_eq_true]
  exact fun _ _ => rfl

/-- **Checking a program meets its events.** -/
theorem symCheckProg_meets {prog : List AstNode} (hprog : ∀ n ∈ prog, n.isFuncDef = true)
    (h : Kinded outer env s) :
    Meets Event.stop (symCheckList arena typeEnv none prog) s (progEvents typeEnv env prog)
      fun prog' s' =>
      Kinded outer (funcsAfter env prog) s' ∧ KeepsKinds s.entries s'.entries ∧
        ∀ es, KeepsKinds s'.entries es →
        AstNode.usedRightList es prog' = (progEvents typeEnv env prog).all Event.right := by
  induction prog generalizing s env with
  | nil => exact Meets.pure ⟨h, KeepsKinds.refl _, fun _ _ => rfl⟩
  | cons node rest ih =>
      obtain ⟨value, type, body, params, symbol, rfl⟩ := AstNode.eq_funcDef (hprog node (by simp))
      have hbody : AstNode.areStmts body = true := hprog _ List.mem_cons_self
      -- the events of the first function, and those of the others behind it
      have hsplit :
        progEvents typeEnv env (.funcDef value type (.compStmt body) params symbol :: rest) =
          (.declare (.redefinitionOfFunction value) (env.lookup value).isSome ::
            (params.map (fun param => .typeName (hashmapGet typeEnv param.type).isSome) ++
              (.typeName (hashmapGet typeEnv type).isSome ::
                (AstNode.compStmt body).events typeEnv (funcKinds value params ++ env)))) ++
            progEvents typeEnv (funcKinds value params ++ env) rest := by
        rw [progEvents]
        simp
      have hall :
        (progEvents typeEnv env (.funcDef value type (.compStmt body) params symbol :: rest)).all
          Event.right
            = (((AstNode.compStmt body).events typeEnv (funcKinds value params ++ env)).all
              Event.right &&
            (progEvents typeEnv (funcKinds value params ++ env) rest).all Event.right) := by
        rw [hsplit, List.all_append, List.all_cons, List.all_append, List.all_cons,
          all_right_typeNames]
        rfl
      rw [symCheckList, hall, hsplit]
      refine Meets.bind (symCheckFuncDef_meets hbody h) ?_
      intro node' s1 h1
      obtain ⟨hk, hkeep, hright⟩ := h1
      refine Meets.map (ih (fun n hn => hprog n (by simp [hn])) hk) ?_
      intro rest' s2 h2
      obtain ⟨hk', hkeep', hright'⟩ := h2
      refine ⟨hk', hkeep.trans hkeep', fun es hes => ?_⟩
      rw [AstNode.usedRightList, hright es (hkeep'.trans hes), hright' es hes]

theorem Kinded.initial : Kinded [] [] SemaState.initial :=
  ⟨by simp [SemaState.initial], rfl, fun key => by simp [SemaState.initial, scopeLookup]⟩

/-- The analysis stops with a message, or every use is one that the linked symbol allows. -/
def ReportedOrRight (arena : SymId → Nat) (prog : List AstNode) : Prop :=
  (∃ e, e ≠ .undefined ∧ symCheckList arena typeEnvInit none prog SemaState.initial = .error e) ∨
    ∃ prog' st, symCheckList arena typeEnvInit none prog SemaState.initial = .ok (prog', st) ∧
      AstNode.usedRightList st.entries prog' = true

/--
**Symbols are used according to their kind, as long as no call stops the analysis for want of
a function and no other use is of the wrong kind.**
-/
theorem reportedOrRight_iff {uninit : Int} {tokens rest : List Token} {prog : List AstNode}
    (h : parse uninit tokens = .ok (prog, rest)) :
    ReportedOrRight arena prog ↔ eventsFit (progEvents typeEnvInit [] prog) = true := by
  have hmeets : Meets Event.stop (symCheckList arena typeEnvInit none prog) SemaState.initial _ _ :=
    symCheckProg_meets (parse_isFuncDef h) Kinded.initial
  unfold Meets at hmeets
  unfold ReportedOrRight eventsFit
  cases hstop : (progEvents typeEnvInit [] prog).findSome? Event.stop with
  -- the analysis stops: the events fit exactly if it does with a message
  | some e =>
      rw [hstop] at hmeets
      have herr : symCheckList arena typeEnvInit none prog SemaState.initial = .error e := hmeets
      rw [herr]
      simp
  -- it returns: they fit exactly if all uses are right
  | none =>
      rw [hstop] at hmeets
      obtain ⟨prog', st, hok, -, -, hright⟩ := hmeets
      rw [hok, ← hright st.entries (KeepsKinds.refl _)]
      simp

/-- `int f() { return f(); }`, and the same with another function called. -/
def callTokens (value : String) : List Token :=
  [tok .type "int", tok .ident "f", tok .lparen "(", tok .rparen ")", tok .lbrace "\x7b",
    tok .return_ "return", tok .ident value, tok .lparen "(", tok .rparen ")", tok .semicolon ";",
    tok .rbrace "\x7d"]

theorem reportedOrRight_iff_call :
    ∃ prog rest, parse 0 (callTokens "f") = .ok (prog, rest) ∧
      ReportedOrRight (fun _ => 0) prog := by
  have hparse : parse 0 (callTokens "f") = .ok (_, _) := rfl
  exact ⟨_, _, hparse, (reportedOrRight_iff hparse).mpr (by decide)⟩

/-- The parameters of a function that does not exist are looked into. -/
theorem undefinedCall_not_reportedOrRight :
    ∃ prog rest, parse 0 (callTokens "g") = .ok (prog, rest) ∧
      symCheckList (fun _ => 0) typeEnvInit none prog SemaState.initial = .error .undefined ∧
      ¬ ReportedOrRight (fun _ => 0) prog := by
  obtain ⟨prog, rest, hparse, hrun⟩ : ∃ prog rest, parse 0 (callTokens "g") = .ok (prog, rest) ∧
      symCheckList (fun _ => 0) typeEnvInit none prog SemaState.initial = .error .undefined :=
    ⟨_, _, rfl, rfl⟩
  refine ⟨prog, rest, hparse, hrun, ?_⟩
  rintro (⟨e, hne, he⟩ | ⟨prog', st, hok, -⟩)
  · exact hne (Except.error.inj (he.symm.trans hrun))
  · rw [hrun] at hok
    simp at hok

end MyLang
