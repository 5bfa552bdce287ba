/-
The analysis resolves names as `resolve` does.

A scope is a chain of hash maps, a child starting as a copy of its parent; looked up in
it, a name finds what the environment, the list of all declarations in scope, has for it.
Checking a tree and linking it in the environment therefore stop or return together, with
the same tree, and leave a scope and an environment that agree again.

`Follows` (`Lib/StateExcept.lean`) is the relation between the two: where the linking has
a value the analysis returns it, where it has none the analysis stops, and in the first
case a condition holds of the state that is left.  It has a rule for each way the analysis
is put together, so the cases of `resolve_follows` go along the code of `symCheck`
statement by statement.

What a statement leaves is `Leaves`: the environment with the names the statement binds,
and the types of the entries it made.  The types are needed because the number of entries
is the id of the next symbol, and both sides count it, one by allocating, the other by
`declCount`.

With this, what is said about names never has to look at a hash map again.
-/
import MyLang.Scoping
import MyLang.Proofs.SemaShape

namespace MyLang

open StateExcept

variable {arena : SymId → Nat} {typeEnv : HashMap TypeSpecifier} {s s' : SemaState}

/-! ### Scopes

A name is looked up in a child scope as in its parent, until the child adds it.
-/

@[simp] theorem scopeLookup_enterScope (scope : Scope) (key : String) :
    scopeLookup (enterScope scope) key = scopeLookup scope key := by
  cases scope with
  | nil => rfl
  | cons symtab parents =>
      simp only [enterScope, scopeLookup, hashmapGet_clone]
      cases hashmapGet symtab key <;> rfl

theorem scopeLookup_scopeAdd {scope : Scope} (h : scope ≠ []) (id : SymId) (key key' : String) :
    scopeLookup (scopeAdd scope id key) key' =
      if key' = key then some id else scopeLookup scope key' := by
  cases scope with
  | nil => exact absurd rfl h
  | cons symtab parents =>
      simp only [scopeAdd, scopeLookup, hashmapGet_add]
      by_cases hk : key' = key
      · simp [hk]
      · simp [hk]

theorem Env.mem_of_lookup {env : Env} {key : String} {binding : Binding}
    (h : env.lookup key = some binding) : (key, binding) ∈ env := by
  obtain ⟨l1, l2, rfl, -⟩ := List.lookup_eq_some_iff.mp h
  simp

theorem bindNames_nil (next : Nat) : bindNames next [] = [] := rfl

theorem bindNames_cons (next : Nat) (key : String) (rest : List String) :
    bindNames next (key :: rest) = bindNames (next + 1) rest ++ [(key, ⟨next, none⟩)] := by
  simp [bindNames]

/-! ### What the declarations of a tree ask for

The linking does not keep entries, so what the entries are is read off the tree.
-/

namespace AstNode

mutual

/-- The types the declarations of a statement ask for, in order. -/
def declTypes (typeEnv : HashMap TypeSpecifier) : AstNode → List (Option TypeSpecifier)
  | .varDec _ type _ => [hashmapGet typeEnv type]
  | .varDef _ type _ _ => [hashmapGet typeEnv type]
  | .enum _ enums => enums.map fun _ => some .int
  | .compStmt body => declTypesList typeEnv body
  | .ifElse _ ifBody elseBody => ifBody.declTypes typeEnv ++ elseBody.declTypes typeEnv
  | .while_ _ body => body.declTypes typeEnv
  | .for_ init _ _ body => init.declTypes typeEnv ++ body.declTypes typeEnv
  | _ => []
termination_by structural node => node

/-- `declTypes` of the elements of a list. -/
def declTypesList (typeEnv : HashMap TypeSpecifier) : List AstNode → List (Option TypeSpecifier)
  | [] => []
  | node :: rest => node.declTypes typeEnv ++ declTypesList typeEnv rest
termination_by structural nodes => nodes

end

theorem declTypesList_length_of {l : List AstNode}
    (h : ∀ node ∈ l, (node.declTypes typeEnv).length = node.declCount) :
    (declTypesList typeEnv l).length = declCountList l := by
  induction l with
  | nil => rfl
  | cons node rest ih =>
      rw [declTypesList, declCountList, List.length_append, h node (by simp),
        ih fun n hn => h n (by simp [hn])]

theorem declTypes_length (typeEnv : HashMap TypeSpecifier) (node : AstNode) :
    (node.declTypes typeEnv).length = node.declCount := by
  induction node with
  | compStmt body ih => exact declTypesList_length_of ih
  | ifElse ifExpr ifBody elseBody _ ihb ihe =>
      rw [declTypes, declCount, List.length_append, ihb, ihe]
  | while_ expr body _ ihb => exact ihb
  | for_ init cond step body ihi _ _ ihb =>
      rw [declTypes, declCount, List.length_append, ihi, ihb]
  | enum value enums => simp [declTypes, declCount]
  | _ => rfl

theorem declTypesList_length (l : List AstNode) :
    (declTypesList typeEnv l).length = declCountList l :=
  declTypesList_length_of fun node _ => node.declTypes_length typeEnv

end AstNode

/-! ### States and environments

A variable is declared only where its name is not in scope; a parameter or a constant
hides what its name has stood for.
-/

/--
A state of the analysis and an environment agree: a name looked up in the scope is the
one in the environment.  `outer` are the scopes around the current one, `types` the
types of the entries so far.
-/
structure Scoped (outer : Scope) (types : List TypeSpecifier) (env : Env) (s : SemaState) :
    Prop where
  nonempty : s.scope ≠ []
  outer_eq : s.scope.tail = outer
  lookup : ∀ key, scopeLookup s.scope key = (env.lookup key).map Binding.id
  arity : ∀ p ∈ env, ∃ e, s.entries[p.2.id]? = some e ∧ e.params.map List.length = p.2.arity
  types_eq : s.entries.map SymTabEntry.type = types

namespace Scoped

variable {outer : Scope} {types : List TypeSpecifier} {env : Env}

theorem nextId (h : Scoped outer types env s) : s.nextId = types.length := by
  rw [← h.types_eq, List.length_map]
  rfl

theorem inScope (h : Scoped outer types env s) (key : String) :
    inScope s.scope key = (env.lookup key).isSome := by
  simp [MyLang.inScope, h.lookup]

/-- Only scope, parameters and types matter. -/
theorem congr (h : Scoped outer types env s) (hscope : s'.scope = s.scope)
    (hent : ∀ id : Nat, (s'.entries[id]?).map (fun e => (e.params, e.type))
      = (s.entries[id]?).map fun e => (e.params, e.type)) : Scoped outer types env s' := by
  refine ⟨by rw [hscope]; exact h.nonempty, by rw [hscope]; exact h.outer_eq,
    fun key => by rw [hscope]; exact h.lookup key, fun p hp => ?_, ?_⟩
  · obtain ⟨e, he, harity⟩ := h.arity p hp
    have h' := hent p.2.id
    rw [he] at h'
    obtain ⟨e', he', heq⟩ := Option.map_eq_some_iff.mp h'
    obtain ⟨hparams, -⟩ := Prod.mk.inj heq
    exact ⟨e', he', by rw [hparams, harity]⟩
  · rw [← h.types_eq]
    apply List.ext_getElem?
    intro id
    have := congrArg (Option.map Prod.snd) (hent id)
    simpa [Option.map_map, Function.comp_def] using this

theorem use (h : Scoped outer types env s) (id : SymId) : Scoped outer types env (s.use id) := by
  refine h.congr rfl fun i => ?_
  simp only [SemaState.use, List.getElem?_modify]
  cases s.entries[i]? with
  | none => rfl
  | some e => by_cases hi : id = i <;> simp [hi]

/-- One more declaration. -/
theorem declare (h : Scoped outer types env s) (e : SymTabEntry) :
    Scoped outer (types ++ [e.type])
      ((e.key, ⟨types.length, e.params.map List.length⟩) :: env) (s.declare e) := by
  refine ⟨?_, ?_, fun key => ?_, fun p hp => ?_, ?_⟩
  · cases hs : s.scope with
    | nil => exact absurd hs h.nonempty
    | cons symtab parents => simp [SemaState.declare, hs, scopeAdd]
  · rw [← h.outer_eq]
    cases hs : s.scope with
    | nil => exact absurd hs h.nonempty
    | cons symtab parents => simp [SemaState.declare, hs, scopeAdd]
  · simp only [SemaState.declare]
    rw [scopeLookup_scopeAdd h.nonempty, List.lookup_cons, h.lookup, h.nextId]
    by_cases hk : key = e.key
    · simp [hk]
    · have hbeq : (key == e.key) = false := by simpa using hk
      simp [hk, hbeq]
  · simp only [SemaState.declare]
    rcases List.mem_cons.mp hp with rfl | hp
    · refine ⟨e, ?_, rfl⟩
      rw [← h.nextId]
      simp [SemaState.nextId]
    · obtain ⟨e', he', harity⟩ := h.arity p hp
      refine ⟨e', ?_, harity⟩
      rw [List.getElem?_append_left (List.getElem?_eq_some_iff.mp he').1, he']
  · simp [SemaState.declare, h.types_eq]

theorem declareVar (h : Scoped outer types env s) (key : String) (ts : TypeSpecifier)
    (offset : Nat) :
    Scoped outer (types ++ [ts]) ((key, ⟨types.length, none⟩) :: env)
      (s.declare (varEntry key ts offset)) :=
  h.declare (varEntry key ts offset)

/-- A child scope agrees with the same environment. -/
theorem enter (h : Scoped outer types env s) : Scoped s.scope types env s.enter := by
  refine ⟨?_, ?_, fun key => ?_, h.arity, h.types_eq⟩
  · cases hs : s.scope with
    | nil => exact absurd hs h.nonempty
    | cons symtab parents => simp [SemaState.enter, hs, enterScope]
  · cases hs : s.scope with
    | nil => exact absurd hs h.nonempty
    | cons symtab parents => simp [SemaState.enter, hs, enterScope]
  · simp only [SemaState.enter]
    rw [scopeLookup_enterScope, h.lookup]

/-- Behind a child scope the environment is the one before it. -/
theorem exit {types' : List TypeSpecifier} {env' : Env} (h : Scoped outer types env s)
    (h' : Scoped s.scope types' (env' ++ env) s') : Scoped outer types' env s'.exit := by
  have hscope : s'.exit.scope = s.scope := h'.outer_eq
  exact ⟨by rw [hscope]; exact h.nonempty, by rw [hscope]; exact h.outer_eq,
    fun key => by rw [hscope]; exact h.lookup key,
    fun p hp => h'.arity p (List.mem_append_right _ hp), h'.types_eq⟩

end Scoped

/-- Inside the body of the function `func`, whose stack frame is `fid`. -/
structure InBody (fid : FrameId) (func : String) (outer : Scope) (types : List TypeSpecifier)
    (env : Env) (s : SemaState) : Prop extends Scoped outer types env s where
  frame : ∃ f, s.frames[fid]? = some f ∧ f.func = func

variable {fid : FrameId} {func : String} {outer : Scope} {types : List TypeSpecifier} {env : Env}

namespace InBody

theorem use (h : InBody fid func outer types env s) (id : SymId) :
    InBody fid func outer types env (s.use id) :=
  ⟨h.toScoped.use id, h.frame⟩

theorem watch (h : InBody fid func outer types env s) : InBody fid func outer types env s.watch :=
  ⟨h.toScoped.congr rfl fun _ => rfl, h.frame⟩

theorem grow (h : InBody fid func outer types env s) :
    InBody fid func outer types env (s.grow fid) := by
  refine ⟨h.toScoped.congr rfl fun _ => rfl, ?_⟩
  obtain ⟨f, hf, hfunc⟩ := h.frame
  exact ⟨{ f with size := f.size + intSize }, by simp [SemaState.grow, hf], hfunc⟩

theorem declareVar (h : InBody fid func outer types env s) (key : String) (ts : TypeSpecifier)
    (offset : Nat) :
    InBody fid func outer (types ++ [ts]) ((key, ⟨types.length, none⟩) :: env)
      (s.declare (varEntry key ts offset)) :=
  ⟨h.toScoped.declareVar key ts offset, h.frame⟩

end InBody

/-! ### Expressions

An expression declares nothing: it leaves the environment as it was.
-/

/-- A name is looked up in the scope as in the environment. -/
private theorem resolveIdent_follows {value : String} {symbol : Option SymId}
    (h : InBody fid func outer types env s) :
    Follows (symCheck arena typeEnv (some fid) (.ident value symbol)) s
      ((AstNode.ident value symbol).resolveExpr env) fun _ => InBody fid func outer types env := by
  rw [symCheck, AstNode.resolveExpr]
  refine Follows.intro (fun node' s' hok => ?_) fun node' hsome => ?_
  · obtain ⟨id, hid, rfl, rfl⟩ := symCheckIdent_eq_ok.mp hok
    rw [h.lookup] at hid
    obtain ⟨b, hb, rfl⟩ := Option.map_eq_some_iff.mp hid
    exact ⟨by simp [hb], h.use _⟩
  · obtain ⟨b, hb, hnode⟩ := Option.bind_eq_some_iff.mp hsome
    have hid : scopeLookup s.scope value = some b.id := by
      rw [h.lookup, hb]
      rfl
    exact ⟨_, symCheckIdent_eq_ok.mpr ⟨b.id, hid, (Option.some.inj hnode).symm, rfl⟩⟩

/-- Expressions one after the other, if each of them is resolved in the environment. -/
private theorem resolveExprs_follows {args : List AstNode}
    (hargs : ∀ node ∈ args, ∀ {s : SemaState}, InBody fid func outer types env s →
      Follows (symCheck arena typeEnv (some fid) node) s (node.resolveExpr env)
        fun _ => InBody fid func outer types env)
    (h : InBody fid func outer types env s) :
    Follows (symCheckList arena typeEnv (some fid) args) s (AstNode.resolveExprs env args)
      fun _ => InBody fid func outer types env := by
  induction args generalizing s with
  | nil => exact Follows.pure h
  | cons node rest ih =>
      rw [symCheckList, AstNode.resolveExprs]
      refine Follows.bind (hargs node (by simp) h) fun node' s1 h1 => ?_
      refine Follows.bind (ih (fun n hn => hargs n (by simp [hn])) h1) fun rest' s2 h2 => ?_
      exact Follows.pure h2

/-- **An expression is checked as it is linked in the environment.** -/
theorem resolveExpr_follows {node : AstNode} (he : node.isExpr = true)
    (h : InBody fid func outer types env s) :
    Follows (symCheck arena typeEnv (some fid) node) s (node.resolveExpr env)
      fun _ => InBody fid func outer types env := by
  induction node generalizing s with
  | intConst value => exact Follows.pure h
  | emptyExpr => exact Follows.pure h
  | ident value symbol => exact resolveIdent_follows h
  | funcCall value args symbol ih =>
      rw [AstNode.isExpr, AstNode.areExprs_iff] at he
      rw [symCheck, AstNode.resolveExpr]
      have hargs : ∀ {s : SemaState}, InBody fid func outer types env s →
          Follows (symCheckList arena typeEnv (some fid) args) s (AstNode.resolveExprs env args)
            fun _ => InBody fid func outer types env :=
        resolveExprs_follows fun n hn {_} hs => ih n hn (he n hn) hs
      refine Follows.intro (fun node' s' hok => ?_) fun node' hsome => ?_
      · rw [symCheckFuncCall_eq_ok] at hok
        obtain ⟨id, e, ps, args', hid, he, hps, hlen, hok, rfl⟩ := hok
        rw [h.lookup] at hid
        obtain ⟨b, hb, rfl⟩ := Option.map_eq_some_iff.mp hid
        obtain ⟨e', he', harity⟩ := h.arity _ (Env.mem_of_lookup hb)
        obtain rfl := Option.some.inj (he.symm.trans he')
        obtain ⟨hres, h'⟩ := (hargs (h.use b.id)).of_ok hok
        refine ⟨?_, h'⟩
        rw [hps, Option.map_some, hlen] at harity
        have harity' : b.arity = some args.length := harity.symm
        simp [hb, harity', hres]
      · obtain ⟨b, hb, hsome⟩ := Option.bind_eq_some_iff.mp hsome
        split_ifs at hsome with harity
        · simp at hsome
        obtain ⟨args', hres, hnode⟩ := Option.bind_eq_some_iff.mp hsome
        obtain ⟨e, he', harity'⟩ := h.arity _ (Env.mem_of_lookup hb)
        rw [not_not.mp harity] at harity'
        obtain ⟨ps, hps, hlen⟩ := Option.map_eq_some_iff.mp harity'
        obtain ⟨s', hok, -⟩ := (hres ▸ hargs (h.use b.id)).of_some
        have hid : scopeLookup s.scope value = some b.id := by
          rw [h.lookup, hb]
          rfl
        exact ⟨s', symCheckFuncCall_eq_ok.mpr ⟨b.id, e, ps, args', hid, he', hps, hlen, hok,
          (Option.some.inj hnode).symm⟩⟩
  | binExp value opType left right ihl ihr =>
      simp only [AstNode.isExpr, Bool.and_eq_true] at he
      rw [symCheck, AstNode.resolveExpr]
      refine Follows.bind (ihl he.1.2 h) fun left' s1 h1 => ?_
      exact Follows.bind (ihr he.2 h1) fun right' s2 h2 => Follows.pure h2
  | unaryExpr postfixExpr value opType ih =>
      simp only [AstNode.isExpr, Bool.and_eq_true] at he
      rw [symCheck, AstNode.resolveExpr]
      exact Follows.bind (ih he.2 h) fun expr' s1 h1 => Follows.pure h1
  | varAsgn target rval _ ihr =>
      obtain ⟨⟨name, symbol, rfl⟩, hrval⟩ := AstNode.isExpr_varAsgn.mp he
      rw [symCheck, AstNode.resolveExpr]
      have htarget : Follows (symCheck arena typeEnv (some fid)
          (.lval .ident (.ident name symbol))) s
          ((AstNode.lval .ident (.ident name symbol)).resolveExpr env)
          fun _ => InBody fid func outer types env := by
        rw [symCheck, AstNode.resolveExpr]
        exact Follows.bind (resolveIdent_follows h) fun ident' s1 h1 => Follows.pure h1
      refine Follows.bind htarget fun target' s1 h1 => ?_
      exact Follows.bind (ihr hrval h1) fun rval' s2 h2 => Follows.pure h2
  | _ => simp [AstNode.isExpr] at he

namespace AstNode

/-! ### Expressions among the statements

A `for` header takes a declaration or an expression, and an expression is a statement that
binds no names.
-/

theorem resolve_of_isExpr {node : AstNode} (he : node.isExpr = true) (next : Nat) :
    node.resolve typeEnv func env next = node.resolveExpr env := by
  cases node <;> first | rfl | simp [isExpr] at he

theorem binds_of_isExpr {node : AstNode} (he : node.isExpr = true) (next : Nat) :
    node.binds next = [] := by
  cases node <;> first | rfl | simp [isExpr] at he

theorem names_of_isExpr {node : AstNode} (he : node.isExpr = true) : node.names = [] := by
  cases node <;> first | rfl | simp [isExpr] at he

theorem declTypes_of_isExpr {node : AstNode} (he : node.isExpr = true) :
    node.declTypes typeEnv = [] := by
  cases node <;> first | rfl | simp [isExpr] at he

end AstNode

/-! ### Statements

The names that a body without a block of its own binds are in scope behind it.  So the
condition of an `if`, which is checked behind the body, is linked with the names of the
body.
-/

/--
What checking a statement leaves behind: its declarations in the environment, `binds`,
and their types, `declTypes`, behind the types so far.
-/
def Leaves (fid : FrameId) (func : String) (outer : Scope) (types : List TypeSpecifier)
    (env : Env) (declTypes : List (Option TypeSpecifier)) (binds : Env) (s' : SemaState) : Prop :=
  ∃ new : List TypeSpecifier, new.map some = declTypes ∧
    InBody fid func outer (types ++ new) (binds ++ env) s'

namespace Leaves

variable {ds ds1 ds2 : List (Option TypeSpecifier)} {binds binds1 binds2 : Env}
  {s1 s2 : SemaState}

theorem nil (h : InBody fid func outer types env s) :
    Leaves fid func outer types env [] [] s :=
  ⟨[], rfl, by simpa using h⟩

theorem single {ts : TypeSpecifier} {key : String}
    (h : InBody fid func outer (types ++ [ts]) ((key, ⟨types.length, none⟩) :: env) s) :
    Leaves fid func outer types env [some ts] (bindNames types.length [key]) s :=
  ⟨[ts], rfl, h⟩

/-- What comes next starts from the environment left behind. -/
theorem bind {x : Sema AstNode} {y : Option AstNode} {R : AstNode → SemaState → Prop}
    {n : Nat} (hn : ds.length = n) (h : Leaves fid func outer types env ds binds s)
    (hx : ∀ new : List TypeSpecifier, new.map some = ds → (types ++ new).length = types.length + n →
      InBody fid func outer (types ++ new) (binds ++ env) s → Follows x s y R) :
    Follows x s y R := by
  obtain ⟨new, hnew, h⟩ := h
  refine hx new hnew ?_ h
  rw [List.length_append, ← hn, ← hnew, List.length_map]

theorem append {new1 : List TypeSpecifier}
    (h : Leaves fid func outer (types ++ new1) (binds1 ++ env) ds2 binds2 s)
    (hnew1 : new1.map some = ds1) :
    Leaves fid func outer types env (ds1 ++ ds2) (binds2 ++ binds1) s := by
  obtain ⟨new2, hnew2, h⟩ := h
  refine ⟨new1 ++ new2, by rw [List.map_append, hnew1, hnew2], ?_⟩
  rw [← List.append_assoc, List.append_assoc binds2]
  exact h

end Leaves

/-- The constants of an enum are declared one after the other. -/
private theorem symCheckEnums_follows {keys : List String} {i : Nat}
    (h : InBody fid func outer types env s) :
    Follows (symCheckEnums arena i keys) s (some ()) fun _ =>
      Leaves fid func outer types env (keys.map fun _ => some .int)
        (bindNames types.length keys) := by
  induction keys generalizing s i types env with
  | nil => exact Follows.pure (Leaves.nil h)
  | cons key rest ih =>
      have hd : InBody fid func outer (types ++ [TypeSpecifier.int])
          ((key, ⟨types.length, none⟩) :: env) (s.declare (constEntry key (arena s.nextId) i)) :=
        ⟨h.toScoped.declare (constEntry key (arena s.nextId) i), h.frame⟩
      have hrest := ih (i := i + 1) hd
      rw [List.length_append, List.length_singleton] at hrest
      refine Follows.intro (fun u s' hok => ⟨rfl, ?_⟩) fun u _ => ?_
      · obtain ⟨-, hl⟩ := hrest.of_ok (symCheckEnums_cons_eq_ok.mp hok)
        rw [bindNames_cons]
        have hl' : Leaves fid func outer (types ++ [TypeSpecifier.int])
            ([(key, ⟨types.length, none⟩)] ++ env) (rest.map fun _ => some .int)
            (bindNames (types.length + 1) rest) s' := hl
        exact hl'.append rfl
      · obtain ⟨s', hok, -⟩ := hrest.of_some
        exact ⟨s', symCheckEnums_cons_eq_ok.mpr hok⟩

/-- Checking statements one after the other, if each of them is checked as it is linked. -/
private theorem resolveList_follows {l : List AstNode}
    (hl : ∀ node ∈ l, ∀ {s : SemaState} {types : List TypeSpecifier} {env : Env},
      InBody fid func outer types env s →
      Follows (symCheck arena typeEnv (some fid) node) s
        (node.resolve typeEnv func env types.length) fun _ =>
          Leaves fid func outer types env (node.declTypes typeEnv) (node.binds types.length))
    (h : InBody fid func outer types env s) :
    Follows (symCheckList arena typeEnv (some fid) l) s
      (AstNode.resolveList typeEnv func env types.length l) fun _ s' =>
        ∃ binds, Leaves fid func outer types env (AstNode.declTypesList typeEnv l) binds s' := by
  induction l generalizing s types env with
  | nil => exact Follows.pure ⟨[], Leaves.nil h⟩
  | cons node rest ih =>
      rw [symCheckList, AstNode.resolveList]
      refine Follows.bind (hl node (by simp) h) ?_
      intro node' s1 hnode
      obtain ⟨new, hnew, h1⟩ := hnode
      have hlen : (types ++ new).length = types.length + node.declCount := by
        rw [List.length_append, ← node.declTypes_length typeEnv, ← hnew,
          List.length_map]
      rw [← hlen]
      refine Follows.bind (ih (fun n hn => hl n (by simp [hn])) h1) ?_
      intro rest' s2 hrest
      obtain ⟨binds, h2⟩ := hrest
      exact Follows.pure ⟨_, h2.append hnew⟩

/-- What is left in a child scope is forgotten. -/
private theorem inChildScope_follows {body : Sema AstNode} {y : Option AstNode}
    {ds : List (Option TypeSpecifier)} (h : InBody fid func outer types env s)
    (hbody : Follows body s.enter y fun _ s' =>
      ∃ binds, Leaves fid func s.scope types env ds binds s') :
    Follows (inChildScope body) s y fun _ => Leaves fid func outer types env ds [] := by
  refine Follows.intro (fun node s' hok => ?_) fun node hsome => ?_
  · rw [inChildScope_eq_ok] at hok
    obtain ⟨s1, hok, rfl⟩ := hok
    obtain ⟨hy, binds, new, hnew, h1⟩ := hbody.of_ok hok
    exact ⟨hy, new, hnew, h.toScoped.exit h1.toScoped, h1.frame⟩
  · obtain ⟨s1, hok, -⟩ := (hsome ▸ hbody).of_some
    exact ⟨_, inChildScope_eq_ok.mpr ⟨s1, hok, rfl⟩⟩

private theorem resolveExpr_leaves {node : AstNode} (he : node.isExpr = true)
    (h : InBody fid func outer types env s) :
    Follows (symCheck arena typeEnv (some fid) node) s
      (node.resolve typeEnv func env types.length) fun _ =>
        Leaves fid func outer types env (node.declTypes typeEnv) (node.binds types.length) := by
  rw [AstNode.resolve_of_isExpr he, AstNode.declTypes_of_isExpr he, AstNode.binds_of_isExpr he]
  exact (resolveExpr_follows he h).mono fun _ _ h' => Leaves.nil h'

/-- **A statement is checked as it is linked in the environment.** -/
theorem resolve_follows {node : AstNode} (hn : node.isStmt = true)
    (h : InBody fid func outer types env s) :
    Follows (symCheck arena typeEnv (some fid) node) s
      (node.resolve typeEnv func env types.length) fun _ =>
        Leaves fid func outer types env (node.declTypes typeEnv) (node.binds types.length) := by
  induction node generalizing s types env outer with
  | varDec value type symbol =>
      rw [symCheck, AstNode.resolve]
      refine Follows.intro (fun node' s' hok => ?_) fun node' hsome => ?_
      · rw [symCheckVarDec_eq_ok] at hok
        obtain ⟨hscope, ts, fid', f, hts, hfid, hf, rfl, rfl⟩ := hok
        obtain rfl := Option.some.inj hfid
        rw [h.inScope] at hscope
        refine ⟨by simp [hscope, hts, h.nextId], ?_⟩
        rw [AstNode.declTypes, hts]
        exact Leaves.single (h.grow.declareVar _ _ _)
      · split_ifs at hsome with hscope
        · simp at hsome
        obtain ⟨ts, hts, hnode⟩ := Option.bind_eq_some_iff.mp hsome
        obtain ⟨f, hf, -⟩ := h.frame
        rw [← h.inScope, Bool.not_eq_true] at hscope
        exact ⟨_, symCheckVarDec_eq_ok.mpr ⟨hscope, ts, fid, f, hts, rfl, hf,
          by rw [← Option.some.inj hnode, h.nextId], rfl⟩⟩
  | varDef value type expr symbol _ =>
      have hexpr : Follows (symCheck arena typeEnv (some fid) expr) s (expr.resolveExpr env)
          fun _ => InBody fid func outer types env := resolveExpr_follows hn h
      rw [symCheck, AstNode.resolve]
      refine Follows.intro (fun node' s' hok => ?_) fun node' hsome => ?_
      · rw [symCheckVarDef_eq_ok] at hok
        obtain ⟨hscope, expr', s1, ts, fid', f, hok, hts, hfid, hf, rfl, rfl⟩ := hok
        obtain rfl := Option.some.inj hfid
        obtain ⟨hres, h1⟩ := hexpr.of_ok hok
        rw [h.inScope] at hscope
        refine ⟨by simp [hscope, hts, hres, h1.nextId], ?_⟩
        rw [AstNode.declTypes, hts]
        exact Leaves.single (h1.watch.grow.declareVar _ _ _)
      · split_ifs at hsome with hscope
        · simp at hsome
        obtain ⟨expr', hres, hsome⟩ := Option.bind_eq_some_iff.mp hsome
        obtain ⟨ts, hts, hnode⟩ := Option.bind_eq_some_iff.mp hsome
        obtain ⟨s1, hok, h1⟩ := (hres ▸ hexpr).of_some
        obtain ⟨f, hf, -⟩ := h1.frame
        rw [← h.inScope, Bool.not_eq_true] at hscope
        exact ⟨_, symCheckVarDef_eq_ok.mpr ⟨hscope, expr', s1, ts, fid, f, hok, hts, rfl, hf,
          by rw [← Option.some.inj hnode, h1.nextId], rfl⟩⟩
  | enum value enums =>
      rw [symCheck]
      exact Follows.bind (g := fun _ => some (AstNode.enum value enums))
        (symCheckEnums_follows h) fun _ s1 h1 => Follows.pure h1
  -- a block is left with the scope it was entered in
  | compStmt body ih =>
      rw [AstNode.isStmt, AstNode.areStmts_iff] at hn
      rw [symCheck, AstNode.resolve]
      refine inChildScope_follows h ?_
      have henter : InBody fid func s.scope types env s.enter := ⟨h.toScoped.enter, h.frame⟩
      exact Follows.bind (resolveList_follows (fun n hmem {_ _ _} h' => ih n hmem (hn n hmem) h')
        henter) fun body' s1 h1 => Follows.pure h1
  | ifElse ifExpr ifBody elseBody _ ihb ihe =>
      simp only [AstNode.isStmt, Bool.and_eq_true, Bool.or_eq_true] at hn
      rw [symCheck, AstNode.resolve, AstNode.declTypes, AstNode.binds]
      refine Follows.bind (ihb hn.1.2 h) fun ifBody' s1 h1 => ?_
      refine Leaves.bind (ifBody.declTypes_length typeEnv) h1 fun new hnew hlen h1 => ?_
      refine Follows.bind (resolveExpr_follows hn.1.1 h1) fun ifExpr' s2 h2 => ?_
      -- an `else` that is missing is not checked
      by_cases helse : elseBody.nonNull = true
      · rw [if_pos helse, if_pos helse, ← hlen]
        have hstmt : elseBody.isStmt = true := hn.2.resolve_left (by simp [helse])
        exact Follows.bind (ihe hstmt h2) fun elseBody' s3 h3 => Follows.pure (h3.append hnew)
      · rw [if_neg helse, if_neg helse]
        have hnull : elseBody = .null := by
          cases elseBody <;> simp [AstNode.nonNull] at helse
          rfl
        subst hnull
        exact Follows.pure ((Leaves.nil h2).append hnew)
  | while_ expr body _ ihb =>
      simp only [AstNode.isStmt, Bool.and_eq_true] at hn
      rw [symCheck, AstNode.resolve]
      refine Follows.bind (resolveExpr_follows hn.1 h) fun expr' s1 h1 => ?_
      exact Follows.bind (ihb hn.2 h1) fun body' s2 h2 => Follows.pure h2
  | for_ init cond step body ihi _ _ ihb =>
      simp only [AstNode.isStmt, Bool.and_eq_true, Bool.or_eq_true] at hn
      obtain ⟨⟨⟨hinit, hcond⟩, hstep⟩, hbody⟩ := hn
      rw [symCheck, AstNode.resolve]
      refine inChildScope_follows h ?_
      have henter : InBody fid func s.scope types env s.enter := ⟨h.toScoped.enter, h.frame⟩
      -- the header declares a variable, or it is an expression
      have hinit' : Follows (symCheck arena typeEnv (some fid) init) s.enter
          (init.resolve typeEnv func env types.length) fun _ => Leaves fid func s.scope types env
            (init.declTypes typeEnv) (init.binds types.length) := by
        rcases hinit with hinit | hinit
        · exact ihi (AstNode.isStmt_of_isDecl hinit) henter
        · exact resolveExpr_leaves hinit henter
      refine Follows.bind hinit' fun init' s1 h1 => ?_
      refine Leaves.bind (init.declTypes_length typeEnv) h1 fun new hnew hlen h1 => ?_
      refine Follows.bind (resolveExpr_follows hcond h1) fun cond' s2 h2 => ?_
      refine Follows.bind (resolveExpr_follows hstep h2) fun step' s3 h3 => ?_
      rw [← hlen]
      exact Follows.bind (ihb hbody h3) fun body' s4 h4 => Follows.pure ⟨_, h4.append hnew⟩
  | ret expr func' _ =>
      have hexpr : Follows (symCheck arena typeEnv (some fid) expr) s (expr.resolveExpr env)
          fun _ => InBody fid func outer types env := resolveExpr_follows hn h
      obtain ⟨f, hf, hfunc⟩ := h.frame
      rw [symCheck, AstNode.resolve]
      refine Follows.intro (fun node' s' hok => ?_) fun node' hsome => ?_
      · rw [symCheckRet_eq_ok] at hok
        obtain ⟨fid', f', expr', hfid, hf', hok, rfl⟩ := hok
        obtain rfl := Option.some.inj hfid
        obtain rfl := Option.some.inj (hf.symm.trans hf')
        obtain ⟨hres, h1⟩ := hexpr.of_ok hok
        exact ⟨by simp [hres, h.lookup, hfunc], Leaves.nil h1⟩
      · obtain ⟨expr', hres, hnode⟩ := Option.bind_eq_some_iff.mp hsome
        obtain ⟨s1, hok, -⟩ := (hres ▸ hexpr).of_some
        exact ⟨s1, symCheckRet_eq_ok.mpr ⟨fid, f, expr', rfl, hf, hok,
          by rw [← Option.some.inj hnode, h.lookup, hfunc]⟩⟩
  | exprStmt expr _ =>
      have he : expr.isExpr = true := hn
      rw [symCheck, AstNode.resolve]
      exact Follows.bind (resolveExpr_follows he h) fun expr' s1 h1 =>
        Follows.pure (Leaves.nil h1)
  | _ => simp [AstNode.isStmt] at hn

/-! ### Functions and programs

The parameters of a function are declared in the scope around it, and stay there for the
functions that follow.
-/

/-- The types the declarations of a program ask for, in order. -/
def progTypes (typeEnv : HashMap TypeSpecifier) : List AstNode → List (Option TypeSpecifier)
  | .funcDef _ type body params _ :: rest =>
      params.map (fun param => hashmapGet typeEnv param.type) ++
        (hashmapGet typeEnv type :: (body.declTypes typeEnv ++ progTypes typeEnv rest))
  | _ => []

variable (arena typeEnv) in
/-- Parameters are declared one after the other. -/
private theorem symCheckParams_follows (params : List Param) (h : Scoped outer types env s) :
    Follows (symCheckParams arena typeEnv params) s
      (if params.any fun param => (hashmapGet typeEnv param.type).isNone then none
        else some (linkParams types.length params)) fun _ s' =>
      s'.frames = s.frames ∧ ∃ new : List TypeSpecifier,
        new.map some = params.map (fun param => hashmapGet typeEnv param.type) ∧
        Scoped outer (types ++ new) (bindNames types.length (paramNames params) ++ env) s' := by
  induction params generalizing s types env with
  | nil => exact Follows.pure ⟨rfl, [], rfl, by simpa [paramNames, bindNames_nil] using h⟩
  | cons param rest ih =>
      -- a type that does not exist stops both
      cases hts : hashmapGet typeEnv param.type with
      | none =>
          refine Follows.intro (fun ps s' hok => ?_) fun ps hsome => ?_
          · rw [symCheckParams_cons_eq_ok] at hok
            obtain ⟨ts, ps', hts', -⟩ := hok
            simp [hts] at hts'
          · simp [hts] at hsome
      | some ts =>
          have hrest := ih (h.declareVar param.value ts (arena s.nextId))
          rw [List.length_append, List.length_singleton] at hrest
          have hany : (param :: rest).any (fun param => (hashmapGet typeEnv param.type).isNone)
              = rest.any fun param => (hashmapGet typeEnv param.type).isNone := by
            simp [hts]
          rw [hany]
          refine Follows.intro (fun ps s' hok => ?_) fun ps hsome => ?_
          · rw [symCheckParams_cons_eq_ok] at hok
            obtain ⟨ts', ps', hts', hok, rfl⟩ := hok
            obtain rfl := Option.some.inj (hts.symm.trans hts')
            obtain ⟨hres, hfr, new, hnew, h'⟩ := hrest.of_ok hok
            split_ifs at hres with hbad
            · rw [if_neg hbad]
              refine ⟨?_, hfr, ts :: new, by simp [hnew, hts], ?_⟩
              · rw [← Option.some.inj hres, h.nextId]
                simp [linkParams]
              · have henv : bindNames types.length (paramNames (param :: rest)) ++ env
                    = bindNames (types.length + 1) (paramNames rest) ++
                      ((param.value, ⟨types.length, none⟩) :: env) := by
                  simp [paramNames, bindNames_cons]
                rw [henv, List.append_cons types ts new]
                exact h'
          · split_ifs at hsome with hbad
            · rw [if_neg hbad] at hrest
              obtain ⟨s', hok, -⟩ := hrest.of_some
              refine ⟨s', symCheckParams_cons_eq_ok.mpr ⟨ts, _, hts, hok, ?_⟩⟩
              rw [← Option.some.inj hsome, h.nextId]
              simp [linkParams]

private theorem length_of_map_some {α β : Type} {new : List α} {l : List β} {f : β → Option α}
    (h : new.map some = l.map f) : new.length = l.length := by
  simpa using congrArg List.length h

/-- The body of a function is checked with the function and its parameters in scope. -/
private theorem funcBody_follows {value : String} {params ps : List Param} {body : List AstNode}
    {newp : List TypeSpecifier} {s1 : SemaState} {fid : FrameId} (ts : TypeSpecifier)
    (hbody : AstNode.areStmts body = true) (hps : ps.length = params.length)
    (hfr : s1.frames[fid]? = some { size := 0, func := value })
    (hnewp : newp.length = params.length)
    (h1 : Scoped outer (types ++ newp) (bindNames types.length (paramNames params) ++ env) s1) :
    Follows (symCheck arena typeEnv (some fid) (.compStmt body))
      (s1.watch.declare (funcEntry value ts (arena s1.nextId) ps fid))
      ((AstNode.compStmt body).resolve typeEnv value
        (funcBinds types.length value params ++ env) (types.length + params.length + 1)) fun _ =>
      Leaves fid value outer (types ++ newp ++ [ts]) (funcBinds types.length value params ++ env)
        (AstNode.declTypesList typeEnv body) [] := by
  have hwatch : Scoped outer (types ++ newp) (bindNames types.length (paramNames params) ++ env)
      s1.watch := h1.congr rfl fun _ => rfl
  have hd := hwatch.declare (funcEntry value ts (arena s1.nextId) ps fid)
  have harity : (funcEntry value ts (arena s1.nextId) ps fid).params.map List.length
      = some params.length := by simp [funcEntry, hps]
  rw [List.length_append, hnewp, harity] at hd
  have hin : InBody fid value outer (types ++ newp ++ [ts])
      (funcBinds types.length value params ++ env)
      (s1.watch.declare (funcEntry value ts (arena s1.nextId) ps fid)) := ⟨hd, _, hfr, rfl⟩
  have hlen : (types ++ newp ++ [ts]).length = types.length + params.length + 1 := by
    rw [List.length_append, List.length_append, hnewp]
    rfl
  rw [← hlen]
  exact resolve_follows hbody hin

/-- **A function is checked as it is linked in the environment.** -/
theorem resolveFunc_follows {value type : String} {params : List Param} {body : List AstNode}
    {symbol : Option SymId} {frame : Option FrameId} (hbody : AstNode.areStmts body = true)
    (h : Scoped outer types env s) :
    Follows (symCheck arena typeEnv frame (.funcDef value type (.compStmt body) params symbol)) s
      (resolveFunc typeEnv env types.length value type params (.compStmt body)) fun _ s' =>
      ∃ new : List TypeSpecifier, new.map some =
          params.map (fun param => hashmapGet typeEnv param.type) ++
            (hashmapGet typeEnv type :: AstNode.declTypesList typeEnv body) ∧
        Scoped outer (types ++ new) (funcBinds types.length value params ++ env) s' := by
  have hpush : Scoped outer types env (s.pushFrame value) := h.congr rfl fun _ => rfl
  have hframe : (s.pushFrame value).frames[s.frames.length]?
      = some { size := 0, func := value } := by
    simp [SemaState.pushFrame]
  have hparams := symCheckParams_follows arena typeEnv params hpush
  rw [symCheck, resolveFunc]
  by_cases hscope : (env.lookup value).isSome = true
  · refine Follows.intro (fun node' s' hok => ?_) fun node' hsome => ?_
    · rw [symCheckFuncDef_eq_ok, h.inScope, hscope] at hok
      simp at hok
    · simp [hscope] at hsome
  by_cases hbad : (params.any fun param => (hashmapGet typeEnv param.type).isNone) = true
  · rw [if_pos hbad] at hparams
    refine Follows.intro (fun node' s' hok => ?_) fun node' hsome => ?_
    · rw [symCheckFuncDef_eq_ok] at hok
      obtain ⟨-, ps, s1, ts, body', hps, -⟩ := hok
      exact absurd (hparams.of_ok hps).1 (by simp)
    · simp [hscope, hbad] at hsome
  rw [if_neg hbad] at hparams
  simp only [if_neg hscope, if_neg hbad]
  rw [Bool.not_eq_true] at hscope
  refine Follows.intro (fun node' s' hok => ?_) fun node' hsome => ?_
  · rw [symCheckFuncDef_eq_ok] at hok
    obtain ⟨-, ps, s1, ts, body', hps, hts, hok, rfl⟩ := hok
    obtain ⟨hres, hfr, newp, hnewp, h1⟩ := hparams.of_ok hps
    obtain rfl := Option.some.inj hres
    have hlen := length_of_map_some hnewp
    obtain ⟨hresb, new, hnew, h2⟩ :=
      (funcBody_follows ts hbody (by simp [linkParams]) (hfr ▸ hframe) hlen h1).of_ok hok
    refine ⟨?_, newp ++ ts :: new, by simp [hnewp, hnew, hts], by simpa using h2.toScoped⟩
    have hgid : s1.nextId = types.length + params.length := by
      rw [h1.nextId, List.length_append, hlen]
    simp [hts, hresb, hgid]
  · obtain ⟨ts, hts, hsome⟩ := Option.bind_eq_some_iff.mp hsome
    obtain ⟨body', hresb, hnode⟩ := Option.bind_eq_some_iff.mp hsome
    obtain ⟨s1, hps, hfr, newp, hnewp, h1⟩ := hparams.of_some
    have hlen := length_of_map_some hnewp
    have hps' : (linkParams types.length params).length = params.length := by simp [linkParams]
    obtain ⟨s2, hok, -⟩ :=
      (hresb ▸ funcBody_follows ts hbody hps' (hfr ▸ hframe) hlen h1).of_some
    have hgid : s1.nextId = types.length + params.length := by
      rw [h1.nextId, List.length_append, hlen]
    exact ⟨s2, symCheckFuncDef_eq_ok.mpr ⟨h.inScope value ▸ hscope, _, s1, ts, body', hps, hts, hok,
      by rw [← Option.some.inj hnode, hgid]⟩⟩

/-- **A program is checked as it is linked, function by function.** -/
theorem resolveProg_follows {prog : List AstNode} (hprog : ∀ n ∈ prog, n.isFuncDef = true)
    (h : Scoped outer types env s) :
    Follows (symCheckList arena typeEnv none prog) s (resolveProg typeEnv env types.length prog)
      fun _ s' => s'.entries.map (fun e => some e.type) =
        types.map some ++ progTypes typeEnv prog := by
  induction prog generalizing s types env with
  | nil => exact Follows.pure (by simp [progTypes, ← h.types_eq])
  | cons node rest ih =>
      have hnode := hprog node (by simp)
      unfold AstNode.isFuncDef at hnode
      split at hnode
      · rename_i value type body params symbol
        rw [symCheckList, resolveProg]
        refine Follows.bind (resolveFunc_follows hnode h) ?_
        intro node' s1 hfunc
        obtain ⟨new, hnew, h1⟩ := hfunc
        have hlen : (types ++ new).length
            = types.length + funcDeclCount params (.compStmt body) := by
          have := congrArg List.length hnew
          simp only [List.length_map, List.length_append, List.length_cons,
            AstNode.declTypesList_length] at this
          rw [List.length_append, this, funcDeclCount, AstNode.declCount]
          omega
        have hrest := ih (fun n hn => hprog n (by simp [hn])) h1
        rw [hlen] at hrest
        refine Follows.bind hrest fun rest' s2 h2 => Follows.pure ?_
        rw [h2, List.map_append, hnew, progTypes, AstNode.declTypes]
        simp
      · simp at hnode

/-- The state the analysis starts from agrees with the empty environment. -/
theorem Scoped.initial : Scoped [] [] [] SemaState.initial :=
  ⟨by simp [SemaState.initial], rfl, fun key => by simp [SemaState.initial, scopeLookup], by simp,
    rfl⟩

/-- **The program the analysis hands on is the one linked in the empty environment.** -/
theorem Accepted.resolveProg {uninit : Int} {tokens : List Token} {r : SemaResult}
    (h : Accepted uninit arena tokens r) :
    ∃ prog rest, parse uninit tokens = .ok (prog, rest) ∧ (∀ n ∈ prog, n.isFuncDef = true) ∧
      resolveProg typeEnvInit [] 0 prog = some r.prog := by
  obtain ⟨prog, rest, hparse, hsema⟩ := h
  simp only [semaCheck, ExceptRun.bind_eq_ok, ExceptRun.pure_eq_ok] at hsema
  obtain ⟨⟨prog', st⟩, hrun, _, _, rfl⟩ := hsema
  exact ⟨prog, rest, hparse, parse_isFuncDef hparse,
    ((resolveProg_follows (parse_isFuncDef hparse) Scoped.initial).of_ok hrun).1⟩

end MyLang
