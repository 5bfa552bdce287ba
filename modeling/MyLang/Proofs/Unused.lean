/-
What the analysis warns about.

The list of symbols and the marks are filled by different cases of `sym_check`, and
`Records` keeps both: from one state to another the functions and the defined variables of
a tree have come on the list, and marked are those entries that were before and those to
which something in the tree resolves.  An entry only gets its mark once it is there, for
every symbol in a scope is one of an entry.

What has come on the list and what was looked up is read off the tree the analysis
returns, in which every name has its symbol.  So `warnUnused_eq` can give the warnings as
a list computed from that tree, in the order in which they come: the functions and the
defined variables to which no name of the program resolves, but for those that are called
`main`.

Two kinds of symbols are missing from this list.  A variable that is declared without a
value is never watched, and one that is called `main` is passed over as the function is.
-/
import MyLang.Unused
import MyLang.Proofs.SemaShape

namespace MyLang

open StateExcept

variable {arena : SymId → Nat} {typeEnv : HashMap TypeSpecifier} {s s1 s' : SemaState}

/-! ### Symbols in scope

A scope holds symbols of entries only, which matters when an entry is marked.
-/

/-- The symbols in a scope are below `n`. -/
def ScopeBelow (n : Nat) (scope : Scope) : Prop :=
  ∀ map ∈ scope, ∀ key id, hashmapGet map key = some id → id < n

namespace ScopeBelow

variable {n m : Nat} {scope : Scope}

theorem mono (h : ScopeBelow n scope) (hle : n ≤ m) : ScopeBelow m scope := by
  intro map hmem key id hget
  exact (h map hmem key id hget).trans_le hle

theorem lookup (h : ScopeBelow n scope) {key : String} {id : SymId}
    (hid : scopeLookup scope key = some id) : id < n := by
  induction scope with
  | nil => cases hid
  | cons map parents ih =>
      rw [scopeLookup] at hid
      cases hget : hashmapGet map key with
      | some entry =>
          rw [hget] at hid
          obtain rfl := Option.some.inj hid
          exact h map List.mem_cons_self key entry hget
      | none =>
          rw [hget] at hid
          exact ih (fun map' hmem => h map' (List.mem_cons_of_mem _ hmem)) hid

theorem add (h : ScopeBelow n scope) {id : SymId} (hid : id < n) (key : String) :
    ScopeBelow n (scopeAdd scope id key) := by
  cases scope with
  | nil => exact h
  | cons map parents =>
      intro map' hmem key' id' hget
      rcases List.mem_cons.mp hmem with rfl | hmem
      · rw [hashmapGet_add] at hget
        by_cases hk : key' = key
        · rw [if_pos hk] at hget
          obtain rfl := Option.some.inj hget
          exact hid
        · rw [if_neg hk] at hget
          exact h map List.mem_cons_self key' id' hget
      · exact h map' (List.mem_cons_of_mem _ hmem) key' id' hget

theorem enter (h : ScopeBelow n scope) : ScopeBelow n (enterScope scope) := by
  cases scope with
  | nil => exact h
  | cons map parents =>
      intro map' hmem key id hget
      rcases List.mem_cons.mp hmem with rfl | hmem
      · rw [hashmapGet_clone] at hget
        exact h map List.mem_cons_self key id hget
      · exact h map' hmem key id hget

theorem exit (h : ScopeBelow n scope) : ScopeBelow n (exitScope scope) :=
  fun map hmem => h map (List.mem_of_mem_tail hmem)

end ScopeBelow

/-! ### Pieces of the analysis

What is recorded by one piece after another is what both record, since entries are never
taken away and marks are never taken back.
-/

/-- The symbols of functions and of defined variables. -/
def watchedIds (ds : List Introduced) : List SymId :=
  ds.filterMap fun d => if d.kind = .declaration then none else d.symbol

/-- An entry is there, and marked. -/
def SemaState.Used (s : SemaState) (id : Nat) : Prop :=
  ∃ e, s.entries[id]? = some e ∧ e.isUsed = true

/-- From `s` to `s'` the declarations `ds` were made, and symbols looked up: `us`. -/
structure Records (s : SemaState) (ds : List Introduced) (us : List (Option SymId))
    (s' : SemaState) : Prop where
  below : ScopeBelow s'.nextId s'.scope
  grows : s.nextId ≤ s'.nextId
  key : ∀ (id : Nat) e, s.entries[id]? = some e → ∃ e', s'.entries[id]? = some e' ∧ e'.key = e.key
  symbols : s'.symbols = s.symbols ++ watchedIds ds
  introduced : ∀ d ∈ ds, ∃ (id : Nat) (e : SymTabEntry), d.symbol = some id ∧
    s'.entries[id]? = some e ∧ e.key = d.name
  used : ∀ id : Nat, s'.Used id ↔ s.Used id ∨ some id ∈ us

namespace Records

variable {ds ds' : List Introduced} {us us' : List (Option SymId)}

theorem refl (h : ScopeBelow s.nextId s.scope) : Records s [] [] s where
  below := h
  grows := Nat.le_refl _
  key := fun id e he => ⟨e, he, rfl⟩
  symbols := by simp [watchedIds]
  introduced := by simp
  used := by simp

/-- Frames are of no account. -/
theorem congr {s2 s2' : SemaState} (h : Records s ds us s') (he : s2.entries = s.entries)
    (hy : s2.symbols = s.symbols) (he' : s2'.entries = s'.entries) (hs' : s2'.scope = s'.scope)
    (hy' : s2'.symbols = s'.symbols) : Records s2 ds us s2' := by
  have hn : s2.nextId = s.nextId := by rw [SemaState.nextId, he, SemaState.nextId]
  have hn' : s2'.nextId = s'.nextId := by rw [SemaState.nextId, he', SemaState.nextId]
  refine ⟨?_, ?_, ?_, ?_, ?_, ?_⟩
  · rw [hn', hs']
    exact h.below
  · rw [hn, hn']
    exact h.grows
  · rw [he, he']
    exact h.key
  · rw [hy, hy']
    exact h.symbols
  · rw [he']
    exact h.introduced
  · unfold SemaState.Used
    rw [he, he']
    exact h.used

/-- **One piece after another.** -/
theorem trans (h : Records s ds us s1) (h' : Records s1 ds' us' s') :
    Records s (ds ++ ds') (us ++ us') s' where
  below := h'.below
  grows := h.grows.trans h'.grows
  key := fun id e he => by
    obtain ⟨e1, he1, hk1⟩ := h.key id e he
    obtain ⟨e2, he2, hk2⟩ := h'.key id e1 he1
    exact ⟨e2, he2, hk2.trans hk1⟩
  symbols := by
    rw [h'.symbols, h.symbols, List.append_assoc, watchedIds, watchedIds, watchedIds,
      List.filterMap_append]
  introduced := fun d hd => by
    rcases List.mem_append.mp hd with hd | hd
    · obtain ⟨id, e1, hid, he1, hk1⟩ := h.introduced d hd
      obtain ⟨e2, he2, hk2⟩ := h'.key id e1 he1
      exact ⟨id, e2, hid, he2, hk2.trans hk1⟩
    · exact h'.introduced d hd
  used := fun id => by rw [h'.used, h.used, List.mem_append, or_assoc]

theorem use (h : ScopeBelow s.nextId s.scope) {key : String} {id : SymId}
    (hid : scopeLookup s.scope key = some id) : Records s [] [some id] (s.use id) := by
  have hlen : (s.use id).nextId = s.nextId := by simp [SemaState.nextId, SemaState.use]
  have hget : ∀ i : Nat, (s.use id).entries[i]? = (s.entries[i]?).map fun e =>
      if id = i then { e with isUsed := true } else e := by
    intro i
    rw [SemaState.use, List.getElem?_modify]
    rfl
  refine ⟨?_, ?_, fun i e he => ?_, by simp [watchedIds, SemaState.use], by simp, fun i => ?_⟩
  · rw [hlen]
    exact h
  · exact hlen.ge
  · refine ⟨_, by rw [hget, he]; rfl, ?_⟩
    split
    · rfl
    · rfl
  · rw [List.mem_singleton, Option.some.injEq, SemaState.Used, hget]
    by_cases hi : i = id
    · subst hi
      have hlt : i < s.entries.length := h.lookup hid
      simp [List.getElem?_eq_getElem hlt]
    · simp [hi, Ne.symm hi, SemaState.Used]

/-- A new entry, on the list if its declaration is to be watched. -/
theorem declare {e : SymTabEntry} (h : ScopeBelow s.nextId s.scope) (he : e.isUsed = false)
    (hds : ∀ d ∈ ds, d.symbol = some s.nextId ∧ d.name = e.key) (hent : s1.entries = s.entries)
    (hscope : s1.scope = s.scope) (hsym : s1.symbols = s.symbols ++ watchedIds ds) :
    Records s ds [] (s1.declare e) := by
  have hn : s1.nextId = s.nextId := by rw [SemaState.nextId, hent, SemaState.nextId]
  have hlen : (s1.declare e).nextId = s.nextId + 1 := by
    rw [SemaState.nextId, SemaState.declare, List.length_append, hent]
    rfl
  have hnew : (s1.declare e).entries[s.nextId]? = some e := by
    rw [SemaState.declare, hent]
    exact List.getElem?_concat_length
  have hold : ∀ i : Nat, i < s.nextId → (s1.declare e).entries[i]? = s.entries[i]? := by
    intro i hi
    rw [SemaState.declare, hent]
    exact List.getElem?_append_left hi
  refine ⟨?_, ?_, fun i e' he' => ⟨e', ?_, rfl⟩, hsym, fun d hd => ⟨s.nextId, e, ?_⟩, fun i => ?_⟩
  · rw [hlen, SemaState.declare, hscope, hn]
    exact (h.mono (Nat.le_succ _)).add (Nat.lt_succ_self _) _
  · omega
  · rw [hold i (List.getElem?_eq_some_iff.mp he').1, he']
  · obtain ⟨hid, hname⟩ := hds d hd
    exact ⟨hid, hnew, hname.symm⟩
  · simp only [List.not_mem_nil, or_false]
    unfold SemaState.Used
    by_cases hi : i < s.nextId
    · rw [hold i hi]
    · have hnone : s.entries[i]? = none := List.getElem?_eq_none (Nat.le_of_not_lt hi)
      rw [hnone]
      constructor
      · rintro ⟨e', he', hmark⟩
        have hlt : i < (s1.declare e).nextId := (List.getElem?_eq_some_iff.mp he').1
        obtain rfl : i = s.nextId := by omega
        obtain rfl := Option.some.inj (hnew.symm.trans he')
        rw [he] at hmark
        exact absurd hmark (by simp)
      · rintro ⟨e', he', -⟩
        cases he'

/-- What is done in a child scope. -/
theorem child (h : Records s.enter ds us s1) : Records s ds us s1.exit where
  below := h.below.exit
  grows := h.grows
  key := h.key
  symbols := h.symbols
  introduced := h.introduced
  used := h.used

end Records

/-! ### The cases

Every case of `sym_check` is a few parts one after the other, with a declaration or a name
of its own.
-/

/-- A piece that keeps what is recorded, whatever the state. -/
def Recorded (arena : SymId → Nat) (typeEnv : HashMap TypeSpecifier) (node : AstNode) : Prop :=
  ∀ {frame : Option FrameId} {s s' : SemaState} {node' : AstNode}, ScopeBelow s.nextId s.scope →
    symCheck arena typeEnv frame node s = .ok (node', s') →
      Records s node'.introduced node'.resolvesTo s'

theorem symCheckEnums_records {keys : List String} {i : Nat} {u : Unit}
    (hs : ScopeBelow s.nextId s.scope) (h : symCheckEnums arena i keys s = .ok (u, s')) :
    Records s [] [] s' := by
  induction keys generalizing s i with
  | nil =>
      obtain rfl := symCheckEnums_nil_eq_ok.mp h
      exact Records.refl hs
  | cons key rest ih =>
      have hd : Records s [] [] (s.declare (constEntry key (arena s.nextId) i)) :=
        Records.declare hs rfl (by simp) rfl rfl (by simp [watchedIds])
      exact hd.trans (ih hd.below (symCheckEnums_cons_eq_ok.mp h))

theorem symCheckParams_records {params ps : List Param} (hs : ScopeBelow s.nextId s.scope)
    (h : symCheckParams arena typeEnv params s = .ok (ps, s')) : Records s [] [] s' := by
  induction params generalizing s ps with
  | nil =>
      rw [symCheckParams, pure_eq_ok] at h
      obtain ⟨rfl, rfl⟩ := h
      exact Records.refl hs
  | cons param rest ih =>
      obtain ⟨ts, ps', -, hrest, rfl⟩ := symCheckParams_cons_eq_ok.mp h
      have hd : Records s [] [] (s.declare (varEntry param.value ts (arena s.nextId))) :=
        Records.declare hs rfl (by simp) rfl rfl (by simp [watchedIds])
      exact hd.trans (ih hd.below hrest)

/-- The elements of a list record what each of them does. -/
theorem symCheckList_records {frame : Option FrameId} {l l' : List AstNode}
    (hl : ∀ node ∈ l, Recorded arena typeEnv node) (hs : ScopeBelow s.nextId s.scope)
    (h : symCheckList arena typeEnv frame l s = .ok (l', s')) :
    Records s (AstNode.introducedList l') (AstNode.resolvesToList l') s' := by
  induction l generalizing s l' with
  | nil =>
      rw [symCheckList, pure_eq_ok] at h
      obtain ⟨rfl, rfl⟩ := h
      exact Records.refl hs
  | cons node rest ih =>
      rw [symCheckList, bind_eq_ok] at h
      obtain ⟨n1, s1, h1, h⟩ := h
      rw [bind_eq_ok] at h
      obtain ⟨r1, s2, h2, h⟩ := h
      rw [pure_eq_ok] at h
      obtain ⟨rfl, rfl⟩ := h
      have hr := hl node List.mem_cons_self hs h1
      exact hr.trans (ih (fun node' hmem => hl node' (List.mem_cons_of_mem _ hmem)) hr.below h2)

/-- Two parts, one after the other. -/
theorem pair_records {frame : Option FrameId} {left right node' : AstNode}
    {f : AstNode → AstNode → AstNode} (hl : Recorded arena typeEnv left)
    (hr : Recorded arena typeEnv right) (hs : ScopeBelow s.nextId s.scope)
    (h : (do
      let left ← symCheck arena typeEnv frame left
      let right ← symCheck arena typeEnv frame right
      return f left right : Sema AstNode) s = .ok (node', s')) :
    ∃ left' right', node' = f left' right' ∧
      Records s (left'.introduced ++ right'.introduced)
        (left'.resolvesTo ++ right'.resolvesTo) s' := by
  rw [bind_eq_ok] at h
  obtain ⟨left', s1, h1, h⟩ := h
  rw [bind_eq_ok] at h
  obtain ⟨right', s2, h2, h⟩ := h
  rw [pure_eq_ok] at h
  obtain ⟨rfl, rfl⟩ := h
  have hleft := hl hs h1
  exact ⟨left', right', rfl, hleft.trans (hr hleft.below h2)⟩

/-- One part. -/
theorem single_records {frame : Option FrameId} {node node' : AstNode} {f : AstNode → AstNode}
    (hn : Recorded arena typeEnv node) (hs : ScopeBelow s.nextId s.scope)
    (h : (do return f (← symCheck arena typeEnv frame node) : Sema AstNode) s = .ok (node', s')) :
    ∃ part, node' = f part ∧ Records s part.introduced part.resolvesTo s' := by
  rw [bind_eq_ok] at h
  obtain ⟨part, s1, h1, h⟩ := h
  rw [pure_eq_ok] at h
  obtain ⟨rfl, rfl⟩ := h
  exact ⟨part, rfl, hn hs h1⟩

/-- **`sym_check` records what it comes to.** -/
theorem symCheck_records (node : AstNode) : Recorded arena typeEnv node := by
  -- on the tree, with the parts of a node in the order in which they are checked
  induction node with
  | intConst value =>
      intro frame s s' node' hs h
      rw [symCheck, pure_eq_ok] at h
      obtain ⟨rfl, rfl⟩ := h
      exact Records.refl hs
  | emptyExpr =>
      intro frame s s' node' hs h
      rw [symCheck, pure_eq_ok] at h
      obtain ⟨rfl, rfl⟩ := h
      exact Records.refl hs
  | null =>
      intro frame s s' node' hs h
      simp [symCheck] at h
  | ident value symbol =>
      intro frame s s' node' hs h
      rw [symCheck, symCheckIdent_eq_ok] at h
      obtain ⟨id, hid, rfl, rfl⟩ := h
      exact Records.use hs hid
  | enum value enums =>
      intro frame s s' node' hs h
      rw [symCheck, bind_eq_ok] at h
      obtain ⟨u, s1, h1, h⟩ := h
      rw [pure_eq_ok] at h
      obtain ⟨rfl, rfl⟩ := h
      exact symCheckEnums_records hs h1
  | varDec value type symbol =>
      intro frame s s' node' hs h
      rw [symCheck, symCheckVarDec_eq_ok] at h
      obtain ⟨_, ts, fid, f, _, _, _, rfl, rfl⟩ := h
      have hvar : Records s [⟨.declaration, value, some s.nextId⟩] []
          ((s.grow fid).declare (varEntry value ts f.size)) :=
        Records.declare hs rfl (by simp [varEntry]) rfl rfl (by simp [watchedIds, SemaState.grow])
      exact hvar
  | varDef value type expr symbol ih =>
      intro frame s s' node' hs h
      rw [symCheck, symCheckVarDef_eq_ok] at h
      obtain ⟨_, e1, s1, ts, fid, f, h1, _, _, _, rfl, rfl⟩ := h
      have hexpr := ih hs h1
      have hvar : Records s1 [⟨.definition, value, some s1.nextId⟩] []
          ((s1.watch.grow fid).declare (varEntry value ts f.size)) :=
        Records.declare hexpr.below rfl (by simp [varEntry]) rfl rfl
          (by simp [watchedIds, SemaState.grow, SemaState.watch])
      have hboth := hexpr.trans hvar
      rw [List.append_nil] at hboth
      exact hboth
  | funcDef value type body params symbol ih =>
      intro frame s s' node' hs h
      rw [symCheck, symCheckFuncDef_eq_ok] at h
      obtain ⟨_, ps, s1, ts, body', h1, _, hbody, rfl⟩ := h
      have hparams : Records s [] [] s1 :=
        (symCheckParams_records (s := s.pushFrame value) hs h1).congr rfl rfl rfl rfl rfl
      have hfunc : Records s1 [⟨.function, value, some s1.nextId⟩] []
          (s1.watch.declare (funcEntry value ts (arena s1.nextId) ps s.frames.length)) :=
        Records.declare hparams.below rfl (by simp [funcEntry]) rfl rfl
          (by simp [watchedIds, SemaState.watch])
      exact hparams.trans (hfunc.trans (ih hfunc.below hbody))
  | funcCall value args symbol ih =>
      intro frame s s' node' hs h
      rw [symCheck, symCheckFuncCall_eq_ok] at h
      obtain ⟨id, e, ps, args', hid, _, _, _, h1, rfl⟩ := h
      have huse := Records.use hs hid
      exact huse.trans (symCheckList_records ih huse.below h1)
  | ret expr func ih =>
      intro frame s s' node' hs h
      rw [symCheck, symCheckRet_eq_ok] at h
      obtain ⟨fid, f, e1, _, _, h1, rfl⟩ := h
      have hr := ih hs h1
      exact hr
  | exprStmt expr ih =>
      intro frame s s' node' hs h
      obtain ⟨part, rfl, hr⟩ := single_records ih hs h
      exact hr
  | unaryExpr postfixExpr value opType ih =>
      intro frame s s' node' hs h
      obtain ⟨part, rfl, hr⟩ := single_records (f := fun n => .unaryExpr n value opType) ih hs h
      exact hr
  | lval kind target ih =>
      intro frame s s' node' hs h
      obtain ⟨part, rfl, hr⟩ := single_records ih hs h
      exact hr
  | binExp value opType left right ihl ihr =>
      intro frame s s' node' hs h
      obtain ⟨left', right', rfl, hr⟩ := pair_records ihl ihr hs h
      exact hr
  | varAsgn target rval iht ihr =>
      intro frame s s' node' hs h
      obtain ⟨target', rval', rfl, hr⟩ := pair_records iht ihr hs h
      exact hr
  | while_ expr body ihe ihb =>
      intro frame s s' node' hs h
      obtain ⟨expr', body', rfl, hr⟩ := pair_records ihe ihb hs h
      exact hr
  | compStmt body ih =>
      intro frame s s' node' hs h
      rw [symCheck, inChildScope_eq_ok] at h
      obtain ⟨s2, h, rfl⟩ := h
      rw [bind_eq_ok] at h
      obtain ⟨body', s1, h1, h⟩ := h
      rw [pure_eq_ok] at h
      obtain ⟨rfl, rfl⟩ := h
      exact (symCheckList_records ih hs.enter h1).child
  | for_ init cond step body ihi ihc ihs ihb =>
      intro frame s s' node' hs h
      rw [symCheck, inChildScope_eq_ok] at h
      obtain ⟨s2, h, rfl⟩ := h
      rw [bind_eq_ok] at h
      obtain ⟨init', s1, h1, h⟩ := h
      rw [bind_eq_ok] at h
      obtain ⟨cond', s3, h3, h⟩ := h
      rw [bind_eq_ok] at h
      obtain ⟨step', s4, h4, h⟩ := h
      rw [bind_eq_ok] at h
      obtain ⟨body', s5, h5, h⟩ := h
      rw [pure_eq_ok] at h
      obtain ⟨rfl, rfl⟩ := h
      have hinit := ihi hs.enter h1
      have hcond := ihc hinit.below h3
      have hstep := ihs hcond.below h4
      exact (hinit.trans (hcond.trans (hstep.trans (ihb hstep.below h5)))).child
  | ifElse ifExpr ifBody elseBody ihc ihb ihe =>
      intro frame s s' node' hs h
      rw [symCheck, bind_eq_ok] at h
      obtain ⟨body', s1, h1, h⟩ := h
      rw [bind_eq_ok] at h
      obtain ⟨cond', s2, h2, h⟩ := h
      have hbody := ihb hs h1
      have hcond := ihc hbody.below h2
      by_cases hnull : elseBody.nonNull = true
      · rw [if_pos hnull, bind_eq_ok] at h
        obtain ⟨else', s3, h3, h⟩ := h
        rw [pure_eq_ok] at h
        obtain ⟨rfl, rfl⟩ := h
        exact hbody.trans (hcond.trans (ihe hcond.below h3))
      · rw [if_neg hnull, pure_eq_ok] at h
        obtain ⟨rfl, rfl⟩ := h
        cases elseBody with
        | null => exact hbody.trans (hcond.trans (Records.refl hcond.below))
        | _ => exact absurd rfl hnull

/-! ### Warnings

`warn_unused` goes through the list of symbols when the whole program has been checked.
-/

theorem warnUnused_cons {entries : List SymTabEntry} {id : SymId} {ids : List SymId}
    {e : SymTabEntry} (he : entries[id]? = some e) :
    warnUnused entries (id :: ids)
      = (if e.isUsed = false ∧ e.key ≠ "main" then [e.key] else []) ++ warnUnused entries ids := by
  rw [warnUnused, List.filterMap_cons, he, ← warnUnused]
  by_cases h : e.isUsed = false ∧ e.key ≠ "main"
  · simp [h]
  · rw [if_neg h]
    simp only [Bool.and_eq_true, Bool.not_eq_true', decide_eq_true_eq, if_neg h]
    rfl

/-- The names of the unused functions and variables that `warn_unused` does not pass over. -/
theorem warnUnused_eq {ds : List Introduced} {us : List (Option SymId)}
    (h : Records SemaState.initial ds us s) : warnUnused s.entries s.symbols
      = (ds.filter fun d => d.kind ≠ .declaration ∧ d.symbol ∉ us ∧
        d.name ≠ "main").map Introduced.name := by
  have hsym : s.symbols = watchedIds ds := h.symbols
  have hds : ∀ d ∈ ds, ∃ (id : Nat) (e : SymTabEntry), d.symbol = some id ∧
    s.entries[id]? = some e ∧
      e.key = d.name ∧ (e.isUsed = true ↔ d.symbol ∈ us) := by
    intro d hd
    obtain ⟨id, e, hid, he, hk⟩ := h.introduced d hd
    refine ⟨id, e, hid, he, hk, ?_⟩
    have hused := h.used id
    simp only [SemaState.Used, he, SemaState.initial, List.getElem?_nil] at hused
    simpa [hid] using hused
  rw [hsym]
  clear h hsym
  induction ds with
  | nil => rfl
  | cons d ds ih =>
      obtain ⟨id, e, hid, he, hk, hmark⟩ := hds d List.mem_cons_self
      have ih := ih fun d' hd' => hds d' (List.mem_cons_of_mem _ hd')
      rw [List.filter_cons]
      by_cases hkind : d.kind = .declaration
      · rw [if_neg (by simp [hkind]), ← ih, watchedIds, List.filterMap_cons, if_pos hkind,
          watchedIds]
      · rw [watchedIds, List.filterMap_cons, if_neg hkind, hid]
        show warnUnused s.entries (id :: watchedIds ds) = _
        rw [warnUnused_cons he, ih, hk, ← hid]
        have hmark' : e.isUsed = false ↔ d.symbol ∉ us := by rw [← hmark, Bool.not_eq_true]
        simp only [hmark']
        by_cases h : d.symbol ∉ us ∧ d.name ≠ "main"
        · rw [if_pos h, if_pos (by simpa [hkind] using h)]
          simp
        · rw [if_neg h, if_neg (by simpa [hkind] using h)]
          simp

/--
Of the elements that pass `q` those that pass `p` as well are all, just in case their images
are as many.
-/
theorem filter_map_perm_iff {α β : Type} {p q : α → Prop} [DecidablePred p] [DecidablePred q]
    {f : α → β} {l : List α} (hpq : ∀ a ∈ l, p a → q a) :
    ((l.filter p).map f).Perm ((l.filter q).map f) ↔ ∀ a ∈ l, q a → p a := by
  constructor
  · intro hperm a ha hq
    have hp : l.filter p = (l.filter q).filter p := by
      rw [List.filter_filter]
      refine List.filter_congr fun a ha => ?_
      by_cases h : p a
      · simp [h, hpq a ha h]
      · simp [h]
    have hlen := hperm.length_eq
    rw [List.length_map, List.length_map, hp, List.length_filter_eq_length_iff] at hlen
    exact of_decide_eq_true (hlen a (List.mem_filter.mpr ⟨ha, decide_eq_true hq⟩))
  · intro hqp
    have heq : l.filter p = l.filter q :=
      List.filter_congr fun a ha => decide_eq_decide.mpr ⟨hpq a ha, hqp a ha⟩
    rw [heq]

/--
**The warnings are those that ought to be there just in case no unused variable is without a
value or is called `main`.**
-/
theorem warnings_iff {uninit : Int} {arena : SymId → Nat} {tokens : List Token} {r : SemaResult}
    (h : Accepted uninit arena tokens r) :
    r.warnings.Perm (unusedNames r.prog) ↔
      ∀ d ∈ AstNode.introducedList r.prog, d.Unused r.prog → ¬ d.PassedOver := by
  obtain ⟨prog, rest, -, hsema⟩ := h
  simp only [semaCheck, ExceptRun.bind_eq_ok, ExceptRun.pure_eq_ok] at hsema
  obtain ⟨⟨prog', st⟩, hrun, _, _, rfl⟩ := hsema
  have hr := symCheckList_records (fun node _ => symCheck_records node)
    (by simp [ScopeBelow, SemaState.initial, hashmapGet_new]) hrun
  show (warnUnused st.entries st.symbols).Perm (unusedNames prog') ↔ _
  rw [warnUnused_eq hr, unusedNames, filter_map_perm_iff]
  · refine forall_congr' fun d => forall_congr' fun _ => ?_
    rw [Introduced.Unused, Introduced.IsMain, Introduced.PassedOver]
    cases d.kind with
    | function => simp
    | definition =>
        have himp : ∀ {a b : Prop}, (a → a ∧ b) ↔ (a → b) := fun {a b} =>
          ⟨fun h ha => (h ha).2, fun h ha => ⟨ha, h ha⟩⟩
        simp [himp]
    | declaration => simp
  · rintro d _ ⟨_, hunused, hname⟩
    exact ⟨hunused, fun hmain => hname hmain.2⟩

/-- `int main() { int x = 1; int y; y = 2; return 0; }` -/
def definedTokens : List Token :=
  [tok .type "int", tok .ident "main", tok .lparen "(", tok .rparen ")", tok .lbrace "\x7b",
    tok .type "int", tok .ident "x", tok .assign "=", tok .num "1", tok .semicolon ";",
    tok .type "int", tok .ident "y", tok .semicolon ";",
    tok .ident "y", tok .assign "=", tok .num "2", tok .semicolon ";",
    tok .return_ "return", tok .num "0", tok .semicolon ";", tok .rbrace "\x7d"]

theorem warnings_iff_defined : ∃ r, Accepted 0 (fun _ => 0) definedTokens r ∧
    unusedNames r.prog = ["x"] ∧ r.warnings.Perm (unusedNames r.prog) := by
  have hacc : ∃ r, Accepted 0 (fun _ => 0) definedTokens r ∧ unusedNames r.prog = ["x"] ∧
      ∀ d ∈ AstNode.introducedList r.prog, d.Unused r.prog → ¬ d.PassedOver :=
    ⟨_, ⟨_, _, rfl, rfl⟩, rfl, by decide⟩
  obtain ⟨r, hacc, hnames, hclean⟩ := hacc
  exact ⟨r, hacc, hnames, (warnings_iff hacc).mpr hclean⟩

/-- `int main() { int x; return 0; }` -/
def declaredTokens : List Token :=
  [tok .type "int", tok .ident "main", tok .lparen "(", tok .rparen ")", tok .lbrace "\x7b",
    tok .type "int", tok .ident "x", tok .semicolon ";",
    tok .return_ "return", tok .num "0", tok .semicolon ";", tok .rbrace "\x7d"]

/-- `int f() { int main = 1; return 0; }  int main() { return f(); }` -/
def localMainTokens : List Token :=
  [tok .type "int", tok .ident "f", tok .lparen "(", tok .rparen ")", tok .lbrace "\x7b",
    tok .type "int", tok .ident "main", tok .assign "=", tok .num "1", tok .semicolon ";",
    tok .return_ "return", tok .num "0", tok .semicolon ";", tok .rbrace "\x7d",
    tok .type "int", tok .ident "main", tok .lparen "(", tok .rparen ")", tok .lbrace "\x7b",
    tok .return_ "return", tok .ident "f", tok .lparen "(", tok .rparen ")", tok .semicolon ";",
      tok .rbrace "\x7d"]

/-- Neither program gets the warning it ought to get. -/
theorem declaredTokens_not_warned :
    (∃ r, Accepted 0 (fun _ => 0) declaredTokens r ∧ unusedNames r.prog = ["x"] ∧
      ¬ r.warnings.Perm (unusedNames r.prog)) ∧
    ∃ r, Accepted 0 (fun _ => 0) localMainTokens r ∧ unusedNames r.prog = ["main"] ∧
      ¬ r.warnings.Perm (unusedNames r.prog) :=
  ⟨⟨_, ⟨_, _, rfl, rfl⟩, rfl, by decide⟩, ⟨_, ⟨_, _, rfl, rfl⟩, rfl, by decide⟩⟩

end MyLang
