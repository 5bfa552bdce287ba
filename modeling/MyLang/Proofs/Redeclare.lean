/-
What becomes of a declaration.

At every declaration that `sym_check` comes to, the tables say of the names in scope what
the environment of the site does.  The cases of a variable look for its name there before
they declare it, those of a parameter and of a constant do not.  What has been declared
hides what its name stood for, until its scope is left.

`ComesTo` (`Declaring.lean`) follows the analysis from the program down to one
declaration, with the checks of everything in front of it.  By induction on it the site is
sound: the checks in front have met their events (`Proofs/Kinds.lean`), so that the
environment of the site is the one the tables have.  From there each half of the statement
is about one check.

That a declaration is rejected is read off its events: the only one that stops with a
message about a taken name is the declaration's own, since the rest of the check is an
expression.  That it hides is a fact about scopes, and has a frame condition: the
statements behind it add the names they declare to the innermost scope, and leave the
scopes around alone.
-/
import MyLang.Declaring
import MyLang.Proofs.Kinds

namespace MyLang

open StateExcept

variable {arena : SymId → Nat} {typeEnv : HashMap TypeSpecifier} {s s' : SemaState}

/-! ### What statements leave of a scope

A statement opens and closes scopes of its own, and those are gone behind it.  What stays
are the names it declares in the scope it stands in: `Adds` bounds what has changed by
these names.
-/

/-- None but these names stand for something else, and the scopes around are what they were. -/
structure Adds (names : List String) (s s' : SemaState) : Prop where
  nonempty : s'.scope ≠ []
  outer : exitScope s'.scope = exitScope s.scope
  lookup : ∀ key, key ∉ names → scopeLookup s'.scope key = scopeLookup s.scope key

namespace Adds

variable {names names' : List String} {s1 : SemaState}

theorem of_scope (h : s.scope ≠ []) (hscope : s'.scope = s.scope) : Adds [] s s' := by
  refine ⟨by rw [hscope]; exact h, by rw [hscope], fun key _ => by rw [hscope]⟩

theorem trans (h : Adds names s s1) (h' : Adds names' s1 s') : Adds (names ++ names') s s' := by
  refine ⟨h'.nonempty, h'.outer.trans h.outer, fun key hkey => ?_⟩
  rw [List.mem_append, not_or] at hkey
  rw [h'.lookup key hkey.2, h.lookup key hkey.1]

theorem declare (h : s.scope ≠ []) (e : SymTabEntry) : Adds [e.key] s (s.declare e) := by
  refine ⟨?_, ?_, fun key hkey => ?_⟩
  · cases hs : s.scope with
    | nil => exact absurd hs h
    | cons symtab parents => simp [SemaState.declare, hs, scopeAdd]
  · cases hs : s.scope with
    | nil => exact absurd hs h
    | cons symtab parents => simp [SemaState.declare, hs, scopeAdd, exitScope]
  · rw [SemaState.declare, scopeLookup_scopeAdd h, if_neg (by simpa using hkey)]

end Adds

theorem SemaState.enter_scope_ne_nil (h : s.scope ≠ []) : s.enter.scope ≠ [] := by
  cases hs : s.scope with
  | nil => exact absurd hs h
  | cons symtab parents => simp [SemaState.enter, hs, enterScope]

theorem exitScope_enterScope {scope : Scope} (h : scope ≠ []) :
    exitScope (enterScope scope) = scope := by
  cases scope with
  | nil => exact absurd rfl h
  | cons symtab parents => rfl

/-- Nodes one after the other, if each of them keeps the scope. -/
private theorem symCheckList_scope {frame : Option FrameId} {l l' : List AstNode}
    (hl : ∀ node ∈ l, ∀ {s s' : SemaState} {node' : AstNode},
      symCheck arena typeEnv frame node s = .ok (node', s') → s'.scope = s.scope)
    (h : symCheckList arena typeEnv frame l s = .ok (l', s')) : s'.scope = s.scope := by
  induction l generalizing s s' l' with
  | nil =>
      rw [symCheckList, pure_eq_ok] at h
      rw [h.2]
  -- each node leaves the scope it finds, the first as well as the rest
  | cons node rest ih =>
      rw [symCheckList, bind_eq_ok] at h
      obtain ⟨node', s1, h1, h⟩ := h
      rw [bind_eq_ok] at h
      obtain ⟨rest', s2, h2, h⟩ := h
      obtain ⟨-, rfl⟩ := pure_eq_ok.mp h
      rw [ih (fun n hn => hl n (by simp [hn])) h2, hl node (by simp) h1]

/-- Expressions declare nothing. -/
theorem symCheck_scope {frame : Option FrameId} {node node' : AstNode} (he : node.isExpr = true)
    (h : symCheck arena typeEnv frame node s = .ok (node', s')) : s'.scope = s.scope := by
  induction node generalizing s s' node' with
  | intConst value =>
      rw [symCheck, pure_eq_ok] at h
      rw [h.2]
  | emptyExpr =>
      rw [symCheck, pure_eq_ok] at h
      rw [h.2]
  | ident value symbol =>
      obtain ⟨id, -, -, rfl⟩ := symCheckIdent_eq_ok.mp h
      rfl
  | funcCall value args symbol ih =>
      rw [AstNode.isExpr, AstNode.areExprs_iff] at he
      -- looking a name up marks its entry as used, which is no change of scope
      obtain ⟨id, e, ps, args', -, -, -, -, hargs, -⟩ := symCheckFuncCall_eq_ok.mp h
      have hscope := symCheckList_scope (fun n hn {_ _ _} h => ih n hn (he n hn) h) hargs
      exact hscope
  | binExp value opType left right ihl ihr =>
      simp only [AstNode.isExpr, Bool.and_eq_true] at he
      rw [symCheck, bind_eq_ok] at h
      obtain ⟨left', s1, h1, h⟩ := h
      rw [bind_eq_ok] at h
      obtain ⟨right', s2, h2, h⟩ := h
      obtain ⟨-, rfl⟩ := pure_eq_ok.mp h
      rw [ihr he.2 h2, ihl he.1.2 h1]
  | unaryExpr postfixExpr value opType ih =>
      simp only [AstNode.isExpr, Bool.and_eq_true] at he
      rw [symCheck, bind_eq_ok] at h
      obtain ⟨expr', s1, h1, h⟩ := h
      obtain ⟨-, rfl⟩ := pure_eq_ok.mp h
      exact ih he.2 h1
  | varAsgn target rval _ ihr =>
      obtain ⟨⟨name, symbol, rfl⟩, hrval⟩ := AstNode.isExpr_varAsgn.mp he
      rw [symCheck, bind_eq_ok] at h
      obtain ⟨target', s1, h1, h⟩ := h
      rw [bind_eq_ok] at h
      obtain ⟨rval', s2, h2, h⟩ := h
      obtain ⟨-, rfl⟩ := pure_eq_ok.mp h
      rw [symCheck, bind_eq_ok] at h1
      obtain ⟨ident', s3, h3, h1⟩ := h1
      obtain ⟨-, rfl⟩ := pure_eq_ok.mp h1
      obtain ⟨id, -, -, rfl⟩ := symCheckIdent_eq_ok.mp h3
      rw [ihr hrval h2]
      rfl
  | _ => simp [AstNode.isExpr] at he

theorem symCheckEnums_adds {keys : List String} {i : Nat} {u : Unit} (hs : s.scope ≠ [])
    (h : symCheckEnums arena i keys s = .ok (u, s')) : Adds keys s s' := by
  induction keys generalizing s i with
  | nil =>
      obtain rfl := symCheckEnums_nil_eq_ok.mp h
      exact Adds.of_scope hs rfl
  | cons key rest ih =>
      have hd := Adds.declare hs (constEntry key (arena s.nextId) i)
      exact hd.trans (ih hd.nonempty (symCheckEnums_cons_eq_ok.mp h))

/-- Nodes one after the other, if each of them adds its names. -/
theorem symCheckList_adds {frame : Option FrameId} {l l' : List AstNode}
    (hl : ∀ node ∈ l, ∀ {s s' : SemaState} {node' : AstNode}, s.scope ≠ [] →
      symCheck arena typeEnv frame node s = .ok (node', s') → Adds node.names s s')
    (hs : s.scope ≠ []) (h : symCheckList arena typeEnv frame l s = .ok (l', s')) :
    Adds (l.flatMap AstNode.names) s s' := by
  induction l generalizing s s' l' with
  | nil =>
      rw [symCheckList, pure_eq_ok] at h
      obtain ⟨-, rfl⟩ := h
      exact Adds.of_scope hs rfl
  | cons node rest ih =>
      rw [symCheckList, bind_eq_ok] at h
      obtain ⟨node', s1, h1, h⟩ := h
      rw [bind_eq_ok] at h
      obtain ⟨rest', s2, h2, h⟩ := h
      obtain ⟨-, rfl⟩ := pure_eq_ok.mp h
      have hn := hl node (by simp) hs h1
      rw [List.flatMap_cons]
      exact hn.trans (ih (fun n hn => hl n (by simp [hn])) hn.nonempty h2)

/-- A child scope leaves nothing behind. -/
theorem inChildScope_adds {body : Sema AstNode} {node' : AstNode} (hs : s.scope ≠ [])
    (hbody : ∀ {s1 : SemaState}, body s.enter = .ok (node', s1) →
      exitScope s1.scope = exitScope s.enter.scope)
    (h : inChildScope body s = .ok (node', s')) : Adds [] s s' := by
  obtain ⟨s1, h1, rfl⟩ := inChildScope_eq_ok.mp h
  exact Adds.of_scope hs ((hbody h1).trans (exitScope_enterScope hs))

/-- **Statements add the names they declare to the innermost scope, and nothing else.** -/
theorem symCheck_adds {frame : Option FrameId} {node node' : AstNode} (hn : node.isStmt = true)
    (hs : s.scope ≠ []) (h : symCheck arena typeEnv frame node s = .ok (node', s')) :
    Adds node.names s s' := by
  induction node generalizing s s' node' with
  | varDec value type symbol =>
      obtain ⟨-, ts, fid, f, -, -, -, -, rfl⟩ := symCheckVarDec_eq_ok.mp h
      -- the frame grows by a slot, and the name goes into the innermost scope
      have h1 : Adds [] s (s.grow fid) := Adds.of_scope hs rfl
      exact h1.trans (Adds.declare h1.nonempty (varEntry value ts f.size))
  | varDef value type expr symbol _ =>
      obtain ⟨-, expr', s1, ts, fid, f, hexpr, -, -, -, -, rfl⟩ := symCheckVarDef_eq_ok.mp h
      have hscope := symCheck_scope hn hexpr
      have h1 : Adds [] s (s1.watch.grow fid) := Adds.of_scope hs hscope
      exact h1.trans (Adds.declare h1.nonempty (varEntry value ts f.size))
  | enum value enums =>
      rw [symCheck, bind_eq_ok] at h
      obtain ⟨u, s1, h1, h⟩ := h
      obtain ⟨-, rfl⟩ := pure_eq_ok.mp h
      exact symCheckEnums_adds hs h1
  | compStmt body ih =>
      rw [AstNode.isStmt, AstNode.areStmts_iff] at hn
      rw [symCheck] at h
      -- the scope of the block is left again, and its names with it
      refine inChildScope_adds hs (fun {s1} h1 => ?_) h
      rw [bind_eq_ok] at h1
      obtain ⟨body', s2, h2, h1⟩ := h1
      obtain ⟨-, rfl⟩ := pure_eq_ok.mp h1
      exact (symCheckList_adds (fun n hmem {_ _ _} => ih n hmem (hn n hmem))
        (SemaState.enter_scope_ne_nil hs) h2).outer
  | ifElse ifExpr ifBody elseBody _ ihb ihe =>
      simp only [AstNode.isStmt, Bool.and_eq_true, Bool.or_eq_true] at hn
      rw [symCheck, bind_eq_ok] at h
      obtain ⟨ifBody', s1, h1, h⟩ := h
      rw [bind_eq_ok] at h
      obtain ⟨ifExpr', s2, h2, h⟩ := h
      have hbody := ihb hn.1.2 hs h1
      have hexpr := hbody.trans (Adds.of_scope hbody.nonempty (symCheck_scope hn.1.1 h2))
      rw [List.append_nil] at hexpr
      rw [AstNode.names]
      -- the bodies of an `if` have no scope of their own unless they are blocks
      by_cases helse : elseBody.nonNull = true
      · rw [if_pos helse, bind_eq_ok] at h
        obtain ⟨elseBody', s3, h3, h⟩ := h
        obtain ⟨-, rfl⟩ := pure_eq_ok.mp h
        have hstmt : elseBody.isStmt = true := hn.2.resolve_left (by simp [helse])
        exact hexpr.trans (ihe hstmt hexpr.nonempty h3)
      · rw [if_neg helse] at h
        obtain ⟨-, rfl⟩ := pure_eq_ok.mp h
        obtain rfl := AstNode.eq_null helse
        exact hexpr.trans (Adds.of_scope hexpr.nonempty rfl)
  | while_ expr body _ ihb =>
      simp only [AstNode.isStmt, Bool.and_eq_true] at hn
      rw [symCheck, bind_eq_ok] at h
      obtain ⟨expr', s1, h1, h⟩ := h
      rw [bind_eq_ok] at h
      obtain ⟨body', s2, h2, h⟩ := h
      obtain ⟨-, rfl⟩ := pure_eq_ok.mp h
      have hexpr := Adds.of_scope hs (symCheck_scope hn.1 h1)
      exact hexpr.trans (ihb hn.2 hexpr.nonempty h2)
  | for_ init cond step body ihi _ _ ihb =>
      simp only [AstNode.isStmt, Bool.and_eq_true, Bool.or_eq_true] at hn
      obtain ⟨⟨⟨hinit, hcond⟩, hstep⟩, hbody⟩ := hn
      rw [symCheck] at h
      refine inChildScope_adds hs (fun {s4} h => ?_) h
      rw [bind_eq_ok] at h
      obtain ⟨init', s1, h1, h⟩ := h
      rw [bind_eq_ok] at h
      obtain ⟨cond', s2, h2, h⟩ := h
      rw [bind_eq_ok] at h
      obtain ⟨step', s3, h3, h⟩ := h
      rw [bind_eq_ok] at h
      obtain ⟨body', s5, h4, h⟩ := h
      obtain ⟨-, rfl⟩ := pure_eq_ok.mp h
      have henter := SemaState.enter_scope_ne_nil hs
      -- a header declares in the scope of the loop, or is an expression
      have ha : Adds init.names s.enter s1 := by
        rcases hinit with hinit | hinit
        · exact ihi (AstNode.isStmt_of_isDecl hinit) henter h1
        · rw [AstNode.names_of_isExpr hinit]
          exact Adds.of_scope henter (symCheck_scope hinit h1)
      have hb := ha.trans (Adds.of_scope ha.nonempty (symCheck_scope hcond h2))
      have hc := hb.trans (Adds.of_scope hb.nonempty (symCheck_scope hstep h3))
      exact (hc.trans (ihb hbody hc.nonempty h4)).outer
  | ret expr func _ =>
      obtain ⟨fid, f, expr', -, -, hexpr, -⟩ := symCheckRet_eq_ok.mp h
      exact Adds.of_scope hs (symCheck_scope hn hexpr)
  | exprStmt expr _ =>
      rw [symCheck, bind_eq_ok] at h
      obtain ⟨expr', s1, h1, h⟩ := h
      obtain ⟨-, rfl⟩ := pure_eq_ok.mp h
      exact Adds.of_scope hs (symCheck_scope hn h1)
  | _ => simp [AstNode.isStmt] at hn

/-! ### Sites

One case of `ComesTo` for each way down: into the elements of a block, the bodies of `if`,
`while` and `for`, the header of a `for`, the parameters and the body of a function.  In
each of them the checks that have been passed give the environment of the site.
-/

/-- The environment of a site is that of its state, and has the names declared there. -/
structure Site.Sound (σ : Site) : Prop where
  kinded : ∃ outer, Kinded outer σ.env σ.state
  here : ∀ x ∈ σ.here, (σ.env.lookup x).isSome = true

/-- A site inside a function. -/
def Site.Framed (σ : Site) : Prop := ∃ fid, σ.frame = some fid ∧
    (σ.state.frames[fid]?).isSome = true

/-- A variable is declared inside a function, and its initialiser is an expression. -/
def Declaration.Placed (σ : Site) : Declaration → Prop
  | .varDec _ _ => σ.Framed
  | .varDef _ _ expr => σ.Framed ∧ expr.isExpr = true
  | _ => True

theorem KindEnv.lookup_append_isSome {declared env : KindEnv} {x : String} :
    ((declared ++ env).lookup x).isSome = true ↔
      x ∈ declared.map Prod.fst ∨ (env.lookup x).isSome = true := by
  induction declared with
  | nil => simp
  | cons p rest ih =>
      rw [List.cons_append, List.lookup_cons, List.map_cons, List.mem_cons, or_assoc, ← ih]
      by_cases hx : x = p.1
      · simp [hx]
      · have hbeq : (x == p.1) = false := by simpa using hx
        simp [hx, hbeq]

theorem AstNode.kindsAfter_append (env : KindEnv) (l : List AstNode) :
    AstNode.kindsAfter env l = AstNode.kindsAfter [] l ++ env := by
  suffices h : ∀ env1 env2, AstNode.kindsAfter (env1 ++ env2) l = AstNode.kindsAfter env1 l ++ env2
    from h [] env
  induction l with
  | nil => exact fun _ _ => rfl
  | cons node rest ih =>
      intro env1 env2
      rw [AstNode.kindsAfter, List.foldl_cons, ← List.append_assoc]
      exact ih (node.kinds ++ env1) env2

namespace Site.Sound

variable {σ : Site} {declared : KindEnv} {outer : Scope}

theorem behind (h : σ.Sound) (hk : Kinded outer (declared ++ σ.env) s) :
    (σ.behind s declared).Sound := by
  refine ⟨⟨outer, hk⟩, fun x hx => KindEnv.lookup_append_isSome.mpr ?_⟩
  rcases List.mem_append.mp hx with hx | hx
  · exact Or.inl hx
  · exact Or.inr (h.here x hx)

theorem opened (hk : Kinded outer σ.env s) : (σ.opened s).Sound :=
  ⟨⟨outer, hk⟩, fun _ hx => absurd hx List.not_mem_nil⟩

/-- Behind some declarations of a scope that was opened with the same names. -/
theorem openedBehind (hk : Kinded outer (declared ++ σ.env) s) :
    ((σ.opened s).behind s declared).Sound := by
  refine ⟨⟨outer, hk⟩, fun x hx => KindEnv.lookup_append_isSome.mpr (Or.inl ?_)⟩
  rcases List.mem_append.mp hx with hx | hx
  · exact hx
  · exact absurd hx List.not_mem_nil

end Site.Sound

/-- **What checking a statement comes to is at a sound site.** -/
theorem ComesTo.sound {node : AstNode} {σ σ' : Site} {d : Declaration}
    (hr : ComesTo arena typeEnv node σ d σ') (hn : node.isStmt = true) (h : σ.Sound)
    (hf : σ.Framed) : σ'.Sound ∧ d.Placed σ' := by
  induction hr with
  | varDec => exact ⟨h, hf⟩
  | varDef => exact ⟨h, hf, hn⟩
  | @enumConst value before key after σ s1 hrun =>
      obtain ⟨outer, hk⟩ := h.kinded
      obtain ⟨fid, -, hfid⟩ := hf
      obtain ⟨-, hc⟩ := (symCheckEnums_meets hk hfid).of_ok hrun
      exact ⟨h.behind hc.kinded, trivial⟩
  | @compStmt before before' node after σ s1 d σ' hrun _ ih =>
      rw [AstNode.isStmt, AstNode.areStmts_iff] at hn
      obtain ⟨outer, hk⟩ := h.kinded
      obtain ⟨fid, hframe, hfid⟩ := hf
      rw [hframe] at hrun
      -- the statements of the block in front of the node were checked in the child scope
      have hmeets :
          Meets Event.stop (symCheckList arena typeEnv (some fid) before) σ.state.enter _ _ :=
        symCheckList_meets (fun n hmem {s env} hs hf => symCheck_meets
          (hn n (by simp [hmem])) hs hf) hk.enter hfid
      obtain ⟨-, -, hc⟩ := hmeets.of_ok hrun
      have hkinded := hc.kinded
      rw [AstNode.kindsAfter_append] at hkinded
      exact ih (hn node (by simp)) (Site.Sound.openedBehind hkinded) ⟨fid, hframe, hc.frame⟩
  | ifBody _ ih =>
      simp only [AstNode.isStmt, Bool.and_eq_true] at hn
      exact ih hn.1.2 h hf
  | @elseBody ifExpr ifExpr' ifBody ifBody' elseBody σ s1 s2 d σ' hbody hexpr helse _ ih =>
      simp only [AstNode.isStmt, Bool.and_eq_true, Bool.or_eq_true] at hn
      obtain ⟨outer, hk⟩ := h.kinded
      obtain ⟨fid, hframe, hfid⟩ := hf
      rw [hframe] at hbody hexpr
      -- `sym_check` looks at the body of an `if` before its condition
      obtain ⟨-, hc⟩ := (symCheck_meets hn.1.2 hk hfid).of_ok hbody
      obtain ⟨-, hc'⟩ := (symCheck_meets_expr hn.1.1 hc.kinded hc.frame).of_ok hexpr
      exact ih (hn.2.resolve_left (by simp [helse])) (h.behind hc'.kinded) ⟨fid, hframe, hc'.frame⟩
  | @whileBody expr expr' body σ s1 d σ' hexpr _ ih =>
      simp only [AstNode.isStmt, Bool.and_eq_true] at hn
      obtain ⟨outer, hk⟩ := h.kinded
      obtain ⟨fid, hframe, hfid⟩ := hf
      rw [hframe] at hexpr
      obtain ⟨-, hc⟩ := (symCheck_meets_expr hn.1 hk hfid).of_ok hexpr
      exact ih hn.2 (h.behind hc.kinded) ⟨fid, hframe, hc.frame⟩
  | @forInit init cond step body σ d σ' hd ih =>
      simp only [AstNode.isStmt, Bool.and_eq_true, Bool.or_eq_true] at hn
      obtain ⟨outer, hk⟩ := h.kinded
      obtain ⟨fid, hframe, hfid⟩ := hf
      rcases hn.1.1.1 with hinit | hinit
      · exact ih (AstNode.isStmt_of_isDecl hinit) (Site.Sound.opened hk.enter) ⟨fid, hframe, hfid⟩
      · -- an expression declares nothing
        cases hd <;> simp [AstNode.isExpr] at hinit
  | @forBody init init' cond cond' step step' body σ s1 s2 s3 d σ' hinit hcond hstep _ ih =>
      simp only [AstNode.isStmt, Bool.and_eq_true, Bool.or_eq_true] at hn
      obtain ⟨outer, hk⟩ := h.kinded
      obtain ⟨fid, hframe, hfid⟩ := hf
      rw [hframe] at hinit hcond hstep
      have hc : Kinded σ.state.scope (init.kinds ++ σ.env) s1 ∧
          (s1.frames[fid]?).isSome = true := by
        rcases hn.1.1.1 with hi | hi
        · obtain ⟨-, hc⟩ := (symCheck_meets (AstNode.isStmt_of_isDecl hi) hk.enter hfid).of_ok hinit
          exact ⟨hc.kinded, hc.frame⟩
        · obtain ⟨-, hc⟩ := (symCheck_meets_expr hi hk.enter hfid).of_ok hinit
          rw [kinds_of_isExpr hi]
          exact ⟨hc.kinded, hc.frame⟩
      obtain ⟨-, hc2⟩ := (symCheck_meets_expr hn.1.1.2 hc.1 hc.2).of_ok hcond
      obtain ⟨-, hc3⟩ := (symCheck_meets_expr hn.1.2 hc2.kinded hc2.frame).of_ok hstep
      exact ih hn.2 (Site.Sound.openedBehind hc3.kinded) ⟨fid, hframe, hc3.frame⟩
  | param => simp [AstNode.isStmt] at hn
  | funcBody => simp [AstNode.isStmt] at hn

/-- What checking a function comes to is at a sound site. -/
theorem ComesTo.sound_funcDef {value type : String} {body : List AstNode} {params : List Param}
    {symbol : Option SymId} {σ σ' : Site} {d : Declaration}
    (hr : ComesTo arena typeEnv (.funcDef value type (.compStmt body) params symbol) σ d σ')
    (hbody : AstNode.areStmts body = true) (h : σ.Sound) : σ'.Sound ∧ d.Placed σ' := by
  obtain ⟨outer, hk⟩ := h.kinded
  have hf : ((σ.state.pushFrame value).frames[σ.state.frames.length]?).isSome = true := by
    simp [SemaState.pushFrame]
  have hpush : Kinded outer σ.env (σ.state.pushFrame value) := hk.keep rfl (KeepsKinds.refl _)
  cases hr with
  -- the parameters in front of it are in scope; their function is not yet
  | @param _ _ _ before ps p after _ _ s1 hscope hrun =>
      obtain ⟨-, -, hc⟩ := (symCheckParams_meets hpush hf).of_ok hrun
      exact ⟨Site.Sound.openedBehind hc.kinded, trivial⟩
  -- in the body the function is in scope, and its parameters still are
  | @funcBody _ _ _ _ ps _ ts _ s1 _ _ hscope hparams htype hd =>
      obtain ⟨-, hlen, hc⟩ := (symCheckParams_meets hpush hf).of_ok hparams
      have hentry : (funcEntry value ts (arena s1.nextId) ps σ.state.frames.length).kind =
          some (.function params.length) := by rw [← hlen]; rfl
      have hf1 : (s1.watch.frames[σ.state.frames.length]?).isSome = true := hc.frame
      have hdecl := hc.declare hf1 rfl rfl hentry
      refine hd.sound hbody ⟨⟨outer, hdecl.kinded⟩, fun _ hx => absurd hx List.not_mem_nil⟩ ?_
      exact ⟨_, rfl, hdecl.frame⟩

/-- **What checking a program comes to is at a sound site.** -/
theorem ProgComesTo.sound {prog : List AstNode} {σ : Site} {d : Declaration}
    (hr : ProgComesTo arena typeEnv prog d σ) (hprog : ∀ n ∈ prog, n.isFuncDef = true) :
    σ.Sound ∧ d.Placed σ := by
  obtain ⟨rfl, hrun, hd⟩ := hr
  rename_i before before' node after s1
  obtain ⟨-, hk, -⟩ :=
    (symCheckProg_meets (fun n hn => hprog n (by simp [hn])) Kinded.initial).of_ok hrun
  obtain ⟨value, type, body, params, symbol, rfl⟩ := AstNode.eq_funcDef (hprog node (by simp))
  have hbody : AstNode.areStmts body = true :=
    hprog (.funcDef value type (.compStmt body) params symbol) (by simp)
  exact hd.sound_funcDef hbody ⟨⟨[], hk⟩, fun _ hx => absurd hx List.not_mem_nil⟩

/-! ### Declarations that are not accepted

The check of a declaration alone is compared with its events.  A constant has no event
that could stop, and a parameter only the one of its type.
-/

section Dropped

variable {α : Type} {x : Sema α} {e : SemaError}

private theorem dropped_eq_error : (do let _ ← x : Sema Unit) s = .error e ↔ x s = .error e := by
  rw [bind_eq_error]
  refine ⟨fun h => h.resolve_right ?_, Or.inl⟩
  rintro ⟨a, s1, -, h⟩
  change (Except.ok ((), s1) : Except SemaError (Unit × SemaState)) = .error e at h
  simp at h

private theorem dropped_eq_ok :
    (do let _ ← x : Sema Unit) s = .ok ((), s') ↔ ∃ a, x s = .ok (a, s') := by
  rw [bind_eq_ok]
  refine exists_congr fun a => ?_
  simp only [pure_eq_ok, true_and, exists_eq_right']

end Dropped

/-- A constant is declared in any case. -/
theorem symCheckEnums_single (key : String) (i : Nat) (s : SemaState) :
    symCheckEnums arena i [key] s = .ok ((), s.declare (constEntry key (arena s.nextId) i)) :=
  symCheckEnums_cons_eq_ok.mpr (symCheckEnums_nil_eq_ok.mpr rfl)

/-- A parameter is declared if there is its type. -/
theorem symCheckParams_single (p : Param) (s : SemaState) :
    symCheckParams arena typeEnv [p] s = match hashmapGet typeEnv p.type with
      | some ts => .ok ([{ p with symbol := some s.nextId }],
        s.declare (varEntry p.value ts (arena s.nextId)))
      | none => .error .undefined := by
  cases hts : hashmapGet typeEnv p.type with
  | none =>
      rw [symCheckParams, typeSpecifier, hts]
      rfl
  | some ts =>
      rw [symCheckParams, typeSpecifier, hts]
      rfl

/-- An event that stops with the message that a name is taken is a declaration. -/
theorem Event.stop_ofRedeclaration {event : Event} {e : SemaError} (h : event.stop = some e)
    (he : e.ofRedeclaration = true) : ∃ taken, event = .declare e taken := by
  unfold Event.stop at h
  split at h
  case h_1 error taken =>
      by_cases ht : taken = true
      · rw [if_pos ht] at h
        exact ⟨taken, by rw [Option.some.inj h]⟩
      · rw [if_neg ht] at h
        simp at h
  all_goals
    -- the others stop with another message
    first | (split_ifs at h; obtain rfl := Option.some.inj h) | obtain rfl := Option.some.inj h
    simp [SemaError.ofRedeclaration] at he

theorem AstNode.mem_eventsList {event : Event} {l : List AstNode} {env : KindEnv}
    (h : event ∈ AstNode.eventsList typeEnv env l) :
    ∃ node ∈ l, ∃ env', event ∈ node.events typeEnv env' := by
  induction l generalizing env with
  | nil => simp [AstNode.eventsList] at h
  | cons node rest ih =>
      rw [AstNode.eventsList, List.mem_append] at h
      rcases h with h | h
      · exact ⟨node, by simp, env, h⟩
      · obtain ⟨n, hn, env', h⟩ := ih h
        exact ⟨n, by simp [hn], env', h⟩

/-- Nothing is declared by an expression. -/
theorem AstNode.declare_not_mem_events {node : AstNode} (he : node.isExpr = true) (env : KindEnv)
    (e : SemaError) (taken : Bool) : Event.declare e taken ∉ node.events typeEnv env := by
  induction node generalizing env with
  | ident value symbol => simp [AstNode.events]
  | funcCall value args symbol ih =>
      rw [AstNode.isExpr, AstNode.areExprs_iff] at he
      intro h
      rcases List.mem_cons.mp h with h | h
      · simp at h
      · obtain ⟨n, hn, env', h⟩ := AstNode.mem_eventsList h
        exact ih n hn (he n hn) env' h
  | binExp value opType left right ihl ihr =>
      simp only [AstNode.isExpr, Bool.and_eq_true] at he
      rw [AstNode.events, List.mem_append, not_or]
      exact ⟨ihl he.1.2 env, ihr he.2 env⟩
  | unaryExpr postfixExpr value opType ih =>
      simp only [AstNode.isExpr, Bool.and_eq_true] at he
      exact ih he.2 env
  | varAsgn target rval _ ihr =>
      obtain ⟨⟨name, symbol, rfl⟩, hrval⟩ := AstNode.isExpr_varAsgn.mp he
      rw [AstNode.events, List.mem_append, not_or, AstNode.events]
      exact ⟨by simp, ihr hrval env⟩
  | _ => simp [AstNode.events, AstNode.isExpr] at he ⊢

/-- Where nothing else is declared, the first event stops with such a message or none does. -/
theorem findSome_declare {error : SemaError} {taken : Bool} {rest : List Event}
    (herror : error.ofRedeclaration = true) (hrest : ∀ e taken, Event.declare e taken ∉ rest) :
    (∃ e, e.ofRedeclaration = true ∧ (.declare error taken :: rest).findSome? Event.stop = some e) ↔
      taken = true := by
  rw [List.findSome?_cons]
  by_cases htaken : taken = true
  · refine iff_of_true ⟨error, herror, ?_⟩ htaken
    rw [Event.stop, if_pos htaken]
  · -- the name is free, so a stop comes from the rest, which declares nothing
    refine iff_of_false ?_ htaken
    rintro ⟨e, he, h⟩
    rw [Event.stop, if_neg htaken] at h
    obtain ⟨event, hmem, hstop⟩ := List.exists_of_findSome?_eq_some h
    obtain ⟨t, rfl⟩ := Event.stop_ofRedeclaration hstop he
    exact hrest e t hmem

namespace Declaration

variable {σ : Site} {d : Declaration}

/-- The name of a variable is looked for in the environment. -/
def looksUp : Declaration → Bool
  | .varDec _ _ => true
  | .varDef _ _ _ => true
  | _ => false

/-- **A declaration stops the analysis if it is that of a variable whose name is in scope.** -/
theorem check_rejects (hs : σ.Sound) (hd : d.Placed σ) :
    (∃ e, e.ofRedeclaration = true ∧ d.check arena typeEnv σ.frame σ.state = .error e) ↔
      d.looksUp = true ∧ (σ.env.lookup d.name).isSome = true := by
  obtain ⟨outer, hk⟩ := hs.kinded
  cases d with
  | varDec value type =>
      obtain ⟨fid, hframe, hf⟩ := hd
      have hmeets :
          Meets Event.stop (symCheckVarDec arena typeEnv value type (some fid)) σ.state _ _ :=
        symCheckVarDec_meets hk hf
      simp only [check, hframe, dropped_eq_error, hmeets.error_iff, looksUp, true_and]
      exact findSome_declare rfl (by simp)
  | varDef value type expr =>
      obtain ⟨⟨fid, hframe, hf⟩, hexpr⟩ := hd
      have hmeets : Meets Event.stop (symCheckVarDef arena typeEnv value type (some fid)
          (symCheck arena typeEnv (some fid) expr)) σ.state _ _ :=
        symCheckVarDef_meets hk (symCheck_meets_expr hexpr hk hf)
      simp only [check, hframe, dropped_eq_error, hmeets.error_iff, looksUp, true_and]
      refine findSome_declare rfl fun e taken => ?_
      rw [List.mem_append, not_or]
      exact ⟨AstNode.declare_not_mem_events hexpr _ e taken, by simp⟩
  | param p =>
      refine iff_of_false ?_ (by simp [looksUp])
      rintro ⟨e, he, herr⟩
      rw [check, dropped_eq_error, symCheckParams_single] at herr
      split at herr
      · simp at herr
      · obtain rfl := Except.error.inj herr
        simp [SemaError.ofRedeclaration] at he
  | enumConst i key =>
      refine iff_of_false ?_ (by simp [looksUp])
      rintro ⟨e, -, herr⟩
      rw [check, symCheckEnums_single] at herr
      simp at herr

end Declaration

/-- Where a list is checked up to a node, an error of the node is one of the list. -/
theorem symCheckList_error {frame : Option FrameId} {before before' after : List AstNode}
    {node : AstNode} {s1 : SemaState} {e : SemaError}
    (h : symCheckList arena typeEnv frame before s = .ok (before', s1))
    (he : symCheck arena typeEnv frame node s1 = .error e) :
    symCheckList arena typeEnv frame (before ++ node :: after) s = .error e := by
  induction before generalizing s before' with
  | nil =>
      rw [symCheckList, pure_eq_ok] at h
      obtain ⟨-, rfl⟩ := h
      rw [List.nil_append, symCheckList]
      exact bind_eq_error.mpr (Or.inl he)
  | cons first rest ih =>
      rw [symCheckList, bind_eq_ok] at h
      obtain ⟨first', s2, h1, h⟩ := h
      rw [bind_eq_ok] at h
      obtain ⟨rest', s3, h2, h⟩ := h
      obtain ⟨-, rfl⟩ := pure_eq_ok.mp h
      rw [List.cons_append, symCheckList]
      exact bind_eq_error.mpr (Or.inr ⟨first', s2, h1, bind_eq_error.mpr (Or.inl (ih h2))⟩)

/-- Checking parameters stops at the first one that does. -/
theorem symCheckParams_error {before ps after : List Param} {p : Param} {s1 : SemaState}
    {e : SemaError} (h : symCheckParams arena typeEnv before s = .ok (ps, s1))
    (he : symCheckParams arena typeEnv [p] s1 = .error e) :
    symCheckParams arena typeEnv (before ++ p :: after) s = .error e := by
  induction before generalizing s ps with
  | nil =>
      rw [symCheckParams, pure_eq_ok] at h
      obtain ⟨-, rfl⟩ := h
      rw [symCheckParams_single] at he
      split at he
      · simp at he
      · rename_i hts
        rw [List.nil_append, symCheckParams, typeSpecifier, hts]
        exact he
  | cons first rest ih =>
      obtain ⟨ts, ps', hts, hrest, -⟩ := symCheckParams_cons_eq_ok.mp h
      rw [List.cons_append, symCheckParams, typeSpecifier, hts]
      simp only [derefPtr, pure_bind, makeSymtabEntry, bind_assoc, get_bind_apply,
        modify_bind_apply, addToScope]
      exact bind_eq_error.mpr (Or.inl (ih hrest))

theorem inChildScope_error {body : Sema AstNode} {e : SemaError} (h : body s.enter = .error e) :
    inChildScope body s = .error e := by
  simp only [inChildScope, modify_bind_apply]
  exact bind_eq_error.mpr (Or.inl h)

/-- **What stops the check of a declaration stops the check of the node it is come to in.** -/
theorem ComesTo.error {node : AstNode} {σ σ' : Site} {d : Declaration} {e : SemaError}
    (hr : ComesTo arena typeEnv node σ d σ')
    (he : d.check arena typeEnv σ'.frame σ'.state = .error e) :
    symCheck arena typeEnv σ.frame node σ.state = .error e := by
  induction hr with
  | varDec => exact dropped_eq_error.mp he
  | varDef => exact dropped_eq_error.mp he
  | enumConst h =>
      rw [Declaration.check, symCheckEnums_single] at he
      simp at he
  | compStmt h _ ih =>
      rw [symCheck]
      exact inChildScope_error (bind_eq_error.mpr (Or.inl (symCheckList_error h (ih he))))
  | ifBody _ ih =>
      rw [symCheck]
      exact bind_eq_error.mpr (Or.inl (ih he))
  | elseBody hbody hexpr helse _ ih =>
      rw [symCheck]
      refine bind_eq_error.mpr (Or.inr ⟨_, _, hbody, bind_eq_error.mpr (Or.inr ⟨_, _, hexpr, ?_⟩)⟩)
      rw [if_pos helse]
      exact bind_eq_error.mpr (Or.inl (ih he))
  | whileBody hexpr _ ih =>
      rw [symCheck]
      exact bind_eq_error.mpr (Or.inr ⟨_, _, hexpr, bind_eq_error.mpr (Or.inl (ih he))⟩)
  | forInit _ ih =>
      rw [symCheck]
      exact inChildScope_error (bind_eq_error.mpr (Or.inl (ih he)))
  | forBody hinit hcond hstep _ ih =>
      rw [symCheck]
      refine inChildScope_error (bind_eq_error.mpr (Or.inr ⟨_, _, hinit, ?_⟩))
      refine bind_eq_error.mpr (Or.inr ⟨_, _, hcond, bind_eq_error.mpr (Or.inr ⟨_, _, hstep, ?_⟩)⟩)
      exact bind_eq_error.mpr (Or.inl (ih he))
  | param hscope h =>
      rw [symCheck, symCheckFuncDef_free _ hscope]
      exact bind_eq_error.mpr (Or.inl (symCheckParams_error h (dropped_eq_error.mp he)))
  | @funcBody value type body params ps symbol ts σ s1 d σ' hscope hparams htype _ ih =>
      rw [symCheck, symCheckFuncDef_free _ hscope]
      refine bind_eq_error.mpr (Or.inr ⟨_, _, hparams, ?_⟩)
      simp only [typeSpecifier, htype, derefPtr, pure_bind]
      refine (symCheckFuncDef_declared fun frame => symCheck arena typeEnv
        (some frame) body).trans ?_
      exact bind_eq_error.mpr (Or.inl (ih he))

/-- **What stops the check of a declaration stops the analysis of the program.** -/
theorem ProgComesTo.error {prog : List AstNode} {σ : Site} {d : Declaration} {e : SemaError}
    (hr : ProgComesTo arena typeEnv prog d σ)
    (he : d.check arena typeEnv σ.frame σ.state = .error e) :
    semaCheck arena typeEnv prog = .error e := by
  obtain @⟨before, before', node, after, s1, _, _, rfl, hrun, hd⟩ := hr
  have hlist : (symCheckList arena typeEnv none (before ++ node :: after)).run SemaState.initial
      = .error e :=
    symCheckList_error hrun (hd.error he)
  rw [semaCheck, hlist]
  rfl

/-! ### Declarations that are accepted

An accepted declaration adds one entry under its name to the innermost scope.  Whatever is
checked behind it in the same scope leaves the scopes around alone and finds the new entry
by that name, unless it declares the name again.
-/

variable {σ : Site} {d : Declaration}

/-- Checking a declaration puts one new entry into the scope, under its name. -/
theorem Declaration.check_declares (hd : d.Placed σ)
    (h : d.check arena typeEnv σ.frame σ.state = .ok ((), s')) :
    ∃ (s1 : SemaState) (e : SymTabEntry), s' = s1.declare e ∧ s1.scope = σ.state.scope ∧
      σ.state.nextId ≤ s1.nextId ∧ e.key = d.name := by
  cases d with
  | varDec value type =>
      obtain ⟨node, hnode⟩ := dropped_eq_ok.mp h
      obtain ⟨-, ts, fid, f, -, -, -, -, rfl⟩ := symCheckVarDec_eq_ok.mp hnode
      exact ⟨σ.state.grow fid, _, rfl, rfl, Nat.le_refl _, rfl⟩
  -- the initialiser is checked first; it makes no entry, and does not change the scope
  | varDef value type expr =>
      obtain ⟨node, hnode⟩ := dropped_eq_ok.mp h
      obtain ⟨-, expr', s1, ts, fid, f, hexpr, -, hframe, -, -, rfl⟩ :=
        symCheckVarDef_eq_ok.mp hnode
      have hscope := symCheck_scope hd.2 hexpr
      refine ⟨s1.watch.grow fid, _, rfl, hscope, ?_, rfl⟩
      rw [hframe] at hexpr
      obtain ⟨new, hnew⟩ := symCheck_declares (AstNode.funcFree_of_isExpr hd.2) hexpr
      have hnext := hnew.nextId
      change σ.state.nextId ≤ s1.nextId
      omega
  | param p =>
      obtain ⟨ps, hps⟩ := dropped_eq_ok.mp h
      rw [symCheckParams_single] at hps
      split at hps
      · obtain ⟨-, rfl⟩ := Prod.mk.inj (Except.ok.inj hps)
        exact ⟨σ.state, _, rfl, rfl, Nat.le_refl _, rfl⟩
      · simp at hps
  | enumConst i key =>
      rw [check, symCheckEnums_single] at h
      obtain ⟨-, rfl⟩ := Prod.mk.inj (Except.ok.inj h)
      exact ⟨σ.state, _, rfl, rfl, Nat.le_refl _, rfl⟩

/-- **A declaration that is accepted hides what its name stood for, until its scope is left.** -/
theorem Declaration.shadows (hs : σ.Sound) (hd : d.Placed σ) : Shadows arena d σ := by
  intro s' hok
  obtain ⟨s1, e, rfl, hscope, hnext, hkey⟩ := Declaration.check_declares hd hok
  obtain ⟨outer, hk⟩ := hs.kinded
  have hne : s1.scope ≠ [] := by
    rw [hscope]
    exact hk.nonempty
  -- the declaration itself, and then everything behind it up to the end of the scope
  have hdecl := Adds.declare hne e
  refine ⟨s1.nextId, hnext, ?_, fun after after' s2 hafter hrun => ?_⟩
  · rw [SemaState.declare, SemaState.nextId, List.getElem?_concat_length, Option.map_some, hkey]
  · have hadds :=
      symCheckList_adds (fun n hmem {_ _ _} => symCheck_adds (hafter n hmem)) hdecl.nonempty hrun
    refine ⟨by rw [hadds.outer, hdecl.outer, hscope], fun key hnot => ?_⟩
    rw [hadds.lookup key hnot, SemaState.declare, scopeLookup_scopeAdd hne, hkey, hscope]

/--
Two conditions of which one implies the other are met together if the weaker is not met
alone.
-/
private theorem iff_iff_or {visible : Bool} {p : Prop} [Decidable p] (h : p → visible = true) :
    (visible = true ↔ p) ↔ (!visible || decide p) = true := by
  rw [Bool.or_eq_true, Bool.not_eq_true', decide_eq_true_eq]
  constructor
  · intro hiff
    by_cases hv : visible = true
    · exact Or.inr (hiff.mp hv)
    · exact Or.inl (by simpa using hv)
  · intro hor
    refine ⟨fun hv => hor.resolve_left (by simp [hv]), h⟩

/--
**Redeclaration is rejected within a scope and nowhere else, for a variable whose name is in
scope only where it is declared in the same scope, and for a parameter or a constant whose
name is not declared in its scope.**
-/
theorem scopeExact_iff {uninit : Int} {tokens rest : List Token} {prog : List AstNode}
    (h : parse uninit tokens = .ok (prog, rest)) (hd : ProgComesTo arena typeEnvInit prog d σ) :
    ScopeExact arena d σ prog ↔ d.fits σ.env σ.here = true := by
  obtain ⟨hsound, hplaced⟩ := hd.sound (parse_isFuncDef h)
  -- rejection is decided by the environment, and hiding always holds
  have hrej : Rejected arena d σ prog ↔ d.looksUp = true ∧ (σ.env.lookup d.name).isSome = true := by
    rw [← Declaration.check_rejects hsound hplaced]
    exact exists_congr fun e => and_congr_right fun _ => and_iff_left_of_imp hd.error
  have hsh : Shadows arena d σ := Declaration.shadows hsound hplaced
  have hhere := hsound.here d.name
  rw [ScopeExact, hrej, and_iff_left fun _ => hsh]
  cases d with
  | varDec value type =>
      rw [Declaration.looksUp, eq_self_iff_true, true_and]
      exact iff_iff_or hhere
  | varDef value type expr =>
      rw [Declaration.looksUp, eq_self_iff_true, true_and]
      exact iff_iff_or hhere
  | param p => simp [Declaration.name, Declaration.looksUp, Declaration.fits]
  | enumConst i key => simp [Declaration.name, Declaration.looksUp, Declaration.fits]

/-- `int f() { int x; int x; }`. -/
def againTokens : List Token :=
  [tok .type "int", tok .ident "f", tok .lparen "(", tok .rparen ")", tok .lbrace "\x7b",
    tok .type "int", tok .ident "x", tok .semicolon ";",
    tok .type "int", tok .ident "x", tok .semicolon ";", tok .rbrace "\x7d"]

/-- `int f() { int x; { enum e { x }; } }`. -/
def enumTokens : List Token :=
  [tok .type "int", tok .ident "f", tok .lparen "(", tok .rparen ")", tok .lbrace "\x7b",
    tok .type "int", tok .ident "x", tok .semicolon ";", tok .lbrace "\x7b",
    tok .enum "enum", tok .ident "e", tok .lbrace "\x7b", tok .ident "x", tok .rbrace "\x7d",
    tok .semicolon ";", tok .rbrace "\x7d", tok .rbrace "\x7d"]

/--
The second variable of one block is rejected; a constant in an inner block hides the
variable.
-/
theorem scopeExact_iff_again_and_enum :
    (∃ prog rest d σ, parse 0 againTokens = .ok (prog, rest) ∧ d.name = "x" ∧
      ProgComesTo (fun _ => 0) typeEnvInit prog d σ ∧ "x" ∈ σ.here ∧
      ScopeExact (fun _ => 0) d σ prog) ∧
    ∃ prog rest d σ, parse 0 enumTokens = .ok (prog, rest) ∧ d.name = "x" ∧
      ProgComesTo (fun _ => 0) typeEnvInit prog d σ ∧ "x" ∉ σ.here ∧
      (σ.env.lookup "x").isSome = true ∧ ScopeExact (fun _ => 0) d σ prog := by
  constructor
  · obtain ⟨prog, rest, σ, hparse, hd, hhere, hfits⟩ : ∃ prog rest σ,
        parse 0 againTokens = .ok (prog, rest) ∧
        ProgComesTo (fun _ => 0) typeEnvInit prog (.varDec "x" "int") σ ∧ "x" ∈ σ.here ∧
        (Declaration.varDec "x" "int").fits σ.env σ.here = true :=
      ⟨_, _, _, rfl, @ProgComesTo.intro _ _ _ [] [] _ [] _ _ _ rfl rfl (.funcBody rfl rfl (by rfl)
        (@ComesTo.compStmt _ _ [_] _ _ [] _ _ _ _ (by rfl) .varDec)), by decide, by decide⟩
    exact ⟨prog, rest, _, σ, hparse, rfl, hd, hhere, (scopeExact_iff hparse hd).mpr hfits⟩
  · obtain ⟨prog, rest, σ, hparse, hd, hhere, hvisible, hfits⟩ : ∃ prog rest σ,
        parse 0 enumTokens = .ok (prog, rest) ∧
        ProgComesTo (fun _ => 0) typeEnvInit prog (.enumConst 0 "x") σ ∧ "x" ∉ σ.here ∧
        (σ.env.lookup "x").isSome = true ∧
        (Declaration.enumConst 0 "x").fits σ.env σ.here = true :=
      ⟨_, _, _, rfl, @ProgComesTo.intro _ _ _ [] [] _ [] _ _ _ rfl rfl (.funcBody rfl rfl (by rfl)
        (@ComesTo.compStmt _ _ [_] _ _ [] _ _ _ _ (by rfl)
          (@ComesTo.compStmt _ _ [] [] _ [] _ _ _ _ (by rfl)
            (@ComesTo.enumConst _ _ _ [] _ [] _ _ rfl)))), by decide, by decide, by decide⟩
    exact ⟨prog, rest, _, σ, hparse, rfl, hd, hhere, hvisible, (scopeExact_iff hparse hd).mpr hfits⟩

/-- `int f(int x, int x) { }`. -/
def twiceTokens : List Token :=
  [tok .type "int", tok .ident "f", tok .lparen "(", tok .type "int", tok .ident "x",
    tok .comma ",",
    tok .type "int", tok .ident "x", tok .rparen ")", tok .lbrace "\x7b", tok .rbrace "\x7d"]

/-- `int f() { int x; { int x; } }`. -/
def innerTokens : List Token :=
  [tok .type "int", tok .ident "f", tok .lparen "(", tok .rparen ")", tok .lbrace "\x7b",
    tok .type "int", tok .ident "x", tok .semicolon ";", tok .lbrace "\x7b", tok .type "int",
      tok .ident "x",
    tok .semicolon ";", tok .rbrace "\x7d", tok .rbrace "\x7d"]

/-- The second parameter of the name is accepted, and the variable of an inner block is rejected. -/
theorem parameter_and_inner_not_scopeExact :
    (∃ prog rest d σ, parse 0 twiceTokens = .ok (prog, rest) ∧ d.name = "x" ∧
      ProgComesTo (fun _ => 0) typeEnvInit prog d σ ∧ "x" ∈ σ.here ∧
        ¬ ScopeExact (fun _ => 0) d σ prog) ∧
    ∃ prog rest d σ, parse 0 innerTokens = .ok (prog, rest) ∧ d.name = "x" ∧
      ProgComesTo (fun _ => 0) typeEnvInit prog d σ ∧ "x" ∉ σ.here ∧
        ¬ ScopeExact (fun _ => 0) d σ prog := by
  constructor
  · obtain ⟨prog, rest, σ, hparse, hd, hhere⟩ :
      ∃ prog rest σ, parse 0 twiceTokens = .ok (prog, rest) ∧
        ProgComesTo (fun _ => 0) typeEnvInit prog (.param ⟨"x", "int", none⟩) σ ∧ "x" ∈ σ.here :=
      ⟨_, _, _, rfl, @ProgComesTo.intro _ _ _ [] [] _ [] _ _ _ rfl rfl
        (@ComesTo.param _ _ _ _ _ [_] _ _ [] _ _ _ (by rfl) (by rfl)), by decide⟩
    refine ⟨prog, rest, _, σ, hparse, rfl, hd, hhere, fun hexact => ?_⟩
    obtain ⟨e, he, hcheck, -⟩ := hexact.1.mpr hhere
    rw [Declaration.check, dropped_eq_error, symCheckParams_single] at hcheck
    have hint : hashmapGet typeEnvInit "int" = some .int := rfl
    simp [hint] at hcheck
  · obtain ⟨prog, rest, σ, hparse, hd, hhere, hrej⟩ :
      ∃ prog rest σ, parse 0 innerTokens = .ok (prog, rest) ∧
        ProgComesTo (fun _ => 0) typeEnvInit prog (.varDec "x" "int") σ ∧ "x" ∉ σ.here ∧
        Rejected (fun _ => 0) (.varDec "x" "int") σ prog :=
      ⟨_, _, _, rfl, @ProgComesTo.intro _ _ _ [] [] _ [] _ _ _ rfl rfl (.funcBody rfl rfl (by rfl)
        (@ComesTo.compStmt _ _ [_] _ _ [] _ _ _ _ (by rfl)
          (@ComesTo.compStmt _ _ [] [] _ [] _ _ _ _ (by rfl) .varDec))), by decide,
        .redeclarationOfVariable, rfl, rfl, rfl⟩
    exact ⟨prog, rest, _, σ, hparse, rfl, hd, hhere, fun hexact => hhere (hexact.1.mp hrej)⟩

end MyLang
