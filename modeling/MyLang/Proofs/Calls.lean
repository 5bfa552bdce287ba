/-
What a program calls.

The names an environment has with a number of parameters are those of functions, and
`resolve` links a call only to such a name.  So every call of an accepted program is of a
function it defines, and since a function is not defined twice, of one function.

The generator jumps to a name, not to a symbol.  That the name is that of one function in
the whole file is therefore needed wherever a jump is followed: for the labels
(`Proofs/Labels.lean`), and for the runs of calls.

A parameter or a constant may have the name of a function, and hides it.  A call there
does not link, since neither has parameters.
-/
import MyLang.Proofs.LabelNames
import MyLang.Proofs.Resolve

namespace MyLang

namespace AstNode

variable {typeEnv : HashMap TypeSpecifier} {func : String} {env : Env} {next : Nat}
  {node' : AstNode}
  {names : List String}

/-- What an environment has with a number of parameters is one of the functions. -/
structure FuncsIn (env : Env) (names : List String) : Prop where
  mem : ∀ p ∈ env, p.2.arity ≠ none → p.1 ∈ names

theorem FuncsIn.append_left {env' : Env} (h : FuncsIn env names)
    (h' : ∀ p ∈ env', p.2.arity = none) : FuncsIn (env' ++ env) names := by
  refine ⟨fun p hp ha => ?_⟩
  rcases List.mem_append.mp hp with hp | hp
  · exact absurd (h' p hp) ha
  · exact h.mem p hp ha

theorem bindNames_arity {next : Nat} {keys : List String} :
    ∀ p ∈ bindNames next keys, p.2.arity = none := by
  intro p hp
  simp only [bindNames, List.mem_map] at hp
  obtain ⟨q, -, rfl⟩ := hp
  rfl

theorem binds_arity (node : AstNode) (next : Nat) : ∀ p ∈ node.binds next, p.2.arity = none := by
  induction node generalizing next with
  | varDec | varDef | enum => exact bindNames_arity
  | ifElse ifExpr ifBody elseBody _ ihb ihe =>
      intro p hp
      rcases List.mem_append.mp hp with hp | hp
      · exact ihe _ p hp
      · exact ihb _ p hp
  | while_ expr body _ ihb => exact ihb next
  | _ => simp [binds]

private theorem resolveExprs_calls {args args' : List AstNode}
    (hargs : ∀ node ∈ args, ∀ {node' : AstNode}, node.resolveExpr env = some node' →
      node'.calls ⊆ names)
    (h : resolveExprs env args = some args') : callsList args' ⊆ names := by
  induction args generalizing args' with
  | nil =>
      obtain rfl := Option.some.inj h
      simp [callsList]
  | cons node rest ih =>
      obtain ⟨node', rest', h1, h2, rfl⟩ := resolveExprs_cons_eq_some.mp h
      exact List.append_subset.mpr ⟨hargs node (by simp) h1,
        ih (fun n hn => hargs n (by simp [hn])) h2⟩

/-- A linked expression calls functions in scope only. -/
theorem resolveExpr_calls (henv : FuncsIn env names) {node : AstNode}
    (h : node.resolveExpr env = some node') : node'.calls ⊆ names := by
  induction node generalizing node' with
  | intConst | emptyExpr =>
      rw [← Option.some.inj h]
      simp [calls]
  | ident value symbol =>
      obtain ⟨b, -, rfl⟩ := resolveExpr_ident_eq_some.mp h
      simp [calls]
  | funcCall value args symbol ih =>
      obtain ⟨b, args', hb, harity, hargs, rfl⟩ := resolveExpr_funcCall_eq_some.mp h
      refine List.append_subset.mpr ⟨resolveExprs_calls (fun n hn => ih n hn) hargs, ?_⟩
      have hmem := henv.mem (value, b) (Env.mem_of_lookup hb) (by simp [harity])
      simpa using hmem
  | binExp value opType left right ihl ihr =>
      obtain ⟨left', right', hl, hr, rfl⟩ := resolveExpr_binExp_eq_some.mp h
      exact List.append_subset.mpr ⟨ihl hl, ihr hr⟩
  | varAsgn target rval ihl ihr =>
      obtain ⟨left', right', hl, hr, rfl⟩ := resolveExpr_varAsgn_eq_some.mp h
      exact List.append_subset.mpr ⟨ihl hl, ihr hr⟩
  | unaryExpr expr value opType ih =>
      obtain ⟨expr', he, rfl⟩ := resolveExpr_unaryExpr_eq_some.mp h
      exact @ih expr' he
  | lval kind ident ih =>
      obtain ⟨expr', he, rfl⟩ := resolveExpr_lval_eq_some.mp h
      simp [calls]
  | _ => simp [resolveExpr] at h

private theorem resolveList_calls {l l' : List AstNode}
    (hl : ∀ node ∈ l, ∀ {env : Env} {next : Nat} {node' : AstNode}, FuncsIn env names →
      node.resolve typeEnv func env next = some node' → node'.calls ⊆ names)
    (henv : FuncsIn env names) (h : resolveList typeEnv func env next l = some l') :
    callsList l' ⊆ names := by
  induction l generalizing l' env next with
  | nil =>
      obtain rfl := Option.some.inj h
      simp [callsList]
  | cons node rest ih =>
      obtain ⟨node', rest', h1, h2, rfl⟩ := resolveList_cons_eq_some.mp h
      exact List.append_subset.mpr ⟨hl node (by simp) henv h1,
        ih (fun n hn => hl n (by simp [hn])) (henv.append_left (binds_arity node next)) h2⟩

/-- **A linked statement calls functions in scope only.** -/
theorem resolve_calls (henv : FuncsIn env names) {node : AstNode}
    (h : node.resolve typeEnv func env next = some node') : node'.calls ⊆ names := by
  induction node generalizing node' env next with
  | varDec value type symbol =>
      obtain ⟨-, -, rfl⟩ := resolve_varDec_eq_some.mp h
      simp [calls]
  | varDef value type expr symbol _ =>
      obtain ⟨-, expr', he, -, rfl⟩ := resolve_varDef_eq_some.mp h
      have hexpr : expr'.calls ⊆ names := resolveExpr_calls henv he
      exact hexpr
  | enum value enums =>
      rw [← Option.some.inj h]
      simp [calls]
  | compStmt body ih =>
      obtain ⟨body', hb, rfl⟩ := resolve_compStmt_eq_some.mp h
      exact resolveList_calls (fun n hn => ih n hn) henv hb
  | ifElse ifExpr ifBody elseBody _ ihb ihe =>
      obtain ⟨ifExpr', ifBody', elseBody', hb, hc, he, rfl⟩ := resolve_ifElse_eq_some.mp h
      have henv' := henv.append_left (binds_arity ifBody next)
      refine List.append_subset.mpr ⟨resolveExpr_calls henv' hc,
        List.append_subset.mpr ⟨ihb henv hb, ?_⟩⟩
      split at he
      · exact ihe henv' he
      · rename_i hnull
        rw [he, eq_null hnull]
        simp [calls]
  | while_ expr body _ ihb =>
      obtain ⟨expr', body', he, hb, rfl⟩ := resolve_while_eq_some.mp h
      exact List.append_subset.mpr ⟨resolveExpr_calls henv he, ihb henv hb⟩
  | for_ init cond step body ihi _ _ ihb =>
      obtain ⟨init', cond', step', body', hi, hc, hs, hb, rfl⟩ := resolve_for_eq_some.mp h
      have henv' := henv.append_left (binds_arity init next)
      exact List.append_subset.mpr ⟨ihi henv hi, List.append_subset.mpr ⟨resolveExpr_calls henv' hc,
        List.append_subset.mpr ⟨ihb henv' hb, resolveExpr_calls henv' hs⟩⟩⟩
  | ret expr symbol _ =>
      obtain ⟨expr', he, rfl⟩ := resolve_ret_eq_some.mp h
      have hexpr : expr'.calls ⊆ names := resolveExpr_calls henv he
      exact hexpr
  | exprStmt expr _ =>
      obtain ⟨expr', he, rfl⟩ := resolve_exprStmt_eq_some.mp h
      have hexpr : expr'.calls ⊆ names := resolveExpr_calls henv he
      exact hexpr
  | _ => exact resolveExpr_calls henv h

/-! ### Programs

The environment grows by the function and its parameters, and the parameters are no
functions.
-/

theorem FuncsIn.addFunc {env : Env} {names : List String} (h : FuncsIn env names) (next : Nat)
    (value : String) (params : List Param) :
    FuncsIn (funcBinds next value params ++ env) (names ++ [value]) := by
  refine ⟨fun p hp ha => ?_⟩
  rcases List.mem_append.mp hp with hp | hp
  · rcases List.mem_cons.mp hp with rfl | hp
    · simp
    · exact absurd (bindNames_arity p hp) ha
  · exact List.mem_append_left _ (h.mem p hp ha)

/-- **Calls of a linked program are of its functions, no two of which have one name.** -/
theorem resolveProg_calls {typeEnv : HashMap TypeSpecifier} {env : Env} {next : Nat}
    {names : List String} {prog prog' : List AstNode} (henv : FuncsIn env names)
    (hin : ∀ name ∈ names, (env.lookup name).isSome) (hnd : names.Nodup)
    (h : resolveProg typeEnv env next prog = some prog') :
    callsList prog' ⊆ names ++ funcNames prog' ∧ (names ++ funcNames prog').Nodup := by
  induction prog generalizing env next names prog' with
  | nil =>
      obtain rfl := Option.some.inj h
      simpa [callsList, funcNames] using hnd
  | cons node rest ih =>
      cases node with
      | funcDef value type body params symbol =>
          obtain ⟨body', rest', hfree, -, -, hb, hrest, rfl⟩ := resolveProg_cons_eq_some.mp h
          have hnew : value ∉ names := fun hmem => by
            have := hin value hmem
            simp [hfree] at this
          have hin' : ∀ name ∈ names ++ [value],
              ((funcBinds next value params ++ env).lookup name).isSome := by
            intro name hname
            rw [List.lookup_append]
            rcases List.mem_append.mp hname with hname | hname
            · have := hin name hname
              cases hl : (funcBinds next value params).lookup name <;> simp [this]
            · obtain rfl := List.mem_singleton.mp hname
              simp [funcBinds]
          have hnd' : (names ++ [value]).Nodup :=
            List.nodup_append'.mpr ⟨hnd, List.nodup_singleton _, by simpa using hnew⟩
          obtain ⟨hcalls, hnodup⟩ := ih (henv.addFunc next value params) hin' hnd' hrest
          rw [List.append_assoc] at hcalls hnodup
          refine ⟨List.append_subset.mpr ⟨fun f hf => ?_, hcalls⟩, hnodup⟩
          have := resolve_calls (henv.addFunc next value params) hb hf
          simp only [List.mem_append, List.mem_singleton] at this
          simp only [funcNames, List.mem_append, List.mem_cons]
          rcases this with h | h
          · exact Or.inl h
          · exact Or.inr (Or.inl h)
      | _ => simp [resolveProg] at h

end AstNode

/-- The calls of an accepted program are of its functions, no two of which have one name. -/
theorem Accepted.calls {uninit : Int} {arena : SymId → Nat} {tokens : List Token} {r : SemaResult}
    (hacc : Accepted uninit arena tokens r) :
    AstNode.callsList r.prog ⊆ funcNames r.prog ∧ (funcNames r.prog).Nodup := by
  obtain ⟨prog, rest, -, -, hresolve⟩ := hacc.resolveProg
  simpa using AstNode.resolveProg_calls ⟨by simp⟩ (by simp) List.nodup_nil hresolve

end MyLang
