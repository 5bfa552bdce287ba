/-
What a linked tree is made of.

For every statement there is one lemma that says when `resolve` links it and to what.
From them: linking a tree sets its symbols and nothing else, and every name a linked
expression looks up is linked to what the environment has for it.

`resolve` is partial, since a name may be missing or declared twice and a type may not
exist.  Its cases are chains of `bind`s, and the lemmas of the first section say in one
equivalence what the chain comes to; the proofs behind them never unfold `resolve`.

How many declarations a statement has and which names it binds can be counted before or
after it is linked, as these do not depend on symbols (`declCount_erase`, `binds_erase`).
So the number of the next declaration is known from the source alone.
-/
import MyLang.Proofs.SemaScope

namespace MyLang

variable {typeEnv : HashMap TypeSpecifier} {func : String} {env : Env} {next : Nat}
  {node' : AstNode}

namespace AstNode

/-! ### When a tree is linked

Each lemma is about one kind of node, with its parts linked one after the other.
-/

section Inversion

variable {value type opValue : String} {opType : TokenType} {kind : AstLValueKind}
  {symbol : Option SymId} {left right expr cond step init body ifExpr ifBody elseBody : AstNode}
  {nodes nodes' : List AstNode} {node : AstNode}

theorem resolveExpr_ident_eq_some : (AstNode.ident value symbol).resolveExpr env = some node' ↔
    ∃ b, env.lookup value = some b ∧ .ident value (some b.id) = node' := by
  simp [resolveExpr, Option.bind_eq_some_iff]

theorem resolveExpr_funcCall_eq_some :
    (AstNode.funcCall value nodes symbol).resolveExpr env = some node' ↔
      ∃ b nodes', env.lookup value = some b ∧ b.arity = some nodes.length ∧
        resolveExprs env nodes = some nodes' ∧ .funcCall value nodes' (some b.id) = node' := by
  simp only [resolveExpr, Option.bind_eq_bind, Option.bind_eq_some_iff]
  refine exists_congr fun b => ?_
  by_cases hb : b.arity = some nodes.length
  · simp [hb, Option.bind_eq_some_iff]
  · simp [hb]

theorem resolveExpr_binExp_eq_some :
    (AstNode.binExp opValue opType left right).resolveExpr env = some node' ↔
      ∃ left' right', left.resolveExpr env = some left' ∧ right.resolveExpr env = some right' ∧
        .binExp opValue opType left' right' = node' := by
  simp [resolveExpr, Option.bind_eq_some_iff]

theorem resolveExpr_varAsgn_eq_some : (AstNode.varAsgn left right).resolveExpr env = some node' ↔
    ∃ left' right', left.resolveExpr env = some left' ∧ right.resolveExpr env = some right' ∧
      .varAsgn left' right' = node' := by
  simp [resolveExpr, Option.bind_eq_some_iff]

theorem resolveExpr_unaryExpr_eq_some :
    (AstNode.unaryExpr expr opValue opType).resolveExpr env = some node' ↔
      ∃ expr', expr.resolveExpr env = some expr' ∧ .unaryExpr expr' opValue opType = node' := by
  simp [resolveExpr, Option.bind_eq_some_iff]

theorem resolveExpr_lval_eq_some : (AstNode.lval kind expr).resolveExpr env = some node' ↔
    ∃ expr', expr.resolveExpr env = some expr' ∧ .lval kind expr' = node' := by
  simp [resolveExpr, Option.bind_eq_some_iff]

theorem resolveExprs_cons_eq_some : resolveExprs env (node :: nodes) = some nodes' ↔
    ∃ node' rest', node.resolveExpr env = some node' ∧ resolveExprs env nodes = some rest' ∧
      node' :: rest' = nodes' := by
  simp [resolveExprs, Option.bind_eq_some_iff]

theorem resolve_varDec_eq_some :
    (AstNode.varDec value type symbol).resolve typeEnv func env next = some node' ↔
      env.lookup value = none ∧ (hashmapGet typeEnv type).isSome ∧
        .varDec value type (some next) = node' := by
  cases h : env.lookup value with
  | some b => simp [resolve, h]
  | none => simp [resolve, h, Option.bind_eq_some_iff, Option.isSome_iff_exists]

theorem resolve_varDef_eq_some :
    (AstNode.varDef value type expr symbol).resolve typeEnv func env next = some node' ↔
      env.lookup value = none ∧ ∃ expr', expr.resolveExpr env = some expr' ∧
        (hashmapGet typeEnv type).isSome ∧ .varDef value type expr' (some next) = node' := by
  cases h : env.lookup value with
  | some b => simp [resolve, h]
  | none => simp [resolve, h, Option.bind_eq_some_iff, Option.isSome_iff_exists]

theorem resolve_compStmt_eq_some :
    (AstNode.compStmt nodes).resolve typeEnv func env next = some node' ↔
      ∃ nodes', resolveList typeEnv func env next nodes = some nodes' ∧
        .compStmt nodes' = node' := by
  simp [resolve, Option.bind_eq_some_iff]

theorem resolve_ifElse_eq_some :
    (AstNode.ifElse ifExpr ifBody elseBody).resolve typeEnv func env next = some node' ↔
      ∃ ifExpr' ifBody' elseBody', ifBody.resolve typeEnv func env next = some ifBody' ∧
        ifExpr.resolveExpr (ifBody.binds next ++ env) = some ifExpr' ∧
        (if elseBody.nonNull then
          elseBody.resolve typeEnv func (ifBody.binds next ++ env) (next + ifBody.declCount)
            = some elseBody'
        else elseBody' = elseBody) ∧
        .ifElse ifExpr' ifBody' elseBody' = node' := by
  by_cases he : elseBody.nonNull = true
  · simp only [resolve, he, if_true, Option.bind_eq_bind, Option.bind_eq_some_iff, Option.pure_def,
      Option.some.injEq]
    constructor
    · rintro ⟨ifBody', hb, ifExpr', hc, elseBody', he, rfl⟩
      exact ⟨_, _, _, hb, hc, he, rfl⟩
    · rintro ⟨ifExpr', ifBody', elseBody', hb, hc, he, rfl⟩
      exact ⟨_, hb, _, hc, _, he, rfl⟩
  · simp only [resolve, he, Option.bind_eq_bind, Option.bind_eq_some_iff, Option.pure_def]
    constructor
    · rintro ⟨ifBody', hb, ifExpr', hc, h⟩
      exact ⟨_, _, _, hb, hc, rfl, by simpa [eq_comm] using h⟩
    · rintro ⟨ifExpr', ifBody', elseBody', hb, hc, he, rfl⟩
      exact ⟨_, hb, _, hc, by simp [show elseBody' = elseBody from he]⟩

theorem resolve_while_eq_some :
    (AstNode.while_ expr body).resolve typeEnv func env next = some node' ↔
      ∃ expr' body', expr.resolveExpr env = some expr' ∧
        body.resolve typeEnv func env next = some body' ∧ .while_ expr' body' = node' := by
  simp [resolve, Option.bind_eq_some_iff]

theorem resolve_for_eq_some :
    (AstNode.for_ init cond step body).resolve typeEnv func env next = some node' ↔
      ∃ init' cond' step' body', init.resolve typeEnv func env next = some init' ∧
        cond.resolveExpr (init.binds next ++ env) = some cond' ∧
        step.resolveExpr (init.binds next ++ env) = some step' ∧
        body.resolve typeEnv func (init.binds next ++ env) (next + init.declCount) = some body' ∧
        .for_ init' cond' step' body' = node' := by
  simp [resolve, Option.bind_eq_some_iff]

theorem resolve_ret_eq_some :
    (AstNode.ret expr symbol).resolve typeEnv func env next = some node' ↔
      ∃ expr', expr.resolveExpr env = some expr' ∧
        .ret expr' ((env.lookup func).map Binding.id) = node' := by
  simp [resolve, Option.bind_eq_some_iff]

theorem resolve_exprStmt_eq_some :
    (AstNode.exprStmt expr).resolve typeEnv func env next = some node' ↔
      ∃ expr', expr.resolveExpr env = some expr' ∧ .exprStmt expr' = node' := by
  simp [resolve, Option.bind_eq_some_iff]

theorem resolveList_cons_eq_some :
    resolveList typeEnv func env next (node :: nodes) = some nodes' ↔
      ∃ node' rest', node.resolve typeEnv func env next = some node' ∧
        resolveList typeEnv func (node.binds next ++ env) (next + node.declCount) nodes
          = some rest' ∧ node' :: rest' = nodes' := by
  simp [resolveList, Option.bind_eq_some_iff]

end Inversion

/-! ### Linking sets symbols and nothing else

`erase` takes the symbols out again.
-/

private theorem resolveExprs_erase {args args' : List AstNode}
    (hargs : ∀ node ∈ args, ∀ {node' : AstNode}, node.resolveExpr env = some node' →
      node'.erase = node.erase)
    (h : resolveExprs env args = some args') :
    eraseList args' = eraseList args ∧ args'.length = args.length := by
  induction args generalizing args' with
  | nil =>
      obtain rfl := Option.some.inj h
      exact ⟨rfl, rfl⟩
  | cons node rest ih =>
      obtain ⟨node', rest', h1, h2, rfl⟩ := resolveExprs_cons_eq_some.mp h
      obtain ⟨hrest, hlen⟩ := ih (fun n hn => hargs n (by simp [hn])) h2
      exact ⟨by rw [eraseList, eraseList, hargs node (by simp) h1, hrest], by simp [hlen]⟩

/-- A linked expression is the expression it was made from, but for its symbols. -/
theorem resolveExpr_erase {node : AstNode} (h : node.resolveExpr env = some node') :
    node'.erase = node.erase := by
  induction node generalizing node' with
  | intConst | emptyExpr => rw [← Option.some.inj h]
  | ident value symbol =>
      obtain ⟨b, -, rfl⟩ := resolveExpr_ident_eq_some.mp h
      rfl
  | funcCall value args symbol ih =>
      obtain ⟨b, args', -, -, hargs, rfl⟩ := resolveExpr_funcCall_eq_some.mp h
      rw [erase, erase, (resolveExprs_erase (fun n hn => ih n hn) hargs).1]
  | binExp value opType left right ihl ihr =>
      obtain ⟨left', right', hl, hr, rfl⟩ := resolveExpr_binExp_eq_some.mp h
      rw [erase, erase, ihl hl, ihr hr]
  | varAsgn target rval ihl ihr =>
      obtain ⟨left', right', hl, hr, rfl⟩ := resolveExpr_varAsgn_eq_some.mp h
      rw [erase, erase, ihl hl, ihr hr]
  | unaryExpr expr value opType ih =>
      obtain ⟨expr', he, rfl⟩ := resolveExpr_unaryExpr_eq_some.mp h
      rw [erase, erase, ih he]
  | lval kind ident ih =>
      obtain ⟨expr', he, rfl⟩ := resolveExpr_lval_eq_some.mp h
      rw [erase, erase, ih he]
  | _ => simp [resolveExpr] at h

theorem isExpr_of_resolveExpr {node : AstNode} (h : node.resolveExpr env = some node') :
    node'.isExpr = node.isExpr := by
  rw [← isExpr_erase, resolveExpr_erase h, isExpr_erase]

private theorem resolveList_erase_of {nodes nodes' : List AstNode}
    (hnodes : ∀ node ∈ nodes, ∀ {env : Env} {next : Nat} {node' : AstNode},
      node.resolve typeEnv func env next = some node' → node'.erase = node.erase)
    (h : resolveList typeEnv func env next nodes = some nodes') :
    eraseList nodes' = eraseList nodes := by
  induction nodes generalizing nodes' env next with
  | nil =>
      obtain rfl := Option.some.inj h
      rfl
  | cons node rest ih =>
      obtain ⟨node', rest', h1, h2, rfl⟩ := resolveList_cons_eq_some.mp h
      rw [eraseList, eraseList, hnodes node (by simp) h1,
        ih (fun n hn => hnodes n (by simp [hn])) h2]

/-- **A linked statement is the statement it was made from, but for its symbols.** -/
theorem resolve_erase {node : AstNode} (h : node.resolve typeEnv func env next = some node') :
    node'.erase = node.erase := by
  induction node generalizing node' env next with
  | varDec value type symbol =>
      obtain ⟨-, -, rfl⟩ := resolve_varDec_eq_some.mp h
      rfl
  | varDef value type expr symbol _ =>
      obtain ⟨-, expr', he, -, rfl⟩ := resolve_varDef_eq_some.mp h
      rw [erase, erase, resolveExpr_erase he]
  | enum value enums => rw [← Option.some.inj h]
  | compStmt body ih =>
      obtain ⟨body', hb, rfl⟩ := resolve_compStmt_eq_some.mp h
      rw [erase, erase, resolveList_erase_of (fun n hn => ih n hn) hb]
  | ifElse ifExpr ifBody elseBody _ ihb ihe =>
      obtain ⟨ifExpr', ifBody', elseBody', hb, hc, he, rfl⟩ := resolve_ifElse_eq_some.mp h
      rw [erase, erase, resolveExpr_erase hc, ihb hb]
      split at he
      · rw [ihe he]
      · rw [he]
  | while_ expr body _ ihb =>
      obtain ⟨expr', body', he, hb, rfl⟩ := resolve_while_eq_some.mp h
      rw [erase, erase, resolveExpr_erase he, ihb hb]
  | for_ init cond step body ihi _ _ ihb =>
      obtain ⟨init', cond', step', body', hi, hc, hs, hb, rfl⟩ := resolve_for_eq_some.mp h
      rw [erase, erase, ihi hi, resolveExpr_erase hc, resolveExpr_erase hs, ihb hb]
  | ret expr symbol _ =>
      obtain ⟨expr', he, rfl⟩ := resolve_ret_eq_some.mp h
      rw [erase, erase, resolveExpr_erase he]
  | exprStmt expr _ =>
      obtain ⟨expr', he, rfl⟩ := resolve_exprStmt_eq_some.mp h
      rw [erase, erase, resolveExpr_erase he]
  | _ => exact resolveExpr_erase h

private theorem declCountList_erase_of {nodes : List AstNode}
    (h : ∀ node ∈ nodes, node.erase.declCount = node.declCount) :
    declCountList (eraseList nodes) = declCountList nodes := by
  induction nodes with
  | nil => rfl
  | cons node rest ih =>
      rw [eraseList, declCountList, declCountList, h node (by simp),
        ih fun n hn => h n (by simp [hn])]

theorem declCount_erase (node : AstNode) : node.erase.declCount = node.declCount := by
  induction node with
  | compStmt body ih => exact declCountList_erase_of ih
  | ifElse ifExpr ifBody elseBody _ ihb ihe => rw [erase, declCount, declCount, ihb, ihe]
  | while_ expr body _ ihb => exact ihb
  | for_ init cond step body ihi _ _ ihb => rw [erase, declCount, declCount, ihi, ihb]
  | _ => rfl

theorem binds_erase (node : AstNode) (next : Nat) : node.erase.binds next = node.binds next := by
  induction node generalizing next with
  | ifElse ifExpr ifBody elseBody _ ihb ihe => rw [erase, binds, binds, ihb, ihe, declCount_erase]
  | while_ expr body _ ihb => exact ihb next
  | _ => rfl

theorem names_erase (node : AstNode) : node.erase.names = node.names := by
  induction node with
  | ifElse ifExpr ifBody elseBody _ ihb ihe => rw [erase, names, names, ihb, ihe]
  | while_ expr body _ ihb => exact ihb
  | _ => rfl

theorem declCount_of_resolve {node : AstNode}
    (h : node.resolve typeEnv func env next = some node') : node'.declCount = node.declCount := by
  rw [← declCount_erase, resolve_erase h, declCount_erase]

theorem binds_of_resolve {node : AstNode}
    (h : node.resolve typeEnv func env next = some node') (n : Nat) :
    node'.binds n = node.binds n := by
  rw [← binds_erase, resolve_erase h, binds_erase]

/-! ### What the uses of an expression are linked to

An expression declares nothing, so all of it is linked in one environment.
-/

/-- Every use has the symbol the environment has for its name. -/
def LinkedIn (env : Env) (uses : List (String × Option SymId)) : Prop :=
  ∀ u ∈ uses, ∃ b, env.lookup u.1 = some b ∧ u.2 = some b.id

theorem LinkedIn.append {uses uses' : List (String × Option SymId)} (h : LinkedIn env uses)
    (h' : LinkedIn env uses') : LinkedIn env (uses ++ uses') := by
  intro u hu
  rcases List.mem_append.mp hu with hu | hu
  · exact h u hu
  · exact h' u hu

private theorem resolveExprs_linkedIn {args args' : List AstNode}
    (hargs : ∀ node ∈ args, ∀ {node' : AstNode}, node.resolveExpr env = some node' →
      LinkedIn env node'.uses)
    (h : resolveExprs env args = some args') : LinkedIn env (usesList args') := by
  induction args generalizing args' with
  | nil =>
      obtain rfl := Option.some.inj h
      simp [LinkedIn, usesList]
  | cons node rest ih =>
      obtain ⟨node', rest', h1, h2, rfl⟩ := resolveExprs_cons_eq_some.mp h
      exact (hargs node (by simp) h1).append (ih (fun n hn => hargs n (by simp [hn])) h2)

/-- **Every name a linked expression looks up has the symbol the environment has for it.** -/
theorem resolveExpr_linkedIn {node : AstNode} (h : node.resolveExpr env = some node') :
    LinkedIn env node'.uses := by
  induction node generalizing node' with
  | intConst | emptyExpr =>
      rw [← Option.some.inj h]
      simp [LinkedIn, uses]
  | ident value symbol =>
      obtain ⟨b, hb, rfl⟩ := resolveExpr_ident_eq_some.mp h
      simp [LinkedIn, uses, hb]
  | funcCall value args symbol ih =>
      obtain ⟨b, args', hb, -, hargs, rfl⟩ := resolveExpr_funcCall_eq_some.mp h
      have hself : LinkedIn env [(value, some b.id)] := by simp [LinkedIn, hb]
      exact hself.append (resolveExprs_linkedIn (fun n hn => ih n hn) hargs)
  | binExp value opType left right ihl ihr =>
      obtain ⟨left', right', hl, hr, rfl⟩ := resolveExpr_binExp_eq_some.mp h
      exact (ihl hl).append (ihr hr)
  | varAsgn target rval ihl ihr =>
      obtain ⟨left', right', hl, hr, rfl⟩ := resolveExpr_varAsgn_eq_some.mp h
      exact (ihl hl).append (ihr hr)
  | unaryExpr expr value opType ih =>
      obtain ⟨expr', he, rfl⟩ := resolveExpr_unaryExpr_eq_some.mp h
      exact @ih expr' he
  | lval kind ident ih =>
      obtain ⟨expr', he, rfl⟩ := resolveExpr_lval_eq_some.mp h
      exact @ih expr' he
  | _ => simp [resolveExpr] at h

end AstNode

/-! ### When a function is linked

Its parameters and its own name come into the environment, and stay there for the
functions behind.
-/

/-- When a function is linked, and to what. -/
theorem resolveFunc_eq_some {value type : String} {params : List Param} {body : AstNode} :
    resolveFunc typeEnv env next value type params body = some node' ↔
      env.lookup value = none ∧ (∀ param ∈ params, (hashmapGet typeEnv param.type).isSome) ∧
        (hashmapGet typeEnv type).isSome ∧
        ∃ body', body.resolve typeEnv value (funcBinds next value params ++ env)
            (next + params.length + 1) = some body' ∧
          .funcDef value type body' (linkParams next params) (some (next + params.length))
            = node' := by
  cases hl : env.lookup value with
  | some b => simp [resolveFunc, hl]
  | none =>
      by_cases hp : (params.any fun param => (hashmapGet typeEnv param.type).isNone) = true
      · have hp' : ¬ ∀ param ∈ params, (hashmapGet typeEnv param.type).isSome := by
          obtain ⟨param, hmem, hnone⟩ := List.any_eq_true.mp hp
          intro hall
          have := hall param hmem
          simp_all
        simp [resolveFunc, hl, hp, hp']
      · have hp' : ∀ param ∈ params, (hashmapGet typeEnv param.type).isSome := by
          intro param hmem
          rw [Bool.not_eq_true, List.any_eq_false] at hp
          simpa [Option.isSome_iff_ne_none] using hp param hmem
        simp only [resolveFunc, hl, if_neg hp, Option.bind_eq_bind, Option.bind_eq_some_iff,
          Option.isSome_none, Option.pure_def, Option.some.injEq, if_neg Bool.false_ne_true]
        constructor
        · rintro ⟨ts, ht, h⟩
          exact ⟨trivial, hp', by simp [ht], h⟩
        · rintro ⟨-, -, ht, h⟩
          obtain ⟨ts, ht⟩ := Option.isSome_iff_exists.mp ht
          exact ⟨ts, ht, h⟩

theorem resolveProg_cons_eq_some {value type : String} {params : List Param}
    {body : AstNode} {symbol : Option SymId} {rest prog' : List AstNode} :
    resolveProg typeEnv env next (.funcDef value type body params symbol :: rest) = some prog' ↔
      ∃ body' rest', env.lookup value = none ∧
        (∀ param ∈ params, (hashmapGet typeEnv param.type).isSome) ∧
        (hashmapGet typeEnv type).isSome ∧
        body.resolve typeEnv value (funcBinds next value params ++ env)
            (next + params.length + 1) = some body' ∧
        resolveProg typeEnv (funcBinds next value params ++ env)
          (next + funcDeclCount params body) rest = some rest' ∧
        .funcDef value type body' (linkParams next params) (some (next + params.length)) :: rest'
          = prog' := by
  simp only [resolveProg, Option.bind_eq_bind, Option.bind_eq_some_iff, resolveFunc_eq_some,
    Option.pure_def, Option.some.injEq]
  constructor
  · rintro ⟨node', ⟨hl, hp, ht, body', hb, rfl⟩, rest', hrest, rfl⟩
    exact ⟨body', rest', hl, hp, ht, hb, hrest, rfl⟩
  · rintro ⟨body', rest', hl, hp, ht, hb, hrest, rfl⟩
    exact ⟨_, ⟨hl, hp, ht, body', hb, rfl⟩, rest', hrest, rfl⟩

end MyLang
