/-
One tree in two environments.

A statement that avoids the names two environments differ in is linked alike in both.
Conversely a statement that is linked alike in both avoids the names they have different
symbols for: whichever it looks up, it is linked to different symbols.

`bad` is a list of names, and a statement avoids them if it does not look one of them up
before it has declared it.  What a statement declares is the same name in both
environments, so the names they differ in become fewer along a block and are back behind
it.

The first direction takes environments that agree off `bad`, and the second ones that have
different symbols for all of `bad` (`Differ`).  An environment may also have no symbol
where the other one has one; there the statement is linked in one of them and not in the
other.
-/
import MyLang.Proofs.Visible

namespace MyLang

variable {typeEnv : HashMap TypeSpecifier} {func : String} {env env' : Env}
  {bad : List String} {next : Nat}

namespace AstNode

/-! ### Environments that agree on the names looked up

A name that is looked up is not bad, so it has the same symbol.
-/

private theorem resolveExprs_congr {args : List AstNode}
    (hargs : ∀ node ∈ args, node.resolveExpr env = node.resolveExpr env') :
    resolveExprs env args = resolveExprs env' args := by
  induction args with
  | nil => rfl
  | cons node rest ih =>
      rw [resolveExprs, resolveExprs, hargs node (by simp), ih fun n hn => hargs n (by simp [hn])]

theorem mem_usesList {l : List AstNode} {u : String × Option SymId} :
    u ∈ usesList l ↔ ∃ node ∈ l, u ∈ node.uses := by
  induction l with
  | nil => simp [usesList]
  | cons node rest ih => simp [usesList, ih]

/-- An expression is linked alike where the names it looks up have the same symbols. -/
theorem resolveExpr_congr {node : AstNode}
    (h : ∀ u ∈ node.uses, env.lookup u.1 = env'.lookup u.1) :
    node.resolveExpr env = node.resolveExpr env' := by
  induction node with
  | ident value symbol =>
      have hv := h (value, symbol) (by simp [uses])
      simp only [resolveExpr, hv]
  | funcCall value args symbol ih =>
      have hv := h (value, symbol) (by simp [uses])
      have hargs : resolveExprs env args = resolveExprs env' args :=
        resolveExprs_congr fun n hn => ih n hn fun u hu => h u (by
          rw [uses, List.mem_cons, mem_usesList]
          exact Or.inr ⟨n, hn, hu⟩)
      simp only [resolveExpr, hv, hargs]
  | binExp value opType left right ihl ihr =>
      rw [resolveExpr, resolveExpr, ihl fun u hu => h u (by simp [uses, hu]),
        ihr fun u hu => h u (by simp [uses, hu])]
  | varAsgn target rval ihl ihr =>
      rw [resolveExpr, resolveExpr, ihl fun u hu => h u (by simp [uses, hu]),
        ihr fun u hu => h u (by simp [uses, hu])]
  | unaryExpr expr value opType ih => rw [resolveExpr, resolveExpr, ih h]
  | lval kind ident ih => rw [resolveExpr, resolveExpr, ih h]
  | _ => rfl

/-- What a statement leaves in scope are its names. -/
theorem binds_lookup_eq_none {node : AstNode} {key : String} :
    (node.binds next).lookup key = none ↔ key ∉ node.names := by
  have hnames : ∀ (names : List String) (next : Nat),
      (bindNames next names).lookup key = none ↔ key ∉ names := by
    intro names next
    have hd := Declared.bindNames names next
    refine ⟨fun h hk => ?_, hd.absent key⟩
    obtain ⟨b, hb, -⟩ := hd.found key hk
    simp [hb] at h
  induction node generalizing next with
  | varDec value type symbol => exact hnames [value] next
  | varDef value type expr symbol => exact hnames [value] next
  | enum value enums => exact hnames enums next
  | ifElse ifExpr ifBody elseBody _ ihb ihe =>
      simp only [binds, names, List.lookup_append, Option.or_eq_none_iff, ihb, ihe, List.mem_append]
      grind
  | while_ expr body _ ihb => exact @ihb next
  | _ => simp [binds, names]

/-- Environments that agree off `bad` agree off fewer names once a statement has declared some. -/
theorem agree_binds (h : ∀ key, key ∉ bad → env.lookup key = env'.lookup key) (node : AstNode)
    (key : String) (hkey : key ∉ without bad node.names) :
    (node.binds next ++ env).lookup key = (node.binds next ++ env').lookup key := by
  rw [List.lookup_append, List.lookup_append]
  by_cases hn : key ∈ node.names
  · cases hb : (node.binds next).lookup key with
    | none => exact absurd hn (binds_lookup_eq_none.mp hb)
    | some b => rfl
  · rw [binds_lookup_eq_none.mpr hn]
    exact h key fun hc => hkey (mem_without.mpr ⟨hc, hn⟩)

theorem looksUpNone_congr {node : AstNode} (havoid : node.looksUpNone bad = true)
    (h : ∀ key, key ∉ bad → env.lookup key = env'.lookup key) :
    node.resolveExpr env = node.resolveExpr env' := by
  simp only [looksUpNone, List.all_eq_true, decide_eq_true_eq] at havoid
  exact resolveExpr_congr fun u hu => h u.1 (havoid u hu)

/-- Statements in a row, each of which is linked alike. -/
private theorem resolveList_congr {nodes : List AstNode}
    (hnodes : ∀ node ∈ nodes, ∀ {env env' : Env} {bad : List String} {next : Nat},
      node.avoids bad = true → func ∉ bad →
      (∀ key, key ∉ bad → env.lookup key = env'.lookup key) →
      node.resolve typeEnv func env next = node.resolve typeEnv func env' next)
    (havoid : avoidsList bad nodes = true) (hfunc : func ∉ bad)
    (h : ∀ key, key ∉ bad → env.lookup key = env'.lookup key) :
    resolveList typeEnv func env next nodes = resolveList typeEnv func env' next nodes := by
  induction nodes generalizing env env' bad next with
  | nil => rfl
  | cons node rest ih =>
      simp only [avoidsList, Bool.and_eq_true] at havoid
      rw [resolveList, resolveList, hnodes node (by simp) havoid.1 hfunc h,
        ih (fun n hn => hnodes n (by simp [hn])) havoid.2 (by simp [hfunc])
          (agree_binds h node)]

/-- **A statement that avoids the names two environments differ in is linked alike in both.** -/
theorem resolve_congr {node : AstNode} (havoid : node.avoids bad = true) (hfunc : func ∉ bad)
    (h : ∀ key, key ∉ bad → env.lookup key = env'.lookup key) :
    node.resolve typeEnv func env next = node.resolve typeEnv func env' next := by
  induction node generalizing env env' bad next with
  | varDec value type symbol =>
      simp only [avoids, decide_eq_true_eq] at havoid
      rw [resolve, resolve, h value havoid]
  | varDef value type expr symbol _ =>
      simp only [avoids, Bool.and_eq_true, decide_eq_true_eq] at havoid
      rw [resolve, resolve, h value havoid.1, looksUpNone_congr havoid.2 h]
  | enum value enums => rfl
  | compStmt body ih =>
      rw [resolve, resolve, resolveList_congr (fun n hn => ih n hn) havoid hfunc h]
  | ifElse ifExpr ifBody elseBody _ ihb ihe =>
      simp only [avoids, Bool.and_eq_true] at havoid
      have h' : ∀ key, key ∉ without bad ifBody.names →
          (ifBody.binds next ++ env).lookup key = (ifBody.binds next ++ env').lookup key :=
        agree_binds h ifBody
      simp only [resolve]
      rw [ihb havoid.1.1 hfunc h, looksUpNone_congr havoid.1.2 h',
        ihe havoid.2 (by simp [hfunc]) h']
  | while_ expr body _ ihb =>
      simp only [avoids, Bool.and_eq_true] at havoid
      rw [resolve, resolve, looksUpNone_congr havoid.1 h, ihb havoid.2 hfunc h]
  | for_ init cond step body ihi _ _ ihb =>
      simp only [avoids, Bool.and_eq_true] at havoid
      obtain ⟨⟨⟨hinit, hcond⟩, hstep⟩, hbody⟩ := havoid
      have h' : ∀ key, key ∉ without bad init.names →
          (init.binds next ++ env).lookup key = (init.binds next ++ env').lookup key :=
        agree_binds h init
      simp only [resolve]
      rw [ihi hinit hfunc h, looksUpNone_congr hcond h',
        looksUpNone_congr hstep h', ihb hbody (by simp [hfunc]) h']
  | ret expr symbol _ => rw [resolve, resolve, looksUpNone_congr havoid h, h func hfunc]
  | exprStmt expr _ => rw [resolve, resolve, looksUpNone_congr havoid h]
  | _ => exact looksUpNone_congr havoid h

/-! ### Names that do not occur

A name that stands nowhere in a statement is avoided by it.
-/

theorem mem_identsList {l : List AstNode} {key : String} :
    key ∈ identsList l ↔ ∃ node ∈ l, key ∈ node.idents := by
  induction l with
  | nil => simp [identsList]
  | cons node rest ih => simp [identsList, ih]

/-- What an expression looks up stands in it. -/
theorem uses_subset_idents (node : AstNode) : ∀ u ∈ node.uses, u.1 ∈ node.idents := by
  induction node with
  | ident value symbol => simp [uses, idents]
  | funcCall value args symbol ih =>
      intro u hu
      rw [uses, List.mem_cons, mem_usesList] at hu
      rw [idents, List.mem_cons, mem_identsList]
      rcases hu with rfl | ⟨n, hn, hu⟩
      · exact Or.inl rfl
      · exact Or.inr ⟨n, hn, ih n hn u hu⟩
  | binExp value opType left right ihl ihr | varAsgn left right ihl ihr =>
      intro u hu
      rw [uses, List.mem_append] at hu
      rw [idents, List.mem_append]
      exact hu.imp (ihl u) (ihr u)
  | unaryExpr expr value opType ih => exact ih
  | lval kind ident ih => exact ih
  | _ => simp [uses]

theorem looksUpNone_of_not_mem {node : AstNode} (h : ∀ key ∈ node.idents, key ∉ bad) :
    node.looksUpNone bad = true := by
  simp only [looksUpNone, List.all_eq_true, decide_eq_true_eq]
  exact fun u hu => h u.1 (uses_subset_idents node u hu)

private theorem avoidsList_of_not_mem {nodes : List AstNode}
    (hnodes : ∀ node ∈ nodes, ∀ {bad : List String}, (∀ key ∈ node.idents, key ∉ bad) →
      node.avoids bad = true)
    (h : ∀ key ∈ identsList nodes, key ∉ bad) : avoidsList bad nodes = true := by
  induction nodes generalizing bad with
  | nil => rfl
  | cons node rest ih =>
      simp only [identsList, List.mem_append] at h
      rw [avoidsList, hnodes node (by simp) fun key hk => h key (Or.inl hk),
        ih (fun n hn => hnodes n (by simp [hn])) fun key hk hc =>
          h key (Or.inr hk) (mem_without.mp hc).1]
      rfl

/-- A statement avoids names that do not occur in it. -/
theorem avoids_of_not_mem {node : AstNode} (h : ∀ key ∈ node.idents, key ∉ bad) :
    node.avoids bad = true := by
  induction node generalizing bad with
  | varDec value type symbol =>
      have hv := h value (by simp [idents])
      simp [avoids, hv]
  | varDef value type expr symbol _ =>
      have hv := h value (by simp [idents])
      have he : expr.looksUpNone bad = true := looksUpNone_of_not_mem fun key hk => h key (by
        simp [idents, hk])
      simp [avoids, hv, he]
  | enum value enums => rfl
  | compStmt body ih => exact avoidsList_of_not_mem (fun n hn => ih n hn) h
  | ifElse ifExpr ifBody elseBody _ ihb ihe =>
      simp only [idents, List.mem_append] at h
      have hdrop : ∀ key, key ∉ bad → key ∉ without bad ifBody.names := fun key hk hc =>
        hk (mem_without.mp hc).1
      simp only [avoids, Bool.and_eq_true]
      exact ⟨⟨ihb fun key hk => h key (by simp [hk]),
        looksUpNone_of_not_mem fun key hk => hdrop key (h key (by simp [hk]))⟩,
        ihe fun key hk => hdrop key (h key (by simp [hk]))⟩
  | while_ expr body _ ihb =>
      simp only [idents, List.mem_append] at h
      simp only [avoids, Bool.and_eq_true]
      exact ⟨looksUpNone_of_not_mem fun key hk => h key (by simp [hk]),
        ihb fun key hk => h key (by simp [hk])⟩
  | for_ init cond step body ihi _ _ ihb =>
      simp only [idents, List.mem_append] at h
      have hdrop : ∀ key, key ∉ bad → key ∉ without bad init.names := fun key hk hc =>
        hk (mem_without.mp hc).1
      simp only [avoids, Bool.and_eq_true]
      exact ⟨⟨⟨ihi fun key hk => h key (by simp [hk]),
        looksUpNone_of_not_mem fun key hk => hdrop key (h key (by simp [hk]))⟩,
        looksUpNone_of_not_mem fun key hk => hdrop key (h key (by simp [hk]))⟩,
        ihb fun key hk => hdrop key (h key (by simp [hk]))⟩
  | _ => exact looksUpNone_of_not_mem h

/-! ### Environments that differ in the names avoided

By induction on the statement, from the equality of the two linked trees.
-/

private theorem usesList_erase {l : List AstNode}
    (h : ∀ node ∈ l, node.erase.uses.map Prod.fst = node.uses.map Prod.fst) :
    (usesList (eraseList l)).map Prod.fst = (usesList l).map Prod.fst := by
  induction l with
  | nil => rfl
  | cons node rest ih =>
      rw [eraseList, usesList, usesList, List.map_append, List.map_append, h node (by simp),
        ih fun n hn => h n (by simp [hn])]

/-- The names an expression looks up do not depend on its symbols. -/
theorem uses_erase (node : AstNode) :
    node.erase.uses.map Prod.fst = node.uses.map Prod.fst := by
  induction node with
  | funcCall value args symbol ih =>
      rw [erase, uses, uses, List.map_cons, List.map_cons, usesList_erase ih]
  | binExp value opType left right ihl ihr =>
      rw [erase, uses, uses, List.map_append, List.map_append, ihl, ihr]
  | varAsgn target rval ihl ihr =>
      rw [erase, uses, uses, List.map_append, List.map_append, ihl, ihr]
  | unaryExpr expr value opType ih => exact ih
  | lval kind ident ih => exact ih
  | _ => rfl

theorem looksUpNone_erase (node : AstNode) (bad : List String) :
    node.erase.looksUpNone bad = node.looksUpNone bad := by
  have h : ∀ node : AstNode,
      node.looksUpNone bad = (node.uses.map Prod.fst).all fun key => key ∉ bad := by
    intro node
    rw [looksUpNone, List.all_map]
    rfl
  rw [h, h, uses_erase]

/-- The symbols two environments have for the names in `bad` are different. -/
def Differ (env env' : Env) (bad : List String) : Prop :=
  ∀ key ∈ bad, (env.lookup key).map Binding.id ≠ (env'.lookup key).map Binding.id

theorem Differ.binds (h : Differ env env' bad) (node : AstNode) (next : Nat) :
    Differ (node.binds next ++ env) (node.binds next ++ env') (without bad node.names) := by
  intro key hkey
  obtain ⟨hbad, hn⟩ := mem_without.mp hkey
  rw [List.lookup_append, List.lookup_append, binds_lookup_eq_none.mpr hn]
  exact h key hbad

theorem looksUpNone_of_differ {node node' : AstNode} (hd : Differ env env' bad)
    (h : node.resolveExpr env = some node') (h' : node.resolveExpr env' = some node') :
    node.looksUpNone bad = true := by
  rw [← looksUpNone_erase, ← resolveExpr_erase h, looksUpNone_erase]
  simp only [looksUpNone, List.all_eq_true, decide_eq_true_eq]
  intro u hu hbad
  obtain ⟨b, hb, hsym⟩ := resolveExpr_linkedIn h u hu
  obtain ⟨b', hb', hsym'⟩ := resolveExpr_linkedIn h' u hu
  refine hd u.1 hbad ?_
  rw [hb, hb', Option.map_some, Option.map_some, ← hsym, ← hsym']

/-- Statements in a row: the names they declare are the same in both environments. -/
private theorem avoidsList_of_differ {nodes nodes' : List AstNode}
    (hnodes : ∀ node ∈ nodes, ∀ {env env' : Env} {bad : List String} {next : Nat}
      {node' : AstNode}, Differ env env' bad →
      node.resolve typeEnv func env next = some node' →
      node.resolve typeEnv func env' next = some node' → node.avoids bad = true)
    (hd : Differ env env' bad)
    (h : resolveList typeEnv func env next nodes = some nodes')
    (h' : resolveList typeEnv func env' next nodes = some nodes') :
    avoidsList bad nodes = true := by
  induction nodes generalizing env env' bad next nodes' with
  | nil => rfl
  | cons node rest ih =>
      obtain ⟨n1, r1, hn, hr, rfl⟩ := resolveList_cons_eq_some.mp h
      obtain ⟨n2, r2, hn', hr', heq⟩ := resolveList_cons_eq_some.mp h'
      obtain ⟨rfl, rfl⟩ := List.cons.inj heq
      rw [avoidsList, hnodes node (by simp) hd hn hn',
        ih (fun n hmem => hnodes n (by simp [hmem])) (hd.binds node next) hr hr']
      rfl

/--
**A statement linked alike in two environments avoids the names they have different symbols
for.**
-/
theorem avoids_of_differ {node node' : AstNode} (hd : Differ env env' bad)
    (h : node.resolve typeEnv func env next = some node')
    (h' : node.resolve typeEnv func env' next = some node') : node.avoids bad = true := by
  induction node generalizing env env' bad next node' with
  | varDec value type symbol =>
      obtain ⟨hv, -, -⟩ := resolve_varDec_eq_some.mp h
      obtain ⟨hv', -, -⟩ := resolve_varDec_eq_some.mp h'
      simp only [avoids, decide_eq_true_eq]
      exact fun hbad => hd value hbad (by rw [hv, hv'])
  | varDef value type expr symbol _ =>
      obtain ⟨hv, e1, he, -, rfl⟩ := resolve_varDef_eq_some.mp h
      obtain ⟨hv', e2, he', -, heq⟩ := resolve_varDef_eq_some.mp h'
      obtain ⟨-, -, rfl, -⟩ := varDef.inj heq
      simp only [avoids, Bool.and_eq_true, decide_eq_true_eq]
      exact ⟨fun hbad => hd value hbad (by rw [hv, hv']), looksUpNone_of_differ hd he he'⟩
  | enum value enums => rfl
  | compStmt body ih =>
      obtain ⟨b1, hb, rfl⟩ := resolve_compStmt_eq_some.mp h
      obtain ⟨b2, hb', heq⟩ := resolve_compStmt_eq_some.mp h'
      obtain rfl := compStmt.inj heq
      exact avoidsList_of_differ (fun n hn => ih n hn) hd hb hb'
  | ifElse ifExpr ifBody elseBody _ ihb ihe =>
      obtain ⟨c1, b1, e1, hb, hc, he, rfl⟩ := resolve_ifElse_eq_some.mp h
      obtain ⟨c2, b2, e2, hb', hc', he', heq⟩ := resolve_ifElse_eq_some.mp h'
      obtain ⟨rfl, rfl, rfl⟩ := ifElse.inj heq
      have hd' := hd.binds ifBody next
      simp only [avoids, Bool.and_eq_true]
      refine ⟨⟨ihb hd hb hb', looksUpNone_of_differ hd' hc hc'⟩, ?_⟩
      split at he
      · rename_i hnull
        rw [if_pos hnull] at he'
        exact ihe hd' he he'
      · rename_i hnull
        cases elseBody <;> simp [nonNull] at hnull
        rfl
  | while_ expr body _ ihb =>
      obtain ⟨e1, b1, he, hb, rfl⟩ := resolve_while_eq_some.mp h
      obtain ⟨e2, b2, he', hb', heq⟩ := resolve_while_eq_some.mp h'
      obtain ⟨rfl, rfl⟩ := while_.inj heq
      simp only [avoids, Bool.and_eq_true]
      exact ⟨looksUpNone_of_differ hd he he', ihb hd hb hb'⟩
  | for_ init cond step body ihi _ _ ihb =>
      obtain ⟨i1, c1, s1, b1, hi, hc, hs, hb, rfl⟩ := resolve_for_eq_some.mp h
      obtain ⟨i2, c2, s2, b2, hi', hc', hs', hb', heq⟩ := resolve_for_eq_some.mp h'
      obtain ⟨rfl, rfl, rfl, rfl⟩ := for_.inj heq
      have hd' := hd.binds init next
      simp only [avoids, Bool.and_eq_true]
      exact ⟨⟨⟨ihi hd hi hi', looksUpNone_of_differ hd' hc hc'⟩, looksUpNone_of_differ hd' hs hs'⟩,
        ihb hd' hb hb'⟩
  | ret expr symbol _ =>
      obtain ⟨e1, he, rfl⟩ := resolve_ret_eq_some.mp h
      obtain ⟨e2, he', heq⟩ := resolve_ret_eq_some.mp h'
      obtain ⟨rfl, -⟩ := ret.inj heq
      exact looksUpNone_of_differ hd he he'
  | exprStmt expr _ =>
      obtain ⟨e1, he, rfl⟩ := resolve_exprStmt_eq_some.mp h
      obtain ⟨e2, he', heq⟩ := resolve_exprStmt_eq_some.mp h'
      obtain rfl := exprStmt.inj heq
      exact looksUpNone_of_differ hd he he'
  | _ => exact looksUpNone_of_differ hd h h'

end AstNode

end MyLang
