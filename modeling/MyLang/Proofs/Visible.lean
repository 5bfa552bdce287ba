/-
When the names of a program are resolved to what is in scope.

`sym_check` goes wrong in two places.  The parameters of a function are added to the
global scope and never taken out of it, so a later function finds them; and the body of an
`if` is checked before its condition, so the condition finds what the body declares.  A
program's names are resolved as they should be exactly when no function uses a name that
way.

Both are about names that are in the environment and should not be.  `Visible` divides the
names of an environment: those that stand for what they should, and the `bad` ones, which
stand for a leaked declaration.  A new declaration takes its name out of the bad ones, and
the end of a block brings them back.  So a statement is resolved as it should be just in
case it looks up no bad name (`resolved_iff`), and the rest is to keep account of the bad
names along a program.

Symbols are numbers here, given out in the order of the declarations, so that a later
declaration is never taken for an earlier one of the same name.
-/
import MyLang.Proofs.Resolve

namespace MyLang

variable {typeEnv : HashMap TypeSpecifier} {func : String} {env bs bs1 bs2 : Env}
  {vis ids ids1 ids2 : List SymId} {bad names names1 names2 : List String} {next n n1 n2 : Nat}

@[simp] theorem mem_without {names drop : List String} {key : String} :
    key ∈ without names drop ↔ key ∈ names ∧ key ∉ drop := by
  simp [without]

/-! ### Declarations and their symbols

What a statement leaves in scope is read off it: its names, each with a symbol of its own.
-/

/--
`bs` are declarations of `names` with symbols among `ids`, numbered from `next` to `next +
n`.
-/
structure Declared (bs : Env) (ids : List SymId) (names : List String) (next n : Nat) : Prop where
  found : ∀ key ∈ names, ∃ b, bs.lookup key = some b ∧ b.id ∈ ids
  absent : ∀ key, key ∉ names → bs.lookup key = none
  range : ∀ id : Nat, id ∈ ids → next ≤ id ∧ id < next + n

namespace Declared

theorem nil (next n : Nat) : Declared [] [] [] next n :=
  ⟨by simp, fun _ _ => rfl, by simp⟩

theorem single (key : String) (next : Nat) (arity : Option Nat) :
    Declared [(key, ⟨next, arity⟩)] [next] [key] next 1 := by
  refine ⟨fun key' h => ?_, fun key' h => ?_, fun id h => ?_⟩
  · obtain rfl := List.mem_singleton.mp h
    exact ⟨⟨next, arity⟩, by simp, by simp⟩
  · have hne : (key' == key) = false := by simpa using h
    simp [List.lookup_cons, hne]
  · obtain rfl := List.mem_singleton.mp h
    omega

/-- Declarations one after the other; the later ones come first in the environment. -/
theorem append (h1 : Declared bs1 ids1 names1 next n1)
    (h2 : Declared bs2 ids2 names2 (next + n1) n2) :
    Declared (bs2 ++ bs1) (ids2 ++ ids1) (names1 ++ names2) next (n1 + n2) := by
  refine ⟨fun key hkey => ?_, fun key hkey => ?_, fun id hid => ?_⟩
  · by_cases hk : key ∈ names2
    · obtain ⟨b, hb, hid⟩ := h2.found key hk
      exact ⟨b, by simp [List.lookup_append, hb], List.mem_append_left _ hid⟩
    · obtain ⟨b, hb, hid⟩ := h1.found key ((List.mem_append.mp hkey).resolve_right hk)
      exact ⟨b, by simp [List.lookup_append, h2.absent key hk, hb], List.mem_append_right _ hid⟩
  · rw [List.mem_append, not_or] at hkey
    simp [List.lookup_append, h2.absent key hkey.2, h1.absent key hkey.1]
  · rcases List.mem_append.mp hid with hid | hid
    · have := h2.range id hid
      omega
    · have := h1.range id hid
      omega

/-- Only the elements of the lists matter. -/
theorem congr (h : Declared bs ids names next n) (hnames : ∀ key, key ∈ names1 ↔ key ∈ names)
    (hids : ∀ id, id ∈ ids1 ↔ id ∈ ids) : Declared bs ids1 names1 next n := by
  refine ⟨fun key hk => ?_, fun key hk => h.absent key fun hc => hk ((hnames key).mpr hc),
    fun id hid => h.range id ((hids id).mp hid)⟩
  obtain ⟨b, hb, hid⟩ := h.found key ((hnames key).mp hk)
  exact ⟨b, hb, (hids _).mpr hid⟩

theorem bindNames (names : List String) (next : Nat) :
    Declared (bindNames next names) (List.range' next names.length) names next names.length := by
  induction names generalizing next with
  | nil => exact nil next 0
  | cons key rest ih =>
      have h := (single key next none).append (ih (next + 1))
      rw [bindNames_cons, List.length_cons, List.range'_succ, Nat.add_comm rest.length 1]
      refine h.congr (fun key => by simp) fun id => ?_
      rw [List.mem_append, List.mem_singleton, List.mem_cons, Or.comm]

end Declared

namespace AstNode

theorem leaves_of_isExpr {node : AstNode} (he : node.isExpr = true) (next : Nat) :
    node.leaves next = [] := by
  cases node <;> first | rfl | simp [isExpr] at he

theorem resolved_of_isExpr {node : AstNode} (he : node.isExpr = true) (vis : List SymId)
    (next : Nat) : node.resolved vis next = node.resolvedIn vis := by
  cases node <;> first | rfl | simp [isExpr] at he

theorem avoids_of_isExpr {node : AstNode} (he : node.isExpr = true) (bad : List String) :
    node.avoids bad = node.looksUpNone bad := by
  cases node <;> first | rfl | simp [isExpr] at he

theorem condsApart_of_isDecl {node : AstNode} (h : node.isDecl = true) :
    node.condsApart = true := by
  cases node <;> first | rfl | simp [isDecl] at h

end AstNode

/--
**What a linked statement leaves in scope are declarations of its names, numbered from
`next` on.**
-/
theorem resolve_declared {node node' : AstNode} (hn : node.isStmt = true)
    (h : node.resolve typeEnv func env next = some node') :
    Declared (node'.binds next) (node'.leaves next) node'.names next node'.declCount := by
  induction node generalizing env next node' with
  | varDec value type symbol =>
      obtain ⟨-, -, rfl⟩ := AstNode.resolve_varDec_eq_some.mp h
      exact Declared.single value next none
  | varDef value type expr symbol _ =>
      obtain ⟨-, expr', -, -, rfl⟩ := AstNode.resolve_varDef_eq_some.mp h
      exact Declared.single value next none
  | enum value enums =>
      obtain rfl := Option.some.inj h
      exact Declared.bindNames enums next
  | ifElse ifExpr ifBody elseBody _ ihb ihe =>
      simp only [AstNode.isStmt, Bool.and_eq_true, Bool.or_eq_true] at hn
      obtain ⟨ifExpr', ifBody', elseBody', hb, -, he, rfl⟩ := AstNode.resolve_ifElse_eq_some.mp h
      have hbody := ihb hn.1.2 hb
      split at he
      · rename_i hnull
        rw [← AstNode.declCount_of_resolve hb] at he
        exact hbody.append (ihe (hn.2.resolve_left (by simp [hnull])) he)
      · rename_i hnull
        have hnull' : elseBody = .null := by
          cases elseBody <;> simp [AstNode.nonNull] at hnull
          rfl
        subst he hnull'
        exact hbody.append (Declared.nil _ _)
  | while_ expr body _ ihb =>
      simp only [AstNode.isStmt, Bool.and_eq_true] at hn
      obtain ⟨expr', body', -, hb, rfl⟩ := AstNode.resolve_while_eq_some.mp h
      have hbody : Declared (body'.binds next) (body'.leaves next) body'.names next
          body'.declCount := ihb hn.2 hb
      exact hbody
  | compStmt body _ =>
      obtain ⟨body', -, rfl⟩ := AstNode.resolve_compStmt_eq_some.mp h
      exact Declared.nil _ _
  | for_ init cond step body _ _ _ _ =>
      obtain ⟨init', cond', step', body', -, -, -, -, rfl⟩ := AstNode.resolve_for_eq_some.mp h
      exact Declared.nil _ _
  | ret expr symbol _ =>
      obtain ⟨expr', -, rfl⟩ := AstNode.resolve_ret_eq_some.mp h
      exact Declared.nil _ _
  | exprStmt expr _ =>
      obtain ⟨expr', -, rfl⟩ := AstNode.resolve_exprStmt_eq_some.mp h
      exact Declared.nil _ _
  | _ => simp [AstNode.isStmt] at hn

/-! ### What is visible

The same statement may be linked in two environments that differ in the bad names only.
-/

/--
The names that stand for something in `vis` are those not in `bad`.  Everything
declared so far has a number less than `next`.
-/
structure Visible (env : Env) (vis : List SymId) (bad : List String) (next : Nat) : Prop where
  iff : ∀ key b, env.lookup key = some b → (b.id ∈ vis ↔ key ∉ bad)
  bound : ∀ key b, env.lookup key = some b → (b.id : Nat) < next
  vis_bound : ∀ id : Nat, id ∈ vis → id < next
  bad_found : ∀ key ∈ bad, env.lookup key ≠ none

namespace Visible

/-- New declarations are visible. -/
theorem extend (h : Visible env vis bad next) (hd : Declared bs ids names next n) :
    Visible (bs ++ env) (ids ++ vis) (without bad names) (next + n) := by
  refine ⟨fun key b hb => ?_, fun key b hb => ?_, fun id hid => ?_, fun key hk => ?_⟩
  · rw [List.mem_append, mem_without]
    by_cases hk : key ∈ names
    · obtain ⟨b', hb', hid⟩ := hd.found key hk
      rw [List.lookup_append, hb'] at hb
      obtain rfl := Option.some.inj hb
      simp [hid, hk]
    · rw [List.lookup_append, hd.absent key hk] at hb
      have hlt := h.bound key b hb
      have hnew : b.id ∉ ids := fun hc => absurd hlt (not_lt.mpr (hd.range _ hc).1)
      simp [hnew, hk, h.iff key b hb]
  · by_cases hk : key ∈ names
    · obtain ⟨b', hb', hid⟩ := hd.found key hk
      rw [List.lookup_append, hb'] at hb
      obtain rfl := Option.some.inj hb
      exact (hd.range _ hid).2
    · rw [List.lookup_append, hd.absent key hk] at hb
      exact lt_of_lt_of_le (h.bound key b hb) (Nat.le_add_right next n)
  · rcases List.mem_append.mp hid with hid | hid
    · exact (hd.range id hid).2
    · have := h.vis_bound id hid
      omega
  · obtain ⟨hbad, hname⟩ := mem_without.mp hk
    rw [List.lookup_append, hd.absent key hname]
    exact h.bad_found key hbad

/-- New declarations that are not visible hide what the names stood for. -/
theorem hide (h : Visible env vis bad next) (hd : Declared bs ids names next n) :
    Visible (bs ++ env) vis (names ++ bad) (next + n) := by
  have hext := h.extend hd
  refine ⟨fun key b hb => ?_, hext.bound, fun id hid => ?_, fun key hk => ?_⟩
  · rw [List.mem_append]
    by_cases hk : key ∈ names
    · obtain ⟨b', hb', hid⟩ := hd.found key hk
      rw [List.lookup_append, hb'] at hb
      obtain rfl := Option.some.inj hb
      have hge := (hd.range _ hid).1
      have hold : b'.id ∉ vis := fun hc => absurd (h.vis_bound _ hc) (not_lt.mpr hge)
      simp [hold, hk]
    · rw [List.lookup_append, hd.absent key hk] at hb
      simp [hk, h.iff key b hb]
  · have := h.vis_bound id hid
    omega
  · by_cases hname : key ∈ names
    · obtain ⟨b, hb, -⟩ := hd.found key hname
      simp [List.lookup_append, hb]
    · rw [List.lookup_append, hd.absent key hname]
      exact h.bad_found key ((List.mem_append.mp hk).resolve_left hname)

theorem mono (h : Visible env vis bad next) {next' : Nat} (hle : next ≤ next') :
    Visible env vis bad next' :=
  ⟨h.iff, fun key b hb => lt_of_lt_of_le (h.bound key b hb) hle,
    fun id hid => lt_of_lt_of_le (h.vis_bound id hid) hle, h.bad_found⟩

/-- An expression is linked to visible symbols exactly if it looks up no bad names. -/
theorem resolvedIn_iff (h : Visible env vis bad next) {node node' : AstNode}
    (hres : node.resolveExpr env = some node') :
    node'.resolvedIn vis = true ↔ node'.looksUpNone bad = true := by
  have hlinked := AstNode.resolveExpr_linkedIn hres
  simp only [AstNode.resolvedIn, AstNode.looksUpNone, List.all_eq_true, decide_eq_true_eq]
  refine forall₂_congr fun u hu => ?_
  obtain ⟨b, hb, hsym⟩ := hlinked u hu
  rw [hsym, ← h.iff u.1 b hb]
  simp

end Visible

/--
Looking up none of some names or of others is looking up none of both; dropped ones count
once.
-/
theorem looksUpNone_append {node : AstNode} {names bad : List String} :
    node.looksUpNone (names ++ bad) = true ↔
      node.looksUpNone (without bad names) = true ∧ node.looksUpNone names = true := by
  simp only [AstNode.looksUpNone, List.all_eq_true, decide_eq_true_eq]
  rw [← forall₂_and]
  refine forall₂_congr fun u _ => ?_
  rw [List.mem_append, mem_without]
  by_cases hu : u.1 ∈ names <;> simp [hu]

/-- Statements in a row, each seeing what the ones before declare. -/
private theorem resolvedList_iff {nodes nodes' : List AstNode}
    (hnodes : ∀ node ∈ nodes, node.isStmt = true)
    (hiff : ∀ node ∈ nodes, ∀ {env : Env} {vis : List SymId} {bad : List String} {next : Nat}
      {node' : AstNode}, node.resolve typeEnv func env next = some node' →
      Visible env vis bad next →
      (node'.resolved vis next = true ↔ node'.avoids bad = true ∧ node'.condsApart = true))
    (hres : AstNode.resolveList typeEnv func env next nodes = some nodes')
    (hv : Visible env vis bad next) :
    AstNode.resolvedList vis next nodes' = true ↔
      AstNode.avoidsList bad nodes' = true ∧ AstNode.condsApartList nodes' = true := by
  induction nodes generalizing env vis bad next nodes' with
  | nil =>
      obtain rfl := Option.some.inj hres
      simp [AstNode.resolvedList, AstNode.avoidsList, AstNode.condsApartList]
  | cons node rest ih =>
      obtain ⟨node', rest', h1, h2, rfl⟩ := AstNode.resolveList_cons_eq_some.mp hres
      have hd := resolve_declared (hnodes node (by simp)) h1
      rw [← AstNode.binds_of_resolve h1, ← AstNode.declCount_of_resolve h1] at h2
      have hnode := hiff node (by simp) h1 hv
      have hrest := ih (fun n hn => hnodes n (by simp [hn])) (fun n hn => hiff n (by simp [hn])) h2
        (hv.extend hd)
      simp only [AstNode.resolvedList, AstNode.avoidsList, AstNode.condsApartList, Bool.and_eq_true,
        hnode, hrest]
      grind

/--
**A statement resolves its names to what is visible exactly if it avoids the names that
stand for something else, and no condition of an `if` looks into the `if`'s body.**
-/
theorem resolved_iff {node node' : AstNode} (hn : node.isStmt = true)
    (hres : node.resolve typeEnv func env next = some node') (hv : Visible env vis bad next) :
    node'.resolved vis next = true ↔ node'.avoids bad = true ∧ node'.condsApart = true := by
  induction node generalizing env vis bad next node' with
  | varDec value type symbol =>
      obtain ⟨hnone, -, rfl⟩ := AstNode.resolve_varDec_eq_some.mp hres
      have hbad : value ∉ bad := fun hc => hv.bad_found value hc hnone
      simp [AstNode.resolved, AstNode.avoids, AstNode.condsApart, hbad]
  | varDef value type expr symbol _ =>
      obtain ⟨hnone, expr', he, -, rfl⟩ := AstNode.resolve_varDef_eq_some.mp hres
      have hbad : value ∉ bad := fun hc => hv.bad_found value hc hnone
      simp [AstNode.resolved, AstNode.avoids, AstNode.condsApart, hbad, hv.resolvedIn_iff he]
  | enum value enums =>
      obtain rfl := Option.some.inj hres
      simp [AstNode.resolved, AstNode.avoids, AstNode.condsApart]
  | compStmt body ih =>
      rw [AstNode.isStmt, AstNode.areStmts_iff] at hn
      obtain ⟨body', hb, rfl⟩ := AstNode.resolve_compStmt_eq_some.mp hres
      exact resolvedList_iff hn (fun n hmem => ih n hmem (hn n hmem)) hb hv
  | ifElse ifExpr ifBody elseBody _ ihb ihe =>
      simp only [AstNode.isStmt, Bool.and_eq_true, Bool.or_eq_true] at hn
      obtain ⟨ifExpr', ifBody', elseBody', hb, hc, he, rfl⟩ :=
        AstNode.resolve_ifElse_eq_some.mp hres
      have hd := resolve_declared hn.1.2 hb
      rw [← AstNode.binds_of_resolve hb, ← AstNode.declCount_of_resolve hb] at he
      rw [← AstNode.binds_of_resolve hb] at hc
      have hbody := ihb hn.1.2 hb hv
      -- the condition is linked with the names of the body in scope, which ought to be hidden
      have hcond := (hv.hide hd).resolvedIn_iff hc
      have helse : elseBody'.resolved (ifBody'.leaves next ++ vis)
        (next + ifBody'.declCount) = true ↔
          elseBody'.avoids (without bad ifBody'.names) = true ∧ elseBody'.condsApart = true := by
        split at he
        · rename_i hnull
          exact ihe (hn.2.resolve_left (by simp [hnull])) he (hv.extend hd)
        · rename_i hnull
          have hnull' : elseBody = .null := by
            cases elseBody <;> simp [AstNode.nonNull] at hnull
            rfl
          subst he hnull'
          simp [AstNode.resolved, AstNode.avoids, AstNode.condsApart, AstNode.resolvedIn,
            AstNode.looksUpNone, AstNode.uses]
      rw [looksUpNone_append] at hcond
      simp only [AstNode.resolved, AstNode.avoids, AstNode.condsApart, Bool.and_eq_true, hbody,
        hcond, helse]
      grind
  | while_ expr body _ ihb =>
      simp only [AstNode.isStmt, Bool.and_eq_true] at hn
      obtain ⟨expr', body', he, hb, rfl⟩ := AstNode.resolve_while_eq_some.mp hres
      simp only [AstNode.resolved, AstNode.avoids, AstNode.condsApart, Bool.and_eq_true,
        hv.resolvedIn_iff he, ihb hn.2 hb hv]
      grind
  | for_ init cond step body ihi _ _ ihb =>
      simp only [AstNode.isStmt, Bool.and_eq_true, Bool.or_eq_true] at hn
      obtain ⟨⟨⟨hinit, -⟩, -⟩, hbody⟩ := hn
      obtain ⟨init', cond', step', body', hi, hc, hs, hb, rfl⟩ :=
        AstNode.resolve_for_eq_some.mp hres
      -- a declaration for a header, or an expression that declares nothing
      have hheader : Declared (init'.binds next) (init'.leaves next) init'.names next
            init'.declCount ∧
          (init'.resolved vis next = true ↔ init'.avoids bad = true) := by
        rcases hinit with hinit | hinit
        · have hstmt := AstNode.isStmt_of_isDecl hinit
          have happ : init'.condsApart = true := by
            refine AstNode.condsApart_of_isDecl ?_
            rw [← AstNode.isDecl_erase, AstNode.resolve_erase hi, AstNode.isDecl_erase, hinit]
          refine ⟨resolve_declared hstmt hi, ?_⟩
          rw [ihi hstmt hi hv, happ]
          simp
        · rw [AstNode.resolve_of_isExpr hinit] at hi
          have hinit' : init'.isExpr = true := by rw [AstNode.isExpr_of_resolveExpr hi, hinit]
          rw [AstNode.binds_of_isExpr hinit', AstNode.leaves_of_isExpr hinit',
            AstNode.names_of_isExpr hinit', AstNode.resolved_of_isExpr hinit',
            AstNode.avoids_of_isExpr hinit']
          exact ⟨Declared.nil _ _, hv.resolvedIn_iff hi⟩
      obtain ⟨hd, hi'⟩ := hheader
      rw [← AstNode.binds_of_resolve hi] at hc hs hb
      rw [← AstNode.declCount_of_resolve hi] at hb
      have hv' := hv.extend hd
      simp only [AstNode.resolved, AstNode.avoids, AstNode.condsApart, Bool.and_eq_true,
        hv'.resolvedIn_iff hc, hv'.resolvedIn_iff hs, ihb hbody hb hv', hi']
      grind
  | ret expr symbol _ =>
      obtain ⟨expr', he, rfl⟩ := AstNode.resolve_ret_eq_some.mp hres
      simp [AstNode.resolved, AstNode.avoids, AstNode.condsApart, hv.resolvedIn_iff he]
  | exprStmt expr _ =>
      obtain ⟨expr', he, rfl⟩ := AstNode.resolve_exprStmt_eq_some.mp hres
      simp [AstNode.resolved, AstNode.avoids, AstNode.condsApart, hv.resolvedIn_iff he]
  | _ => simp [AstNode.isStmt] at hn

/-! ### Functions and programs

Behind a function its parameters are bad names, unless the name is declared again.
-/

theorem linkParams_symbols (next : Nat) (params : List Param) :
    (linkParams next params).filterMap Param.symbol = List.range' next params.length := by
  induction params generalizing next with
  | nil => rfl
  | cons param rest ih =>
      have h := ih (next + 1)
      simp only [linkParams] at h ⊢
      rw [List.zipIdx_cons, List.map_cons, List.filterMap_cons, h, List.length_cons,
        List.range'_succ]

theorem paramNames_linkParams (next : Nat) (params : List Param) :
    paramNames (linkParams next params) = paramNames params := by
  induction params generalizing next with
  | nil => rfl
  | cons param rest ih =>
      have h := ih (next + 1)
      simp only [linkParams, paramNames, List.map_map] at h ⊢
      rw [List.zipIdx_cons, List.map_cons, List.map_cons, h]
      rfl

theorem linkParams_length (next : Nat) (params : List Param) :
    (linkParams next params).length = params.length := by
  simp [linkParams]

theorem without_without (names drop drop' : List String) :
    without (without names drop) drop' = without names (drop' ++ drop) := by
  rw [without, without, without, List.filter_filter]
  refine List.filter_congr fun key _ => ?_
  simp [not_or]

/--
**The names of a program are resolved to what is in scope exactly if no parameter leaks and
no condition looks into a body.**
-/
theorem resolvedProg_iff {funcs : List SymId} {leaked : List String} {prog prog' : List AstNode}
    (hprog : ∀ node ∈ prog, node.isFuncDef = true)
    (hres : resolveProg typeEnv env next prog = some prog') (hv : Visible env funcs leaked next) :
    resolvedProg funcs next prog' = true ↔
      leakFree leaked prog' = true ∧ condsApartProg prog' = true := by
  induction prog generalizing env funcs leaked next prog' with
  | nil =>
      obtain rfl := Option.some.inj hres
      simp [resolvedProg, leakFree, condsApartProg]
  | cons node rest ih =>
      have hnode := hprog node (by simp)
      unfold AstNode.isFuncDef at hnode
      split at hnode
      · rename_i value type body params symbol
        obtain ⟨body', rest', -, -, -, hb, hrest, rfl⟩ := resolveProg_cons_eq_some.mp hres
        have hparams := Declared.bindNames (paramNames params) next
        rw [show (paramNames params).length = params.length by simp [paramNames]] at hparams
        have hself := Declared.single value (next + params.length) (some params.length)
        -- in its body the function sees its parameters, the next function does not
        have hin := (hv.extend hparams).extend hself
        have hout := (hv.hide hparams).extend hself
        rw [without_without] at hin
        have hbody := @resolved_iff _ _ _ _ _ _ (.compStmt body) _ hnode hb hin
        have hle : next + params.length + 1 ≤ next + funcDeclCount params (.compStmt body) := by
          rw [funcDeclCount]
          omega
        have hrest' := ih (fun n hn => hprog n (by simp [hn])) hrest (hout.mono hle)
        have hcount : funcDeclCount (linkParams next params) body'
            = funcDeclCount params (.compStmt body) := by
          rw [funcDeclCount, funcDeclCount, linkParams_length, AstNode.declCount_of_resolve hb]
        simp only [resolvedProg, leakFree, condsApartProg, Bool.and_eq_true, linkParams_symbols,
          paramNames_linkParams, linkParams_length, hcount, Option.toList_some]
        rw [hrest', ← List.singleton_append (x := value), hbody]
        grind
      · simp at hnode

/--
**Which programs resolve their names as lexical scoping has it.**  In an accepted
program every use of a name is linked to a declaration before it whose scope encloses
it if and only if no function uses a name that last stood for a parameter of a function
before it, and no condition of an `if` a name that the body of the `if` leaves in scope.
-/
theorem resolved_iff_leakFree {uninit : Int} {arena : SymId → Nat} {tokens : List Token}
    {r : SemaResult} (h : Accepted uninit arena tokens r) :
    resolvedProg [] 0 r.prog = true ↔ leakFree [] r.prog = true ∧ condsApartProg r.prog = true := by
  obtain ⟨prog, rest, -, hprog, hres⟩ := h.resolveProg
  exact resolvedProg_iff hprog hres ⟨by simp, by simp, by simp, by simp⟩

/-- `int f(int x) { return x; }  int main() { return f(1); }` -/
def scopedTokens : List Token :=
  [tok .type "int", tok .ident "f", tok .lparen "(", tok .type "int", tok .ident "x",
    tok .rparen ")", tok .lbrace "\x7b", tok .return_ "return", tok .ident "x", tok .semicolon ";",
    tok .rbrace "\x7d",
    tok .type "int", tok .ident "main", tok .lparen "(", tok .rparen ")", tok .lbrace "\x7b",
    tok .return_ "return", tok .ident "f", tok .lparen "(", tok .num "1", tok .rparen ")",
    tok .semicolon ";", tok .rbrace "\x7d"]

theorem resolved_iff_leakFree_scoped : ∃ r, Accepted 0 (fun _ => 0) scopedTokens r ∧
    resolvedProg [] 0 r.prog = true := by
  have hacc : ∃ r, Accepted 0 (fun _ => 0) scopedTokens r ∧ leakFree [] r.prog = true ∧
      condsApartProg r.prog = true := ⟨_, ⟨_, _, rfl, rfl⟩, rfl, rfl⟩
  obtain ⟨r, hacc, hclean⟩ := hacc
  exact ⟨r, hacc, (resolved_iff_leakFree hacc).mpr hclean⟩

/-- `int f(int x) { return 0; }  int main() { return x; }` -/
def leakTokens : List Token :=
  [tok .type "int", tok .ident "f", tok .lparen "(", tok .type "int", tok .ident "x",
    tok .rparen ")", tok .lbrace "\x7b", tok .return_ "return", tok .num "0", tok .semicolon ";",
    tok .rbrace "\x7d",
    tok .type "int", tok .ident "main", tok .lparen "(", tok .rparen ")", tok .lbrace "\x7b",
    tok .return_ "return", tok .ident "x", tok .semicolon ";", tok .rbrace "\x7d"]

/-- `int main() { if (y) int y = 1; return 0; }` -/
def condTokens : List Token :=
  [tok .type "int", tok .ident "main", tok .lparen "(", tok .rparen ")", tok .lbrace "\x7b",
    tok .if_ "if", tok .lparen "(", tok .ident "y", tok .rparen ")",
    tok .type "int", tok .ident "y", tok .assign "=", tok .num "1", tok .semicolon ";",
    tok .return_ "return", tok .num "0", tok .semicolon ";", tok .rbrace "\x7d"]

/-- `main` uses the parameter of `f`, and a condition uses a variable declared after it. -/
theorem leakTokens_condTokens_not_resolved :
    (∃ r, Accepted 0 (fun _ => 0) leakTokens r ∧ resolvedProg [] 0 r.prog = false) ∧
    ∃ r, Accepted 0 (fun _ => 0) condTokens r ∧ resolvedProg [] 0 r.prog = false :=
  ⟨⟨_, ⟨_, _, rfl, rfl⟩, rfl⟩, ⟨_, ⟨_, _, rfl, rfl⟩, rfl⟩⟩

end MyLang
