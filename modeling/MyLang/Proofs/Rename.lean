/-
What renaming a parameter of a function changes in the rest of the program.

The parameters of a function stay in the global scope behind it.  So behind the function
the environments of the original and the renamed program differ in the new name, and in
the old one unless the function is called so.  The functions that follow are not affected
if they avoid these names, and in an accepted program only then.

The proof goes through `resolveProg`, which links the names of a program without the
tables of the analysis (`Scoping.lean`).  The function itself is linked to the same tree
up to the names, whatever it contains (`resolveFunc_renameParam`).  For the functions
behind it `Proofs/Agree.lean` says when two environments link a function alike: when it
avoids every name that they have different symbols for.  One direction of the theorem is
that lemma, the other its converse for environments that differ (`AstNode.Differ`).

Linking is not all of the verdict: the program is type-checked, too.  The type check reads
symbols and their types and no names, so it says the same of the renamed program
(`typeCheck_relabel`).
-/
import MyLang.Proofs.Relabel

namespace MyLang

open StateExcept

variable {arena : SymId → Nat} {typeEnv : HashMap TypeSpecifier} {env env' : Env}
  {bad : List String} {next : Nat} {f : String → String}

/-! ### Relabelled trees are checked alike

`relabel` changes the names in a tree and leaves its symbols; the type check goes by the
symbols.
-/

namespace AstNode

theorem isExpr_relabel (node : AstNode) : (node.relabel f).isExpr = node.isExpr := by
  induction node with
  | binExp value opType left right ihl ihr => simp only [relabel, isExpr, ihl, ihr]
  | unaryExpr postfixExpr value opType ih => simp only [relabel, isExpr, ih]
  | funcCall value args symbol ih =>
      rw [relabel, isExpr, isExpr, relabelList_eq_map, Bool.eq_iff_iff, areExprs_iff, areExprs_iff,
        List.forall_mem_map]
      exact forall₂_congr fun n hn => by rw [ih n hn]
  | varAsgn target rval _ ihr =>
      cases target with
      | lval kind ident =>
          cases kind
          cases ident <;> simp only [relabel, isExpr, ihr]
      | _ => rfl
  | _ => rfl

theorem isDecl_relabel (node : AstNode) : (node.relabel f).isDecl = node.isDecl := by
  cases node with
  | varDef value type expr symbol => exact isExpr_relabel expr
  | _ => rfl

theorem isStmt_relabel (node : AstNode) : (node.relabel f).isStmt = node.isStmt := by
  induction node with
  | varDef value type expr symbol _ => exact isExpr_relabel expr
  | ret expr func _ => exact isExpr_relabel expr
  | exprStmt expr _ => exact isExpr_relabel expr
  | ifElse ifExpr ifBody elseBody _ ihb ihe =>
      simp only [relabel, isStmt, isExpr_relabel, nonNull_relabel, ihb, ihe]
  | compStmt body ih =>
      rw [relabel, isStmt, isStmt, relabelList_eq_map, Bool.eq_iff_iff, areStmts_iff, areStmts_iff,
        List.forall_mem_map]
      exact forall₂_congr fun n hn => by rw [ih n hn]
  | while_ expr body _ ihb => simp only [relabel, isStmt, isExpr_relabel, ihb]
  | for_ init cond step body _ _ _ ihb =>
      simp only [relabel, isStmt, isExpr_relabel, isDecl_relabel, ihb]
  | _ => rfl

private theorem declTypesList_relabel {l : List AstNode}
    (h : ∀ node ∈ l, (node.relabel f).declTypes typeEnv = node.declTypes typeEnv) :
    declTypesList typeEnv (relabelList f l) = declTypesList typeEnv l := by
  induction l with
  | nil => rfl
  | cons node rest ih =>
      rw [relabelList, declTypesList, declTypesList, h node (by simp),
        ih fun n hn => h n (by simp [hn])]

theorem declTypes_relabel (node : AstNode) :
    (node.relabel f).declTypes typeEnv = node.declTypes typeEnv := by
  induction node with
  | compStmt body ih => exact declTypesList_relabel ih
  | ifElse ifExpr ifBody elseBody _ ihb ihe => rw [relabel, declTypes, declTypes, ihb, ihe]
  | while_ expr body _ ihb => exact ihb
  | for_ init cond step body ihi _ _ ihb => rw [relabel, declTypes, declTypes, ihi, ihb]
  | enum value enums => simp [relabel, declTypes, Function.comp_def]
  | _ => rfl

end AstNode

section TypeCheck

variable {entries entries' : List SymTabEntry}

theorem symbolType_congr (h : entries'.map SymTabEntry.type = entries.map SymTabEntry.type)
    (symbol : Option SymId) : symbolType entries' symbol = symbolType entries symbol := by
  have hid : ∀ id : SymId, (entries'[id]?).map SymTabEntry.type
      = (entries[id]?).map SymTabEntry.type := by
    intro id
    rw [← List.getElem?_map, h, List.getElem?_map]
  cases symbol with
  | none => rfl
  | some id =>
      have := hid id
      simp only [symbolType, Option.bind_some]
      cases h1 : entries'[id]? <;> cases h2 : entries[id]? <;> simp_all

private theorem typeCheckList_relabel {l : List AstNode}
    (h : ∀ node ∈ l, typeCheck entries' (node.relabel f) = typeCheck entries node) :
    typeCheckList entries' (AstNode.relabelList f l) = typeCheckList entries l := by
  induction l with
  | nil => rfl
  | cons node rest ih =>
      rw [AstNode.relabelList, typeCheckList, typeCheckList, h node (by simp),
        ih fun n hn => h n (by simp [hn])]

/-- **Only the symbols of a tree and the types of their entries matter to the type check.** -/
theorem typeCheck_relabel (h : entries'.map SymTabEntry.type = entries.map SymTabEntry.type)
    (node : AstNode) : typeCheck entries' (node.relabel f) = typeCheck entries node := by
  -- on the tree; where a symbol is looked up, the entries have the same types
  induction node with
  | compStmt body ih =>
      rw [AstNode.relabel, typeCheck, typeCheck, typeCheckList_relabel ih]
  | ifElse ifExpr ifBody elseBody _ ihb ihe =>
      rw [AstNode.relabel, typeCheck, typeCheck, ihb, ihe, AstNode.nonNull_relabel]
  | lval kind ident _ =>
      cases kind
      cases ident <;> first | rfl | exact symbolType_congr h _
  | varDef value type expr symbol ih | ret expr symbol ih =>
      rw [AstNode.relabel, typeCheck, typeCheck, ih, symbolType_congr h]
  | ident | funcCall => exact symbolType_congr h _
  | binExp value opType left right ihl _ => rw [AstNode.relabel, typeCheck, typeCheck, ihl]
  | varAsgn target rval ihl ihr => rw [AstNode.relabel, typeCheck, typeCheck, ihl, ihr]
  | funcDef value type body params symbol ih =>
      rw [AstNode.relabel, typeCheck, typeCheck, ih]
  | while_ expr body _ ih => exact ih
  | for_ init cond step body _ _ _ ih => exact ih
  | exprStmt expr ih => exact ih
  | unaryExpr expr value opType ih => exact ih
  | intConst | enum | varDec | emptyExpr | null => rfl

private theorem relabelList_id {l : List AstNode} (h : ∀ node ∈ l, node.relabel id = node) :
    AstNode.relabelList id l = l := by
  rw [AstNode.relabelList_eq_map]
  exact (List.map_congr_left h).trans (List.map_id l)

theorem relabel_id (node : AstNode) : node.relabel id = node := by
  induction node with
  | compStmt body ih => rw [AstNode.relabel, relabelList_id ih]
  | funcCall value args symbol ih => rw [AstNode.relabel, relabelList_id ih, id]
  | _ => simp [AstNode.relabel, *]

theorem typeCheck_congr (h : entries'.map SymTabEntry.type = entries.map SymTabEntry.type)
    (node : AstNode) : typeCheck entries' node = typeCheck entries node := by
  rw [← typeCheck_relabel (f := id) h node, relabel_id]

end TypeCheck

/-! ### The renamed function

The new name is one that the function does not mention.  In its parameters and its body it
takes the place of the old name, with the same symbol; behind the function it is in scope
and the old name is not, unless the function has that name.
-/

section Func

variable {value type x y : String} {params : List Param} {body : AstNode} {symbol : Option SymId}

/-- Parameters with `x` renamed to `y`. -/
private def renameParams (x y : String) (params : List Param) : List Param :=
  params.map fun param => { param with value := renamed x y param.value }

theorem paramNames_renameParams (x y : String) (params : List Param) :
    paramNames (renameParams x y params) = (paramNames params).map (renamed x y) := by
  simp [paramNames, renameParams]

theorem linkParams_renameParams (x y : String) (params : List Param) (next : Nat) :
    linkParams next (renameParams x y params) = renameParams x y (linkParams next params) := by
  simp [linkParams, renameParams, List.zipIdx_map]

theorem renamed_of_ne {key : String} (h : key ≠ x) : renamed x y key = key := if_neg h

theorem renamed_injective {names : List String} (hy : y ∉ names) :
    ∀ a ∈ names, ∀ b ∈ names, renamed x y a = renamed x y b → a = b := by
  intro a ha b hb h
  unfold renamed at h
  split_ifs at h with h1 h2 h2
  · rw [h1, h2]
  · exact absurd (h ▸ hb) hy
  · exact absurd (h ▸ ha) hy
  · exact h

/-- The parameters have the same symbols under their new names. -/
theorem lookup_renameParams {key : String} (hy : y ∉ paramNames params) (hkey : key ≠ y) :
    (bindNames next (paramNames (renameParams x y params))).lookup (renamed x y key)
      = (bindNames next (paramNames params)).lookup key := by
  rw [paramNames_renameParams, bindNames_map]
  refine Env.lookup_relabel fun p hp heq => ?_
  have hmem : p.1 ∈ paramNames params := by
    simp only [bindNames, List.mem_map, List.mem_reverse] at hp
    obtain ⟨q, hq, rfl⟩ := hp
    exact List.fst_mem_of_mem_zipIdx hq
  have hy' : y ∉ key :: paramNames params := by simp [hy, Ne.symm hkey]
  exact renamed_injective hy' _ (List.mem_cons_of_mem _ hmem) _ (List.mem_cons_self ..) heq

theorem funcBinds_lookup (key : String) :
    (funcBinds next value params ++ env).lookup key =
      if key = value then some ⟨next + params.length, some params.length⟩
      else ((bindNames next (paramNames params)).lookup key).or (env.lookup key) := by
  rw [funcBinds, List.cons_append, List.lookup_cons, List.lookup_append]
  by_cases hk : key = value
  · simp [hk]
  · have hbeq : (key == value) = false := by simpa using hk
    simp [hk, hbeq]

/-- In the body everything but the new name stands for the same, under its new name. -/
theorem funcBinds_relabelled (hx : x ∈ paramNames params) (hvalue : value ≠ x)
    (hy : y ∉ value :: (paramNames params ++ body.idents)) :
    AstNode.Relabelled (renamed x y) (value :: body.idents) (funcBinds next value params ++ env)
      (funcBinds next value (renameParams x y params) ++ env) := by
  simp only [List.mem_cons, List.mem_append, not_or] at hy
  obtain ⟨hyv, hyp, hyb⟩ := hy
  refine ⟨renamed_injective (by simp [hyv, hyb]), fun key hkey => ?_⟩
  have hkey' : key ≠ y := by
    rintro rfl
    rcases List.mem_cons.mp hkey with h | h
    · exact hyv h
    · exact hyb h
  rw [funcBinds_lookup, funcBinds_lookup, lookup_renameParams hyp hkey']
  by_cases hk : key = value
  · have hne : key ≠ x := fun hc => hvalue (hk.symm.trans hc)
    simp [hk, renamed_of_ne (hk ▸ hne), renameParams]
  · have hne : renamed x y key ≠ value := by
      unfold renamed
      split
      · exact hyv
      · exact hk
    rw [if_neg hk, if_neg hne]
    by_cases hkx : key = x
    · have hd := Declared.bindNames (paramNames params) next
      obtain ⟨b, hb, -⟩ := hd.found x hx
      rw [hkx, hb]
      rfl
    · rw [renamed_of_ne hkx]

/-- Behind the function every other name stands for the same. -/
theorem funcBinds_agree (hyp : y ∉ paramNames params) (hyv : y ≠ value) {key : String}
    (hkey : key ∉ renamedNames value x y) :
    (funcBinds next value params ++ env).lookup key
      = (funcBinds next value (renameParams x y params) ++ env).lookup key := by
  rw [funcBinds_lookup, funcBinds_lookup]
  have hlen : (renameParams x y params).length = params.length := by simp [renameParams]
  rw [hlen]
  -- the names of the function, its parameters, and what was there before
  by_cases hk : key = value
  · rw [if_pos hk, if_pos hk]
  rw [if_neg hk, if_neg hk]
  have hky : key ≠ y := by
    rintro rfl
    unfold renamedNames at hkey
    split at hkey <;> simp at hkey
  have hkx : key ≠ x := by
    rintro rfl
    unfold renamedNames at hkey
    rw [if_neg (Ne.symm hk)] at hkey
    simp at hkey
  have hlookup : (bindNames next (paramNames (renameParams x y params))).lookup key
      = (bindNames next (paramNames params)).lookup key := by
    rw [← lookup_renameParams hyp hky, renamed_of_ne hkx]
  rw [hlookup]

/-- The old and the new name have different symbols behind the function. -/
theorem funcBinds_differ (hx : x ∈ paramNames params) (hyp : y ∉ paramNames params)
    (hyv : y ≠ value) (hbound : ∀ key b, env.lookup key = some b → (b.id : Nat) < next) :
    AstNode.Differ (funcBinds next value params ++ env)
      (funcBinds next value (renameParams x y params) ++ env) (renamedNames value x y) := by
  have hd := Declared.bindNames (paramNames params) next
  obtain ⟨b, hb, hid⟩ := hd.found x hx
  have hge : next ≤ b.id := (hd.range _ hid).1
  have hxy : x ≠ y := fun hc => hyp (hc ▸ hx)
  have hold : ∀ key, (env.lookup key).map Binding.id ≠ some b.id := by
    intro key hc
    obtain ⟨b', hb', heq⟩ := Option.map_eq_some_iff.mp hc
    exact absurd (hbound key b' hb') (not_lt.mpr (heq ▸ hge))
  have hnew : (bindNames next (paramNames (renameParams x y params))).lookup y = some b := by
    rw [← hb, ← lookup_renameParams hyp hxy, renamed, if_pos rfl]
  have hgone : (bindNames next (paramNames (renameParams x y params))).lookup x = none := by
    refine (Declared.bindNames _ _).absent x ?_
    rw [paramNames_renameParams, List.mem_map]
    rintro ⟨key, -, hkey⟩
    unfold renamed at hkey
    split_ifs at hkey with h
    · exact hxy hkey.symm
    · exact h hkey
  have hyold : (bindNames next (paramNames params)).lookup y = none := hd.absent y hyp
  -- the new name stands for the parameter only in the renamed program
  have hdy : ((funcBinds next value params ++ env).lookup y).map Binding.id
      ≠ ((funcBinds next value (renameParams x y params) ++ env).lookup y).map Binding.id := by
    rw [funcBinds_lookup, funcBinds_lookup, if_neg hyv, if_neg hyv, hyold, hnew]
    exact hold y
  intro key hkey
  unfold renamedNames at hkey
  split_ifs at hkey with hvalue
  · obtain rfl := List.mem_singleton.mp hkey
    exact hdy
  · rcases List.mem_pair.mp hkey with rfl | rfl
    · rw [funcBinds_lookup, funcBinds_lookup, if_neg (Ne.symm hvalue), if_neg (Ne.symm hvalue), hb,
        hgone]
      exact fun hc => hold _ hc.symm
    · exact hdy

/-- **The renamed function is linked to the renamed linked function.** -/
theorem resolveFunc_renameParam (hx : x ∈ paramNames params)
    (hy : y ∉ value :: (paramNames params ++ body.idents)) :
    resolveFunc typeEnv env next value type (renameParams x y params)
        (if value = x then body else body.relabel (renamed x y))
      = (resolveFunc typeEnv env next value type params body).map (renameParam x y) := by
  have hlen : (renameParams x y params).length = params.length := by simp [renameParams]
  have htypes : ((renameParams x y params).any fun param => (hashmapGet typeEnv param.type).isNone)
      = params.any fun param => (hashmapGet typeEnv param.type).isNone := by
    simp [renameParams, Function.comp_def]
  have hbody : (if value = x then body else body.relabel (renamed x y)).resolve typeEnv value
        (funcBinds next value (renameParams x y params) ++ env) (next + params.length + 1)
      = (body.resolve typeEnv value (funcBinds next value params ++ env)
        (next + params.length + 1)).map
          fun body => if value = x then body else body.relabel (renamed x y) := by
    by_cases hvalue : value = x
    · simp only [if_pos hvalue, Option.map_id']
      simp only [List.mem_cons, List.mem_append, not_or] at hy
      have havoid : body.avoids (renamedNames value x y) = true := by
        refine AstNode.avoids_of_not_mem fun key hk hc => ?_
        rw [renamedNames, if_pos hvalue, List.mem_singleton] at hc
        exact hy.2.2 (hc ▸ hk)
      have hfunc : value ∉ renamedNames value x y := by
        rw [renamedNames, if_pos hvalue, List.mem_singleton]
        exact Ne.symm hy.1
      exact (AstNode.resolve_congr havoid hfunc fun key hk =>
        funcBinds_agree hy.2.1 hy.1 hk).symm
    · simp only [if_neg hvalue]
      refine AstNode.resolve_relabel (List.mem_cons_self ..) (renamed_of_ne hvalue)
        (fun key hk => List.mem_cons_of_mem _ hk) (funcBinds_relabelled hx hvalue hy)
  rw [resolveFunc, resolveFunc, htypes, hlen, hbody, linkParams_renameParams]
  by_cases hl : (env.lookup value).isSome = true
  · simp [hl]
  by_cases hp : (params.any fun param => (hashmapGet typeEnv param.type).isNone) = true
  · simp [hl, hp]
  simp only [if_neg hl, if_neg hp]
  cases hashmapGet typeEnv type with
  | none => rfl
  | some ts =>
      cases body.resolve typeEnv value (funcBinds next value params ++ env)
          (next + params.length + 1) <;> rfl

end Func

/-! ### The functions behind it

They are linked one after the other in environments that differ in at most the two names,
and each adds the same declarations to both.
-/

/-- The functions behind it are linked alike if they avoid the names that differ. -/
theorem resolveProg_congr {prog : List AstNode} (havoid : avoidsProg bad prog = true)
    (h : ∀ key, key ∉ bad → env.lookup key = env'.lookup key) :
    resolveProg typeEnv env next prog = resolveProg typeEnv env' next prog := by
  induction prog generalizing env env' bad next with
  | nil => rfl
  | cons node rest ih =>
      cases node with
      | funcDef value type body params symbol =>
          simp only [avoidsProg, Bool.and_eq_true, decide_eq_true_eq] at havoid
          obtain ⟨⟨hvalue, hbody⟩, hrest⟩ := havoid
          have h' : ∀ key, key ∉ without bad (value :: paramNames params) →
              (funcBinds next value params ++ env).lookup key
                = (funcBinds next value params ++ env').lookup key := by
            intro key hkey
            rw [funcBinds_lookup, funcBinds_lookup]
            by_cases hbad : key ∈ bad
            · by_cases hk : key = value
              · rw [if_pos hk, if_pos hk]
              have hparam : key ∈ paramNames params := by
                by_contra hc
                exact hkey (mem_without.mpr ⟨hbad, by simp [hk, hc]⟩)
              obtain ⟨b, hb, -⟩ := (Declared.bindNames (paramNames params) next).found key hparam
              rw [hb]
              rfl
            · rw [h key hbad]
          have hfunc : value ∉ without bad (value :: paramNames params) := by simp
          rw [resolveProg, resolveProg, resolveFunc, resolveFunc, h value hvalue,
            AstNode.resolve_congr hbody hfunc h', ih hrest h']
      | _ => rfl

/-- Functions that are linked alike avoid the names that differ. -/
theorem avoidsProg_of_differ {prog prog' : List AstNode} (hd : AstNode.Differ env env' bad)
    (h : resolveProg typeEnv env next prog = some prog')
    (h' : resolveProg typeEnv env' next prog = some prog') : avoidsProg bad prog = true := by
  induction prog generalizing env env' bad next prog' with
  | nil => rfl
  | cons node rest ih =>
      cases node with
      | funcDef value type body params symbol =>
          obtain ⟨b1, r1, hv, -, -, hb, hr, rfl⟩ := resolveProg_cons_eq_some.mp h
          obtain ⟨b2, r2, hv', -, -, hb', hr', heq⟩ := resolveProg_cons_eq_some.mp h'
          obtain ⟨hnode, rfl⟩ := List.cons.inj heq
          obtain ⟨-, -, rfl, -, -⟩ := AstNode.funcDef.inj hnode
          have hd' : AstNode.Differ (funcBinds next value params ++ env)
              (funcBinds next value params ++ env') (without bad (value :: paramNames params)) := by
            intro key hkey
            obtain ⟨hbad, hk⟩ := mem_without.mp hkey
            simp only [List.mem_cons, not_or] at hk
            rw [funcBinds_lookup, funcBinds_lookup, if_neg hk.1, if_neg hk.1,
              (Declared.bindNames _ _).absent key hk.2]
            exact hd key hbad
          simp only [avoidsProg, Bool.and_eq_true, decide_eq_true_eq]
          exact ⟨⟨fun hbad => hd value hbad (by rw [hv, hv']), AstNode.avoids_of_differ hd' hb hb'⟩,
            ih hd' hr hr'⟩
      | _ => rfl

/-! ### Programs

Up to the renamed function the two programs are the same; behind it the number of
declarations is, so that every function has its symbols from the same number on.
-/

section Prog

variable {pre post prog prog' : List AstNode} {value type x y : String} {params : List Param}
  {body : AstNode} {symbol : Option SymId}

theorem renameParam_funcDef : renameParam x y (.funcDef value type body params symbol) =
    .funcDef value type (if value = x then body else body.relabel (renamed x y))
      (renameParams x y params) symbol := rfl

theorem funcDeclCount_renameParams (x y value : String) (params : List Param) (body : AstNode) :
    funcDeclCount (renameParams x y params)
        (if value = x then body else body.relabel (renamed x y)) = funcDeclCount params body := by
  rw [funcDeclCount, funcDeclCount]
  split <;> simp [renameParams, AstNode.declCount_relabel]

/-- Everything in the environment was declared before. -/
def Bounded (env : Env) (next : Nat) : Prop :=
  ∀ key b, env.lookup key = some b → (b.id : Nat) < next

theorem Bounded.func (h : Bounded env next) (body : AstNode) :
    Bounded (funcBinds next value params ++ env) (next + funcDeclCount params body) := by
  intro key b hb
  have hlen : (paramNames params).length = params.length := by simp [paramNames]
  have hle : next + params.length < next + funcDeclCount params body := by
    rw [funcDeclCount]
    omega
  rw [funcBinds_lookup] at hb
  split_ifs at hb with hk
  · obtain rfl := Option.some.inj hb
    exact hle
  · have hd := Declared.bindNames (paramNames params) next
    by_cases hp : key ∈ paramNames params
    · obtain ⟨b', hb', hid⟩ := hd.found key hp
      rw [hb', Option.some_or] at hb
      obtain rfl := Option.some.inj hb
      exact lt_trans (hlen ▸ (hd.range _ hid).2) hle
    · rw [hd.absent key hp, Option.none_or] at hb
      exact lt_of_lt_of_le (h key b hb) (Nat.le_add_right _ _)

/--
If the functions behind it avoid the names, only the renamed function is linked to another
tree.
-/
theorem resolveProg_renameParam (hpre : ∀ n ∈ pre, n.isFuncDef = true)
    (hx : x ∈ paramNames params) (hy : y ∉ value :: (paramNames params ++ body.idents))
    (havoid : avoidsProg (renamedNames value x y) post = true) :
    resolveProg typeEnv env next
        (pre ++ renameParam x y (.funcDef value type body params symbol) :: post)
      = (resolveProg typeEnv env next (pre ++ .funcDef value type body params symbol :: post)).map
          fun prog => prog.modify pre.length (renameParam x y) := by
  -- on the functions in front of the renamed one, which both programs have
  induction pre generalizing env next with
  | nil =>
      have hpost : resolveProg typeEnv (funcBinds next value (renameParams x y params) ++ env)
            (next + funcDeclCount params body) post
          = resolveProg typeEnv (funcBinds next value params ++ env)
            (next + funcDeclCount params body) post := by
        simp only [List.mem_cons, List.mem_append, not_or] at hy
        exact (resolveProg_congr havoid fun key hk => funcBinds_agree hy.2.1 hy.1 hk).symm
      rw [List.nil_append, List.nil_append, renameParam_funcDef, resolveProg, resolveProg,
        resolveFunc_renameParam hx hy, funcDeclCount_renameParams, hpost]
      cases resolveFunc typeEnv env next value type params body with
      | none => rfl
      | some node' =>
          cases resolveProg typeEnv (funcBinds next value params ++ env)
            (next + funcDeclCount params body) post <;> rfl
  | cons node rest ih =>
      have hnode := hpre node (by simp)
      unfold AstNode.isFuncDef at hnode
      split at hnode
      · rename_i value' type' body' params' symbol'
        rw [List.cons_append, List.cons_append, resolveProg, resolveProg,
          ih fun n hn => hpre n (by simp [hn])]
        cases resolveFunc typeEnv env next value' type' params' (.compStmt body') with
        | none => rfl
        | some node' =>
            cases resolveProg typeEnv (funcBinds next value' params' ++ env)
              (next + funcDeclCount params' (.compStmt body'))
              (rest ++ .funcDef value type body params symbol :: post) <;> rfl
      · simp at hnode

/-- Linked alike but for the renamed function, the functions behind it avoid the names. -/
theorem avoidsProg_of_resolveProg {t t' : List AstNode} (hpre : ∀ n ∈ pre, n.isFuncDef = true)
    (hbound : Bounded env next) (hx : x ∈ paramNames params)
    (hy : y ∉ value :: (paramNames params ++ body.idents))
    (h : resolveProg typeEnv env next (pre ++ .funcDef value type body params symbol :: post)
      = some t)
    (h' : resolveProg typeEnv env next
      (pre ++ renameParam x y (.funcDef value type body params symbol) :: post) = some t')
    (hsame : ∀ i, i ≠ pre.length → t'[i]? = t[i]?) :
    avoidsProg (renamedNames value x y) post = true := by
  induction pre generalizing env next t t' with
  | nil =>
      simp only [List.mem_cons, List.mem_append, not_or] at hy
      obtain ⟨b1, r1, -, -, -, -, hr, rfl⟩ := resolveProg_cons_eq_some.mp h
      obtain ⟨b2, r2, -, -, -, -, hr', rfl⟩ := resolveProg_cons_eq_some.mp h'
      have heq : r2 = r1 := List.ext_getElem? fun i => by
        simpa using hsame (i + 1) (by simp)
      subst heq
      have hcount := funcDeclCount_renameParams x y value params body
      rw [renameParams] at hcount
      rw [hcount] at hr'
      exact avoidsProg_of_differ (funcBinds_differ hx hy.2.1 hy.1 hbound) hr hr'
  | cons node rest ih =>
      have hnode := hpre node (by simp)
      unfold AstNode.isFuncDef at hnode
      split at hnode
      · rename_i value' type' body' params' symbol'
        obtain ⟨b1, r1, -, -, -, -, hr, rfl⟩ := resolveProg_cons_eq_some.mp h
        obtain ⟨b2, r2, -, -, -, -, hr', rfl⟩ := resolveProg_cons_eq_some.mp h'
        refine ih (fun n hn => hpre n (by simp [hn])) (hbound.func _) hr hr' fun i hi => ?_
        have := hsame (i + 1) (by simpa using hi)
        simpa using this
      · simp at hnode

/-! ### The analysis of both programs

An accepted program is one that is linked and whose types check.  Both halves are
compared: the linked trees are the same but for the renamed function, and that one has the
same types.
-/

theorem semaCheck_resolveProg {r : SemaResult} (hprog : ∀ n ∈ prog, n.isFuncDef = true)
    (h : semaCheck arena typeEnv prog = .ok r) :
    resolveProg typeEnv [] 0 prog = some r.prog ∧
      r.entries.map (fun e => some e.type) = progTypes typeEnv prog ∧
      typeCheckList r.entries r.prog = .ok () := by
  simp only [semaCheck, ExceptRun.bind_eq_ok, ExceptRun.pure_eq_ok] at h
  obtain ⟨⟨prog', st⟩, hrun, u, htype, rfl⟩ := h
  obtain ⟨hres, hent⟩ := (resolveProg_follows hprog Scoped.initial).of_ok hrun
  exact ⟨hres, by simpa using hent, htype⟩

theorem typeCheckList_congr {entries entries' : List SymTabEntry} {l l' : List AstNode}
    (h : List.Forall₂ (fun n n' => typeCheck entries n = typeCheck entries' n') l l') :
    typeCheckList entries l = typeCheckList entries' l' := by
  induction h with
  | nil => rfl
  | cons hn _ ih => rw [typeCheckList, typeCheckList, hn, ih]

/-- A linked program is accepted if its types check, whatever the entries that have the types. -/
theorem semaCheck_of_resolveProg {t : List AstNode} {entries : List SymTabEntry}
    (hprog : ∀ n ∈ prog, n.isFuncDef = true) (h : resolveProg typeEnv [] 0 prog = some t)
    (hent : entries.map (fun e => some e.type) = progTypes typeEnv prog)
    (htype : typeCheckList entries t = .ok ()) : ∃ r, semaCheck arena typeEnv prog = .ok r := by
  have hfollows : Follows (symCheckList arena typeEnv none prog) SemaState.initial
      (resolveProg typeEnv [] 0 prog) _ := resolveProg_follows hprog Scoped.initial
  obtain ⟨s', hrun, hent'⟩ := (h ▸ hfollows).of_some
  have hsame : s'.entries.map SymTabEntry.type = entries.map SymTabEntry.type := by
    have : (s'.entries.map SymTabEntry.type).map some
        = (entries.map SymTabEntry.type).map some := by
      simpa [Function.comp_def] using hent'.trans hent.symm
    exact List.map_injective_iff.mpr (Option.some_injective _) this
  have htype' : typeCheckList s'.entries t = .ok () := by
    rw [← htype]
    exact typeCheckList_congr (List.forall₂_same.mpr fun n _ => typeCheck_congr hsame n)
  refine ⟨{ prog := t, entries := s'.entries, frames := s'.frames, symbols := s'.symbols,
            warnings := warnUnused s'.entries s'.symbols }, ?_⟩
  simp only [semaCheck, ExceptRun.bind_eq_ok]
  exact ⟨(t, s'), hrun, (), htype', rfl⟩

/-- The type check does not see that a function was renamed. -/
theorem typeCheck_renameParam {entries entries' : List SymTabEntry}
    (h : entries'.map SymTabEntry.type = entries.map SymTabEntry.type) (node : AstNode) :
    typeCheck entries' (renameParam x y node) = typeCheck entries node := by
  cases node with
  | funcDef value type body params symbol =>
      rw [renameParam, typeCheck, typeCheck]
      split
      · rw [typeCheck_congr h]
      · rw [typeCheck_relabel h]
  | _ => exact typeCheck_congr h _

/--
Two programs are both accepted or both rejected, and if accepted their functions but the
`k`th are linked alike.
-/
def Unaffected (arena : SymId → Nat) (typeEnv : HashMap TypeSpecifier) (k : Nat)
    (prog prog' : List AstNode) : Prop :=
  ((∃ r, semaCheck arena typeEnv prog = .ok r) ↔ ∃ r, semaCheck arena typeEnv prog' = .ok r) ∧
  ∀ r r', semaCheck arena typeEnv prog = .ok r → semaCheck arena typeEnv prog' = .ok r' →
    ∀ i, i ≠ k → r'.prog[i]? = r.prog[i]?

theorem progTypes_renameParam (hpre : ∀ n ∈ pre, n.isFuncDef = true) :
    progTypes typeEnv (pre ++ renameParam x y (.funcDef value type body params symbol) :: post)
      = progTypes typeEnv (pre ++ .funcDef value type body params symbol :: post) := by
  induction pre with
  | nil =>
      rw [List.nil_append, List.nil_append, renameParam_funcDef, progTypes, progTypes]
      have hbody : (if value = x then body else body.relabel (renamed x y)).declTypes typeEnv
          = body.declTypes typeEnv := by
        split
        · rfl
        · exact AstNode.declTypes_relabel body
      rw [hbody]
      simp [renameParams, Function.comp_def]
  | cons node rest ih =>
      have hnode := hpre node (by simp)
      unfold AstNode.isFuncDef at hnode
      split at hnode
      · rw [List.cons_append, List.cons_append, progTypes, progTypes,
          ih fun n hn => hpre n (by simp [hn])]
      · simp at hnode

theorem isFuncDef_renameParam (node : AstNode) :
    (renameParam x y node).isFuncDef = node.isFuncDef := by
  cases node with
  | funcDef value type body params symbol =>
      rw [renameParam]
      cases body with
      | compStmt l =>
          split
          · rfl
          · exact AstNode.isStmt_relabel (.compStmt l)
      | _ => split <;> rfl
  | _ => rfl

/-- If the functions behind it avoid the names, renaming the parameter affects none of them. -/
theorem unaffected_of_avoidsProg
    (hprog : ∀ n ∈ pre ++ .funcDef value type body params symbol :: post, n.isFuncDef = true)
    (hprog' : ∀ n ∈ pre ++ renameParam x y (.funcDef value type body params symbol) :: post,
      n.isFuncDef = true)
    (hx : x ∈ paramNames params) (hy : y ∉ value :: (paramNames params ++ body.idents))
    (havoid : avoidsProg (renamedNames value x y) post = true) :
    Unaffected arena typeEnv pre.length (pre ++ .funcDef value type body params symbol :: post)
      (pre ++ renameParam x y (.funcDef value type body params symbol) :: post) := by
  have hpre : ∀ n ∈ pre, n.isFuncDef = true := fun n hn => hprog n (by simp [hn])
  have hlink : ∀ {t : List AstNode},
      resolveProg typeEnv [] 0 (pre ++ .funcDef value type body params symbol :: post) = some t →
      resolveProg typeEnv [] 0
          (pre ++ renameParam x y (.funcDef value type body params symbol) :: post)
        = some (t.modify pre.length (renameParam x y)) := by
    intro t ht
    rw [resolveProg_renameParam hpre hx hy havoid, ht]
    rfl
  have htypes : progTypes typeEnv
        (pre ++ renameParam x y (.funcDef value type body params symbol) :: post)
      = progTypes typeEnv (pre ++ .funcDef value type body params symbol :: post) :=
    progTypes_renameParam hpre
  have hcheck : ∀ (entries : List SymTabEntry) (t : List AstNode),
      typeCheckList entries (t.modify pre.length (renameParam x y)) = typeCheckList entries t := by
    intro entries t
    refine typeCheckList_congr (List.forall₂_iff_get.mpr ⟨by simp, fun i h1 h2 => ?_⟩)
    simp only [List.get_eq_getElem, List.getElem_modify]
    split
    · exact typeCheck_renameParam rfl _
    · rfl
  refine ⟨⟨?_, ?_⟩, ?_⟩
  · rintro ⟨r, hr⟩
    obtain ⟨hres, hent, htype⟩ := semaCheck_resolveProg hprog hr
    exact semaCheck_of_resolveProg hprog' (hlink hres) (hent.trans htypes.symm)
      ((hcheck _ _).trans htype)
  · rintro ⟨r, hr⟩
    obtain ⟨hres, hent, htype⟩ := semaCheck_resolveProg hprog' hr
    rw [resolveProg_renameParam hpre hx hy havoid] at hres
    obtain ⟨t, ht, heq⟩ := Option.map_eq_some_iff.mp hres
    rw [← heq, hcheck] at htype
    exact semaCheck_of_resolveProg hprog ht (hent.trans htypes) htype
  · intro r r' hr hr' i hi
    obtain ⟨hres, -, -⟩ := semaCheck_resolveProg hprog hr
    obtain ⟨hres', -, -⟩ := semaCheck_resolveProg hprog' hr'
    rw [← Option.some.inj ((hlink hres).symm.trans hres')]
    simp [Ne.symm hi]

/--
**When renaming a parameter affects no other function.**  Renaming the parameter `x` of
a function to a name `y` the function does not mention leaves the verdict on the program
and the symbols in its other functions alone if and only if, in case the program is
accepted in one of its versions, no later function looks up or declares `y`, or `x`
unless it is the function's own name, before a parameter or function takes the name.
-/
theorem renameParam_unaffected_iff
    (hprog : ∀ n ∈ pre ++ .funcDef value type body params symbol :: post, n.isFuncDef = true)
    (hx : x ∈ paramNames params) (hy : y ∉ value :: (paramNames params ++ body.idents)) :
    Unaffected arena typeEnv pre.length (pre ++ .funcDef value type body params symbol :: post)
        (pre ++ renameParam x y (.funcDef value type body params symbol) :: post) ↔
      ((∃ r, semaCheck arena typeEnv
          (pre ++ .funcDef value type body params symbol :: post) = .ok r) ∨
        (∃ r, semaCheck arena typeEnv
          (pre ++ renameParam x y (.funcDef value type body params symbol) :: post) = .ok r) →
        avoidsProg (renamedNames value x y) post = true) := by
  have hpre : ∀ n ∈ pre, n.isFuncDef = true := fun n hn => hprog n (by simp [hn])
  have hprog' : ∀ n ∈ pre ++ renameParam x y (.funcDef value type body params symbol) :: post,
      n.isFuncDef = true := by
    intro n hn
    rcases List.mem_append.mp hn with hn | hn
    · exact hpre n hn
    rcases List.mem_cons.mp hn with rfl | hn
    · rw [isFuncDef_renameParam]
      exact hprog _ (by simp)
    · exact hprog n (by simp [hn])
  constructor
  · rintro ⟨hiff, hsame⟩ hacc
    have havoid : ∀ {r r' : SemaResult}, semaCheck arena typeEnv _ = .ok r →
        semaCheck arena typeEnv _ = .ok r' → avoidsProg (renamedNames value x y) post = true :=
      fun {r r'} hr hr' => avoidsProg_of_resolveProg hpre (by simp [Bounded]) hx hy
        (semaCheck_resolveProg hprog hr).1 (semaCheck_resolveProg hprog' hr').1 (hsame r r' hr hr')
    rcases hacc with ⟨r, hr⟩ | ⟨r', hr'⟩
    · obtain ⟨r', hr'⟩ := hiff.mp ⟨r, hr⟩
      exact havoid hr hr'
    · obtain ⟨r, hr⟩ := hiff.mpr ⟨r', hr'⟩
      exact havoid hr hr'
  · intro h
    by_cases hacc : (∃ r, semaCheck arena typeEnv
          (pre ++ .funcDef value type body params symbol :: post) = .ok r) ∨
        ∃ r, semaCheck arena typeEnv
          (pre ++ renameParam x y (.funcDef value type body params symbol) :: post) = .ok r
    · exact unaffected_of_avoidsProg hprog hprog' hx hy (h hacc)
    · rw [not_or] at hacc
      exact ⟨iff_of_false hacc.1 hacc.2, fun r r' hr => absurd ⟨r, hr⟩ hacc.1⟩

end Prog

/-- `int f(int x) { return 0; }  int main() { int y = 1; return y; }` -/
def localTokens : List Token :=
  [tok .type "int", tok .ident "f", tok .lparen "(", tok .type "int", tok .ident "x",
    tok .rparen ")", tok .lbrace "\x7b", tok .return_ "return", tok .num "0", tok .semicolon ";",
    tok .rbrace "\x7d",
    tok .type "int", tok .ident "main", tok .lparen "(", tok .rparen ")", tok .lbrace "\x7b",
    tok .type "int", tok .ident "y", tok .assign "=", tok .num "1", tok .semicolon ";",
    tok .return_ "return", tok .ident "y", tok .semicolon ";", tok .rbrace "\x7d"]

/-- `f` of `localTokens`. -/
def localFunc : AstNode :=
  .funcDef "f" "int" (.compStmt [.ret (.intConst 0) none]) [{ value := "x", type := "int" }] none

/-- `main` of `localTokens`. -/
def localMain : AstNode :=
  .funcDef "main" "int" (.compStmt [.varDef "y" "int" (.intConst 1) none,
    .ret (.ident "y" none) none]) [] none

theorem renameParam_unaffected_iff_local :
    Unaffected (fun _ => 0) typeEnvInit 0 [localFunc, localMain]
      [renameParam "x" "z" localFunc, localMain] := by
  have h : Unaffected (fun _ => 0) typeEnvInit ([] : List AstNode).length
      ([] ++ localFunc :: [localMain]) ([] ++ renameParam "x" "z" localFunc :: [localMain]) :=
    (renameParam_unaffected_iff (by decide) (by decide) (by decide)).mpr fun _ => by decide
  exact h

/-- With its parameter called `y`, `f` makes `main` a redefinition. -/
theorem localTokens_affected : parse 0 localTokens = .ok ([localFunc, localMain], []) ∧
    (∃ r, semaCheck (fun _ => 0) typeEnvInit [localFunc, localMain] = .ok r) ∧
    ¬ Unaffected (fun _ => 0) typeEnvInit 0 [localFunc, localMain]
      [renameParam "x" "y" localFunc, localMain] := by
  refine ⟨rfl, ⟨_, rfl⟩, fun h => ?_⟩
  obtain ⟨r, hr⟩ := h.1.mp ⟨_, rfl⟩
  have herr : semaCheck (fun _ => 0) typeEnvInit [renameParam "x" "y" localFunc, localMain]
      = .error .redefinitionOfVariable := rfl
  rw [herr] at hr
  simp at hr

end MyLang
