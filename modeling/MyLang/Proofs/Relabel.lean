/-
Relabelled trees in relabelled environments.

Where a relabelling keeps the names of a tree apart, and the relabelled names stand for
the same in a second environment, the relabelled tree is linked there to the relabelled
linked tree.

A relabelling is a function on names, and it is applied to every name of a tree, whatever
that stands for.  It need not be injective: it is enough that it keeps those names apart
that are in `S`, all that occur in the tree or are asked for in the environment.  Blocks
and shadowing are kept with them, since a name in scope hides another exactly if the two
are the same.

The symbols are not relabelled.  They are numbers of declarations, and a relabelled tree
declares as much as the tree does.
-/
import MyLang.Proofs.Agree

namespace MyLang

variable {typeEnv : HashMap TypeSpecifier} {func : String} {env env' : Env} {next : Nat}

namespace AstNode

/-! ### Expressions

A name is looked up under its new name, and has the symbol it had.
-/

private theorem resolveExprs_relabel {f : String → String} {args : List AstNode}
    (h : ∀ node ∈ args, (node.relabel f).resolveExpr env' =
      (node.resolveExpr env).map (relabel f)) :
    resolveExprs env' (relabelList f args) = (resolveExprs env args).map (relabelList f) := by
  induction args with
  | nil => rfl
  | cons node rest ih =>
      rw [relabelList, resolveExprs, resolveExprs, h node (by simp),
        ih fun n hn => h n (by simp [hn])]
      cases node.resolveExpr env <;> cases resolveExprs env rest <;> rfl

theorem relabelList_eq_map (f : String → String) (l : List AstNode) :
    relabelList f l = l.map (relabel f) := by
  induction l with
  | nil => rfl
  | cons node rest ih => rw [relabelList, ih, List.map_cons]

/-- A relabelled expression is linked to the relabelled linked expression. -/
theorem resolveExpr_relabel {f : String → String} (node : AstNode)
    (h : ∀ key ∈ node.idents, env'.lookup (f key) = env.lookup key) :
    (node.relabel f).resolveExpr env' = (node.resolveExpr env).map (relabel f) := by
  induction node with
  | ident value symbol =>
      have hv := h value (by simp [idents])
      rw [relabel, resolveExpr, resolveExpr, hv]
      cases env.lookup value <;> rfl
  | funcCall value args symbol ih =>
      have hv := h value (by simp [idents])
      have hargs : resolveExprs env' (relabelList f args)
          = (resolveExprs env args).map (relabelList f) :=
        resolveExprs_relabel fun n hn => ih n hn fun key hk => h key (by
          rw [idents, List.mem_cons, mem_identsList]
          exact Or.inr ⟨n, hn, hk⟩)
      have hlen : (relabelList f args).length = args.length := by simp [relabelList_eq_map]
      rw [relabel, resolveExpr, resolveExpr, hv, hargs, hlen]
      cases env.lookup value with
      | none => rfl
      | some b =>
          by_cases hb : b.arity = some args.length
          · cases resolveExprs env args <;> simp [hb, relabel]
          · simp [hb]
  | binExp value opType left right ihl ihr =>
      rw [relabel, resolveExpr, resolveExpr, ihl fun key hk => h key (by simp [idents, hk]),
        ihr fun key hk => h key (by simp [idents, hk])]
      cases left.resolveExpr env <;> cases right.resolveExpr env <;> rfl
  | varAsgn target rval ihl ihr =>
      rw [relabel, resolveExpr, resolveExpr, ihl fun key hk => h key (by simp [idents, hk]),
        ihr fun key hk => h key (by simp [idents, hk])]
      cases target.resolveExpr env <;> cases rval.resolveExpr env <;> rfl
  | unaryExpr expr value opType ih =>
      rw [relabel, resolveExpr, resolveExpr, ih h]
      cases expr.resolveExpr env <;> rfl
  | lval kind ident ih =>
      rw [relabel, resolveExpr, resolveExpr, ih h]
      cases ident.resolveExpr env <;> rfl
  | _ => rfl

/-! ### Statements

What a statement declares is declared under its new name.
-/

theorem nonNull_relabel (f : String → String) (node : AstNode) :
    (node.relabel f).nonNull = node.nonNull := by
  cases node <;> rfl

private theorem declCountList_relabel {f : String → String} {l : List AstNode}
    (h : ∀ node ∈ l, (node.relabel f).declCount = node.declCount) :
    declCountList (relabelList f l) = declCountList l := by
  induction l with
  | nil => rfl
  | cons node rest ih =>
      rw [relabelList, declCountList, declCountList, h node (by simp),
        ih fun n hn => h n (by simp [hn])]

theorem declCount_relabel (f : String → String) (node : AstNode) :
    (node.relabel f).declCount = node.declCount := by
  induction node with
  | compStmt body ih => exact declCountList_relabel ih
  | ifElse ifExpr ifBody elseBody _ ihb ihe => rw [relabel, declCount, declCount, ihb, ihe]
  | while_ expr body _ ihb => exact ihb
  | for_ init cond step body ihi _ _ ihb => rw [relabel, declCount, declCount, ihi, ihb]
  | enum value enums => simp [relabel, declCount]
  | _ => rfl

end AstNode

/-- An environment with its names relabelled. -/
def Env.relabel (f : String → String) (env : Env) : Env := env.map fun p => (f p.1, p.2)

theorem Env.relabel_append (f : String → String) (env env' : Env) :
    Env.relabel f (env ++ env') = env.relabel f ++ env'.relabel f := List.map_append ..

theorem bindNames_map (f : String → String) (next : Nat) (names : List String) :
    bindNames next (names.map f) = (bindNames next names).relabel f := by
  induction names generalizing next with
  | nil => rfl
  | cons key rest ih =>
      rw [List.map_cons, bindNames_cons, bindNames_cons, ih, Env.relabel_append]
      rfl

theorem AstNode.binds_relabel (f : String → String) (node : AstNode) (next : Nat) :
    (node.relabel f).binds next = (node.binds next).relabel f := by
  induction node generalizing next with
  | varDec value type symbol => exact bindNames_map f next [value]
  | varDef value type expr symbol => exact bindNames_map f next [value]
  | enum value enums => exact bindNames_map f next enums
  | ifElse ifExpr ifBody elseBody _ ihb ihe =>
      rw [relabel, binds, binds, ihb, ihe, declCount_relabel, Env.relabel_append]
  | while_ expr body _ ihb => exact ihb next
  | _ => rfl

/-- Relabelling that keeps names apart keeps what they stand for. -/
theorem Env.lookup_relabel {f : String → String} {env : Env} {key : String}
    (h : ∀ p ∈ env, f p.1 = f key → p.1 = key) :
    (env.relabel f).lookup (f key) = env.lookup key := by
  induction env with
  | nil => rfl
  | cons p rest ih =>
      obtain ⟨name, b⟩ := p
      have hrest := ih fun p hp => h p (List.mem_cons_of_mem _ hp)
      rw [Env.relabel, List.map_cons, List.lookup_cons, List.lookup_cons]
      by_cases hk : key = name
      · simp [hk]
      · have hne : f key ≠ f name := fun hc => hk (h (name, b) (List.mem_cons_self ..) hc.symm).symm
        have h1 : (f key == f name) = false := by simpa using hne
        have h2 : (key == name) = false := by simpa using hk
        simp only [h1, h2]
        exact hrest

namespace AstNode

theorem names_subset_idents (node : AstNode) : ∀ key ∈ node.names, key ∈ node.idents := by
  induction node with
  | ifElse ifExpr ifBody elseBody _ ihb ihe =>
      intro key hk
      rw [names, List.mem_append] at hk
      rw [idents, List.mem_append, List.mem_append]
      rcases hk with hk | hk
      · exact Or.inr (Or.inl (ihb key hk))
      · exact Or.inr (Or.inr (ihe key hk))
  | while_ expr body _ ihb =>
      intro key hk
      rw [idents, List.mem_append]
      exact Or.inr (ihb key hk)
  | _ => simp [names, idents]

/-- What a statement binds are names that stand in it. -/
theorem mem_binds {node : AstNode} {p : String × Binding} (h : p ∈ node.binds next) :
    p.1 ∈ node.names := by
  have hnames : ∀ {names : List String} {next : Nat}, p ∈ bindNames next names → p.1 ∈ names := by
    intro names next hp
    simp only [bindNames, List.mem_map, List.mem_reverse] at hp
    obtain ⟨q, hq, rfl⟩ := hp
    exact List.fst_mem_of_mem_zipIdx hq
  induction node generalizing next with
  | varDec value type symbol => exact hnames h
  | varDef value type expr symbol => exact hnames h
  | enum value enums => exact hnames h
  | ifElse ifExpr ifBody elseBody _ ihb ihe =>
      rw [names, List.mem_append]
      rcases List.mem_append.mp h with h | h
      · exact Or.inr (ihe h)
      · exact Or.inl (ihb h)
  | while_ expr body _ ihb => exact ihb h
  | _ => simp [binds] at h

/--
The names in `S` stand for the same in two environments, those in the second being
relabelled by `f`, which keeps the names in `S` apart.
-/
structure Relabelled (f : String → String) (S : List String) (env env' : Env) : Prop where
  apart : ∀ a ∈ S, ∀ b ∈ S, f a = f b → a = b
  lookup : ∀ key ∈ S, env'.lookup (f key) = env.lookup key

theorem Relabelled.binds {f : String → String} {S : List String} (h : Relabelled f S env env')
    {node : AstNode} (hS : ∀ key ∈ node.idents, key ∈ S) (next : Nat) :
    Relabelled f S (node.binds next ++ env) ((node.relabel f).binds next ++ env') := by
  refine ⟨h.apart, fun key hkey => ?_⟩
  have hlookup : ((node.relabel f).binds next).lookup (f key) = (node.binds next).lookup key := by
    rw [binds_relabel]
    exact Env.lookup_relabel fun p hp =>
      h.apart p.1 (hS _ (names_subset_idents node _ (mem_binds hp))) key hkey
  rw [List.lookup_append, List.lookup_append, hlookup, h.lookup key hkey]

/-- Statements in a row, in environments that grow alike. -/
private theorem resolveList_relabel {f : String → String} {S : List String}
    {nodes : List AstNode}
    (hnodes : ∀ node ∈ nodes, ∀ {env env' : Env} {next : Nat}, Relabelled f S env env' →
      (node.relabel f).resolve typeEnv func env' next
        = (node.resolve typeEnv func env next).map (relabel f))
    (hS : ∀ node ∈ nodes, ∀ key ∈ node.idents, key ∈ S) (h : Relabelled f S env env') :
    resolveList typeEnv func env' next (relabelList f nodes)
      = (resolveList typeEnv func env next nodes).map (relabelList f) := by
  induction nodes generalizing env env' next with
  | nil => rfl
  | cons node rest ih =>
      have hrest := @ih _ _ (next + node.declCount) (fun n hn => hnodes n (by simp [hn]))
        (fun n hn => hS n (by simp [hn])) (h.binds (hS node (by simp)) next)
      rw [relabelList, resolveList, resolveList, hnodes node (by simp) h, declCount_relabel, hrest]
      cases node.resolve typeEnv func env next with
      | none => rfl
      | some node' =>
          cases resolveList typeEnv func (node.binds next ++ env) (next + node.declCount) rest <;>
            rfl

/-- **A relabelled statement is linked to the relabelled linked statement.** -/
theorem resolve_relabel {f : String → String} {S : List String} {node : AstNode}
    (hfunc : func ∈ S) (hffunc : f func = func) (hS : ∀ key ∈ node.idents, key ∈ S)
    (h : Relabelled f S env env') :
    (node.relabel f).resolve typeEnv func env' next
      = (node.resolve typeEnv func env next).map (relabel f) := by
  induction node generalizing env env' next with
  | varDec value type symbol =>
      have hv := h.lookup value (hS value (by simp [idents]))
      rw [relabel, resolve, resolve, hv]
      cases env.lookup value with
      | some b => rfl
      | none => cases hashmapGet typeEnv type <;> rfl
  | varDef value type expr symbol _ =>
      have hv := h.lookup value (hS value (by simp [idents]))
      have he := resolveExpr_relabel expr fun key hk => h.lookup key (hS key (by
        simp [idents, hk]))
      rw [relabel, resolve, resolve, hv, he]
      cases env.lookup value with
      | some b => rfl
      | none => cases expr.resolveExpr env <;> cases hashmapGet typeEnv type <;> rfl
  | enum value enums => rfl
  | compStmt body ih =>
      have hS' : ∀ node ∈ body, ∀ key ∈ node.idents, key ∈ S := fun n hn key hk =>
        hS key (by
          rw [idents, mem_identsList]
          exact ⟨n, hn, hk⟩)
      rw [relabel, resolve, resolve, resolveList_relabel (fun n hn => ih n hn (hS' n hn)) hS' h]
      cases resolveList typeEnv func env next body <;> rfl
  | ifElse ifExpr ifBody elseBody _ ihb ihe =>
      have hSc : ∀ key ∈ ifExpr.idents, key ∈ S := fun key hk => hS key (by simp [idents, hk])
      have hSb : ∀ key ∈ ifBody.idents, key ∈ S := fun key hk => hS key (by simp [idents, hk])
      have hSe : ∀ key ∈ elseBody.idents, key ∈ S := fun key hk => hS key (by simp [idents, hk])
      have h' := h.binds hSb next
      have hc := resolveExpr_relabel ifExpr fun key hk => h'.lookup key (hSc key hk)
      have he := @ihe _ _ (next + ifBody.declCount) hSe h'
      simp only [relabel, resolve]
      rw [ihb hSb h, hc, declCount_relabel, he, nonNull_relabel]
      cases ifBody.resolve typeEnv func env next with
      | none => rfl
      | some ifBody' =>
          cases ifExpr.resolveExpr (ifBody.binds next ++ env) with
          | none => rfl
          | some ifExpr' =>
              by_cases hnull : elseBody.nonNull = true
              · simp only [hnull, if_true]
                cases elseBody.resolve typeEnv func (ifBody.binds next ++ env)
                  (next + ifBody.declCount) <;> rfl
              · simp [hnull, relabel]
  | while_ expr body _ ihb =>
      have hSb : ∀ key ∈ body.idents, key ∈ S := fun key hk => hS key (by simp [idents, hk])
      have he := resolveExpr_relabel expr fun key hk => h.lookup key (hS key (by
        simp [idents, hk]))
      rw [relabel, resolve, resolve, he, ihb hSb h]
      cases expr.resolveExpr env <;> cases body.resolve typeEnv func env next <;> rfl
  | for_ init cond step body ihi _ _ ihb =>
      have hSi : ∀ key ∈ init.idents, key ∈ S := fun key hk => hS key (by simp [idents, hk])
      have hSb : ∀ key ∈ body.idents, key ∈ S := fun key hk => hS key (by simp [idents, hk])
      have h' := h.binds hSi next
      have hc := resolveExpr_relabel cond fun key hk => h'.lookup key (hS key (by
        simp [idents, hk]))
      have hs := resolveExpr_relabel step fun key hk => h'.lookup key (hS key (by
        simp [idents, hk]))
      have hb := @ihb _ _ (next + init.declCount) hSb h'
      simp only [relabel, resolve]
      rw [ihi hSi h, hc, hs, declCount_relabel, hb]
      cases init.resolve typeEnv func env next with
      | none => rfl
      | some init' =>
          cases cond.resolveExpr (init.binds next ++ env) <;>
          cases step.resolveExpr (init.binds next ++ env) <;>
          cases body.resolve typeEnv func (init.binds next ++ env) (next + init.declCount) <;> rfl
  | ret expr symbol _ =>
      have he := resolveExpr_relabel expr fun key hk => h.lookup key (hS key hk)
      have hf := h.lookup func hfunc
      rw [hffunc] at hf
      rw [relabel, resolve, resolve, he, hf]
      cases expr.resolveExpr env <;> rfl
  | exprStmt expr _ =>
      have he := resolveExpr_relabel expr fun key hk => h.lookup key (hS key hk)
      rw [relabel, resolve, resolve, he]
      cases expr.resolveExpr env <;> rfl
  | null => rfl
  | funcDef => rfl
  | intConst => rfl
  | emptyExpr => rfl
  | binExp => exact resolveExpr_relabel _ fun key hk => h.lookup key (hS key hk)
  | ident => exact resolveExpr_relabel _ fun key hk => h.lookup key (hS key hk)
  | funcCall => exact resolveExpr_relabel _ fun key hk => h.lookup key (hS key hk)
  | varAsgn => exact resolveExpr_relabel _ fun key hk => h.lookup key (hS key hk)
  | unaryExpr => exact resolveExpr_relabel _ fun key hk => h.lookup key (hS key hk)
  | lval => exact resolveExpr_relabel _ fun key hk => h.lookup key (hS key hk)

end AstNode

end MyLang
