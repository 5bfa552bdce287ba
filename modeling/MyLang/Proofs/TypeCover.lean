/-
What type checking covers.

`type_check` follows a tree into some of its children only.  Where it goes, it compares
the types it ought to compare; so a program it accepts is well typed everywhere exactly if
it is so where it does not go.

What ought to be compared is a list of constructs, each with the type it has to have
(`Typing.lean`): initialisers, right sides of assignments, returned values, arguments.
The list of those that `type_check` skips is read off the tree as well.  The rest it
checks, and since it has accepted the program these are well typed, so the two lists are
well typed together or not.

The types of names are those of their declarations.  The types that `type_check` computes
come from the entries of the symbols, and for an expression that has a type they are the
same (`exprType_of_typeCheck`).
-/
import MyLang.Typing
import MyLang.Proofs.Agree

namespace MyLang

open ExceptRun

variable {entries : List SymTabEntry} {func : String} {ret : Option TypeSpecifier} {hidden : Bool}
  {ts ts' : TypeSpecifier}

/-! ### What is skipped is there

The skipped constructs are constructs of the program, so the condition is no stronger than
what it is for.
-/

namespace AstNode

private theorem skippedList_subset {l : List AstNode}
    (ih : ∀ n ∈ l, ∀ hidden, n.skipped entries func ret hidden ⊆ n.constructs entries ret)
    (hidden : Bool) : skippedList entries func ret hidden l ⊆ constructsList entries ret l := by
  induction l generalizing hidden with
  | nil => exact List.Subset.refl _
  | cons node rest ihl =>
      intro c hc
      rw [skippedList, List.mem_append] at hc
      rw [constructsList, List.mem_append]
      rcases hc with hc | hc
      · exact Or.inl (ih node (by simp) _ hc)
      · exact Or.inr (ihl (fun n hn => ih n (by simp [hn])) _ hc)

theorem untyped_subset (c : Construct) : c.untyped ⊆ [c] := by
  unfold Construct.untyped
  split
  · exact List.nil_subset _
  · exact List.Subset.refl _

/-- What is skipped is one of the constructs. -/
theorem skipped_subset (node : AstNode) (func : String) (ret : Option TypeSpecifier)
    (hidden : Bool) : node.skipped entries func ret hidden ⊆ node.constructs entries ret := by
  induction node generalizing func ret hidden with
  | compStmt body ih => exact skippedList_subset (fun n hn hidden => ih n hn func ret hidden) hidden
  | ifElse ifExpr ifBody elseBody _ ihb ihe =>
      intro c hc
      simp only [skipped, constructs, List.mem_append] at hc ⊢
      exact hc.imp_right (Or.imp (fun h => ihb _ _ _ h) fun h => ihe _ _ _ h)
  | varDef value type expr symbol ih =>
      intro c hc
      simp only [skipped, constructs, List.mem_append, List.mem_cons] at hc ⊢
      exact hc.imp (fun h => List.mem_singleton.mp (untyped_subset _ h)) fun h => ih _ _ _ h
  | binExp value opType left right ihl _ =>
      intro c hc
      simp only [skipped, constructs, List.mem_append] at hc ⊢
      exact hc.imp_left fun h => ihl _ _ _ h
  | funcDef value type body params symbol ih => exact ih _ _ _
  | funcCall value args symbol _ => exact List.Subset.refl _
  | ret expr symbol ih =>
      intro c hc
      simp only [skipped, constructs, List.mem_append, List.mem_cons] at hc ⊢
      refine hc.imp (fun h => ?_) fun h => ih _ _ _ h
      split at h
      · exact List.mem_singleton.mp h
      · exact List.mem_singleton.mp (untyped_subset _ h)
  | varAsgn target rval _ ihr =>
      intro c hc
      simp only [skipped, constructs, List.mem_append, List.mem_cons] at hc ⊢
      exact hc.imp (fun h => List.mem_singleton.mp (untyped_subset _ h)) fun h =>
        Or.inr (ihr _ _ _ h)
  | while_ expr body _ ihb =>
      intro c hc
      simp only [skipped, constructs, List.mem_append] at hc ⊢
      exact hc.imp_right fun h => ihb _ _ _ h
  | for_ init cond step body _ _ _ ihb =>
      intro c hc
      simp only [skipped, constructs, List.mem_append] at hc ⊢
      exact hc.imp_right (Or.imp_right (Or.imp_right fun h => ihb _ _ _ h))
  | exprStmt expr ih => exact ih _ _ _
  | unaryExpr expr value opType ih => exact ih _ _ _
  | _ => simp [skipped, constructs]

end AstNode

/-! ### The types `type_check` computes

It computes a type for every expression, also for one whose parts do not have types that
go together.
-/

theorem symbolType_eq_ok {symbol : Option SymId} :
    symbolType entries symbol = .ok ts ↔ entryType entries symbol = some ts := by
  unfold symbolType entryType
  cases symbol.bind (entries[·]?) <;> simp

theorem assertTypeEq_eq_ok {u : Unit} : assertTypeEq ts ts' = .ok u ↔ ts = ts' := by
  unfold assertTypeEq
  by_cases h : ts = ts' <;> simp [h]

/-- The type that is computed is the one the expression has, if it has one. -/
theorem exprType_of_typeCheck {node : AstNode} (h : typeCheck entries node = .ok ts)
    (ht : (node.exprType entries).isSome = true) : node.exprType entries = some ts := by
  induction node generalizing ts with
  | intConst value =>
      obtain rfl := pure_eq_ok.mp h
      rfl
  | ident value symbol => exact symbolType_eq_ok.mp h
  | funcCall value args symbol _ => exact symbolType_eq_ok.mp h
  | binExp value opType left right ihl _ =>
      simp only [typeCheck, bind_eq_ok, pure_eq_ok] at h
      obtain ⟨t, hl, -, -, -, -, rfl⟩ := h
      unfold AstNode.exprType at ht ⊢
      split at ht
      · rename_i heq
        rw [if_pos heq]
        exact ihl hl ht
      · simp at ht
  | unaryExpr expr value opType ih => exact ih h ht
  | varAsgn target rval ihl _ =>
      simp only [typeCheck, bind_eq_ok, pure_eq_ok] at h
      obtain ⟨t, hl, -, -, -, -, rfl⟩ := h
      exact ihl hl ht
  | lval kind target _ =>
      cases kind
      cases target with
      | ident value symbol => exact symbolType_eq_ok.mp h
      | _ => simp [typeCheck, throw, throwThe, MonadExceptOf.throw] at h
  | emptyExpr =>
      obtain rfl := pure_eq_ok.mp h
      rfl
  | _ => simp [AstNode.exprType] at ht

/-- Two types that were compared, of which the second is that of an expression. -/
theorem wellTyped_of_compared {expected : Option TypeSpecifier} {expr : AstNode}
    (hexp : expected = some ts) (hactual : typeCheck entries expr = .ok ts)
    (huntyped : ∀ c ∈ Construct.untyped ⟨expected, expr.exprType entries⟩, c.WellTyped) :
    Construct.WellTyped ⟨expected, expr.exprType entries⟩ := by
  by_cases ht : (expr.exprType entries).isSome = true
  · refine ⟨ht, ?_⟩
    show expected = expr.exprType entries
    rw [hexp, exprType_of_typeCheck hactual ht]
  · exact huntyped _ (by simp [Construct.untyped, ht])

/-! ### Expressions

Arguments are skipped, and so is what stands in a right operand.
-/

/-- An expression that was checked is well typed where it is not skipped. -/
theorem wellTyped_of_typeCheck_expr {node : AstNode} (hn : node.isExpr = true)
    (h : typeCheck entries node = .ok ts)
    (hskip : ∀ c ∈ node.skipped entries func ret hidden, c.WellTyped) :
    ∀ c ∈ node.constructs entries ret, c.WellTyped := by
  induction node generalizing ts with
  | binExp value opType left right ihl _ =>
      simp only [AstNode.isExpr, Bool.and_eq_true] at hn
      simp only [typeCheck, bind_eq_ok] at h
      obtain ⟨t, hl, -⟩ := h
      simp only [AstNode.skipped, AstNode.constructs, List.forall_mem_append] at hskip ⊢
      exact ⟨ihl hn.1.2 hl hskip.1, hskip.2⟩
  | unaryExpr expr value opType ih =>
      simp only [AstNode.isExpr, Bool.and_eq_true] at hn
      exact ih hn.2 h hskip
  | varAsgn target rval _ ihr =>
      obtain ⟨⟨name, symbol, rfl⟩, hrval⟩ := AstNode.isExpr_varAsgn.mp hn
      simp only [typeCheck, bind_eq_ok, assertTypeEq_eq_ok] at h
      obtain ⟨t, ht, t', hr, -, rfl, -⟩ := h
      simp only [AstNode.skipped, AstNode.constructs, List.forall_mem_append,
        List.forall_mem_cons] at hskip ⊢
      refine ⟨wellTyped_of_compared
        (symbolType_eq_ok.mp ht) hr hskip.1, by simp, ihr hrval hr hskip.2⟩
  | funcCall value args symbol _ => exact hskip
  | intConst | ident | emptyExpr => simp [AstNode.constructs]
  | _ => simp [AstNode.isExpr] at hn

/-! ### Statements

A `return` compares the type of its symbol, that is of its function unless the name is
hidden.
-/

variable {typeEnv : HashMap TypeSpecifier} {env : Env} {next : Nat}

/-- While its name is not hidden, it stands for the function, which returns a `ret`. -/
def NamesFunc (entries : List SymTabEntry) (env : Env) (func : String) (ret : Option TypeSpecifier)
    (hidden : Bool) : Prop :=
  hidden = false → ∃ b, env.lookup func = some b ∧ entryType entries (some b.id) = ret

theorem NamesFunc.extend (h : NamesFunc entries env func ret hidden) (node : AstNode) :
    NamesFunc entries (node.binds next ++ env) func ret (hidden || decide (func ∈ node.names)) := by
  intro hn
  simp only [Bool.or_eq_false_iff, decide_eq_false_iff_not] at hn
  rw [List.lookup_append, AstNode.binds_lookup_eq_none.mpr hn.2]
  exact h hn.1

theorem isExpr_linked {expr expr' : AstNode} (hn : expr.isExpr = true)
    (h : expr.resolveExpr env = some expr') : expr'.isExpr = true := by
  rw [AstNode.isExpr_of_resolveExpr h, hn]

theorem names_of_resolve {node node' : AstNode}
    (h : node.resolve typeEnv func env next = some node') : node'.names = node.names := by
  rw [← AstNode.names_erase, AstNode.resolve_erase h, AstNode.names_erase]

/-- Statements in a row, each with the declarations of those before. -/
private theorem wellTyped_of_typeCheckList {nodes nodes' : List AstNode} {u : Unit}
    (hnodes : ∀ node ∈ nodes, ∀ {env : Env} {next : Nat} {node' : AstNode} {hidden : Bool}
      {ts : TypeSpecifier}, node.resolve typeEnv func env next = some node' →
      NamesFunc entries env func ret hidden → typeCheck entries node' = .ok ts →
      (∀ c ∈ node'.skipped entries func ret hidden, c.WellTyped) →
      ∀ c ∈ node'.constructs entries ret, c.WellTyped)
    (hres : AstNode.resolveList typeEnv func env next nodes = some nodes')
    (hfunc : NamesFunc entries env func ret hidden) (h : typeCheckList entries nodes' = .ok u)
    (hskip : ∀ c ∈ AstNode.skippedList entries func ret hidden nodes', c.WellTyped) :
    ∀ c ∈ AstNode.constructsList entries ret nodes', c.WellTyped := by
  induction nodes generalizing env next nodes' hidden with
  | nil =>
      obtain rfl := Option.some.inj hres
      simp [AstNode.constructsList]
  | cons node rest ih =>
      obtain ⟨node', rest', h1, h2, rfl⟩ := AstNode.resolveList_cons_eq_some.mp hres
      simp only [typeCheckList, bind_eq_ok] at h
      obtain ⟨t, hnode, hrest⟩ := h
      simp only [AstNode.skippedList, AstNode.constructsList, List.forall_mem_append,
        names_of_resolve h1] at hskip ⊢
      exact ⟨hnodes node (by simp) h1 hfunc hnode hskip.1,
        ih (fun n hn => hnodes n (by simp [hn])) h2 (hfunc.extend node) hrest hskip.2⟩

/-- A statement that was checked is well typed where it is not skipped. -/
theorem wellTyped_of_typeCheck {node node' : AstNode} (hn : node.isStmt = true)
    (hres : node.resolve typeEnv func env next = some node')
    (hfunc : NamesFunc entries env func ret hidden) (h : typeCheck entries node' = .ok ts)
    (hskip : ∀ c ∈ node'.skipped entries func ret hidden, c.WellTyped) :
    ∀ c ∈ node'.constructs entries ret, c.WellTyped := by
  induction node generalizing env next node' hidden ts with
  | varDec value type symbol =>
      obtain ⟨-, -, rfl⟩ := AstNode.resolve_varDec_eq_some.mp hres
      simp [AstNode.constructs]
  | varDef value type expr symbol _ =>
      obtain ⟨-, expr', he, -, rfl⟩ := AstNode.resolve_varDef_eq_some.mp hres
      simp only [typeCheck, bind_eq_ok, symbolType_eq_ok, assertTypeEq_eq_ok] at h
      obtain ⟨t, hsym, t', htc, -, rfl, -⟩ := h
      simp only [AstNode.skipped, AstNode.constructs, List.forall_mem_append,
        List.forall_mem_cons] at hskip ⊢
      exact ⟨wellTyped_of_compared hsym htc hskip.1,
        wellTyped_of_typeCheck_expr (isExpr_linked hn he) htc hskip.2⟩
  | enum value enums =>
      obtain rfl := Option.some.inj hres
      simp [AstNode.constructs]
  | compStmt body ih =>
      rw [AstNode.isStmt, AstNode.areStmts_iff] at hn
      obtain ⟨body', hb, rfl⟩ := AstNode.resolve_compStmt_eq_some.mp hres
      simp only [typeCheck, bind_eq_ok] at h
      obtain ⟨u, hlist, -⟩ := h
      exact wellTyped_of_typeCheckList (fun n hmem => ih n hmem (hn n hmem)) hb hfunc hlist hskip
  | ifElse ifExpr ifBody elseBody _ ihb ihe =>
      simp only [AstNode.isStmt, Bool.and_eq_true, Bool.or_eq_true] at hn
      obtain ⟨ifExpr', ifBody', elseBody', hb, -, he, rfl⟩ :=
        AstNode.resolve_ifElse_eq_some.mp hres
      simp only [AstNode.skipped, AstNode.constructs, List.forall_mem_append,
        names_of_resolve hb] at hskip ⊢
      simp only [typeCheck, bind_eq_ok] at h
      obtain ⟨t, htc, h⟩ := h
      refine ⟨hskip.1, ihb hn.1.2 hb hfunc htc hskip.2.1, ?_⟩
      by_cases hnull : elseBody.nonNull = true
      · rw [if_pos hnull] at he
        have hnull' : elseBody'.nonNull = true := by
          rw [← AstNode.nonNull_erase, AstNode.resolve_erase he, AstNode.nonNull_erase, hnull]
        rw [if_pos hnull'] at h
        simp only [bind_eq_ok] at h
        obtain ⟨t', htc', -⟩ := h
        exact ihe (hn.2.resolve_left (by simp [hnull])) he (hfunc.extend ifBody) htc' hskip.2.2
      · rw [if_neg hnull] at he
        rw [he, AstNode.eq_null hnull]
        simp [AstNode.constructs]
  | while_ expr body _ ihb =>
      simp only [AstNode.isStmt, Bool.and_eq_true] at hn
      obtain ⟨expr', body', -, hb, rfl⟩ := AstNode.resolve_while_eq_some.mp hres
      simp only [AstNode.skipped, AstNode.constructs, List.forall_mem_append] at hskip ⊢
      exact ⟨hskip.1, ihb hn.2 hb hfunc h hskip.2⟩
  | for_ init cond step body _ _ _ ihb =>
      simp only [AstNode.isStmt, Bool.and_eq_true] at hn
      obtain ⟨init', cond', step', body', hi, -, -, hb, rfl⟩ := AstNode.resolve_for_eq_some.mp hres
      simp only [AstNode.skipped, AstNode.constructs, List.forall_mem_append,
        names_of_resolve hi] at hskip ⊢
      exact ⟨hskip.1, hskip.2.1, hskip.2.2.1, ihb hn.2 hb (hfunc.extend init) h hskip.2.2.2⟩
  | ret expr symbol _ =>
      obtain ⟨expr', he, rfl⟩ := AstNode.resolve_ret_eq_some.mp hres
      simp only [typeCheck, bind_eq_ok, symbolType_eq_ok, assertTypeEq_eq_ok] at h
      obtain ⟨t, hsym, t', htc, -, rfl, -⟩ := h
      simp only [AstNode.skipped, AstNode.constructs, List.forall_mem_append,
        List.forall_mem_cons] at hskip ⊢
      refine ⟨?_, wellTyped_of_typeCheck_expr (isExpr_linked hn he) htc hskip.2⟩
      cases hidden with
      | true => exact hskip.1 _ (by simp)
      | false =>
          -- the name of the function stands for it
          obtain ⟨b, hb, hret⟩ := hfunc rfl
          rw [hb, Option.map_some, hret] at hsym
          exact wellTyped_of_compared hsym htc hskip.1
  | exprStmt expr _ =>
      obtain ⟨expr', he, rfl⟩ := AstNode.resolve_exprStmt_eq_some.mp hres
      have hexpr : expr'.isExpr = true := isExpr_linked (by exact hn) he
      have h : typeCheck entries expr' = .ok ts := h
      have hall := wellTyped_of_typeCheck_expr hexpr h hskip
      exact hall
  | _ => simp [AstNode.isStmt] at hn

/-! ### Programs

The functions of a program, with the declarations before each in scope.
-/

/-- What has to have a certain type in a program. -/
def SemaResult.constructs (r : SemaResult) : List Construct :=
  AstNode.constructsList r.entries none r.prog

/-- What `type_check` does not look at in a program. -/
def SemaResult.skipped (r : SemaResult) : List Construct :=
  AstNode.skippedList r.entries "" none false r.prog

/-- A program that was checked is well typed where it is not skipped. -/
private theorem wellTyped_of_typeCheckProg {prog prog' : List AstNode} {u : Unit} {func : String}
    (hprog : ∀ n ∈ prog, n.isFuncDef = true) (hres : resolveProg typeEnv env next prog = some prog')
    (h : typeCheckList entries prog' = .ok u)
    (hskip : ∀ c ∈ AstNode.skippedList entries func ret hidden prog', c.WellTyped) :
    ∀ c ∈ AstNode.constructsList entries ret prog', c.WellTyped := by
  induction prog generalizing env next prog' hidden with
  | nil =>
      obtain rfl := Option.some.inj hres
      simp [AstNode.constructsList]
  | cons node rest ih =>
      obtain ⟨value, type, body, params, symbol, rfl⟩ := AstNode.eq_funcDef (hprog node (by simp))
      obtain ⟨body', rest', -, -, -, hb, hrest, rfl⟩ := resolveProg_cons_eq_some.mp hres
      have hbody : (AstNode.compStmt body).isStmt = true := hprog _ List.mem_cons_self
      simp only [typeCheckList, typeCheck, bind_eq_ok] at h
      obtain ⟨-, ⟨t, htc, -⟩, htcs⟩ := h
      simp only [AstNode.skippedList, AstNode.constructsList, List.forall_mem_append] at hskip ⊢
      refine ⟨?_, ih (fun n hn => hprog n (by simp [hn])) hrest htcs hskip.2⟩
      -- in its body the name of the function stands for it
      have hfunc : NamesFunc entries (funcBinds next value params ++ env) value
          (entryType entries (some (next + params.length))) false := fun _ =>
        ⟨_, by rw [funcBinds, List.cons_append, List.lookup_cons_self], rfl⟩
      have hskip : ∀ c ∈ body'.skipped entries value
        (entryType entries (some (next + params.length)))
          false, c.WellTyped := hskip.1
      have hall := wellTyped_of_typeCheck hbody hb hfunc htc hskip
      exact hall

/--
**What type checking ought to cover is well typed exactly if what it skips is.**
-/
theorem wellTyped_iff_skipped {uninit : Int} {arena : SymId → Nat} {tokens : List Token}
    {r : SemaResult} (h : Accepted uninit arena tokens r) :
    (∀ c ∈ r.constructs, c.WellTyped) ↔ ∀ c ∈ r.skipped, c.WellTyped := by
  constructor
  · intro hall c hc
    exact hall c (AstNode.skippedList_subset
      (fun n _ hidden => n.skipped_subset "" none hidden) false hc)
  · intro hskip
    obtain ⟨prog, rest, -, hprog, hres⟩ := h.resolveProg
    obtain ⟨_, _, -, hsema⟩ := h
    simp only [semaCheck, bind_eq_ok, pure_eq_ok] at hsema
    obtain ⟨⟨prog', st⟩, -, u, htc, rfl⟩ := hsema
    exact wellTyped_of_typeCheckProg hprog hres htc hskip

/-- `void g() { } int f(int x) { return x; } int main() { return f(g()); }` -/
def voidArgTokens : List Token :=
  [tok .type "void", tok .ident "g", tok .lparen "(", tok .rparen ")", tok .lbrace "\x7b",
    tok .rbrace "\x7d",
    tok .type "int", tok .ident "f", tok .lparen "(", tok .type "int", tok .ident "x",
    tok .rparen ")", tok .lbrace "\x7b", tok .return_ "return", tok .ident "x",
    tok .semicolon ";", tok .rbrace "\x7d",
    tok .type "int", tok .ident "main", tok .lparen "(", tok .rparen ")", tok .lbrace "\x7b",
    tok .return_ "return", tok .ident "f", tok .lparen "(", tok .ident "g", tok .lparen "(",
    tok .rparen ")", tok .rparen ")", tok .semicolon ";", tok .rbrace "\x7d"]

theorem wellTyped_iff_skipped_voidArg : ∃ r, Accepted 0 (fun _ => 0) voidArgTokens r ∧
    ((∀ c ∈ r.constructs, c.WellTyped) ↔ ∀ c ∈ r.skipped, c.WellTyped) := by
  have hacc : ∃ r, Accepted 0 (fun _ => 0) voidArgTokens r := ⟨_, _, _, rfl, rfl⟩
  obtain ⟨r, hacc⟩ := hacc
  exact ⟨r, hacc, wellTyped_iff_skipped hacc⟩

/-- The parameter is an `int`, the argument is `void`. -/
theorem voidArgTokens_not_wellTyped : ∃ r, Accepted 0 (fun _ => 0) voidArgTokens r ∧
    ∃ c ∈ r.constructs, c.expected = some .int ∧ c.actual = some .void ∧ ¬ c.WellTyped :=
  ⟨_, ⟨_, _, rfl, rfl⟩, ⟨some .int, some .void⟩, by decide, rfl, rfl, by decide⟩

end MyLang
