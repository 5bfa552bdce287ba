/-
What `type_check` knows about the operands of an operator.

It asks for the type of the left operand twice and never for that of the right one.  An
expression that passes has the type of its leftmost operand, and nothing follows for the
others: the operands of its operators have equal types exactly if every right operand
starts with an operand of that one type.

An operator has the type of its left operand, whose type is that of its own left operand,
and so on down to a leaf, the `head`.  So the types of two operands are equal if those of
their heads are, and for a whole expression it is enough to compare the heads of all right
operands, the `laterHeads`, with the first one.  Of the heads on the left nothing has to
be asked, since the expression has passed.

The operators in question are those that `type_check` comes to; it does not look into
arguments or into conditions.
-/
import MyLang.Proofs.TypeCover

namespace MyLang

open ExceptRun

variable {entries : List SymTabEntry} {ts : TypeSpecifier}

namespace AstNode

/-- An expression has the type of its leftmost operand. -/
theorem leftType_head (node : AstNode) : node.head.leftType entries = node.leftType entries := by
  induction node with
  | binExp value opType left right ihl _ => exact ihl
  | unaryExpr expr value opType ih => exact ih
  | varAsgn target rval ihl _ => exact ihl
  | lval kind target ih => exact ih
  | _ => rfl

/-- The type `type_check` finds is that of the leftmost operand. -/
theorem leftType_of_typeCheck {node : AstNode} (hn : node.isExpr = true)
    (h : typeCheck entries node = .ok ts) : node.leftType entries = some ts := by
  induction node generalizing ts with
  | intConst | emptyExpr =>
      obtain rfl := pure_eq_ok.mp h
      rfl
  | ident value symbol => exact symbolType_eq_ok.mp h
  | funcCall value args symbol _ => exact symbolType_eq_ok.mp h
  | binExp value opType left right ihl _ =>
      simp only [isExpr, Bool.and_eq_true] at hn
      simp only [typeCheck, bind_eq_ok, pure_eq_ok] at h
      obtain ⟨t, hl, -, -, -, -, rfl⟩ := h
      exact ihl hn.1.2 hl
  | unaryExpr expr value opType ih =>
      simp only [isExpr, Bool.and_eq_true] at hn
      exact ih hn.2 h
  | varAsgn target rval _ _ =>
      obtain ⟨⟨x, symbol, rfl⟩, -⟩ := isExpr_varAsgn.mp hn
      simp only [typeCheck, bind_eq_ok, pure_eq_ok] at h
      obtain ⟨t, hsym, -, -, -, -, rfl⟩ := h
      exact symbolType_eq_ok.mp hsym
  | _ => simp [isExpr] at hn

/-- In an expression that passes, only the leaves after the first one are in doubt. -/
theorem operands_iff {node : AstNode} (hn : node.isExpr = true)
    (h : typeCheck entries node = .ok ts) :
    (∀ p ∈ node.visitedOperands, p.1.leftType entries = p.2.leftType entries) ↔
      ∀ leaf ∈ node.laterHeads, leaf.leftType entries = some ts := by
  induction node generalizing ts with
  | binExp value opType left right ihl _ =>
      simp only [isExpr, Bool.and_eq_true] at hn
      simp only [typeCheck, bind_eq_ok, pure_eq_ok] at h
      obtain ⟨t, hl, -, -, -, -, rfl⟩ := h
      rw [visitedOperands, laterHeads, List.forall_mem_cons, List.forall_mem_cons, ihl hn.1.2 hl,
        leftType_head, leftType_of_typeCheck hn.1.2 hl, eq_comm]
  | unaryExpr expr value opType ih =>
      simp only [isExpr, Bool.and_eq_true] at hn
      exact ih hn.2 h
  | varAsgn target rval _ ihr =>
      obtain ⟨⟨x, symbol, rfl⟩, hrval⟩ := isExpr_varAsgn.mp hn
      simp only [typeCheck, bind_eq_ok, assertTypeEq_eq_ok, pure_eq_ok] at h
      obtain ⟨t, -, t', hr, -, rfl, rfl⟩ := h
      -- the assigned value has the type of the target, so it has the same leaves to look at
      exact ihr hrval hr
  | intConst | ident | funcCall | emptyExpr => simp [visitedOperands, laterHeads]
  | _ => simp [isExpr] at hn

end AstNode

/-! ### Statements

Each expression of a statement has a type of its own to stick to.
-/

/-- The operands of all operators visited are of equal types. -/
def OperandsAgree (entries : List SymTabEntry) (node : AstNode) : Prop :=
  ∀ p ∈ node.visitedOperands, p.1.leftType entries = p.2.leftType entries

/-- All leaves that follow in an expression have the type of its leftmost operand. -/
def OneTyped (entries : List SymTabEntry) (expr : AstNode) : Prop :=
  ∀ leaf ∈ expr.laterHeads, leaf.leftType entries = expr.head.leftType entries

namespace AstNode

private theorem operandsAgree_expr {expr : AstNode} (hn : expr.isExpr = true)
    (h : typeCheck entries expr = .ok ts) :
    OperandsAgree entries expr ↔ ∀ e ∈ [expr], OneTyped entries e := by
  unfold OperandsAgree OneTyped
  rw [operands_iff hn h, List.forall_mem_singleton, leftType_head, leftType_of_typeCheck hn h]

private theorem operandsAgreeList {nodes : List AstNode} {u : Unit}
    (hnodes : ∀ node ∈ nodes, ∀ {ts : TypeSpecifier}, typeCheck entries node = .ok ts →
      (OperandsAgree entries node ↔ ∀ e ∈ node.fullExprs, OneTyped entries e))
    (h : typeCheckList entries nodes = .ok u) :
    (∀ p ∈ visitedOperandsList nodes, p.1.leftType entries = p.2.leftType entries) ↔
      ∀ e ∈ fullExprsList nodes, OneTyped entries e := by
  induction nodes with
  | nil => simp [visitedOperandsList, fullExprsList]
  | cons node rest ih =>
      simp only [typeCheckList, bind_eq_ok] at h
      obtain ⟨t, hnode, hrest⟩ := h
      rw [visitedOperandsList, fullExprsList, List.forall_mem_append, List.forall_mem_append,
        ih (fun n hn => hnodes n (by simp [hn])) hrest, ← hnodes node (by simp) hnode]
      exact Iff.rfl

/-- In a statement that passes, the leaves of its expressions decide. -/
theorem operandsAgree_iff {node : AstNode} (hn : node.isStmt = true)
    (h : typeCheck entries node = .ok ts) :
    OperandsAgree entries node ↔ ∀ e ∈ node.fullExprs, OneTyped entries e := by
  induction node generalizing ts with
  | varDef value type expr symbol _ =>
      simp only [typeCheck, bind_eq_ok] at h
      obtain ⟨t, -, t', hexpr, -⟩ := h
      exact operandsAgree_expr hn hexpr
  | compStmt body ih =>
      rw [isStmt, areStmts_iff] at hn
      simp only [typeCheck, bind_eq_ok] at h
      obtain ⟨u, hlist, -⟩ := h
      exact operandsAgreeList (fun n hmem => ih n hmem (hn n hmem)) hlist
  | ifElse ifExpr ifBody elseBody _ ihb ihe =>
      simp only [isStmt, Bool.and_eq_true, Bool.or_eq_true] at hn
      simp only [typeCheck, bind_eq_ok] at h
      obtain ⟨t, htc, h⟩ := h
      have helse : OperandsAgree entries elseBody ↔
          ∀ e ∈ elseBody.fullExprs, OneTyped entries e := by
        by_cases hnull : elseBody.nonNull = true
        · rw [if_pos hnull] at h
          simp only [bind_eq_ok] at h
          obtain ⟨t', htc', -⟩ := h
          exact ihe (hn.2.resolve_left (by simp [hnull])) htc'
        · rw [eq_null hnull]
          simp [OperandsAgree, visitedOperands, fullExprs]
      rw [fullExprs, List.forall_mem_append, ← helse, ← ihb hn.1.2 htc]
      exact List.forall_mem_append
  | while_ expr body _ ihb =>
      simp only [isStmt, Bool.and_eq_true] at hn
      exact ihb hn.2 h
  | for_ init cond step body _ _ _ ihb =>
      simp only [isStmt, Bool.and_eq_true] at hn
      exact ihb hn.2 h
  | ret expr func _ =>
      simp only [typeCheck, bind_eq_ok] at h
      obtain ⟨t, -, t', hexpr, -⟩ := h
      exact operandsAgree_expr hn hexpr
  | exprStmt expr _ => exact operandsAgree_expr hn h
  | varDec | enum => simp [OperandsAgree, visitedOperands, fullExprs]
  | _ => simp [isStmt] at hn

end AstNode

/-! ### Programs

The condition is about the types of leaves, which are those of declarations.
-/

/--
**The operands of every operator have equal types exactly if every expression sticks to the
type of its leftmost operand.**
-/
theorem operands_agree_iff {uninit : Int} {arena : SymId → Nat} {tokens : List Token}
    {r : SemaResult} (hacc : Accepted uninit arena tokens r) :
    (∀ p ∈ AstNode.visitedOperandsList r.prog,
        p.1.leftType r.entries = p.2.leftType r.entries) ↔
      ∀ e ∈ AstNode.fullExprsList r.prog, OneTyped r.entries e := by
  have hfuncs := hacc.isFuncDef
  obtain ⟨_, _, -, hsema⟩ := hacc
  simp only [semaCheck, bind_eq_ok, pure_eq_ok] at hsema
  obtain ⟨⟨prog', st⟩, -, u, htc, rfl⟩ := hsema
  refine AstNode.operandsAgreeList (fun node hmem ts h => ?_) htc
  obtain ⟨value, type, body, params, symbol, rfl⟩ := AstNode.eq_funcDef (hfuncs node hmem)
  have hbody : (AstNode.compStmt body).isStmt = true := hfuncs _ hmem
  rw [typeCheck, bind_eq_ok] at h
  obtain ⟨t, htc', -⟩ := h
  have hagree := AstNode.operandsAgree_iff hbody htc'
  exact hagree

/-- `void g() { } int main() { return 1 + g(); }` -/
def voidOperandTokens : List Token :=
  [tok .type "void", tok .ident "g", tok .lparen "(", tok .rparen ")", tok .lbrace "\x7b",
    tok .rbrace "\x7d",
    tok .type "int", tok .ident "main", tok .lparen "(", tok .rparen ")", tok .lbrace "\x7b",
    tok .return_ "return", tok .num "1", tok .add "+", tok .ident "g", tok .lparen "(",
    tok .rparen ")", tok .semicolon ";", tok .rbrace "\x7d"]

theorem operands_agree_iff_void : ∃ r, Accepted 0 (fun _ => 0) voidOperandTokens r ∧
    ((∀ p ∈ AstNode.visitedOperandsList r.prog,
        p.1.leftType r.entries = p.2.leftType r.entries) ↔
      ∀ e ∈ AstNode.fullExprsList r.prog, OneTyped r.entries e) := by
  have hacc : ∃ r, Accepted 0 (fun _ => 0) voidOperandTokens r := ⟨_, _, _, rfl, rfl⟩
  obtain ⟨r, hacc⟩ := hacc
  exact ⟨r, hacc, operands_agree_iff hacc⟩

/-- The left operand is an `int`, the right one `void`. -/
theorem voidOperandTokens_not_agree : ∃ r, Accepted 0 (fun _ => 0) voidOperandTokens r ∧
    ∃ p ∈ AstNode.visitedOperandsList r.prog,
      p.1.leftType r.entries = some .int ∧ p.2.leftType r.entries = some .void :=
  ⟨_, ⟨_, _, rfl, rfl⟩, (.intConst 1, .funcCall "g" [] (some 0)), List.mem_singleton.mpr rfl, rfl,
    rfl⟩

end MyLang
