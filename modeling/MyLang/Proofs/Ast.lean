/-
Induction over syntax trees, and the trees the parser can build.

A node holds lists of nodes, so the induction principle Lean derives carries a second
motive for lists.  `AstNode.induct` trades it for a hypothesis about every element, which
is what all the inductions over the passes use.

`AstNode` also has trees no parse function returns: a statement for an operand, a function
inside a function.  `isExpr`, `isStmt` and `isFuncDef` are the three sorts the grammar
has; what the passes do is only ever asked of trees of a sort.

A tree of a sort has parts of known sorts, which `simp` finds from the definitions.  The
few lemmas here say what a node of a sort can be, where a proof starts from the sort and
not from the node.
-/
import MyLang.Ast

namespace MyLang

/-- The operators the parser puts into a binary expression. -/
def isBinOp : TokenType → Bool
  | .mult | .div | .add | .sub | .lshift | .rshift | .gt | .lt | .gtEq | .ltEq => true
  | .notEqual | .equal | .and | .xor | .or | .logAnd | .logOr => true
  | _ => false

namespace AstNode

/-- Induction on a tree, with the hypothesis for every element of its lists. -/
@[induction_eliminator]
theorem induct {P : AstNode → Prop}
    (intConst : ∀ value, P (.intConst value))
    (binExp : ∀ value opType left right, P left → P right → P (.binExp value opType left right))
    (funcDef : ∀ value type body params symbol, P body → P (.funcDef value type body params symbol))
    (varDef : ∀ value type expr symbol, P expr → P (.varDef value type expr symbol))
    (ident : ∀ value symbol, P (.ident value symbol))
    (compStmt : ∀ body, (∀ node ∈ body, P node) → P (.compStmt body))
    (funcCall : ∀ value args symbol, (∀ node ∈ args, P node) → P (.funcCall value args symbol))
    (ret : ∀ expr func, P expr → P (.ret expr func))
    (ifElse : ∀ ifExpr ifBody elseBody, P ifExpr → P ifBody → P elseBody →
      P (.ifElse ifExpr ifBody elseBody))
    (enum : ∀ value enums, P (.enum value enums))
    (varDec : ∀ value type symbol, P (.varDec value type symbol))
    (varAsgn : ∀ lval rval, P lval → P rval → P (.varAsgn lval rval))
    (while_ : ∀ expr body, P expr → P body → P (.while_ expr body))
    (for_ : ∀ init cond step body, P init → P cond → P step → P body →
      P (.for_ init cond step body))
    (emptyExpr : P .emptyExpr)
    (exprStmt : ∀ expr, P expr → P (.exprStmt expr))
    (unaryExpr : ∀ postfixExpr value opType, P postfixExpr →
      P (.unaryExpr postfixExpr value opType)) (lval : ∀ kind ident, P ident → P (.lval kind ident))
    (null : P .null) :
    ∀ node, P node :=
  fun node => AstNode.rec (motive_1 := P) (motive_2 := fun l => ∀ node ∈ l, P node)
    intConst (fun v o l r hl hr => binExp v o l r hl hr)
    (fun v t b ps s hb => funcDef v t b ps s hb) (fun v t e s he => varDef v t e s he) ident
    (fun b hb => compStmt b hb) (fun v as s has => funcCall v as s has)
    (fun e f he => ret e f he) (fun c b e hc hb he => ifElse c b e hc hb he) enum varDec
    (fun l r hl hr => varAsgn l r hl hr) (fun e b he hb => while_ e b he hb)
    (fun i c s b hi hc hs hb => for_ i c s b hi hc hs hb) emptyExpr (fun e he => exprStmt e he)
    (fun e v o he => unaryExpr e v o he) (fun k i hi => lval k i hi) null
    (fun node h => absurd h (List.not_mem_nil))
    (fun head tail hh ht node h => by
      rcases List.mem_cons.mp h with rfl | h
      · exact hh
      · exact ht node h)
    node

/-! ### The sorts of the grammar

They are computed, so that whether a tree is of a sort can be decided for a test.
-/

mutual

/-- Expressions; the empty one counts, at any depth. -/
def isExpr : AstNode → Bool
  | .intConst _ => true
  | .ident _ _ => true
  | .emptyExpr => true
  | .funcCall _ args _ => areExprs args
  | .binExp _ opType left right => isBinOp opType && left.isExpr && right.isExpr
  | .unaryExpr postfixExpr _ opType => opType = .not && postfixExpr.isExpr
  | .varAsgn (.lval .ident (.ident _ _)) rval => rval.isExpr
  | _ => false
termination_by structural node => node

/-- Lists of expressions. -/
def areExprs : List AstNode → Bool
  | [] => true
  | node :: rest => node.isExpr && areExprs rest
termination_by structural nodes => nodes

end

/-- Declarations, with or without an initialiser. -/
def isDecl : AstNode → Bool
  | .varDec _ _ _ => true
  | .varDef _ _ expr _ => expr.isExpr
  | _ => false

mutual

/-- Statements. -/
def isStmt : AstNode → Bool
  | .varDec _ _ _ => true
  | .varDef _ _ expr _ => expr.isExpr
  | .ifElse ifExpr ifBody elseBody =>
      ifExpr.isExpr && ifBody.isStmt && (!elseBody.nonNull || elseBody.isStmt)
  | .enum _ _ => true
  | .compStmt body => areStmts body
  | .while_ expr body => expr.isExpr && body.isStmt
  | .for_ init cond step body =>
      (init.isDecl || init.isExpr) && cond.isExpr && step.isExpr && body.isStmt
  | .ret expr _ => expr.isExpr
  | .exprStmt expr => expr.isExpr
  | _ => false
termination_by structural node => node

/-- Lists of statements. -/
def areStmts : List AstNode → Bool
  | [] => true
  | node :: rest => node.isStmt && areStmts rest
termination_by structural nodes => nodes

end

/-- Function definitions. -/
def isFuncDef : AstNode → Bool
  | .funcDef _ _ (.compStmt body) _ _ => areStmts body
  | _ => false

theorem eq_emptyExpr {node : AstNode} (h : node.isEmptyExpr = true) : node = .emptyExpr := by
  cases node <;> first | rfl | simp [isEmptyExpr] at h

theorem eq_null {node : AstNode} (h : ¬ node.nonNull = true) : node = .null := by
  cases node <;> first | rfl | simp [nonNull] at h

theorem eq_funcDef {node : AstNode} (h : node.isFuncDef = true) :
    ∃ value type body params symbol, node = .funcDef value type (.compStmt body) params symbol := by
  cases node with
  | funcDef value type body params symbol =>
      cases body with
      | compStmt body => exact ⟨value, type, body, params, symbol, rfl⟩
      | _ => simp [isFuncDef] at h
  | _ => simp [isFuncDef] at h

/-- The target of an assignment is a name. -/
theorem isExpr_varAsgn {target rval : AstNode} :
    (AstNode.varAsgn target rval).isExpr = true ↔
      (∃ value symbol, target = .lval .ident (.ident value symbol)) ∧ rval.isExpr = true := by
  constructor
  · intro h
    unfold isExpr at h
    split at h
    case h_7 value symbol rval' heq =>
        obtain ⟨rfl, rfl⟩ := AstNode.varAsgn.inj heq
        exact ⟨⟨value, symbol, rfl⟩, h⟩
    all_goals simp_all
  · rintro ⟨⟨value, symbol, rfl⟩, h⟩
    exact h

theorem areExprs_iff {l : List AstNode} : areExprs l = true ↔ ∀ n ∈ l, n.isExpr = true := by
  induction l with
  | nil => simp [areExprs]
  | cons n l ih => simp [areExprs, ih]

theorem areStmts_iff {l : List AstNode} : areStmts l = true ↔ ∀ n ∈ l, n.isStmt = true := by
  induction l with
  | nil => simp [areStmts]
  | cons n l ih => simp [areStmts, ih]

theorem isStmt_of_isDecl {node : AstNode} (h : node.isDecl = true) : node.isStmt = true := by
  cases node with
  | varDec value type symbol => rfl
  | varDef value type expr symbol => exact h
  | _ => simp [isDecl] at h

end AstNode

end MyLang
