/-
The analysis links symbols and changes nothing else.

`erase` forgets the symbols of a tree.  A checked tree and the tree it was made from are
the same once they are forgotten, so everything the parser guarantees about the trees it
builds holds of the trees code is generated from.

The C code writes symbols into the tree it is given.  In the model the analysis returns
another tree, so it has to be said that this is the same one, and `Accepted.erase` does.
What is computed from a tree without looking at symbols, such as its sort in the grammar
or the names in it, can then be read off the parsed tree or off the checked one.
-/
import MyLang.Proofs.SemaLayout

namespace MyLang

open StateExcept

variable {arena : SymId → Nat} {typeEnv : HashMap TypeSpecifier} {s s' : SemaState}
  {frame : Option FrameId}

/-- A parameter without its symbol. -/
def Param.erase (param : Param) : Param := { param with symbol := none }

namespace AstNode

mutual

/-- A tree without its symbols. -/
def erase : AstNode → AstNode
  | .intConst value => .intConst value
  | .binExp value opType left right => .binExp value opType left.erase right.erase
  | .funcDef value type body params _ =>
      .funcDef value type body.erase (params.map Param.erase) none
  | .varDef value type expr _ => .varDef value type expr.erase none
  | .ident value _ => .ident value none
  | .compStmt body => .compStmt (eraseList body)
  | .funcCall value args _ => .funcCall value (eraseList args) none
  | .ret expr _ => .ret expr.erase none
  | .ifElse ifExpr ifBody elseBody => .ifElse ifExpr.erase ifBody.erase elseBody.erase
  | .enum value enums => .enum value enums
  | .varDec value type _ => .varDec value type none
  | .varAsgn target rval => .varAsgn target.erase rval.erase
  | .while_ expr body => .while_ expr.erase body.erase
  | .for_ init cond step body => .for_ init.erase cond.erase step.erase body.erase
  | .emptyExpr => .emptyExpr
  | .exprStmt expr => .exprStmt expr.erase
  | .unaryExpr postfixExpr value opType => .unaryExpr postfixExpr.erase value opType
  | .lval kind target => .lval kind target.erase
  | .null => .null
termination_by structural node => node

/-- The elements of a list without their symbols. -/
def eraseList : List AstNode → List AstNode
  | [] => []
  | node :: rest => node.erase :: eraseList rest
termination_by structural nodes => nodes

end

theorem eraseList_eq_map (l : List AstNode) : eraseList l = l.map erase := by
  induction l with
  | nil => rfl
  | cons n l ih => rw [eraseList, ih, List.map_cons]

/-! ### The sorts of the grammar do not depend on symbols

Each of them is a match on the kinds of nodes.
-/

theorem isExpr_erase (node : AstNode) : node.erase.isExpr = node.isExpr := by
  induction node with
  | binExp value opType left right ihl ihr => simp only [erase, isExpr, ihl, ihr]
  | unaryExpr postfixExpr value opType ih => simp only [erase, isExpr, ih]
  | funcCall value args symbol ih =>
      rw [erase, isExpr, isExpr, eraseList_eq_map, Bool.eq_iff_iff, areExprs_iff, areExprs_iff,
        List.forall_mem_map]
      exact forall₂_congr fun n hn => by rw [ih n hn]
  | varAsgn target rval _ ihr =>
      cases target with
      | lval kind ident =>
          cases kind
          cases ident <;> simp only [erase, isExpr, ihr]
      | _ => rfl
  | _ => rfl

theorem nonNull_erase (node : AstNode) : node.erase.nonNull = node.nonNull := by
  cases node <;> rfl

theorem isDecl_erase (node : AstNode) : node.erase.isDecl = node.isDecl := by
  cases node with
  | varDef value type expr symbol => exact isExpr_erase expr
  | _ => rfl

theorem isStmt_erase (node : AstNode) : node.erase.isStmt = node.isStmt := by
  induction node with
  | varDef value type expr symbol _ => exact isExpr_erase expr
  | ret expr func _ => exact isExpr_erase expr
  | exprStmt expr _ => exact isExpr_erase expr
  | ifElse ifExpr ifBody elseBody _ ihb ihe =>
      simp only [erase, isStmt, isExpr_erase, nonNull_erase, ihb, ihe]
  | compStmt body ih =>
      rw [erase, isStmt, isStmt, eraseList_eq_map, Bool.eq_iff_iff, areStmts_iff, areStmts_iff,
        List.forall_mem_map]
      exact forall₂_congr fun n hn => by rw [ih n hn]
  | while_ expr body _ ihb => simp only [erase, isStmt, isExpr_erase, ihb]
  | for_ init cond step body _ _ _ ihb =>
      simp only [erase, isStmt, isExpr_erase, isDecl_erase, ihb]
  | _ => rfl

theorem isFuncDef_erase (node : AstNode) : node.erase.isFuncDef = node.isFuncDef := by
  cases node with
  | funcDef value type body params symbol =>
      cases body with
      | compStmt l => exact isStmt_erase (.compStmt l)
      | _ => rfl
  | _ => rfl

end AstNode

/-! ### Checking erases to the same tree

On the tree, case by case of `sym_check`.
-/

private theorem symCheckParams_erase {params ps : List Param}
    (h : symCheckParams arena typeEnv params s = .ok (ps, s')) :
    ps.map Param.erase = params.map Param.erase := by
  induction params generalizing s ps with
  | nil =>
      rw [symCheckParams, pure_eq_ok] at h
      rw [h.1]
  | cons param rest ih =>
      obtain ⟨ts, ps', -, h', rfl⟩ := symCheckParams_cons_eq_ok.mp h
      rw [List.map_cons, List.map_cons, ih h']
      rfl

/-- Checking the elements of a list, if checking each of them erases to the same tree. -/
private theorem symCheckList_erase_of {l l' : List AstNode}
    (hl : ∀ node ∈ l, ∀ {s s' : SemaState} {node' : AstNode},
      symCheck arena typeEnv frame node s = .ok (node', s') → node'.erase = node.erase)
    (h : symCheckList arena typeEnv frame l s = .ok (l', s')) :
    AstNode.eraseList l' = AstNode.eraseList l := by
  induction l generalizing s l' with
  | nil =>
      rw [symCheckList, pure_eq_ok] at h
      rw [h.1]
  | cons node rest ih =>
      rw [symCheckList, bind_eq_ok] at h
      obtain ⟨n1, s1, h1, h⟩ := h
      rw [bind_eq_ok] at h
      obtain ⟨r1, s2, h2, h⟩ := h
      rw [pure_eq_ok] at h
      obtain ⟨rfl, rfl⟩ := h
      rw [AstNode.eraseList, AstNode.eraseList, hl node (by simp) h1,
        ih (fun n hn => hl n (by simp [hn])) h2]

/-- **A checked tree is the tree it was made from, but for its symbols.** -/
theorem symCheck_erase {node node' : AstNode}
    (h : symCheck arena typeEnv frame node s = .ok (node', s')) : node'.erase = node.erase := by
  induction node generalizing s s' node' frame with
  | intConst | emptyExpr =>
      rw [symCheck, pure_eq_ok] at h
      rw [h.1]
  | null => simp [symCheck] at h
  | funcDef value type body params symbol ih =>
      rw [symCheck, symCheckFuncDef_eq_ok] at h
      obtain ⟨-, ps, s1, ts, body', hps, -, hb, rfl⟩ := h
      rw [AstNode.erase, AstNode.erase, ih hb, symCheckParams_erase hps]
  | ident value symbol =>
      rw [symCheck, symCheckIdent_eq_ok] at h
      obtain ⟨id, -, rfl, -⟩ := h
      rfl
  | enum value enums =>
      rw [symCheck, bind_eq_ok] at h
      obtain ⟨u, s1, -, h⟩ := h
      rw [pure_eq_ok] at h
      rw [h.1]
  | varDec value type symbol =>
      rw [symCheck, symCheckVarDec_eq_ok] at h
      obtain ⟨-, ts, fid', f, -, -, -, rfl, -⟩ := h
      rfl
  | varDef value type expr symbol ih =>
      rw [symCheck, symCheckVarDef_eq_ok] at h
      obtain ⟨-, e1, s1, ts, fid', f, h1, -, -, -, rfl, -⟩ := h
      rw [AstNode.erase, AstNode.erase, ih h1]
  | exprStmt expr ih | unaryExpr expr value opType ih | lval kind expr ih =>
      rw [symCheck, bind_eq_ok] at h
      obtain ⟨e1, s1, h1, h⟩ := h
      rw [pure_eq_ok] at h
      rw [h.1, AstNode.erase, AstNode.erase, ih h1]
  | ret expr func ih =>
      rw [symCheck, symCheckRet_eq_ok] at h
      obtain ⟨fid', f, e1, -, -, h1, rfl⟩ := h
      rw [AstNode.erase, AstNode.erase, ih h1]
  | funcCall value args symbol ih =>
      rw [symCheck, symCheckFuncCall_eq_ok] at h
      obtain ⟨id, e, ps, args', -, -, -, -, h1, rfl⟩ := h
      rw [AstNode.erase, AstNode.erase, symCheckList_erase_of (fun n hn => ih n hn) h1]
  | compStmt body ih =>
      rw [symCheck, inChildScope_eq_ok] at h
      obtain ⟨s2, h, -⟩ := h
      rw [bind_eq_ok] at h
      obtain ⟨body', s1, h1, h⟩ := h
      rw [pure_eq_ok] at h
      rw [h.1, AstNode.erase, AstNode.erase, symCheckList_erase_of (fun n hn => ih n hn) h1]
  | binExp value opType n m ih1 ih2 | varAsgn n m ih1 ih2 | while_ n m ih1 ih2 =>
      rw [symCheck, bind_eq_ok] at h
      obtain ⟨n1, s1, h1, h⟩ := h
      rw [bind_eq_ok] at h
      obtain ⟨n2, s2, h2, h⟩ := h
      rw [pure_eq_ok] at h
      rw [h.1, AstNode.erase, AstNode.erase, ih1 h1, ih2 h2]
  | ifElse ifExpr ifBody elseBody ihe ihb ihc =>
      rw [symCheck, bind_eq_ok] at h
      obtain ⟨n1, s1, h1, h⟩ := h
      rw [bind_eq_ok] at h
      obtain ⟨n2, s2, h2, h⟩ := h
      split at h
      · rw [bind_eq_ok] at h
        obtain ⟨n3, s3, h3, h⟩ := h
        rw [pure_eq_ok] at h
        rw [h.1, AstNode.erase, AstNode.erase, ihb h1, ihe h2, ihc h3]
      · rw [pure_eq_ok] at h
        rw [h.1, AstNode.erase, AstNode.erase, ihb h1, ihe h2]
  | for_ init cond step body ih1 ih2 ih3 ih4 =>
      rw [symCheck, inChildScope_eq_ok] at h
      obtain ⟨s5, h, -⟩ := h
      rw [bind_eq_ok] at h
      obtain ⟨n1, s1, h1, h⟩ := h
      rw [bind_eq_ok] at h
      obtain ⟨n2, s2, h2, h⟩ := h
      rw [bind_eq_ok] at h
      obtain ⟨n3, s3, h3, h⟩ := h
      rw [bind_eq_ok] at h
      obtain ⟨n4, s4, h4, h⟩ := h
      rw [pure_eq_ok] at h
      rw [h.1, AstNode.erase, AstNode.erase, ih1 h1, ih2 h2, ih3 h3, ih4 h4]

theorem symCheckList_erase {l l' : List AstNode}
    (h : symCheckList arena typeEnv frame l s = .ok (l', s')) :
    l'.map AstNode.erase = l.map AstNode.erase := by
  rw [← AstNode.eraseList_eq_map, ← AstNode.eraseList_eq_map]
  exact symCheckList_erase_of (fun _ _ => symCheck_erase) h

/-- An accepted program is the parsed one, but for its symbols. -/
theorem Accepted.erase {uninit : Int} {tokens : List Token} {r : SemaResult}
    (h : Accepted uninit arena tokens r) :
    ∃ prog rest, parse uninit tokens = .ok (prog, rest) ∧
      r.prog.map AstNode.erase = prog.map AstNode.erase := by
  obtain ⟨prog, rest, hparse, hsema⟩ := h
  simp only [semaCheck, ExceptRun.bind_eq_ok, ExceptRun.pure_eq_ok] at hsema
  obtain ⟨⟨prog', st⟩, hrun, _, _, rfl⟩ := hsema
  exact ⟨prog, rest, hparse, symCheckList_erase hrun⟩

/-- An accepted program is a list of function definitions. -/
theorem Accepted.isFuncDef {uninit : Int} {tokens : List Token} {r : SemaResult}
    (h : Accepted uninit arena tokens r) : ∀ n ∈ r.prog, n.isFuncDef = true := by
  obtain ⟨prog, rest, hparse, heq⟩ := h.erase
  intro n hn
  have hmem : n.erase ∈ prog.map AstNode.erase := heq ▸ List.mem_map_of_mem hn
  obtain ⟨n', hn', he⟩ := List.mem_map.mp hmem
  rw [← AstNode.isFuncDef_erase, ← he, AstNode.isFuncDef_erase]
  exact parse_isFuncDef hparse n' hn'

end MyLang
