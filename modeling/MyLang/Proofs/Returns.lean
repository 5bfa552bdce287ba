/-
Which symbol a `return` gets.

`sym_check` looks the name of the function up where the `return` stands.  A variable
cannot take that name, it would be a redefinition; an enumeration constant can, and from
there on every `return` is linked to the constant.

Whether the name is hidden where a statement begins is a truth value that goes along with
the environment (`FuncAt`).  A statement that declares the name hides it for the
statements behind it, up to the end of the block.  The declarations of a body have numbers
of their own, so a `return` that is linked to one of them is not linked to the function,
and the condition is necessary as well.
-/
import MyLang.Proofs.Links
import MyLang.Proofs.TypeCover

namespace MyLang

variable {entries : List SymTabEntry} {frames : List StackFrame} {typeEnv : HashMap TypeSpecifier}
  {func : String} {env : Env} {next gid : Nat} {hidden : Bool}

/-- What the name of a function stands for: the function, unless it is hidden. -/
structure FuncAt (env : Env) (func : String) (gid next : Nat) (hidden : Bool) : Prop where
  lookup : ∃ b, env.lookup func = some b ∧ (b.id = gid ↔ hidden = false)
  lt : gid < next

namespace AstNode

theorem bindNames_ge {names : List String} : ∀ p ∈ bindNames next names, next ≤ p.2.id := by
  intro p hp
  simp only [bindNames, List.mem_map, List.mem_reverse] at hp
  obtain ⟨q, hq, rfl⟩ := hp
  exact (List.mem_zipIdx hq).1

/-- The declarations of a statement have numbers of their own. -/
theorem binds_ge (node : AstNode) (next : Nat) : ∀ p ∈ node.binds next, next ≤ p.2.id := by
  induction node generalizing next with
  | varDec | varDef | enum => exact bindNames_ge
  | ifElse ifExpr ifBody elseBody _ ihb ihe =>
      intro p hp
      rcases List.mem_append.mp hp with hp | hp
      · have := ihe _ p hp
        omega
      · exact ihb _ p hp
  | while_ expr body _ ihb => exact ihb next
  | _ => simp [binds]

end AstNode

namespace FuncAt

/-- Behind a statement that declares the name, it is hidden. -/
theorem extend (h : FuncAt env func gid next hidden) (node : AstNode) {next' : Nat}
    (hle : next ≤ next') :
    FuncAt (node.binds next ++ env) func gid next' (hidden || decide (func ∈ node.names)) := by
  refine ⟨?_, Nat.lt_of_lt_of_le h.lt hle⟩
  by_cases hmem : func ∈ node.names
  · cases hb : (node.binds next).lookup func with
    | none => exact absurd hmem (AstNode.binds_lookup_eq_none.mp hb)
    | some b =>
        have hge : next ≤ b.id := node.binds_ge next (func, b) (Env.mem_of_lookup hb)
        have hlt := h.lt
        refine ⟨b, by rw [List.lookup_append, hb]; rfl, ?_⟩
        simp only [hmem, decide_true, Bool.or_true]
        refine iff_of_false ?_ (by simp)
        intro heq
        have hgid : next ≤ gid := heq ▸ hge
        omega
  · obtain ⟨b, hb, hid⟩ := h.lookup
    refine ⟨b, by rw [List.lookup_append, AstNode.binds_lookup_eq_none.mpr hmem, hb]; rfl, ?_⟩
    simpa [hmem] using hid

end FuncAt

namespace AstNode

/-- Every `return` has the symbol of the function. -/
def ReturnsTo (node : AstNode) (gid : Nat) : Prop := ∀ s ∈ node.returnSymbols, s = some gid

/-- Statements in a row, each seeing what the ones before declare. -/
private theorem resolveList_returnsTo {l l' : List AstNode}
    (hl : ∀ node ∈ l, ∀ {env : Env} {next : Nat} {hidden : Bool} {node' : AstNode},
      FuncAt env func gid next hidden → node.resolve typeEnv func env next = some node' →
      (node'.ReturnsTo gid ↔ node'.returnsSee func hidden = true))
    (hfunc : FuncAt env func gid next hidden) (h : resolveList typeEnv func env next l = some l') :
    (∀ s ∈ returnSymbolsList l', s = some gid) ↔ returnsSeeList func hidden l' = true := by
  induction l generalizing l' env next hidden with
  | nil =>
      obtain rfl := Option.some.inj h
      simp [returnSymbolsList, returnsSeeList]
  | cons node rest ih =>
      obtain ⟨node', rest', h1, h2, rfl⟩ := resolveList_cons_eq_some.mp h
      have hrest := ih (fun n hn => hl n (by simp [hn]))
        (hfunc.extend node (Nat.le_add_right next node.declCount)) h2
      rw [← names_of_resolve h1] at hrest
      rw [returnSymbolsList, returnsSeeList, List.forall_mem_append, Bool.and_eq_true, ← hrest,
        ← hl node (by simp) hfunc h1]
      rfl

private theorem returnsTo_leaf {node : AstNode} (hs : node.returnSymbols = [])
    (hr : node.returnsSee func hidden = true) :
    node.ReturnsTo gid ↔ node.returnsSee func hidden = true := by
  rw [ReturnsTo, hs, hr]
  simp

/-- There is no `return` in an expression. -/
theorem resolveExpr_leaf {node node' : AstNode} (h : node.resolveExpr env = some node') :
    node'.returnSymbols = [] ∧ node'.returnsSee func hidden = true := by
  cases node with
  | intConst | emptyExpr =>
      rw [← Option.some.inj h]
      exact ⟨rfl, rfl⟩
  | ident value symbol =>
      obtain ⟨b, -, rfl⟩ := resolveExpr_ident_eq_some.mp h
      exact ⟨rfl, rfl⟩
  | funcCall value args symbol =>
      obtain ⟨b, args', -, -, -, rfl⟩ := resolveExpr_funcCall_eq_some.mp h
      exact ⟨rfl, rfl⟩
  | binExp value opType left right =>
      obtain ⟨left', right', -, -, rfl⟩ := resolveExpr_binExp_eq_some.mp h
      exact ⟨rfl, rfl⟩
  | varAsgn target rval =>
      obtain ⟨left', right', -, -, rfl⟩ := resolveExpr_varAsgn_eq_some.mp h
      exact ⟨rfl, rfl⟩
  | unaryExpr postfixExpr value opType =>
      obtain ⟨expr', -, rfl⟩ := resolveExpr_unaryExpr_eq_some.mp h
      exact ⟨rfl, rfl⟩
  | lval kind target =>
      obtain ⟨expr', -, rfl⟩ := resolveExpr_lval_eq_some.mp h
      exact ⟨rfl, rfl⟩
  | _ => simp [resolveExpr] at h

private theorem resolveExpr_returnsTo {node node' : AstNode}
    (h : node.resolveExpr env = some node') :
    node'.ReturnsTo gid ↔ node'.returnsSee func hidden = true := by
  obtain ⟨hs, hr⟩ := resolveExpr_leaf h
  exact returnsTo_leaf hs hr

/-- A `return` has the symbol of its function where the function's name is not hidden. -/
theorem resolve_returnsTo {node node' : AstNode} (hfunc : FuncAt env func gid next hidden)
    (h : node.resolve typeEnv func env next = some node') :
    node'.ReturnsTo gid ↔ node'.returnsSee func hidden = true := by
  induction node generalizing node' env next hidden with
  | varDec value type symbol =>
      obtain ⟨-, -, rfl⟩ := resolve_varDec_eq_some.mp h
      exact returnsTo_leaf rfl rfl
  | varDef value type expr symbol _ =>
      obtain ⟨-, expr', he, -, rfl⟩ := resolve_varDef_eq_some.mp h
      exact returnsTo_leaf rfl rfl
  | enum value enums =>
      rw [← Option.some.inj h]
      exact returnsTo_leaf rfl rfl
  | exprStmt expr _ =>
      obtain ⟨expr', he, rfl⟩ := resolve_exprStmt_eq_some.mp h
      exact returnsTo_leaf rfl rfl
  | compStmt body ih =>
      obtain ⟨body', hb, rfl⟩ := resolve_compStmt_eq_some.mp h
      exact resolveList_returnsTo (fun n hn _ _ _ _ hfunc h => ih n hn hfunc h) hfunc hb
  | ifElse ifExpr ifBody elseBody _ ihb ihe =>
      obtain ⟨ifExpr', ifBody', elseBody', hb, -, he, rfl⟩ := resolve_ifElse_eq_some.mp h
      have hfunc' := hfunc.extend ifBody (Nat.le_add_right next ifBody.declCount)
      rw [← names_of_resolve hb] at hfunc'
      have helse : elseBody'.ReturnsTo gid ↔
          elseBody'.returnsSee func (hidden || decide (func ∈ ifBody'.names)) = true := by
        split at he
        · exact ihe hfunc' he
        · rename_i hnull
          rw [he, eq_null hnull]
          exact returnsTo_leaf rfl rfl
      rw [returnsSee, Bool.and_eq_true, ← ihb hfunc hb, ← helse]
      exact List.forall_mem_append
  | while_ expr body _ ihb =>
      obtain ⟨expr', body', -, hb, rfl⟩ := resolve_while_eq_some.mp h
      have hbody : body'.ReturnsTo gid ↔ body'.returnsSee func hidden = true := ihb hfunc hb
      exact hbody
  | for_ init cond step body _ _ _ ihb =>
      obtain ⟨init', cond', step', body', hi, -, -, hb, rfl⟩ := resolve_for_eq_some.mp h
      have hfunc' := hfunc.extend init (Nat.le_add_right next init.declCount)
      rw [← names_of_resolve hi] at hfunc'
      have hbody : body'.ReturnsTo gid ↔
          body'.returnsSee func (hidden || decide (func ∈ init'.names)) = true := ihb hfunc' hb
      exact hbody
  | ret expr symbol _ =>
      obtain ⟨expr', -, rfl⟩ := resolve_ret_eq_some.mp h
      obtain ⟨b, hb, hid⟩ := hfunc.lookup
      rw [hb]
      simp only [ReturnsTo, returnSymbols, List.mem_singleton, forall_eq, returnsSee,
        Option.map_some, Option.some.injEq, hid]
      cases hidden <;> simp
  | _ => exact resolveExpr_returnsTo h

end AstNode

/-! ### Programs

The functions of a program have different symbols, since each is declared once.
-/

/-- The `return`s of each function of a linked program. -/
theorem resolveProg_returnsTo {prog prog' : List AstNode}
    (h : resolveProg typeEnv env next prog = some prog') {value type : String} {body : AstNode}
    {params : List Param} {symbol : Option SymId}
    (hmem : .funcDef value type body params symbol ∈ prog') :
    ∃ gid, symbol = some gid ∧ (body.ReturnsTo gid ↔ body.returnsSee value false = true) := by
  induction prog generalizing env next prog' with
  | nil =>
      obtain rfl := Option.some.inj h
      simp at hmem
  | cons node rest ih =>
      cases node with
      | funcDef value' type' body' params' symbol' =>
          obtain ⟨body1, rest', -, -, -, hb, hrest, rfl⟩ := resolveProg_cons_eq_some.mp h
          rcases List.mem_cons.mp hmem with heq | hmem
          · obtain ⟨rfl, rfl, rfl, rfl, rfl⟩ := AstNode.funcDef.inj heq
            refine ⟨next + params'.length, rfl, ?_⟩
            refine AstNode.resolve_returnsTo ⟨?_, Nat.lt_succ_self _⟩ hb
            exact ⟨⟨next + params'.length, some params'.length⟩, by simp [funcBinds], by simp⟩
          · exact ih hrest hmem
      | _ => simp [resolveProg] at h

/--
**Every `return` belongs to its own function exactly if no enumeration constant has taken the
function's name where it stands.**
-/
theorem Accepted.returns_iff {uninit : Int} {arena : SymId → Nat} {tokens : List Token}
    {r : SemaResult} (hacc : Accepted uninit arena tokens r) {value type : String} {body : AstNode}
    {params : List Param} {symbol : Option SymId}
    (hmem : .funcDef value type body params symbol ∈ r.prog) :
    (∀ s ∈ body.returnSymbols, s = symbol ∧
        frameOf r.entries r.frames s = frameOf r.entries r.frames symbol) ↔
      body.returnsSee value false = true := by
  obtain ⟨prog, rest, -, -, hresolve⟩ := hacc.resolveProg
  obtain ⟨gid, rfl, hiff⟩ := resolveProg_returnsTo hresolve hmem
  rw [← hiff]
  constructor
  · exact fun h s hs => (h s hs).1
  · intro h s hs
    obtain rfl := h s hs
    exact ⟨rfl, rfl⟩

/-- `int f() { enum e { f }; return 1; }` -/
def namesakeTokens : List Token :=
  [tok .type "int", tok .ident "f", tok .lparen "(", tok .rparen ")", tok .lbrace "\x7b",
    tok .enum "enum", tok .ident "e", tok .lbrace "\x7b", tok .ident "f", tok .rbrace "\x7d",
    tok .semicolon ";", tok .return_ "return", tok .num "1", tok .semicolon ";", tok .rbrace "\x7d"]

/-- The body of `f` in `namesakeTokens`, linked. -/
def namesakeBody : AstNode := .compStmt [.enum "e" ["f"], .ret (.intConst 1) (some 1)]

theorem Accepted.returns_iff_namesake :
    ∃ r, Accepted 0 (fun _ => 0) namesakeTokens r ∧
      ((∀ s ∈ namesakeBody.returnSymbols, s = some 0 ∧
          frameOf r.entries r.frames s = frameOf r.entries r.frames (some 0)) ↔
        namesakeBody.returnsSee "f" false = true) := by
  have hacc : ∃ r, Accepted 0 (fun _ => 0) namesakeTokens r ∧
      AstNode.funcDef "f" "int" namesakeBody [] (some 0) ∈ r.prog :=
    ⟨_, ⟨_, _, rfl, rfl⟩, List.mem_singleton.mpr rfl⟩
  obtain ⟨r, hacc, hmem⟩ := hacc
  exact ⟨r, hacc, hacc.returns_iff hmem⟩

/-- The `return` is linked to the constant, which has no frame; `f` has one. -/
theorem namesakeTokens_not_returns :
    ∃ r, Accepted 0 (fun _ => 0) namesakeTokens r ∧
      .funcDef "f" "int" namesakeBody [] (some 0) ∈ r.prog ∧ namesakeBody.returnSymbols = [some 1] ∧
      frameOf r.entries r.frames (some 1) = none ∧
      (frameOf r.entries r.frames (some 0)).isSome = true :=
  ⟨_, ⟨_, _, rfl, rfl⟩, List.mem_singleton.mpr rfl, rfl, rfl, rfl⟩

end MyLang
