/-
The analysis accepts what links and compares.

Both directions: what the analysis accepts has been linked as in an environment, with
every comparison a success; and a program that links so, and whose comparisons are
successes, is not stopped by anything else, neither by a scope nor by what a symbol points
to.

`type_check` runs on a tree with symbols, and reads the types out of the entries.  The
comparisons are those of `Accepting.lean`, two types that are asked to be equal, taken
from declarations.  `typeCheck_expr_iff` ties the two: an expression passes with a type if
that is the type of its head and all its comparisons are successes, and there are no other
ways for it to stop.

The first part of the analysis, which links, is followed by `resolve` in both directions
(`Proofs/SemaScope.lean`), so that nothing has to be said here of scopes and of the heap.
-/
import MyLang.Accepting
import MyLang.Proofs.Rename
import MyLang.Proofs.TypeCover

namespace MyLang

open ExceptRun

variable {entries : List SymTabEntry} {types : List (Option TypeSpecifier)}

theorem entryType_eq_declaredType (htypes : entries.map (fun e => some e.type) = types)
    (symbol : Option SymId) : entryType entries symbol = declaredType types symbol := by
  subst htypes
  cases symbol with
  | none => rfl
  | some id =>
      simp only [entryType, declaredType, Option.bind_some, List.getElem?_map]
      cases entries[id]? <;> rfl

theorem symbolType_eq_ok_iff (htypes : entries.map (fun e => some e.type) = types)
    {symbol : Option SymId} {ts : TypeSpecifier} : symbolType entries symbol = .ok ts ↔
      declaredType types symbol = some ts := by
  rw [symbolType_eq_ok, entryType_eq_declaredType htypes]

/-- What is compared is equal if both have a type, and the same. -/
theorem Construct.wellTyped_iff {expected actual : Option TypeSpecifier} :
    (⟨expected, actual⟩ : Construct).WellTyped ↔ ∃ ts, expected = some ts ∧ actual = some ts := by
  constructor
  · intro h
    obtain ⟨ts, hts⟩ := Option.isSome_iff_exists.mp h.1
    have hts : actual = some ts := hts
    have heq : expected = actual := h.2
    exact ⟨ts, heq.trans hts, hts⟩
  · intro h
    obtain ⟨ts, rfl, rfl⟩ := h
    exact ⟨rfl, rfl⟩

/--
**An expression is checked to have a type if that is the type of its head, and its
comparisons are successes.**
-/
theorem typeCheck_expr_iff (htypes : entries.map (fun e => some e.type) = types) {node : AstNode}
    (hn : node.isExpr = true) {ts : TypeSpecifier} :
    typeCheck entries node = .ok ts ↔ node.headType types = some ts ∧ ∀ c ∈ node.comparisons types,
      c.WellTyped := by
  induction node generalizing ts with
  | intConst | emptyExpr =>
      rw [typeCheck, pure_eq_ok]
      simp [AstNode.headType, AstNode.comparisons, eq_comm]
  | ident value symbol =>
      rw [typeCheck, symbolType_eq_ok_iff htypes]
      simp [AstNode.headType, AstNode.comparisons]
  | funcCall value args symbol _ =>
      rw [typeCheck, symbolType_eq_ok_iff htypes]
      simp [AstNode.headType, AstNode.comparisons]
  | binExp value opType left right ihl _ =>
      simp only [AstNode.isExpr, Bool.and_eq_true] at hn
      -- the left operand is compared with itself
      have hleft : typeCheck entries (.binExp value opType left right) = .ok ts ↔
          typeCheck entries left = .ok ts := by
        simp only [typeCheck, bind_eq_ok, pure_eq_ok, assertTypeEq_eq_ok]
        constructor
        · intro h
          obtain ⟨t, ht, t', ht', u, -, rfl⟩ := h
          exact ht
        · intro h
          exact ⟨ts, h, ts, h, (), rfl, rfl⟩
      rw [hleft, ihl hn.1.2]
      rfl
  | unaryExpr expr value opType ih =>
      simp only [AstNode.isExpr, Bool.and_eq_true] at hn
      exact ih hn.2
  | varAsgn target rval _ ihr =>
      obtain ⟨⟨value, symbol, rfl⟩, hr⟩ := AstNode.isExpr_varAsgn.mp hn
      simp only [typeCheck, bind_eq_ok, pure_eq_ok, assertTypeEq_eq_ok, symbolType_eq_ok_iff htypes,
        ihr hr,
        AstNode.headType, AstNode.comparisons, List.forall_mem_append, List.forall_mem_singleton,
          Construct.wellTyped_iff]
      constructor
      · intro h
        obtain ⟨t, ht, t', ⟨ht', hcs⟩, u, rfl, rfl⟩ := h
        exact ⟨ht, hcs, ts, ht, ht'⟩
      · intro h
        obtain ⟨ht, hcs, t, ht', hr'⟩ := h
        obtain rfl := Option.some.inj (ht.symm.trans ht')
        exact ⟨ts, ht, ts, ⟨hr', hcs⟩, (), rfl, rfl⟩
  | _ => simp [AstNode.isExpr] at hn

/-- What is asked for is compared with the type of an expression. -/
theorem compared_iff (htypes : entries.map (fun e => some e.type) = types) {expr : AstNode}
    (he : expr.isExpr = true) {expected : Option TypeSpecifier} :
    (∃ ts, expected = some ts ∧ typeCheck entries expr = .ok ts) ↔
      ∀ c ∈ expr.comparisons types ++ [⟨expected, expr.headType types⟩], c.WellTyped := by
  simp only [typeCheck_expr_iff htypes he, List.forall_mem_append, List.forall_mem_singleton,
    Construct.wellTyped_iff]
  constructor
  · intro h
    obtain ⟨ts, hexp, hhead, hcs⟩ := h
    exact ⟨hcs, ts, hexp, hhead⟩
  · intro h
    obtain ⟨hcs, ts, hexp, hhead⟩ := h
    exact ⟨ts, hexp, hhead, hcs⟩

/-- The elements of a list pass the check if each of them does. -/
private theorem typeCheckList_iff {l : List AstNode}
    (ih : ∀ node ∈ l, (∃ ts, typeCheck entries node = .ok ts) ↔
      ∀ c ∈ node.comparisons types, c.WellTyped) :
    typeCheckList entries l = .ok () ↔ ∀ c ∈ AstNode.comparisonsList types l, c.WellTyped := by
  induction l with
  | nil => simp [typeCheckList, AstNode.comparisonsList, pure_eq_ok]
  | cons node rest ihl =>
      have hrest := ihl fun n hn => ih n (List.mem_cons_of_mem _ hn)
      rw [AstNode.comparisonsList, List.forall_mem_append, ← ih node List.mem_cons_self, ← hrest,
        typeCheckList, bind_eq_ok]
      constructor
      · intro h
        obtain ⟨ts, hts, hr⟩ := h
        exact ⟨⟨ts, hts⟩, hr⟩
      · intro h
        obtain ⟨⟨ts, hts⟩, hr⟩ := h
        exact ⟨ts, hts, hr⟩

/-- **A statement passes the check if its comparisons are successes.** -/
theorem typeCheck_stmt_iff (htypes : entries.map (fun e => some e.type) = types) {node : AstNode}
    (hn : node.isStmt = true) : (∃ ts, typeCheck entries node = .ok ts) ↔
      ∀ c ∈ node.comparisons types, c.WellTyped := by
  induction node with
  | varDec | enum => simp [typeCheck, AstNode.comparisons, pure_eq_ok]
  | varDef value type expr symbol _ =>
      have he : expr.isExpr = true := hn
      rw [AstNode.comparisons, ← compared_iff htypes he]
      simp only [typeCheck, bind_eq_ok, pure_eq_ok, assertTypeEq_eq_ok, symbolType_eq_ok_iff htypes]
      constructor
      · intro h
        obtain ⟨-, t, ht, t', ht', u, rfl, rfl⟩ := h
        exact ⟨t, ht, ht'⟩
      · intro h
        obtain ⟨ts, ht, ht'⟩ := h
        exact ⟨.void, ts, ht, ts, ht', (), rfl, rfl⟩
  | ret expr func _ =>
      have he : expr.isExpr = true := hn
      rw [AstNode.comparisons, ← compared_iff htypes he]
      simp only [typeCheck, bind_eq_ok, pure_eq_ok, assertTypeEq_eq_ok, symbolType_eq_ok_iff htypes]
      constructor
      · intro h
        obtain ⟨ts, t, ht, t', ht', u, rfl, rfl⟩ := h
        exact ⟨ts, ht, ht'⟩
      · intro h
        obtain ⟨ts, ht, ht'⟩ := h
        exact ⟨ts, ts, ht, ts, ht', (), rfl, rfl⟩
  | exprStmt expr _ =>
      have he : expr.isExpr = true := hn
      rw [AstNode.comparisons, ← compared_iff htypes he]
      simp only [typeCheck, typeCheck_expr_iff htypes he]
      constructor
      · intro h
        obtain ⟨ts, hhead, hcs⟩ := h
        exact ⟨ts, hhead, hhead, hcs⟩
      · intro h
        obtain ⟨ts, -, hhead, hcs⟩ := h
        exact ⟨ts, hhead, hcs⟩
  | compStmt body ih =>
      have hbody : ∀ n ∈ body, n.isStmt = true := AstNode.areStmts_iff.mp hn
      rw [AstNode.comparisons, ← typeCheckList_iff fun n hmem => ih n hmem (hbody n hmem)]
      simp only [typeCheck, bind_eq_ok, pure_eq_ok]
      constructor
      · intro h
        obtain ⟨-, u, hrun, -⟩ := h
        exact hrun
      · intro h
        exact ⟨.void, (), h, rfl⟩
  | ifElse ifExpr ifBody elseBody _ ihb ihe =>
      simp only [AstNode.isStmt, Bool.and_eq_true] at hn
      rw [AstNode.comparisons, List.forall_mem_append, ← ihb hn.1.2]
      by_cases helse : elseBody.nonNull = true
      · rw [← ihe (by simpa [helse] using hn.2)]
        simp only [typeCheck, if_pos helse, bind_eq_ok, pure_eq_ok]
        constructor
        · intro h
          obtain ⟨-, t, ht, t', ht', -⟩ := h
          exact ⟨⟨t, ht⟩, t', ht'⟩
        · intro h
          obtain ⟨⟨t, ht⟩, t', ht'⟩ := h
          exact ⟨.void, t, ht, t', ht', rfl⟩
      · obtain rfl := AstNode.eq_null helse
        simp only [typeCheck, if_neg helse, bind_eq_ok, pure_eq_ok, AstNode.comparisons]
        constructor
        · intro h
          obtain ⟨-, t, ht, -⟩ := h
          exact ⟨⟨t, ht⟩, by simp⟩
        · intro h
          obtain ⟨⟨t, ht⟩, -⟩ := h
          exact ⟨.void, t, ht, rfl⟩
  | while_ expr body _ ihb =>
      simp only [AstNode.isStmt, Bool.and_eq_true] at hn
      exact ihb hn.2
  | for_ init cond step body _ _ _ ihb =>
      simp only [AstNode.isStmt, Bool.and_eq_true] at hn
      exact ihb hn.2
  | _ => simp [AstNode.isStmt] at hn

/-! ### Programs

The functions are checked one after the other, each with its own declarations behind the
others.
-/

/-- The functions of a linked program pass the check if their comparisons are successes. -/
theorem typeCheck_prog_iff (htypes : entries.map (fun e => some e.type) = types)
    {prog : List AstNode} (hprog : ∀ n ∈ prog, n.isFuncDef = true) :
    typeCheckList entries prog = .ok () ↔ ∀ c ∈ AstNode.comparisonsList types prog,
      c.WellTyped := by
  refine typeCheckList_iff fun node hn => ?_
  have hnode := hprog node hn
  obtain ⟨value, type, body, params, symbol, rfl⟩ := AstNode.eq_funcDef hnode
  have hbody : (AstNode.compStmt body).isStmt = true := hnode
  rw [AstNode.comparisons, ← typeCheck_stmt_iff htypes hbody]
  simp only [typeCheck, bind_eq_ok, pure_eq_ok]
  constructor
  · intro h
    obtain ⟨-, t, ht, -⟩ := h
    exact ⟨t, ht⟩
  · intro h
    obtain ⟨t, ht⟩ := h
    exact ⟨.void, t, ht, rfl⟩

/-- A program that links is linked by the analysis, and the types of its declarations are known. -/
theorem symCheckList_of_resolveProg (arena : SymId → Nat) {typeEnv : HashMap TypeSpecifier}
    {prog linked : List AstNode} (hprog : ∀ n ∈ prog, n.isFuncDef = true)
    (h : resolveProg typeEnv [] 0 prog = some linked) :
    ∃ st, symCheckList arena typeEnv none prog SemaState.initial = .ok (linked, st) ∧
      st.entries.map (fun e => some e.type) = progTypes typeEnv prog ∧
        ∀ n ∈ linked, n.isFuncDef = true := by
  have hfollows : StateExcept.Follows (symCheckList arena typeEnv none prog) SemaState.initial
      (resolveProg typeEnv [] 0 prog) _ := resolveProg_follows hprog Scoped.initial
  obtain ⟨st, hrun, hent⟩ := (h ▸ hfollows).of_some
  refine ⟨st, hrun, by simpa using hent, fun n hn => ?_⟩
  have hmem : n.erase ∈ prog.map AstNode.erase := symCheckList_erase hrun ▸ List.mem_map_of_mem hn
  obtain ⟨n', hn', he⟩ := List.mem_map.mp hmem
  rw [← AstNode.isFuncDef_erase, ← he, AstNode.isFuncDef_erase]
  exact hprog n' hn'

/--
**The analysis accepts exactly the programs that link and compare.**  Accepted tokens are those the
parser reads as a program whose names link in an environment that is only passed on, and in
which every two types `type_check` compares are the same.  The names of types are still looked up
in the table `type_env_init` fills.  An expression statement is compared with itself, which asks
for no more than that its expression has a type.  What the analysis hands on is then the
program linked so.
-/
theorem accepted_iff (uninit : Int) (arena : SymId → Nat) (tokens : List Token)
    (linked : List AstNode) : (∃ r, Accepted uninit arena tokens r ∧ r.prog = linked) ↔
      ∃ prog rest, parse uninit tokens = .ok (prog, rest) ∧
        resolveProg typeEnvInit [] 0 prog = some linked ∧
        ∀ c ∈ AstNode.comparisonsList (progTypes typeEnvInit prog) linked, c.WellTyped := by
  constructor
  · intro h
    obtain ⟨r, hacc, rfl⟩ := h
    have hlinked := hacc.isFuncDef
    obtain ⟨prog, rest, hparse, hsema⟩ := hacc
    obtain ⟨hres, hent, htype⟩ := semaCheck_resolveProg (parse_isFuncDef hparse) hsema
    exact ⟨prog, rest, hparse, hres, (typeCheck_prog_iff hent hlinked).mp htype⟩
  · intro h
    obtain ⟨prog, rest, hparse, hres, hcs⟩ := h
    obtain ⟨st, hrun, hent, hlinked⟩ :=
      symCheckList_of_resolveProg arena (parse_isFuncDef hparse) hres
    have htype := (typeCheck_prog_iff hent hlinked).mpr hcs
    refine ⟨{ prog := linked, entries := st.entries, frames := st.frames, symbols := st.symbols,
              warnings := warnUnused st.entries st.symbols }, ⟨prog, rest, hparse, ?_⟩, rfl⟩
    simp only [semaCheck, bind_eq_ok]
    exact ⟨(linked, st), hrun, (), htype, rfl⟩

end MyLang
