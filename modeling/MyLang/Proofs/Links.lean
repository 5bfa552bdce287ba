/-
Where the symbols of an accepted program lead.

Every binding of an environment is the number of a declaration, so the entry is there; and
one with a number of parameters is that of a function, whose entry has a frame.  Linking
takes symbols from bindings only, and both carry over to all of the program.

The generator looks entries up by symbols, and a symbol that leads nowhere would be a
`NULL` that is used.  `Accepted.linked` says that in an accepted program there is none: a
name or a declaration has the entry of a declaration, and a call that of a function.

`EnvLinks` is the invariant along a program.  Its second half is why a call is safe: the
analysis does not get past a call of what has no list of parameters, and only functions
have one.
-/
import MyLang.Linking
import MyLang.Proofs.Calls
import MyLang.Proofs.SemaLayout
import MyLang.Proofs.Agree
import MyLang.Proofs.Pressure

namespace MyLang

open StateExcept

variable {entries : List SymTabEntry} {frames : List StackFrame} {typeEnv : HashMap TypeSpecifier}
  {func : String} {env : Env} {next : Nat}

/-- The bindings are of entries, those of functions of entries with frames. -/
structure EnvLinks (entries : List SymTabEntry) (frames : List StackFrame) (env : Env) : Prop where
  entry : ∀ p ∈ env, p.2.id < entries.length
  frame : ∀ p ∈ env, p.2.arity ≠ none → (frameOf entries frames (some p.2.id)).isSome = true

namespace EnvLinks

theorem lookup (h : EnvLinks entries frames env) {key : String} {b : Binding}
    (hb : env.lookup key = some b) : ((some b.id).bind (entries[·]?)).isSome = true := by
  have hlt := h.entry (key, b) (Env.mem_of_lookup hb)
  show (entries[b.id]?).isSome = true
  rw [List.getElem?_eq_getElem hlt]
  rfl

theorem append (h : EnvLinks entries frames env) {names : List String}
    (hlt : next + names.length ≤ entries.length) :
    EnvLinks entries frames (bindNames next names ++ env) := by
  refine ⟨fun p hp => ?_, fun p hp ha => ?_⟩
  · rcases List.mem_append.mp hp with hp | hp
    · simp only [bindNames, List.mem_map, List.mem_reverse] at hp
      obtain ⟨q, hq, rfl⟩ := hp
      have := List.mem_zipIdx hq
      show q.2 < entries.length
      omega
    · exact h.entry p hp
  · rcases List.mem_append.mp hp with hp | hp
    · exact absurd (AstNode.bindNames_arity p hp) ha
    · exact h.frame p hp ha

end EnvLinks

namespace AstNode

/-- What a statement leaves in scope are its declarations, some of them at least. -/
theorem envLinks_binds (node : AstNode) (h : EnvLinks entries frames env)
    (hlt : next + node.declCount ≤ entries.length) :
    EnvLinks entries frames (node.binds next ++ env) := by
  induction node generalizing next env with
  | varDec | varDef => exact h.append (by simpa [declCount] using hlt)
  | enum value enums => exact h.append hlt
  | ifElse ifExpr ifBody elseBody _ ihb ihe =>
      rw [declCount] at hlt
      rw [binds, List.append_assoc]
      exact ihe (ihb h (by omega)) (by omega)
  | while_ expr body _ ihb => exact ihb h hlt
  | _ => exact h

private theorem resolveExprs_linked {args args' : List AstNode}
    (hargs : ∀ node ∈ args, ∀ {node' : AstNode}, node.resolveExpr env = some node' →
      node'.linked entries frames = true)
    (h : resolveExprs env args = some args') : linkedList entries frames args' = true := by
  induction args generalizing args' with
  | nil =>
      obtain rfl := Option.some.inj h
      rfl
  | cons node rest ih =>
      obtain ⟨node', rest', h1, h2, rfl⟩ := resolveExprs_cons_eq_some.mp h
      rw [linkedList, hargs node (by simp) h1, ih (fun n hn => hargs n (by simp [hn])) h2]
      rfl

/-- The symbols of a linked expression lead to entries. -/
theorem resolveExpr_linked (henv : EnvLinks entries frames env) {node node' : AstNode}
    (h : node.resolveExpr env = some node') : node'.linked entries frames = true := by
  induction node generalizing node' with
  | intConst | emptyExpr =>
      rw [← Option.some.inj h]
      rfl
  | ident value symbol =>
      obtain ⟨b, hb, rfl⟩ := resolveExpr_ident_eq_some.mp h
      exact henv.lookup hb
  | funcCall value args symbol ih =>
      obtain ⟨b, args', hb, harity, hargs, rfl⟩ := resolveExpr_funcCall_eq_some.mp h
      rw [linked, resolveExprs_linked (fun n hn => ih n hn) hargs, Bool.and_true]
      exact henv.frame (value, b) (Env.mem_of_lookup hb) (by simp [harity])
  | binExp value opType left right ihl ihr =>
      obtain ⟨left', right', hl, hr, rfl⟩ := resolveExpr_binExp_eq_some.mp h
      rw [linked, ihl hl, ihr hr]
      rfl
  | varAsgn target rval ihl ihr =>
      obtain ⟨left', right', hl, hr, rfl⟩ := resolveExpr_varAsgn_eq_some.mp h
      rw [linked, ihl hl, ihr hr]
      rfl
  | unaryExpr expr value opType ih =>
      obtain ⟨expr', he, rfl⟩ := resolveExpr_unaryExpr_eq_some.mp h
      exact @ih expr' he
  | lval kind ident ih =>
      obtain ⟨expr', he, rfl⟩ := resolveExpr_lval_eq_some.mp h
      exact @ih expr' he
  | _ => simp [resolveExpr] at h

/-- A name in scope stays in scope. -/
theorem lookup_binds_isSome (node : AstNode) {key : String} (h : (env.lookup key).isSome = true) :
    ((node.binds next ++ env).lookup key).isSome = true := by
  rw [List.lookup_append]
  cases (node.binds next).lookup key with
  | none => exact h
  | some b => rfl

/-- Statements in a row, in environments that grow. -/
private theorem resolveList_linked {l l' : List AstNode}
    (hl : ∀ node ∈ l, ∀ {env : Env} {next : Nat} {node' : AstNode}, EnvLinks entries frames env →
      (env.lookup func).isSome = true → next + node.declCount ≤ entries.length →
      node.resolve typeEnv func env next = some node' → node'.linked entries frames = true)
    (henv : EnvLinks entries frames env) (hfunc : (env.lookup func).isSome = true)
    (hlt : next + declCountList l ≤ entries.length)
    (h : resolveList typeEnv func env next l = some l') : linkedList entries frames l' = true := by
  induction l generalizing l' env next with
  | nil =>
      obtain rfl := Option.some.inj h
      rfl
  | cons node rest ih =>
      obtain ⟨node', rest', h1, h2, rfl⟩ := resolveList_cons_eq_some.mp h
      rw [declCountList] at hlt
      have hrest := ih (fun n hn => hl n (by simp [hn])) (envLinks_binds node henv (by omega))
        (lookup_binds_isSome node hfunc) (by omega) h2
      rw [linkedList, hl node (by simp) henv hfunc (by omega) h1, hrest]
      rfl

/-- **The symbols of a linked statement lead to entries.** -/
theorem resolve_linked (henv : EnvLinks entries frames env)
    (hfunc : (env.lookup func).isSome = true) {node node' : AstNode}
    (hlt : next + node.declCount ≤ entries.length)
    (h : node.resolve typeEnv func env next = some node') : node'.linked entries frames = true := by
  induction node generalizing node' env next with
  | varDec value type symbol =>
      obtain ⟨-, -, rfl⟩ := resolve_varDec_eq_some.mp h
      rfl
  | varDef value type expr symbol _ =>
      obtain ⟨-, expr', he, -, rfl⟩ := resolve_varDef_eq_some.mp h
      rw [declCount] at hlt
      rw [linked, resolveExpr_linked henv he, Bool.and_true]
      show (entries[next]?).isSome = true
      rw [List.getElem?_eq_getElem (by omega)]
      rfl
  | enum value enums =>
      rw [← Option.some.inj h]
      rfl
  | compStmt body ih =>
      obtain ⟨body', hb, rfl⟩ := resolve_compStmt_eq_some.mp h
      exact resolveList_linked (fun n hn _ _ _ henv hfunc hlt h => ih n hn henv hfunc hlt h) henv
        hfunc hlt hb
  | ifElse ifExpr ifBody elseBody _ ihb ihe =>
      obtain ⟨ifExpr', ifBody', elseBody', hb, hc, he, rfl⟩ := resolve_ifElse_eq_some.mp h
      rw [declCount] at hlt
      have henv' : EnvLinks entries frames (ifBody.binds next ++ env) :=
        envLinks_binds ifBody henv (by omega)
      rw [linked, resolveExpr_linked henv' hc, ihb henv hfunc (by omega) hb, Bool.true_and,
        Bool.true_and]
      split at he
      · exact ihe henv' (lookup_binds_isSome ifBody hfunc) (by omega) he
      · rename_i hnull
        rw [he, eq_null hnull]
        rfl
  | while_ expr body _ ihb =>
      obtain ⟨expr', body', he, hb, rfl⟩ := resolve_while_eq_some.mp h
      rw [linked, resolveExpr_linked henv he, ihb henv hfunc hlt hb]
      rfl
  | for_ init cond step body ihi _ _ ihb =>
      obtain ⟨init', cond', step', body', hi, hc, hs, hb, rfl⟩ := resolve_for_eq_some.mp h
      rw [declCount] at hlt
      have henv' : EnvLinks entries frames (init.binds next ++ env) :=
        envLinks_binds init henv (by omega)
      rw [linked, ihi henv hfunc (by omega) hi, resolveExpr_linked henv' hc,
        resolveExpr_linked henv' hs, ihb henv' (lookup_binds_isSome init hfunc) (by omega) hb]
      rfl
  | ret expr symbol _ =>
      obtain ⟨expr', he, rfl⟩ := resolve_ret_eq_some.mp h
      obtain ⟨b, hb⟩ := Option.isSome_iff_exists.mp hfunc
      rw [linked, hb, resolveExpr_linked henv he, Bool.and_true]
      exact henv.lookup hb
  | exprStmt expr _ =>
      obtain ⟨expr', he, rfl⟩ := resolve_exprStmt_eq_some.mp h
      have hexpr : expr'.linked entries frames = true := resolveExpr_linked henv he
      exact hexpr
  | _ => exact resolveExpr_linked henv h

end AstNode

/-! ### Programs

The entries are those of the whole program, of which an environment sees the first ones.
-/

theorem progTypes_length_cons {value type : String} {body : AstNode} {params : List Param}
    {symbol : Option SymId} {rest : List AstNode} :
    (progTypes typeEnv (.funcDef value type body params symbol :: rest)).length
      = funcDeclCount params body + (progTypes typeEnv rest).length := by
  simp only [progTypes, List.length_append, List.length_map, List.length_cons,
    AstNode.declTypes_length, funcDeclCount]
  omega

/-- The frames of the functions of a program. -/
def FuncFrames (entries : List SymTabEntry) (frames : List StackFrame) (prog : List AstNode) :
    Prop :=
  ∀ value type body params symbol, .funcDef value type body params symbol ∈ prog →
    (frameOf entries frames symbol).isSome = true

/-- The symbols of a linked program lead to entries. -/
theorem resolveProg_linked {prog prog' : List AstNode} (henv : EnvLinks entries frames env)
    (hlt : next + (progTypes typeEnv prog).length ≤ entries.length)
    (h : resolveProg typeEnv env next prog = some prog')
    (hframes : FuncFrames entries frames prog') :
    AstNode.linkedList entries frames prog' = true := by
  induction prog generalizing env next prog' with
  | nil =>
      obtain rfl := Option.some.inj h
      rfl
  | cons node rest ih =>
      cases node with
      | funcDef value type body params symbol =>
          obtain ⟨body', rest', -, -, -, hb, hrest, rfl⟩ := resolveProg_cons_eq_some.mp h
          rw [progTypes_length_cons, funcDeclCount] at hlt
          have hframe := hframes _ _ _ _ _ List.mem_cons_self
          -- the function itself and its parameters are in scope
          have henv' : EnvLinks entries frames (funcBinds next value params ++ env) := by
            have hparams : EnvLinks entries frames (bindNames next (paramNames params) ++ env) := by
              refine henv.append ?_
              rw [paramNames, List.length_map]
              omega
            refine ⟨fun p hp => ?_, fun p hp ha => ?_⟩
            · rcases List.mem_cons.mp hp with rfl | hp
              · show next + params.length < entries.length
                omega
              · exact hparams.entry p hp
            · rcases List.mem_cons.mp hp with rfl | hp
              · exact hframe
              · exact hparams.frame p hp ha
          have hself : ((funcBinds next value params ++ env).lookup value).isSome = true := by
            simp [funcBinds]
          have hbody := AstNode.resolve_linked henv' hself (by omega) hb
          have hrest' := ih henv' (by rw [funcDeclCount]; omega) hrest fun v t b ps s hmem =>
            hframes v t b ps s (List.mem_cons_of_mem _ hmem)
          rw [AstNode.linkedList, AstNode.linked, hframe, hbody, hrest']
          rfl
      | _ => simp [resolveProg] at h

/-- The frame of a function that lies in the heap. -/
theorem FuncLayout.frameOf {name : String} {body : AstNode} {params : List Param}
    {gid fid lo hi : Nat} (h : FuncLayout entries frames name body params gid fid lo hi) :
    frameOf entries frames (some gid)
      = some { size := intSize * body.localIds.length, func := name } := by
  obtain ⟨type, offset, he⟩ := h.entry
  rw [coreAt, List.getElem?_map, Option.map_eq_some_iff] at he
  obtain ⟨e, he, hcore⟩ := he
  have hfid : e.frame = some fid := by
    have := congrArg SymTabEntry.frame hcore
    exact this
  simp [MyLang.frameOf, he, hfid, h.frame]

theorem Accepted.funcFrames {uninit : Int} {arena : SymId → Nat} {tokens : List Token}
    {r : SemaResult} (hacc : Accepted uninit arena tokens r) :
    FuncFrames r.entries r.frames r.prog := by
  intro value type body params symbol hmem
  obtain ⟨_, _, _, _, gid, fid, lo, hi, heq, hf, -⟩ := hacc.layout.func hmem
  obtain ⟨rfl, rfl, rfl, rfl, rfl⟩ := AstNode.funcDef.inj heq
  rw [hf.frameOf]
  rfl

/--
**The symbols of an accepted program lead to entries, those of calls to functions with
frames.**
-/
theorem Accepted.linked {uninit : Int} {arena : SymId → Nat} {tokens : List Token}
    {r : SemaResult} (hacc : Accepted uninit arena tokens r) :
    AstNode.linkedList r.entries r.frames r.prog = true := by
  have hframes := hacc.funcFrames
  obtain ⟨prog, rest, hparse, hsema⟩ := hacc
  simp only [semaCheck, ExceptRun.bind_eq_ok, ExceptRun.pure_eq_ok] at hsema
  obtain ⟨⟨prog', st⟩, hrun, _, _, rfl⟩ := hsema
  obtain ⟨hresolve, htypes⟩ :=
    (resolveProg_follows (parse_isFuncDef hparse) Scoped.initial).of_ok hrun
  have hlen := congrArg List.length htypes
  rw [List.length_map, List.length_append, List.length_map, List.length_nil, Nat.zero_add] at hlen
  refine resolveProg_linked ⟨by simp, by simp⟩ ?_ hresolve hframes
  rw [List.length_nil, Nat.zero_add]
  exact hlen.symm.le

end MyLang
