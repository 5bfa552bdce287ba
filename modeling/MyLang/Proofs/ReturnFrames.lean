/-
The frame a `return` leaves.

The symbol of a `return` is that of its function or of an enumeration constant of the same
name, which its function declares.  Only functions have stack frames, so where code can be
generated for a `return` at all, it gives back the frame its function has taken.

The name of the function is looked up where the `return` stands, so the symbol is one that
the environment has for it there (`NamedIn`).  In front of the body it is the function
itself, and behind a statement of the body it may be a declaration of that statement.
These have numbers of their own, between that of the function and that of the next one
(`OwnId`), so none of them is another function.

With this nothing has to be assumed about names where the way out of a function is
concerned: a `return` that is linked to a constant has no frame, and its program is not
compiled.
-/
import MyLang.Proofs.Links
import MyLang.Proofs.Returns

namespace MyLang

variable {entries : List SymTabEntry} {frames : List StackFrame} {typeEnv : HashMap TypeSpecifier}
  {func : String} {env : Env} {next gid : Nat} {arena : SymId → Nat} {s s' : SemaState}

/-! ### What the name of a function can stand for

Declarations are numbered in order, so where a number comes from can be told by its size.
-/

/-- A function, or one of its declarations before the one numbered `next`. -/
def OwnId (gid next id : Nat) : Prop := id = gid ∨ gid < id ∧ id < next

theorem OwnId.mono {next' id : Nat} (h : OwnId gid next id) (hle : next ≤ next') :
    OwnId gid next' id := by
  unfold OwnId at *
  omega

/-- The name of a function stands for it or for a declaration of its own. -/
structure NamedIn (env : Env) (func : String) (gid next : Nat) : Prop where
  lookup : ∃ b, env.lookup func = some b ∧ OwnId gid next b.id
  lt : gid < next

/-- The `return`s of a statement have the symbol of the function, or one of a declaration in it. -/
def AstNode.ReturnsIn (node : AstNode) (gid next : Nat) : Prop :=
  ∀ s ∈ node.returnSymbols, ∃ id, s = some id ∧ OwnId gid next id

namespace AstNode

theorem bindNames_lt {names : List String} : ∀ p ∈ bindNames next names,
    p.2.id < next + names.length := by
  intro p hp
  simp only [bindNames, List.mem_map, List.mem_reverse] at hp
  obtain ⟨q, hq, rfl⟩ := hp
  have h := (List.mem_zipIdx hq).2.1
  exact h

/-- The declarations of a statement are numbered one after the other. -/
theorem binds_lt (node : AstNode) (next : Nat) :
    ∀ p ∈ node.binds next, p.2.id < next + node.declCount := by
  induction node generalizing next with
  | varDec | varDef | enum => exact bindNames_lt
  | ifElse ifExpr ifBody elseBody _ ihb ihe =>
      intro p hp
      rw [declCount]
      rcases List.mem_append.mp hp with hp | hp
      · have hlt : p.2.id < next + ifBody.declCount + elseBody.declCount := ihe _ p hp
        exact Nat.lt_of_lt_of_le hlt (by omega)
      · have hlt : p.2.id < next + ifBody.declCount := ihb _ p hp
        exact Nat.lt_of_lt_of_le hlt (by omega)
  | while_ expr body _ ihb => exact ihb next
  | _ => simp [binds]

theorem ReturnsIn.mono {node : AstNode} {next' : Nat} (h : node.ReturnsIn gid next)
    (hle : next ≤ next') : node.ReturnsIn gid next' := by
  intro s hs
  obtain ⟨id, rfl, hid⟩ := h s hs
  exact ⟨id, rfl, hid.mono hle⟩

end AstNode

/-- Behind a statement its declarations may hide the function. -/
theorem NamedIn.extend (h : NamedIn env func gid next) (node : AstNode) :
    NamedIn (node.binds next ++ env) func gid (next + node.declCount) := by
  have hlt := h.lt
  refine ⟨?_, by omega⟩
  rw [List.lookup_append]
  cases hb : (node.binds next).lookup func with
  | some b =>
      have hge : next ≤ b.id := node.binds_ge next (func, b) (Env.mem_of_lookup hb)
      have hlt' : b.id < next + node.declCount :=
        node.binds_lt next (func, b) (Env.mem_of_lookup hb)
      exact ⟨b, rfl, Or.inr ⟨Nat.lt_of_lt_of_le hlt hge, hlt'⟩⟩
  | none =>
      obtain ⟨b, hb, hid⟩ := h.lookup
      exact ⟨b, hb, hid.mono (by omega)⟩

namespace AstNode

/-- Statements in a row, each seeing what the ones before declare. -/
private theorem resolveList_returnsIn {l l' : List AstNode}
    (hl : ∀ node ∈ l, ∀ {env : Env} {next : Nat} {node' : AstNode}, NamedIn env func gid next →
      node.resolve typeEnv func env next = some node' → node'.ReturnsIn gid (next + node.declCount))
    (hfunc : NamedIn env func gid next) (h : resolveList typeEnv func env next l = some l') :
    (compStmt l').ReturnsIn gid (next + declCountList l) := by
  induction l generalizing l' env next with
  | nil =>
      obtain rfl := Option.some.inj h
      intro s hs
      simp [returnSymbols, returnSymbolsList] at hs
  | cons node rest ih =>
      obtain ⟨node', rest', h1, h2, rfl⟩ := resolveList_cons_eq_some.mp h
      have hrest := ih (fun n hn => hl n (by simp [hn])) (hfunc.extend node) h2
      have hnode := hl node (by simp) hfunc h1
      intro s hs
      rw [returnSymbols, returnSymbolsList] at hs
      rw [declCountList]
      rcases List.mem_append.mp hs with hs | hs
      · exact hnode.mono (by omega) s hs
      · exact hrest.mono (by omega) s hs

/-- Without a `return` there is nothing to say. -/
private theorem returnsIn_nil {node : AstNode} (h : node.returnSymbols = []) :
    node.ReturnsIn gid next := by
  intro s hs
  rw [h] at hs
  simp at hs

/-- **The symbol of a `return` is the function's or that of a declaration in the function.** -/
theorem resolve_returnsIn {node node' : AstNode} (hfunc : NamedIn env func gid next)
    (h : node.resolve typeEnv func env next = some node') :
    node'.ReturnsIn gid (next + node.declCount) := by
  induction node generalizing node' env next with
  | varDec value type symbol =>
      obtain ⟨-, -, rfl⟩ := resolve_varDec_eq_some.mp h
      exact returnsIn_nil rfl
  | varDef value type expr symbol _ =>
      obtain ⟨-, expr', he, -, rfl⟩ := resolve_varDef_eq_some.mp h
      exact returnsIn_nil rfl
  | enum value enums =>
      rw [← Option.some.inj h]
      exact returnsIn_nil rfl
  | exprStmt expr _ =>
      obtain ⟨expr', he, rfl⟩ := resolve_exprStmt_eq_some.mp h
      exact returnsIn_nil rfl
  | compStmt body ih =>
      obtain ⟨body', hb, rfl⟩ := resolve_compStmt_eq_some.mp h
      exact resolveList_returnsIn (fun n hn _ _ _ hfunc h => ih n hn hfunc h) hfunc hb
  | ifElse ifExpr ifBody elseBody _ ihb ihe =>
      obtain ⟨ifExpr', ifBody', elseBody', hb, -, he, rfl⟩ := resolve_ifElse_eq_some.mp h
      have hbody := ihb hfunc hb
      have helse : elseBody'.ReturnsIn gid (next + ifBody.declCount + elseBody.declCount) := by
        split at he
        · exact ihe (hfunc.extend ifBody) he
        · rename_i hnull
          rw [he, eq_null hnull]
          exact returnsIn_nil rfl
      intro s hs
      rw [declCount]
      rcases List.mem_append.mp hs with hs | hs
      · exact hbody.mono (by omega) s hs
      · exact helse.mono (by omega) s hs
  | while_ expr body _ ihb =>
      obtain ⟨expr', body', -, hb, rfl⟩ := resolve_while_eq_some.mp h
      have hbody := ihb hfunc hb
      exact hbody
  | for_ init cond step body _ _ _ ihb =>
      obtain ⟨init', cond', step', body', hi, -, -, hb, rfl⟩ := resolve_for_eq_some.mp h
      have hbody := ihb (hfunc.extend init) hb
      intro s hs
      rw [declCount]
      exact hbody.mono (by omega) s hs
  | ret expr symbol _ =>
      obtain ⟨expr', -, rfl⟩ := resolve_ret_eq_some.mp h
      obtain ⟨b, hb, hid⟩ := hfunc.lookup
      intro s hs
      rw [hb, returnSymbols, List.mem_singleton] at hs
      exact ⟨b.id, hs, hid.mono (by omega)⟩
  | _ =>
      obtain ⟨hs, -⟩ := @resolveExpr_leaf func env false _ _ h
      exact returnsIn_nil hs

end AstNode

/-! ### Programs

Between two functions of the heap there are the declarations of the first.
-/

/-- A symbol that is not that of a function of a program. -/
def NoFuncId (prog : List AstNode) (id : Nat) : Prop :=
  ∀ value type body params symbol, .funcDef value type body params symbol ∈ prog → symbol ≠ some id

/--
Functions get their symbols in order, and between two of them are the declarations of the
first.
-/
theorem resolveProg_returnsIn {prog prog' : List AstNode}
    (h : resolveProg typeEnv env next prog = some prog') {value type : String} {body : AstNode}
    {params : List Param} {symbol : Option SymId}
    (hmem : .funcDef value type body params symbol ∈ prog') :
    ∃ gid : Nat, symbol = some gid ∧ next ≤ gid ∧
      ∀ s ∈ body.returnSymbols, s = some gid ∨ ∃ id : Nat, s = some id ∧ gid < id ∧
        NoFuncId prog' id := by
  induction prog generalizing env next prog' value type body params symbol with
  | nil =>
      obtain rfl := Option.some.inj h
      simp at hmem
  | cons node rest ih =>
      cases node with
      | funcDef value' type' body' params' symbol' =>
          obtain ⟨body1, rest', -, -, -, hb, hrest, rfl⟩ := resolveProg_cons_eq_some.mp h
          rcases List.mem_cons.mp hmem with heq | hmem
          · obtain ⟨rfl, rfl, rfl, rfl, rfl⟩ := AstNode.funcDef.inj heq
            have hnamed : NamedIn (funcBinds next value params' ++ env) value
              (next + params'.length)
                (next + params'.length + 1) := by
              refine ⟨⟨⟨next + params'.length,
                some params'.length⟩, by simp [funcBinds], Or.inl rfl⟩, ?_⟩
              exact Nat.lt_succ_self _
            have hin := AstNode.resolve_returnsIn hnamed hb
            refine ⟨next + params'.length, rfl, Nat.le_add_right .., fun s hs => ?_⟩
            obtain ⟨id, rfl, hid⟩ := hin s hs
            rcases hid with rfl | ⟨hlt, hend⟩
            · exact Or.inl rfl
            · refine Or.inr ⟨id, rfl, hlt, fun v t b ps sym hmem' => ?_⟩
              rcases List.mem_cons.mp hmem' with heq' | hmem'
              · obtain ⟨-, -, -, -, rfl⟩ := AstNode.funcDef.inj heq'
                intro heq
                obtain rfl := Option.some.inj heq
                omega
              · obtain ⟨gid', rfl, hge, -⟩ := ih hrest hmem'
                intro heq
                obtain rfl := Option.some.inj heq
                rw [funcDeclCount] at hge
                omega
          · obtain ⟨gid, rfl, hge, hret⟩ := ih hrest hmem
            rw [funcDeclCount] at hge
            refine ⟨gid, rfl, by omega, fun s hs => ?_⟩
            rcases hret s hs with rfl | ⟨id, rfl, hlt, hno⟩
            · exact Or.inl rfl
            · refine Or.inr ⟨id, rfl, hlt, fun v t b ps sym hmem' => ?_⟩
              rcases List.mem_cons.mp hmem' with heq' | hmem'
              · obtain ⟨-, -, -, -, rfl⟩ := AstNode.funcDef.inj heq'
                intro heq
                obtain rfl := Option.some.inj heq
                omega
              · exact hno v t b ps sym hmem'
      | _ => simp [resolveProg] at h

/-- Of what a function declares, it alone has a stack frame. -/
theorem FuncLayout.eq_of_frame {name : String} {body : AstNode} {params : List Param}
    {gid fid lo hi id : Nat} {e : SymTabEntry}
    (h : FuncLayout entries frames name body params gid fid lo hi) (hlo : lo ≤ id) (hhi : id < hi)
    (he : entries[id]? = some e) (hframe : e.frame ≠ none) : id = gid := by
  have hcore : ∀ {e' : SymTabEntry}, coreAt entries id = some e' → e'.frame = e.frame := by
    intro e' hc
    rw [coreAt, List.getElem?_map, he] at hc
    have hc := congrArg SymTabEntry.frame (Option.some.inj hc)
    exact hc.symm
  have hgid := h.gid_eq
  rcases Nat.lt_trichotomy id gid with hlt | heq | hgt
  · obtain ⟨key, type, offset, hc⟩ := h.param_entry (id - lo) (by omega)
    rw [show lo + (id - lo) = id by omega] at hc
    exact absurd (hcore hc).symm hframe
  · exact heq
  · by_cases hmem : id ∈ body.localIds
    · obtain ⟨k, hk⟩ := List.mem_iff_getElem?.mp hmem
      obtain ⟨key, type, hc⟩ := h.local_entry k id hk
      exact absurd (hcore hc).symm hframe
    · obtain ⟨key, offset, value, hc⟩ := h.const_entry id hgt hhi hmem
      exact absurd (hcore hc).symm hframe

/-- What has a stack frame in a checked program is one of its functions. -/
theorem symCheckList_framed {prog prog' : List AstNode} (hprog : ∀ n ∈ prog, n.isFuncDef = true)
    (h : symCheckList arena typeEnv none prog s = .ok (prog', s')) {id : Nat} (hid : s.nextId ≤ id)
    {e : SymTabEntry} (he : s'.entries[id]? = some e) (hframe : e.frame ≠ none) :
    ¬ NoFuncId prog' id := by
  induction prog generalizing s prog' with
  | nil =>
      rw [symCheckList, StateExcept.pure_eq_ok] at h
      obtain ⟨rfl, rfl⟩ := h
      have hlt := (List.getElem?_eq_some_iff.mp he).1
      have hid : s'.entries.length ≤ id := hid
      omega
  | cons node rest ih =>
      rw [symCheckList, StateExcept.bind_eq_ok] at h
      obtain ⟨n1, s1, h1, h⟩ := h
      rw [StateExcept.bind_eq_ok] at h
      obtain ⟨r1, s2, h2, h⟩ := h
      rw [StateExcept.pure_eq_ok] at h
      obtain ⟨rfl, rfl⟩ := h
      obtain ⟨value, type, body, params, symbol, rfl⟩ := AstNode.eq_funcDef (hprog node (by simp))
      have hff : (AstNode.compStmt body).funcFree = true :=
        @AstNode.funcFree_of_isStmt (.compStmt body) (hprog _ List.mem_cons_self)
      obtain ⟨body', ps, gid, rfl, hf, -, -⟩ := symCheckFuncDef_layout hff h1
      obtain ⟨-, hent, hfr⟩ := symCheckList_layout (fun n hn => hprog n (by simp [hn])) h2
      by_cases hlt : id < s1.nextId
      · obtain rfl := (hf.mono hent hfr).eq_of_frame hid hlt he hframe
        intro hno
        exact hno _ _ _ _ _ List.mem_cons_self rfl
      · intro hno
        exact ih (fun n hn => hprog n (by simp [hn])) h2 (by omega) fun v t b p sym hmem =>
          hno v t b p sym (List.mem_cons_of_mem _ hmem)

/-- **Where a `return` finds a stack frame, it is that of its function.** -/
theorem Accepted.returnFrame {uninit : Int} {arena : SymId → Nat} {tokens : List Token}
    {r : SemaResult} (hacc : Accepted uninit arena tokens r) {value type : String} {body : AstNode}
    {params : List Param} {symbol : Option SymId}
    (hmem : .funcDef value type body params symbol ∈ r.prog) {s : Option SymId}
    (hs : s ∈ body.returnSymbols) {frame : StackFrame}
    (hframe : frameOf r.entries r.frames s = some frame) :
    frame = { size := intSize * body.localIds.length, func := value } := by
  obtain ⟨_, _, _, _, gid, fid, lo, hi, heq, hlay, -⟩ := hacc.layout.func hmem
  obtain ⟨rfl, rfl, rfl, rfl, rfl⟩ := AstNode.funcDef.inj heq
  obtain ⟨prog, rest, hparse, hsema⟩ := hacc
  simp only [semaCheck, ExceptRun.bind_eq_ok, ExceptRun.pure_eq_ok] at hsema
  obtain ⟨⟨prog', st⟩, hrun, _, _, rfl⟩ := hsema
  have hprog := parse_isFuncDef hparse
  obtain ⟨hresolve, -⟩ := (resolveProg_follows hprog Scoped.initial).of_ok hrun
  obtain ⟨gid', hgid, -, hret⟩ := resolveProg_returnsIn hresolve hmem
  obtain rfl := Option.some.inj hgid
  rcases hret s hs with rfl | ⟨id, rfl, -, hno⟩
  · rw [hlay.frameOf] at hframe
    exact (Option.some.inj hframe).symm
  · simp only [frameOf, Option.bind_eq_bind, Option.bind_eq_some_iff] at hframe
    obtain ⟨_, hid, e, he, fid', hfid, -⟩ := hframe
    obtain rfl := Option.some.inj hid
    refine absurd hno (symCheckList_framed hprog hrun (Nat.zero_le _) he ?_)
    rw [hfid]
    simp

end MyLang
