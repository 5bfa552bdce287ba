/-
Which programs code generation gets through.

Between two statements no register is busy, and what generation writes into the entries
concerns no symbol's frame.  So each statement of an accepted program ends as `generable`
foresees, and so does the program.

The verdict `generable` goes through the tree in the order in which the generator writes
code, and is the first thing that would stop it: a node that there is no case for, an
expression for which the registers are not enough, or a symbol that does not lead where it
should.  How an expression ends is `evalAsm_ends` in `Proofs/Pressure.lean`.

In an accepted program most of these cannot be.  What is left is the empty expression, in
a condition for instance, which the parser lets pass, expressions that are too deep, and a
`return` in the scope of a constant that has the name of its function.
-/
import MyLang.Proofs.Links
import MyLang.Proofs.FuncRun

namespace MyLang

open Rv32 ExceptRun

variable {frames : List StackFrame} {st st1 : AsmState} {c : List Line}

/-! ### Statements

Each generator is its parts in a row, and ends as the first part that stops.
-/

theorem Balanced.busyRegs (h : Balanced st st1) : st1.busyRegs = st.busyRegs :=
  AsmState.busyRegs_congr h.free

/-- An expression that is evaluated with no register busy. -/
theorem evalAsm_ends_free {node : AstNode} (hn : node.isExpr = true)
    (hl : node.linked st.entries frames = true) (hfree : st.busyRegs = ∅) :
    Gen.Ends (evalAsm frames node) st (node.evaluable 0) := by
  have h := evalAsm_ends hn hl
  rwa [hfree, Finset.card_empty] at h

theorem discard_ends {node : AstNode} {y : Except Fault Unit}
    (h : Gen.Ends (evalAsm frames node) st y) : Gen.Ends (discard (evalAsm frames node)) st y :=
  h.andThen fun _ _ _ _ => ⟨_, rfl⟩

theorem genForCond_ends {label : String} {cond : AstNode} (hn : cond.isExpr = true)
    (hl : cond.linked st.entries frames = true) (hfree : st.busyRegs = ∅) :
    Gen.Ends (genForCond label cond.isEmptyExpr (evalAsm frames cond)) st
      cond.evaluableUnlessEmpty := by
  unfold genForCond AstNode.evaluableUnlessEmpty
  by_cases hempty : cond.isEmptyExpr = true
  · rw [hempty, if_pos rfl]
    exact ⟨_, rfl⟩
  · rw [if_neg hempty, if_pos (by simpa using hempty)]
    exact (evalAsm_ends_free hn hl hfree).andThen fun _ _ _ _ => ⟨_, rfl⟩

theorem genForStep_ends {step : AstNode} (hn : step.isExpr = true)
    (hl : step.linked st.entries frames = true) (hfree : st.busyRegs = ∅) :
    Gen.Ends (genForStep step.isEmptyExpr (evalAsm frames step)) st step.evaluableUnlessEmpty := by
  unfold genForStep AstNode.evaluableUnlessEmpty
  by_cases hempty : step.isEmptyExpr = true
  · rw [hempty, if_pos rfl]
    exact ⟨_, rfl⟩
  · rw [if_neg hempty, if_pos (by simpa using hempty)]
    exact discard_ends (evalAsm_ends_free hn hl hfree)

theorem genRetValue_ends {expr : AstNode} (hn : expr.isExpr = true)
    (hl : expr.linked st.entries frames = true) (hfree : st.busyRegs = ∅) :
    Gen.Ends (genRetValue expr.isEmptyExpr (evalAsm frames expr) (genAsmNode frames expr)) st
      expr.evaluableUnlessEmpty := by
  unfold genRetValue AstNode.evaluableUnlessEmpty
  by_cases hempty : expr.isEmptyExpr = true
  · obtain rfl := AstNode.eq_emptyExpr hempty
    exact ⟨_, rfl⟩
  · rw [if_neg hempty, if_neg hempty]
    exact (evalAsm_ends_free hn hl hfree).andThen fun _ _ _ _ => ⟨_, rfl⟩

theorem follow_ends {α : Type} (o : Option α) (st : AsmState) :
    Gen.Ends (follow o) st (if o.isSome then .ok () else .error .frame) := by
  cases o with
  | none => exact (rfl : follow (none : Option α) st = .error .undefined)
  | some a => exact ⟨_, rfl⟩

theorem frameSizeOf_ends (entry : SymTabEntry) (st : AsmState) :
    Gen.Ends (frameSizeOf frames entry) st
      (if (entry.frame.bind (frames[·]?)).isSome then .ok () else .error .frame) := by
  unfold frameSizeOf
  cases entry.frame with
  | none =>
      have hstop := follow_ends (none : Option FrameId) st
      exact hstop.andThen fun _ _ _ h => absurd h (by simp)
  | some fid =>
      exact Gen.Ends.after (a := fid) rfl ((follow_ends frames[fid]? st).andThen fun _ _ _ _ => ⟨_,
        rfl⟩)

/-- A `return` reads the frame of its symbol behind its value. -/
theorem genRet_ends {func : Option SymId} {isEmpty : Bool} {e : Gen Temp} {g : Gen Unit}
    {y : Except Fault Unit} (hfunc : (func.bind (st.entries[·]?)).isSome = true)
    (hval : Gen.Ends (genRetValue isEmpty e g) st y) : Gen.Ends (genRet frames func isEmpty e g) st
      (y >>= fun _ => if (frameOf st.entries frames func).isSome then .ok ()
        else .error .frame) := by
  obtain ⟨entry, hentry⟩ := Option.isSome_iff_exists.mp hfunc
  obtain ⟨id, rfl, hid⟩ := Option.bind_eq_some_iff.mp hentry
  have hframe : frameOf st.entries frames (some id) = entry.frame.bind (frames[·]?) := by
    simp only [frameOf, Option.bind_eq_bind, Option.bind_some, hid]
  rw [genRet_eq, hframe]
  refine Gen.Ends.after (symbolEntry_eq_ok.mpr ⟨⟨id, rfl, hid⟩, rfl, rfl⟩)
    (hval.bind fun _ st1 c1 _ => ?_)
  exact (frameSizeOf_ends entry st1).andThen fun size st2 c2 _ => ⟨_, rfl⟩

/-- The loop of a `for`: condition, body and step. -/
theorem genForLoop_ends {label : String} {cond step : AstNode} {genBody : Gen Unit}
    {y : Except Fault Unit} (hcond : cond.isExpr = true) (hstep : step.isExpr = true)
    (hlcond : cond.linked st.entries frames = true) (hlstep : step.linked st.entries frames = true)
    (hfree : st.busyRegs = ∅) (hbody : ∀ {st1 : AsmState}, Balanced st st1 →
      Gen.Ends genBody st1 y ∧
      ∀ {st2 : AsmState} {c : List Line}, genBody st1 = .ok ((), st2, c) → Balanced st1 st2) :
    Gen.Ends (genForLoop label cond.isEmptyExpr (evalAsm frames cond)
      (genForStep step.isEmptyExpr (evalAsm frames step)) genBody) st
      (cond.evaluableUnlessEmpty >>= fun _ => y >>= fun _ => step.evaluableUnlessEmpty) := by
  unfold genForLoop
  refine Gen.Ends.after (show emitLabel _ st = .ok ((), st, _) from rfl) ?_
  refine (genForCond_ends hcond hlcond hfree).bind fun _ st1 c1 h1 => ?_
  have h1 := genForCond_balanced h1
  refine Gen.Ends.after (show emitLabel _ st1 = .ok ((), st1, _) from rfl) ?_
  refine (hbody h1).1.bind fun _ st2 c2 h2 => ?_
  have h2 := h1.trans ((hbody h1).2 h2)
  refine Gen.Ends.after (show emitLabel _ st2 = .ok ((), st2, _) from rfl) ?_
  have hends := genForStep_ends hstep (by rw [h2.entries]; exact hlstep)
    (by rw [h2.busyRegs, hfree])
  exact hends.andThen fun _ _ _ _ => ⟨_, rfl⟩

/-- Statements in a row end as foreseen, if each of them does. -/
theorem genAsmList_ends {l : List AstNode} {framed : Option SymId → Bool}
    (hl : ∀ node ∈ l, ∀ {st' : AsmState}, st'.entries = st.entries → st'.busyRegs = ∅ →
      Gen.Ends (genAsmNode frames node) st' (node.generable framed))
    (hbal : ∀ node ∈ l, ∀ {st1 st2 : AsmState} {c : List Line},
      genAsmNode frames node st1 = .ok ((), st2, c) → Balanced st1 st2)
    (hfree : st.busyRegs = ∅) :
    Gen.Ends (genAsmList frames l) st (AstNode.generableList framed l) := by
  induction l generalizing st with
  | nil => exact ⟨_, rfl⟩
  | cons node rest ih =>
      rw [genAsmList, AstNode.generableList]
      refine (hl node (by simp) rfl hfree).bind fun _ st1 c1 h1 => ?_
      have hb := hbal node (by simp) h1
      refine ih (fun n hn st' hent => hl n (by simp [hn]) (hent.trans hb.entries))
        (fun n hn _ _ _ => hbal n (by simp [hn])) ?_
      rw [hb.busyRegs, hfree]

theorem createBaseCondLabel_apply (kind : LabelKind) (st : AsmState) :
    createBaseCondLabel kind st = .ok (st.baseLabel kind, st.bump kind, []) := by
  cases kind <;> rfl

/-- An expression, and what follows it when its register is given back. -/
theorem eval_release_ends {node : AstNode} {i : Temp → Instr} {g : Gen Unit} {y : Except Fault Unit}
    (hn : node.isExpr = true) (hl : node.linked st.entries frames = true) (hfree : st.busyRegs = ∅)
    (hg : ∀ {st1 : AsmState}, Balanced st st1 → Gen.Ends g st1 y) :
    Gen.Ends (do
      let reg ← evalAsm frames node
      emit (i reg)
      freeRegister reg
      g) st (node.evaluable 0 >>= fun _ => y) := by
  refine (evalAsm_ends_free hn hl hfree).bind fun reg st1 c h => ?_
  have hemit : emit (i reg) st1 = .ok ((), st1, [.instr (i reg)]) := rfl
  have hrelease : freeRegister reg st1 = .ok ((), st1.release reg, []) := rfl
  exact Gen.Ends.after hemit (Gen.Ends.after hrelease (hg (Balanced.eval h)))

/-- **What stops the code generation of a statement, if anything does, can be read off it.** -/
theorem genAsmNode_ends {node : AstNode} (hn : node.isStmt = true)
    (hl : node.linked st.entries frames = true) (hfree : st.busyRegs = ∅) :
    Gen.Ends (genAsmNode frames node) st
      (node.generable fun symbol => (frameOf st.entries frames symbol).isSome) := by
  -- on the tree, always from a state with all registers free
  induction node generalizing st with
  | varDec | enum => exact ⟨_, rfl⟩
  | varDef value type expr symbol _ =>
      simp only [AstNode.linked, Bool.and_eq_true] at hl
      obtain ⟨entry, hentry⟩ := Option.isSome_iff_exists.mp hl.1
      obtain ⟨id, rfl, hid⟩ := Option.bind_eq_some_iff.mp hentry
      refine Gen.Ends.after (symbolEntry_eq_ok.mpr ⟨⟨id, rfl, hid⟩, rfl, rfl⟩) ?_
      exact (evalAsm_ends_free hn hl.2 hfree).andThen fun _ _ _ _ => ⟨_, rfl⟩
  | exprStmt expr _ =>
      rw [genAsmNode, AstNode.generable]
      exact genForStep_ends hn hl hfree
  | ret expr func _ =>
      simp only [AstNode.linked, Bool.and_eq_true] at hl
      exact genRet_ends hl.1 (genRetValue_ends hn hl.2 hfree)
  | compStmt body ih =>
      rw [AstNode.isStmt, AstNode.areStmts_iff] at hn
      rw [AstNode.linked, linkedList_iff] at hl
      rw [genAsmNode, AstNode.generable]
      refine genAsmList_ends (fun n hmem st' hent hfree' => ?_) (fun n hmem _ _ _ h => ?_) hfree
      · have hln : n.linked st'.entries frames = true := by rw [hent]; exact hl n hmem
        have h := ih n hmem (hn n hmem) hln hfree'
        rwa [hent] at h
      · exact genAsmNode_balanced (AstNode.funcFree_of_isStmt (hn n hmem)) h
  | ifElse ifExpr ifBody elseBody _ ihb ihe =>
      simp only [AstNode.isStmt, Bool.and_eq_true, Bool.or_eq_true] at hn
      simp only [AstNode.linked, Bool.and_eq_true] at hl
      rw [genAsmNode, AstNode.generable]
      have hbump := (Balanced.bump st .if_).trans (Balanced.bump _ .else_)
      have hlabel : emitLabel (st.baseLabel .if_) ((st.bump .if_).bump .else_) =
          .ok ((), (st.bump .if_).bump .else_, _) := rfl
      refine Gen.Ends.after (createBaseCondLabel_apply .if_ st)
        (Gen.Ends.after (createBaseCondLabel_apply .else_ _) (Gen.Ends.after hlabel ?_))
      refine eval_release_ends hn.1.1 (by rw [hbump.entries]; exact hl.1.1)
        (by rw [hbump.busyRegs, hfree]) fun {st1} h1 => ?_
      have h1 := hbump.trans h1
      have hbody := ihb hn.1.2 (by rw [h1.entries]; exact hl.1.2) (by rw [h1.busyRegs, hfree])
      rw [h1.entries] at hbody
      refine hbody.bind fun _ st2 c2 hrun => ?_
      have h2 := h1.trans (genAsmNode_balanced (AstNode.funcFree_of_isStmt hn.1.2) hrun)
      refine Gen.Ends.after (show emitLabel _ st2 = .ok ((), st2, _) from rfl) ?_
      by_cases helse : elseBody.nonNull = true
      · rw [if_pos helse]
        have hbody := ihe (hn.2.resolve_left (by simp [helse])) (by rw [h2.entries]; exact hl.2)
          (by rw [h2.busyRegs, hfree])
        rwa [h2.entries] at hbody
      · rw [if_neg helse]
        obtain rfl := AstNode.eq_null helse
        exact ⟨_, rfl⟩
  | while_ expr body _ ihb =>
      simp only [AstNode.isStmt, Bool.and_eq_true] at hn
      simp only [AstNode.linked, Bool.and_eq_true] at hl
      rw [genAsmNode, AstNode.generable]
      have hbump := Balanced.bump st .while_
      refine Gen.Ends.after (createBaseCondLabel_apply .while_ st) ?_
      refine Gen.Ends.after (show emitLabel _ (st.bump .while_) = .ok ((), st.bump .while_, _)
        from rfl) ?_
      refine eval_release_ends hn.1 (by rw [hbump.entries]; exact hl.1)
        (by rw [hbump.busyRegs, hfree]) fun {st1} h1 => ?_
      have h1 := hbump.trans h1
      have hbody := ihb hn.2 (by rw [h1.entries]; exact hl.2) (by rw [h1.busyRegs, hfree])
      rw [h1.entries] at hbody
      exact hbody.andThen fun _ _ _ _ => ⟨_, rfl⟩
  | for_ init cond step body ihi _ _ ihb =>
      simp only [AstNode.isStmt, Bool.and_eq_true, Bool.or_eq_true] at hn
      simp only [AstNode.linked, Bool.and_eq_true] at hl
      obtain ⟨⟨⟨hinit, hcond⟩, hstep⟩, hbody⟩ := hn
      obtain ⟨⟨⟨hlinit, hlcond⟩, hlstep⟩, hlbody⟩ := hl
      rw [genAsmNode, AstNode.generable, genFor_eq]
      have hbump := Balanced.bump st .for_
      refine Gen.Ends.after (createBaseCondLabel_apply .for_ st) ?_
      refine Gen.Ends.after (show emitLabel _ (st.bump .for_) = .ok ((), st.bump .for_, _)
        from rfl) ?_
      have hlinit' : init.linked (st.bump .for_).entries frames = true := by
        rw [hbump.entries]; exact hlinit
      have hfree' : (st.bump .for_).busyRegs = ∅ := by rw [hbump.busyRegs, hfree]
      have hends : Gen.Ends (genForInit init.isForInit (genAsmNode frames init)
        (evalAsm frames init)) (st.bump .for_)
          (if init.isForInit then init.generable
            fun symbol => (frameOf st.entries frames symbol).isSome else init.evaluable 0) := by
        unfold genForInit
        by_cases hfor : init.isForInit = true
        · rw [if_pos hfor, if_pos hfor]
          rcases hinit with hinit | hinit
          · have h := ihi (AstNode.isStmt_of_isDecl hinit) hlinit' hfree'
            rwa [hbump.entries] at h
          · obtain rfl : init = .emptyExpr := by
              cases init <;> first | rfl | simp [AstNode.isForInit, AstNode.isExpr] at hfor hinit
            exact ⟨_, rfl⟩
        · rw [if_neg hfor, if_neg hfor]
          have hexpr : init.isExpr = true := by
            refine hinit.resolve_left fun hdecl => hfor ?_
            cases init <;> first | rfl | simp [AstNode.isDecl] at hdecl
          exact discard_ends (evalAsm_ends_free hexpr hlinit' hfree')
      refine hends.bind fun _ st1 c1 hrun => ?_
      have h1 : Balanced st st1 := by
        refine hbump.trans ?_
        unfold genForInit at hrun
        split at hrun
        · refine genAsmNode_balanced ?_ hrun
          rcases hinit with hinit | hinit
          · exact AstNode.funcFree_of_isDecl hinit
          · exact AstNode.funcFree_of_isExpr hinit
        · exact discard_balanced hrun
      refine genForLoop_ends hcond hstep (by rw [h1.entries]; exact hlcond)
        (by rw [h1.entries]; exact hlstep)
        (by rw [h1.busyRegs, hfree]) fun {st2} h2 => ⟨?_, fun {st3 c3} hrun => ?_⟩
      · have h2 := h1.trans h2
        have h := ihb hbody (by rw [h2.entries]; exact hlbody) (by rw [h2.busyRegs, hfree])
        rwa [h2.entries] at h
      · exact genAsmNode_balanced (AstNode.funcFree_of_isStmt hbody) hrun
  | _ => simp [AstNode.isStmt] at hn

/-! ### Functions and programs

The parameters of the functions before have been marked in the entries, which is no
obstacle for the functions behind.
-/

section Congr

variable {entries entries' : List SymTabEntry}

/-- The fields for parameters have no say in where a symbol leads. -/
theorem frameOf_congr (h : entries.map SymTabEntry.fixed = entries'.map SymTabEntry.fixed)
    (symbol : Option SymId) : frameOf entries frames symbol = frameOf entries' frames symbol := by
  cases symbol with
  | none => rfl
  | some id =>
      have hid : entries[id]?.map SymTabEntry.frame = entries'[id]?.map SymTabEntry.frame := by
        have h := congrArg (fun l => l[id]?.map SymTabEntry.frame) h
        simpa only [List.getElem?_map, Option.map_map, Function.comp_def, SymTabEntry.fixed] using h
      unfold frameOf
      cases he : entries[id]? with
      | none =>
          rw [he, Option.map_none, eq_comm, Option.map_eq_none_iff] at hid
          simp [he, hid]
      | some e =>
          rw [he, Option.map_some, eq_comm, Option.map_eq_some_iff] at hid
          obtain ⟨e', he', hframe⟩ := hid
          simp [he', he, hframe]

theorem entry_isSome_congr (h : entries.map SymTabEntry.fixed = entries'.map SymTabEntry.fixed)
    (symbol : Option SymId) :
    (symbol.bind (entries[·]?)).isSome = (symbol.bind (entries'[·]?)).isSome := by
  cases symbol with
  | none => rfl
  | some id =>
      have h := congrArg (fun l => l[id]?.isSome) h
      simpa only [List.getElem?_map, Option.isSome_map, Option.bind_some] using h

theorem linkedList_congr {l : List AstNode}
    (hl : ∀ node ∈ l, node.linked entries frames = node.linked entries' frames) :
    AstNode.linkedList entries frames l = AstNode.linkedList entries' frames l := by
  induction l with
  | nil => rfl
  | cons node rest ih =>
      rw [AstNode.linkedList, AstNode.linkedList, hl node (by simp),
        ih fun n hn => hl n (by simp [hn])]

/-- Whether a tree is linked does not depend on the fields for parameters. -/
theorem linked_congr (h : entries.map SymTabEntry.fixed = entries'.map SymTabEntry.fixed)
    (node : AstNode) : node.linked entries frames = node.linked entries' frames := by
  have hframe : ∀ symbol, frameOf entries frames symbol = frameOf entries' frames symbol :=
    frameOf_congr h
  have hentry := entry_isSome_congr h
  induction node with
  | ident value symbol => exact hentry symbol
  | funcCall value args symbol ih =>
      rw [AstNode.linked, AstNode.linked, hframe, linkedList_congr ih]
  | compStmt body ih => exact linkedList_congr ih
  | varDef value type expr symbol ih => rw [AstNode.linked, AstNode.linked, hentry, ih]
  | ret expr func ih => rw [AstNode.linked, AstNode.linked, hentry, ih]
  | funcDef value type body params symbol ih => rw [AstNode.linked, AstNode.linked, hframe, ih]
  | binExp _ _ _ _ ihl ihr => rw [AstNode.linked, AstNode.linked, ihl, ihr]
  | varAsgn _ _ ihl ihr => rw [AstNode.linked, AstNode.linked, ihl, ihr]
  | ifElse _ _ _ ihc ihb ihe => rw [AstNode.linked, AstNode.linked, ihc, ihb, ihe]
  | while_ _ _ ihc ihb => rw [AstNode.linked, AstNode.linked, ihc, ihb]
  | for_ _ _ _ _ ihi ihc ihs ihb => rw [AstNode.linked, AstNode.linked, ihi, ihc, ihs, ihb]
  | unaryExpr _ _ _ ih => exact ih
  | lval _ _ ih => exact ih
  | exprStmt _ ih => exact ih
  | _ => rfl

end Congr

/-- A function ends as its body does. -/
theorem genFuncDef_ends {value type : String} {params : List Param} {body : List AstNode}
    {symbol : Option SymId} (hn : AstNode.areStmts body = true)
    (hparams : ∀ p ∈ params, ∃ id, p.symbol = some id)
    (hl : (AstNode.funcDef value type (.compStmt body) params symbol).linked st.entries frames
      = true)
    (hfree : st.busyRegs = ∅) :
    Gen.Ends (genAsmNode frames (.funcDef value type (.compStmt body) params symbol)) st
      ((AstNode.compStmt body).generable
        fun symbol => (frameOf st.entries frames symbol).isSome) := by
  have hfix := paramEntries_fixed 0 params st.entries
  simp only [AstNode.linked, Bool.and_eq_true] at hl
  obtain ⟨frame, hframe⟩ := Option.isSome_iff_exists.mp hl.1
  rw [← frameOf_congr hfix] at hframe
  have hloaded : loadParams 0 params st
      = .ok ((), { st with entries := paramEntries 0 params st.entries }, []) :=
    loadParams_eq_ok.mpr ⟨hparams, rfl, rfl⟩
  generalize hst1 : { st with entries := paramEntries 0 params st.entries } = st1 at hloaded
  have hent : st1.entries = paramEntries 0 params st.entries := by rw [← hst1]
  have hfree1 : st1.busyRegs = ∅ := by
    rw [← hfree, ← hst1]
    rfl
  rw [← hent] at hframe
  obtain ⟨id, entry, fid, hid, hentry, hfid, hfr⟩ := symbolEntry_of_frameOf hframe
  rw [genAsmNode]
  refine Gen.Ends.after (show emitLabel value st = .ok ((), st, _) from rfl)
    (Gen.Ends.after hloaded ?_)
  refine Gen.Ends.after (symbolEntry_eq_ok.mpr ⟨⟨id, hid, hentry⟩, rfl, rfl⟩) ?_
  have hsize : frameSizeOf frames entry st1 = .ok (frame.size, st1, []) := by
    rw [frameSizeOf, follow_bind_eq_ok]
    refine ⟨fid, hfid, ?_⟩
    rw [follow_bind_eq_ok]
    exact ⟨frame, hfr, rfl⟩
  refine Gen.Ends.after hsize (Gen.Ends.after (emitPrologue_apply _) ?_)
  have hbody : Gen.Ends (genAsmNode frames (.compStmt body)) st1 _ :=
    genAsmNode_ends hn (by rw [hent, linked_congr hfix]; exact hl.2) hfree1
  simp only [hent, frameOf_congr hfix] at hbody
  exact hbody.andThen fun _ st2 _ _ => ⟨_, genFuncEnd_apply type _⟩

/-- The parameters of a function of a program have symbols. -/
def ParamsLinked (prog : List AstNode) : Prop :=
  ∀ value type body params symbol, .funcDef value type body params symbol ∈ prog →
    ∀ p ∈ params, ∃ id, p.symbol = some id

theorem Accepted.paramsLinked {uninit : Int} {arena : SymId → Nat} {tokens : List Token}
    {r : SemaResult} (hacc : Accepted uninit arena tokens r) : ParamsLinked r.prog := by
  intro value type body params symbol hmem p hp
  obtain ⟨_, _, _, _, gid, fid, lo, hi, heq, hf, -⟩ := hacc.layout.func hmem
  obtain ⟨rfl, rfl, rfl, rfl, rfl⟩ := AstNode.funcDef.inj heq
  obtain ⟨i, hi⟩ := List.mem_iff_getElem?.mp hp
  exact ⟨_, hf.param_symbol i p hi⟩

/-- Functions in a row, whatever has been written into the entries before. -/
theorem genAsmProg_ends {entries : List SymTabEntry} {prog : List AstNode}
    (hprog : ∀ n ∈ prog, n.isFuncDef = true) (hparams : ParamsLinked prog)
    (hl : AstNode.linkedList entries frames prog = true)
    (hfix : st.entries.map SymTabEntry.fixed = entries.map SymTabEntry.fixed)
    (hfree : st.busyRegs = ∅) : Gen.Ends (genAsmList frames prog) st
      (AstNode.generableList (fun symbol => (frameOf entries frames symbol).isSome) prog) := by
  induction prog generalizing st with
  | nil => exact ⟨_, rfl⟩
  | cons node rest ih =>
      obtain ⟨value, type, body, params, symbol, rfl⟩ := AstNode.eq_funcDef (hprog node (by simp))
      have hbody : AstNode.areStmts body = true := hprog _ List.mem_cons_self
      rw [AstNode.linkedList, Bool.and_eq_true] at hl
      have hnode := genFuncDef_ends hbody (hparams _ _ _ _ _ List.mem_cons_self)
        (by rw [linked_congr hfix]; exact hl.1) hfree
      simp only [frameOf_congr hfix] at hnode
      rw [genAsmList, AstNode.generableList]
      refine hnode.bind fun _ st1 c1 hrun => ?_
      have hff : (AstNode.compStmt body).funcFree = true :=
        @AstNode.funcFree_of_isStmt (.compStmt body) hbody
      obtain ⟨hfree1, hent1⟩ := genFuncDef_entries hff hrun
      refine ih (fun n hn => hprog n (by simp [hn])) (fun v t b ps s hmem => ?_) hl.2 ?_ ?_
      · exact hparams v t b ps s (List.mem_cons_of_mem _ hmem)
      · rw [hent1, paramEntries_fixed, hfix]
      · rw [AsmState.busyRegs_congr hfree1, hfree]

/-- **What stops code generation of an accepted program, if anything does, can be read off it.** -/
theorem genAsm_ends {uninit : Int} {arena : SymId → Nat} {tokens : List Token} {r : SemaResult}
    (hacc : Accepted uninit arena tokens r) :
    EndsAs Fault.error (genAsm r)
      (AstNode.generableList (fun symbol => (frameOf r.entries r.frames symbol).isSome)
        r.prog) := by
  have hfree : (makeRiscv r.entries).busyRegs = ∅ := by
    ext i
    simp [AsmState.mem_busyRegs, makeRiscv]
  have hstart : emitLinuxPrologue (makeRiscv r.entries)
    = .ok ((), makeRiscv r.entries, startCode) := rfl
  have hprog : Gen.Ends (do emitLinuxPrologue; genAsmList r.frames r.prog)
      (makeRiscv r.entries) _ :=
    Gen.Ends.after hstart (genAsmProg_ends hacc.isFuncDef hacc.paramsLinked hacc.linked rfl hfree)
  unfold genAsm
  refine EndsAs.congr hprog (fun a ha => ?_) fun e he => ?_
  · rw [ha]
    exact ⟨_, rfl⟩
  · rw [he]

/-- The exits for a node that there is no case for. -/
def AsmError.unknownNode : AsmError → Bool
  | .evalUnknownAstType => true
  | .genUnknownAstType => true
  | .unknownUnaryType => true
  | .unknownLvalType => true
  | .unexpectedNodeType => true
  | _ => false

/--
**Code generation of an accepted program comes to a node it has no case for exactly if it
comes to an empty expression, before it stops for something else.**
-/
theorem translatable_iff {uninit : Int} {arena : SymId → Nat} {tokens : List Token} {r : SemaResult}
    (hacc : Accepted uninit arena tokens r) :
    (∀ e, genAsm r = .error e → e.unknownNode = false) ↔
      AstNode.generableList (fun symbol => (frameOf r.entries r.frames symbol).isSome) r.prog ≠
        .error .hole := by
  have hends := genAsm_ends hacc
  constructor
  · intro h hhole
    rw [hhole] at hends
    exact absurd (h _ hends) (by decide)
  · intro hne e he
    obtain ⟨f, rfl⟩ := hends.reason_of_error he
    have hinj : Function.Injective Fault.error := by
      intro f g hfg
      cases f <;> cases g <;> first | rfl | simp [Fault.error] at hfg
    have hf := (hends.error_iff hinj).mp he
    cases f with
    | hole => exact absurd hf hne
    | registers => rfl
    | frame => rfl

/-- `int main() { if (1) ; }`, with any condition. -/
def conditionTokens (cond : List Token) : List Token :=
  [tok .type "int", tok .ident "main", tok .lparen "(", tok .rparen ")", tok .lbrace "\x7b",
    tok .if_ "if",
    tok .lparen "("] ++ cond ++ [tok .rparen ")", tok .semicolon ";", tok .rbrace "\x7d"]

theorem translatable_iff_condition :
    ∃ r, Accepted 0 (fun _ => 0) (conditionTokens [tok .num "1"]) r ∧
      ∀ e, genAsm r = .error e → e.unknownNode = false := by
  have hacc : Accepted 0 (fun _ => 0) (conditionTokens [tok .num "1"]) _ := ⟨_, _, rfl, rfl⟩
  exact ⟨_, hacc, (translatable_iff hacc).mpr (by intro h; cases h)⟩

/-- A condition that is left out is accepted, and there is no code for it. -/
theorem emptyCondition_not_translatable :
    ∃ r, Accepted 0 (fun _ => 0) (conditionTokens []) r ∧
      ¬ ∀ e, genAsm r = .error e → e.unknownNode = false := by
  refine ⟨_, ⟨_, _, rfl, rfl⟩, fun h => ?_⟩
  have hstop := h .evalUnknownAstType rfl
  simp [AsmError.unknownNode] at hstop

end MyLang
