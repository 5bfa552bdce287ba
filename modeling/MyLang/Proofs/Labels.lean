/-
The labels of the assembly file.

The code of a tree defines the labels made from the numbers it takes, each once, and jumps
to labels it defines itself or to functions the tree calls.  So the labels of a file are
unambiguous unless a function is called like one of the labels made up for the others: the
two share one namespace, and nothing in the compiler looks for it.

A label is a kind and a number, and there is a counter for each kind.  `Labelled` says of
a piece of code how far it moves the counters and which labels it has: those of the
numbers in between.  Two pieces in a row have their numbers one behind the other, so no
label of one is a label of the other, and this is all that has to be seen when the code of
a construct is put together.

How many numbers a construct takes is counted on the tree, so that the condition of
`labelsDefined_iff` is one on names and counts of the source.  That two names made from a
kind and a number are different if the numbers are is `Proofs/LabelNames.lean`.
-/
import MyLang.Proofs.Calls
import MyLang.Proofs.FuncRun

namespace MyLang

open Rv32 FreshNames

variable {frames : List StackFrame} {st st' st1 st2 : AsmState} {c c1 c2 : List Line}

/-! ### Counters

Only the generators of labels move a counter.
-/

@[simp] theorem AsmState.count_take (st : AsmState) (reg : Temp) :
    (st.take reg).count = st.count := by
  funext k
  cases k <;> rfl

@[simp] theorem AsmState.count_release (st : AsmState) (reg : Temp) :
    (st.release reg).count = st.count := by
  funext k
  cases k <;> rfl

@[simp] theorem AsmState.count_withFree (st : AsmState) (free : Temp → Bool) :
    (st.withFree free).count = st.count := by
  funext k
  cases k <;> rfl

theorem AsmState.count_bump (st : AsmState) (kind : LabelKind) :
    (st.bump kind).count = Function.update st.count kind (st.count kind + 1) := by
  funext k
  cases kind <;> cases k <;> rfl

theorem update_count (n : LabelKind → Nat) (kind : LabelKind) :
    Function.update n kind (n kind + 1) = n + kind.one := by
  funext k
  by_cases h : k = kind
  · subst h
    simp [LabelKind.one]
  · simp [LabelKind.one, h]

/-! ### Labels and targets of a piece of code

Labels are compared as lists up to order, since only how often each occurs is of interest.
-/

/--
A piece of code takes `n` numbers of each kind, defines the labels made from them, each
once, and jumps to none but these and some functions.
-/
structure Labelled (n : LabelKind → Nat) (calls : List String) (st st' : AsmState) (c : List Line) :
    Prop where
  count : st'.count = st.count + n
  drawn : Drawn labelScheme st.count st'.count (labels c)
  targets : ∀ l ∈ targets c, l ∈ labels c ∨ l ∈ calls

namespace Labelled

variable {n n' : LabelKind → Nat} {calls calls' : List String}

/-- Code without labels that jumps to functions only. -/
theorem plain (hst : st'.count = st.count) (hl : labels c = []) (ht : Rv32.targets c ⊆ calls) :
    Labelled 0 calls st st' c := by
  refine ⟨by rw [hst, add_zero], ?_, fun l hl => Or.inr (ht hl)⟩
  rw [hst, hl]
  exact Drawn.nil _

theorem append (h : Labelled n calls st st1 c1) (h' : Labelled n' calls' st1 st' c2) :
    Labelled (n + n') (calls ++ calls') st st' (c1 ++ c2) := by
  refine ⟨by rw [h'.count, h.count, add_assoc], ?_, fun l hl => ?_⟩
  · rw [labels_append]
    exact h.drawn.append h'.drawn
  · rw [targets_append, List.mem_append] at hl
    rw [labels_append, List.mem_append, List.mem_append]
    rcases hl with hl | hl
    · rcases h.targets l hl with hl | hl
      · exact Or.inl (Or.inl hl)
      · exact Or.inr (Or.inl hl)
    · rcases h'.targets l hl with hl | hl
      · exact Or.inl (Or.inr hl)
      · exact Or.inr (Or.inr hl)

/-- The order of the lines does not matter. -/
theorem perm (h : Labelled n calls st st' c) (hp : c1.Perm c) : Labelled n calls st st' c1 := by
  have hl : (labels c1).Perm (labels c) := hp.filterMap _
  have ht : (Rv32.targets c1).Perm (Rv32.targets c) := hp.filterMap _
  refine ⟨h.count, h.drawn.perm hl, fun l hmem => ?_⟩
  rw [hl.mem_iff]
  exact h.targets l (ht.mem_iff.mp hmem)

/-- Only the counters of the states matter. -/
theorem of_count (h : Labelled n calls st1 st2 c) (h1 : st1.count = st.count)
    (h2 : st'.count = st2.count) : Labelled n calls st st' c :=
  ⟨by rw [h2, h.count, h1], by rw [h2, ← h1]; exact h.drawn, h.targets⟩

theorem congr (h : Labelled n calls st st' c) (hn : n = n') (hc : calls = calls') :
    Labelled n' calls' st st' c := hn ▸ hc ▸ h

/-- The lines that go with one number: its labels, and jumps to them. -/
theorem bump (st : AsmState) (kind : LabelKind)
    (hl : labels c = kind.ends.map (kind.label (st.count kind)))
    (ht : Rv32.targets c ⊆ labels c) : Labelled kind.one [] st (st.bump kind) c := by
  refine ⟨by rw [AsmState.count_bump, update_count], ?_, fun l hmem => Or.inl (ht hmem)⟩
  rw [AsmState.count_bump, hl]
  exact Drawn.take labelScheme _ kind

end Labelled

/-! ### Expressions

`&&` and `||` make labels of their own, everything else only has those of its parts.
-/

theorem targets_of_moves (h : ∀ x ∈ c, FrameMove x) : targets c = [] := by
  refine List.filterMap_eq_nil_iff.mpr ?_
  intro x hx
  cases h x hx <;> rfl

@[simp] theorem targets_storeCode (regs : List Reg) (off : Nat) :
    targets (storeCode regs off) = [] :=
  targets_of_moves storeCode_moves

@[simp] theorem targets_loadCode (regs : List Reg) (off : Nat) : targets (loadCode regs off) = [] :=
  targets_of_moves loadCode_moves

@[simp] theorem targets_restoreCode (regs : List Reg) (off : Nat) :
    targets (restoreCode regs off) = [] :=
  targets_of_moves restoreCode_moves

/-- The operators that take no label. -/
private theorem opLabels_eq_zero {opType : TokenType} (h : opType ≠ .logAnd)
    (h' : opType ≠ .logOr) : opLabels opType = 0 := by
  cases opType <;> first | rfl | contradiction

/-- The code of an operator takes the labels counted for it. -/
theorem OpCode.labelled {left right reg : Temp} {opType : TokenType}
    (h : OpCode left right st opType reg st' c) : Labelled (opLabels opType) [] st st' c := by
  cases h with
  | inPlace h =>
      rw [opLabels_eq_zero (by rintro rfl; simp [arithOp] at h)
        (by rintro rfl; simp [arithOp] at h)]
      exact Labelled.plain (by simp) rfl (by simp [Instr.target])
  | direct h hreg =>
      rw [opLabels_eq_zero (by rintro rfl; simp [directOp] at h)
        (by rintro rfl; simp [directOp] at h)]
      exact Labelled.plain (by simp [AsmState.releaseBoth]) rfl (by simp [Instr.target])
  | inverted h hreg htmp =>
      rw [opLabels_eq_zero (by rintro rfl; simp [invertedOp] at h)
        (by rintro rfl; simp [invertedOp] at h)]
      exact Labelled.plain (by simp [AsmState.releaseBoth]) rfl (by simp [Instr.target])
  | equal hreg | notEqual hreg =>
      exact Labelled.plain (by simp [AsmState.releaseBoth]) rfl (by simp [Instr.target])
  | logAnd hreg | logOr hreg =>
      refine Labelled.of_count (Labelled.bump st _ rfl ?_) rfl ?_
      · simp [logicCode, Instr.target]
      · simp [AsmState.releaseBoth, AsmState.count_bump]

/-- The code of an expression takes the numbers counted for it. -/
def EvalLabelled (g : Gen Temp) (n : LabelKind → Nat) (calls : List String) : Prop :=
  ∀ ⦃st reg st' c⦄, g st = .ok (reg, st', c) → Labelled n calls st st' c

theorem evalIntConst_labelled (value : Int) : EvalLabelled (evalIntConst value) 0 [] := by
  intro st reg st' c h
  obtain ⟨-, rfl, rfl⟩ := evalIntConst_eq_ok.mp h
  exact Labelled.plain (by simp) rfl (by simp [Instr.target])

theorem evalIdent_labelled (symbol : Option SymId) : EvalLabelled (evalIdent symbol) 0 [] := by
  intro st reg st' c h
  obtain ⟨id, e, -, -, -, rfl, rfl⟩ := evalIdent_eq_ok.mp h
  refine Labelled.plain (by simp) rfl ?_
  rcases identInstr_cases e reg with ⟨v, hi⟩ | ⟨off, hi⟩ <;> simp [hi, Instr.target]

theorem evalLval_labelled (kind : AstLValueKind) (ident : AstNode) :
    EvalLabelled (evalLval kind ident) 0 [] := by
  intro st reg st' c h
  obtain ⟨value, id, e, -, -, -, rfl, rfl⟩ := evalLval_eq_ok.mp h
  exact Labelled.plain (by simp) rfl (by simp [Instr.target])

theorem evalBinExp_labelled {l r : Gen Temp} {opType : TokenType} {nl nr : LabelKind → Nat}
    {cl cr : List String} (hl : EvalLabelled l nl cl) (hr : EvalLabelled r nr cr) :
    EvalLabelled (evalBinExp opType l r) (nl + nr + opLabels opType) (cl ++ cr) := by
  intro st reg st' c h
  obtain ⟨left, st1, c1, right, st2, c2, c3, h1, h2, hop, rfl⟩ := evalBinExp_opCode h
  refine ((hl h1).append ((hr h2).append hop.labelled)).congr (add_assoc ..).symm ?_
  rw [List.append_nil]

theorem evalUnaryExpr_labelled {e : Gen Temp} {opType : TokenType} {n : LabelKind → Nat}
    {calls : List String} (he : EvalLabelled e n calls) :
    EvalLabelled (evalUnaryExpr opType e) n calls := by
  intro st reg st' c h
  obtain ⟨rfl, tmp, st1, c1, -, h1, rfl, rfl⟩ := evalUnaryExpr_eq_ok.mp h
  have hop : Labelled 0 [] st1 (st1.release tmp) [.instr (.seqz (.t reg) (.t tmp))] :=
    Labelled.plain (by simp) rfl (by simp [Instr.target])
  exact ((((he h1).append hop).of_count (by simp) rfl)).congr (add_zero n) (List.append_nil calls)

theorem evalVarAsgn_labelled {l r : Gen Temp} {nl nr : LabelKind → Nat} {cl cr : List String}
    (hl : EvalLabelled l nl cl) (hr : EvalLabelled r nr cr) :
    EvalLabelled (evalVarAsgn l r) (nl + nr) (cl ++ cr) := by
  intro st reg st' c h
  obtain ⟨lval, st1, c1, st2, c2, h1, h2, rfl, rfl⟩ := evalVarAsgn_eq_ok.mp h
  have hop : Labelled 0 [] st2 (st2.release lval) (asgnStore lval reg) :=
    Labelled.plain (by simp) rfl (by simp [asgnStore, Instr.target])
  exact ((hl h1).append ((hr h2).append hop)).congr (by simp) (by simp)

/-- The code of the arguments takes what each of them does. -/
theorem spillArgs_labelled {args : List AstNode} {off : Nat} {u : Unit}
    (hargs : ∀ node ∈ args, EvalLabelled (evalAsm frames node) node.labelCount node.calls)
    (h : spillArgs (args.map (evalAsm frames)) off st = .ok (u, st', c)) :
    Labelled (AstNode.labelCountList args) (AstNode.callsList args) st st' c := by
  induction args generalizing st off c with
  | nil =>
      obtain ⟨-, rfl, rfl⟩ := Gen.pure_eq_ok.mp h
      exact Labelled.plain rfl rfl (by simp)
  | cons node rest ih =>
      rw [List.map_cons, spillArgs_cons_eq_ok] at h
      obtain ⟨r, st1, c1, c2, hg, h, rfl⟩ := h
      have hop : Labelled 0 [] st1 (st1.release r)
          [.instr (.sw (.t r) (-((off + registerSize : Nat) : Int)) fp)] :=
        Labelled.plain (by simp) rfl (by simp [Instr.target])
      have hrest := ih (fun n hn => hargs n (by simp [hn])) h
      exact (((hargs node (by simp) hg).append (hop.append hrest))).congr (by
        rw [zero_add, AstNode.labelCountList]) (by rw [List.nil_append, AstNode.callsList])

/-- **The code of an expression takes the numbers counted for it, and calls what it calls.** -/
theorem evalAsm_labelled (node : AstNode) :
    EvalLabelled (evalAsm frames node) node.labelCount node.calls := by
  induction node with
  | intConst value => exact evalIntConst_labelled value
  | ident value symbol => exact evalIdent_labelled symbol
  | lval kind ident => exact evalLval_labelled kind ident
  | binExp value opType left right ihl ihr => exact evalBinExp_labelled ihl ihr
  | unaryExpr postfixExpr value opType ih => exact evalUnaryExpr_labelled ih
  | varAsgn target rval ihl ihr => exact evalVarAsgn_labelled ihl ihr
  | funcCall value args symbol ih =>
      intro st reg st' c h
      rw [evalAsm, evalAsmList_eq_map] at h
      obtain ⟨f⟩ := evalFuncCall_code h
      have hargs := spillArgs_labelled ih f.spill
      have hsave : Labelled 0 [] st (st.withFree fun _ => true)
          (storeCode (st.busy.map .t) (f.frame.size + localsBase)) :=
        Labelled.plain (by simp) (by simp) (by simp)
      rw [f.code_eq]
      have hcall : Labelled 0 [value] f.argState st'
          (loadCode (((List.finRange argLength).take (args.map (evalAsm frames)).length).map .a)
            (f.frame.size + localsBase + registerSize * st.busy.length) ++
            (.instr (.jal value) :: (restoreCode (st.busy.reverse.map .t)
              (f.frame.size + localsBase + registerSize * st.busy.length) ++
              [.instr (.mv (.t reg) (.a 0))]))) :=
        Labelled.plain (by simp [f.state_eq]) (by simp) (by simp [Instr.target])
      exact (hsave.append (hargs.append hcall)).congr (by simp [AstNode.labelCount])
        (by simp [AstNode.calls])
  | _ =>
      intro st reg st' c h
      simp [evalAsm] at h

/-! ### Statements

A statement takes its number before its parts are generated, and all its labels are made
from it.
-/

/-- Where the parts of a statement stand does not matter. -/
private theorem perm_of_count {c c' : List Line} (h : ∀ l, c.count l = c'.count l) : c.Perm c' :=
  List.perm_iff_count.mpr h

theorem discard_labelled {node : AstNode} {u : Unit}
    (h : discard (evalAsm frames node) st = .ok (u, st', c)) :
    Labelled node.labelCount node.calls st st' c := by
  obtain ⟨reg, st1, he, rfl⟩ := discard_eq_ok.mp h
  exact (evalAsm_labelled node he).of_count rfl (by simp)

theorem genForCond_labelled {label : String} {cond : AstNode} {u : Unit}
    (h : genForCond label cond.isEmptyExpr (evalAsm frames cond) st = .ok (u, st', c)) :
    ∃ c0 c1, c = c0 ++ c1 ∧ Labelled cond.labelCount cond.calls st st' c0 ∧ labels c1 = [] ∧
      targets c1 ⊆ [extendLabel label "end"] := by
  rcases genForCond_eq_ok.mp h with ⟨hempty, rfl, rfl⟩ | ⟨-, reg, st1, c1, he, rfl, rfl⟩
  · rw [AstNode.eq_emptyExpr hempty]
    exact ⟨[], [], rfl, Labelled.plain rfl rfl (by simp), rfl, by simp⟩
  · exact ⟨c1, _, rfl, (evalAsm_labelled cond he).of_count rfl (by simp),
      rfl, by simp [Instr.target]⟩

theorem genForStep_labelled {step : AstNode} {u : Unit}
    (h : genForStep step.isEmptyExpr (evalAsm frames step) st = .ok (u, st', c)) :
    Labelled step.labelCount step.calls st st' c := by
  cases hempty : step.isEmptyExpr with
  | true =>
      rw [hempty] at h
      obtain ⟨-, rfl, rfl⟩ := Gen.pure_eq_ok.mp h
      rw [AstNode.eq_emptyExpr hempty]
      exact Labelled.plain rfl rfl (by simp)
  | false =>
      rw [hempty] at h
      exact discard_labelled h

/-- What the lemmas about statements say. -/
def GenLabelled (frames : List StackFrame) (node : AstNode) : Prop :=
  ∀ ⦃st st' c⦄, genAsmNode frames node st = .ok ((), st', c) →
    Labelled node.labelCount node.calls st st' c

theorem genAsmList_labelled {l : List AstNode} (hl : ∀ node ∈ l, GenLabelled frames node)
    (h : genAsmList frames l st = .ok ((), st', c)) :
    Labelled (AstNode.labelCountList l) (AstNode.callsList l) st st' c := by
  induction l generalizing st c with
  | nil =>
      obtain ⟨-, rfl, rfl⟩ := Gen.pure_eq_ok.mp h
      exact Labelled.plain rfl rfl (by simp)
  | cons node rest ih =>
      rw [genAsmList, Gen.bind_eq_ok] at h
      obtain ⟨_, st1, c1, c2, h1, h2, rfl⟩ := h
      exact (hl node (by simp) h1).append (ih (fun n hn => hl n (by simp [hn])) h2)

/-- An `if` takes one number of each of its two kinds, whether it has an `else` or not. -/
theorem genIf_labelled {ifExpr ifBody elseBody : AstNode} (hb : GenLabelled frames ifBody)
    (he : GenLabelled frames elseBody) : GenLabelled frames (.ifElse ifExpr ifBody elseBody) := by
  intro st st' c h
  rw [genAsmNode, genIf_eq_ok] at h
  obtain ⟨reg, st1, c1, st2, c2, c3, h1, h2, h3, rfl⟩ := h
  have hif : Labelled LabelKind.if_.one [] st (st.bump .if_) [.label (st.baseLabel .if_)] :=
    Labelled.bump st .if_
      (by simp [LabelKind.ends, LabelKind.label, extendLabel, AsmState.baseLabel])
      (by simp)
  have helse : Labelled LabelKind.else_.one [] (st.bump .if_) ((st.bump .if_).bump .else_)
      [.instr (.beq (.t reg) .zero ((st.bump .if_).baseLabel .else_)),
        .label ((st.bump .if_).baseLabel .else_)] :=
    Labelled.bump _ .else_
      (by simp [LabelKind.ends, LabelKind.label, extendLabel, AsmState.baseLabel])
      (by simp [Instr.target])
  have hcond : Labelled ifExpr.labelCount ifExpr.calls ((st.bump .if_).bump .else_)
      (st1.release reg) c1 := (evalAsm_labelled ifExpr h1).of_count rfl (by simp)
  have helseBody : Labelled elseBody.labelCount elseBody.calls st2 st' c3 := by
    split at h3
    · exact he h3
    · rename_i hnull
      obtain ⟨-, rfl, rfl⟩ := Gen.pure_eq_ok.mp h3
      rw [AstNode.eq_null hnull]
      exact Labelled.plain rfl rfl (by simp)
  refine ((((hif.append helse).append (hcond.append ((hb h2).append helseBody)))).perm
    (perm_of_count fun l => ?_)).congr ?_ ?_
  · simp only [List.count_append, List.count_cons, List.count_nil]
    omega
  · rw [AstNode.labelCount]
  · simp [AstNode.calls]

/-- A `while` takes one number. -/
theorem genWhile_labelled {expr body : AstNode} (hb : GenLabelled frames body) :
    GenLabelled frames (.while_ expr body) := by
  intro st st' c h
  rw [genAsmNode, genWhile_eq_ok] at h
  obtain ⟨reg, st1, c1, c2, h1, h2, rfl⟩ := h
  have hwhile : Labelled LabelKind.while_.one [] st (st.bump .while_)
      [.label (st.label .while_ "start"), .label (st.label .while_ "end"),
        .instr (.beq (.t reg) .zero (st.label .while_ "end")),
        .instr (.j (st.label .while_ "start"))] :=
    Labelled.bump st .while_ rfl (by simp [Instr.target])
  have hcond : Labelled expr.labelCount expr.calls (st.bump .while_) (st1.release reg) c1 :=
    (evalAsm_labelled expr h1).of_count rfl (by simp)
  refine ((hwhile.append (hcond.append (hb h2))).perm (perm_of_count fun l => ?_)).congr rfl rfl
  simp only [List.count_append, List.count_cons, List.count_nil]
  omega

/-- A `for` takes one number. -/
theorem genFor_labelled {init cond step body : AstNode} (hi : GenLabelled frames init)
    (hb : GenLabelled frames body) : GenLabelled frames (.for_ init cond step body) := by
  intro st st' c h
  rw [genAsmNode, genFor_eq_ok] at h
  obtain ⟨st1, ci, cl, h1, h2, rfl⟩ := h
  obtain ⟨st2, cc, st3, cb, cs, h3, h4, h5, rfl⟩ := genForLoop_eq_ok.mp h2
  obtain ⟨c0, c1, rfl, hcond, hl1, ht1⟩ := genForCond_labelled h3
  have hfor : Labelled LabelKind.for_.one [] st (st.bump .for_)
      (.label (st.label .for_ "init") :: .label (st.label .for_ "cond") ::
        .label (st.label .for_ "body") :: .label (st.label .for_ "step") ::
        .label (st.label .for_ "end") :: .instr (.j (st.label .for_ "cond")) :: c1) := by
    refine Labelled.bump st .for_ ?_ ?_
    · simp [hl1, LabelKind.ends, LabelKind.label, AsmState.label, AsmState.baseLabel]
    · intro l hl
      simp only [targets_cons_label, targets_cons_instr, Instr.target, Option.toList_some,
        List.singleton_append, List.mem_cons] at hl
      rcases hl with rfl | hl
      · simp
      · have := ht1 hl
        simp_all [AsmState.label]
  have hinit : Labelled init.labelCount init.calls (st.bump .for_) st1 ci := by
    unfold genForInit at h1
    split at h1
    · exact hi h1
    · exact discard_labelled h1
  refine ((hfor.append (hinit.append (hcond.append ((hb h4).append (genForStep_labelled h5))))).perm
    (perm_of_count fun l => ?_)).congr ?_ ?_
  · simp only [AsmState.label, List.count_append, List.count_cons, List.count_nil]
    omega
  · rw [AstNode.labelCount]
  · simp [AstNode.calls]

/-- **The code of a statement takes the numbers counted for it, and calls what it calls.** -/
theorem genAsmNode_labelled {node : AstNode} (hff : node.funcFree = true) :
    GenLabelled frames node := by
  induction node with
  | ret expr func ih =>
      intro st st' c h
      rw [genAsmNode, genRet_eq_ok] at h
      obtain ⟨id, e, fid, fr, c1, -, -, -, -, hv, rfl⟩ := h
      have hend : Labelled 0 [] st' st' (epilogueCode (frameSize fr.size)
          ++ [.instr (.jalr .ra)]) :=
        Labelled.plain rfl rfl (by simp [epilogueCode, Instr.target])
      have hvalue : Labelled expr.labelCount expr.calls st st' c1 := by
        rcases genRetValue_eq_ok.mp hv with ⟨-, hg⟩ | ⟨-, reg, st1, c2, he, rfl, rfl⟩
        · exact ih hff hg
        · have hmv : Labelled 0 [] st1 (st1.release reg) [.instr (.mv (.a 0) (.t reg))] :=
            Labelled.plain (by simp) rfl (by simp [Instr.target])
          exact ((evalAsm_labelled expr he).append hmv).congr (add_zero _) (List.append_nil _)
      exact (hvalue.append hend).congr (add_zero _) (List.append_nil _)
  | ifElse ifExpr ifBody elseBody _ ihb ihe =>
      simp only [AstNode.funcFree, Bool.and_eq_true] at hff
      exact genIf_labelled (ihb hff.1.2) (ihe hff.2)
  | compStmt body ih =>
      intro st st' c h
      rw [AstNode.funcFree, funcFreeList_iff] at hff
      exact genAsmList_labelled (fun n hn => ih n hn (hff n hn)) h
  | funcDef value type body params symbol _ => simp [AstNode.funcFree] at hff
  | varDef value type expr symbol _ =>
      intro st st' c h
      rw [genAsmNode, genVarDef_eq_ok] at h
      obtain ⟨id, e, reg, st1, c1, -, -, he, rfl, rfl⟩ := h
      have hsw : Labelled 0 [] st1 (st1.release reg)
          [.instr (.sw (.t reg) (-((e.offset + localsBase : Nat) : Int)) fp)] :=
        Labelled.plain (by simp) rfl (by simp [Instr.target])
      exact ((evalAsm_labelled expr he).append hsw).congr (add_zero _) (List.append_nil _)
  | while_ expr body _ ihb =>
      simp only [AstNode.funcFree, Bool.and_eq_true] at hff
      exact genWhile_labelled (ihb hff.2)
  | for_ init cond step body ihi _ _ ihb =>
      simp only [AstNode.funcFree, Bool.and_eq_true] at hff
      exact genFor_labelled (ihi hff.1.1.1) (ihb hff.2)
  | exprStmt expr _ =>
      intro st st' c h
      rw [genAsmNode] at h
      split at h
      · have hexpr : Labelled expr.labelCount expr.calls st st' c := discard_labelled h
        exact hexpr
      · rename_i hempty
        have hexpr : expr = .emptyExpr := AstNode.eq_emptyExpr (by simpa using hempty)
        obtain ⟨-, rfl, rfl⟩ := Gen.pure_eq_ok.mp h
        rw [hexpr]
        exact Labelled.plain rfl rfl (by simp)
  | enum | emptyExpr | varDec =>
      intro st st' c h
      obtain ⟨-, rfl, rfl⟩ := Gen.pure_eq_ok.mp h
      exact Labelled.plain rfl rfl (by simp)
  | _ =>
      intro st st' c h
      simp [genAsmNode] at h

/-! ### Programs

The labels of functions are their names, and `_start` is the one in front of all.
-/

@[simp] theorem labels_prologueCode (frame : Nat) : labels (prologueCode frame) = [] := by
  simp [prologueCode]

@[simp] theorem targets_prologueCode (frame : Nat) : targets (prologueCode frame) = [] := by
  simp [prologueCode, Instr.target]

@[simp] theorem labels_funcEndCode (type : String) (frame : Nat) :
    labels (funcEndCode type frame) = [] := by
  unfold funcEndCode
  split <;> simp [epilogueCode]

@[simp] theorem targets_funcEndCode (type : String) (frame : Nat) :
    targets (funcEndCode type frame) = [] := by
  unfold funcEndCode
  split <;> simp [epilogueCode, Instr.target]

/-- The code of some functions: their names as labels, and what their bodies take. -/
structure ProgLabelled (prog : List AstNode) (st st' : AsmState) (c : List Line) : Prop where
  made : ∃ ls, Drawn labelScheme st.count (st.count + AstNode.labelCountList prog) ls ∧
    (labels c).Perm (funcNames prog ++ ls)
  count : st'.count = st.count + AstNode.labelCountList prog
  targets : ∀ l ∈ targets c, l ∈ labels c ∨ l ∈ AstNode.callsList prog

/-- The functions of a program in a row, each with its name as a label. -/
theorem genAsmList_progLabelled {prog : List AstNode} (hprog : ∀ n ∈ prog, n.isFuncDef = true)
    (h : genAsmList frames prog st = .ok ((), st', c)) : ProgLabelled prog st st' c := by
  induction prog generalizing st c with
  | nil =>
      obtain ⟨-, rfl, rfl⟩ := Gen.pure_eq_ok.mp h
      have hcount : st'.count + AstNode.labelCountList [] = st'.count := add_zero _
      exact ⟨⟨[], by rw [hcount]; exact Drawn.nil _, List.Perm.refl _⟩, hcount.symm, by simp⟩
  | cons node rest ih =>
      rw [genAsmList, Gen.bind_eq_ok] at h
      obtain ⟨_, st1, c1, c2, h1, h2, rfl⟩ := h
      obtain ⟨⟨ls, hdrawn, hperm⟩, hcount, htargets⟩ := ih (fun n hn => hprog n (by simp [hn])) h2
      have hnode := hprog node (by simp)
      obtain ⟨value, type, body, params, symbol, rfl⟩ := AstNode.eq_funcDef hnode
      have hff := funcFree_of_isFuncDef hnode
      rw [genAsmNode, genFuncDef_eq_ok] at h1
      obtain ⟨id, e, fid, fr, cb, -, -, -, -, -, hb, rfl⟩ := h1
      have hbody : Labelled (AstNode.labelCountList body) (AstNode.callsList body) st st1 cb :=
        (genAsmNode_labelled hff hb).of_count (by funext k; cases k <;> rfl) rfl
      have hsum : st.count +
          AstNode.labelCountList (.funcDef value type (.compStmt body) params symbol :: rest)
          = st1.count + AstNode.labelCountList rest := by
        rw [hbody.count, add_assoc]
        rfl
      refine ⟨⟨labels cb ++ ls, ?_, ?_⟩, by rw [hcount, hsum], fun l hl => ?_⟩
      · rw [hsum]
        exact hbody.drawn.append hdrawn
      · simp only [labels_append, labels_cons_label, labels_prologueCode, labels_funcEndCode,
          List.nil_append, List.append_nil, funcNames, List.cons_append]
        refine List.Perm.cons value (List.perm_iff_count.mpr fun l => ?_)
        have := hperm.count_eq l
        simp only [List.count_append] at this ⊢
        omega
      · simp only [targets_append, targets_cons_label, targets_prologueCode, targets_funcEndCode,
          List.nil_append, List.append_nil, List.mem_append] at hl
        simp only [labels_append, labels_cons_label, labels_prologueCode, labels_funcEndCode,
          List.nil_append, List.append_nil, List.cons_append, List.mem_cons, List.mem_append,
          AstNode.callsList, AstNode.calls]
        rcases hl with hl | hl
        · rcases hbody.targets l hl with hl | hl
          · exact Or.inl (Or.inr (Or.inl hl))
          · exact Or.inr (Or.inl hl)
        · rcases htargets l hl with hl | hl
          · exact Or.inl (Or.inr (Or.inr hl))
          · exact Or.inr (Or.inr hl)

/-- What a file is to satisfy: its labels are unambiguous, and its functions jump to labels only. -/
structure LabelsDefined (P : List Line) : Prop where
  nodup : (labels P).Nodup
  targets : ∀ l ∈ targets (P.drop startCode.length), l ∈ labels P

/--
**The labels of a file are unambiguous exactly if no function is called like another label.**
-/
theorem labelsDefined_iff {uninit : Int} {arena : SymId → Nat} {tokens : List Token}
    {r : SemaResult} {P : List Line} (hacc : Accepted uninit arena tokens r)
    (hasm : genAsm r = .ok P) : LabelsDefined P ↔ labelsApart r.prog = true := by
  obtain ⟨st', c, hgen, rfl⟩ := genAsm_eq_ok.mp hasm
  obtain ⟨⟨ls, hdrawn, hperm⟩, -, htargets⟩ := genAsmList_progLabelled hacc.isFuncDef hgen
  obtain ⟨hcalls, hnames⟩ := hacc.calls
  have hls : ∀ l, l ∈ ls ↔ l ∈ generatedLabels r.prog := by
    intro l
    have hzero : (makeRiscv r.entries).count = 0 := by
      funext k
      cases k <;> rfl
    rw [hdrawn.mem, mem_generatedLabels, hzero, zero_add]
    constructor
    · rintro ⟨k, i, e, -, hi, he, rfl⟩
      exact ⟨k, i, e, hi, he, rfl⟩
    · rintro ⟨k, i, e, hi, he, rfl⟩
      exact ⟨k, i, e, Nat.zero_le i, hi, he, rfl⟩
  have hstart : "_start" ∉ ls := by
    rw [hls, mem_generatedLabels]
    rintro ⟨k, i, e, -, he, h⟩
    exact label_ne_start he i h.symm
  have hlabels : (labels (startCode ++ c)).Perm ("_start" :: (funcNames r.prog ++ ls)) :=
    hperm.cons "_start"
  have hdef : ∀ l ∈ targets ((startCode ++ c).drop startCode.length),
      l ∈ labels (startCode ++ c) := by
    intro l hl
    rw [List.drop_left] at hl
    rw [labels_append]
    refine List.mem_append_right _ ?_
    rcases htargets l hl with h | h
    · exact h
    · exact hperm.mem_iff.mpr (List.mem_append_left _ (hcalls h))
  have hiff : (labels (startCode ++ c)).Nodup ↔ labelsApart r.prog = true := by
    rw [hlabels.nodup_iff, List.nodup_cons, List.nodup_append', List.mem_append, not_or]
    simp only [labelsApart, List.all_eq_true, Bool.and_eq_true, decide_eq_true_eq, ← hls]
    constructor
    · rintro ⟨⟨hs, -⟩, -, -, hdis⟩ f hf
      exact ⟨fun h => hs (h ▸ hf), fun h => hdis hf h⟩
    · intro h
      exact ⟨⟨fun hs => (h _ hs).1 rfl, hstart⟩, hnames, hdrawn.nodup, fun f hf hl => (h f hf).2 hl⟩
  exact ⟨fun h => hiff.mp h.nodup, fun h => ⟨hiff.mpr h, hdef⟩⟩

/-- `int <name>() { if (1) return 0; }` -/
def ifTokens (name : String) : List Token :=
  [tok .type "int", tok .ident name, tok .lparen "(", tok .rparen ")", tok .lbrace "\x7b",
    tok .if_ "if", tok .lparen "(", tok .num "1", tok .rparen ")",
    tok .return_ "return", tok .num "0", tok .semicolon ";", tok .rbrace "\x7d"]

theorem labelsDefined_iff_main : ∃ r P, Accepted 0 (fun _ => 0) (ifTokens "main") r ∧
    genAsm r = .ok P ∧ LabelsDefined P := by
  have hacc : ∃ r P, Accepted 0 (fun _ => 0) (ifTokens "main") r ∧ genAsm r = .ok P ∧
      labelsApart r.prog = true := ⟨_, _, ⟨_, _, rfl, rfl⟩, rfl, by decide⟩
  obtain ⟨r, P, hacc, hasm, h⟩ := hacc
  exact ⟨r, P, hacc, hasm, (labelsDefined_iff hacc hasm).mpr h⟩

theorem ifTokens_not_labelsDefined : ∃ r P, Accepted 0 (fun _ => 0) (ifTokens "if0") r ∧
    genAsm r = .ok P ∧ (labels P).count "if0" = 2 ∧ ¬ LabelsDefined P := by
  have hacc : ∃ r P, Accepted 0 (fun _ => 0) (ifTokens "if0") r ∧ genAsm r = .ok P ∧
      (labels P).count "if0" = 2 := ⟨_, _, ⟨_, _, rfl, rfl⟩, rfl, by decide⟩
  obtain ⟨r, P, hacc, hasm, h⟩ := hacc
  refine ⟨r, P, hacc, hasm, h, fun hdef => ?_⟩
  have := List.nodup_iff_count_le_one.mp hdef.nodup "if0"
  omega

end MyLang
