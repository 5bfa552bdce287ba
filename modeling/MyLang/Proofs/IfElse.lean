/-
Which branches of an `if` statement are executed.

`gen_if` writes the code of the `else` branch directly behind that of the other one, with
the label of the jump between them and no jump around it.  So control comes from the end
of the one branch to the start of the other, and just one of them is executed only where
the first one is not taken, is not run through, or has nothing behind it.

What is needed for it of the bodies is that their code keeps control: its branches and
jumps land in it.

Whether a body is run through depends on what it computes, and may depend on what the
functions that it calls do.  So it is not read off the tree: `FallsThrough` says of the
code of the body that an activation gets to its end, and `runsOneBranch_iff` has that as
its condition.  The runs are those of one activation (`Lib/CallSteps.lean`), in which a
call is one step, so that what a function called executes is not taken for a line of the
statement.

The code of an `if` is a few pieces in a row, and `IfCodeAt` has the line of each of them.
-/
import MyLang.Lib.Activation
import MyLang.Proofs.Calls
import MyLang.Proofs.StmtGen
import MyLang.Proofs.PureExpr
import MyLang.Compiler

namespace MyLang

open Rv32

variable {frames : List StackFrame} {st st' : AsmState} {c c1 c2 : List Line} {u : Unit}

/-! ### The code of expressions keeps control

Only `&&` and `||` jump, and to labels of their own; a call comes back.
-/

theorem jumpsTo_of_moves (ls : List String) (h : ∀ x ∈ c, FrameMove x) : JumpsTo ls c := by
  intro i hi l hl
  cases h _ hi <;> simp [Instr.jump] at hl

theorem OpCode.jumpsInside {left right reg : Temp} {opType : TokenType}
    (h : OpCode left right st opType reg st' c) : JumpsInside c := by
  unfold JumpsInside
  cases h <;> simp [logicCode, Instr.jump]

/-- The code of an expression keeps control. -/
def EvalKeeps (g : Gen Temp) : Prop := ∀ ⦃st reg st' c⦄, g st = .ok (reg, st', c) → JumpsInside c

theorem evalIntConst_keeps (value : Int) : EvalKeeps (evalIntConst value) := by
  intro st reg st' c h
  obtain ⟨-, -, rfl⟩ := evalIntConst_eq_ok.mp h
  simp [JumpsInside, Instr.jump]

theorem evalIdent_keeps (symbol : Option SymId) : EvalKeeps (evalIdent symbol) := by
  intro st reg st' c h
  obtain ⟨id, e, -, -, -, -, rfl⟩ := evalIdent_eq_ok.mp h
  rcases identInstr_cases e reg with ⟨v, hi⟩ | ⟨off, hi⟩ <;> simp [hi, JumpsInside, Instr.jump]

theorem evalLval_keeps (kind : AstLValueKind) (ident : AstNode) :
    EvalKeeps (evalLval kind ident) := by
  intro st reg st' c h
  obtain ⟨value, id, e, -, -, -, -, rfl⟩ := evalLval_eq_ok.mp h
  simp [JumpsInside, Instr.jump]

theorem evalBinExp_keeps {l r : Gen Temp} {opType : TokenType} (hl : EvalKeeps l)
    (hr : EvalKeeps r) : EvalKeeps (evalBinExp opType l r) := by
  intro st reg st' c h
  obtain ⟨left, st1, c1, right, st2, c2, c3, h1, h2, hop, rfl⟩ := evalBinExp_opCode h
  exact (hl h1).append ((hr h2).append hop.jumpsInside)

theorem evalUnaryExpr_keeps {e : Gen Temp} {opType : TokenType} (he : EvalKeeps e) :
    EvalKeeps (evalUnaryExpr opType e) := by
  intro st reg st' c h
  obtain ⟨rfl, tmp, st1, c1, -, h1, -, rfl⟩ := evalUnaryExpr_eq_ok.mp h
  exact (he h1).append (by simp [JumpsInside, Instr.jump])

theorem evalVarAsgn_keeps {l r : Gen Temp} (hl : EvalKeeps l) (hr : EvalKeeps r) :
    EvalKeeps (evalVarAsgn l r) := by
  intro st reg st' c h
  obtain ⟨lval, st1, c1, st2, c2, h1, h2, -, rfl⟩ := evalVarAsgn_eq_ok.mp h
  exact (hl h1).append ((hr h2).append (by simp [asgnStore, JumpsInside, Instr.jump]))

theorem spillArgs_keeps {args : List (Gen Temp)} {off : Nat} (hargs : ∀ g ∈ args, EvalKeeps g)
    (h : spillArgs args off st = .ok (u, st', c)) : JumpsInside c := by
  induction args generalizing st off c with
  | nil =>
      obtain ⟨-, -, rfl⟩ := Gen.pure_eq_ok.mp h
      exact jumpsTo_nil _
  | cons g rest ih =>
      obtain ⟨r, st1, c1, c2, hg, hrest, rfl⟩ := spillArgs_cons_eq_ok.mp h
      have hrest := ih (fun g hg => hargs g (by simp [hg])) hrest
      refine (hargs g (by simp) hg).append ?_
      unfold JumpsInside
      rw [labels_cons_instr, jumpsTo_cons_instr]
      exact ⟨by simp [Instr.jump], hrest⟩

/-- The branches and jumps in the code of an expression land in it. -/
theorem evalAsm_keeps (node : AstNode) : EvalKeeps (evalAsm frames node) := by
  induction node with
  | intConst value => exact evalIntConst_keeps value
  | ident value symbol => exact evalIdent_keeps symbol
  | lval kind ident => exact evalLval_keeps kind ident
  | binExp value opType left right ihl ihr => exact evalBinExp_keeps ihl ihr
  | unaryExpr postfixExpr value opType ih => exact evalUnaryExpr_keeps ih
  | varAsgn target rval ihl ihr => exact evalVarAsgn_keeps ihl ihr
  | funcCall value args symbol ih =>
      intro st reg st' c h
      rw [evalAsm, evalAsmList_eq_map] at h
      obtain ⟨f⟩ := evalFuncCall_code h
      have hargs : JumpsInside f.argCode := spillArgs_keeps (fun g hg => by
        obtain ⟨n, hn, rfl⟩ := List.mem_map.mp hg
        exact ih n hn) f.spill
      rw [f.code_eq]
      refine JumpsInside.append (jumpsTo_of_moves _ storeCode_moves) (hargs.append ?_)
      refine JumpsInside.append (jumpsTo_of_moves _ loadCode_moves) ?_
      unfold JumpsInside
      rw [jumpsTo_cons_instr, jumpsTo_append]
      exact ⟨by simp [Instr.jump], jumpsTo_of_moves _ restoreCode_moves, by simp [Instr.jump]⟩
  | _ =>
      intro st reg st' c h
      simp [evalAsm] at h

/-! ### The code of statements keeps control

A loop jumps back to its head and out of it to its end, both of which are lines of its
code.  A `return` leaves the function and jumps nowhere in it.
-/

theorem genForCond_keeps {label : String} {condEmpty : Bool} {cond : AstNode}
    (h : genForCond label condEmpty (evalAsm frames cond) st = .ok (u, st', c)) :
    JumpsTo (extendLabel label "end" :: labels c) c := by
  rcases genForCond_eq_ok.mp h with ⟨-, -, rfl⟩ | ⟨-, reg, st1, c1, he, -, rfl⟩
  · exact jumpsTo_nil _
  · rw [jumpsTo_append, labels_append]
    refine ⟨(evalAsm_keeps cond he).mono ?_, by simp [Instr.jump]⟩
    intro l hl
    simp [hl]

theorem discard_keeps {node : AstNode} (h : discard (evalAsm frames node) st = .ok (u, st', c)) :
    JumpsInside c := by
  obtain ⟨reg, st1, he, -⟩ := discard_eq_ok.mp h
  exact evalAsm_keeps node he

theorem genAsmList_keeps {l : List AstNode}
    (ih : ∀ n ∈ l, ∀ {st st' c}, genAsmNode frames n st = .ok ((), st', c) → JumpsInside c)
    (h : genAsmList frames l st = .ok ((), st', c)) : JumpsInside c := by
  induction l generalizing st c with
  | nil =>
      obtain ⟨-, -, rfl⟩ := Gen.pure_eq_ok.mp h
      exact jumpsTo_nil _
  | cons node rest ihl =>
      rw [genAsmList, Gen.bind_eq_ok] at h
      obtain ⟨_, st1, c1, c2, h1, h2, rfl⟩ := h
      exact (ih node (by simp) h1).append (ihl (fun n hn => ih n (by simp [hn])) h2)

theorem epilogue_keeps (frame : Nat) :
    JumpsInside (epilogueCode frame ++ [.instr (.jalr .ra)]) := by
  simp [JumpsInside, epilogueCode, Instr.jump]

/-- **The branches and jumps in the code of a statement land in it.** -/
theorem genAsmNode_keeps {node : AstNode} (h : genAsmNode frames node st = .ok ((), st', c)) :
    JumpsInside c := by
  induction node generalizing st st' c with
  | ret expr func ih =>
      rw [genAsmNode, genRet_eq_ok] at h
      obtain ⟨-, -, -, frame, c1, -, -, -, -, hv, rfl⟩ := h
      refine JumpsInside.append ?_ (epilogue_keeps _)
      rcases genRetValue_eq_ok.mp hv with ⟨-, hg⟩ | ⟨-, reg, st1, c0, he, -, rfl⟩
      · exact ih hg
      · exact (evalAsm_keeps expr he).append (by simp [JumpsInside, Instr.jump])
  | ifElse ifExpr ifBody elseBody _ ihb ihe =>
      rw [genAsmNode, genIf_eq_ok] at h
      obtain ⟨reg, st1, c1, st2, c2, c3, he, hb, helse, rfl⟩ := h
      have h3 : JumpsInside c3 := by
        split at helse
        · exact ihe helse
        · obtain ⟨-, -, rfl⟩ := Gen.pure_eq_ok.mp helse
          exact jumpsTo_nil _
      unfold JumpsInside
      simp only [labels_cons_label, labels_append, labels_cons_instr, jumpsTo_cons_label,
        jumpsTo_append, jumpsTo_cons_instr]
      refine ⟨(evalAsm_keeps ifExpr he).mono ?_, by simp [Instr.jump], (ihb hb).mono ?_, h3.mono ?_⟩
        <;> intro l hl <;> simp [hl]
  | compStmt body ih => exact genAsmList_keeps ih h
  | funcDef value type body params symbol ih =>
      rw [genAsmNode, genFuncDef_eq_ok] at h
      obtain ⟨-, -, -, frame, c1, -, -, -, -, -, hb, rfl⟩ := h
      have hpro : JumpsInside (prologueCode (frameSize frame.size)) := by
        simp [JumpsInside, prologueCode, Instr.jump, jumpsTo_of_moves _ storeCode_moves]
      have hend : JumpsInside (funcEndCode type (frameSize frame.size)) := by
        unfold funcEndCode
        split
        · exact epilogue_keeps _
        · simp [JumpsInside, Instr.jump]
      unfold JumpsInside
      rw [jumpsTo_cons_label]
      exact (hpro.append ((ih hb).append hend)).mono (List.subset_cons_self _ _)
  | varDef value type expr symbol _ =>
      rw [genAsmNode, genVarDef_eq_ok] at h
      obtain ⟨-, -, reg, st1, c1, -, -, he, -, rfl⟩ := h
      exact (evalAsm_keeps expr he).append (by simp [JumpsInside, Instr.jump])
  | while_ expr body _ ihb =>
      rw [genAsmNode, genWhile_eq_ok] at h
      obtain ⟨reg, st1, c1, c2, he, hb, rfl⟩ := h
      unfold JumpsInside
      simp only [labels_cons_label, labels_append, labels_cons_instr, jumpsTo_cons_label,
        jumpsTo_append, jumpsTo_cons_instr]
      refine ⟨(evalAsm_keeps expr he).mono ?_, by simp [Instr.jump], (ihb hb).mono ?_,
        by simp [Instr.jump], jumpsTo_nil _⟩ <;> intro l hl <;> simp [hl]
  | for_ init cond step body ihi _ _ ihb =>
      rw [genAsmNode, genFor_eq_ok] at h
      obtain ⟨st1, c1, c2, hi, hloop, rfl⟩ := h
      obtain ⟨st2, c3, st3, c4, c5, hcond, hb, hstep, rfl⟩ := genForLoop_eq_ok.mp hloop
      have hinit : JumpsInside c1 := by
        unfold genForInit at hi
        split at hi
        · exact ihi hi
        · exact discard_keeps hi
      have hnext : JumpsInside c5 := by
        unfold genForStep at hstep
        split at hstep
        · exact discard_keeps hstep
        · obtain ⟨-, -, rfl⟩ := Gen.pure_eq_ok.mp hstep
          exact jumpsTo_nil _
      unfold JumpsInside
      simp only [labels_cons_label, labels_append, labels_cons_instr, jumpsTo_cons_label,
        jumpsTo_append, jumpsTo_cons_instr]
      refine ⟨hinit.mono ?_, (genForCond_keeps hcond).mono ?_, (ihb hb).mono ?_, hnext.mono ?_,
        by simp [Instr.jump], jumpsTo_nil _⟩
      all_goals intro l hl
      · simp [hl]
      · rcases List.mem_cons.mp hl with rfl | hl
        · simp
        · simp [hl]
      · simp [hl]
      · simp [hl]
  | exprStmt expr _ =>
      rw [genAsmNode] at h
      split at h
      · exact discard_keeps h
      · obtain ⟨-, -, rfl⟩ := Gen.pure_eq_ok.mp h
        exact jumpsTo_nil _
  | enum | emptyExpr | varDec =>
      obtain ⟨-, -, rfl⟩ := Gen.pure_eq_ok.mp h
      exact jumpsTo_nil _
  | _ => simp [genAsmNode] at h

/-! ### The parts of an `if` statement

The condition, the branch, the first body, the label, the other body.
-/

/-- The code of an `if` statement with an `else` branch, in its parts. -/
structure IfCode (frames : List StackFrame) (ifExpr ifBody elseBody : AstNode) (st st' : AsmState)
    (c : List Line) where
  reg : Temp
  st1 : AsmState
  st2 : AsmState
  condCode : List Line
  thenCode : List Line
  elseCode : List Line
  cond_eq : evalAsm frames ifExpr ((st.bump .if_).bump .else_) = .ok (reg, st1, condCode)
  then_eq : genAsmNode frames ifBody (st1.release reg) = .ok ((), st2, thenCode)
  else_eq : genAsmNode frames elseBody st2 = .ok ((), st', elseCode)
  code_eq : c = .label (st.baseLabel .if_) :: (condCode ++ .instr (.beq (.t reg) .zero
    ((st.bump .if_).baseLabel .else_)) :: (thenCode ++
      .label ((st.bump .if_).baseLabel .else_) :: elseCode))

theorem genIf_code {ifExpr ifBody elseBody : AstNode} (hne : elseBody.nonNull = true)
    (h : genAsmNode frames (.ifElse ifExpr ifBody elseBody) st = .ok ((), st', c)) :
    Nonempty (IfCode frames ifExpr ifBody elseBody st st' c) := by
  rw [genAsmNode, genIf_eq_ok] at h
  obtain ⟨reg, st1, c1, st2, c2, c3, h1, h2, h3, hcode⟩ := h
  rw [if_pos hne] at h3
  exact ⟨reg, st1, st2, c1, c2, c3, h1, h2, h3, hcode⟩

namespace IfCode

variable {ifExpr ifBody elseBody : AstNode} (f : IfCode frames ifExpr ifBody elseBody st st' c)
  (p : Nat)

/-- The line of the branch, if the statement stands at `p`. -/
def branchAt : Nat := p + 1 + f.condCode.length

/-- The first line of the branch that is taken if the condition is not zero. -/
def thenAt : Nat := f.branchAt p + 1

/-- The line of the label between the branches. -/
def labelAt : Nat := f.thenAt p + f.thenCode.length

/-- The first line of the `else` branch. -/
def elseAt : Nat := f.labelAt p + 1

/-- The line behind the statement. -/
def endAt : Nat := f.elseAt p + f.elseCode.length

/-- The parts stand one behind the other. -/
theorem order : p < f.branchAt p ∧ f.branchAt p < f.thenAt p ∧ f.thenAt p ≤ f.labelAt p ∧
    f.labelAt p < f.elseAt p ∧ f.elseAt p ≤ f.endAt p := by
  unfold endAt elseAt labelAt thenAt branchAt
  omega

end IfCode

/-! ### Which branch is executed

If the condition is zero the `else` body is all that is executed.  If not, it is the first
body, and behind its end comes the label and then the `else` body.
-/

variable {P : List Line} {L : Layout P.length} {m : Machine} {p : Nat}

/--
In a statement whose code is between `lo` and `hi`, an activation runs the code from `a` to
`b` and none of that from `a'` to `b'`.  It leaves the statement behind its end only, and
does so if the code from `a` to `b` is run through.
-/
structure RunsBranch (L : Layout P.length) (lo hi a b a' b' : Nat) (m : Machine) : Prop where
  starts : ∃ m', Within L lo hi m [] m' ∧ m'.pc = a
  skips : ∀ m', Within L lo hi m [] m' → ¬ (a' ≤ m'.pc ∧ m'.pc < b')
  leaves : ∀ m', Within L lo hi m [] m' → lo ≤ m'.pc ∧ m'.pc ≤ hi
  continues : ∀ m', Within L lo hi m [] m' → m'.pc = b → ∃ m'', Within L lo hi m' [] m'' ∧
    m''.pc = hi

section Branches

variable {ifExpr ifBody elseBody : AstNode} (f : IfCode frames ifExpr ifBody elseBody st st' c)

/-- With the condition evaluated in `m`, just the branch that it selects is executed. -/
structure RunsOneBranch (L : Layout P.length) (f : IfCode frames ifExpr ifBody elseBody st st' c)
    (p : Nat) (m : Machine) : Prop where
  nonzero : m.get (.t f.reg) ≠ 0 →
    RunsBranch L p (f.endAt p) (f.thenAt p) (f.labelAt p) (f.elseAt p) (f.endAt p) m
  zero : m.get (.t f.reg) = 0 →
    RunsBranch L p (f.endAt p) (f.elseAt p) (f.endAt p) (f.thenAt p) (f.labelAt p) m

/-- The branch that is taken if the condition is not zero is run through. -/
def FallsThrough (L : Layout P.length) (f : IfCode frames ifExpr ifBody elseBody st st' c)
    (p : Nat) (m : Machine) : Prop :=
  ∃ m', Within L (f.thenAt p) (f.labelAt p) m.next [] m' ∧ m'.pc = f.labelAt p

/-- Where the parts stand. -/
structure IfCodeAt (P : List Line) (f : IfCode frames ifExpr ifBody elseBody st st' c) (p : Nat) :
    Prop where
  condCode : CodeAt P (p + 1) f.condCode
  branch :
    P[f.branchAt p]? = some (.instr (.beq (.t f.reg) .zero ((st.bump .if_).baseLabel .else_)))
  thenCode : CodeAt P (f.thenAt p) f.thenCode
  label : P[f.labelAt p]? = some (.label ((st.bump .if_).baseLabel .else_))
  elseCode : CodeAt P (f.elseAt p) f.elseCode

theorem IfCode.at (hc : CodeAt P p c) : IfCodeAt P f p := by
  have h := f.code_eq ▸ hc
  rw [codeAt_cons, codeAt_append, codeAt_cons, codeAt_append, codeAt_cons] at h
  exact ⟨h.2.1, h.2.2.1, h.2.2.2.1, h.2.2.2.2.1, h.2.2.2.2.2⟩

variable {f} (hnd : (labels P).Nodup) (hat : IfCodeAt P f p) (hm : m.pc = f.branchAt p)

include hat

/-- The label between the branches is passed over. -/
theorem IfCodeAt.within_label {m' : Machine} (hm' : m'.pc = f.labelAt p) :
    Within L p (f.endAt p) m' [] m'.next := by
  have horder := f.order p
  refine Within.start.step (fun _ => ?_) (hm' ▸ hat.label) (step_label (hm' ▸ hat.label)) rfl
  omega

include hm

/-- A condition that is not zero: the next line is the first one of the branch. -/
theorem IfCodeAt.step_nonzero (hv : m.get (.t f.reg) ≠ 0) : step L m = some m.next := by
  rw [step_instr (hm ▸ hat.branch), Instr.exec, Machine.get_zero, if_neg hv]

/-- The branch itself neither calls nor returns. -/
theorem IfCodeAt.within_cases {m1 m' : Machine} {s : List Nat} {lo hi : Nat}
    (hs : step L m = some m1) (h : Within L lo hi m s m') :
    (s = [] ∧ m' = m) ∨ Within L lo hi m1 s m' :=
  h.cases_head (hm ▸ hat.branch) hs fun _ => rfl

theorem IfCodeAt.within_next (hv : m.get (.t f.reg) ≠ 0) : Within L p (f.endAt p) m [] m.next := by
  have horder := f.order p
  refine Within.start.step (fun _ => ?_) (hm ▸ hat.branch) (hat.step_nonzero hm hv) rfl
  omega

/-- From the end of the one branch control comes to the start of the other. -/
theorem IfCodeAt.not_runsOneBranch (hv : m.get (.t f.reg) ≠ 0) (hne : f.elseCode ≠ [])
    (hfall : FallsThrough L f p m) : ¬ RunsOneBranch L f p m := by
  intro h
  obtain ⟨m1, h1, hpc1⟩ := hfall
  have horder := f.order p
  have hlen := List.length_pos_iff.mpr hne
  have h2 := (hat.within_next hm hv).trans
    ((h1.mono (by omega) (by omega)).trans (hat.within_label hpc1))
  refine (h.nonzero hv).skips _ h2 ?_
  rw [Machine.next_pc, hpc1, IfCode.endAt, IfCode.elseAt]
  omega

include hnd

/-- A condition that is zero: the next line is the label between the branches. -/
theorem IfCodeAt.step_zero (hv : m.get (.t f.reg) = 0) :
    step L m = some (m.goto (f.labelAt p)) := by
  rw [step_instr (hm ▸ hat.branch), Instr.exec, Machine.get_zero, if_pos hv,
    lineOf_eq hnd hat.label]
  rfl

/-- With a condition that is not zero, the first branch is run, and perhaps left at its end. -/
theorem IfCodeAt.within_nonzero {m' : Machine} {s : List Nat} (hv : m.get (.t f.reg) ≠ 0)
    (h : Within L p (f.endAt p) m s m') :
    (s = [] ∧ m' = m) ∨ Within L (f.thenAt p) (f.labelAt p) m.next s m' ∨
      ∃ m1, Within L (f.thenAt p) (f.labelAt p) m.next [] m1 ∧ m1.pc = f.labelAt p ∧
        Within L p (f.endAt p) m1 s m' := by
  have hpc : m.next.pc = f.thenAt p := by rw [Machine.next_pc, hm, IfCode.thenAt]
  rcases hat.within_cases hm (hat.step_nonzero hm hv) h with h | h
  · exact Or.inl h
  · refine Or.inr (h.narrow hnd hat.thenCode (genAsmNode_keeps f.then_eq) ?_)
    rw [hpc]
    omega

/-- With a condition that is zero, the `else` branch is run. -/
theorem IfCodeAt.within_zero {m' : Machine} {s : List Nat} (hv : m.get (.t f.reg) = 0)
    (h : Within L p (f.endAt p) m s m') :
    (s = [] ∧ m' = m) ∨ (s = [] ∧ m' = m.goto (f.labelAt p)) ∨
      Within L (f.elseAt p) (f.endAt p) (m.goto (f.labelAt p)).next s m' := by
  rcases hat.within_cases hm (hat.step_zero hnd hm hv) h with h | h
  · exact Or.inl h
  · have hlabel : P[(m.goto (f.labelAt p)).pc]? = some (.label ((st.bump .if_).baseLabel .else_)) :=
      hat.label
    rcases h.cases_head hlabel (step_label hlabel) (fun _ => rfl) with h | h
    · exact Or.inr (Or.inl h)
    · have hpc : (m.goto (f.labelAt p)).next.pc = f.elseAt p := rfl
      rcases h.narrow hnd hat.elseCode (genAsmNode_keeps f.else_eq)
        (by omega) with h | ⟨m1, h1, hpc1, h⟩
      · exact Or.inr (Or.inr h)
      · -- behind the statement nothing is followed any more
        obtain ⟨rfl, rfl⟩ := h.eq_of_outside (Or.inr (le_of_eq hpc1.symm))
        exact Or.inr (Or.inr h1)

/-- A condition that is zero selects the `else` branch, and nothing else is executed. -/
theorem IfCodeAt.runs_zero (hv : m.get (.t f.reg) = 0) :
    RunsBranch L p (f.endAt p) (f.elseAt p) (f.endAt p) (f.thenAt p) (f.labelAt p) m := by
  have horder := f.order p
  have hlabel : P[(m.goto (f.labelAt p)).pc]? = some (.label ((st.bump .if_).baseLabel .else_)) :=
    hat.label
  have hfollow : ∀ {m' : Machine}, Within L p (f.endAt p) m [] m' →
      m'.pc = f.branchAt p ∨ m'.pc = f.labelAt p ∨ f.elseAt p ≤ m'.pc ∧ m'.pc ≤ f.endAt p := by
    intro m' h
    rcases hat.within_zero hnd hm hv h with ⟨-, rfl⟩ | ⟨-, rfl⟩ | h
    · exact Or.inl hm
    · exact Or.inr (Or.inl rfl)
    · exact Or.inr (Or.inr (h.stays hnd hat.elseCode (genAsmNode_keeps f.else_eq)
        ⟨le_refl _, Nat.le_add_right _ _⟩))
  refine ⟨⟨(m.goto (f.labelAt p)).next, ?_, rfl⟩, fun m' h => ?_, fun m' h => ?_,
    fun m' h hpc => ?_⟩
  · refine (Within.start.step ?_ (hm ▸ hat.branch) (hat.step_zero hnd hm hv) rfl).step ?_ hlabel
      (step_label hlabel) rfl
    · intro _
      omega
    · intro _
      show p ≤ f.labelAt p ∧ f.labelAt p < f.endAt p
      omega
  · have := hfollow h
    omega
  · have := hfollow h
    omega
  · exact ⟨m', Within.start, hpc⟩

/-- A condition that is not zero selects the first branch, unless it is run through. -/
theorem IfCodeAt.runs_nonzero (hv : m.get (.t f.reg) ≠ 0)
    (hend : f.elseCode = [] ∨ ¬ FallsThrough L f p m) :
    RunsBranch L p (f.endAt p) (f.thenAt p) (f.labelAt p) (f.elseAt p) (f.endAt p) m := by
  have horder := f.order p
  have hempty : f.elseCode = [] → f.endAt p = f.elseAt p := by
    intro h
    rw [IfCode.endAt, h, List.length_nil, Nat.add_zero]
  have hpc : m.next.pc = f.thenAt p := by rw [Machine.next_pc, hm, IfCode.thenAt]
  have hfollow : ∀ {m' : Machine}, Within L p (f.endAt p) m [] m' →
      m'.pc = f.branchAt p ∨ (f.thenAt p ≤ m'.pc ∧ m'.pc ≤ f.labelAt p) ∨
        f.elseCode = [] ∧ m'.pc = f.endAt p := by
    intro m' h
    rcases hat.within_nonzero hnd hm hv h with ⟨-, rfl⟩ | h | ⟨m1, h1, hpc1, h⟩
    · exact Or.inl hm
    · refine Or.inr (Or.inl (h.stays hnd hat.thenCode (genAsmNode_keeps f.then_eq) ?_))
      rw [hpc]
      exact ⟨le_refl _, Nat.le_add_right _ _⟩
    · have hnil := hend.resolve_right (fun hn => hn ⟨m1, h1, hpc1⟩)
      -- behind the label the statement is left
      rcases h.cases_head (hpc1 ▸ hat.label) (step_label (hpc1 ▸ hat.label)) (fun _ => rfl) with
        ⟨-, rfl⟩ | h
      · refine Or.inr (Or.inl ?_)
        omega
      · have hpc2 : m1.next.pc = f.endAt p := by
          rw [Machine.next_pc, hpc1, hempty hnil, IfCode.elseAt]
        obtain ⟨-, rfl⟩ := h.eq_of_outside (Or.inr (le_of_eq hpc2.symm))
        exact Or.inr (Or.inr ⟨hnil, hpc2⟩)
  refine ⟨⟨m.next, hat.within_next hm hv, hpc⟩, fun m' h => ?_, fun m' h => ?_, fun m' h hpc' => ?_⟩
  · rcases hfollow h with h | h | ⟨hnil, h⟩
    · omega
    · omega
    · have := hempty hnil
      omega
  · have := hfollow h
    omega
  · have hfall : FallsThrough L f p m := by
      rcases hat.within_nonzero hnd hm hv h with ⟨-, rfl⟩ | h | ⟨m1, h1, hpc1, -⟩
      · omega
      · exact ⟨m', h, hpc'⟩
      · exact ⟨m1, h1, hpc1⟩
    have hnil := hend.resolve_right (fun hn => hn hfall)
    refine ⟨m'.next, hat.within_label hpc', ?_⟩
    rw [Machine.next_pc, hpc', hempty hnil, IfCode.elseAt]

end Branches

/--
**Just the branch that the condition selects is executed, unless the first one is run through
and has code behind it.**
-/
theorem runsOneBranch_iff {ifExpr ifBody elseBody : AstNode}
    (f : IfCode frames ifExpr ifBody elseBody st st' c) (hnd : (labels P).Nodup) (hc : CodeAt P p c)
    (hm : m.pc = f.branchAt p) :
    RunsOneBranch L f p m ↔ (m.get (.t f.reg) ≠ 0 → f.elseCode = [] ∨ ¬ FallsThrough L f p m) := by
  have hat := f.at hc
  constructor
  · intro h hv
    by_contra hbad
    rw [not_or, not_not] at hbad
    exact hat.not_runsOneBranch hm hv hbad.1 hbad.2 h
  · intro h
    exact ⟨fun hv => hat.runs_nonzero hnd hm hv (h hv), fun hv => hat.runs_zero hnd hm hv⟩

/-- `int main() { if (1) ; else return 2; return 1; }` -/
def elseTokens : List Token :=
  [tok .type "int", tok .ident "main", tok .lparen "(", tok .rparen ")", tok .lbrace "\x7b",
    tok .if_ "if", tok .lparen "(", tok .num "1", tok .rparen ")", tok .semicolon ";",
    tok .else_ "else", tok .return_ "return", tok .num "2", tok .semicolon ";",
    tok .return_ "return", tok .num "1", tok .semicolon ";", tok .rbrace "\x7d"]

/-- The `if` statement of `elseTokens`. -/
def elseNode : AstNode := .ifElse (.intConst 1) (.exprStmt .emptyExpr) (.ret (.intConst 2) (some 0))

/-- Its code stands in the file from line 17 on. -/
private theorem elseTokens_code : ∃ r P st' c,
    Accepted 0 (fun _ => 0) elseTokens r ∧ genAsm r = .ok P ∧
      genAsmNode r.frames elseNode (makeRiscv r.entries) = .ok ((), st', c) ∧
      CodeAt P 17 c ∧ (labels P).Nodup ∧ P.length < 2 ^ 32 := by
  refine ⟨_, _, _, _, ⟨_, _, rfl, rfl⟩, rfl, rfl, ?_, by decide, by decide⟩
  exact ⟨rfl, rfl, rfl, rfl, rfl, rfl, rfl, rfl, rfl, rfl, trivial⟩

theorem runsOneBranch_iff_elseNode : ∃ r P st' c,
    Accepted 0 (fun _ => 0) elseTokens r ∧ genAsm r = .ok P ∧
    ∃ (f : IfCode r.frames (.intConst 1) (.exprStmt .emptyExpr) (.ret (.intConst 2) (some 0))
        (makeRiscv r.entries) st' c) (L : Layout P.length),
      RunsOneBranch L f 17 (zeroMachine.goto (f.branchAt 17)) ↔
        ((zeroMachine.goto (f.branchAt 17)).get (.t f.reg) ≠ 0 →
          f.elseCode = [] ∨ ¬ FallsThrough L f 17 (zeroMachine.goto (f.branchAt 17))) := by
  obtain ⟨r, P, st', c, hacc, hasm, hgen, hc, hnd, hlen⟩ := elseTokens_code
  obtain ⟨f⟩ := genIf_code rfl hgen
  exact ⟨r, P, st', c, hacc, hasm, f, Layout.ofLines _ hlen, runsOneBranch_iff f hnd hc rfl⟩

/-- The condition is 1, the first branch is empty, and `return 2` is executed. -/
theorem elseNode_not_runsOneBranch : ∃ r P st' c,
    Accepted 0 (fun _ => 0) elseTokens r ∧ genAsm r = .ok P ∧ CodeAt P 17 c ∧ (labels P).Nodup ∧
    ∃ (f : IfCode r.frames (.intConst 1) (.exprStmt .emptyExpr) (.ret (.intConst 2) (some 0))
        (makeRiscv r.entries) st' c) (L : Layout P.length) (m : Machine),
      Runs L (zeroMachine.goto 18) m ∧ m.pc = f.branchAt 17 ∧ m.get (.t f.reg) = 1 ∧
        ¬ RunsOneBranch L f 17 m := by
  obtain ⟨r, P, st', c, hacc, hasm, hgen, hc, hnd, hlen⟩ := elseTokens_code
  obtain ⟨f⟩ := genIf_code rfl hgen
  have hat := f.at hc
  obtain ⟨m, hm⟩ := evalAsm_run (L := Layout.ofLines _ hlen)
    (m := zeroMachine.goto 18) rfl f.cond_eq hnd hat.condCode
  have hone : m.get (.t f.reg) = 1 := by
    rw [hm.value]
    rfl
  refine ⟨r, P, st', c, hacc, hasm, hc, hnd, f, Layout.ofLines _ hlen, m, hm.runs, hm.pc, hone, ?_⟩
  refine hat.not_runsOneBranch hm.pc (by simp [hone]) ?_ ?_
  · have h := f.else_eq
    rw [genAsmNode, genRet_eq_ok] at h
    obtain ⟨_, _, _, _, _, -, -, -, -, -, h⟩ := h
    simp [h]
  · -- the code of the first branch ends where it starts
    have hthen : f.thenCode = [] := (Gen.pure_eq_ok.mp f.then_eq).2.2
    refine ⟨m.next, Within.start, ?_⟩
    rw [Machine.next_pc, hm.pc, IfCode.labelAt, hthen]
    rfl

end MyLang
