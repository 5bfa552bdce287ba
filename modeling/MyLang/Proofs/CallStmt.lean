/-
The code of statements with calls does what the statements do.

The induction is on the source run again.  Behind every statement all temporaries are free
and no slot is held, so an expression may use all of them.  The code of an `else` body
stands behind that of the other one with no jump between, which is why the other one has
to return.

The statements are those of `callStmt` (`Callable.lean`), and the invariant of the run is
that of `Proofs/StmtRun.lean`.  What is new is that an expression may run through the code
of other functions, so that its stores are a matter of the slots that its calls use, and
of those functions it is assumed that they do what they should (`CallsRun`).

A body that is run in front of an `else` returns, by the condition on the tree, and what
has returned has left the function.  So the code behind it is not reached, and nothing has
to be said of it (`Execs.returned`).
-/
import MyLang.Proofs.CallExpr

namespace MyLang

open Rv32 ByteMemory

variable {P : List Line} {L : Layout P.length} {m m' m1 m2 : Machine} {S : FrameShape}
  {es : List SymTabEntry}
  {F : Word} {room : Nat} {call : CallRel} {st st' st1 : AsmState} {reg : Temp} {c : List Line}
  {σ σ' : Store}
  {res : Option CInt} {o : Outcome} {node : AstNode} {locals : List SymId}

/-! ### Statements that return

`returns` is found out from the tree: a `return`, a block with a statement that returns,
an `if` both of whose bodies do.
-/

/-- What returns is not run through. -/
theorem Execs.returned {eval : AstNode → Store → Option CInt → Store → Prop} {cmd : Cmd}
    (h : Execs eval cmd σ o σ') (hcmd : cmd = .stmt node) (hret : node.returns = true) :
    ∃ v, o = .returned v := by
  induction h generalizing node with
  | blockNil =>
      obtain rfl := Cmd.stmt.inj hcmd
      simp [AstNode.returns, AstNode.returnsList] at hret
  | blockCons _ _ ih1 ih2 =>
      obtain rfl := Cmd.stmt.inj hcmd
      rw [AstNode.returns, AstNode.returnsList, Bool.or_eq_true] at hret
      rcases hret with hret | hret
      · obtain ⟨v, hv⟩ := ih1 rfl hret
        cases hv
      · exact ih2 rfl (by rw [AstNode.returns]; exact hret)
  | ifTrue _ _ _ ih =>
      obtain rfl := Cmd.stmt.inj hcmd
      simp only [AstNode.returns, Bool.and_eq_true] at hret
      exact ih rfl hret.1.2
  | ifFalse _ _ =>
      obtain rfl := Cmd.stmt.inj hcmd
      simp [AstNode.returns, AstNode.nonNull] at hret
  | ifElse _ _ _ _ ih =>
      obtain rfl := Cmd.stmt.inj hcmd
      simp only [AstNode.returns, Bool.and_eq_true] at hret
      exact ih rfl hret.2
  | blockReturn | whileReturn | loopReturn | ret | retVoid => exact ⟨_, rfl⟩
  | varDec | varDef | exprStmt | emptyStmt | emptyExpr | enum | whileDone | whileStep | forStart =>
      obtain rfl := Cmd.stmt.inj hcmd
      simp [AstNode.returns] at hret
  | loopDone | loopStep => cases hcmd

/-! ### Commands

The invariant of a run that has come to a command, and what is known of the tree of the
command: that is handed on to its parts.
-/

/-- No function is defined in the tree, and its variables are among `locals`. -/
def AstNode.Within (locals : List SymId) (node : AstNode) : Prop :=
  node.funcFree = true ∧ ∀ id ∈ node.localIds, id ∈ locals

namespace AstNode.Within

theorem block {rest : List AstNode} (h : (AstNode.compStmt (node :: rest)).Within locals) :
    node.Within locals ∧ (AstNode.compStmt rest).Within locals := by
  obtain ⟨hff, hloc⟩ := h
  simp only [AstNode.funcFree, AstNode.funcFreeList, Bool.and_eq_true] at hff
  simp only [AstNode.localIds, AstNode.localIdsList, List.mem_append] at hloc
  exact ⟨⟨hff.1, fun id hid => hloc id (Or.inl hid)⟩, by simpa [AstNode.funcFree] using hff.2,
    fun id hid => hloc id (Or.inr (by simpa [AstNode.localIds] using hid))⟩

theorem ifElse {ifExpr ifBody elseBody : AstNode}
    (h : (AstNode.ifElse ifExpr ifBody elseBody).Within locals) :
    ifBody.Within locals ∧ elseBody.Within locals := by
  obtain ⟨hff, hloc⟩ := h
  simp only [AstNode.funcFree, Bool.and_eq_true] at hff
  simp only [AstNode.localIds, List.mem_append] at hloc
  exact ⟨⟨hff.1.2, fun id hid => hloc id (Or.inl hid)⟩, hff.2,
    fun id hid => hloc id (Or.inr (Or.inr hid))⟩

theorem while_ {expr body : AstNode} (h : (AstNode.while_ expr body).Within locals) :
    body.Within locals := by
  obtain ⟨hff, hloc⟩ := h
  simp only [AstNode.funcFree, Bool.and_eq_true] at hff
  simp only [AstNode.localIds, List.mem_append] at hloc
  exact ⟨hff.2, fun id hid => hloc id (Or.inr hid)⟩

theorem for_ {init cond step body : AstNode}
    (h : (AstNode.for_ init cond step body).Within locals) :
    (forInit init).Within locals ∧ (AstNode.exprStmt step).Within locals ∧ body.Within locals := by
  obtain ⟨hff, hloc⟩ := h
  simp only [AstNode.funcFree, Bool.and_eq_true] at hff
  simp only [AstNode.localIds, List.mem_append] at hloc
  refine ⟨?_, ⟨hff.1.2, fun id hid => hloc id (Or.inr (Or.inr (Or.inl hid)))⟩, hff.2,
    fun id hid => hloc id (Or.inr (Or.inr (Or.inr hid)))⟩
  unfold forInit
  split <;> exact ⟨hff.1.1.1, fun id hid => hloc id (Or.inl hid)⟩

end AstNode.Within

namespace Cmd

/-- `callStmt` of a command. -/
def callCmd (S : FrameShape) : Cmd → Bool
  | .stmt node => node.callStmt S
  | .loop cond step body =>
      (cond.isEmptyExpr || cond.callExpr0 S) && (step.isEmptyExpr || step.callExpr0 S) &&
      body.callStmt S

/-- `Within` of a command. -/
def Within (locals : List SymId) : Cmd → Prop
  | .stmt node => node.Within locals
  | .loop _ step body => (AstNode.exprStmt step).Within locals ∧ body.Within locals

end Cmd

/-- The machine is about to run the code of a command. -/
structure AtCmd (P : List Line) (S : FrameShape) (es : List SymTabEntry) (F : Word) (cmd : Cmd)
    (st st' : AsmState) (c : List Line) (σ : Store) (m : Machine) : Prop where
  ok : cmd.callCmd S = true
  within : cmd.Within S.locals
  gen : CmdCode S.frames st st' c cmd
  free : st.free = fun _ => true
  entries : st.entries = es
  code : CodeAt P m.pc c
  inFrame : InFrame es S.ids S.frame F σ m

theorem callStmt_forInit {init : AstNode}
    (h : (init.isForInit && init.callStmt S || init.callExpr0 S) = true) :
    (forInit init).callStmt S = true := by
  cases init <;> simp_all [forInit, AstNode.isForInit, AstNode.callStmt, AstNode.callExpr0,
    AstNode.callExpr]

/-- What a `for` statement starts with is generated by its own generator. -/
theorem genForInit_callStmt {init : AstNode}
    (h : (init.isForInit && init.callStmt S || init.callExpr0 S) = true) :
    genForInit init.isForInit (genAsmNode S.frames init) (evalAsm S.frames init)
      = genAsmNode S.frames (forInit init) := by
  cases init <;>
    simp_all [forInit, AstNode.isForInit, AstNode.callExpr0, AstNode.callExpr, genForInit,
      genAsmNode, AstNode.isEmptyExpr]

section Run

variable (hC : CallContext L S es F room call)

include hC

/-! ### Expressions in statements

The value of a statement's expression is in the first temporary, which is free again
behind it.
-/

/-- The code of an expression where all temporaries are free. -/
theorem expr0_run (hcall : node.callExpr0 S = true)
    (hgen : evalAsm S.frames node st = .ok (reg, st', c)) (hfree : st.free = fun _ => true)
    (hes : st.entries = es) (hc : CodeAt P m.pc c) (hm : InFrame es S.ids S.frame F σ m)
    (hv : Eval S.entries call node σ res σ') :
    ∃ m', Through L es S.ids S.frame F σ' (m.pc + c.length) m m' ∧ ∀ v, res = some v →
      m'.get (.t reg) = v.word := by
  have hbusy : st.busy.length = 0 := by rw [busy_of_all_free hfree, List.length_nil]
  have hcall : node.callExpr S [] st.busy.length = true := by
    rw [hbusy]
    exact hcall
  obtain ⟨m', h⟩ := eval_run hC node hcall (by simp) hgen hes hc hm hv
  exact ⟨m', ⟨h.runs, h.pc, h.inFrame, h.above⟩, h.value⟩

/-- The code of a condition and the branch that leaves if it is zero. -/
theorem cond0_run {x : CInt} {l : String} {q : Nat} (hcall : node.callExpr0 S = true)
    (hgen : evalAsm S.frames node st = .ok (reg, st', c)) (hfree : st.free = fun _ => true)
    (hes : st.entries = es) (hc : CodeAt P m.pc (c ++ [.instr (.beq (.t reg) .zero l)]))
    (hq : P[q]? = some (.label l)) (hm : InFrame es S.ids S.frame F σ m)
    (hv : Eval S.entries call node σ (some x) σ') :
    ∃ m', Through L es S.ids S.frame F σ' (if x.val = 0 then q else m.pc
      + (c.length + 1)) m m' := by
  rw [codeAt_append, codeAt_cons] at hc
  obtain ⟨m1, h1, hval⟩ := expr0_run hC hcall hgen hfree hes hc.1 hm hv
  have hstep := step_instr (L := L) (m := m1) (by rw [h1.pc]; exact hc.2.1)
  rw [Instr.exec, hval x rfl, Machine.get_zero, lineOf_eq hC.frame.nodup hq] at hstep
  by_cases hx : x.val = 0
  · rw [if_pos (CInt.word_eq_zero.mpr hx)] at hstep
    rw [if_pos hx]
    exact ⟨_, h1.trans ⟨Runs.one hstep, rfl, h1.inFrame.goto q, KeptAbove.refl F m1.mem⟩⟩
  · rw [if_neg (fun h => hx (CInt.word_eq_zero.mp h))] at hstep
    rw [if_neg hx]
    refine ⟨_, h1.trans ⟨Runs.one hstep, ?_, h1.inFrame.goto _, KeptAbove.refl F m1.mem⟩⟩
    rw [Machine.next_pc, h1.pc, Nat.add_assoc]

/-- A label, a condition, and the branch that leaves if it is zero. -/
theorem head0_run {x : CInt} {l0 l : String} {q : Nat} {rest : List Line}
    (hcall : node.callExpr0 S = true) (hgen : evalAsm S.frames node st = .ok (reg, st', c))
    (hfree : st.free = fun _ => true) (hes : st.entries = es)
    (hc : CodeAt P m.pc (.label l0 :: (c ++ .instr (.beq (.t reg) .zero l) :: rest)))
    (hq : P[q]? = some (.label l)) (hm : InFrame es S.ids S.frame F σ m)
    (hv : Eval S.entries call node σ (some x) σ') :
    ∃ m', Through L es S.ids S.frame F σ' (if x.val = 0 then q else m.pc
      + (c.length + 2)) m m' := by
  rw [codeAt_cons, codeAt_append, codeAt_cons] at hc
  have h0 := Through.label (L := L) hc.1 hm
  have hcode : CodeAt P m.next.pc (c ++ [.instr (.beq (.t reg) .zero l)]) :=
    codeAt_append.mpr ⟨hc.2.1, hc.2.2.1, trivial⟩
  obtain ⟨m1, h1⟩ := cond0_run hC hcall hgen hfree hes hcode hq h0.inFrame hv
  refine ⟨m1, (h0.trans h1).congr ?_⟩
  rw [Machine.next_pc, show m.pc + 1 + (c.length + 1) = m.pc + (c.length + 2) by omega]

/-- The condition of a `for` loop. -/
theorem forCond0_run {cond : AstNode} {label : String} {b : Bool} {q : Nat} {u : Unit}
    (hcall : (cond.isEmptyExpr || cond.callExpr0 S) = true)
    (hgen : genForCond label cond.isEmptyExpr (evalAsm S.frames cond) st = .ok (u, st', c))
    (hfree : st.free = fun _ => true) (hes : st.entries = es) (hc : CodeAt P m.pc c)
    (hq : P[q]? = some (.label (extendLabel label "end"))) (hm : InFrame es S.ids S.frame F σ m)
    (hv : EvalCond (Eval S.entries call) cond σ b σ') :
    ∃ m', Through L es S.ids S.frame F σ' (if b then m.pc + c.length else q) m m' := by
  cases hv with
  | empty =>
      rcases genForCond_eq_ok.mp hgen with ⟨-, rfl, rfl⟩ | ⟨hne, -⟩
      · exact ⟨m, Runs.refl m, rfl, hm, KeptAbove.refl F m.mem⟩
      · simp [AstNode.isEmptyExpr] at hne
  | expr hne hx =>
      rename_i x
      rw [hne, Bool.false_or] at hcall
      rcases genForCond_eq_ok.mp hgen with ⟨hempty, -⟩ | ⟨-, reg, st1, c1, he, rfl, rfl⟩
      · simp [hne] at hempty
      · obtain ⟨m1, h1⟩ := cond0_run hC hcall he hfree hes hc hq hm hx
        refine ⟨m1, h1.congr ?_⟩
        by_cases hz : x.val = 0 <;> simp [hz]

/-- The code of a variable's definition. -/
theorem varDef0_run {expr : AstNode} {symbol : SymId} {v : CInt} {u : Unit}
    (hcall : expr.callExpr0 S = true) (hid : symbol ∈ S.locals)
    (hgen : genVarDef (some symbol) (evalAsm S.frames expr) st = .ok (u, st', c))
    (hfree : st.free = fun _ => true) (hes : st.entries = es) (hc : CodeAt P m.pc c)
    (hm : InFrame es S.ids S.frame F σ m) (hv : Eval S.entries call expr σ (some v) σ') :
    ∃ m', Through L es S.ids S.frame F (Function.update σ' symbol (some v))
      (m.pc + c.length) m m' := by
  obtain ⟨_, e, reg, st1, c1, hsym, hent, he, rfl, rfl⟩ := genVarDef_eq_ok.mp hgen
  obtain rfl := Option.some.inj hsym
  rw [codeAt_append] at hc
  obtain ⟨m1, h1, hval⟩ := expr0_run hC hcall he hfree hes hc.1 hm hv
  rw [hes] at hent
  have hslots := hC.frame.slots
  have hmem := hslots.mem_of_local symbol hid
  have hb := hslots.bounds symbol hmem
  have hroom := hC.frame.room
  have hslot : slotAt es symbol = e.offset + localsBase := by
    rw [slotAt, hent, Nat.add_comm]
    exact hslots.local_slot symbol hid e hent
  have hstore := runs_instr (L := L) (m := m1) (by rw [h1.pc]; exact hc.2) rfl
  rw [h1.inFrame.fp, add_ofInt_neg, hval v rfl, ← hslot] at hstore
  refine ⟨_, h1.trans ⟨hstore, ?_, ⟨h1.inFrame.fp, h1.inFrame.sp, ?_⟩, ?_⟩⟩
  · rw [Machine.next_pc, Machine.store_pc, h1.pc, List.length_append, List.length_singleton,
      Nat.add_assoc]
  · exact h1.inFrame.holds.assign hslots hroom hmem v
  · exact KeptAbove.store hb.1 (by omega) _

/-! ### Runs of commands

A `return` leaves the function, so its run ends behind the epilogue; every other command is
run through, or is left by a `return` in it.
-/

/-- The code of a `return` with a value. -/
theorem ret0_run {expr : AstNode} {target : Option SymId} {v : CInt}
    (hne : expr.isEmptyExpr = false) (hat : AtCmd P S es F (.stmt (.ret expr target)) st st' c σ m)
    (hv : Eval S.entries call expr σ (some v) σ') : ∃ m', Left L F (some v) m m' := by
  have hroom : 8 ≤ F.toNat := hC.frame.saved.trans hC.frame.room
  have hok := hat.ok
  have hgen := hat.gen
  have hc := hat.code
  simp only [Cmd.callCmd, AstNode.callStmt, Bool.and_eq_true, decide_eq_true_eq, hne, Bool.false_or]
    at hok
  obtain ⟨rfl, hexpr⟩ := hok
  rw [CmdCode, genAsmNode, genRet_eq_ok] at hgen
  obtain ⟨id, e, fid, fr, c1, hid, hent, hfid, hfr, hval, rfl⟩ := hgen
  rw [hC.frame.size id e fid fr hid (hat.entries ▸ hent) hfid hfr, codeAt_append] at hc
  rcases genRetValue_eq_ok.mp hval with ⟨hempty, -⟩ | ⟨-, reg, st1, c0, he, -, rfl⟩
  · simp [hne] at hempty
  · obtain ⟨hc0, hep⟩ := hc
    rw [codeAt_append] at hc0
    obtain ⟨m1, h1, hv1⟩ := expr0_run hC hexpr he hat.free hat.entries hc0.1 hat.inFrame hv
    have hmv := runs_instr (L := L) (m := m1) (by rw [h1.pc]; exact hc0.2) rfl
    rw [hv1 v rfl] at hmv
    have h2 : Through L es S.ids S.frame F σ' (m1.pc + 1) m1 (m1.set (.a 0) v.word).next :=
      ⟨hmv, rfl, ⟨by rw [get_set_next_ne (by simp), h1.inFrame.fp],
        by rw [get_set_next_ne (by simp), h1.inFrame.sp], h1.inFrame.holds⟩,
          KeptAbove.refl F m1.mem⟩
    obtain ⟨m3, h3⟩ := epilogue_run (L := L) (v := some v) hC.frame (by
      rw [h2.pc, h1.pc, Nat.add_assoc]
      simpa using hep) h2.inFrame (by
        intro x hx
        obtain rfl := Option.some.inj hx
        rw [Machine.next_get, Machine.get_set_self _ _ _ (by simp)])
    exact ⟨m3, (h1.trans h2).left h3 hroom⟩

/-- The code of a `return` without a value. -/
theorem retVoid0_run {target : Option SymId}
    (hat : AtCmd P S es F (.stmt (.ret .emptyExpr target)) st st' c σ m) :
    ∃ m', Left L F none m m' := by
  have hok := hat.ok
  have hgen := hat.gen
  have hc := hat.code
  simp only [Cmd.callCmd, AstNode.callStmt, Bool.and_eq_true, decide_eq_true_eq] at hok
  obtain ⟨rfl, -⟩ := hok
  rw [CmdCode, genAsmNode, genRet_eq_ok] at hgen
  obtain ⟨id, e, fid, fr, c1, hid, hent, hfid, hfr, hval, rfl⟩ := hgen
  rw [hC.frame.size id e fid fr hid (hat.entries ▸ hent) hfid hfr, codeAt_append] at hc
  rcases genRetValue_eq_ok.mp hval with ⟨-, hg⟩ | ⟨hne, -⟩
  · obtain ⟨-, rfl, rfl⟩ := Gen.pure_eq_ok.mp hg
    exact epilogue_run (L := L) (v := none) hC.frame (by simpa using hc.2) hat.inFrame (by simp)
  · simp [AstNode.isEmptyExpr] at hne

/-- **The code of a command does what the command does.** -/
theorem execs_run {cmd : Cmd} (h : Execs (Eval S.entries call) cmd σ o σ')
    (hat : AtCmd P S es F cmd st st' c σ m) :
    ∃ m', Ends L es S.ids S.frame F σ' (m.pc + c.length) m m' o := by
  have hroom : 8 ≤ F.toNat := hC.frame.saved.trans hC.frame.room
  -- on the run of the source
  induction h generalizing st st' c m with
  | varDec =>
      obtain ⟨hok, hin, hgen, hfree, hes, hc, hm⟩ := hat
      obtain ⟨-, rfl, rfl⟩ := Gen.pure_eq_ok.mp hgen
      exact ⟨m, Runs.refl m, rfl, ⟨hm.fp, hm.sp, hm.holds.unset _⟩, KeptAbove.refl F m.mem⟩
  | varDef hv =>
      obtain ⟨hok, hin, hgen, hfree, hes, hc, hm⟩ := hat
      exact varDef0_run hC hok (hin.2 _ (by simp [AstNode.localIds])) hgen hfree hes hc hm hv
  | exprStmt hne hv =>
      obtain ⟨hok, hin, hgen, hfree, hes, hc, hm⟩ := hat
      rw [Cmd.callCmd, AstNode.callStmt, hne, Bool.false_or] at hok
      rw [CmdCode, genAsmNode, hne] at hgen
      obtain ⟨reg, st1, he, rfl⟩ := discard_eq_ok.mp hgen
      obtain ⟨m1, h1, -⟩ := expr0_run hC hok he hfree hes hc hm hv
      exact ⟨m1, h1⟩
  | emptyStmt | emptyExpr | enum | blockNil =>
      obtain ⟨hok, hin, hgen, hfree, hes, hc, hm⟩ := hat
      obtain ⟨-, rfl, rfl⟩ := Gen.pure_eq_ok.mp hgen
      exact ⟨m, Runs.refl m, rfl, hm, KeptAbove.refl F m.mem⟩
  | @blockCons node rest σ σ1 o σ2 hfirst hrest ih1 ih2 =>
      obtain ⟨hok, hin, hgen, hfree, hes, hc, hm⟩ := hat
      simp only [Cmd.callCmd, AstNode.callStmt, AstNode.callStmts, Bool.and_eq_true] at hok
      rw [CmdCode, genAsmNode, genAsmList, Gen.bind_eq_ok] at hgen
      obtain ⟨_, st1, c1, c2, hg1, hg2, rfl⟩ := hgen
      rw [codeAt_append] at hc
      obtain ⟨hin1, hin2⟩ := hin.block
      have hbal := genAsmNode_balanced hin1.1 hg1
      obtain ⟨m1, h1⟩ := ih1 ⟨hok.1, hin1, hg1, hfree, hes, hc.1, hm⟩
      have h1 : Through L es S.ids S.frame F σ1 (m.pc + c1.length) m m1 := h1
      obtain ⟨m2, h2⟩ := ih2 ⟨hok.2, hin2, hg2, hbal.free.trans hfree, hbal.entries.trans hes, by
        rw [h1.pc]
        exact hc.2, h1.inFrame⟩
      refine ⟨m2, (h2.head h1 hroom).congr ?_⟩
      rw [h1.pc, List.length_append, Nat.add_assoc]
  | @blockReturn node rest σ v σ1 hfirst ih1 =>
      obtain ⟨hok, hin, hgen, hfree, hes, hc, hm⟩ := hat
      simp only [Cmd.callCmd, AstNode.callStmt, AstNode.callStmts, Bool.and_eq_true] at hok
      rw [CmdCode, genAsmNode, genAsmList, Gen.bind_eq_ok] at hgen
      obtain ⟨_, st1, c1, c2, hg1, hg2, rfl⟩ := hgen
      rw [codeAt_append] at hc
      obtain ⟨m1, h1⟩ := ih1 ⟨hok.1, hin.block.1, hg1, hfree, hes, hc.1, hm⟩
      exact ⟨m1, h1⟩
  | @ifTrue ifExpr ifBody elseBody σ x σ1 o σ2 hv hx hbody ih =>
      obtain ⟨hok, hin, hgen, hfree, hes, hc, hm⟩ := hat
      simp only [Cmd.callCmd, AstNode.callStmt, Bool.and_eq_true] at hok
      obtain ⟨⟨hcond, hok⟩, helse⟩ := hok
      rw [CmdCode, genAsmNode, genIf_eq_ok] at hgen
      obtain ⟨reg, st1, c1, st2, c2, c3, he, hb, hg3, rfl⟩ := hgen
      have hes1 : ((st.bump .if_).bump .else_).entries = es := by simpa using hes
      have hfree1 : ((st.bump .if_).bump .else_).free = fun _ => true := by simpa using hfree
      have hbal := Balanced.eval he
      have hat := hc
      simp only [codeAt_cons, codeAt_append] at hat
      obtain ⟨-, -, -, hc2, hlabel, -⟩ := hat
      obtain ⟨m1, h1⟩ := head0_run hC hcond he hfree1 hes1 hc hlabel hm hv
      rw [if_neg hx] at h1
      have hpc : m1.pc = m.pc + 1 + c1.length + 1 := by rw [h1.pc]; omega
      obtain ⟨m2, h2⟩ :=
        ih ⟨hok, hin.ifElse.1, hb, hbal.free.trans hfree1, hbal.entries.trans hes1, by
        rw [hpc]
        exact hc2, h1.inFrame⟩
      have h2 := h2.head h1 hroom
      by_cases hne : elseBody.nonNull = true
      · -- the code of the other body follows, so this one has returned
        rw [hne, Bool.not_true, Bool.false_or, Bool.and_eq_true] at helse
        obtain ⟨v, rfl⟩ := hbody.returned rfl helse.1
        exact ⟨m2, h2⟩
      · rw [if_neg hne] at hg3
        obtain ⟨-, rfl, rfl⟩ := Gen.pure_eq_ok.mp hg3
        obtain ⟨m3, h3⟩ := h2.label (by rw [hpc]; exact hlabel)
        refine ⟨m3, h3.congr ?_⟩
        simp only [hpc, List.length_cons, List.length_append, List.length_nil]
        omega
  | @ifFalse ifExpr ifBody σ x σ1 hv hx =>
      obtain ⟨hok, hin, hgen, hfree, hes, hc, hm⟩ := hat
      simp only [Cmd.callCmd, AstNode.callStmt, Bool.and_eq_true] at hok
      rw [CmdCode, genAsmNode, genIf_eq_ok] at hgen
      obtain ⟨reg, st1, c1, st2, c2, c3, he, hb, hg3, rfl⟩ := hgen
      obtain ⟨-, rfl, rfl⟩ := Gen.pure_eq_ok.mp hg3
      have hat := hc
      simp only [codeAt_cons, codeAt_append] at hat
      obtain ⟨-, -, -, -, hlabel, -⟩ := hat
      obtain ⟨m1, h1⟩ := head0_run hC hok.1.1 he (by simpa using hfree)
        (by simpa using hes) hc hlabel hm hv
      rw [if_pos hx] at h1
      have h1 : Ends L es S.ids S.frame F σ1 _ m m1 .normal := h1
      obtain ⟨m2, h2⟩ := h1.label hlabel
      refine ⟨m2, h2.congr ?_⟩
      simp only [List.length_cons, List.length_append, List.length_nil]
      omega
  | @ifElse ifExpr ifBody elseBody σ x σ1 o σ2 hv hx hne hbody ih =>
      obtain ⟨hok, hin, hgen, hfree, hes, hc, hm⟩ := hat
      simp only [Cmd.callCmd, AstNode.callStmt, hne, Bool.not_true, Bool.false_or, Bool.and_eq_true]
        at hok
      obtain ⟨⟨hcond, -⟩, -, hok⟩ := hok
      rw [CmdCode, genAsmNode, genIf_eq_ok] at hgen
      obtain ⟨reg, st1, c1, st2, c2, c3, he, hb, hg3, rfl⟩ := hgen
      rw [if_pos hne] at hg3
      have hes1 : ((st.bump .if_).bump .else_).entries = es := by simpa using hes
      have hfree1 : ((st.bump .if_).bump .else_).free = fun _ => true := by simpa using hfree
      have hbal := (Balanced.eval he).trans (genAsmNode_balanced hin.ifElse.1.1 hb)
      have hat := hc
      simp only [codeAt_cons, codeAt_append] at hat
      obtain ⟨-, -, -, -, hlabel, hc3⟩ := hat
      obtain ⟨m1, h1⟩ := head0_run hC hcond he hfree1 hes1 hc hlabel hm hv
      rw [if_pos hx] at h1
      have h2 := Through.label (L := L) (by rw [h1.pc]; exact hlabel) h1.inFrame
      obtain ⟨m3, h3⟩ := ih (m := m1.next) ⟨hok, hin.ifElse.2, hg3, hbal.free.trans hfree1,
        hbal.entries.trans hes1, by
          rw [Machine.next_pc, h1.pc]
          exact hc3, h2.inFrame⟩
      refine ⟨m3, ((h3.head h2 hroom).head h1 hroom).congr ?_⟩
      simp only [Machine.next_pc, h1.pc, List.length_cons, List.length_append]
      omega
  | @whileDone expr body σ x σ1 hv hx =>
      obtain ⟨hok, hin, hgen, hfree, hes, hc, hm⟩ := hat
      simp only [Cmd.callCmd, AstNode.callStmt, Bool.and_eq_true] at hok
      rw [CmdCode, genAsmNode, genWhile_eq_ok] at hgen
      obtain ⟨reg, st1, c1, c2, he, hb, rfl⟩ := hgen
      have hat := hc
      simp only [codeAt_cons, codeAt_append] at hat
      obtain ⟨-, -, -, -, -, hend, -⟩ := hat
      obtain ⟨m1, h1⟩ := head0_run hC hok.1 he (by simpa using hfree)
        (by simpa using hes) hc hend hm hv
      rw [if_pos hx] at h1
      have h1 : Ends L es S.ids S.frame F σ1 _ m m1 .normal := h1
      obtain ⟨m2, h2⟩ := h1.label hend
      refine ⟨m2, h2.congr ?_⟩
      simp only [List.length_cons, List.length_append, List.length_nil]
      omega
  | @whileStep expr body σ x σ1 σ2 o σ3 hv hx hbody hrest ih1 ih2 =>
      have hloop := hat
      obtain ⟨hok, hin, hgen, hfree, hes, hc, hm⟩ := hat
      simp only [Cmd.callCmd, AstNode.callStmt, Bool.and_eq_true] at hok
      rw [CmdCode, genAsmNode, genWhile_eq_ok] at hgen
      obtain ⟨reg, st1, c1, c2, he, hb, rfl⟩ := hgen
      have hes1 : (st.bump .while_).entries = es := by simpa using hes
      have hfree1 : (st.bump .while_).free = fun _ => true := by simpa using hfree
      have hbal := Balanced.eval he
      have hat := hc
      simp only [codeAt_cons, codeAt_append] at hat
      obtain ⟨hstart, -, -, hc2, hj, hend, -⟩ := hat
      obtain ⟨m1, h1⟩ := head0_run hC hok.1 he hfree1 hes1 hc hend hm hv
      rw [if_neg hx] at h1
      have hpc : m1.pc = m.pc + 1 + c1.length + 1 := by rw [h1.pc]; omega
      obtain ⟨m2, h2⟩ :=
        ih1 ⟨hok.2, hin.while_, hb, hbal.free.trans hfree1, hbal.entries.trans hes1, by
        rw [hpc]
        exact hc2, h1.inFrame⟩
      have h2 : Through L es S.ids S.frame F σ2 (m1.pc + c2.length) m1 m2 := h2
      -- back to the start of the loop, and into the same lines again
      have h3 :=
        Through.jump (L := L) hC.frame.nodup (by rw [h2.pc, hpc]; exact hj) hstart h2.inFrame
      obtain ⟨m4, h4⟩ := ih2 (m := m2.goto m.pc)
        ⟨hloop.ok, hin, hloop.gen, hfree, hes, hc, h3.inFrame⟩
      exact ⟨m4, ((h4.head h3 hroom).head h2 hroom).head h1 hroom⟩
  | @whileReturn expr body σ x σ1 v σ2 hv hx hbody ih =>
      obtain ⟨hok, hin, hgen, hfree, hes, hc, hm⟩ := hat
      simp only [Cmd.callCmd, AstNode.callStmt, Bool.and_eq_true] at hok
      rw [CmdCode, genAsmNode, genWhile_eq_ok] at hgen
      obtain ⟨reg, st1, c1, c2, he, hb, rfl⟩ := hgen
      have hes1 : (st.bump .while_).entries = es := by simpa using hes
      have hfree1 : (st.bump .while_).free = fun _ => true := by simpa using hfree
      have hbal := Balanced.eval he
      have hat := hc
      simp only [codeAt_cons, codeAt_append] at hat
      obtain ⟨-, -, -, hc2, -, hend, -⟩ := hat
      obtain ⟨m1, h1⟩ := head0_run hC hok.1 he hfree1 hes1 hc hend hm hv
      rw [if_neg hx] at h1
      have hpc : m1.pc = m.pc + 1 + c1.length + 1 := by rw [h1.pc]; omega
      obtain ⟨m2, h2⟩ :=
        ih ⟨hok.2, hin.while_, hb, hbal.free.trans hfree1, hbal.entries.trans hes1, by
        rw [hpc]
        exact hc2, h1.inFrame⟩
      exact ⟨m2, h2.head h1 hroom⟩
  | @forStart init cond step body σ σ1 o σ2 hinit hloop ih1 ih2 =>
      obtain ⟨hok, hin, hgen, hfree, hes, hc, hm⟩ := hat
      simp only [Cmd.callCmd, AstNode.callStmt, Bool.and_eq_true] at hok
      rw [CmdCode, genAsmNode, genFor_eq_ok, genForInit_callStmt hok.1.1.1] at hgen
      obtain ⟨st1, c1, c2, hg1, hg2, rfl⟩ := hgen
      have hes1 : (st.bump .for_).entries = es := by simpa using hes
      have hfree1 : (st.bump .for_).free = fun _ => true := by simpa using hfree
      obtain ⟨hin1, hin2, hin3⟩ := hin.for_
      have hbal := genAsmNode_balanced hin1.1 hg1
      rw [codeAt_cons, codeAt_append] at hc
      have h0 := Through.label (L := L) hc.1 hm
      obtain ⟨m1, h1⟩ := ih1 ⟨callStmt_forInit hok.1.1.1, hin1, hg1, hfree1, hes1, hc.2.1,
        h0.inFrame⟩
      have h1 : Through L es S.ids S.frame F σ1 (m.pc + 1 + c1.length) m.next m1 := h1
      obtain ⟨m2, h2⟩ := ih2 ⟨by simp only [Cmd.callCmd, hok.1.1.2, hok.1.2, hok.2, Bool.and_self],
        ⟨hin2, hin3⟩, ⟨_, hg2⟩, hbal.free.trans hfree1, hbal.entries.trans hes1, by
          rw [h1.pc]
          exact hc.2.2, h1.inFrame⟩
      refine ⟨m2, ((h2.head h1 hroom).head h0 hroom).congr ?_⟩
      rw [h1.pc, List.length_cons, List.length_append]
      omega
  | @loopDone cond step body σ σ1 hv =>
      obtain ⟨hok, hin, ⟨label, hg⟩, hfree, hes, hc, hm⟩ := hat
      simp only [Cmd.callCmd, Bool.and_eq_true] at hok
      obtain ⟨st1, c1, st2, c2, c3, hcond, hb, hs, rfl⟩ := genForLoop_eq_ok.mp hg
      simp only [codeAt_cons, codeAt_append] at hc
      obtain ⟨hstart, hc1, -, -, -, -, -, hend, -⟩ := hc
      have h0 := Through.label (L := L) hstart hm
      obtain ⟨m1, h1⟩ := forCond0_run hC hok.1.1 hcond hfree hes hc1 hend h0.inFrame hv
      rw [if_neg Bool.false_ne_true] at h1
      have h1 : Ends L es S.ids S.frame F σ1 _ m.next m1 .normal := h1
      obtain ⟨m2, h2⟩ := h1.label hend
      refine ⟨m2, (h2.head h0 hroom).congr ?_⟩
      simp only [List.length_cons, List.length_append, List.length_nil]
      omega
  | @loopStep cond step body σ σ1 σ2 σ3 o σ4 hv hbody hstep hrest ih1 ih2 ih3 =>
      have hloop := hat
      obtain ⟨hok, hin, ⟨label, hg⟩, hfree, hes, hc, hm⟩ := hat
      simp only [Cmd.callCmd, Bool.and_eq_true] at hok
      obtain ⟨st1, c1, st2, c2, c3, hcond, hb, hs, rfl⟩ := genForLoop_eq_ok.mp hg
      have hat := hc
      simp only [codeAt_cons, codeAt_append] at hat
      obtain ⟨hstart, hc1, hlb, hc2, hls, hc3, hj, hend, -⟩ := hat
      have hbal1 := genForCond_balanced hcond
      have hbal2 := hbal1.trans (genAsmNode_balanced hin.2.1 hb)
      have h0 := Through.label (L := L) hstart hm
      obtain ⟨m1, h1⟩ := forCond0_run hC hok.1.1 hcond hfree hes hc1 hend h0.inFrame hv
      have h1 := h1.congr (if_pos rfl)
      have hpc1 : m1.pc = m.pc + 1 + c1.length := h1.pc
      have h2 := Through.label (L := L) (by rw [hpc1]; exact hlb) h1.inFrame
      obtain ⟨m3, h3⟩ :=
        ih1 (m := m1.next) ⟨hok.2, hin.2, hb, hbal1.free.trans hfree, hbal1.entries.trans hes, by
        rw [Machine.next_pc, hpc1]
        exact hc2, h2.inFrame⟩
      have h3 : Through L es S.ids S.frame F σ2 _ m1.next m3 := h3
      have hpc3 : m3.pc = m.pc + 1 + c1.length + 1 + c2.length := by
        rw [h3.pc, Machine.next_pc, hpc1]
      have h4 := Through.label (L := L) (by rw [hpc3]; exact hls) h3.inFrame
      obtain ⟨m5, h5⟩ := ih2 (m := m3.next) ⟨hok.1.2, hin.1, hs, hbal2.free.trans hfree,
        hbal2.entries.trans hes, by
          rw [Machine.next_pc, hpc3]
          exact hc3, h4.inFrame⟩
      have h5 : Through L es S.ids S.frame F σ3 _ m3.next m5 := h5
      have hpc5 : m5.pc = m.pc + 1 + c1.length + 1 + c2.length + 1 + c3.length := by
        rw [h5.pc, Machine.next_pc, hpc3]
      -- back to the condition, and into the same lines again
      have h6 := Through.jump (L := L) hC.frame.nodup (by rw [hpc5]; exact hj) hstart h5.inFrame
      obtain ⟨m7, h7⟩ := ih3 (m := m5.goto m.pc)
        ⟨hloop.ok, hin, ⟨label, hg⟩, hfree, hes, hc, h6.inFrame⟩
      exact ⟨m7, h7.head (h0.trans (h1.trans (h2.trans (h3.trans (h4.trans (h5.trans h6)))))) hroom⟩
  | @loopReturn cond step body σ σ1 v σ2 hv hbody ih =>
      obtain ⟨hok, hin, ⟨label, hg⟩, hfree, hes, hc, hm⟩ := hat
      simp only [Cmd.callCmd, Bool.and_eq_true] at hok
      obtain ⟨st1, c1, st2, c2, c3, hcond, hb, hs, rfl⟩ := genForLoop_eq_ok.mp hg
      simp only [codeAt_cons, codeAt_append] at hc
      obtain ⟨hstart, hc1, hlb, hc2, -, -, -, hend, -⟩ := hc
      have hbal1 := genForCond_balanced hcond
      have h0 := Through.label (L := L) hstart hm
      obtain ⟨m1, h1⟩ := forCond0_run hC hok.1.1 hcond hfree hes hc1 hend h0.inFrame hv
      have h1 := h1.congr (if_pos rfl)
      have hpc1 : m1.pc = m.pc + 1 + c1.length := h1.pc
      have h2 := Through.label (L := L) (by rw [hpc1]; exact hlb) h1.inFrame
      obtain ⟨m3, h3⟩ :=
        ih (m := m1.next) ⟨hok.2, hin.2, hb, hbal1.free.trans hfree, hbal1.entries.trans hes, by
        rw [Machine.next_pc, hpc1]
        exact hc2, h2.inFrame⟩
      exact ⟨m3, h3.head (h0.trans (h1.trans h2)) hroom⟩
  | @ret expr target σ v σ1 hv =>
      refine ret0_run hC ?_ hat hv
      cases hv <;> rfl
  | retVoid => exact retVoid0_run hC hat

end Run

end MyLang
