/-
How many registers an expression takes.

`alloc_register` takes the first free temporary, so which register a value is in depends
on all that went before; but whether there is one depends only on how many are busy.
After an expression one more is busy than before it, and from that the number needed can
be read off the tree.

`Gen.Ends` compares a generator with a verdict: it returns, or it stops with a given
error.  The verdict on an expression is `evaluable`, computed from the tree, the entries
and the number of busy registers, and `evalAsm_ends` shows by induction that the generator
ends so.  An expression may be stopped by other things than registers, a part that has no
code or a name without an entry; where there are none of these, `evaluable` is `fits`, the
count alone.

A call is the one place where registers are given back before an expression is done.  It
saves what is busy and frees all of it, so each argument starts with every register free,
and behind it one is taken for the result.
-/
import MyLang.Faults
import MyLang.Linking
import MyLang.Lib.EndsAs
import MyLang.Proofs.StmtGen

namespace MyLang

open Rv32 ExceptRun

variable {frames : List StackFrame} {st st' st1 st2 : AsmState} {c : List Line} {reg : Temp}

/-! ### The busy registers

As a set: taking a register adds one to it, giving it back takes it out again.
-/

/-- The set of busy temporaries. -/
def AsmState.busyRegs (st : AsmState) : Finset Temp := Finset.univ.filter fun i => st.free i = false

theorem AsmState.mem_busyRegs {i : Temp} : i ∈ st.busyRegs ↔ st.free i = false := by
  simp [AsmState.busyRegs]

theorem AsmState.busyRegs_congr (h : st'.free = st.free) : st'.busyRegs = st.busyRegs := by
  rw [AsmState.busyRegs, h, AsmState.busyRegs]

theorem Allocs.not_mem (h : Allocs st reg st') : reg ∉ st.busyRegs := by
  rw [AsmState.mem_busyRegs, h.was_free]
  simp

theorem Allocs.busyRegs (h : Allocs st reg st') : st'.busyRegs = Insert.insert reg st.busyRegs := by
  ext i
  rw [Finset.mem_insert, AsmState.mem_busyRegs, AsmState.mem_busyRegs]
  by_cases hi : i = reg
  · rw [hi]
    exact iff_of_true h.busy (Or.inl rfl)
  · rw [h.free_of_ne hi]
    simp [hi]

theorem Allocs.card (h : Allocs st reg st') : st'.busyRegs.card = st.busyRegs.card + 1 := by
  rw [h.busyRegs, Finset.card_insert_of_notMem h.not_mem]

/-- There is a free register exactly if not all of them are busy. -/
theorem AsmState.first_isSome_iff : st.first.isSome = true ↔ st.busyRegs.card + 1 ≤ tempLength := by
  have hcard : st.busyRegs.card ≤ tempLength := by
    have := Finset.card_le_univ st.busyRegs
    rwa [Fintype.card_fin] at this
  rw [AsmState.first, List.find?_isSome]
  constructor
  · rintro ⟨i, -, hi⟩
    by_contra hfull
    have huniv : st.busyRegs = Finset.univ := by
      rw [← Finset.card_eq_iff_eq_univ, Fintype.card_fin]
      omega
    have hmem : i ∈ st.busyRegs := by
      rw [huniv]
      exact Finset.mem_univ i
    rw [AsmState.mem_busyRegs, hi] at hmem
    simp at hmem
  · intro h
    by_contra hnone
    have huniv : st.busyRegs = Finset.univ := by
      ext i
      rw [AsmState.mem_busyRegs]
      refine iff_of_true ?_ (Finset.mem_univ i)
      by_contra hi
      exact hnone ⟨i, List.mem_finRange i, by simpa using hi⟩
    rw [huniv, Finset.card_univ, Fintype.card_fin] at h
    omega

/--
**Every register taken is given back.**  An expression leaves one more busy register, the one
it returns, which was free; a statement or a function leaves the same ones.
-/
theorem allocation_balanced (node : AstNode) (st : AsmState) :
    (∀ reg st' c, evalAsm frames node st = .ok (reg, st', c) →
        reg ∉ st.busyRegs ∧ st'.busyRegs = Insert.insert reg st.busyRegs) ∧
      (node.isStmt = true ∨ node.isFuncDef = true →
        ∀ st' c, genAsmNode frames node st = .ok ((), st', c) → st'.busyRegs = st.busyRegs) := by
  refine ⟨fun reg st' c h => ?_, fun hn st' c h => ?_⟩
  · have ha := evalAsm_allocs node h
    exact ⟨ha.not_mem, ha.busyRegs⟩
  · refine AsmState.busyRegs_congr ?_
    rcases hn with hn | hn
    · exact (genAsmNode_balanced (AstNode.funcFree_of_isStmt hn) h).free
    · obtain ⟨value, type, body, params, symbol, rfl⟩ := AstNode.eq_funcDef hn
      rw [genAsmNode, genFuncDef_eq_ok] at h
      obtain ⟨-, -, -, -, c1, -, -, -, -, -, hb, -⟩ := h
      have hff : (AstNode.compStmt body).funcFree = true :=
        @AstNode.funcFree_of_isStmt (.compStmt body) hn
      exact (genAsmNode_balanced hff hb).free

/-- `1 + g(2)` -/
def sumOfCall : AstNode :=
  .binExp "+" .add (.intConst 1) (.funcCall "g" [.intConst 2] (some 0))

/-- `g` is a function, and `t3` is busy. -/
def callState : AsmState :=
  (makeRiscv [⟨"g", .function, .int, false, 0, 0, some [], 0, some 0, false⟩]).withFree
    fun i => i ≠ 3

/-- The call is made while `1` is in a register, in an expression and in a statement. -/
theorem allocation_balanced_sumOfCall :
    (∃ reg st' c, evalAsm [⟨0, "g"⟩] sumOfCall callState = .ok (reg, st', c) ∧
      reg ∉ callState.busyRegs ∧ st'.busyRegs = Insert.insert reg callState.busyRegs) ∧
    ∃ st' c, genAsmNode [⟨0, "g"⟩] (.exprStmt sumOfCall) callState = .ok ((), st', c) ∧
      st'.busyRegs = callState.busyRegs := by
  refine ⟨⟨_, _, _, rfl, ?_⟩, ⟨_, _, rfl, ?_⟩⟩
  · exact (@allocation_balanced [⟨0, "g"⟩] sumOfCall callState).1 _ _ _ rfl
  · exact (@allocation_balanced [⟨0, "g"⟩] (.exprStmt sumOfCall) callState).2 (Or.inl rfl) _ _ rfl

/-! ### How an expression ends

A generator that is made of others ends as the first of them that stops does.
-/

section Ends

variable {α β : Type} {x : Gen α} {f : α → Gen β} {y y' : Except Fault Unit}

/-- A generator ends as foreseen from a state. -/
abbrev Gen.Ends (x : Gen α) (st : AsmState) (y : Except Fault Unit) : Prop :=
  EndsAs Fault.error (x st) y

namespace Gen.Ends

theorem bind (hx : Gen.Ends x st y)
    (hf : ∀ a st1 c, x st = .ok (a, st1, c) → Gen.Ends (f a) st1 y') :
    Gen.Ends (x >>= f) st (y >>= fun _ => y') := by
  cases y with
  | error e => exact Gen.bind_eq_error.mpr (Or.inl hx)
  | ok u =>
      obtain ⟨⟨a, st1, c1⟩, ha⟩ := hx
      have h := hf a st1 c1 ha
      change Gen.Ends (x >>= f) st y'
      cases y' with
      | error e => exact Gen.bind_eq_error.mpr (Or.inr ⟨a, st1, c1, ha, h⟩)
      | ok u' =>
          obtain ⟨⟨b, st2, c2⟩, hb⟩ := h
          exact ⟨(b, st2, c1 ++ c2), Gen.bind_eq_ok.mpr ⟨a, st1, c1, c2, ha, hb, rfl⟩⟩

/-- What comes after does not stop. -/
theorem andThen (hx : Gen.Ends x st y)
    (hf : ∀ a st1 c, x st = .ok (a, st1, c) → Gen.Ends (f a) st1 (.ok ())) :
    Gen.Ends (x >>= f) st y := by
  have h := bind hx hf
  cases y with
  | ok u => exact h
  | error e => exact h

/-- What comes before does not stop. -/
theorem after {a : α} (hx : x st = .ok (a, st1, c)) (hf : Gen.Ends (f a) st1 y) :
    Gen.Ends (x >>= f) st y := by
  refine bind (y := .ok ()) ⟨_, hx⟩ fun a' st1' c' h => ?_
  rw [hx] at h
  obtain ⟨rfl, rfl, -⟩ := Prod.mk.inj (Except.ok.inj h)
  exact hf

end Gen.Ends

end Ends

/-- A register is taken if fewer than seven are busy. -/
theorem allocRegister_ends (st : AsmState) :
    Gen.Ends allocRegister st (needs st.busyRegs.card 1) := by
  unfold needs
  by_cases h : st.busyRegs.card + 1 ≤ tempLength
  · rw [if_pos h]
    obtain ⟨reg, hreg⟩ := Option.isSome_iff_exists.mp (AsmState.first_isSome_iff.mpr h)
    exact ⟨_, allocRegister_eq_ok.mpr ⟨hreg, rfl, rfl⟩⟩
  · rw [if_neg h]
    have hnone : st.first = none := by
      rw [← Option.not_isSome_iff_eq_none, AsmState.first_isSome_iff]
      exact h
    show allocRegister st = .error .noFreeRegisters
    unfold allocRegister
    rw [state_bind_apply]
    rw [show (List.finRange tempLength).find? st.free = none from hnone]
    rfl

/-- Behind a register that is taken. -/
theorem allocRegister_bind_ends {β : Type} {f : Temp → Gen β} {y : Except Fault Unit}
    (hf : ∀ reg, Allocs st reg (st.take reg) → Gen.Ends (f reg) (st.take reg) y) :
    Gen.Ends (allocRegister >>= f) st (needs st.busyRegs.card 1 >>= fun _ => y) := by
  refine Gen.Ends.bind (allocRegister_ends st) fun reg st1 c h => ?_
  obtain ⟨hreg, rfl, -⟩ := allocRegister_eq_ok.mp h
  exact hf reg (Allocs.of_first hreg)

/-! ### Operators

An operator takes up to two registers more, while those of its operands are busy.
-/

theorem needs_add (b n k : Nat) : (needs b n >>= fun _ => needs (b + n) k) = needs b (n + k) := by
  unfold needs
  by_cases h : b + n ≤ tempLength
  · rw [if_pos h, show b + (n + k) = b + n + k by omega]
    rfl
  · rw [if_neg h, if_neg (show ¬ b + (n + k) ≤ tempLength by omega)]
    rfl

theorem emitFresh_ends {left right : Temp} {code : Temp → Gen Unit}
    (hcode : ∀ reg st, ∃ st' c, code reg st = .ok ((), st', c)) :
    Gen.Ends (emitFresh left right code) st (needs st.busyRegs.card 1) := by
  refine Gen.Ends.andThen (allocRegister_ends st) fun reg st1 c _ => ?_
  obtain ⟨st2, c2, h⟩ := hcode reg st1
  exact Gen.Ends.after h ⟨_, rfl⟩

theorem emitInverted_ends (left right lhs rhs : Temp) (st : AsmState) :
    Gen.Ends (emitInverted left right lhs rhs) st (needs st.busyRegs.card 2) := by
  rw [← needs_add _ 1 1]
  refine allocRegister_bind_ends fun reg hreg => ?_
  rw [← hreg.card]
  exact Gen.Ends.andThen (allocRegister_ends _) fun tmp st2 c _ => ⟨_, rfl⟩

/-- An operator whose operands are evaluated stops only for want of registers. -/
theorem evalBinOp_ends {opType : TokenType} (hop : isBinOp opType = true) (left right : Temp)
    (st : AsmState) (hfull : st.busyRegs.card ≤ tempLength) :
    Gen.Ends (evalBinOp opType left right) st (needs st.busyRegs.card (opTemps opType)) := by
  have hnone : needs st.busyRegs.card 0 = .ok () := if_pos hfull
  cases opType with
  | add | sub | mult | div =>
      rw [opTemps, hnone]
      exact ⟨_, rfl⟩
  | ltEq | gtEq => exact emitInverted_ends ..
  | logAnd | logOr =>
      exact Gen.Ends.andThen (allocRegister_ends st) fun reg st1 c _ => ⟨_, rfl⟩
  | equal | notEqual | lt | gt | lshift | rshift | and | or | xor =>
      exact emitFresh_ends fun reg st => ⟨_, _, rfl⟩
  | _ => simp [isBinOp] at hop

/-! ### Calls

No step of a call stops but the evaluation of an argument, a lookup, or the last register.
-/

theorem saveTemps_returns (regs : List Temp) (off : Nat) (st : AsmState) :
    ∃ p st' c, saveTemps regs off st = .ok (p, st', c) := by
  induction regs generalizing off st with
  | nil => exact ⟨_, _, _, rfl⟩
  | cons reg rest ih =>
      simp only [saveTemps, state_bind_apply]
      split
      · exact ih off st
      · obtain ⟨p, st', c, h⟩ := ih (off + registerSize) (st.release reg)
        refine ⟨(p.1, reg :: p.2), st',
          .instr (.sw (.t reg) (-((off + registerSize : Nat) : Int)) fp) :: c, ?_⟩
        simp only [emitStoreWordFp, emit_bind_eq_ok, freeRegister_bind_apply]
        refine ⟨c, Gen.bind_eq_ok.mpr ⟨p, st', c, [], h, rfl, ?_⟩, rfl⟩
        rw [List.append_nil]

theorem restoreTemps_returns (regs : List Temp) (off : Nat) (st : AsmState) :
    ∃ st' c, restoreTemps regs off st = .ok ((), st', c) := by
  induction regs generalizing off st with
  | nil => exact ⟨_, _, rfl⟩
  | cons reg rest ih =>
      simp only [restoreTemps, emitLoadWordFp, emit_bind_eq_ok, update_bind_apply]
      obtain ⟨st', c, h⟩ := ih (off - registerSize) _
      exact ⟨st', _, c, h, rfl⟩

theorem loadArgs_apply (regs : List (Fin argLength)) (off : Nat) (st : AsmState) :
    loadArgs regs off st = .ok ((), st, loadCode (regs.map .a) off) :=
  loadArgs_eq_ok.mpr ⟨rfl, rfl⟩

theorem symbolEntry_of_frameOf {symbol : Option SymId} {frame : StackFrame}
    (h : frameOf st.entries frames symbol = some frame) :
    ∃ id entry fid, symbol = some id ∧ st.entries[id]? = some entry ∧ entry.frame = some fid ∧
      frames[fid]? = some frame := by
  simp only [frameOf, Option.bind_eq_bind, Option.bind_eq_some_iff] at h
  obtain ⟨id, hid, entry, hentry, fid, hfid, hframe⟩ := h
  exact ⟨id, entry, fid, hid, hentry, hfid, hframe⟩

/-- The arguments of a call end as foreseen, if each of them does. -/
theorem spillArgs_ends {args : List AstNode} {off : Nat}
    (hargs : ∀ arg ∈ args, ∀ st' : AsmState, st'.entries = st.entries →
      Gen.Ends (evalAsm frames arg) st' (arg.evaluable st'.busyRegs.card))
    (hfree : st.busyRegs = ∅) :
    Gen.Ends (spillArgs (args.map (evalAsm frames)) off) st (AstNode.evaluableList args) := by
  induction args generalizing st off with
  | nil => exact ⟨_, rfl⟩
  | cons arg rest ih =>
      rw [List.map_cons, spillArgs, AstNode.evaluableList]
      have harg := hargs arg (by simp) st rfl
      rw [hfree, Finset.card_empty] at harg
      refine Gen.Ends.bind harg fun reg st1 c h => ?_
      have ha := evalAsm_allocs arg h
      have hbusy : (st1.release reg).busyRegs = ∅ := by
        rw [AsmState.busyRegs_congr ha.release, hfree]
      have hstore : emitStoreWordFp (.t reg) (off + registerSize) st1 = .ok ((), st1, _) := rfl
      have hrelease : freeRegister reg st1 = .ok ((), st1.release reg, []) := rfl
      refine Gen.Ends.after hstore (Gen.Ends.after hrelease ?_)
      refine ih (fun arg' harg' st' hst' => ?_) hbusy
      exact hargs arg' (by simp [harg']) st' (hst'.trans ha.entries)

/-- A call frees every register for its arguments and needs one for its result. -/
theorem evalFuncCall_ends {value : String} {symbol : Option SymId} {args : List AstNode}
    {frame : StackFrame} (hframe : frameOf st.entries frames symbol = some frame)
    (hargs : ∀ arg ∈ args, ∀ st' : AsmState, st'.entries = st.entries →
      Gen.Ends (evalAsm frames arg) st' (arg.evaluable st'.busyRegs.card)) :
    Gen.Ends (evalFuncCall frames value symbol (args.map (evalAsm frames))) st
      (AstNode.evaluableList args >>= fun _ => needs st.busyRegs.card 1) := by
  obtain ⟨id, entry, fid, hid, hentry, hfid, hfr⟩ := symbolEntry_of_frameOf hframe
  unfold evalFuncCall
  refine Gen.Ends.after (symbolEntry_eq_ok.mpr ⟨⟨id, hid, hentry⟩, rfl, rfl⟩) ?_
  have hsize : frameSizeOf frames entry st = .ok (frame.size, st, []) := by
    rw [frameSizeOf, follow_bind_eq_ok]
    refine ⟨fid, hfid, ?_⟩
    rw [follow_bind_eq_ok]
    exact ⟨frame, hfr, rfl⟩
  refine Gen.Ends.after hsize ?_
  obtain ⟨⟨off, freed⟩, st1, c1, hsave⟩ := saveTemps_returns (List.finRange tempLength)
    (frame.size + registerSize * (3 + argLength)) st
  refine Gen.Ends.after hsave ?_
  obtain ⟨rfl, rfl, rfl, -⟩ := saveTemps_eq_ok (List.nodup_finRange _) hsave
  have hnone : (st.withFree fun i => st.free i || decide (i ∈ List.finRange tempLength)).busyRegs
      = ∅ := by
    ext i
    simp [AsmState.mem_busyRegs]
  refine Gen.Ends.bind (spillArgs_ends hargs hnone) fun _ st2 c2 hspill => ?_
  have hspilled := spillArgs_free (fun g hg => by
    obtain ⟨arg, -, rfl⟩ := List.mem_map.mp hg
    exact evalAsm_allocs arg) hspill
  refine Gen.Ends.after (loadArgs_apply _ _ st2) ?_
  have hjal : emit (.jal value) st2 = .ok ((), st2, [.instr (.jal value)]) := rfl
  refine Gen.Ends.after hjal ?_
  obtain ⟨st3, c3, hrest⟩ := restoreTemps_returns (List.reverse _) _ st2
  refine Gen.Ends.after hrest ?_
  obtain ⟨rfl, -⟩ := restoreTemps_eq_ok hrest
  -- the registers that were busy are busy again
  have hbusy : (st2.withFree fun i => st2.free i && decide (i ∉ ((List.finRange tempLength).filter
      fun i => !st.free i).reverse)).busyRegs = st.busyRegs := by
    refine AsmState.busyRegs_congr ?_
    funext i
    simp [hspilled.1]
  rw [← hbusy]
  exact Gen.Ends.andThen (allocRegister_ends _) fun reg st4 c _ => ⟨_, rfl⟩

/-! ### Expressions

On the tree, for every number of busy registers.
-/

theorem linkedList_iff {entries : List SymTabEntry} {l : List AstNode} :
    AstNode.linkedList entries frames l = true ↔ ∀ n ∈ l, n.linked entries frames = true := by
  induction l with
  | nil => simp [AstNode.linkedList]
  | cons n l ih => simp [AstNode.linkedList, ih]

theorem AsmState.busyRegs_card_le (st : AsmState) : st.busyRegs.card ≤ tempLength := by
  have := Finset.card_le_univ st.busyRegs
  rwa [Fintype.card_fin] at this

/-- **What stops the evaluation of an expression, if anything does, can be read off it.** -/
theorem evalAsm_ends {node : AstNode} (hn : node.isExpr = true)
    (hl : node.linked st.entries frames = true) :
    Gen.Ends (evalAsm frames node) st (node.evaluable st.busyRegs.card) := by
  induction node generalizing st with
  | intConst value => exact Gen.Ends.andThen (allocRegister_ends st) fun reg st1 c _ => ⟨_, rfl⟩
  | emptyExpr =>
      show EndsAs Fault.error (.error Fault.hole.error : Except AsmError
        (Temp × AsmState × List Line)) (.error .hole)
      exact EndsAs.error
  | ident value symbol =>
      obtain ⟨e, he⟩ := Option.isSome_iff_exists.mp hl
      obtain ⟨id, rfl, hid⟩ := Option.bind_eq_some_iff.mp he
      refine Gen.Ends.after (symbolEntry_eq_ok.mpr ⟨⟨id, rfl, hid⟩, rfl, rfl⟩) ?_
      dsimp only
      split_ifs
      · exact Gen.Ends.andThen (allocRegister_ends st) fun reg st1 c _ => ⟨_, rfl⟩
      · exact Gen.Ends.andThen (allocRegister_ends st) fun reg st1 c _ => ⟨_, rfl⟩
      · exact Gen.Ends.andThen (allocRegister_ends st) fun reg st1 c _ => ⟨_, rfl⟩
  | funcCall value args symbol ih =>
      simp only [AstNode.linked, Bool.and_eq_true, linkedList_iff] at hl
      rw [AstNode.isExpr, AstNode.areExprs_iff] at hn
      obtain ⟨frame, hframe⟩ := Option.isSome_iff_exists.mp hl.1
      rw [evalAsm, evalAsmList_eq_map]
      refine evalFuncCall_ends hframe fun arg harg st' hst' => ih arg harg (hn arg harg) ?_
      rw [hst']
      exact hl.2 arg harg
  | binExp value opType left right ihl ihr =>
      simp only [AstNode.isExpr, Bool.and_eq_true] at hn
      simp only [AstNode.linked, Bool.and_eq_true] at hl
      rw [evalAsm, evalBinExp, AstNode.evaluable]
      refine Gen.Ends.bind (ihl hn.1.2 hl.1) fun lreg st1 c1 hleft => ?_
      have hal := evalAsm_allocs left hleft
      have hright : Gen.Ends (evalAsm frames right) st1 (right.evaluable st1.busyRegs.card) :=
        ihr hn.2 (by rw [hal.entries, hl.2])
      rw [hal.card] at hright
      refine Gen.Ends.bind hright fun rreg st2 c2 hr => ?_
      have har := evalAsm_allocs right hr
      have hop := evalBinOp_ends hn.1.1 lreg rreg st2 st2.busyRegs_card_le
      rwa [har.card, hal.card] at hop
  | unaryExpr postfixExpr value opType ih =>
      simp only [AstNode.isExpr, Bool.and_eq_true, decide_eq_true_eq] at hn
      obtain ⟨rfl, hn⟩ := hn
      rw [evalAsm, evalUnaryExpr, AstNode.evaluable]
      refine allocRegister_bind_ends fun reg hreg => ?_
      have hexpr : Gen.Ends (evalAsm frames postfixExpr) (st.take reg)
          (postfixExpr.evaluable (st.take reg).busyRegs.card) := ih hn hl
      rw [hreg.card] at hexpr
      exact Gen.Ends.andThen hexpr fun tmp st1 c _ => ⟨_, rfl⟩
  | varAsgn target rval _ ihr =>
      obtain ⟨⟨name, symbol, rfl⟩, hrval⟩ := AstNode.isExpr_varAsgn.mp hn
      simp only [AstNode.linked, Bool.and_eq_true] at hl
      obtain ⟨e, he⟩ := Option.isSome_iff_exists.mp hl.1
      obtain ⟨id, rfl, hid⟩ := Option.bind_eq_some_iff.mp he
      rw [evalAsm, evalVarAsgn, AstNode.evaluable]
      have hlval : Gen.Ends (evalAsm frames (.lval .ident (.ident name (some id)))) st
          (needs st.busyRegs.card 1) := by
        refine Gen.Ends.andThen (allocRegister_ends st) fun reg st1 c hreg => ?_
        obtain ⟨-, rfl, -⟩ := allocRegister_eq_ok.mp hreg
        have hent : symbolEntry (some id) (st.take reg) = .ok (e, st.take reg, []) :=
          symbolEntry_eq_ok.mpr ⟨⟨id, rfl, hid⟩, rfl, rfl⟩
        exact Gen.Ends.after hent ⟨_, rfl⟩
      refine Gen.Ends.bind hlval fun lreg st1 c1 hleft => ?_
      have hal := evalAsm_allocs _ hleft
      have hright : Gen.Ends (evalAsm frames rval) st1 (rval.evaluable st1.busyRegs.card) :=
        ihr hrval (by rw [hal.entries, hl.2])
      rw [hal.card] at hright
      exact Gen.Ends.andThen hright fun rreg st2 c2 _ => ⟨_, rfl⟩
  | _ => simp [AstNode.isExpr] at hn

/-! ### Register demand

Without other obstacles there is nothing but the count.
-/

namespace AstNode

/-- Passed if there are enough registers. -/
private def enough (p : Bool) : Except Fault Unit := if p then .ok () else .error .registers

private theorem enough_bind (p q : Bool) : (enough p >>= fun _ => enough q) = enough (p && q) := by
  cases p with
  | true => rfl
  | false => rfl

private theorem needs_eq (b n : Nat) : needs b n = enough (b + n ≤ tempLength) := by
  unfold needs enough
  simp only [decide_eq_true_eq]

private theorem evaluableList_of {args : List AstNode}
    (hargs : ∀ arg ∈ args, arg.evaluable 0 = enough (arg.fits 0)) :
    evaluableList args = enough (allFit args) := by
  induction args with
  | nil => rfl
  | cons arg rest ih =>
      rw [evaluableList, hargs arg (by simp), ih fun a ha => hargs a (by simp [ha]), enough_bind,
        allFit]

theorem holeFreeList_iff {l : List AstNode} :
    holeFreeList l = true ↔ ∀ n ∈ l, n.holeFree = true := by
  induction l with
  | nil => simp [holeFreeList]
  | cons n l ih => simp [holeFreeList, ih]

/-- Where an expression fits, there is a register for its value. -/
theorem lt_of_fits {node : AstNode} {b : Nat} (h : node.fits b = true) : b + 1 ≤ tempLength := by
  induction node generalizing b with
  | binExp value opType left right ihl ihr =>
      simp only [fits, Bool.and_eq_true] at h
      exact ihl h.1.1
  | unaryExpr postfixExpr value opType ih =>
      simp only [fits, Bool.and_eq_true, decide_eq_true_eq] at h
      exact h.1
  | varAsgn target rval ihl ihr =>
      simp only [fits, Bool.and_eq_true, decide_eq_true_eq] at h
      exact h.1
  | funcCall value args symbol ih =>
      simp only [fits, Bool.and_eq_true, decide_eq_true_eq] at h
      exact h.1
  | _ => simpa [fits] using h

/-- Without holes, what stops an expression is that it does not fit. -/
private theorem evaluable_eq {node : AstNode} (hn : node.isExpr = true) (hh : node.holeFree = true)
    (b : Nat) : node.evaluable b = enough (node.fits b) := by
  induction node generalizing b with
  | intConst | ident => exact needs_eq b 1
  | emptyExpr => simp [holeFree] at hh
  | funcCall value args symbol ih =>
      rw [isExpr, areExprs_iff] at hn
      rw [holeFree, holeFreeList_iff] at hh
      rw [evaluable, evaluableList_of fun arg harg => ih arg harg (hn arg harg) (hh arg harg) 0,
        needs_eq, enough_bind, fits, Bool.and_comm]
  | binExp value opType left right ihl ihr =>
      simp only [isExpr, Bool.and_eq_true] at hn
      simp only [holeFree, Bool.and_eq_true] at hh
      rw [evaluable, ihl hn.1.2 hh.1, ihr hn.2 hh.2, needs_eq, enough_bind, enough_bind, fits,
        ← Bool.and_assoc]
      congr 1
      by_cases hr : right.fits (b + 1) = true
      · -- with no further register the second operand has already shown that there are enough
        have hlt := lt_of_fits hr
        by_cases hop : opTemps opType = 0
        · simp [hop, hlt]
        · simp [hop]
      · simp [Bool.not_eq_true _ ▸ hr]
  | unaryExpr postfixExpr value opType ih =>
      simp only [isExpr, Bool.and_eq_true] at hn
      rw [evaluable, ih hn.2 hh, needs_eq, enough_bind, fits]
  | varAsgn target rval _ ihr =>
      obtain ⟨⟨name, symbol, rfl⟩, hrval⟩ := isExpr_varAsgn.mp hn
      rw [evaluable, ihr hrval hh, needs_eq, enough_bind, fits]
  | _ => simp [isExpr] at hn

/-- Fewer busy registers are no obstacle. -/
theorem fits_mono {node : AstNode} {b b' : Nat} (hb : b ≤ b') (h : node.fits b' = true) :
    node.fits b = true := by
  induction node generalizing b b' with
  | binExp value opType left right ihl ihr =>
      simp only [fits, Bool.and_eq_true, Bool.or_eq_true, decide_eq_true_eq] at h ⊢
      exact ⟨⟨ihl hb h.1.1, ihr (by omega) h.1.2⟩, h.2.imp_right fun h => by omega⟩
  | unaryExpr postfixExpr value opType ih =>
      simp only [fits, Bool.and_eq_true, decide_eq_true_eq] at h ⊢
      exact ⟨by omega, ih (by omega) h.2⟩
  | varAsgn target rval _ ihr =>
      simp only [fits, Bool.and_eq_true, decide_eq_true_eq] at h ⊢
      exact ⟨by omega, ihr (by omega) h.2⟩
  | funcCall value args symbol _ =>
      simp only [fits, Bool.and_eq_true, decide_eq_true_eq] at h ⊢
      exact ⟨by omega, h.2⟩
  | _ =>
      simp only [fits, decide_eq_true_eq] at h ⊢
      omega

theorem fits_of_isAtom {node : AstNode} (h : node.isAtom = true) {b : Nat}
    (hb : b + 1 ≤ tempLength) : node.fits b = true := by
  cases node with
  | intConst value => simpa [fits] using hb
  | ident value symbol => simpa [fits] using hb
  | _ => simp [isAtom] at h

/-- A chain of in-place operators holds two registers at a time, however long it is. -/
theorem fits_of_isChain {node : AstNode} (h : node.isChain = true) {b : Nat}
    (hb : b + 2 ≤ tempLength) : node.fits b = true := by
  induction node generalizing b with
  | binExp value opType left right ihl _ =>
      simp only [isChain, Bool.and_eq_true, decide_eq_true_eq] at h
      have hright := fits_of_isAtom h.2 (b := b + 1) hb
      rw [fits, ihl h.1.2 hb, hright]
      simp [h.1.1]
  | intConst | ident => exact fits_of_isAtom h (Nat.le_of_succ_le hb)
  | _ => simp [isChain, isAtom] at h

end AstNode

/--
**Whether the registers are enough for an expression is a matter of counting the busy ones.**
If `fits` fails, no register is free at some point; if it holds, the expression is
evaluated.  The count is monotone, and a chain of in-place operators takes two registers.
-/
theorem register_demand {node : AstNode} (hn : node.isExpr = true) (hh : node.holeFree = true) :
    (∀ (frames : List StackFrame) (st : AsmState), node.linked st.entries frames = true →
      (evalAsm frames node st = .error .noFreeRegisters ↔ node.fits st.busyRegs.card = false) ∧
        ((∃ res, evalAsm frames node st = .ok res) ↔ node.fits st.busyRegs.card = true)) ∧
      (∀ b b', b ≤ b' → node.fits b' = true → node.fits b = true) ∧
      (node.isChain = true → ∀ b ≤ 5, node.fits b = true) := by
  refine ⟨fun frames st hl => ?_, fun b b' hb h => AstNode.fits_mono hb h,
    fun hc b hb => AstNode.fits_of_isChain hc (Nat.add_le_add_right hb 2)⟩
  have hends := evalAsm_ends hn hl
  rw [AstNode.evaluable_eq hn hh] at hends
  cases hf : node.fits st.busyRegs.card with
  | true =>
      rw [hf] at hends
      obtain ⟨res, hres⟩ : ∃ res, evalAsm frames node st = .ok res := hends
      rw [hres]
      simp
  | false =>
      rw [hf] at hends
      have herr : evalAsm frames node st = .error .noFreeRegisters := hends
      rw [herr]
      simp

/-- `1 <= 2`, with four registers busy. -/
theorem register_demand_full :
    evalAsm [] (.binExp "<=" .ltEq (.intConst 1) (.intConst 2))
      ((((makeRiscv []).take 0).take 2).take 4 |>.take 6) = .error .noFreeRegisters := by
  have h := (@register_demand (.binExp "<=" .ltEq (.intConst 1) (.intConst 2)) rfl rfl).1 []
    ((((makeRiscv []).take 0).take 2).take 4 |>.take 6) rfl
  exact h.1.mpr (by decide)

end MyLang
