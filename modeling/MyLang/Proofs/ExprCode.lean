/-
What the code of an expression is made of.

One lemma for each generator of `eval_asm` but the one of calls: which generators returned
before it did, in which states, and the lines written.  A constant, an identifier and the
target of an assignment are one instruction that sets a new register.  Whatever is proved
of the code of every expression starts from these, and nothing behind them unfolds a
generator again.

The order in which registers are taken is part of it.  An operator evaluates its left
operand first and the right one with the register of the left one busy; `!` takes the
register of its result before its operand is evaluated; an assignment takes that of its
target before its right side.

`eval_func_call` is long enough for a structure of its own, `FuncCallCode` in
`Proofs/Registers.lean`.
-/
import MyLang.Proofs.OpCode

namespace MyLang

open Rv32

variable {st st' : AsmState} {reg : Temp} {c : List Line}

/-! ### Constants and variables

What an identifier is read by depends on the kind of its entry, and on whether it is a
parameter that has been loaded.
-/

/-- A new register, set by one instruction. -/
private theorem freshInstr_eq_ok (i : Temp → Instr) :
    (do let reg ← allocRegister; emit (i reg); return reg : Gen Temp) st = .ok (reg, st', c) ↔
      st.first = some reg ∧ st' = st.take reg ∧ c = [.instr (i reg)] := by
  simp only [allocRegister_bind_eq_ok, emit_bind_eq_ok, Gen.pure_eq_ok]
  constructor
  · rintro ⟨r, hr, _, ⟨rfl, rfl, rfl⟩, rfl⟩
    exact ⟨hr, rfl, rfl⟩
  · rintro ⟨hr, rfl, rfl⟩
    exact ⟨reg, hr, [], ⟨rfl, rfl, rfl⟩, rfl⟩

theorem evalIntConst_eq_ok {value : Int} :
    evalIntConst value st = .ok (reg, st', c) ↔
      st.first = some reg ∧ st' = st.take reg ∧ c = [.instr (.addi (.t reg) .zero value)] :=
  freshInstr_eq_ok fun reg => .addi (.t reg) .zero value

/-- How far below the frame pointer a variable is read. -/
def slotOf (e : SymTabEntry) : Nat :=
  if e.isArgLoaded then registerSize * (3 + e.argReg) else e.offset + localsBase

/-- The instruction that reads an identifier with this entry. -/
def identInstr (e : SymTabEntry) (reg : Temp) : Instr :=
  if e.symbol = .const then .addi (.t reg) .zero e.constValue else .lw (.t reg)
    (-(slotOf e : Int)) fp

/-- An identifier is an immediate or a load from the frame. -/
theorem identInstr_cases (e : SymTabEntry) (reg : Temp) :
    (∃ v, identInstr e reg = .addi (.t reg) .zero v) ∨ ∃ off,
      identInstr e reg = .lw (.t reg) off fp := by
  unfold identInstr
  by_cases hconst : e.symbol = .const
  · rw [if_pos hconst]
    exact Or.inl ⟨_, rfl⟩
  · rw [if_neg hconst]
    exact Or.inr ⟨_, rfl⟩

theorem evalIdent_eq_ok {symbol : Option SymId} :
    evalIdent symbol st = .ok (reg, st', c) ↔
      ∃ id e, symbol = some id ∧ st.entries[id]? = some e ∧
        st.first = some reg ∧ st' = st.take reg ∧ c = [.instr (identInstr e reg)] := by
  rw [evalIdent, symbolEntry_bind_eq_ok]
  refine exists_congr fun id => exists_congr fun e => and_congr_right fun _ =>
    and_congr_right fun _ => ?_
  rw [← freshInstr_eq_ok (identInstr e)]
  unfold identInstr slotOf
  by_cases hconst : e.symbol = .const
  · simp only [if_pos hconst, emitLoadRegister]
  · by_cases harg : e.isArgLoaded = true
    · simp only [if_neg hconst, if_pos harg, emitLoadWordFp]
    · simp only [if_neg hconst, if_neg harg, emitLoadWordFp]

/-- The target of an assignment is one instruction, with the `offset` of its entry. -/
theorem evalLval_eq_ok {kind : AstLValueKind} {ident : AstNode} :
    evalLval kind ident st = .ok (reg, st', c) ↔
      ∃ value id e, ident = .ident value (some id) ∧ st.entries[id]? = some e ∧
        st.first = some reg ∧ st' = st.take reg ∧
        c = [.instr (.addi (.t reg) .zero (sizeToInt (localsBase + e.offset)))] := by
  cases kind with
  | ident =>
      cases ident with
      | ident value symbol =>
          simp only [evalLval, emitLoadRegister, allocRegister_bind_eq_ok, symbolEntry_bind_eq_ok,
            emit_bind_eq_ok, Gen.pure_eq_ok]
          constructor
          · rintro ⟨r, hr, id, e, rfl, he, _, ⟨rfl, rfl, rfl⟩, rfl⟩
            exact ⟨value, id, e, rfl, he, hr, rfl, rfl⟩
          · rintro ⟨value', id, e, hident, he, hr, rfl, rfl⟩
            obtain ⟨rfl, rfl⟩ := AstNode.ident.inj hident
            exact ⟨reg, hr, id, e, rfl, he, [], ⟨rfl, rfl, rfl⟩, rfl⟩
      | _ => simp [evalLval]

/-! ### Operators

The node's own lines come behind those of its operands.
-/

/-- The two operands one after the other, then the operator. -/
theorem evalBinExp_opCode {opType : TokenType} {evalLeft evalRight : Gen Temp}
    (h : evalBinExp opType evalLeft evalRight st = .ok (reg, st', c)) :
    ∃ left st1 c1 right st2 c2 c3, evalLeft st = .ok (left, st1, c1) ∧
      evalRight st1 = .ok (right, st2, c2) ∧ OpCode left right st2 opType reg st' c3 ∧
      c = c1 ++ (c2 ++ c3) := by
  rw [evalBinExp, Gen.bind_eq_ok] at h
  obtain ⟨left, st1, c1, _, hleft, h, rfl⟩ := h
  rw [Gen.bind_eq_ok] at h
  obtain ⟨right, st2, c2, c3, hright, h, rfl⟩ := h
  exact ⟨left, st1, c1, right, st2, c2, c3, hleft, hright, evalBinOp_opCode h, rfl⟩

/-- The result's register is taken before the operand is evaluated. -/
theorem evalUnaryExpr_eq_ok {opType : TokenType} {evalExpr : Gen Temp} :
    evalUnaryExpr opType evalExpr st = .ok (reg, st', c) ↔
      opType = .not ∧ ∃ tmp st1 c1, st.first = some reg ∧
        evalExpr (st.take reg) = .ok (tmp, st1, c1) ∧
        st' = st1.release tmp ∧ c = c1 ++ [.instr (.seqz (.t reg) (.t tmp))] := by
  cases opType with
  | not =>
      simp only [evalUnaryExpr, allocRegister_bind_eq_ok, Gen.bind_eq_ok (x := evalExpr),
        emit_bind_eq_ok, freeRegister_bind_apply, Gen.pure_eq_ok]
      constructor
      · rintro ⟨r, hr, tmp, st1, c1, c2, htmp, ⟨_, ⟨rfl, rfl, rfl⟩, rfl⟩, rfl⟩
        exact ⟨trivial, tmp, st1, c1, hr, htmp, rfl, rfl⟩
      · rintro ⟨-, tmp, st1, c1, hr, htmp, rfl, rfl⟩
        exact ⟨reg, hr, tmp, st1, c1, _, htmp, ⟨[], ⟨rfl, rfl, rfl⟩, rfl⟩, rfl⟩
  | _ => simp [evalUnaryExpr]

/-- The store of an assignment: the address is built in the register of the target. -/
def asgnStore (lreg reg : Temp) : List Line :=
  [.instr (.alu .sub (.t lreg) fp (.t lreg)), .instr (.sw (.t reg) 0 (.t lreg))]

@[simp] theorem asgnStore_length (lreg reg : Temp) : (asgnStore lreg reg).length = 2 := rfl

theorem evalVarAsgn_eq_ok {evalLval evalRval : Gen Temp} :
    evalVarAsgn evalLval evalRval st = .ok (reg, st', c) ↔
      ∃ lval st1 c1 st2 c2, evalLval st = .ok (lval, st1, c1) ∧ evalRval st1 = .ok (reg, st2, c2) ∧
        st' = st2.release lval ∧ c = c1 ++ (c2 ++ asgnStore lval reg) := by
  simp only [evalVarAsgn, Gen.bind_eq_ok (x := evalLval), Gen.bind_eq_ok (x := evalRval),
    emit_bind_eq_ok, freeRegister_bind_apply, Gen.pure_eq_ok]
  constructor
  · rintro ⟨lval, st1, c1, _, hl, ⟨rval, st2, c2, _, hr, ⟨_, ⟨_, ⟨rfl, rfl, rfl⟩, rfl⟩, rfl⟩, rfl⟩,
      rfl⟩
    exact ⟨lval, st1, c1, st2, c2, hl, hr, rfl, rfl⟩
  · rintro ⟨lval, st1, c1, st2, c2, hl, hr, rfl, rfl⟩
    exact ⟨lval, st1, c1, _, hl, ⟨reg, st2, c2, _, hr, ⟨_, ⟨_, ⟨rfl, rfl, rfl⟩, rfl⟩, rfl⟩, rfl⟩,
      rfl⟩

/-! ### The arguments of a call

The loop over the arguments, one turn at a time.
-/

theorem spillArgs_cons_eq_ok {evalArg : Gen Temp} {rest : List (Gen Temp)} {off : Nat} {u : Unit} :
    spillArgs (evalArg :: rest) off st = .ok (u, st', c) ↔
      ∃ reg st1 c1 c2, evalArg st = .ok (reg, st1, c1) ∧
        spillArgs rest (off + registerSize) (st1.release reg) = .ok (u, st', c2) ∧
        c = c1 ++ .instr (.sw (.t reg) (-((off + registerSize : Nat) : Int)) fp) :: c2 := by
  simp only [spillArgs, Gen.bind_eq_ok (x := evalArg), emitStoreWordFp, emit_bind_eq_ok,
    freeRegister_bind_apply]
  constructor
  · rintro ⟨reg, st1, c1, _, harg, ⟨c2, hrest, rfl⟩, rfl⟩
    exact ⟨reg, st1, c1, c2, harg, hrest, rfl⟩
  · rintro ⟨reg, st1, c1, c2, harg, hrest, rfl⟩
    exact ⟨reg, st1, c1, _, harg, ⟨c2, hrest, rfl⟩, rfl⟩

end MyLang
