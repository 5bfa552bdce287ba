/-
What the code of an operator looks like, and what it computes.

`OpCode` lists every way `eval_bin_exp` can end: which register holds the result, which
registers are free afterwards, and the lines written.  There are five shapes.  Arithmetic
works in place, in the register of the left operand.  Most operators take one new
register; equality needs two instructions there, `<=` and `>=` take a second register for
the comparison they invert, and `&&` and `||` branch.  What is proved about operators is
proved by cases on the shape, not on the operator.

`opWord` is the value that an operator ought to give on words.  It is written down by the
operator, from the instructions that RV32IM has for it, and that the code of each shape
computes it is `OpCode.run` in `Proofs/OpRun.lean`.  The operands are given back by the
operator that has used them, so behind each shape just the register of the result is busy.
-/
import MyLang.Proofs.Gen

namespace MyLang

open Rv32 ByteMemory

/-- The value of an operator on 32-bit words, by the RV32IM definition of its instructions. -/
def opWord : TokenType → Word → Word → Word
  | .add, x, y => x + y
  | .sub, x, y => x - y
  | .mult, x, y => x * y
  | .div, x, y => divWord x y
  | .equal, x, y => ofBool (x = y)
  | .notEqual, x, y => ofBool (x ≠ y)
  | .logAnd, x, y => ofBool (x ≠ 0 ∧ y ≠ 0)
  | .logOr, x, y => ofBool (x ≠ 0 ∨ y ≠ 0)
  | .lt, x, y => ofBool (x.slt y)
  | .ltEq, x, y => ofBool (x.sle y)
  | .gt, x, y => ofBool (y.slt x)
  | .gtEq, x, y => ofBool (y.sle x)
  | .lshift, x, y => x <<< (y.toNat % 32)
  | .rshift, x, y => x.sshiftRight (y.toNat % 32)
  | .and, x, y => x &&& y
  | .or, x, y => x ||| y
  | .xor, x, y => x ^^^ y
  | _, _, _ => 0

/-- The operators that work in place. -/
def arithOp : TokenType → Option AluOp
  | .add => some .add
  | .sub => some .sub
  | .mult => some .mul
  | .div => some .div
  | _ => none

/-- The operators that are one instruction into a new register; `true` swaps the operands. -/
def directOp : TokenType → Option (AluOp × Bool)
  | .lt => some (.slt, false)
  | .gt => some (.slt, true)
  | .lshift => some (.sll, false)
  | .rshift => some (.sra, false)
  | .and => some (.and, false)
  | .or => some (.or, false)
  | .xor => some (.xor, false)
  | _ => none

/-- The comparisons that invert another; `true` swaps the operands. -/
def invertedOp : TokenType → Option Bool
  | .ltEq => some true
  | .gtEq => some false
  | _ => none

/-- The lines of `eval_log_and` and `eval_log_or`, from the branch on. -/
def logicCode (branch : Reg → Reg → String → Instr) (reg left right : Temp) (fall jump : Int)
    (jumpLabel endLabel : String) : List Line :=
  [.instr (branch (.t left) .zero jumpLabel), .instr (branch (.t right) .zero jumpLabel),
    .instr (.addi (.t reg) .zero fall), .instr (.j endLabel), .label jumpLabel,
    .instr (.addi (.t reg) .zero jump), .label endLabel]

/-- The state after an operator gave its operands back. -/
def AsmState.releaseBoth (st : AsmState) (left right : Temp) : AsmState :=
  (st.release left).release right

/-- Every way `eval_bin_exp` returns once its operands are in `left` and `right`. -/
inductive OpCode (left right : Temp) (st : AsmState) :
    TokenType → Temp → AsmState → List Line → Prop
  | inPlace {opType aop} (h : arithOp opType = some aop) :
      OpCode left right st opType left (st.release right)
        [.instr (.alu aop (.t left) (.t left) (.t right))]
  | direct {opType aop swap reg} (h : directOp opType = some (aop, swap))
      (hreg : st.first = some reg) :
      OpCode left right st opType reg ((st.take reg).releaseBoth left right)
        [.instr (.alu aop (.t reg) (.t (if swap then right else left))
          (.t (if swap then left else right)))]
  | equal {reg} (hreg : st.first = some reg) :
      OpCode left right st .equal reg ((st.take reg).releaseBoth left right)
        [.instr (.alu .sub (.t reg) (.t right) (.t left)), .instr (.seqz (.t reg) (.t reg))]
  | notEqual {reg} (hreg : st.first = some reg) :
      OpCode left right st .notEqual reg ((st.take reg).releaseBoth left right)
        [.instr (.alu .sub (.t reg) (.t right) (.t left)), .instr (.snez (.t reg) (.t reg))]
  | inverted {opType swap reg tmp} (h : invertedOp opType = some swap)
      (hreg : st.first = some reg) (htmp : (st.take reg).first = some tmp) :
      OpCode left right st opType reg
        ((((st.take reg).take tmp).releaseBoth left right).release tmp)
        [.instr (.alu .slt (.t tmp) (.t (if swap then right else left))
          (.t (if swap then left else right))), .instr (.xori (.t reg) (.t tmp) 1)]
  | logAnd {reg} (hreg : st.first = some reg) :
      OpCode left right st .logAnd reg
        (((st.take reg).bump .logAnd).releaseBoth left right)
        (logicCode .beq reg left right 1 0 (st.baseLabel .logAnd ++ "false")
          (st.baseLabel .logAnd ++ "end"))
  | logOr {reg} (hreg : st.first = some reg) :
      OpCode left right st .logOr reg
        (((st.take reg).bump .logOr).releaseBoth left right)
        (logicCode .bne reg left right 0 1 (st.baseLabel .logOr ++ "true")
          (st.baseLabel .logOr ++ "end"))

variable {st st' : AsmState} {c : List Line} {left right reg : Temp} {opType : TokenType}

theorem emitRegOp_eq_ok {aop : AluOp} :
    emitRegOp aop left right st = .ok (reg, st', c) ↔
      reg = left ∧ st' = st.release right ∧
        c = [.instr (.alu aop (.t left) (.t left) (.t right))] := by
  simp only [emitRegOp, emit_bind_eq_ok, freeRegister_bind_apply, Gen.pure_eq_ok]
  constructor
  · rintro ⟨_, ⟨rfl, rfl, rfl⟩, rfl⟩
    exact ⟨rfl, rfl, rfl⟩
  · rintro ⟨rfl, rfl, rfl⟩
    exact ⟨[], ⟨rfl, rfl, rfl⟩, rfl⟩

theorem emitFresh_eq_ok {code : Temp → Gen Unit} {lines : Temp → List Line}
    (hcode : ∀ r s, code r s = .ok ((), s, lines r)) :
    emitFresh left right code st = .ok (reg, st', c) ↔
      st.first = some reg ∧ st' = (st.take reg).releaseBoth left right ∧ c = lines reg := by
  simp only [emitFresh, allocRegister_bind_eq_ok, Gen.bind_eq_ok (x := code _), hcode,
    freeRegister_bind_apply, Gen.pure_eq_ok, Except.ok.injEq, Prod.mk.injEq]
  constructor
  · rintro ⟨r, hr, _, _, _, _, ⟨-, rfl, rfl⟩, ⟨rfl, rfl, rfl⟩, rfl⟩
    exact ⟨hr, rfl, List.append_nil _⟩
  · rintro ⟨hr, rfl, rfl⟩
    exact ⟨reg, hr, (), _, _, [], ⟨trivial, rfl, rfl⟩, ⟨rfl, rfl, rfl⟩, (List.append_nil _).symm⟩

theorem emitInverted_eq_ok {lhs rhs : Temp} :
    emitInverted left right lhs rhs st = .ok (reg, st', c) ↔
      st.first = some reg ∧ ∃ tmp, (st.take reg).first = some tmp ∧
        st' = (((st.take reg).take tmp).releaseBoth left right).release tmp ∧
        c = [.instr (.alu .slt (.t tmp) (.t lhs) (.t rhs)),
          .instr (.xori (.t reg) (.t tmp) 1)] := by
  simp only [emitInverted, allocRegister_bind_eq_ok, emit_bind_eq_ok, freeRegister_bind_apply,
    Gen.pure_eq_ok]
  constructor
  · rintro ⟨r, hr, tmp, htmp, _, ⟨_, ⟨rfl, rfl, rfl⟩, rfl⟩, rfl⟩
    exact ⟨hr, tmp, htmp, rfl, rfl⟩
  · rintro ⟨hr, tmp, htmp, rfl, rfl⟩
    exact ⟨reg, hr, tmp, htmp, _, ⟨_, ⟨rfl, rfl, rfl⟩, rfl⟩, rfl⟩

/-- Both operands are tested, and the register gets one of two constants. -/
private theorem evalLogic_eq_ok {op : LabelKind} {branch : Reg → Reg → String → Instr}
    {passed jumped : Int} {suffix : String} :
    (do
      let reg ← allocRegister
      let label ← createBaseCondLabel op
      emit (branch (.t left) .zero (extendLabel label suffix))
      emit (branch (.t right) .zero (extendLabel label suffix))
      emitLoadRegister (.t reg) passed
      emit (.j (extendLabel label "end"))
      emitLabel (extendLabel label suffix)
      emitLoadRegister (.t reg) jumped
      emitLabel (extendLabel label "end")
      freeRegister left
      freeRegister right
      return reg : Gen Temp) st = .ok (reg, st', c) ↔
      st.first = some reg ∧ st' = ((st.take reg).bump op).releaseBoth left right ∧
        c = logicCode branch reg left right passed jumped (st.baseLabel op ++ suffix)
          (st.baseLabel op ++ "end") := by
  simp only [allocRegister_bind_eq_ok, createBaseCondLabel_bind_apply,
    emit_bind_eq_ok, emitLoadRegister, emitLabel_bind_eq_ok, freeRegister_bind_apply,
    Gen.pure_eq_ok, extendLabel]
  constructor
  · rintro ⟨r, hr, _, ⟨_, ⟨_, ⟨_, ⟨_, ⟨_, ⟨_, ⟨rfl, rfl, rfl⟩, rfl⟩, rfl⟩, rfl⟩, rfl⟩, rfl⟩, rfl⟩,
      rfl⟩
    exact ⟨hr, rfl, rfl⟩
  · rintro ⟨hr, rfl, rfl⟩
    exact ⟨reg, hr, _, ⟨_, ⟨_, ⟨_, ⟨_, ⟨_, ⟨_, ⟨rfl, rfl, rfl⟩, rfl⟩, rfl⟩, rfl⟩, rfl⟩, rfl⟩, rfl⟩,
      rfl⟩

theorem evalLogAnd_eq_ok :
    evalLogAnd left right st = .ok (reg, st', c) ↔
      st.first = some reg ∧ st' = ((st.take reg).bump .logAnd).releaseBoth left right ∧
        c = logicCode .beq reg left right 1 0 (st.baseLabel .logAnd ++ "false")
          (st.baseLabel .logAnd ++ "end") :=
  evalLogic_eq_ok

theorem evalLogOr_eq_ok :
    evalLogOr left right st = .ok (reg, st', c) ↔
      st.first = some reg ∧ st' = ((st.take reg).bump .logOr).releaseBoth left right ∧
        c = logicCode .bne reg left right 0 1 (st.baseLabel .logOr ++ "true")
          (st.baseLabel .logOr ++ "end") :=
  evalLogic_eq_ok

private theorem opCode_inPlace {aop : AluOp} (ha : arithOp opType = some aop)
    (h : emitRegOp aop left right st = .ok (reg, st', c)) :
    OpCode left right st opType reg st' c := by
  obtain ⟨rfl, rfl, rfl⟩ := emitRegOp_eq_ok.mp h
  exact OpCode.inPlace ha

private theorem opCode_direct {aop : AluOp} {swap : Bool} (ha : directOp opType = some (aop, swap))
    (h : emitFresh left right (fun reg => emit (.alu aop (.t reg)
      (.t (if swap then right else left)) (.t (if swap then left else right)))) st
        = .ok (reg, st', c)) :
    OpCode left right st opType reg st' c := by
  obtain ⟨hreg, rfl, rfl⟩ := (emitFresh_eq_ok (fun r s => rfl)).mp h
  exact OpCode.direct ha hreg

private theorem opCode_inverted {swap : Bool} (ha : invertedOp opType = some swap)
    (h : emitInverted left right (if swap then right else left) (if swap then left else right) st
      = .ok (reg, st', c)) :
    OpCode left right st opType reg st' c := by
  obtain ⟨hreg, tmp, htmp, rfl, rfl⟩ := emitInverted_eq_ok.mp h
  exact OpCode.inverted ha hreg htmp

/-- `eval_bin_exp` returns in one of the ways listed. -/
theorem evalBinOp_opCode (h : evalBinOp opType left right st = .ok (reg, st', c)) :
    OpCode left right st opType reg st' c := by
  cases opType with
  | add | sub | mult | div => exact opCode_inPlace rfl h
  | lt | lshift | rshift | and | or | xor | gt => exact opCode_direct rfl h
  | ltEq | gtEq => exact opCode_inverted rfl h
  | equal =>
      obtain ⟨hreg, rfl, rfl⟩ := (emitFresh_eq_ok (fun r s => rfl)).mp h
      exact OpCode.equal hreg
  | notEqual =>
      obtain ⟨hreg, rfl, rfl⟩ := (emitFresh_eq_ok (fun r s => rfl)).mp h
      exact OpCode.notEqual hreg
  | logAnd =>
      obtain ⟨hreg, rfl, rfl⟩ := evalLogAnd_eq_ok.mp h
      exact OpCode.logAnd hreg
  | logOr =>
      obtain ⟨hreg, rfl, rfl⟩ := evalLogOr_eq_ok.mp h
      exact OpCode.logOr hreg
  | _ => simp [evalBinOp] at h

end MyLang
