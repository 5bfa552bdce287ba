/-
Code generation, as in `asm.c`.

A generator works on the register file's free flags, the label counters and the symbol
table entries, and writes lines of assembly; running one gives its result, the new state
and the lines it wrote, so that the code of a construct can be spoken of by itself.
Comments and directives, which the assembler drops, are not written.

The functions between two recursive calls of `eval_asm` and `_gen_asm` take the generators
of the children as arguments, in the order the source runs them.

Temporaries are `t0` to `t6`, the frame pointer is `s0`, the first of the saved registers.
A `size_t` passed for an `int` goes through `sizeToInt`.

A generator stops where the source prints a message and exits, with one constructor of
`AsmError` for each message, and where it looks into a `NULL` pointer.  The frame of a
function is looked up through the symbol of a call or of a `return`, as the source does
it, and it is not the one the function being generated has been given.
-/
import MyLang.Lib.Rv32
import MyLang.Sema

namespace MyLang

open Rv32

/-- How code generation stops without a result. -/
inductive AsmError where
  /-- `No free registers` -/
  | noFreeRegisters
  /-- `Eval Asm: Unknown AST Type (%d)` -/
  | evalUnknownAstType
  /-- `Gen Asm: Unknown AST Type (%d)` -/
  | genUnknownAstType
  /-- `Eval Unary: Unknown Unary Type (%d)` -/
  | unknownUnaryType
  /-- `Unknown Lval type` -/
  | unknownLvalType
  /-- `Unexpected node type.` -/
  | unexpectedNodeType
  /-- A `NULL` or unset pointer was looked into. -/
  | undefined
deriving DecidableEq, Repr

/-! ### The state of the generator

A `Gen` is a state monad with errors that collects the lines on the way.
-/

/-- `_asm->temp->length`. -/
abbrev tempLength : Nat := 7

/-- `_asm->arg->length`. -/
abbrev argLength : Nat := 8

/-- A temporary register. -/
abbrev Temp := Fin tempLength

/-- `RISCV`, and the symbol table entries its functions write into. -/
structure AsmState where
  /-- The `free` flags of the temporaries. -/
  free : Temp → Bool
  forCount : Nat
  whileCount : Nat
  ifCount : Nat
  elseCount : Nat
  andCount : Nat
  orCount : Nat
  entries : List SymTabEntry

/-- `make_riscv`. -/
def makeRiscv (entries : List SymTabEntry) : AsmState :=
  { free := fun _ => true, forCount := 0, whileCount := 0, ifCount := 0, elseCount := 0,
    andCount := 0, orCount := 0, entries }

/-- A generator: it works on the state and writes lines, or stops. -/
def Gen (α : Type) : Type := AsmState → Except AsmError (α × AsmState × List Line)

namespace Gen

variable {α β : Type}

/-- Write nothing. -/
protected def pure (a : α) : Gen α := fun st => .ok (a, st, [])

/-- Run one generator after the other. -/
protected def bind (x : Gen α) (f : α → Gen β) : Gen β := fun st => do
  let (a, st1, c1) ← x st
  let (b, st2, c2) ← f a st1
  return (b, st2, c1 ++ c2)

instance : Monad Gen where
  pure := Gen.pure
  bind := Gen.bind

/-- Stop. -/
def stop (e : AsmError) : Gen α := fun _ => .error e

/-- The state. -/
def state : Gen AsmState := fun st => .ok (st, st, [])

/-- Change the state. -/
def update (f : AsmState → AsmState) : Gen Unit := fun st => .ok ((), f st, [])

/-- Write one line. -/
def write (line : Line) : Gen Unit := fun st => .ok ((), st, [line])

end Gen

/-- Follow a pointer that may be `NULL` or unset. -/
def follow {α : Type} : Option α → Gen α
  | some a => pure a
  | none => Gen.stop .undefined

/-- Follow a symbol pointer and look into the entry. -/
def symbolEntry (symbol : Option SymId) : Gen SymTabEntry := do
  let id ← follow symbol
  follow (← Gen.state).entries[id]?

/-! ### Labels

Each kind of label has a counter, which goes up by one for each construct.
-/

/-- `LabelKind`. -/
inductive LabelKind where
  | for_
  | if_
  | while_
  | else_
  | logAnd
  | logOr
deriving DecidableEq, Repr

/-- `create_base_cond_label`. -/
def createBaseCondLabel (kind : LabelKind) : Gen String := do
  let st ← Gen.state
  match kind with
  | .for_ =>
      Gen.update fun st => { st with forCount := st.forCount + 1 }
      return "for" ++ Nat.repr st.forCount
  | .if_ =>
      Gen.update fun st => { st with ifCount := st.ifCount + 1 }
      return "if" ++ Nat.repr st.ifCount
  | .while_ =>
      Gen.update fun st => { st with whileCount := st.whileCount + 1 }
      return "while" ++ Nat.repr st.whileCount
  | .else_ =>
      Gen.update fun st => { st with elseCount := st.elseCount + 1 }
      return "else" ++ Nat.repr st.elseCount
  | .logAnd =>
      Gen.update fun st => { st with andCount := st.andCount + 1 }
      return "and" ++ Nat.repr st.andCount
  | .logOr =>
      Gen.update fun st => { st with orCount := st.orCount + 1 }
      return "or" ++ Nat.repr st.orCount

/-- `extend_label`. -/
def extendLabel (label str : String) : String := label ++ str

/-! ### Emitters

One line each, and nothing else of the state is changed.
-/

/-- The frame pointer, the first saved register. -/
abbrev fp : Reg := .s 0

/-- A `size_t` converted to `int`. -/
def sizeToInt (n : Nat) : Int := (BitVec.ofNat 32 n).toInt

/-- Write an instruction. -/
def emit (i : Instr) : Gen Unit := Gen.write (.instr i)

/-- `emit_label`. -/
def emitLabel (name : String) : Gen Unit := Gen.write (.label name)

/-- `emit_sp_increase`. -/
def emitSpIncrease (bytes : Nat) : Gen Unit := emit (.addi .sp .sp bytes)

/-- `emit_sp_decrease`. -/
def emitSpDecrease (bytes : Nat) : Gen Unit := emit (.addi .sp .sp (-(bytes : Int)))

/-- `emit_sp_load`. -/
def emitSpLoad (reg : Reg) (offset : Int) : Gen Unit := emit (.lw reg offset .sp)

/-- `emit_sp_store`. -/
def emitSpStore (offset : Int) (reg : Reg) : Gen Unit := emit (.sw reg offset .sp)

/-- `emit_load_word_fp`. -/
def emitLoadWordFp (rd : Reg) (offset : Nat) : Gen Unit := emit (.lw rd (-(offset : Int)) fp)

/-- `emit_store_word_fp`. -/
def emitStoreWordFp (rd : Reg) (offset : Nat) : Gen Unit := emit (.sw rd (-(offset : Int)) fp)

/-- `emit_add_imm`. -/
def emitAddImm (rd reg1 : Reg) (imm : Int) : Gen Unit := emit (.addi rd reg1 imm)

/-- `emit_load_register`. -/
def emitLoadRegister (reg : Reg) (value : Int) : Gen Unit := emit (.addi reg .zero value)

/-- `emit_move_register`: from the first register to the second. -/
def emitMoveRegister (reg1 reg2 : Reg) : Gen Unit := emit (.mv reg2 reg1)

/-- `emit_return_from_jump`. -/
def emitReturnFromJump : Gen Unit := emit (.jalr .ra)

/-! ### Registers

The flags of the seven temporaries; the first one that is free is taken.
-/

/-- `alloc_register`: the first free temporary. -/
def allocRegister : Gen Temp := do
  match (List.finRange tempLength).find? (← Gen.state).free with
  | some reg =>
      Gen.update fun st => { st with free := Function.update st.free reg false }
      return reg
  | none => Gen.stop .noFreeRegisters

/-- `free_register`. -/
def freeRegister (reg : Temp) : Gen Unit :=
  Gen.update fun st => { st with free := Function.update st.free reg true }

/--
`emit_reg_add`, `emit_reg_sub`, `emit_reg_mult` and `emit_reg_div`: in place, freeing the
second.
-/
def emitRegOp (op : AluOp) (reg1 reg2 : Temp) : Gen Temp := do
  emit (.alu op (.t reg1) (.t reg1) (.t reg2))
  freeRegister reg2
  return reg1

/-- The distance of the first local variable from the frame pointer. -/
abbrev localsBase : Nat := registerSize * (3 + argLength)

/-- The size of a stack frame, as `gen_func_def` and `gen_ret` compute it. -/
def frameSize (size : Nat) : Nat :=
  let n := registerSize * 2 + size + registerSize * (tempLength + argLength * 2)
  n + (16 - n % 16)

section Codegen

/- The stack frame records of the analysis. -/
variable (frames : List StackFrame)

/-- `symbol->frame->size`. -/
def frameSizeOf (entry : SymTabEntry) : Gen Nat := do
  let id ← follow entry.frame
  return (← follow frames[id]?).size

/-! ### Calls

Busy temporaries and arguments go to slots that start behind the size of the callee's
frame.
-/

/-- The first loop of `eval_func_call`: save and free the busy temporaries; which ones they were. -/
def saveTemps : List Temp → Nat → Gen (Nat × List Temp)
  | [], tempOffset => return (tempOffset, [])
  | reg :: rest, tempOffset => do
      if (← Gen.state).free reg then
        saveTemps rest tempOffset
      else
        let tempOffset := tempOffset + registerSize
        emitStoreWordFp (.t reg) tempOffset
        freeRegister reg
        let (tempOffset, freed) ← saveTemps rest tempOffset
        return (tempOffset, reg :: freed)

/-- The second loop of `eval_func_call`: evaluate the arguments into the spill slots. -/
def spillArgs : List (Gen Temp) → Nat → Gen Unit
  | [], _ => return ()
  | evalArg :: rest, argOffset => do
      let reg ← evalArg
      let argOffset := argOffset + registerSize
      emitStoreWordFp (.t reg) argOffset
      freeRegister reg
      spillArgs rest argOffset

/-- The third loop of `eval_func_call`: load the first spilled arguments into `regs`. -/
def loadArgs : List (Fin argLength) → Nat → Gen Unit
  | [], _ => return ()
  | reg :: rest, loadOffset => do
      let loadOffset := loadOffset + registerSize
      emitLoadWordFp (.a reg) loadOffset
      loadArgs rest loadOffset

/-- The last loop of `eval_func_call`: load the saved temporaries back, the last one first. -/
def restoreTemps : List Temp → Nat → Gen Unit
  | [], _ => return ()
  | reg :: rest, tempOffset => do
      emitLoadWordFp (.t reg) tempOffset
      Gen.update fun st => { st with free := Function.update st.free reg false }
      restoreTemps rest (tempOffset - registerSize)

/-- `eval_func_call`. -/
def evalFuncCall (value : String) (symbol : Option SymId) (evalArgs : List (Gen Temp)) :
    Gen Temp := do
  let size ← frameSizeOf frames (← symbolEntry symbol)
  let baseOffset := size + registerSize * (3 + argLength)
  let (tempOffset, freed) ← saveTemps (List.finRange tempLength) baseOffset
  spillArgs evalArgs tempOffset
  loadArgs ((List.finRange argLength).take evalArgs.length) tempOffset
  emit (.jal value)
  restoreTemps freed.reverse tempOffset
  let reg ← allocRegister
  emitMoveRegister (.a 0) (.t reg)
  return reg

/-! ### Operators

The operands are in registers, and the operator gives them back.
-/

/-- `eval_log_and`. -/
def evalLogAnd (left right : Temp) : Gen Temp := do
  let reg ← allocRegister
  let andLabel ← createBaseCondLabel .logAnd
  let falseLabel := extendLabel andLabel "false"
  let endLabel := extendLabel andLabel "end"
  emit (.beq (.t left) .zero falseLabel)
  emit (.beq (.t right) .zero falseLabel)
  emitLoadRegister (.t reg) 1
  emit (.j endLabel)
  emitLabel falseLabel
  emitLoadRegister (.t reg) 0
  emitLabel endLabel
  freeRegister left
  freeRegister right
  return reg

/-- `eval_log_or`. -/
def evalLogOr (left right : Temp) : Gen Temp := do
  let reg ← allocRegister
  let orLabel ← createBaseCondLabel .logOr
  let trueLabel := extendLabel orLabel "true"
  let endLabel := extendLabel orLabel "end"
  emit (.bne (.t left) .zero trueLabel)
  emit (.bne (.t right) .zero trueLabel)
  emitLoadRegister (.t reg) 0
  emit (.j endLabel)
  emitLabel trueLabel
  emitLoadRegister (.t reg) 1
  emitLabel endLabel
  freeRegister left
  freeRegister right
  return reg

/-- An operator that takes one new register for its result and frees both operands. -/
def emitFresh (left right : Temp) (code : Temp → Gen Unit) : Gen Temp := do
  let reg ← allocRegister
  code reg
  freeRegister left
  freeRegister right
  return reg

/-- `<=` and `>=`: the opposite comparison into a second new register, inverted into the first. -/
def emitInverted (left right : Temp) (lhs rhs : Temp) : Gen Temp := do
  let reg ← allocRegister
  let tmp ← allocRegister
  emit (.alu .slt (.t tmp) (.t lhs) (.t rhs))
  emit (.xori (.t reg) (.t tmp) 1)
  freeRegister left
  freeRegister right
  freeRegister tmp
  return reg

/-- `eval_bin_exp`, from its `switch` on. -/
def evalBinOp (opType : TokenType) (left right : Temp) : Gen Temp :=
  match opType with
  | .add => emitRegOp .add left right
  | .sub => emitRegOp .sub left right
  | .mult => emitRegOp .mul left right
  | .div => emitRegOp .div left right
  | .equal => emitFresh left right fun reg => do
      emit (.alu .sub (.t reg) (.t right) (.t left))
      emit (.seqz (.t reg) (.t reg))
  | .notEqual => emitFresh left right fun reg => do
      emit (.alu .sub (.t reg) (.t right) (.t left))
      emit (.snez (.t reg) (.t reg))
  | .logAnd => evalLogAnd left right
  | .logOr => evalLogOr left right
  | .lt => emitFresh left right fun reg => emit (.alu .slt (.t reg) (.t left) (.t right))
  | .ltEq => emitInverted left right right left
  | .gt => emitFresh left right fun reg => emit (.alu .slt (.t reg) (.t right) (.t left))
  | .gtEq => emitInverted left right left right
  | .lshift => emitFresh left right fun reg => emit (.alu .sll (.t reg) (.t left) (.t right))
  | .rshift => emitFresh left right fun reg => emit (.alu .sra (.t reg) (.t left) (.t right))
  | .and => emitFresh left right fun reg => emit (.alu .and (.t reg) (.t left) (.t right))
  | .or => emitFresh left right fun reg => emit (.alu .or (.t reg) (.t left) (.t right))
  | .xor => emitFresh left right fun reg => emit (.alu .xor (.t reg) (.t left) (.t right))
  | _ => Gen.stop .unexpectedNodeType

/-- `eval_bin_exp`. -/
def evalBinExp (opType : TokenType) (evalLeft evalRight : Gen Temp) : Gen Temp := do
  let left ← evalLeft
  let right ← evalRight
  evalBinOp opType left right

/-- `eval_unary_expr`. -/
def evalUnaryExpr (opType : TokenType) (evalExpr : Gen Temp) : Gen Temp := do
  match opType with
  | .not => do
      let reg ← allocRegister
      let tmp ← evalExpr
      emit (.seqz (.t reg) (.t tmp))
      freeRegister tmp
      return reg
  | _ => Gen.stop .unknownUnaryType

/-! ### Constants and variables

A parameter that has been loaded is read from the slot its register was saved in.
-/

/-- `eval_int_const`. -/
def evalIntConst (value : Int) : Gen Temp := do
  let reg ← allocRegister
  emitLoadRegister (.t reg) value
  return reg

/-- `eval_ident`. -/
def evalIdent (symbol : Option SymId) : Gen Temp := do
  let var ← symbolEntry symbol
  if var.symbol = .const then
    let reg ← allocRegister
    emitLoadRegister (.t reg) var.constValue
    return reg
  else if var.isArgLoaded then
    let reg ← allocRegister
    let offset := registerSize * (3 + var.argReg)
    emitLoadWordFp (.t reg) offset
    return reg
  else
    let reg ← allocRegister
    emitLoadWordFp (.t reg) (var.offset + registerSize * (3 + argLength))
    return reg

/-- `eval_lval`; the identifier node is looked into without a check of its type. -/
def evalLval (kind : AstLValueKind) (ident : AstNode) : Gen Temp := do
  let baseOffset := registerSize * (3 + argLength)
  match kind with
  | .ident =>
      match ident with
      | .ident _ symbol => do
          let reg ← allocRegister
          let offset := (← symbolEntry symbol).offset
          emitLoadRegister (.t reg) (sizeToInt (baseOffset + offset))
          return reg
      | _ => Gen.stop .undefined

/-- `eval_var_asgn`. -/
def evalVarAsgn (evalLval evalRval : Gen Temp) : Gen Temp := do
  let lval ← evalLval
  let rval ← evalRval
  emit (.alu .sub (.t lval) fp (.t lval))
  emit (.sw (.t rval) 0 (.t lval))
  freeRegister lval
  return rval

mutual

/-- `eval_asm`. -/
def evalAsm : AstNode → Gen Temp
  | .unaryExpr postfixExpr _ opType => evalUnaryExpr opType (evalAsm postfixExpr)
  | .intConst value => evalIntConst value
  | .funcCall value args symbol => evalFuncCall frames value symbol (evalAsmList args)
  | .ident _ symbol => evalIdent symbol
  | .binExp _ opType left right => evalBinExp opType (evalAsm left) (evalAsm right)
  | .varAsgn lval rval => evalVarAsgn (evalAsm lval) (evalAsm rval)
  | .lval kind ident => evalLval kind ident
  | .null => Gen.stop .undefined
  | _ => Gen.stop .evalUnknownAstType
termination_by structural node => node

/-- The generators of the arguments of a call. -/
def evalAsmList : List AstNode → List (Gen Temp)
  | [] => []
  | node :: rest => evalAsm node :: evalAsmList rest
termination_by structural nodes => nodes

end

/-! ### Statements

The register of an expression is given back by the statement that has used it.
-/

/-- `gen_if`. -/
def genIf (evalIfExpr : Gen Temp) (genIfBody genElseBody : Gen Unit) (hasElse : Bool) :
    Gen Unit := do
  let ifLabel ← createBaseCondLabel .if_
  let elseLabel ← createBaseCondLabel .else_
  emitLabel ifLabel
  let reg ← evalIfExpr
  emit (.beq (.t reg) .zero elseLabel)
  freeRegister reg
  genIfBody
  emitLabel elseLabel
  if hasElse then
    genElseBody

/-- The code that leaves a function: restore `ra`, the frame pointer and the stack pointer. -/
def emitEpilogue (frame : Nat) : Gen Unit := do
  emitSpLoad .ra (sizeToInt (frame - registerSize))
  emitSpLoad fp (sizeToInt (frame - registerSize * 2))
  emitSpIncrease frame

/-- `gen_ret`. -/
def genRet (func : Option SymId) (isEmpty : Bool) (evalExpr : Gen Temp) (genExpr : Gen Unit) :
    Gen Unit := do
  let entry ← symbolEntry func
  if isEmpty then
    genExpr
  else
    let reg ← evalExpr
    emitMoveRegister (.t reg) (.a 0)
    freeRegister reg
  let size ← frameSizeOf frames entry
  emitEpilogue (frameSize size)
  emitReturnFromJump

/-- The parameter loop of `gen_func_def`, from the `i`th parameter on. -/
def loadParams : Nat → List Param → Gen Unit
  | _, [] => return ()
  | i, param :: rest => do
      let id ← follow param.symbol
      Gen.update fun st =>
        { st with entries := st.entries.modify id fun e =>
            { e with isArgLoaded := true, argReg := i } }
      loadParams (i + 1) rest

/-- The loop of `gen_func_def` that saves the argument registers. -/
def saveArgs : List (Fin argLength) → Nat → Gen Unit
  | [], _ => return ()
  | reg :: rest, argOffset => do
      emitStoreWordFp (.a reg) argOffset
      saveArgs rest (argOffset + registerSize)

/-- The prologue of a function. -/
def emitPrologue (frame : Nat) : Gen Unit := do
  emitSpDecrease frame
  emitSpStore (sizeToInt (frame - registerSize)) .ra
  emitSpStore (sizeToInt (frame - registerSize * 2)) fp
  emitAddImm fp .sp (sizeToInt frame)
  saveArgs (List.finRange argLength) (registerSize * 3)

/-- `gen_func_def`. -/
def genFuncDef (value type : String) (params : List Param) (symbol : Option SymId)
    (genBody : Gen Unit) : Gen Unit := do
  emitLabel value
  loadParams 0 params
  let size ← frameSizeOf frames (← symbolEntry symbol)
  emitPrologue (frameSize size)
  genBody
  if type = "void" then
    emitEpilogue (frameSize size)
  emitReturnFromJump

/-- `gen_var_def`. -/
def genVarDef (symbol : Option SymId) (evalExpr : Gen Temp) : Gen Unit := do
  let offset := (← symbolEntry symbol).offset
  let reg ← evalExpr
  emitStoreWordFp (.t reg) (offset + registerSize * (3 + argLength))
  freeRegister reg

/-- `gen_while`. -/
def genWhile (evalExpr : Gen Temp) (genBody : Gen Unit) : Gen Unit := do
  let label ← createBaseCondLabel .while_
  let startLabel := extendLabel label "start"
  let endLabel := extendLabel label "end"
  emitLabel startLabel
  let reg ← evalExpr
  emit (.beq (.t reg) .zero endLabel)
  freeRegister reg
  genBody
  emit (.j startLabel)
  emitLabel endLabel

/-- Evaluate an expression for its effect. -/
def discard (evalExpr : Gen Temp) : Gen Unit := do
  let reg ← evalExpr
  freeRegister reg

/-- `gen_for`; `isForInit` and the two `isEmpty` flags are its tests on node types. -/
def genFor (isForInit : Bool) (genInit : Gen Unit) (evalInit : Gen Temp) (condEmpty : Bool)
    (evalCond : Gen Temp) (stepEmpty : Bool) (evalStep : Gen Temp) (genBody : Gen Unit) :
    Gen Unit := do
  let label ← createBaseCondLabel .for_
  let initLabel := extendLabel label "init"
  let condLabel := extendLabel label "cond"
  let bodyLabel := extendLabel label "body"
  let stepLabel := extendLabel label "step"
  let endLabel := extendLabel label "end"
  emitLabel initLabel
  if isForInit then
    genInit
  else
    discard evalInit
  emitLabel condLabel
  if !condEmpty then
    let reg ← evalCond
    emit (.beq (.t reg) .zero endLabel)
    freeRegister reg
  emitLabel bodyLabel
  genBody
  emitLabel stepLabel
  if !stepEmpty then
    discard evalStep
  emit (.j condLabel)
  emitLabel endLabel

mutual

/-- `_gen_asm`; the list case is the loop of `gen_comp_stmt`. -/
def genAsmNode : AstNode → Gen Unit
  | .ret expr func => genRet frames func expr.isEmptyExpr (evalAsm frames expr) (genAsmNode expr)
  | .ifElse ifExpr ifBody elseBody =>
      genIf (evalAsm frames ifExpr) (genAsmNode ifBody) (genAsmNode elseBody) elseBody.nonNull
  | .compStmt body => genAsmList body
  | .funcDef value type body params symbol =>
      genFuncDef frames value type params symbol (genAsmNode body)
  | .varDef _ _ expr symbol => genVarDef symbol (evalAsm frames expr)
  | .while_ expr body => genWhile (evalAsm frames expr) (genAsmNode body)
  | .for_ init cond step body =>
      genFor init.isForInit (genAsmNode init) (evalAsm frames init) cond.isEmptyExpr
        (evalAsm frames cond) step.isEmptyExpr (evalAsm frames step) (genAsmNode body)
  | .exprStmt expr => do
      if !expr.isEmptyExpr then
        discard (evalAsm frames expr)
  | .enum _ _ => return ()
  | .emptyExpr => return ()
  | .varDec _ _ _ => return ()
  | .null => Gen.stop .undefined
  | _ => Gen.stop .genUnknownAstType
termination_by structural node => node

/-- `_gen_asm` on the elements of a vector, in order. -/
def genAsmList : List AstNode → Gen Unit
  | [] => return ()
  | node :: rest => do
      genAsmNode node
      genAsmList rest
termination_by structural nodes => nodes

end

end Codegen

/-! ### The whole file

`_start` comes first; it calls `main` and exits with what it returns.
-/

/-- `emit_linux_prologue`. -/
def emitLinuxPrologue : Gen Unit := do
  emitLabel "_start"
  emit (.call "main")
  emit (.li (.a 7) 93)
  emit .ecall

/-- `gen_asm`: the lines of the assembly file. -/
def genAsm (r : SemaResult) : Except AsmError (List Line) :=
  match (do emitLinuxPrologue; genAsmList r.frames r.prog : Gen Unit) (makeRiscv r.entries) with
  | .ok (_, _, code) => .ok code
  | .error e => .error e

end MyLang
