/-
Taking the code of statements apart.

There is one lemma per generator: it returned exactly if its parts did, and then its code
is the code of the parts between the lines it writes itself.  Whatever is proved about the
code of statements, be it its run, its labels or its immediates, follows these lemmas.

A statement leaves the registers as it found them, and no statement writes into a symbol
table entry.

`gen_for` and `gen_func_def` are long, so they are cut into pieces that have a name
(`genForCond`, `genForLoop`, `genFuncEnd`), with an equation that puts them together
again.  The lemmas are equivalences, since some of the modules behind start from a
generator that returned and others have to show that it does.

The state between the pieces matters in two ways: a construct takes the numbers of its
labels before its parts are generated, and it gives a register back as soon as the branch
or the move that reads it is written.
-/
import MyLang.Proofs.Registers
import MyLang.Proofs.SemaLayout

namespace MyLang

open Rv32

variable {frames : List StackFrame} {st st' : AsmState} {c : List Line} {u : Unit}

/-! ### One lemma per generator

A part of a statement that is missing writes nothing, and its register is not taken.
-/

/-- The labels a statement makes up from a base label. -/
def AsmState.label (st : AsmState) (kind : LabelKind) (str : String) : String :=
  extendLabel (st.baseLabel kind) str

theorem discard_eq_ok {e : Gen Temp} :
    discard e st = .ok (u, st', c) ↔ ∃ reg st1, e st = .ok (reg, st1, c) ∧
      st' = st1.release reg := by
  rw [discard, Gen.bind_eq_ok]
  constructor
  · rintro ⟨reg, st1, c1, c2, he, h, rfl⟩
    obtain ⟨rfl, rfl⟩ := freeRegister_eq_ok.mp h
    exact ⟨reg, st1, by rwa [List.append_nil], rfl⟩
  · rintro ⟨reg, st1, he, rfl⟩
    exact ⟨reg, st1, c, [], he, freeRegister_eq_ok.mpr ⟨rfl, rfl⟩, (List.append_nil c).symm⟩

/-- The value, and its store to the slot of the variable. -/
theorem genVarDef_eq_ok {symbol : Option SymId} {e : Gen Temp} :
    genVarDef symbol e st = .ok (u, st', c) ↔
      ∃ id entry reg st1 c1, symbol = some id ∧ st.entries[id]? = some entry ∧
        e st = .ok (reg, st1, c1) ∧ st' = st1.release reg ∧
        c = c1 ++ [.instr (.sw (.t reg) (-((entry.offset + localsBase : Nat) : Int)) fp)] := by
  simp only [genVarDef, symbolEntry_bind_eq_ok, emitStoreWordFp]
  constructor
  · rintro ⟨id, entry, hid, hent, h⟩
    rw [Gen.bind_eq_ok] at h
    obtain ⟨reg, st1, c1, c2, he, h, rfl⟩ := h
    rw [emit_bind_eq_ok] at h
    obtain ⟨c2, h, rfl⟩ := h
    obtain ⟨rfl, rfl⟩ := freeRegister_eq_ok.mp h
    exact ⟨id, entry, reg, st1, c1, hid, hent, he, rfl, rfl⟩
  · rintro ⟨id, entry, reg, st1, c1, hid, hent, he, rfl, rfl⟩
    refine ⟨id, entry, hid, hent, Gen.bind_eq_ok.mpr ⟨reg, st1, c1, _, he, ?_, rfl⟩⟩
    exact emit_bind_eq_ok.mpr ⟨[], freeRegister_eq_ok.mpr ⟨rfl, rfl⟩, rfl⟩

/-- The condition, its branch, the body, the label, and perhaps another body. -/
theorem genIf_eq_ok {e : Gen Temp} {b1 b2 : Gen Unit} {hasElse : Bool} :
    genIf e b1 b2 hasElse st = .ok (u, st', c) ↔
      ∃ reg st1 c1 st2 c2 c3, e ((st.bump .if_).bump .else_) = .ok (reg, st1, c1) ∧
        b1 (st1.release reg) = .ok ((), st2, c2) ∧
        (if hasElse then b2 else pure ()) st2 = .ok ((), st', c3) ∧
        c = .label (st.baseLabel .if_) :: (c1 ++ .instr (.beq (.t reg) .zero
          ((st.bump .if_).baseLabel .else_)) :: (c2 ++
            .label ((st.bump .if_).baseLabel .else_) :: c3)) := by
  simp only [genIf, createBaseCondLabel_bind_apply, emitLabel_bind_eq_ok]
  constructor
  · rintro ⟨c', h, rfl⟩
    rw [Gen.bind_eq_ok] at h
    obtain ⟨reg, st1, c1, c2, he, h, rfl⟩ := h
    rw [emit_bind_eq_ok] at h
    obtain ⟨c2, h, rfl⟩ := h
    rw [freeRegister_bind_apply, Gen.bind_eq_ok] at h
    obtain ⟨_, st2, c2, c3, hb, h, rfl⟩ := h
    rw [emitLabel_bind_eq_ok] at h
    obtain ⟨c3, h, rfl⟩ := h
    exact ⟨reg, st1, c1, st2, c2, c3, he, hb, h, rfl⟩
  · rintro ⟨reg, st1, c1, st2, c2, c3, he, hb, h, rfl⟩
    refine ⟨_, ?_, rfl⟩
    refine Gen.bind_eq_ok.mpr ⟨reg, st1, c1, _, he, emit_bind_eq_ok.mpr ⟨_, ?_, rfl⟩, rfl⟩
    rw [freeRegister_bind_apply]
    exact Gen.bind_eq_ok.mpr ⟨(), st2, c2, _, hb, emitLabel_bind_eq_ok.mpr ⟨c3, h, rfl⟩, rfl⟩

/-- The label, the condition, its branch, the body, the jump back, and the end. -/
theorem genWhile_eq_ok {e : Gen Temp} {b : Gen Unit} :
    genWhile e b st = .ok (u, st', c) ↔
      ∃ reg st1 c1 c2, e (st.bump .while_) = .ok (reg, st1, c1) ∧
        b (st1.release reg) = .ok ((), st', c2) ∧
        c = .label (st.label .while_ "start") :: (c1 ++
          .instr (.beq (.t reg) .zero (st.label .while_ "end")) :: (c2 ++
            [.instr (.j (st.label .while_ "start")), .label (st.label .while_ "end")])) := by
  simp only [genWhile, createBaseCondLabel_bind_apply, emitLabel_bind_eq_ok, AsmState.label]
  constructor
  · rintro ⟨c', h, rfl⟩
    rw [Gen.bind_eq_ok] at h
    obtain ⟨reg, st1, c1, c2, he, h, rfl⟩ := h
    rw [emit_bind_eq_ok] at h
    obtain ⟨c2, h, rfl⟩ := h
    rw [freeRegister_bind_apply, Gen.bind_eq_ok] at h
    obtain ⟨_, st2, c2, c3, hb, h, rfl⟩ := h
    rw [emit_bind_eq_ok] at h
    obtain ⟨c3, h, rfl⟩ := h
    obtain ⟨rfl, rfl⟩ := emitLabel_eq_ok.mp h
    exact ⟨reg, st1, c1, c2, he, hb, rfl⟩
  · rintro ⟨reg, st1, c1, c2, he, hb, rfl⟩
    refine ⟨_, ?_, rfl⟩
    refine Gen.bind_eq_ok.mpr ⟨reg, st1, c1, _, he, emit_bind_eq_ok.mpr ⟨_, ?_, rfl⟩, rfl⟩
    rw [freeRegister_bind_apply]
    exact Gen.bind_eq_ok.mpr ⟨(), st', c2, _, hb,
      emit_bind_eq_ok.mpr ⟨_, emitLabel_eq_ok.mpr ⟨rfl, rfl⟩, rfl⟩, rfl⟩

/-- A condition that jumps out of a `for` loop, unless it is empty. -/
def genForCond (label : String) (condEmpty : Bool) (evalCond : Gen Temp) : Gen Unit := do
  if !condEmpty then
    let reg ← evalCond
    emit (.beq (.t reg) .zero (extendLabel label "end"))
    freeRegister reg

/-- `gen_for` from the label of the condition on. -/
def genForLoop (label : String) (condEmpty : Bool) (evalCond : Gen Temp) (genStep : Gen Unit)
    (genBody : Gen Unit) : Gen Unit := do
  emitLabel (extendLabel label "cond")
  genForCond label condEmpty evalCond
  emitLabel (extendLabel label "body")
  genBody
  emitLabel (extendLabel label "step")
  genStep
  emit (.j (extendLabel label "cond"))
  emitLabel (extendLabel label "end")

/-- The part of `gen_for` that runs once. -/
def genForInit (isForInit : Bool) (genInit : Gen Unit) (evalInit : Gen Temp) : Gen Unit :=
  if isForInit then genInit else discard evalInit

/-- The step of a `for` loop, unless it is empty. -/
def genForStep (stepEmpty : Bool) (evalStep : Gen Temp) : Gen Unit :=
  if !stepEmpty then discard evalStep else pure ()

theorem genFor_eq {isForInit condEmpty stepEmpty : Bool} {genInit genBody : Gen Unit}
    {evalInit evalCond evalStep : Gen Temp} :
    genFor isForInit genInit evalInit condEmpty evalCond stepEmpty evalStep genBody = (do
      let label ← createBaseCondLabel .for_
      emitLabel (extendLabel label "init")
      genForInit isForInit genInit evalInit
      genForLoop label condEmpty evalCond (genForStep stepEmpty evalStep) genBody) := by
  unfold genFor genForLoop genForCond genForInit genForStep
  cases isForInit <;> cases condEmpty <;> cases stepEmpty <;> simp

theorem genForCond_eq_ok {label : String} {condEmpty : Bool} {e : Gen Temp} :
    genForCond label condEmpty e st = .ok (u, st', c) ↔
      (condEmpty = true ∧ st' = st ∧ c = []) ∨
        (condEmpty = false ∧ ∃ reg st1 c1, e st = .ok (reg, st1, c1) ∧ st' = st1.release reg ∧
          c = c1 ++ [.instr (.beq (.t reg) .zero (extendLabel label "end"))]) := by
  cases condEmpty with
  | true => simp [genForCond]
  | false =>
      simp only [genForCond, Bool.not_false, if_true, Bool.false_eq_true, false_and, true_and,
        false_or, Gen.bind_eq_ok, emit_eq_ok, freeRegister_eq_ok]
      constructor
      · rintro ⟨reg, st1, c1, _, he, ⟨_, _, _, _, ⟨rfl, rfl⟩, ⟨rfl, rfl⟩, rfl⟩, rfl⟩
        exact ⟨reg, _, c1, he, rfl, rfl⟩
      · rintro ⟨reg, st1, c1, he, rfl, rfl⟩
        exact ⟨reg, st1, c1, _, he, ⟨(), st1, _, [], ⟨rfl, rfl⟩, ⟨rfl, rfl⟩, rfl⟩, rfl⟩

/-- The condition, the body, the step, and the jump back. -/
theorem genForLoop_eq_ok {label : String} {condEmpty : Bool} {e : Gen Temp} {s b : Gen Unit} :
    genForLoop label condEmpty e s b st = .ok (u, st', c) ↔
      ∃ st1 c1 st2 c2 c3, genForCond label condEmpty e st = .ok ((), st1, c1) ∧
        b st1 = .ok ((), st2, c2) ∧ s st2 = .ok ((), st', c3) ∧
        c = .label (extendLabel label "cond") :: (c1 ++ .label (extendLabel label "body") ::
          (c2 ++ .label (extendLabel label "step") :: (c3 ++
            [.instr (.j (extendLabel label "cond")), .label (extendLabel label "end")]))) := by
  simp only [genForLoop, emitLabel_bind_eq_ok]
  constructor
  · rintro ⟨c', h, rfl⟩
    rw [Gen.bind_eq_ok] at h
    obtain ⟨_, st1, c1, c2, hc, h, rfl⟩ := h
    rw [emitLabel_bind_eq_ok] at h
    obtain ⟨c2, h, rfl⟩ := h
    rw [Gen.bind_eq_ok] at h
    obtain ⟨_, st2, c2, c3, hb, h, rfl⟩ := h
    rw [emitLabel_bind_eq_ok] at h
    obtain ⟨c3, h, rfl⟩ := h
    rw [Gen.bind_eq_ok] at h
    obtain ⟨_, st3, c3, c4, hs, h, rfl⟩ := h
    rw [emit_bind_eq_ok] at h
    obtain ⟨c4, h, rfl⟩ := h
    obtain ⟨rfl, rfl⟩ := emitLabel_eq_ok.mp h
    exact ⟨st1, c1, st2, c2, c3, hc, hb, hs, rfl⟩
  · rintro ⟨st1, c1, st2, c2, c3, hc, hb, hs, rfl⟩
    refine ⟨_, Gen.bind_eq_ok.mpr ⟨(), st1, c1, _, hc, ?_, rfl⟩, rfl⟩
    refine emitLabel_bind_eq_ok.mpr ⟨_, Gen.bind_eq_ok.mpr ⟨(), st2, c2, _, hb, ?_, rfl⟩, rfl⟩
    refine emitLabel_bind_eq_ok.mpr ⟨_, Gen.bind_eq_ok.mpr ⟨(), st', c3, _, hs, ?_, rfl⟩, rfl⟩
    exact emit_bind_eq_ok.mpr ⟨_, emitLabel_eq_ok.mpr ⟨rfl, rfl⟩, rfl⟩

/-- What runs once, and then the loop. -/
theorem genFor_eq_ok {isForInit condEmpty stepEmpty : Bool} {genInit genBody : Gen Unit}
    {evalInit evalCond evalStep : Gen Temp} :
    genFor isForInit genInit evalInit condEmpty evalCond stepEmpty evalStep genBody st
        = .ok (u, st', c) ↔
      ∃ st1 c1 c2,
        genForInit isForInit genInit evalInit (st.bump .for_) = .ok ((), st1, c1) ∧
        genForLoop (st.baseLabel .for_) condEmpty evalCond
          (genForStep stepEmpty evalStep) genBody st1 = .ok ((), st', c2) ∧
        c = .label (st.label .for_ "init") :: (c1 ++ c2) := by
  simp only [genFor_eq, createBaseCondLabel_bind_apply, emitLabel_bind_eq_ok, AsmState.label]
  constructor
  · rintro ⟨c', h, rfl⟩
    rw [Gen.bind_eq_ok] at h
    obtain ⟨_, st1, c1, c2, hi, h, rfl⟩ := h
    exact ⟨st1, c1, c2, hi, h, rfl⟩
  · rintro ⟨st1, c1, c2, hi, h, rfl⟩
    exact ⟨_, Gen.bind_eq_ok.mpr ⟨(), st1, c1, c2, hi, h, rfl⟩, rfl⟩

/-! ### Entering and leaving a function

What is written at the two ends of a function does not depend on its body but for the size
of the frame, which the analysis has found out.
-/

/-- The lines of `emitEpilogue`. -/
def epilogueCode (frame : Nat) : List Line :=
  [.instr (.lw .ra (sizeToInt (frame - registerSize)) .sp),
    .instr (.lw fp (sizeToInt (frame - registerSize * 2)) .sp), .instr (.addi .sp .sp frame)]

/-- The lines of `emitPrologue`. -/
def prologueCode (frame : Nat) : List Line :=
  .instr (.addi .sp .sp (-(frame : Int))) ::
    .instr (.sw .ra (sizeToInt (frame - registerSize)) .sp) ::
    .instr (.sw fp (sizeToInt (frame - registerSize * 2)) .sp) ::
    .instr (.addi fp .sp (sizeToInt frame)) ::
    storeCode ((List.finRange argLength).map .a) (registerSize * 2)

/-- The entries after the parameter loop of `gen_func_def`, from the `i`th parameter on. -/
def paramEntries : Nat → List Param → List SymTabEntry → List SymTabEntry
  | _, [], entries => entries
  | i, param :: rest, entries =>
      paramEntries (i + 1) rest <| match param.symbol with
        | some id => entries.modify id fun e => { e with isArgLoaded := true, argReg := i }
        | none => entries

@[simp] theorem emitEpilogue_apply (frame : Nat) :
    emitEpilogue frame st = .ok ((), st, epilogueCode frame) := rfl

theorem saveArgs_apply (regs : List (Fin argLength)) (off : Nat) :
    saveArgs regs (off + registerSize) st = .ok ((), st, storeCode (regs.map .a) off) := by
  induction regs generalizing off with
  | nil => rfl
  | cons reg regs ih =>
      simp only [saveArgs, emitStoreWordFp, emit_bind_eq_ok, List.map_cons, storeCode]
      exact ⟨_, ih (off + registerSize), rfl⟩

@[simp] theorem emitPrologue_apply (frame : Nat) :
    emitPrologue frame st = .ok ((), st, prologueCode frame) := by
  simp only [emitPrologue, emitSpDecrease, emitSpStore, emitAddImm, emit_bind_eq_ok, prologueCode]
  exact ⟨_, ⟨_, ⟨_, ⟨_, saveArgs_apply _ _, rfl⟩, rfl⟩, rfl⟩, rfl⟩

theorem loadParams_eq_ok {i : Nat} {params : List Param} :
    loadParams i params st = .ok (u, st', c) ↔
      (∀ p ∈ params, ∃ id, p.symbol = some id) ∧
        st' = { st with entries := paramEntries i params st.entries } ∧ c = [] := by
  induction params generalizing i st with
  | nil => simp [loadParams, paramEntries]
  | cons param params ih =>
      simp only [loadParams, follow_bind_eq_ok, update_bind_apply, ih, paramEntries,
        List.forall_mem_cons]
      constructor
      · rintro ⟨id, hid, hrest, rfl, rfl⟩
        exact ⟨⟨⟨id, hid⟩, hrest⟩, by rw [hid], rfl⟩
      · rintro ⟨⟨⟨id, hid⟩, hrest⟩, rfl, rfl⟩
        exact ⟨id, hid, hrest, by rw [hid], rfl⟩

/-- The value of a `return`, moved to where the caller finds it. -/
def genRetValue (isEmpty : Bool) (e : Gen Temp) (g : Gen Unit) : Gen Unit := do
  if isEmpty then
    g
  else
    let reg ← e
    emitMoveRegister (.t reg) (.a 0)
    freeRegister reg

theorem genRetValue_eq_ok {isEmpty : Bool} {e : Gen Temp} {g : Gen Unit} :
    genRetValue isEmpty e g st = .ok (u, st', c) ↔
      (isEmpty = true ∧ g st = .ok ((), st', c)) ∨
        (isEmpty = false ∧ ∃ reg st1 c1, e st = .ok (reg, st1, c1) ∧ st' = st1.release reg ∧
          c = c1 ++ [.instr (.mv (.a 0) (.t reg))]) := by
  cases isEmpty with
  | true => simp [genRetValue]
  | false =>
      simp only [genRetValue, Bool.false_eq_true, if_false, false_and, true_and, false_or,
        emitMoveRegister, Gen.bind_eq_ok, emit_eq_ok, freeRegister_eq_ok]
      constructor
      · rintro ⟨reg, st1, c1, _, he, ⟨_, _, _, _, ⟨rfl, rfl⟩, ⟨rfl, rfl⟩, rfl⟩, rfl⟩
        exact ⟨reg, _, c1, he, rfl, rfl⟩
      · rintro ⟨reg, st1, c1, he, rfl, rfl⟩
        exact ⟨reg, st1, c1, _, he, ⟨(), st1, _, [], ⟨rfl, rfl⟩, ⟨rfl, rfl⟩, rfl⟩, rfl⟩

theorem genRet_eq {func : Option SymId} {isEmpty : Bool} {e : Gen Temp} {g : Gen Unit} :
    genRet frames func isEmpty e g = (do
      let entry ← symbolEntry func
      genRetValue isEmpty e g
      let size ← frameSizeOf frames entry
      emitEpilogue (frameSize size)
      emitReturnFromJump) := by
  unfold genRet genRetValue
  cases isEmpty <;> simp

/-- The value, if there is one, and the way out with the frame of the function. -/
theorem genRet_eq_ok {func : Option SymId} {isEmpty : Bool} {e : Gen Temp} {g : Gen Unit} :
    genRet frames func isEmpty e g st = .ok (u, st', c) ↔
      ∃ id entry fid frame c1, func = some id ∧ st.entries[id]? = some entry ∧
        entry.frame = some fid ∧ frames[fid]? = some frame ∧
        genRetValue isEmpty e g st = .ok ((), st', c1) ∧
        c = c1 ++ (epilogueCode (frameSize frame.size) ++ [.instr (.jalr .ra)]) := by
  simp only [genRet_eq, symbolEntry_bind_eq_ok, frameSizeOf, bind_assoc, pure_bind]
  constructor
  · rintro ⟨id, entry, hid, hent, h⟩
    rw [Gen.bind_eq_ok] at h
    obtain ⟨_, st1, c1, c2, hv, h, rfl⟩ := h
    rw [follow_bind_eq_ok] at h
    obtain ⟨fid, hfid, h⟩ := h
    rw [follow_bind_eq_ok] at h
    obtain ⟨frame, hframe, h⟩ := h
    rw [Gen.bind_eq_ok] at h
    obtain ⟨_, st2, c2, c3, hep, h, rfl⟩ := h
    obtain ⟨-, rfl, rfl⟩ := Prod.mk.inj (Except.ok.inj hep)
    obtain ⟨rfl, rfl⟩ := emit_eq_ok.mp h
    exact ⟨id, entry, fid, frame, c1, hid, hent, hfid, hframe, hv, rfl⟩
  · rintro ⟨id, entry, fid, frame, c1, hid, hent, hfid, hframe, hv, rfl⟩
    refine ⟨id, entry, hid, hent, Gen.bind_eq_ok.mpr ⟨(), st', c1, _, hv, ?_, rfl⟩⟩
    refine follow_bind_eq_ok.mpr ⟨fid, hfid, follow_bind_eq_ok.mpr ⟨frame, hframe, ?_⟩⟩
    exact Gen.bind_eq_ok.mpr ⟨(), st', _, _, emitEpilogue_apply _, emit_eq_ok.mpr ⟨rfl, rfl⟩, rfl⟩

/-- The lines behind the body of a function. -/
def funcEndCode (type : String) (frame : Nat) : List Line :=
  (if type = "void" then epilogueCode frame else []) ++ [.instr (.jalr .ra)]

/-- What `gen_func_def` does behind the body. -/
def genFuncEnd (type : String) (frame : Nat) : Gen Unit := do
  if type = "void" then
    emitEpilogue frame
  emitReturnFromJump

@[simp] theorem genFuncEnd_apply (type : String) (frame : Nat) :
    genFuncEnd type frame st = .ok ((), st, funcEndCode type frame) := by
  unfold genFuncEnd funcEndCode
  split <;> rfl

/-- The label, the prologue, the parameters, the body, and what comes behind it. -/
theorem genFuncDef_eq_ok {value type : String} {params : List Param} {symbol : Option SymId}
    {b : Gen Unit} :
    genFuncDef frames value type params symbol b st = .ok (u, st', c) ↔
      ∃ id entry fid frame c1, (∀ p ∈ params, ∃ id, p.symbol = some id) ∧ symbol = some id ∧
        (paramEntries 0 params st.entries)[id]? = some entry ∧ entry.frame = some fid ∧
        frames[fid]? = some frame ∧
        b { st with entries := paramEntries 0 params st.entries } = .ok ((), st', c1) ∧
        c = .label value :: (prologueCode (frameSize frame.size) ++
          (c1 ++ funcEndCode type (frameSize frame.size))) := by
  simp only [genFuncDef, emitLabel_bind_eq_ok]
  constructor
  · rintro ⟨c', h, rfl⟩
    rw [Gen.bind_eq_ok] at h
    obtain ⟨_, st1, c1, c2, hl, h, rfl⟩ := h
    obtain ⟨hp, rfl, rfl⟩ := loadParams_eq_ok.mp hl
    simp only [symbolEntry_bind_eq_ok, frameSizeOf, bind_assoc, pure_bind] at h
    obtain ⟨id, entry, hid, hent, h⟩ := h
    rw [follow_bind_eq_ok] at h
    obtain ⟨fid, hfid, h⟩ := h
    rw [follow_bind_eq_ok] at h
    obtain ⟨frame, hframe, h⟩ := h
    rw [Gen.bind_eq_ok] at h
    obtain ⟨_, st2, c2, c3, hpro, h, rfl⟩ := h
    obtain ⟨-, rfl, rfl⟩ := Prod.mk.inj (Except.ok.inj hpro)
    rw [Gen.bind_eq_ok] at h
    obtain ⟨_, st3, c4, c5, hb, h, rfl⟩ := h
    change genFuncEnd type _ st3 = _ at h
    obtain ⟨-, rfl, rfl⟩ := Prod.mk.inj (Except.ok.inj ((genFuncEnd_apply ..).symm.trans h))
    exact ⟨id, entry, fid, frame, c4, hp, hid, hent, hfid, hframe, hb, rfl⟩
  · rintro ⟨id, entry, fid, frame, c1, hp, hid, hent, hfid, hframe, hb, rfl⟩
    refine ⟨_, Gen.bind_eq_ok.mpr ⟨(), _, [], _, loadParams_eq_ok.mpr ⟨hp, rfl, rfl⟩, ?_, rfl⟩, rfl⟩
    simp only [symbolEntry_bind_eq_ok, frameSizeOf, bind_assoc, pure_bind]
    refine ⟨id, entry, hid, hent, follow_bind_eq_ok.mpr ⟨fid, hfid, ?_⟩⟩
    refine follow_bind_eq_ok.mpr ⟨frame, hframe, ?_⟩
    refine Gen.bind_eq_ok.mpr ⟨(), _, _, _, emitPrologue_apply _, ?_, rfl⟩
    exact Gen.bind_eq_ok.mpr ⟨(), _, _, _, hb, genFuncEnd_apply .., rfl⟩

/-! ### What a statement leaves alone

Registers and entries only; the counters of labels go up.
-/

/-- A statement gives back every register it takes and writes into no entry. -/
structure Balanced (st st' : AsmState) : Prop where
  free : st'.free = st.free
  entries : st'.entries = st.entries

namespace Balanced

variable {st1 st2 : AsmState} {reg : Temp}

theorem refl (st : AsmState) : Balanced st st := ⟨rfl, rfl⟩

theorem trans (h : Balanced st st1) (h' : Balanced st1 st') : Balanced st st' :=
  ⟨h'.free.trans h.free, h'.entries.trans h.entries⟩

theorem bump (st : AsmState) (kind : LabelKind) : Balanced st (st.bump kind) :=
  ⟨AsmState.bump_free .., AsmState.bump_entries ..⟩

/-- An expression whose register is given back. -/
theorem eval {node : AstNode} (h : evalAsm frames node st = .ok (reg, st1, c)) :
    Balanced st (st1.release reg) := by
  have ha := evalAsm_allocs node h
  exact ⟨ha.release, ha.entries⟩

end Balanced

theorem discard_balanced {node : AstNode}
    (h : discard (evalAsm frames node) st = .ok (u, st', c)) : Balanced st st' := by
  obtain ⟨reg, st1, he, rfl⟩ := discard_eq_ok.mp h
  exact Balanced.eval he

theorem genForCond_balanced {label : String} {condEmpty : Bool} {cond : AstNode}
    (h : genForCond label condEmpty (evalAsm frames cond) st = .ok (u, st', c)) :
    Balanced st st' := by
  rcases genForCond_eq_ok.mp h with ⟨-, rfl, -⟩ | ⟨-, reg, st1, c1, he, rfl, -⟩
  · exact Balanced.refl st'
  · exact Balanced.eval he

theorem genForStep_balanced {stepEmpty : Bool} {step : AstNode}
    (h : genForStep stepEmpty (evalAsm frames step) st = .ok (u, st', c)) : Balanced st st' := by
  cases stepEmpty with
  | true =>
      obtain ⟨-, rfl, -⟩ := Gen.pure_eq_ok.mp h
      exact Balanced.refl st'
  | false => exact discard_balanced h

theorem genAsmList_balanced {l : List AstNode}
    (ih : ∀ n ∈ l, ∀ {st st' c}, genAsmNode frames n st = .ok ((), st', c) → Balanced st st')
    (h : genAsmList frames l st = .ok ((), st', c)) : Balanced st st' := by
  induction l generalizing st c with
  | nil =>
      obtain ⟨-, rfl, -⟩ := Gen.pure_eq_ok.mp h
      exact Balanced.refl st'
  | cons node rest ihl =>
      rw [genAsmList, Gen.bind_eq_ok] at h
      obtain ⟨_, st1, c1, c2, h1, h2, rfl⟩ := h
      exact (ih node (by simp) h1).trans (ihl (fun n hn => ih n (by simp [hn])) h2)

/-- **The code of a statement gives back every register and writes into no entry.** -/
theorem genAsmNode_balanced {node : AstNode} (hff : node.funcFree = true)
    (h : genAsmNode frames node st = .ok ((), st', c)) : Balanced st st' := by
  induction node generalizing st st' c with
  | ret expr func ih =>
      rw [genAsmNode, genRet_eq_ok] at h
      obtain ⟨-, -, -, -, c1, -, -, -, -, hv, -⟩ := h
      rcases genRetValue_eq_ok.mp hv with ⟨-, hg⟩ | ⟨-, reg, st1, _, he, rfl, -⟩
      · exact ih hff hg
      · exact Balanced.eval he
  | ifElse ifExpr ifBody elseBody _ ihb ihe =>
      simp only [AstNode.funcFree, Bool.and_eq_true] at hff
      rw [genAsmNode, genIf_eq_ok] at h
      obtain ⟨reg, st1, c1, st2, c2, c3, he, hb, helse, -⟩ := h
      have hbody := ((Balanced.bump st .if_).trans (Balanced.bump _ .else_)).trans
        ((Balanced.eval he).trans (ihb hff.1.2 hb))
      split at helse
      · exact hbody.trans (ihe hff.2 helse)
      · obtain ⟨-, rfl, -⟩ := Gen.pure_eq_ok.mp helse
        exact hbody
  | compStmt body ih =>
      rw [AstNode.funcFree, funcFreeList_iff] at hff
      exact genAsmList_balanced (fun n hn => ih n hn (hff n hn)) h
  | funcDef value type body params symbol _ => simp [AstNode.funcFree] at hff
  | varDef value type expr symbol _ =>
      rw [genAsmNode, genVarDef_eq_ok] at h
      obtain ⟨-, -, reg, st1, c1, -, -, he, rfl, -⟩ := h
      exact Balanced.eval he
  | while_ expr body _ ihb =>
      simp only [AstNode.funcFree, Bool.and_eq_true] at hff
      rw [genAsmNode, genWhile_eq_ok] at h
      obtain ⟨reg, st1, c1, c2, he, hb, -⟩ := h
      exact (Balanced.bump st .while_).trans ((Balanced.eval he).trans (ihb hff.2 hb))
  | for_ init cond step body ihi _ _ ihb =>
      simp only [AstNode.funcFree, Bool.and_eq_true] at hff
      rw [genAsmNode, genFor_eq_ok] at h
      obtain ⟨st1, c1, c2, hi, hloop, -⟩ := h
      obtain ⟨st2, _, st3, _, _, hcond, hb, hstep, -⟩ := genForLoop_eq_ok.mp hloop
      have hinit : Balanced (st.bump .for_) st1 := by
        unfold genForInit at hi
        split at hi
        · exact ihi hff.1.1.1 hi
        · exact discard_balanced hi
      exact (Balanced.bump st .for_).trans (hinit.trans ((genForCond_balanced hcond).trans
        ((ihb hff.2 hb).trans (genForStep_balanced hstep))))
  | exprStmt expr _ =>
      rw [genAsmNode] at h
      split at h
      · exact discard_balanced h
      · obtain ⟨-, rfl, -⟩ := Gen.pure_eq_ok.mp h
        exact Balanced.refl st'
  | enum | emptyExpr | varDec =>
      obtain ⟨-, rfl, -⟩ := Gen.pure_eq_ok.mp h
      exact Balanced.refl st'
  | _ => simp [genAsmNode] at h

end MyLang
