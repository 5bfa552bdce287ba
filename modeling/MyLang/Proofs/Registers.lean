/-
The register discipline of code generation.

`eval_asm` takes one register, which was free, and gives back every other it takes on the
way: after it exactly one more register is busy.  That holds with any registers busy
before, which is what lets a binary operator evaluate its right operand while it holds the
left one, and it holds of calls, which free everything and then restore it.  A statement
leaves the flags as they were.

`Allocs` is this for one register, and `AllocsResult` says of a generator that the
register it returns is the one it takes.  The operators are done at once, by the shape
their code has (`OpCode`); a call is taken apart here as well, since its code is used in
many places.  `FuncCallCode` holds what a call looked up, took and wrote, and
`evalFuncCall_code` gives it for every call that was generated.

The lines by which a call saves and restores are the same for any register, so they are
lists over the busy registers, `storeCode`, `loadCode` and `restoreCode`, and later
modules run them without looking at the generator again.
-/
import MyLang.Proofs.ExprCode
import MyLang.Proofs.Ast

namespace MyLang

open Rv32

variable {frames : List StackFrame} {st st' st1 st2 st3 : AsmState} {c : List Line}
  {reg left right : Temp} {opType : TokenType}

/-- From `st` to `st'` exactly the register `reg` was taken. -/
structure Allocs (st : AsmState) (reg : Temp) (st' : AsmState) : Prop where
  was_free : st.free reg = true
  free : st'.free = Function.update st.free reg false
  entries : st'.entries = st.entries

/-- A generator that takes exactly its result's register. -/
def AllocsResult (g : Gen Temp) : Prop :=
  ∀ ⦃st reg st' c⦄, g st = .ok (reg, st', c) → Allocs st reg st'

namespace Allocs

theorem of_first (h : st.first = some reg) : Allocs st reg (st.take reg) :=
  ⟨alloc_free h, rfl, rfl⟩

theorem busy (h : Allocs st reg st') : st'.free reg = false := by simp [h.free]

theorem free_of_ne (h : Allocs st reg st') {i : Temp} (hi : i ≠ reg) :
    st'.free i = st.free i := by
  simp [h.free, hi]

/-- What was busy stays busy. -/
theorem busy_of_busy (h : Allocs st reg st') {i : Temp} (hi : st.free i = false) :
    st'.free i = false := by
  by_cases hir : i = reg
  · rw [hir, h.busy]
  · rw [h.free_of_ne hir, hi]

/-- Giving the register back restores the flags. -/
theorem release (h : Allocs st reg st') : (st'.release reg).free = st.free := by
  funext i
  by_cases hi : i = reg
  · simp [hi, h.was_free]
  · simp [hi, h.free_of_ne hi]

/-- The second of two registers is another one. -/
theorem ne (hl : Allocs st left st1) (hr : Allocs st1 right st2) : right ≠ left := by
  rintro rfl
  simpa [hl.busy] using hr.was_free

end Allocs

/-! ### Operators

Arithmetic gives the result in the register of the left operand, the others give it in a
new one.
-/

/-- A new register was free before the operands were evaluated. -/
private theorem free_before (hl : Allocs st left st1) (hr : Allocs st1 right st2)
    (h : st2.free reg = true) : reg ≠ left ∧ reg ≠ right ∧ st.free reg = true := by
  have hright : reg ≠ right := by
    rintro rfl
    simp [hr.busy] at h
  have hleft : reg ≠ left := by
    rintro rfl
    simp [hr.free_of_ne hright, hl.busy] at h
  exact ⟨hleft, hright, by rw [← hl.free_of_ne hleft, ← hr.free_of_ne hright, h]⟩

/-- Both operands given back, the flags are the old ones and the new register is busy. -/
private theorem releaseBoth_allocs (hl : Allocs st left st1) (hr : Allocs st1 right st2)
    (h : st2.free reg = true) (hfree : st3.free = Function.update st2.free reg false)
    (hent : st3.entries = st2.entries) : Allocs st reg (st3.releaseBoth left right) := by
  obtain ⟨hleft, hright, hreg⟩ := free_before hl hr h
  refine ⟨hreg, ?_, by simp [AsmState.releaseBoth, hent, hr.entries, hl.entries]⟩
  have hl0 := hl.was_free
  have hr0 : st.free right = true := by rw [← hl.free_of_ne (hl.ne hr), hr.was_free]
  funext i
  simp only [AsmState.releaseBoth, AsmState.release_free, hfree, hr.free, hl.free,
    Function.update_apply]
  split_ifs <;> simp_all

/-- An operator leaves exactly its result's register taken. -/
theorem OpCode.allocs (h : OpCode left right st2 opType reg st3 c) (hl : Allocs st left st1)
    (hr : Allocs st1 right st2) : Allocs st reg st3 := by
  cases h with
  | inPlace =>
      exact ⟨hl.was_free, by rw [hr.release, hl.free], by simp [hr.entries, hl.entries]⟩
  | direct _ hreg => exact releaseBoth_allocs hl hr (alloc_free hreg) rfl rfl
  | equal hreg => exact releaseBoth_allocs hl hr (alloc_free hreg) rfl rfl
  | notEqual hreg => exact releaseBoth_allocs hl hr (alloc_free hreg) rfl rfl
  | logAnd hreg => exact releaseBoth_allocs hl hr (alloc_free hreg) rfl rfl
  | logOr hreg => exact releaseBoth_allocs hl hr (alloc_free hreg) rfl rfl
  | @inverted _ _ _ tmp _ hreg htmp =>
      have hfree := alloc_free htmp
      obtain ⟨hleft, hright, _⟩ := free_before hl hr (alloc_free hreg)
      have hne : tmp ≠ reg := by
        rintro rfl
        simp at hfree
      have htmp2 : st2.free tmp = true := by simpa [hne] using hfree
      have h : Allocs st reg ((st2.take reg).releaseBoth left right) :=
        releaseBoth_allocs hl hr (alloc_free hreg) rfl rfl
      refine ⟨h.was_free, ?_, h.entries⟩
      rw [← h.free]
      obtain ⟨hleft', hright', _⟩ := free_before hl hr htmp2
      funext i
      by_cases hi : i = tmp
      · subst hi
        simp [AsmState.releaseBoth, hleft', hright', hne, htmp2]
      · simp [AsmState.releaseBoth, hi, Function.update]

/-! ### Calls

The flags of the registers are kept, all set to free, and put back behind the call.
-/

/-- The state with other free flags. -/
def AsmState.withFree (st : AsmState) (free : Temp → Bool) : AsmState := { st with free }

@[simp] theorem AsmState.withFree_free (st : AsmState) (free : Temp → Bool) :
    (st.withFree free).free = free := rfl

@[simp] theorem AsmState.withFree_entries (st : AsmState) (free : Temp → Bool) :
    (st.withFree free).entries = st.entries := rfl

/-- The busy temporaries, in order. -/
def AsmState.busy (st : AsmState) : List Temp :=
  (List.finRange tempLength).filter fun i => !st.free i

theorem AsmState.mem_busy {i : Temp} : i ∈ st.busy ↔ st.free i = false := by
  simp [AsmState.busy]

/-- Stores of registers into the slots below `off`, one after the other. -/
def storeCode : List Reg → Nat → List Line
  | [], _ => []
  | reg :: rest, off =>
      .instr (.sw reg (-((off + registerSize : Nat) : Int)) fp) ::
        storeCode rest (off + registerSize)

/-- Loads of registers from the slots below `off`, one after the other. -/
def loadCode : List Reg → Nat → List Line
  | [], _ => []
  | reg :: rest, off =>
      .instr (.lw reg (-((off + registerSize : Nat) : Int)) fp) ::
        loadCode rest (off + registerSize)

/-- Loads of registers from the slots from `off` up. -/
def restoreCode : List Reg → Nat → List Line
  | [], _ => []
  | reg :: rest, off =>
      .instr (.lw reg (-(off : Int)) fp) :: restoreCode rest (off - registerSize)

/-- A line that moves a register to the frame or back. -/
inductive FrameMove : Line → Prop
  | store (reg : Reg) (off : Int) : FrameMove (.instr (.sw reg off fp))
  | load (reg : Reg) (off : Int) : FrameMove (.instr (.lw reg off fp))

theorem storeCode_moves {regs : List Reg} {off : Nat} : ∀ x ∈ storeCode regs off, FrameMove x := by
  induction regs generalizing off with
  | nil => exact List.forall_mem_nil _
  | cons reg rest ih => exact List.forall_mem_cons.mpr ⟨.store .., ih⟩

theorem loadCode_moves {regs : List Reg} {off : Nat} : ∀ x ∈ loadCode regs off, FrameMove x := by
  induction regs generalizing off with
  | nil => exact List.forall_mem_nil _
  | cons reg rest ih => exact List.forall_mem_cons.mpr ⟨.load .., ih⟩

theorem restoreCode_moves {regs : List Reg} {off : Nat} :
    ∀ x ∈ restoreCode regs off, FrameMove x := by
  induction regs generalizing off with
  | nil => exact List.forall_mem_nil _
  | cons reg rest ih => exact List.forall_mem_cons.mpr ⟨.load .., ih⟩

/-- Such lines define no label. -/
theorem labels_of_moves (h : ∀ x ∈ c, FrameMove x) : labels c = [] := by
  refine List.filterMap_eq_nil_iff.mpr ?_
  intro x hx
  cases h x hx <;> rfl

@[simp] theorem labels_storeCode (regs : List Reg) (off : Nat) : labels (storeCode regs off) = [] :=
  labels_of_moves storeCode_moves

@[simp] theorem labels_loadCode (regs : List Reg) (off : Nat) : labels (loadCode regs off) = [] :=
  labels_of_moves loadCode_moves

@[simp] theorem labels_restoreCode (regs : List Reg) (off : Nat) :
    labels (restoreCode regs off) = [] :=
  labels_of_moves restoreCode_moves

/-- The busy temporaries are stored and set free. -/
theorem saveTemps_eq_ok {regs freed : List Temp} {off off' : Nat} (hnd : regs.Nodup)
    (h : saveTemps regs off st = .ok ((off', freed), st', c)) :
    freed = regs.filter (fun i => !st.free i) ∧ off' = off + registerSize * freed.length ∧
      st' = st.withFree (fun i => st.free i || decide (i ∈ regs)) ∧
      c = storeCode (freed.map .t) off := by
  induction regs generalizing st st' off off' freed c with
  | nil =>
      simp only [saveTemps, Gen.pure_eq_ok, Prod.mk.injEq] at h
      obtain ⟨⟨rfl, rfl⟩, rfl, rfl⟩ := h
      simp [storeCode, AsmState.withFree]
  | cons r regs ih =>
      obtain ⟨hr, hnd⟩ := List.nodup_cons.mp hnd
      simp only [saveTemps, state_bind_apply] at h
      by_cases hfree : st.free r = true
      · rw [if_pos hfree] at h
        obtain ⟨rfl, rfl, rfl, rfl⟩ := ih hnd h
        refine ⟨by simp [hfree], rfl, ?_, rfl⟩
        congr 1
        funext i
        by_cases hi : i = r
        · simp [hi, hfree]
        · simp [hi]
      · have hbusy : st.free r = false := by simpa using hfree
        rw [if_neg hfree] at h
        simp only [emitStoreWordFp, emit_bind_eq_ok, freeRegister_bind_apply] at h
        obtain ⟨c1, h, rfl⟩ := h
        rw [Gen.bind_eq_ok] at h
        obtain ⟨⟨off1, freed1⟩, st1, c2, c3, h, hp, rfl⟩ := h
        simp only [Gen.pure_eq_ok, Prod.mk.injEq] at hp
        obtain ⟨⟨rfl, rfl⟩, rfl, rfl⟩ := hp
        obtain ⟨rfl, rfl, rfl, rfl⟩ := ih hnd h
        have hfilter : regs.filter (fun i => !(st.release r).free i)
            = regs.filter (fun i => !st.free i) := by
          refine List.filter_congr fun i hi => ?_
          have : i ≠ r := fun he => hr (he ▸ hi)
          simp [this]
        rw [hfilter]
        refine ⟨by
          simp [hbusy], by rw [List.length_cons, Nat.mul_succ]; omega, ?_, by simp [storeCode]⟩
        simp only [AsmState.withFree, AsmState.release, AsmState.mk.injEq, and_true]
        funext i
        by_cases hi : i = r
        · simp [hi]
        · simp [hi]

/-- The temporaries are loaded again, from the last one to the first. -/
theorem restoreTemps_eq_ok {regs : List Temp} {off : Nat} {u : Unit}
    (h : restoreTemps regs off st = .ok (u, st', c)) :
    st' = st.withFree (fun i => st.free i && decide (i ∉ regs)) ∧
      c = restoreCode (regs.map .t) off := by
  induction regs generalizing st st' off c with
  | nil =>
      simp only [restoreTemps, Gen.pure_eq_ok] at h
      obtain ⟨-, rfl, rfl⟩ := h
      simp [restoreCode, AsmState.withFree]
  | cons r regs ih =>
      simp only [restoreTemps, emitLoadWordFp, emit_bind_eq_ok, update_bind_apply] at h
      obtain ⟨c1, h, rfl⟩ := h
      obtain ⟨rfl, rfl⟩ := ih h
      refine ⟨?_, by simp [restoreCode]⟩
      simp only [AsmState.withFree, AsmState.mk.injEq, and_true]
      funext i
      by_cases hi : i = r
      · simp [hi]
      · simp [hi]

theorem loadArgs_eq_ok {regs : List (Fin argLength)} {off : Nat} {u : Unit} :
    loadArgs regs off st = .ok (u, st', c) ↔ st' = st ∧ c = loadCode (regs.map .a) off := by
  induction regs generalizing off c with
  | nil => simp [loadArgs, loadCode]
  | cons r regs ih =>
      simp only [loadArgs, emitLoadWordFp, emit_bind_eq_ok, ih, List.map_cons, loadCode]
      constructor
      · rintro ⟨_, ⟨rfl, rfl⟩, rfl⟩
        exact ⟨rfl, rfl⟩
      · rintro ⟨rfl, rfl⟩
        exact ⟨_, ⟨rfl, rfl⟩, rfl⟩

/-- The argument loop gives every register back, if the arguments do. -/
theorem spillArgs_free {evalArgs : List (Gen Temp)} {off : Nat} {u : Unit}
    (hargs : ∀ g ∈ evalArgs, AllocsResult g)
    (h : spillArgs evalArgs off st = .ok (u, st', c)) :
    st'.free = st.free ∧ st'.entries = st.entries := by
  induction evalArgs generalizing st off c with
  | nil =>
      simp only [spillArgs, Gen.pure_eq_ok] at h
      obtain ⟨-, rfl, rfl⟩ := h
      exact ⟨rfl, rfl⟩
  | cons g rest ih =>
      obtain ⟨r, st1, c1, c2, hg, hrest, rfl⟩ := spillArgs_cons_eq_ok.mp h
      have ha := hargs g (by simp) hg
      obtain ⟨hfree, hent⟩ := ih (fun g hg => hargs g (by simp [hg])) hrest
      exact ⟨by rw [hfree, ha.release], by rw [hent, AsmState.release_entries, ha.entries]⟩

/-- What `eval_func_call` looked up and wrote, once it returned. -/
structure FuncCallCode (frames : List StackFrame) (value : String) (symbol : Option SymId)
    (evalArgs : List (Gen Temp)) (st : AsmState) (reg : Temp) (st' : AsmState) (c : List Line) where
  id : SymId
  entry : SymTabEntry
  frameId : FrameId
  frame : StackFrame
  symbol_eq : symbol = some id
  entry_eq : st.entries[id]? = some entry
  frameId_eq : entry.frame = some frameId
  frame_eq : frames[frameId]? = some frame
  argState : AsmState
  argCode : List Line
  spill : spillArgs evalArgs (frame.size + localsBase + registerSize * st.busy.length)
    (st.withFree fun _ => true) = .ok ((), argState, argCode)
  first : (argState.withFree fun i => argState.free i && decide (i ∉ st.busy)).first = some reg
  state_eq : st' = (argState.withFree fun i => argState.free i && decide (i ∉ st.busy)).take reg
  code_eq : c = storeCode (st.busy.map .t) (frame.size + localsBase) ++
    (argCode ++ (loadCode (((List.finRange argLength).take evalArgs.length).map .a)
      (frame.size + localsBase + registerSize * st.busy.length) ++
      (.instr (.jal value) :: (restoreCode (st.busy.reverse.map .t)
        (frame.size + localsBase + registerSize * st.busy.length) ++
        [.instr (.mv (.t reg) (.a 0))]))))

/--
`eval_func_call` returned, so its code is the saving, the arguments, the jump and the
restoring.
-/
theorem evalFuncCall_code {value : String} {symbol : Option SymId} {evalArgs : List (Gen Temp)}
    (h : evalFuncCall frames value symbol evalArgs st = .ok (reg, st', c)) :
    Nonempty (FuncCallCode frames value symbol evalArgs st reg st' c) := by
  simp only [evalFuncCall, symbolEntry_bind_eq_ok, frameSizeOf, bind_assoc,
    follow_bind_eq_ok, pure_bind] at h
  obtain ⟨id, entry, hsym, hent, fid, hfid, frame, hframe, h⟩ := h
  rw [Gen.bind_eq_ok] at h
  obtain ⟨⟨off, freed⟩, st1, c1, c2, hsave, h, rfl⟩ := h
  obtain ⟨rfl, rfl, rfl, rfl⟩ := saveTemps_eq_ok (List.nodup_finRange _) hsave
  rw [Gen.bind_eq_ok] at h
  obtain ⟨⟨⟩, st2, c3, c4, hspill, h, rfl⟩ := h
  rw [Gen.bind_eq_ok] at h
  obtain ⟨⟨⟩, st3, c5, c6, hload, h, rfl⟩ := h
  obtain ⟨rfl, rfl⟩ := loadArgs_eq_ok.mp hload
  rw [emit_bind_eq_ok] at h
  obtain ⟨c7, h, rfl⟩ := h
  rw [Gen.bind_eq_ok] at h
  obtain ⟨⟨⟩, st4, c8, c9, hrest, h, rfl⟩ := h
  obtain ⟨rfl, rfl⟩ := restoreTemps_eq_ok hrest
  rw [allocRegister_bind_eq_ok] at h
  obtain ⟨r, hfirst, h⟩ := h
  simp only [emitMoveRegister, emit_bind_eq_ok, Gen.pure_eq_ok] at h
  obtain ⟨_, ⟨rfl, rfl, rfl⟩, rfl⟩ := h
  have hall : (fun i => st.free i || decide (i ∈ List.finRange tempLength)) = fun _ => true := by
    funext i
    simp
  have hbusy : (List.finRange tempLength).filter (fun i => !st.free i) = st.busy := rfl
  rw [hall, hbusy] at hspill
  refine ⟨⟨id, entry, fid, frame, hsym, hent, hfid, hframe, _, _, hspill, ?_, ?_, ?_⟩⟩
  · simpa [hbusy] using hfirst
  · simp [hbusy]
  · simp [hbusy]

/-- A call leaves its result's register taken, and the flags as they were. -/
theorem FuncCallCode.allocs {value : String} {symbol : Option SymId} {evalArgs : List (Gen Temp)}
    (f : FuncCallCode frames value symbol evalArgs st reg st' c)
    (hargs : ∀ g ∈ evalArgs, AllocsResult g) :
    Allocs st reg st' := by
  obtain ⟨hfree, hent⟩ := spillArgs_free hargs f.spill
  have hflags : (f.argState.withFree fun i => f.argState.free i && decide (i ∉ st.busy)).free
      = st.free := by
    rw [AsmState.withFree_free, hfree, AsmState.withFree_free]
    funext i
    simp [AsmState.mem_busy]
  refine ⟨?_, ?_, ?_⟩
  · rw [← hflags]
    exact alloc_free f.first
  · rw [f.state_eq, AsmState.take_free, hflags]
  · simp [f.state_eq, hent]

/-! ### Expressions

On the tree, for any flags.
-/

theorem evalAsmList_eq_map (args : List AstNode) :
    evalAsmList frames args = args.map (evalAsm frames) := by
  induction args with
  | nil => rfl
  | cons a args ih => rw [evalAsmList, ih, List.map_cons]

theorem evalIntConst_allocs {value : Int} : AllocsResult (evalIntConst value) := by
  intro st reg st' c h
  obtain ⟨hr, rfl, -⟩ := evalIntConst_eq_ok.mp h
  exact Allocs.of_first hr

theorem evalIdent_allocs {symbol : Option SymId} : AllocsResult (evalIdent symbol) := by
  intro st reg st' c h
  obtain ⟨id, e, -, -, hr, rfl, -⟩ := evalIdent_eq_ok.mp h
  exact Allocs.of_first hr

theorem evalLval_allocs {kind : AstLValueKind} {ident : AstNode} :
    AllocsResult (evalLval kind ident) := by
  intro st reg st' c h
  obtain ⟨value, id, e, -, -, hr, rfl, -⟩ := evalLval_eq_ok.mp h
  exact Allocs.of_first hr

theorem evalBinExp_allocs {evalLeft evalRight : Gen Temp} (hl : AllocsResult evalLeft)
    (hr : AllocsResult evalRight) : AllocsResult (evalBinExp opType evalLeft evalRight) := by
  intro st reg st' c h
  obtain ⟨left, st1, c1, right, st2, c3, c4, hleft, hright, hop, rfl⟩ := evalBinExp_opCode h
  exact hop.allocs (hl hleft) (hr hright)

theorem evalUnaryExpr_allocs {evalExpr : Gen Temp} (he : AllocsResult evalExpr) :
    AllocsResult (evalUnaryExpr opType evalExpr) := by
  intro st reg st' c h
  obtain ⟨rfl, tmp, st1, c1, hr, htmp, rfl, rfl⟩ := evalUnaryExpr_eq_ok.mp h
  have ha := he htmp
  exact ⟨alloc_free hr, by rw [ha.release, AsmState.take_free], by simp [ha.entries]⟩

theorem evalVarAsgn_allocs {evalLval evalRval : Gen Temp} (hl : AllocsResult evalLval)
    (hr : AllocsResult evalRval) : AllocsResult (evalVarAsgn evalLval evalRval) := by
  intro st reg st' c h
  obtain ⟨lval, st1, c1, st2, c3, hlval, hrval, rfl, rfl⟩ := evalVarAsgn_eq_ok.mp h
  have ha := hl hlval
  have hb := hr hrval
  have hne := ha.ne hb
  refine ⟨by rw [← ha.free_of_ne hne, hb.was_free], ?_, by simp [ha.entries, hb.entries]⟩
  rw [AsmState.release_free, hb.free, ha.free, Function.update_comm hne, Function.update_idem,
    ← ha.was_free, Function.update_eq_self]

/-- **Evaluating an expression takes exactly one register, whatever was busy before.** -/
theorem evalAsm_allocs (node : AstNode) : AllocsResult (evalAsm frames node) := by
  induction node with
  | intConst value => exact evalIntConst_allocs
  | ident value symbol => exact evalIdent_allocs
  | lval kind ident => exact evalLval_allocs
  | binExp value opType left right ihl ihr => exact evalBinExp_allocs ihl ihr
  | unaryExpr postfixExpr value opType ih => exact evalUnaryExpr_allocs ih
  | varAsgn lval rval ihl ihr => exact evalVarAsgn_allocs ihl ihr
  | funcCall value args symbol ih =>
      intro st reg st' c h
      rw [evalAsm, evalAsmList_eq_map] at h
      obtain ⟨f⟩ := evalFuncCall_code h
      refine f.allocs fun g hg => ?_
      obtain ⟨arg, harg, rfl⟩ := List.mem_map.mp hg
      exact ih arg harg
  | _ =>
      intro st reg st' c h
      simp [evalAsm] at h

end MyLang
