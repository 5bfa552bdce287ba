/-
The immediates of the code written are those foreseen.

Whatever code generation returns for an expression, a statement or a program, its
immediates are encodable exactly if `immediatesFit` says so of the tree.  A call is where
the slots are not known from the tree alone: how far it reaches depends on how many
registers are busy, which `evalAsm_allocs` counts.

A RISC-V immediate has twelve bits, and the compiler never looks whether a number fits.
There are four kinds of them in its code: constants of the source, distances of slots from
the frame pointer, the sizes of frames by which the stack pointer is moved, and zeros and
ones.  The condition goes through the tree and asks for each of them; for slots in a row
it is enough to ask for the one furthest away (`slots_reach`).

Both directions are proved at once, as an equation between two truth values, so that the
cases of the induction are rewritten rather than split.
-/
import MyLang.Immediates
import MyLang.Proofs.Generable

namespace MyLang

open Rv32

variable {frames : List StackFrame} {st st' : AsmState} {c : List Line} {reg : Temp}

/-! ### Slots

A slot lies below the frame pointer, and down to 2048 bytes below it is in reach.
-/

theorem fits12_neg (off : Nat) : Fits12 (-(off : Int)) ↔ off ≤ 2048 := by
  rw [Fits12]
  omega

/-- A slot and those behind it are in reach if the last one is. -/
private theorem slots_reach {α : Type} {off : Nat} (x : α) (rest : List α) :
    off + registerSize ≤ 2048 ∧
      (rest = [] ∨ off + registerSize + registerSize * rest.length ≤ 2048) ↔
      x :: rest = [] ∨ off + registerSize * (x :: rest).length ≤ 2048 := by
  cases rest with
  | nil => simp
  | cons y rest =>
      simp only [reduceCtorEq, false_or, List.length_cons, registerSize]
      omega

theorem encodes_storeCode {regs : List Reg} {off : Nat} :
    Encodes (storeCode regs off) ↔ regs = [] ∨ off + registerSize * regs.length ≤ 2048 := by
  induction regs generalizing off with
  | nil => simp [storeCode]
  | cons reg rest ih =>
      rw [storeCode, encodes_cons_instr, ih, Instr.Encodable, fits12_neg]
      exact slots_reach reg rest

theorem encodes_loadCode {regs : List Reg} {off : Nat} :
    Encodes (loadCode regs off) ↔ regs = [] ∨ off + registerSize * regs.length ≤ 2048 := by
  induction regs generalizing off with
  | nil => simp [loadCode]
  | cons reg rest ih =>
      rw [loadCode, encodes_cons_instr, ih, Instr.Encodable, fits12_neg]
      exact slots_reach reg rest

/-- The first of the slots is the one furthest away. -/
theorem encodes_restoreCode {regs : List Reg} {off : Nat} :
    Encodes (restoreCode regs off) ↔ regs = [] ∨ off ≤ 2048 := by
  induction regs generalizing off with
  | nil => simp [restoreCode]
  | cons reg rest ih =>
      rw [restoreCode, encodes_cons_instr, ih, Instr.Encodable, fits12_neg]
      simp only [reduceCtorEq, false_or, and_iff_left_iff_imp]
      intro h
      exact Or.inr (by omega)

theorem AsmState.busy_length (st : AsmState) : st.busy.length = st.busyRegs.card := by
  have hnodup : st.busy.Nodup := (List.nodup_finRange tempLength).filter _
  rw [← List.toFinset_card_of_nodup hnodup]
  congr 1
  ext i
  rw [List.mem_toFinset, AsmState.mem_busy, AsmState.mem_busyRegs]

/-! ### Expressions

A variable is reached at its slot, and a call at the slots it spills to.
-/

/-- Operators write none but `0` and `1`. -/
theorem OpCode.encodes {left right : Temp} {opType : TokenType}
    (h : OpCode left right st opType reg st' c) : Encodes c := by
  cases h <;> simp [logicCode, Instr.Encodable, Fits12]

/-- Whatever code there is for an expression, its immediates are those foreseen. -/
def EvalEncodes (frames : List StackFrame) (node : AstNode) : Prop :=
  ∀ ⦃st reg st' c⦄, evalAsm frames node st = .ok (reg, st', c) →
    (Encodes c ↔ node.immediatesFit st.entries frames st.busyRegs.card = true)

/-- The arguments of a call are spilled one behind the other. -/
theorem spillArgs_encodes {args : List AstNode} {off : Nat}
    (hargs : ∀ arg ∈ args, EvalEncodes frames arg)
    (hfree : st.busyRegs = ∅)
    (h : spillArgs (args.map (evalAsm frames)) off st = .ok ((), st', c)) :
    Encodes c ↔ (args = [] ∨ off + registerSize * args.length ≤ 2048) ∧
      AstNode.immediatesFitList st.entries frames args = true := by
  induction args generalizing st off c with
  | nil =>
      obtain ⟨-, rfl, rfl⟩ := Gen.pure_eq_ok.mp h
      simp [AstNode.immediatesFitList]
  | cons arg rest ih =>
      rw [List.map_cons, spillArgs_cons_eq_ok] at h
      obtain ⟨reg, st1, c1, c2, harg, h, rfl⟩ := h
      have ha := evalAsm_allocs arg harg
      have hfree1 : (st1.release reg).busyRegs = ∅ := by
        rw [AsmState.busyRegs_congr ha.release, hfree]
      have hfirst := hargs arg (by simp) harg
      have hrest := ih (fun a hmem => hargs a (by simp [hmem])) hfree1 h
      rw [AsmState.release_entries, ha.entries] at hrest
      rw [hfree, Finset.card_empty] at hfirst
      rw [encodes_append, encodes_cons_instr, hfirst, hrest, Instr.Encodable, fits12_neg,
        AstNode.immediatesFitList, Bool.and_eq_true, ← slots_reach arg rest]
      tauto

/-- A call reaches as far as the slot of its last argument, or of the last busy register. -/
theorem FuncCallCode.encodes {value : String} {symbol : Option SymId} {args : List AstNode}
    (f : FuncCallCode frames value symbol (args.map (evalAsm frames)) st reg st' c)
    (hargs : ∀ arg ∈ args, EvalEncodes frames arg) :
    Encodes c ↔ callFits (st.busyRegs.card + args.length) f.frame = true ∧
      AstNode.immediatesFitList st.entries frames args = true := by
  have hfree : (st.withFree fun _ => true).busyRegs = ∅ := by
    ext i
    simp [AsmState.mem_busyRegs]
  have hspill := spillArgs_encodes hargs hfree f.spill
  rw [AsmState.withFree_entries] at hspill
  have hbusy : st.busy = [] ↔ st.busyRegs.card = 0 := by
    rw [← st.busy_length, List.length_eq_zero_iff]
  have hload : ((List.finRange argLength).take args.length).length ≤ args.length :=
    List.length_take_le ..
  have hcode := congrArg Encodes f.code_eq
  rw [hcode, encodes_append, encodes_append, encodes_append, encodes_cons_instr, encodes_append,
    encodes_storeCode, encodes_loadCode, encodes_restoreCode, hspill]
  simp only [encodes_cons_instr, encodes_nil, Instr.Encodable, and_true, true_and,
    List.map_eq_nil_iff,
    List.length_map, List.reverse_eq_nil_iff, hbusy, st.busy_length, callFits, slotFits,
      Bool.or_eq_true,
    decide_eq_true_eq, Nat.mul_add]
  cases args with
  | nil => grind
  | cons arg rest =>
      simp only [reduceCtorEq, false_or, List.length_cons, registerSize] at hload ⊢
      grind

/-- **The immediates of the code of an expression are those foreseen.** -/
theorem evalAsm_encodes (node : AstNode) : EvalEncodes frames node := by
  induction node with
  | intConst value =>
      intro st reg st' c h
      rw [evalAsm] at h
      obtain ⟨-, -, rfl⟩ := evalIntConst_eq_ok.mp h
      simp [AstNode.immediatesFit, Instr.Encodable]
  | ident value symbol =>
      intro st reg st' c h
      rw [evalAsm] at h
      obtain ⟨id, e, rfl, hid, -, -, rfl⟩ := evalIdent_eq_ok.mp h
      simp only [AstNode.immediatesFit, Option.bind_some, hid, Option.all_some, identFits,
        encodes_cons_instr, encodes_nil, and_true, identInstr, slotOf]
      split_ifs <;> simp only [Instr.Encodable, fits12_neg, slotFits, decide_eq_true_eq]
  | lval kind ident _ =>
      intro st reg st' c h
      rw [evalAsm] at h
      obtain ⟨value, id, e, rfl, hid, -, -, rfl⟩ := evalLval_eq_ok.mp h
      simp [AstNode.immediatesFit, hid, Instr.Encodable]
  | binExp value opType left right ihl ihr =>
      intro st reg st' c h
      rw [evalAsm] at h
      obtain ⟨lreg, st1, c1, rreg, st2, c2, c3, hleft, hright, hop, rfl⟩ := evalBinExp_opCode h
      have ha := evalAsm_allocs left hleft
      have hr := ihr hright
      rw [ha.entries, ha.card] at hr
      rw [encodes_append, encodes_append, ihl hleft, hr, AstNode.immediatesFit, Bool.and_eq_true]
      simp [hop.encodes]
  | unaryExpr postfixExpr value opType ih =>
      intro st reg st' c h
      rw [evalAsm] at h
      obtain ⟨rfl, tmp, st1, c1, hr, htmp, -, rfl⟩ := evalUnaryExpr_eq_ok.mp h
      have he := ih htmp
      rw [AsmState.take_entries, (Allocs.of_first hr).card] at he
      simp [he, AstNode.immediatesFit, Instr.Encodable]
  | varAsgn target rval ihl ihr =>
      intro st reg st' c h
      rw [evalAsm] at h
      obtain ⟨lval, st1, c1, st2, c2, hlval, hrval, -, rfl⟩ := evalVarAsgn_eq_ok.mp h
      have ha := evalAsm_allocs target hlval
      have hr := ihr hrval
      rw [ha.entries, ha.card] at hr
      rw [encodes_append, encodes_append, ihl hlval, hr, AstNode.immediatesFit, Bool.and_eq_true]
      simp [asgnStore, Instr.Encodable, Fits12]
  | funcCall value args symbol ih =>
      intro st reg st' c h
      rw [evalAsm, evalAsmList_eq_map] at h
      obtain ⟨f⟩ := evalFuncCall_code h
      have hframe : frameOf st.entries frames symbol = some f.frame := by
        simp [frameOf, f.symbol_eq, f.entry_eq, f.frameId_eq, f.frame_eq]
      rw [f.encodes ih, AstNode.immediatesFit, hframe, Option.all_some, Bool.and_eq_true]
  | _ =>
      intro st reg st' c h
      simp [evalAsm] at h

/-! ### Statements

Behind each statement all registers are free again, so their parts are looked at with none
busy.
-/

theorem sizeToInt_of_le {n : Nat} (h : n ≤ 2048) : sizeToInt n = n := by
  have hnat : (BitVec.ofNat 32 n).toNat = n := by
    rw [BitVec.toNat_ofNat]
    omega
  rw [sizeToInt, BitVec.toInt_eq_toNat_of_lt (by omega), hnat]

/-- A frame that the stack pointer can be moved by has its two save slots in reach. -/
theorem encodes_epilogueCode (size : Nat) :
    Encodes (epilogueCode (frameSize size)) ↔ frameSize size ≤ 2047 := by
  simp only [epilogueCode, encodes_cons_instr, encodes_nil, Instr.Encodable, and_true]
  constructor
  · rintro ⟨-, -, h⟩
    rw [Fits12] at h
    omega
  · intro h
    rw [sizeToInt_of_le (by omega), sizeToInt_of_le (by omega)]
    simp only [Fits12]
    omega

/-- The prologue of a frame that the stack pointer can be moved by. -/
theorem encodes_prologueCode (size : Nat) :
    Encodes (prologueCode (frameSize size)) ↔ frameSize size ≤ 2047 := by
  have hbound := frameSize_bounds size
  have hargs : Encodes (storeCode ((List.finRange argLength).map .a) (registerSize * 2)) := by
    rw [encodes_storeCode]
    right
    simp [registerSize, argLength]
  simp only [prologueCode, encodes_cons_instr, Instr.Encodable, hargs, and_true, fits12_neg]
  constructor
  · rintro ⟨hsp, -, -, hfp⟩
    rw [sizeToInt_of_le hsp, Fits12] at hfp
    omega
  · intro h
    rw [sizeToInt_of_le (by omega), sizeToInt_of_le (by omega), sizeToInt_of_le (by omega)]
    simp only [Fits12]
    omega

/-- An expression that is evaluated with no register busy. -/
theorem evalAsm_encodes_free {node : AstNode} (hfree : st.busyRegs = ∅)
    (h : evalAsm frames node st = .ok (reg, st', c)) :
    Encodes c ↔ node.immediatesFit st.entries frames 0 = true := by
  have he := evalAsm_encodes node h
  rwa [hfree, Finset.card_empty] at he

theorem discard_encodes {node : AstNode} {u : Unit} (hfree : st.busyRegs = ∅)
    (h : discard (evalAsm frames node) st = .ok (u, st', c)) :
    Encodes c ↔ node.immediatesFit st.entries frames 0 = true := by
  obtain ⟨reg, st1, he, -⟩ := discard_eq_ok.mp h
  exact evalAsm_encodes_free hfree he

theorem genForCond_encodes {label : String} {cond : AstNode} {u : Unit} (hfree : st.busyRegs = ∅)
    (h : genForCond label cond.isEmptyExpr (evalAsm frames cond) st = .ok (u, st', c)) :
    Encodes c ↔ cond.immediatesFit st.entries frames 0 = true := by
  rcases genForCond_eq_ok.mp h with ⟨hempty, -, rfl⟩ | ⟨-, reg, st1, c1, he, -, rfl⟩
  · obtain rfl := AstNode.eq_emptyExpr hempty
    simp [AstNode.immediatesFit]
  · rw [encodes_append, evalAsm_encodes_free hfree he]
    simp [Instr.Encodable]

theorem genForStep_encodes {step : AstNode} {u : Unit} (hfree : st.busyRegs = ∅)
    (h : genForStep step.isEmptyExpr (evalAsm frames step) st = .ok (u, st', c)) :
    Encodes c ↔ step.immediatesFit st.entries frames 0 = true := by
  unfold genForStep at h
  by_cases hempty : step.isEmptyExpr = true
  · rw [hempty] at h
    obtain ⟨-, -, rfl⟩ := Gen.pure_eq_ok.mp h
    obtain rfl := AstNode.eq_emptyExpr hempty
    simp [AstNode.immediatesFit]
  · rw [if_pos (by simpa using hempty)] at h
    exact discard_encodes hfree h

theorem genRetValue_encodes {expr : AstNode} {u : Unit} (hfree : st.busyRegs = ∅)
    (h : genRetValue expr.isEmptyExpr (evalAsm frames expr)
      (genAsmNode frames expr) st = .ok (u, st', c)) :
    Encodes c ↔ expr.immediatesFit st.entries frames 0 = true := by
  rcases genRetValue_eq_ok.mp h with ⟨hempty, hg⟩ | ⟨-, reg, st1, c1, he, -, rfl⟩
  · obtain rfl := AstNode.eq_emptyExpr hempty
    obtain ⟨-, -, rfl⟩ := Gen.pure_eq_ok.mp hg
    simp [AstNode.immediatesFit]
  · rw [encodes_append, evalAsm_encodes_free hfree he]
    simp [Instr.Encodable]

/-- Statements in a row, none of which leaves a register busy. -/
theorem genAsmList_encodes {l : List AstNode}
    (hl : ∀ node ∈ l, ∀ {st st' : AsmState} {c : List Line}, st.busyRegs = ∅ →
      genAsmNode frames node st = .ok ((), st', c) →
        (Encodes c ↔ node.immediatesFit st.entries frames 0 = true))
    (hbal : ∀ node ∈ l, ∀ {st st' : AsmState} {c : List Line},
      genAsmNode frames node st = .ok ((), st', c) → Balanced st st')
    (hfree : st.busyRegs = ∅) (h : genAsmList frames l st = .ok ((), st', c)) :
    Encodes c ↔ AstNode.immediatesFitList st.entries frames l = true := by
  induction l generalizing st c with
  | nil =>
      obtain ⟨-, -, rfl⟩ := Gen.pure_eq_ok.mp h
      simp [AstNode.immediatesFitList]
  | cons node rest ih =>
      rw [genAsmList, Gen.bind_eq_ok] at h
      obtain ⟨_, st1, c1, c2, h1, h2, rfl⟩ := h
      have hb := hbal node (by simp) h1
      have hrest := ih (fun n hn => hl n (by simp [hn])) (fun n hn => hbal n (by simp [hn]))
        (by rw [hb.busyRegs, hfree]) h2
      rw [hb.entries] at hrest
      rw [encodes_append, hl node (by simp) hfree h1, hrest, AstNode.immediatesFitList,
        Bool.and_eq_true]

/-- **The immediates of the code of a statement are those foreseen.** -/
theorem genAsmNode_encodes {node : AstNode} (hff : node.funcFree = true) (hfree : st.busyRegs = ∅)
    (h : genAsmNode frames node st = .ok ((), st', c)) :
    Encodes c ↔ node.immediatesFit st.entries frames 0 = true := by
  induction node generalizing st st' c with
  | ret expr func _ =>
      rw [genAsmNode, genRet_eq_ok] at h
      obtain ⟨id, entry, fid, frame, c1, rfl, hid, hfid, hframe, hval, rfl⟩ := h
      have hfr : frameOf st.entries frames (some id) = some frame := by
        simp [frameOf, hid, hfid, hframe]
      rw [encodes_append, encodes_append, genRetValue_encodes hfree hval, encodes_epilogueCode,
        AstNode.immediatesFit, hfr, Option.all_some, frameFits, Bool.and_eq_true, decide_eq_true_eq]
      simp [Instr.Encodable]
  | ifElse ifExpr ifBody elseBody _ ihb ihe =>
      simp only [AstNode.funcFree, Bool.and_eq_true] at hff
      rw [genAsmNode, genIf_eq_ok] at h
      obtain ⟨reg, st1, c1, st2, c2, c3, he, hb, helse, rfl⟩ := h
      have hbump := (Balanced.bump st .if_).trans (Balanced.bump _ .else_)
      have h1 := hbump.trans (Balanced.eval he)
      have h2 := h1.trans (genAsmNode_balanced hff.1.2 hb)
      have hcond := evalAsm_encodes_free (by rw [hbump.busyRegs, hfree]) he
      have hbody := ihb hff.1.2 (by rw [h1.busyRegs, hfree]) hb
      have hlast : Encodes c3 ↔ elseBody.immediatesFit st.entries frames 0 = true := by
        by_cases hnull : elseBody.nonNull = true
        · rw [if_pos hnull] at helse
          have h := ihe hff.2 (by rw [h2.busyRegs, hfree]) helse
          rwa [h2.entries] at h
        · rw [if_neg hnull] at helse
          obtain ⟨-, -, rfl⟩ := Gen.pure_eq_ok.mp helse
          obtain rfl := AstNode.eq_null hnull
          simp [AstNode.immediatesFit]
      rw [hbump.entries] at hcond
      rw [h1.entries] at hbody
      simp [hcond, hbody, hlast, AstNode.immediatesFit, Instr.Encodable]
  | compStmt body ih =>
      rw [AstNode.funcFree, funcFreeList_iff] at hff
      rw [genAsmNode] at h
      rw [AstNode.immediatesFit]
      exact genAsmList_encodes (fun n hn {_ _ _} hfree h => ih n hn (hff n hn) hfree h)
        (fun n hn {_ _ _} h => genAsmNode_balanced (hff n hn) h) hfree h
  | funcDef value type body params symbol _ => simp [AstNode.funcFree] at hff
  | varDef value type expr symbol _ =>
      rw [genAsmNode, genVarDef_eq_ok] at h
      obtain ⟨id, entry, reg, st1, c1, rfl, hid, he, -, rfl⟩ := h
      rw [encodes_append, evalAsm_encodes_free hfree he, encodes_cons_instr, Instr.Encodable,
        fits12_neg, AstNode.immediatesFit, Option.bind_some, hid, Option.all_some, slotFits]
      simp [and_comm]
  | while_ expr body _ ihb =>
      simp only [AstNode.funcFree, Bool.and_eq_true] at hff
      rw [genAsmNode, genWhile_eq_ok] at h
      obtain ⟨reg, st1, c1, c2, he, hb, rfl⟩ := h
      have hbump := Balanced.bump st .while_
      have h1 := hbump.trans (Balanced.eval he)
      have hcond := evalAsm_encodes_free (by rw [hbump.busyRegs, hfree]) he
      have hbody := ihb hff.2 (by rw [h1.busyRegs, hfree]) hb
      rw [hbump.entries] at hcond
      rw [h1.entries] at hbody
      simp [hcond, hbody, AstNode.immediatesFit, Instr.Encodable]
  | for_ init cond step body ihi _ _ ihb =>
      simp only [AstNode.funcFree, Bool.and_eq_true] at hff
      rw [genAsmNode, genFor_eq_ok] at h
      obtain ⟨st1, c1, c2, hi, hloop, rfl⟩ := h
      obtain ⟨st2, c3, st3, c4, c5, hcond, hb, hstep, rfl⟩ := genForLoop_eq_ok.mp hloop
      have hbump := Balanced.bump st .for_
      have hfree' : (st.bump .for_).busyRegs = ∅ := by rw [hbump.busyRegs, hfree]
      obtain ⟨h1, hinit⟩ : Balanced st st1 ∧
          (Encodes c1 ↔ init.immediatesFit st.entries frames 0 = true) := by
        unfold genForInit at hi
        rw [← hbump.entries]
        split at hi
        · exact ⟨hbump.trans (genAsmNode_balanced hff.1.1.1 hi), ihi hff.1.1.1 hfree' hi⟩
        · exact ⟨hbump.trans (discard_balanced hi), discard_encodes hfree' hi⟩
      have h2 := h1.trans (genForCond_balanced hcond)
      have h3 := h2.trans (genAsmNode_balanced hff.2 hb)
      have hcond := genForCond_encodes (by rw [h1.busyRegs, hfree]) hcond
      have hbody := ihb hff.2 (by rw [h2.busyRegs, hfree]) hb
      have hstep := genForStep_encodes (by rw [h3.busyRegs, hfree]) hstep
      rw [h1.entries] at hcond
      rw [h2.entries] at hbody
      rw [h3.entries] at hstep
      simp [hinit, hcond, hbody, hstep, AstNode.immediatesFit, Instr.Encodable]
  | exprStmt expr _ =>
      rw [genAsmNode] at h
      rw [AstNode.immediatesFit]
      exact genForStep_encodes hfree h
  | enum | emptyExpr | varDec =>
      obtain ⟨-, -, rfl⟩ := Gen.pure_eq_ok.mp h
      simp [AstNode.immediatesFit]
  | _ => simp [genAsmNode] at h

/-! ### Functions and programs

The frame of a function has to be in reach for its prologue and for each way out.
-/

theorem encodes_funcEndCode (type : String) (size : Nat) (h : frameSize size ≤ 2047) :
    Encodes (funcEndCode type (frameSize size)) := by
  unfold funcEndCode
  rw [encodes_append]
  refine ⟨?_, by simp [Instr.Encodable]⟩
  split
  · exact (encodes_epilogueCode size).mpr h
  · exact encodes_nil

/-- The code of a function is that of its body between what its frame takes. -/
theorem genFuncDef_encodes {value type : String} {body : AstNode} {params : List Param}
    {symbol : Option SymId} (hff : body.funcFree = true) (hfree : st.busyRegs = ∅)
    (h : genAsmNode frames (.funcDef value type body params symbol) st = .ok ((), st', c)) :
    Encodes c ↔ (frameOf st.entries frames symbol).all frameFits = true ∧
      body.immediatesFit (paramEntries 0 params st.entries) frames 0 = true := by
  rw [genAsmNode, genFuncDef_eq_ok] at h
  obtain ⟨id, entry, fid, frame, c1, -, rfl, hid, hfid, hframe, hb, rfl⟩ := h
  have hfr : frameOf st.entries frames (some id) = some frame := by
    rw [← frameOf_congr (paramEntries_fixed 0 params st.entries)]
    simp [frameOf, hid, hfid, hframe]
  have hbody : Encodes c1 ↔ body.immediatesFit (paramEntries 0 params st.entries) frames 0
      = true := by
    have hfree' : ({ st with entries := paramEntries 0 params st.entries } : AsmState).busyRegs
      = ∅ := hfree
    exact genAsmNode_encodes hff hfree' hb
  rw [encodes_cons_label, encodes_append, encodes_append, encodes_prologueCode, hbody, hfr,
    Option.all_some, frameFits, decide_eq_true_eq]
  constructor
  · rintro ⟨hsize, hfits, -⟩
    exact ⟨hsize, hfits⟩
  · rintro ⟨hsize, hfits⟩
    exact ⟨hsize, hfits, encodes_funcEndCode type _ hsize⟩

/-- Functions in a row, each of which loads its parameters into the entries. -/
theorem genAsmProg_encodes {prog : List AstNode} (hprog : ∀ n ∈ prog, n.isFuncDef = true)
    (hfree : st.busyRegs = ∅) (h : genAsmList frames prog st = .ok ((), st', c)) :
    Encodes c ↔ progImmediatesFit st.entries frames prog = true := by
  induction prog generalizing st c with
  | nil =>
      obtain ⟨-, -, rfl⟩ := Gen.pure_eq_ok.mp h
      simp [progImmediatesFit]
  | cons node rest ih =>
      obtain ⟨value, type, body, params, symbol, rfl⟩ := AstNode.eq_funcDef (hprog node (by simp))
      have hff : (AstNode.compStmt body).funcFree = true :=
        funcFree_of_isFuncDef (hprog _ List.mem_cons_self)
      rw [genAsmList, Gen.bind_eq_ok] at h
      obtain ⟨_, st1, c1, c2, h1, h2, rfl⟩ := h
      obtain ⟨hfree1, hent1⟩ := genFuncDef_entries hff h1
      have hrest := ih (fun n hn => hprog n (by simp [hn]))
        (by rw [AsmState.busyRegs_congr hfree1, hfree]) h2
      rw [hent1] at hrest
      rw [encodes_append, genFuncDef_encodes hff hfree h1, hrest, progImmediatesFit]
      simp only [Bool.and_eq_true, and_assoc]

/-- `int main() { return n; }`. -/
def returnTokens (n : String) : List Token :=
  [tok .type "int", tok .ident "main", tok .lparen "(", tok .rparen ")", tok .lbrace "\x7b",
    tok .return_ "return", tok .num n, tok .semicolon ";", tok .rbrace "\x7d"]

end MyLang
