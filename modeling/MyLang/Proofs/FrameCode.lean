/-
Code that keeps its frame.

Behind the prologue the code of a function moves neither the stack pointer nor the frame
pointer, except where it leaves: there the whole frame is given back at once, and nothing
jumps into the middle of that.  `Framed` is this shape, together with which functions may
be called, and the code of every statement has it.

A way out is the lines of `emitEpilogue` and a jump, and they are taken as a whole.  The
rest is lines, each of which `keepsFrame` by itself, so that for expressions there is
nothing to see but which registers are set: temporaries, argument registers and the result
register, none of which is the stack or the frame pointer.

The size that a way out adds to the stack pointer is that of the frame its `return` has
found.  It is the one the prologue has taken if all `return`s of a function have its
symbol, and `ReturnsFrame` is what is asked for.
-/
import MyLang.Exits
import MyLang.Proofs.IfElse
import MyLang.Proofs.Generable

namespace MyLang

open Rv32

variable {frames : List StackFrame} {st st' : AsmState} {c d : List Line} {reg : Temp} {frame : Nat}
  {names : List String}

/--
A line that leaves the stack pointer and the frame pointer alone, and calls one of some
functions if any.
-/
def keepsFrame (names : List String) : Line → Prop
  | .label _ => True
  | .instr (.jal l) => l ∈ names
  | .instr (.call _) => False
  | .instr (.jalr _) => False
  | .instr i => i.dest ≠ some .sp ∧ i.dest ≠ some fp

/-- Every line of a piece of code leaves the two alone. -/
def KeepsFrame (names : List String) (c : List Line) : Prop := ∀ x ∈ c, keepsFrame names x

section KeepsFrame

variable {x : Line}

@[simp] theorem keepsFrame_nil : KeepsFrame names [] := by
  intro x hx
  simp at hx

@[simp] theorem keepsFrame_cons : KeepsFrame names (x :: c) ↔
    keepsFrame names x ∧ KeepsFrame names c :=
  List.forall_mem_cons

@[simp] theorem keepsFrame_append : KeepsFrame names (c ++ d) ↔
    KeepsFrame names c ∧ KeepsFrame names d :=
  List.forall_mem_append

end KeepsFrame

/-- Code in a frame: lines that keep it, and complete ways out of the function. -/
inductive Framed (frame : Nat) (names : List String) : List Line → Prop
  | nil : Framed frame names []
  | line {x : Line} {c : List Line} (hx : keepsFrame names x) (h : Framed frame names c) :
      Framed frame names (x :: c)
  | exit {c : List Line} (h : Framed frame names c) :
      Framed frame names (epilogueCode frame ++ .instr (.jalr .ra) :: c)

namespace Framed

theorem append (h : Framed frame names c) (h' : Framed frame names d) :
    Framed frame names (c ++ d) := by
  induction h with
  | nil => exact h'
  | line hx _ ih => exact line hx ih
  | exit _ ih =>
      rw [List.append_assoc, List.cons_append]
      exact exit ih

theorem of_keepsFrame (h : KeepsFrame names c) : Framed frame names c := by
  induction c with
  | nil => exact nil
  | cons x c ih =>
      rw [keepsFrame_cons] at h
      exact line h.1 (ih h.2)

/--
A label stands outside of the ways out, so that what begins with it is code in the frame
again.
-/
theorem split_label (h : Framed frame names c) {l : String} (hl : l ∈ labels c) :
    ∃ c1 c2, c = c1 ++ .label l :: c2 ∧ Framed frame names (.label l :: c2) := by
  induction h with
  | nil => simp at hl
  | @line x c hx h ih =>
      by_cases hxl : x = .label l
      · subst hxl
        exact ⟨[], c, rfl, line hx h⟩
      · have hmem : l ∈ labels c := by
          cases x with
          | instr i => exact hl
          | label l' =>
              rw [labels_cons_label, List.mem_cons] at hl
              refine hl.resolve_left ?_
              rintro rfl
              exact hxl rfl
        obtain ⟨c1, c2, rfl, h2⟩ := ih hmem
        exact ⟨x :: c1, c2, rfl, h2⟩
  | @exit c h ih =>
      have hmem : l ∈ labels c := by simpa [epilogueCode] using hl
      obtain ⟨c1, c2, rfl, h2⟩ := ih hmem
      exact ⟨epilogueCode frame ++ .instr (.jalr .ra) :: c1, c2, by simp, h2⟩

end Framed

/-! ### Expressions

A call jumps to its function, and comes back to the next line.
-/

theorem storeCode_keepsFrame {regs : List Reg} {off : Nat} :
    KeepsFrame names (storeCode regs off) := by
  induction regs generalizing off with
  | nil => exact keepsFrame_nil
  | cons reg rest ih => exact keepsFrame_cons.mpr ⟨by simp [keepsFrame, Instr.dest], ih⟩

theorem loadCode_keepsFrame {regs : List (Fin argLength)} {off : Nat} :
    KeepsFrame names (loadCode (regs.map .a) off) := by
  induction regs generalizing off with
  | nil => exact keepsFrame_nil
  | cons reg rest ih => exact keepsFrame_cons.mpr ⟨by simp [keepsFrame, Instr.dest], ih⟩

theorem restoreCode_keepsFrame {regs : List Temp} {off : Nat} :
    KeepsFrame names (restoreCode (regs.map .t) off) := by
  induction regs generalizing off with
  | nil => exact keepsFrame_nil
  | cons reg rest ih => exact keepsFrame_cons.mpr ⟨by simp [keepsFrame, Instr.dest], ih⟩

theorem OpCode.keepsFrame {left right : Temp} {opType : TokenType}
    (h : OpCode left right st opType reg st' c) : KeepsFrame names c := by
  cases h <;> simp [logicCode, MyLang.keepsFrame, Instr.dest]

/-- What the lemmas about expressions say. -/
def EvalFramed (frames : List StackFrame) (names : List String) (node : AstNode) : Prop :=
  ∀ ⦃st reg st' c⦄, evalAsm frames node st = .ok (reg, st', c) → KeepsFrame names c

theorem spillArgs_keepsFrame {args : List AstNode} {off : Nat} {u : Unit}
    (hargs : ∀ arg ∈ args, EvalFramed frames names arg)
    (h : spillArgs (args.map (evalAsm frames)) off st = .ok (u, st', c)) : KeepsFrame names c := by
  induction args generalizing st off c with
  | nil =>
      obtain ⟨-, -, rfl⟩ := Gen.pure_eq_ok.mp h
      exact keepsFrame_nil
  | cons arg rest ih =>
      rw [List.map_cons, spillArgs_cons_eq_ok] at h
      obtain ⟨r, st1, c1, c2, hg, h, rfl⟩ := h
      rw [keepsFrame_append, keepsFrame_cons]
      exact ⟨hargs arg (by simp) hg, by simp [keepsFrame, Instr.dest],
        ih (fun a ha => hargs a (by simp [ha])) h⟩

theorem callsList_subset {args : List AstNode} (h : AstNode.callsList args ⊆ names) :
    ∀ arg ∈ args, arg.calls ⊆ names := by
  induction args with
  | nil => simp
  | cons arg rest ih =>
      rw [AstNode.callsList, List.append_subset] at h
      intro a ha
      rcases List.mem_cons.mp ha with rfl | ha
      · exact h.1
      · exact ih h.2 a ha

/-- The code of an expression leaves the stack pointer and the frame pointer alone. -/
theorem evalAsm_keepsFrame {node : AstNode} (hcalls : node.calls ⊆ names) :
    EvalFramed frames names node := by
  induction node with
  | intConst value =>
      intro st reg st' c h
      rw [evalAsm] at h
      obtain ⟨-, -, rfl⟩ := evalIntConst_eq_ok.mp h
      simp [keepsFrame, Instr.dest]
  | ident value symbol =>
      intro st reg st' c h
      rw [evalAsm] at h
      obtain ⟨id, e, -, -, -, -, rfl⟩ := evalIdent_eq_ok.mp h
      rcases identInstr_cases e reg with ⟨v, hi⟩ | ⟨off, hi⟩ <;> simp [hi, keepsFrame, Instr.dest]
  | lval kind ident _ =>
      intro st reg st' c h
      rw [evalAsm] at h
      obtain ⟨value, id, e, -, -, -, -, rfl⟩ := evalLval_eq_ok.mp h
      simp [keepsFrame, Instr.dest]
  | binExp value opType left right ihl ihr =>
      intro st reg st' c h
      rw [AstNode.calls, List.append_subset] at hcalls
      rw [evalAsm] at h
      obtain ⟨lreg, st1, c1, rreg, st2, c2, c3, hleft, hright, hop, rfl⟩ := evalBinExp_opCode h
      rw [keepsFrame_append, keepsFrame_append]
      exact ⟨ihl hcalls.1 hleft, ihr hcalls.2 hright, hop.keepsFrame⟩
  | unaryExpr postfixExpr value opType ih =>
      intro st reg st' c h
      rw [evalAsm] at h
      obtain ⟨rfl, tmp, st1, c1, -, htmp, -, rfl⟩ := evalUnaryExpr_eq_ok.mp h
      have he := ih hcalls htmp
      simp [he, keepsFrame, Instr.dest]
  | varAsgn target rval ihl ihr =>
      intro st reg st' c h
      rw [AstNode.calls, List.append_subset] at hcalls
      rw [evalAsm] at h
      obtain ⟨lval, st1, c1, st2, c2, hlval, hrval, -, rfl⟩ := evalVarAsgn_eq_ok.mp h
      rw [keepsFrame_append, keepsFrame_append]
      exact ⟨ihl hcalls.1 hlval, ihr hcalls.2 hrval, by simp [asgnStore, keepsFrame, Instr.dest]⟩
  | funcCall value args symbol ih =>
      intro st reg st' c h
      rw [AstNode.calls, List.append_subset] at hcalls
      rw [evalAsm, evalAsmList_eq_map] at h
      obtain ⟨f⟩ := evalFuncCall_code h
      have hargs :=
        spillArgs_keepsFrame (fun arg harg => ih arg harg (callsList_subset hcalls.1 arg harg))
          f.spill
      have hvalue : value ∈ names := hcalls.2 (by simp)
      rw [f.code_eq, keepsFrame_append, keepsFrame_append, keepsFrame_append, keepsFrame_cons,
        keepsFrame_append]
      exact ⟨storeCode_keepsFrame, hargs, loadCode_keepsFrame, hvalue, restoreCode_keepsFrame,
        by simp [keepsFrame, Instr.dest]⟩
  | _ =>
      intro st reg st' c h
      simp [evalAsm] at h

/-! ### Statements

A label may be jumped to, so a way out has none in it (`split_label`).
-/

theorem discard_keepsFrame {node : AstNode} {u : Unit} (hcalls : node.calls ⊆ names)
    (h : discard (evalAsm frames node) st = .ok (u, st', c)) : KeepsFrame names c := by
  obtain ⟨reg, st1, he, -⟩ := discard_eq_ok.mp h
  exact evalAsm_keepsFrame hcalls he

theorem genForCond_keepsFrame {label : String} {condEmpty : Bool} {cond : AstNode} {u : Unit}
    (hcalls : cond.calls ⊆ names) (h : genForCond label condEmpty (evalAsm frames cond) st
      = .ok (u, st', c)) :
    KeepsFrame names c := by
  rcases genForCond_eq_ok.mp h with ⟨-, -, rfl⟩ | ⟨-, reg, st1, c1, he, -, rfl⟩
  · exact keepsFrame_nil
  · rw [keepsFrame_append]
    exact ⟨evalAsm_keepsFrame hcalls he, by simp [keepsFrame, Instr.dest]⟩

theorem genForStep_keepsFrame {stepEmpty : Bool} {step : AstNode} {u : Unit}
    (hcalls : step.calls ⊆ names) (h : genForStep stepEmpty (evalAsm frames step) st
      = .ok (u, st', c)) : KeepsFrame names c := by
  unfold genForStep at h
  split at h
  · exact discard_keepsFrame hcalls h
  · obtain ⟨-, -, rfl⟩ := Gen.pure_eq_ok.mp h
    exact keepsFrame_nil

/-- The frames that the `return`s of a statement find are all of one size. -/
def ReturnsFrame (entries : List SymTabEntry) (frames : List StackFrame) (frame : Nat)
    (node : AstNode) : Prop :=
  ∀ s ∈ node.returnSymbols, ∀ fr, frameOf entries frames s = some fr → frameSize fr.size = frame

/-- A declaration does not return. -/
theorem returnSymbols_of_isForInit {init : AstNode} (h : init.isForInit = true) :
    init.returnSymbols = [] := by
  cases init with
  | varDec | varDef | emptyExpr => rfl
  | _ => simp [AstNode.isForInit] at h

/-- What the lemmas about statements say. -/
def GenFramed (frames : List StackFrame) (frame : Nat) (names : List String) (node : AstNode) :
    Prop :=
  ∀ ⦃st st' c⦄, ReturnsFrame st.entries frames frame node →
    genAsmNode frames node st = .ok ((), st', c) → Framed frame names c

/-- Statements in a row, each of which keeps the frame. -/
theorem genAsmList_framed {l : List AstNode} (hl : ∀ node ∈ l, GenFramed frames frame names node)
    (hff : AstNode.funcFreeList l = true)
    (hret : ReturnsFrame st.entries frames frame (.compStmt l))
    (h : genAsmList frames l st = .ok ((), st', c)) : Framed frame names c := by
  induction l generalizing st c with
  | nil =>
      obtain ⟨-, -, rfl⟩ := Gen.pure_eq_ok.mp h
      exact Framed.nil
  | cons node rest ih =>
      rw [AstNode.funcFreeList, Bool.and_eq_true] at hff
      rw [genAsmList, Gen.bind_eq_ok] at h
      obtain ⟨_, st1, c1, c2, h1, h2, rfl⟩ := h
      have hb := genAsmNode_balanced hff.1 h1
      have hnode := hl node (by simp) (fun s hs => hret s (List.mem_append_left _ hs)) h1
      refine hnode.append (ih (fun n hn => hl n (by simp [hn])) hff.2 (fun s hs => ?_) h2)
      rw [hb.entries]
      exact hret s (List.mem_append_right _ hs)

/-- **The code of a statement keeps the frame of its function, except where it leaves it.** -/
theorem genAsmNode_framed {node : AstNode} (hff : node.funcFree = true)
    (hcalls : node.calls ⊆ names) : GenFramed frames frame names node := by
  induction node with
  | ret expr func _ =>
      intro st st' c hret h
      rw [genAsmNode, genRet_eq_ok] at h
      obtain ⟨id, entry, fid, fr, c1, rfl, hid, hfid, hfr, hval, rfl⟩ := h
      have hframe : frameOf st.entries frames (some id) = some fr := by
        simp [frameOf, hid, hfid, hfr]
      have hsize := hret (some id) (by simp [AstNode.returnSymbols]) fr hframe
      have hvalue : KeepsFrame names c1 := by
        rcases genRetValue_eq_ok.mp hval with ⟨hempty, hg⟩ | ⟨-, reg, st1, c2, he, -, rfl⟩
        · obtain rfl := AstNode.eq_emptyExpr hempty
          obtain ⟨-, -, rfl⟩ := Gen.pure_eq_ok.mp hg
          exact keepsFrame_nil
        · have hexpr : expr.calls ⊆ names := hcalls
          rw [keepsFrame_append]
          exact ⟨evalAsm_keepsFrame hexpr he, by simp [keepsFrame, Instr.dest]⟩
      rw [hsize]
      exact (Framed.of_keepsFrame hvalue).append (Framed.exit Framed.nil)
  | ifElse ifExpr ifBody elseBody _ ihb ihe =>
      intro st st' c hret h
      simp only [AstNode.funcFree, Bool.and_eq_true] at hff
      rw [AstNode.calls, List.append_subset, List.append_subset] at hcalls
      rw [genAsmNode, genIf_eq_ok] at h
      obtain ⟨reg, st1, c1, st2, c2, c3, he, hb, helse, rfl⟩ := h
      have h1 := ((Balanced.bump st .if_).trans (Balanced.bump _ .else_)).trans (Balanced.eval he)
      have h2 := h1.trans (genAsmNode_balanced hff.1.2 hb)
      have hbody : Framed frame names c2 := by
        refine ihb hff.1.2 hcalls.2.1 (fun s hs => ?_) hb
        rw [h1.entries]
        exact hret s (List.mem_append_left _ hs)
      have hlast : Framed frame names c3 := by
        split at helse
        · refine ihe hff.2 hcalls.2.2 (fun s hs => ?_) helse
          rw [h2.entries]
          exact hret s (List.mem_append_right _ hs)
        · obtain ⟨-, -, rfl⟩ := Gen.pure_eq_ok.mp helse
          exact Framed.nil
      have hcond : Framed frame names c1 := Framed.of_keepsFrame (evalAsm_keepsFrame hcalls.1 he)
      exact Framed.line trivial (hcond.append (Framed.line (by simp [keepsFrame, Instr.dest])
        (hbody.append (Framed.line trivial hlast))))
  | compStmt body ih =>
      intro st st' c hret h
      rw [AstNode.funcFree] at hff
      rw [AstNode.calls] at hcalls
      refine genAsmList_framed (fun n hn => ?_) hff hret h
      exact ih n hn (funcFreeList_iff.mp hff n hn) (callsList_subset hcalls n hn)
  | funcDef value type body params symbol _ => simp [AstNode.funcFree] at hff
  | varDef value type expr symbol _ =>
      intro st st' c hret h
      rw [genAsmNode, genVarDef_eq_ok] at h
      obtain ⟨id, entry, reg, st1, c1, -, -, he, -, rfl⟩ := h
      have hexpr : expr.calls ⊆ names := hcalls
      refine Framed.of_keepsFrame ?_
      rw [keepsFrame_append]
      exact ⟨evalAsm_keepsFrame hexpr he, by simp [keepsFrame, Instr.dest]⟩
  | while_ expr body _ ihb =>
      intro st st' c hret h
      simp only [AstNode.funcFree, Bool.and_eq_true] at hff
      rw [AstNode.calls, List.append_subset] at hcalls
      rw [genAsmNode, genWhile_eq_ok] at h
      obtain ⟨reg, st1, c1, c2, he, hb, rfl⟩ := h
      have h1 := (Balanced.bump st .while_).trans (Balanced.eval he)
      have hbody : Framed frame names c2 := by
        refine ihb hff.2 hcalls.2 (fun s hs => ?_) hb
        rw [h1.entries]
        exact hret s hs
      have hcond : Framed frame names c1 := Framed.of_keepsFrame (evalAsm_keepsFrame hcalls.1 he)
      have hend : Framed frame names
          [.instr (.j (st.label .while_ "start")), .label (st.label .while_ "end")] :=
        Framed.of_keepsFrame (by simp [keepsFrame, Instr.dest])
      exact Framed.line trivial (hcond.append (Framed.line (by simp [keepsFrame, Instr.dest])
        (hbody.append hend)))
  | for_ init cond step body ihi _ _ ihb =>
      intro st st' c hret h
      simp only [AstNode.funcFree, Bool.and_eq_true] at hff
      rw [AstNode.calls, List.append_subset, List.append_subset, List.append_subset] at hcalls
      rw [genAsmNode, genFor_eq_ok] at h
      obtain ⟨st1, c1, c2, hi, hloop, rfl⟩ := h
      obtain ⟨st2, c3, st3, c4, c5, hcond, hb, hstep, rfl⟩ := genForLoop_eq_ok.mp hloop
      obtain ⟨h1, hinit⟩ : Balanced st st1 ∧ Framed frame names c1 := by
        unfold genForInit at hi
        split at hi
        · rename_i hfor
          refine ⟨(Balanced.bump st .for_).trans (genAsmNode_balanced hff.1.1.1 hi), ?_⟩
          refine ihi hff.1.1.1 hcalls.1 (fun s hs => ?_) hi
          rw [returnSymbols_of_isForInit hfor] at hs
          simp at hs
        · refine ⟨(Balanced.bump st .for_).trans (discard_balanced hi), ?_⟩
          exact Framed.of_keepsFrame (discard_keepsFrame hcalls.1 hi)
      have h2 := h1.trans (genForCond_balanced hcond)
      have hbody : Framed frame names c4 := by
        refine ihb hff.2 hcalls.2.2.1 (fun s hs => ?_) hb
        rw [h2.entries]
        exact hret s hs
      have hcond : Framed frame names c3 :=
        Framed.of_keepsFrame (genForCond_keepsFrame hcalls.2.1 hcond)
      have hstep : Framed frame names c5 :=
        Framed.of_keepsFrame (genForStep_keepsFrame hcalls.2.2.2 hstep)
      have hend : Framed frame names [.instr (.j (extendLabel (st.baseLabel .for_) "cond")),
          .label (extendLabel (st.baseLabel .for_) "end")] :=
        Framed.of_keepsFrame (by simp [keepsFrame, Instr.dest])
      exact Framed.line trivial
        (hinit.append (Framed.line trivial (hcond.append (Framed.line trivial
        (hbody.append (Framed.line trivial (hstep.append hend)))))))
  | exprStmt expr _ =>
      intro st st' c hret h
      rw [genAsmNode] at h
      have hexpr : expr.calls ⊆ names := hcalls
      exact Framed.of_keepsFrame (genForStep_keepsFrame hexpr h)
  | enum | emptyExpr | varDec =>
      intro st st' c hret h
      obtain ⟨-, -, rfl⟩ := Gen.pure_eq_ok.mp h
      exact Framed.nil
  | _ =>
      intro st st' c hret h
      simp [genAsmNode] at h

end MyLang
