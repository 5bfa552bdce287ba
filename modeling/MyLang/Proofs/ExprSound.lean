/-
Compiled expressions compute what the source means by them.

The frame holds a store if the slot of every variable that has a value holds it.  `denote`
says what the code of an expression computes on the frame; where the source gives the
expression a value, it is that value, and the frame then holds the store the source is
left with.  The code evaluates both operands of `&&` and `||`, so this needs that the
right one assigns nothing.

So the way from the code to the source is in two steps.  The code computes what `denote`
says, for every expression and on any frame (`Proofs/ExprRun.lean`); and `denote` gives
what the source means, for the expressions that have a meaning.  Here is the second step,
in which no instruction occurs.  A variable without a value has a slot like the others,
and nothing is said of what is in it.

The source has values of 32 bits, and an operation that overflows has no meaning there;
the machine wraps around.  Where there is a meaning the two are the same
(`opWord_sourceOp`).
-/
import MyLang.Source
import MyLang.Proofs.CallFrame

namespace MyLang

open Rv32 ByteMemory

variable {entries es : List SymTabEntry} {locals ids : List SymId} {frame : Nat} {fp : Word}
  {σ σ' : Store} {mem mem' mem'' : Mem}

/-! ### Expressions without calls

The proof goes through the kinds of expressions, and the other nodes are none.
-/

/-- An id is that of an enum constant. -/
def isConstAt (entries : List SymTabEntry) (id : SymId) : Bool :=
  entries[id]?.any (·.symbol = .const)

namespace AstNode

/--
An expression without calls that reads variables among `ids` and enum constants, assigns
variables among `locals`, and has no assignment on the right of `&&` and `||`.
-/
def coreExpr (entries : List SymTabEntry) (locals ids : List SymId) : AstNode → Bool
  | .intConst _ => true
  | .ident _ (some id) => ids.contains id || isConstAt entries id
  | .binExp _ opType left right =>
      left.coreExpr entries locals ids && right.coreExpr entries locals ids &&
        (!(opType = .logAnd || opType = .logOr) || right.assigned.isEmpty)
  | .unaryExpr postfixExpr _ _ => postfixExpr.coreExpr entries locals ids
  | .varAsgn (.lval _ (.ident _ (some id))) rval =>
      locals.contains id && rval.coreExpr entries locals ids
  | _ => false
termination_by structural node => node

/-- Induction over the expressions without calls: there are five kinds of them. -/
theorem coreExpr_induct {motive : ∀ node : AstNode, node.coreExpr entries locals ids = true → Prop}
    (intConst : ∀ value h, motive (.intConst value) h)
    (ident : ∀ value id h, id ∈ ids ∨ isConstAt entries id = true →
      motive (.ident value (some id)) h) (binExp : ∀ value opType left right h hl hr,
      (¬(opType = .logAnd ∨ opType = .logOr) ∨ right.assigned = []) → motive left hl →
        motive right hr → motive (.binExp value opType left right) h)
    (unaryExpr : ∀ postfixExpr value opType h he, motive postfixExpr he →
      motive (.unaryExpr postfixExpr value opType) h)
    (varAsgn : ∀ value id rval h hr, id ∈ locals → motive rval hr →
      motive (.varAsgn (.lval .ident (.ident value (some id))) rval) h)
    {node : AstNode} (h : node.coreExpr entries locals ids = true) : motive node h := by
  induction node with
  | intConst value => exact intConst value h
  | ident value symbol =>
      cases symbol with
      | none => simp [coreExpr] at h
      | some id => exact ident value id h (by simpa [coreExpr] using h)
  | binExp value opType left right ihl ihr =>
      have hcore := h
      simp only [coreExpr, Bool.and_eq_true] at hcore
      obtain ⟨⟨hl, hr⟩, hop⟩ := hcore
      exact binExp value opType left right h hl hr (by simpa using hop) (ihl hl) (ihr hr)
  | unaryExpr postfixExpr value opType ih => exact unaryExpr postfixExpr value opType h h (ih h)
  | varAsgn target rval _ ihr =>
      have hcore := h
      unfold coreExpr at hcore
      split at hcore
      case h_5 kind value id rval' heq =>
          obtain ⟨rfl, rfl⟩ := AstNode.varAsgn.inj heq
          cases kind
          rw [Bool.and_eq_true, List.contains_iff_mem] at hcore
          exact varAsgn value id rval h hcore.2 hcore.1 (ihr hcore.2)
      all_goals simp_all
  | _ => simp [coreExpr] at h

theorem callFree_of_coreExpr {node : AstNode} (h : node.coreExpr entries locals ids = true) :
    node.callFree = true := by
  induction h using coreExpr_induct with
  | intConst value => rfl
  | ident value id => rfl
  | binExp value opType left right h hl hr hop ihl ihr =>
      simp only [callFree, ihl, ihr, Bool.and_self]
  | unaryExpr postfixExpr value opType h he ih => exact ih
  | varAsgn value id rval h hr hid ih => simp only [callFree, ih, Bool.and_self]

end AstNode

/-! ### The slots of a frame

Variables have slots that do not meet, so assigning one leaves the others.
-/

/-- How far below the frame pointer a variable is kept. -/
def slotAt (entries : List SymTabEntry) (id : SymId) : Nat :=
  match entries[id]? with
  | some e => slotOf e
  | none => 0

/--
The variables `ids` have slots of their own in a frame, below the two words at its top;
`locals` are those that are stored to where they are read from.
-/
structure FrameSlots (entries : List SymTabEntry) (locals ids : List SymId) (frame : Nat) :
    Prop where
  entry : ∀ id ∈ ids, ∃ e, entries[id]? = some e ∧ e.symbol ≠ .const
  bounds : ∀ id ∈ ids, 12 ≤ slotAt entries id ∧ slotAt entries id + 4 ≤ frame
  apart : ∀ id ∈ ids, ∀ id' ∈ ids, id ≠ id' →
    slotAt entries id + 4 ≤ slotAt entries id' ∨ slotAt entries id' + 4 ≤ slotAt entries id
  mem_of_local : ∀ id ∈ locals, id ∈ ids
  local_slot : ∀ id ∈ locals, ∀ e, entries[id]? = some e → slotOf e = localsBase + e.offset

/-- Every variable that has a value has it in its slot. -/
def Holds (entries : List SymTabEntry) (ids : List SymId) (fp : Word) (σ : Store) (mem : Mem) :
    Prop :=
  ∀ id ∈ ids, ∀ v, σ id = some v → loadWord mem (below fp (slotAt entries id)) = v.word

/-- Memory from the two words at the top of the frame on is as before. -/
def KeptAbove (fp : Word) (mem mem' : Mem) : Prop :=
  ∀ a : Word, fp.toNat - 8 ≤ a.toNat → mem' a = mem a

namespace KeptAbove

theorem refl (fp : Word) (mem : Mem) : KeptAbove fp mem mem := fun _ _ => rfl

theorem trans (h : KeptAbove fp mem mem') (h' : KeptAbove fp mem' mem'') :
    KeptAbove fp mem mem'' := fun a ha => (h' a ha).trans (h a ha)

/-- A store to a slot below the two words at the top. -/
theorem store {off : Nat} (h12 : 12 ≤ off) (hoff : off ≤ fp.toNat) (v : Word) :
    KeptAbove fp mem (storeWord mem (below fp off) v) := by
  intro a ha
  refine storeWord_far _ _ _ ?_
  have := a.isLt
  rw [BitVec.toNat_sub, below_toNat hoff]
  omega

end KeptAbove

/-- Assigning a variable is storing into its slot. -/
theorem Holds.assign (hS : FrameSlots entries locals ids frame) (hroom : frame ≤ fp.toNat)
    (h : Holds entries ids fp σ mem) {id : SymId} (hid : id ∈ ids) (v : CInt) :
    Holds entries ids fp (Function.update σ id (some v))
      (storeWord mem (below fp (slotAt entries id)) v.word) := by
  intro id' hid' w hw
  by_cases heq : id' = id
  · subst heq
    rw [Function.update_self] at hw
    rw [loadWord_storeWord_self, Option.some.inj hw]
  · rw [Function.update_of_ne heq] at hw
    have hlt := fp.isLt
    have hb := (hS.bounds id hid).2
    have hb' := (hS.bounds id' hid').2
    rw [loadWord_storeWord_apart _ _ (below_apart fp (by omega) (by omega)
      (hS.apart id hid id' hid' (Ne.symm heq))), h id' hid' w hw]

/-- A variable that loses its value. -/
theorem Holds.unset (h : Holds entries ids fp σ mem) (id : SymId) :
    Holds entries ids fp (Function.update σ id none) mem := by
  intro id' hid' w hw
  by_cases heq : id' = id
  · subst heq
    simp at hw
  · rw [Function.update_of_ne heq] at hw
    exact h id' hid' w hw

/-! ### Operators

What an operator of the source gives, its instructions give.
-/

/-- An operation that has a result in C has the same on words. -/
theorem opWord_sourceOp {opType : TokenType} {x y z : CInt} (h : sourceOp opType x y = some z) :
    opWord opType x.word y.word = z.word := by
  cases opType with
  | add => exact (CInt.word_add h).symm
  | sub => exact (CInt.word_sub h).symm
  | mult => exact (CInt.word_mul h).symm
  | div =>
      rw [opWord, divWord, if_neg (fun hy => CInt.div_ne_zero h (CInt.word_eq_zero.mp hy))]
      exact (CInt.word_div h).symm
  | lshift => exact (CInt.word_shl h).symm
  | rshift => exact (CInt.word_shr h).symm
  | and | or | xor =>
      obtain rfl := Option.some.inj h
      exact (CInt.word_bitwise _).symm
  | equal | notEqual | lt | ltEq | gt | gtEq | logAnd | logOr =>
      obtain rfl := Option.some.inj h
      simp only [opWord, CInt.word_ofBool, CInt.slt_word, CInt.sle_word, CInt.word_inj,
        CInt.word_eq_zero, ofBool, ne_eq]
  | _ => simp [sourceOp] at h

theorem opWord_shortcut {opType : TokenType} {x z : CInt} (h : shortcut opType x = some z)
    (w : Word) : opWord opType x.word w = z.word := by
  cases opType with
  | logAnd =>
      simp only [shortcut, Option.ite_none_right_eq_some, Option.some.injEq] at h
      obtain ⟨hx, rfl⟩ := h
      simp [opWord, CInt.word_eq_zero.mpr hx, ofBool]
  | logOr =>
      simp only [shortcut, Option.ite_none_right_eq_some, Option.some.injEq] at h
      obtain ⟨hx, rfl⟩ := h
      have hw : x.word ≠ 0 := fun h => hx (CInt.word_eq_zero.mp h)
      rw [opWord, decide_eq_true (Or.inl hw)]
      rfl
  | _ => simp [shortcut] at h

/-- Only `&&` and `||` have a short cut. -/
theorem logic_of_shortcut {opType : TokenType} {x z : CInt} (h : shortcut opType x = some z) :
    opType = .logAnd ∨ opType = .logOr := by
  cases opType <;> simp_all [shortcut]

/-- An expression that assigns nothing leaves memory as it is. -/
theorem denote_mem_eq {node : AstNode} (hcore : node.coreExpr entries locals ids = true)
    (h : node.assigned = []) : (denote es fp node mem).2 = mem := by
  induction hcore using AstNode.coreExpr_induct generalizing mem with
  | intConst value => rfl
  | ident value id => rfl
  | binExp value opType left right _ hl hr hop ihl ihr =>
      rw [AstNode.assigned, List.append_eq_nil_iff] at h
      rw [denote, ihr h.2, ihl h.1]
  | unaryExpr postfixExpr value opType _ he ih => rw [denote, ih h]
  | varAsgn value id rval _ hr hid ih => simp [AstNode.assigned] at h

/-! ### The value of an expression

On the expression, for any store that the frame holds.
-/

/-- Entries that differ only in what the generator writes give identifiers the same values. -/
private theorem identWord_sound (hfix : es.map SymTabEntry.fixed = entries.map SymTabEntry.fixed)
    (h : Holds es ids fp σ mem) {id : SymId} {v : CInt}
    (hid : id ∈ ids ∨ isConstAt entries id = true)
    (hv : identValue entries (some id) σ = some v) : identWord es fp (some id) mem = v.word := by
  simp only [identValue, Option.bind_eq_bind, Option.bind_some, Option.bind_eq_some_iff] at hv
  obtain ⟨e, he, hv⟩ := hv
  have hfixed : (es.map SymTabEntry.fixed)[id]? = some e.fixed := by
    rw [hfix, List.getElem?_map, he]
    rfl
  rw [List.getElem?_map, Option.map_eq_some_iff] at hfixed
  obtain ⟨e', he', hf⟩ := hfixed
  have hsym : e'.symbol = e.symbol := by
    have := congrArg SymTabEntry.symbol hf
    exact this
  have hval : e'.constValue = e.constValue := by
    have := congrArg SymTabEntry.constValue hf
    exact this
  rw [identWord, entryOf_some, he']
  by_cases hconst : e.symbol = .const
  · rw [if_pos hconst] at hv
    rw [CInt.word_of_ofInt? hv]
    simp only [hsym, hconst, if_true, hval]
    rw [BitVec.ofInt_natCast]
  · rw [if_neg hconst] at hv
    simp only [hsym, hconst, if_false]
    have hmem : id ∈ ids := by
      rcases hid with hid | hid
      · exact hid
      · simp [isConstAt, he, hconst] at hid
    have hslot : slotAt es id = slotOf e' := by rw [slotAt, he']
    rw [← hslot, h id hmem v hv]

/-- **Where the source gives an expression a value, its code computes that value.** -/
theorem denote_sound (hfix : es.map SymTabEntry.fixed = entries.map SymTabEntry.fixed)
    (hS : FrameSlots es locals ids frame) (hroom : frame ≤ fp.toNat) {node : AstNode}
    (hcore : node.coreExpr entries locals ids = true) {v : CInt}
    (hv : evalExpr entries node σ = some (v, σ')) (h : Holds es ids fp σ mem) :
    (denote es fp node mem).1 = v.word ∧ Holds es ids fp σ' (denote es fp node mem).2 ∧
      KeptAbove fp mem (denote es fp node mem).2 := by
  induction hcore using AstNode.coreExpr_induct generalizing σ σ' mem v with
  | intConst value =>
      simp only [evalExpr, Option.bind_eq_bind, Option.bind_eq_some_iff, Option.pure_def,
        Option.some.injEq, Prod.mk.injEq] at hv
      obtain ⟨x, hx, rfl, rfl⟩ := hv
      exact ⟨(CInt.word_of_ofInt? hx).symm, h, KeptAbove.refl fp mem⟩
  | ident value id _ hid =>
      simp only [evalExpr, Option.bind_eq_bind, Option.bind_eq_some_iff, Option.pure_def,
        Option.some.injEq, Prod.mk.injEq] at hv
      obtain ⟨x, hx, rfl, rfl⟩ := hv
      exact ⟨identWord_sound hfix h hid hx, h, KeptAbove.refl fp mem⟩
  | binExp value opType left right _ hcl hcr hop ihl ihr =>
      simp only [evalExpr, Option.bind_eq_bind, Option.bind_eq_some_iff] at hv
      obtain ⟨⟨x, σ1⟩, hx, hv⟩ := hv
      obtain ⟨hl, hh1, hk1⟩ := ihl hx h
      rw [denote]
      cases hs : shortcut opType x with
      | some z =>
          simp only [hs, Option.pure_def, Option.some.injEq, Prod.mk.injEq] at hv
          obtain ⟨rfl, rfl⟩ := hv
          have hpure : right.assigned = [] :=
            hop.resolve_left (not_not_intro (logic_of_shortcut hs))
          rw [denote_mem_eq hcr hpure]
          refine ⟨?_, hh1, hk1⟩
          rw [hl]
          exact opWord_shortcut hs _
      | none =>
          simp only [hs, Option.pure_def, Option.bind_eq_some_iff, Option.some.injEq,
            Prod.mk.injEq] at hv
          obtain ⟨⟨y, σ2⟩, hy, z, hz, rfl, rfl⟩ := hv
          obtain ⟨hr, hh2, hk2⟩ := ihr hy hh1
          refine ⟨?_, hh2, hk1.trans hk2⟩
          rw [hl, hr]
          exact opWord_sourceOp hz
  | unaryExpr postfixExpr value opType _ _ ih =>
      cases opType with
      | not =>
          simp only [evalExpr, Option.bind_eq_bind, Option.bind_eq_some_iff, Option.pure_def,
            Option.some.injEq, Prod.mk.injEq] at hv
          obtain ⟨⟨x, σ1⟩, hx, rfl, rfl⟩ := hv
          obtain ⟨he, hh, hk⟩ := ih hx h
          refine ⟨?_, hh, hk⟩
          rw [denote, he, CInt.word_ofBool]
          simp only [CInt.word_eq_zero, ofBool]
      | _ => simp [evalExpr] at hv
  | varAsgn value id rval _ hr hlocal ih =>
      simp only [evalExpr, Option.bind_eq_bind, Option.bind_eq_some_iff, Option.pure_def,
        Option.some.injEq, Prod.mk.injEq] at hv
      obtain ⟨⟨x, σ1⟩, hx, rfl, rfl⟩ := hv
      obtain ⟨he, hh, hk⟩ := ih hx h
      have hid := hS.mem_of_local id hlocal
      obtain ⟨e, hent, -⟩ := hS.entry id hid
      have hslot : slotAt es id = slotOf e := by rw [slotAt, hent]
      have haddr : fp - (denote es fp (.lval .ident (.ident value (some id))) mem).1
          = below fp (slotAt es id) := by
        rw [denote, lvalWord, entryOf_some, hent, hslot, hS.local_slot id hlocal e hent, below]
      have hb := hS.bounds id hid
      refine ⟨?_, ?_, ?_⟩
      · rw [denote]
        exact he
      · rw [denote, haddr]
        rw [show (denote es fp (.lval .ident (.ident value (some id))) mem).2 = mem from rfl, he]
        exact hh.assign hS hroom hid x
      · rw [denote, haddr]
        exact hk.trans (KeptAbove.store hb.1 (by omega) _)

end MyLang
