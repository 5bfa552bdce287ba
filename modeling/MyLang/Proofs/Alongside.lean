/-
The code generator with other memory.

Two runs of the generator on entries that differ in the offsets never set write as many
lines, and take the same registers and labels.  Lines that use no such offset are the same
ones.  Where one is used they differ, if what was in memory does.

The analysis sets the offset of a local variable only, so the entries in question are
those of parameters, functions and constants.  A parameter that is `loaded` is read from
the slot of its register and a constant by its value, without their offsets.  An
assignment takes the offset of its target in any case, so there the memory shows.

`Alongside` relates the two runs of a generator and the list of the unset offsets that it
uses.  It has a rule for each way that generators are put together (`bind`, `ite`,
`state`, `update`), so that the lemma for a construct goes along its code.  Of the lines
`Gap` says that they are as many, the same if the list is empty, and others if it is not.
Nothing has to be known of what the lines are.
-/
import MyLang.Proofs.Twins
import MyLang.Proofs.Generable

namespace MyLang

open Rv32

/-- Two memories, with the entries of the analysis and the variables that have their offsets set. -/
structure Memories where
  one : SymId → Nat
  other : SymId → Nat
  entries : List SymTabEntry
  vars : List SymId

/-- Every offset that comes from memory looks different, as an address and in a register. -/
def Memories.Apart (M : Memories) : Prop :=
  ∀ id, sizeToInt (localsBase + M.one id) ≠ sizeToInt (localsBase + M.other id)

/-- As many lines, the same ones unless an unset offset is used. -/
structure Memories.Gap (M : Memories) (unset : List SymId) (c c' : List Line) : Prop where
  length : c'.length = c.length
  same : unset = [] → c' = c
  differ : unset ≠ [] → M.Apart → c' ≠ c

/--
Two states of the generator whose entries differ in unset offsets; the parameters that are
`loaded` say so.
-/
structure Memories.Twins (M : Memories) (loaded : List SymId) (st st' : AsmState) : Prop where
  rest : st' = { st with entries := st'.entries }
  entries : MyLang.Twins M.one M.other M.vars st.entries st'.entries
  kinds : st.entries.map SymTabEntry.symbol = M.entries.map SymTabEntry.symbol
  loaded : ∀ (id : SymId) e, st.entries[id]? = some e → (e.isArgLoaded = true ↔ id ∈ loaded)

/-- Where the first generator returns the second does, with the same value. -/
def Memories.Alongside {α : Type} (M : Memories) (loaded loaded' unset : List SymId)
    (x x' : Gen α) : Prop :=
  ∀ st st' a st1 c, M.Twins loaded st st' → x st = .ok (a, st1, c) →
    ∃ st1' c', x' st' = .ok (a, st1', c') ∧ M.Twins loaded' st1 st1' ∧ M.Gap unset c c'

variable {M : Memories} {α β : Type} {loaded loaded' loaded'' u v : List SymId} {st st' : AsmState}

namespace Memories.Gap

theorem refl (c : List Line) : M.Gap [] c c := ⟨rfl, fun _ => rfl, fun h => absurd rfl h⟩

/-- Lines in a row differ if any of them do. -/
theorem append {c c' d d' : List Line} (h : M.Gap u c c') (h' : M.Gap v d d') :
    M.Gap (u ++ v) (c ++ d) (c' ++ d') := by
  refine ⟨by
    rw [List.length_append, List.length_append, h.length, h'.length], fun hnil => ?_,
      fun hne hapart heq => ?_⟩
  · obtain ⟨hu, hv⟩ := List.append_eq_nil_iff.mp hnil
    rw [h.same hu, h'.same hv]
  · obtain ⟨hc, hd⟩ := List.append_inj heq h.length
    by_cases hu : u = []
    · refine h'.differ (fun hv => hne ?_) hapart hd
      rw [hu, hv, List.append_nil]
    · exact h.differ hu hapart hc

end Memories.Gap

namespace Memories.Twins

/-- A change of anything but the entries. -/
theorem update (h : M.Twins loaded st st') {f : AsmState → AsmState}
    (hf : ∀ st entries, f { st with entries } = { f st with entries })
    (hent : (f st).entries = st.entries) : M.Twins loaded (f st) (f st') := by
  have heq : f st' = { f st with entries := st'.entries } := by
    conv_lhs => rw [h.rest]
    exact hf st st'.entries
  rw [heq]
  refine ⟨rfl, ?_, ?_, ?_⟩
  · show MyLang.Twins _ _ _ (f st).entries st'.entries
    rw [hent]
    exact h.entries
  · rw [hent]
    exact h.kinds
  · rw [hent]
    exact h.loaded

theorem free (h : M.Twins loaded st st') : st'.free = st.free := by rw [h.rest]

theorem count (h : M.Twins loaded st st') (kind : LabelKind) : st'.count kind = st.count kind := by
  rw [h.rest]
  cases kind <;> rfl

end Memories.Twins

/-! ### How generators go alongside

The rules are those of a monad, with the unset offsets that are used collected along the
way.
-/

namespace Memories.Alongside

theorem pure (a : α) : M.Alongside loaded loaded [] (pure a : Gen α) (Pure.pure a) := by
  intro st st' b st1 c ht h
  obtain ⟨rfl, rfl, rfl⟩ := Gen.pure_eq_ok.mp h
  exact ⟨st', [], rfl, ht, Gap.refl _⟩

theorem stop (e : AsmError) {x' : Gen α} :
    M.Alongside loaded loaded' u (Gen.stop e : Gen α) x' := by
  intro st st' a st1 c _ h
  exact absurd h (by simp)

theorem bind {x x' : Gen α} {f f' : α → Gen β} (hx : M.Alongside loaded loaded' u x x')
    (hf : ∀ a, M.Alongside loaded' loaded'' v (f a) (f' a)) :
    M.Alongside loaded loaded'' (u ++ v) (x >>= f) (x' >>= f') := by
  intro st st' b st2 c ht h
  obtain ⟨a, st1, c1, c2, hx1, hf1, rfl⟩ := Gen.bind_eq_ok.mp h
  obtain ⟨st1', c1', hx1', ht1, hgap1⟩ := hx st st' a st1 c1 ht hx1
  obtain ⟨st2', c2', hf1', ht2, hgap2⟩ := hf a st1 st1' b st2 c2 ht1 hf1
  exact ⟨st2', c1' ++ c2', Gen.bind_eq_ok.mpr ⟨a, st1', c1', c2', hx1', hf1', rfl⟩, ht2,
    hgap1.append hgap2⟩

/-- Behind something that uses no unset offset. -/
theorem after {x x' : Gen α} {f f' : α → Gen β} (hx : M.Alongside loaded loaded' [] x x')
    (hf : ∀ a, M.Alongside loaded' loaded'' u (f a) (f' a)) :
    M.Alongside loaded loaded'' u (x >>= f) (x' >>= f') :=
  hx.bind hf

/-- Before something that uses no unset offset. -/
theorem before {x x' : Gen α} {f f' : α → Gen β} (hx : M.Alongside loaded loaded' u x x')
    (hf : ∀ a, M.Alongside loaded' loaded'' [] (f a) (f' a)) :
    M.Alongside loaded loaded'' u (x >>= f) (x' >>= f') := by
  have h := hx.bind hf
  rw [List.append_nil] at h
  exact h

theorem ite {p : Prop} [Decidable p] {x x' y y' : Gen α}
    (hx : p → M.Alongside loaded loaded' u x x') (hy : ¬ p → M.Alongside loaded loaded' u y y') :
    M.Alongside loaded loaded' u (if p then x else y) (if p then x' else y') := by
  by_cases hp : p
  · rw [if_pos hp, if_pos hp]
    exact hx hp
  · rw [if_neg hp, if_neg hp]
    exact hy hp

/-- What is done with a state. -/
theorem state {f f' : AsmState → Gen α} (hf : ∀ st st', M.Twins loaded st st' →
      M.Alongside loaded loaded' u (f st) (f' st')) :
    M.Alongside loaded loaded' u (Gen.state >>= f) (Gen.state >>= f') := by
  intro st st' a st1 c ht h
  rw [state_bind_apply] at h ⊢
  exact hf st st' ht st st' a st1 c ht h

theorem update {f : AsmState → AsmState}
    (hf : ∀ st entries, f { st with entries } = { f st with entries })
    (hent : ∀ st, (f st).entries = st.entries) : M.Alongside loaded loaded [] (Gen.update f)
      (Gen.update f) := by
  intro st st' u st1 c ht h
  obtain ⟨rfl, rfl⟩ := Gen.update_eq_ok.mp h
  exact ⟨f st', [], rfl, ht.update hf (hent st), Gap.refl _⟩

/-! ### Emitters

What is emitted depends on the entries only through an offset that is put into a line.
-/

theorem emit (i : Instr) : M.Alongside loaded loaded [] (MyLang.emit i) (MyLang.emit i) := by
  intro st st' u st1 c ht h
  obtain ⟨rfl, rfl⟩ := emit_eq_ok.mp h
  exact ⟨st', _, rfl, ht, Gap.refl _⟩

/-- An instruction with an offset that was never set. -/
theorem emit_unset {i i' : Instr} (id : SymId) (hne : M.Apart → i' ≠ i) :
    M.Alongside loaded loaded [id] (MyLang.emit i) (MyLang.emit i') := by
  intro st st' u st1 c ht h
  obtain ⟨rfl, rfl⟩ := emit_eq_ok.mp h
  refine ⟨st', _, rfl, ht, rfl, fun h => absurd h (List.cons_ne_nil _ _),
    fun _ hapart heq => hne hapart ?_⟩
  simpa using heq

theorem label (l : String) : M.Alongside loaded loaded [] (emitLabel l) (emitLabel l) := by
  intro st st' u st1 c ht h
  obtain ⟨rfl, rfl⟩ := emitLabel_eq_ok.mp h
  exact ⟨st', _, rfl, ht, Gap.refl _⟩

theorem follow (o : Option α) : M.Alongside loaded loaded [] (MyLang.follow o)
    (MyLang.follow o) := by
  cases o with
  | none => exact stop _
  | some a => exact pure a

theorem alloc : M.Alongside loaded loaded [] allocRegister allocRegister := by
  intro st st' reg st1 c ht h
  obtain ⟨hfirst, rfl, rfl⟩ := allocRegister_eq_ok.mp h
  refine ⟨st'.take reg, [], allocRegister_eq_ok.mpr ⟨?_, rfl, rfl⟩,
    ht.update (f := fun st => st.take reg) (fun _ _ => rfl) rfl, Gap.refl _⟩
  rw [AsmState.first, ht.free]
  exact hfirst

theorem free (reg : Temp) : M.Alongside loaded loaded [] (freeRegister reg) (freeRegister reg) :=
  update (fun _ _ => rfl) fun _ => rfl

theorem condLabel (kind : LabelKind) :
    M.Alongside loaded loaded [] (createBaseCondLabel kind) (createBaseCondLabel kind) := by
  intro st st' l st1 c ht h
  rw [createBaseCondLabel_apply] at h
  obtain ⟨rfl, rfl, rfl⟩ : st.baseLabel kind = l ∧ st.bump kind = st1 ∧ [] = c := by simpa using h
  refine ⟨st'.bump kind, [], ?_, ht.update (f := fun st => st.bump kind) (fun _ _ => ?_) ?_,
    Gap.refl _⟩
  · rw [createBaseCondLabel_apply, AsmState.baseLabel, ht.count]
    rfl
  · cases kind <;> rfl
  · cases kind <;> rfl

/-- What is done with an entry: but for its offset it is the same one. -/
theorem entry {symbol : Option SymId} {f f' : SymTabEntry → Gen α}
    (hf : ∀ id e o, symbol = some id → (M.entries[id]?.map SymTabEntry.symbol = some e.symbol) →
      (e.isArgLoaded = true ↔ id ∈ loaded) →
      (if id ∈ M.vars then o = e.offset else e.offset = M.one id ∧ o = M.other id) →
      M.Alongside loaded loaded' u (f e) (f' { e with offset := o })) :
    M.Alongside loaded loaded' u (symbolEntry symbol >>= f) (symbolEntry symbol >>= f') := by
  intro st st' a st1 c ht h
  obtain ⟨e, st0, c1, c2, hsym, hrun, rfl⟩ := Gen.bind_eq_ok.mp h
  obtain ⟨⟨id, rfl, he⟩, rfl, rfl⟩ := symbolEntry_eq_ok.mp hsym
  obtain ⟨o, ho, hoff⟩ := ht.entries.entry id e he
  have hkind : M.entries[id]?.map SymTabEntry.symbol = some e.symbol := by
    have := congrArg (·[id]?) ht.kinds
    simp only [List.getElem?_map, he, Option.map_some] at this
    exact this.symm
  obtain ⟨st1', c', hrun', ht', hgap⟩ :=
    hf id e o rfl hkind (ht.loaded id e he) hoff st0 st' a st1 c2 ht hrun
  refine ⟨st1', c', ?_, ht', hgap⟩
  exact Gen.bind_eq_ok.mpr ⟨_, st', [], c', symbolEntry_eq_ok.mpr ⟨⟨id, rfl, ho⟩, rfl, rfl⟩, hrun',
    rfl⟩

/-! ### Calls

A call looks up the size of the callee's frame, which is the same in both runs.
-/

theorem frameSizeOf (frames : List StackFrame) (e : SymTabEntry) (o : Nat) :
    M.Alongside loaded loaded [] (MyLang.frameSizeOf frames e)
      (MyLang.frameSizeOf frames { e with offset := o }) :=
  (follow e.frame).after fun id => (follow frames[id]?).after fun f => pure f.size

theorem saveTemps (regs : List Temp) (off : Nat) :
    M.Alongside loaded loaded [] (MyLang.saveTemps regs off) (MyLang.saveTemps regs off) := by
  induction regs generalizing off with
  | nil => exact pure _
  | cons reg rest ih =>
      rw [MyLang.saveTemps]
      refine state fun st st' ht => ?_
      rw [ht.free]
      refine ite (fun _ => ih off) fun _ => ?_
      exact (emit _).after fun _ => (free reg).after fun _ => (ih _).after fun p => pure _

theorem loadArgs (regs : List (Fin argLength)) (off : Nat) :
    M.Alongside loaded loaded [] (MyLang.loadArgs regs off) (MyLang.loadArgs regs off) := by
  induction regs generalizing off with
  | nil => exact pure _
  | cons reg rest ih => exact (emit _).after fun _ => ih _

theorem restoreTemps (regs : List Temp) (off : Nat) :
    M.Alongside loaded loaded [] (MyLang.restoreTemps regs off) (MyLang.restoreTemps regs off) := by
  induction regs generalizing off with
  | nil => exact pure _
  | cons reg rest ih =>
      rw [MyLang.restoreTemps]
      refine (emit _).after fun _ => after ?_ fun _ => ih _
      exact update (f := fun st => st.take reg) (fun _ _ => rfl) fun _ => rfl

/-- The unset offsets of the arguments of a call. -/
theorem spillArgs {args : List AstNode} {frames : List StackFrame}
    (ih : ∀ node ∈ args, M.Alongside loaded loaded (node.unsetUses M.entries M.vars loaded)
      (evalAsm frames node) (evalAsm frames node)) (off : Nat) :
    M.Alongside loaded loaded (AstNode.unsetUsesList M.entries M.vars loaded args)
      (MyLang.spillArgs (evalAsmList frames args) off)
      (MyLang.spillArgs (evalAsmList frames args) off) := by
  induction args generalizing off with
  | nil => exact pure _
  | cons node rest ihl =>
      refine (ih node List.mem_cons_self).bind fun reg => ?_
      exact (emit _).after fun _ => (free reg).after fun _ =>
        ihl (fun n hn => ih n (List.mem_cons_of_mem _ hn)) _

/-! ### Operators

Operators work on registers, which the two runs take alike.
-/

theorem emitRegOp (op : AluOp) (left right : Temp) :
    M.Alongside loaded loaded [] (MyLang.emitRegOp op left right)
      (MyLang.emitRegOp op left right) :=
  (emit _).after fun _ => (free right).after fun _ => pure left

theorem emitFresh {left right : Temp} {code : Temp → Gen Unit}
    (hcode : ∀ reg, M.Alongside loaded loaded [] (code reg) (code reg)) :
    M.Alongside loaded loaded [] (MyLang.emitFresh left right code)
      (MyLang.emitFresh left right code) :=
  alloc.after fun reg => (hcode reg).after fun _ => (free left).after fun _ =>
    (free right).after fun _ => pure reg

theorem emitInverted (left right lhs rhs : Temp) :
    M.Alongside loaded loaded [] (MyLang.emitInverted left right lhs rhs)
      (MyLang.emitInverted left right lhs rhs) :=
  alloc.after fun reg => alloc.after fun tmp => (emit _).after fun _ => (emit _).after fun _ =>
    (free left).after fun _ => (free right).after fun _ => (free tmp).after fun _ => pure reg

theorem evalLogAnd (left right : Temp) :
    M.Alongside loaded loaded [] (MyLang.evalLogAnd left right) (MyLang.evalLogAnd left right) :=
  alloc.after fun reg => (condLabel .logAnd).after fun _ => (emit _).after fun _ =>
    (emit _).after fun _ =>
    (emit _).after fun _ => (emit _).after fun _ => (label _).after fun _ => (emit _).after fun _ =>
    (label _).after fun _ => (free left).after fun _ => (free right).after fun _ => pure reg

theorem evalLogOr (left right : Temp) :
    M.Alongside loaded loaded [] (MyLang.evalLogOr left right) (MyLang.evalLogOr left right) :=
  alloc.after fun reg => (condLabel .logOr).after fun _ => (emit _).after fun _ =>
    (emit _).after fun _ =>
    (emit _).after fun _ => (emit _).after fun _ => (label _).after fun _ => (emit _).after fun _ =>
    (label _).after fun _ => (free left).after fun _ => (free right).after fun _ => pure reg

/-- An operator works on registers alone. -/
theorem evalBinOp (opType : TokenType) (left right : Temp) :
    M.Alongside loaded loaded [] (MyLang.evalBinOp opType left right)
      (MyLang.evalBinOp opType left right) := by
  unfold MyLang.evalBinOp
  split
  · exact emitRegOp _ left right
  · exact emitRegOp _ left right
  · exact emitRegOp _ left right
  · exact emitRegOp _ left right
  · exact emitFresh fun _ => (emit _).after fun _ => emit _
  · exact emitFresh fun _ => (emit _).after fun _ => emit _
  · exact evalLogAnd left right
  · exact evalLogOr left right
  · exact emitFresh fun _ => emit _
  · exact emitInverted left right right left
  · exact emitFresh fun _ => emit _
  · exact emitInverted left right left right
  · exact emitFresh fun _ => emit _
  · exact emitFresh fun _ => emit _
  · exact emitFresh fun _ => emit _
  · exact emitFresh fun _ => emit _
  · exact emitFresh fun _ => emit _
  · exact stop _

/-! ### Variables

A variable is read at its offset, and an assignment loads the offset itself.
-/

/-- An offset that was never set tells the memories apart. -/
theorem load_ne {reg : Reg} {id : SymId} (hapart : M.Apart) :
    Instr.lw reg (-((M.other id + localsBase : Nat) : Int)) fp ≠ .lw reg
      (-((M.one id + localsBase : Nat) : Int)) fp := by
  intro heq
  have hsum : M.other id + localsBase = M.one id + localsBase := by
    have := (Instr.lw.inj heq).2.1
    omega
  refine hapart id ?_
  rw [Nat.add_comm localsBase, Nat.add_comm localsBase, hsum]

/-- What is read by an unset offset, of a symbol whose kind is known. -/
theorem readUnset_eq {id : SymId} {kind : SymbolType}
    (h : M.entries[id]?.map SymTabEntry.symbol = some kind) :
    AstNode.readUnset M.entries M.vars loaded (some id) =
      if kind = .const ∨ id ∈ loaded ∨ id ∈ M.vars then [] else [id] := by
  simp only [AstNode.readUnset, Option.toList_some, List.filter_cons, List.filter_nil, h]
  by_cases hset : kind = .const ∨ id ∈ loaded ∨ id ∈ M.vars
  · rw [if_pos hset]
    rcases hset with hconst | hloaded | hvar
    · simp [hconst]
    · simp [hloaded]
    · simp [hvar]
  · rw [if_neg hset]
    simp only [not_or] at hset
    simp [hset.1, hset.2.1, hset.2.2]

/-- An identifier uses its offset unless its entry is a constant or a loaded parameter. -/
theorem evalIdent (symbol : Option SymId) :
    M.Alongside loaded loaded (AstNode.readUnset M.entries M.vars loaded symbol)
      (MyLang.evalIdent symbol) (MyLang.evalIdent symbol) := by
  refine entry fun id e o hsym hkind hloaded hoff => ?_
  rw [hsym, readUnset_eq hkind]
  by_cases hconst : e.symbol = .const
  · rw [if_pos hconst, if_pos hconst, if_pos (Or.inl hconst)]
    exact alloc.after fun reg => (emit _).after fun _ => pure reg
  rw [if_neg hconst, if_neg hconst]
  by_cases harg : e.isArgLoaded = true
  · rw [if_pos harg, if_pos harg, if_pos (Or.inr (Or.inl (hloaded.mp harg)))]
    exact alloc.after fun reg => (emit _).after fun _ => pure reg
  rw [if_neg harg, if_neg harg]
  by_cases hvar : id ∈ M.vars
  · rw [if_pos hvar] at hoff
    rw [if_pos (Or.inr (Or.inr hvar)), hoff]
    exact alloc.after fun reg => (emit _).after fun _ => pure reg
  · rw [if_neg hvar] at hoff
    obtain ⟨hone, rfl⟩ := hoff
    have hset : ¬ (e.symbol = .const ∨ id ∈ loaded ∨ id ∈ M.vars) := by
      simp only [not_or]
      exact ⟨hconst, fun hmem => harg (hloaded.mpr hmem), hvar⟩
    rw [if_neg hset]
    refine alloc.after fun reg => (emit_unset id fun hapart => ?_).before fun _ => pure reg
    rw [hone]
    exact load_ne hapart

/-- The target of an assignment. -/
theorem evalLval (kind : AstLValueKind) (target : AstNode) :
    M.Alongside loaded loaded (AstNode.writtenUnset M.vars target) (MyLang.evalLval kind target)
      (MyLang.evalLval kind target) := by
  cases kind
  cases target with
  | ident value symbol =>
      refine after alloc fun reg => entry fun id e o hsym _ _ hoff => ?_
      rw [AstNode.writtenUnset, hsym]
      by_cases hvar : id ∈ M.vars
      · rw [if_pos hvar] at hoff
        have hu : (some id).toList.filter (· ∉ M.vars) = [] := by simp [hvar]
        rw [hu, hoff]
        exact (emit _).after fun _ => pure reg
      · rw [if_neg hvar] at hoff
        obtain ⟨hone, rfl⟩ := hoff
        have hu : (some id).toList.filter (· ∉ M.vars) = [id] := by simp [hvar]
        rw [hu]
        refine (emit_unset id fun hapart heq => hapart id ?_).before fun _ => pure reg
        rw [← hone]
        exact (Instr.addi.inj heq).2.2.symm
  | _ => exact stop _

/-! ### Expressions

By induction on the expression; the unset offsets are those of its parts, in order.
-/

/-- An expression uses the unset offsets of its parts. -/
theorem evalAsm (frames : List StackFrame) (node : AstNode) :
    M.Alongside loaded loaded (node.unsetUses M.entries M.vars loaded) (MyLang.evalAsm frames node)
      (MyLang.evalAsm frames node) := by
  induction node with
  | intConst value => exact alloc.after fun reg => (emit _).after fun _ => pure reg
  | ident value symbol => exact evalIdent symbol
  | lval kind target _ => exact evalLval kind target
  | binExp value opType left right ihl ihr =>
      exact ihl.bind fun reg => ihr.before fun reg' => evalBinOp opType reg reg'
  | varAsgn target rval ihl ihr =>
      exact ihl.bind fun reg => ihr.before fun reg' => (emit _).after fun _ =>
        (emit _).after fun _ =>
        (free reg).after fun _ => pure reg'
  | unaryExpr expr value opType ih =>
      rw [AstNode.unsetUses, MyLang.evalAsm]
      unfold evalUnaryExpr
      split
      · exact alloc.after fun reg => ih.before fun tmp => (emit _).after fun _ =>
          (free tmp).after fun _ => pure reg
      · exact stop _
  | funcCall value args symbol ih =>
      rw [AstNode.unsetUses, MyLang.evalAsm]
      refine entry fun id e o _ _ _ _ => (frameSizeOf frames e o).after fun size =>
        (saveTemps _ _).after fun p => ?_
      refine (spillArgs ih _).before fun _ => (loadArgs _ _).after fun _ =>
        (emit _).after fun _ => ?_
      exact (restoreTemps _ _).after fun _ => alloc.after fun reg => (emit _).after fun _ =>
        pure reg
  | _ => exact stop _

/-! ### Statements

The generator leaves an empty expression out of a statement, and the list of offsets does
so too.
-/

/-- Lines that are the same in every state. -/
theorem lines {x : Gen Unit} {c : List Line} (h : ∀ st, x st = .ok ((), st, c)) :
    M.Alongside loaded loaded [] x x := by
  intro st st' u st1 c' ht hx
  obtain ⟨rfl, rfl⟩ : st = st1 ∧ c = c' := by simpa [h st] using hx
  exact ⟨st', c, h st', ht, Gap.refl _⟩

theorem discard {x : Gen Temp} (hx : M.Alongside loaded loaded u x x) :
    M.Alongside loaded loaded u (MyLang.discard x) (MyLang.discard x) := hx.before fun reg =>
      free reg

/-- Where nothing is generated for an empty expression, none of its offsets are left out. -/
theorem unlessEmpty {node : AstNode} {x : Gen Unit}
    (hx : M.Alongside loaded loaded (node.unsetUses M.entries M.vars loaded) x x) :
    M.Alongside loaded loaded (node.unsetUses M.entries M.vars loaded)
      (if !node.isEmptyExpr then x else Pure.pure ())
      (if !node.isEmptyExpr then x else Pure.pure ()) := by
  refine ite (fun _ => hx) fun hempty => ?_
  have hnode : node = .emptyExpr := by
    cases node <;> first | rfl | simp [AstNode.isEmptyExpr] at hempty
  subst hnode
  exact pure ()

theorem genVarDef {symbol : Option SymId} {x : Gen Temp}
    (hvar : ∀ id, symbol = some id → id ∈ M.vars) (hx : M.Alongside loaded loaded u x x) :
    M.Alongside loaded loaded u (MyLang.genVarDef symbol x) (MyLang.genVarDef symbol x) := by
  refine entry fun id e o hsym _ _ hoff => ?_
  rw [if_pos (hvar id hsym)] at hoff
  rw [hoff]
  exact hx.before fun reg => (emit _).after fun _ => free reg

theorem genAsmList {frames : List StackFrame} {l : List AstNode}
    (ih : ∀ node ∈ l, M.Alongside loaded loaded (node.unsetUses M.entries M.vars loaded)
      (genAsmNode frames node) (genAsmNode frames node)) :
    M.Alongside loaded loaded (AstNode.unsetUsesList M.entries M.vars loaded l)
      (MyLang.genAsmList frames l) (MyLang.genAsmList frames l) := by
  induction l with
  | nil => exact pure ()
  | cons node rest ihl =>
      exact (ih node List.mem_cons_self).bind fun _ => ihl fun n hn =>
        ih n (List.mem_cons_of_mem _ hn)

theorem mem_localIdsList {node : AstNode} {l : List AstNode} {id : SymId} (hn : node ∈ l)
    (hid : id ∈ node.localIds) : id ∈ AstNode.localIdsList l := by
  induction l with
  | nil => cases hn
  | cons n rest ih =>
      rw [AstNode.localIdsList, List.mem_append]
      rcases List.mem_cons.mp hn with rfl | hn
      · exact Or.inl hid
      · exact Or.inr (ih hn)

/-- A statement uses the unset offsets of its parts, in the order of their code. -/
theorem genAsmNode {node : AstNode} (hff : node.funcFree = true) (frames : List StackFrame)
    (hvars : ∀ id ∈ node.localIds, id ∈ M.vars) :
    M.Alongside loaded loaded (node.unsetUses M.entries M.vars loaded)
      (MyLang.genAsmNode frames node) (MyLang.genAsmNode frames node) := by
  -- on the statement
  induction node with
  | enum | emptyExpr | varDec => exact pure ()
  | varDef value type expr symbol _ =>
      refine genVarDef (fun id hid => hvars id ?_) (evalAsm frames expr)
      rw [hid, AstNode.localIds]
      exact List.mem_append_right _ (List.mem_singleton_self id)
  | exprStmt expr _ =>
      rw [AstNode.unsetUses, MyLang.genAsmNode]
      exact unlessEmpty (discard (evalAsm frames expr))
  | compStmt body ih =>
      have hbody : ∀ n ∈ body, n.funcFree = true := funcFreeList_iff.mp hff
      exact genAsmList fun n hn => ih n hn (hbody n hn) fun id hid =>
        hvars id (mem_localIdsList hn hid)
  | ret expr func ih =>
      rw [MyLang.genAsmNode, genRet_eq, AstNode.unsetUses]
      refine entry fun id e o _ _ _ _ => before ?_ fun _ =>
        (frameSizeOf frames e o).after fun size =>
        (lines fun _ => rfl).after fun _ => emit _
      unfold genRetValue
      refine ite (fun _ => ih hff hvars) fun _ => ?_
      exact (evalAsm frames expr).before fun reg => (emit _).after fun _ => free reg
  | ifElse ifExpr ifBody elseBody _ ihb ihe =>
      simp only [AstNode.funcFree, Bool.and_eq_true] at hff
      simp only [AstNode.localIds, List.mem_append] at hvars
      have hbody := ihb hff.1.2 fun id hid => hvars id (Or.inl hid)
      have helse := ihe hff.2 fun id hid => hvars id (Or.inr (Or.inr hid))
      refine (condLabel .if_).after fun _ => (condLabel .else_).after fun _ =>
        (label _).after fun _ => ?_
      refine (evalAsm frames ifExpr).bind fun reg => (emit _).after fun _ =>
        (free reg).after fun _ => ?_
      refine hbody.bind fun _ => (label _).after fun _ => ?_
      by_cases hnull : elseBody.nonNull = true
      · rw [if_pos hnull]
        exact helse
      · rw [if_neg hnull]
        obtain rfl := AstNode.eq_null hnull
        exact pure ()
  | while_ expr body _ ihb =>
      simp only [AstNode.funcFree, Bool.and_eq_true] at hff
      simp only [AstNode.localIds, List.mem_append] at hvars
      have hbody := ihb hff.2 fun id hid => hvars id (Or.inr hid)
      refine (condLabel .while_).after fun _ => (label _).after fun _ => ?_
      refine (evalAsm frames expr).bind fun reg => (emit _).after fun _ =>
        (free reg).after fun _ => ?_
      exact hbody.before fun _ => (emit _).after fun _ => label _
  | for_ init cond step body ihi _ _ ihb =>
      simp only [AstNode.funcFree, Bool.and_eq_true] at hff
      simp only [AstNode.localIds, List.mem_append] at hvars
      have hinit := ihi hff.1.1.1 fun id hid => hvars id (Or.inl hid)
      have hbody := ihb hff.2 fun id hid => hvars id (Or.inr (Or.inr (Or.inr hid)))
      have hfirst : M.Alongside loaded loaded (init.unsetUses M.entries M.vars loaded)
          (genForInit init.isForInit (MyLang.genAsmNode frames init) (MyLang.evalAsm frames init))
          (genForInit init.isForInit (MyLang.genAsmNode frames init)
            (MyLang.evalAsm frames init)) := by
        unfold genForInit
        exact ite (fun _ => hinit) fun _ => discard (evalAsm frames init)
      have hcond : ∀ l, M.Alongside loaded loaded (cond.unsetUses M.entries M.vars loaded)
          (genForCond l cond.isEmptyExpr (MyLang.evalAsm frames cond))
          (genForCond l cond.isEmptyExpr (MyLang.evalAsm frames cond)) := fun l =>
        unlessEmpty ((evalAsm frames cond).before fun reg => (emit _).after fun _ => free reg)
      have hstep : M.Alongside loaded loaded (step.unsetUses M.entries M.vars loaded)
          (genForStep step.isEmptyExpr (MyLang.evalAsm frames step))
          (genForStep step.isEmptyExpr (MyLang.evalAsm frames step)) :=
        unlessEmpty (discard (evalAsm frames step))
      rw [MyLang.genAsmNode, genFor_eq, AstNode.unsetUses]
      refine (condLabel .for_).after fun l => (label _).after fun _ => hfirst.bind fun _ => ?_
      refine (label _).after fun _ => (hcond l).bind fun _ => (label _).after fun _ =>
        hbody.bind fun _ => ?_
      exact (label _).after fun _ => hstep.before fun _ => (emit _).after fun _ => label _
  | funcDef => simp [AstNode.funcFree] at hff
  | _ => exact stop _

/-! ### Functions

A function stores its parameters first, so in its body only assignments to them are left.
-/

theorem follow_bind {o : Option α} {f f' : α → Gen β}
    (hf : ∀ a, o = some a → M.Alongside loaded loaded' u (f a) (f' a)) :
    M.Alongside loaded loaded' u (MyLang.follow o >>= f) (MyLang.follow o >>= f') := by
  intro st st' b st1 c ht h
  obtain ⟨a, ha, hrun⟩ := follow_bind_eq_ok.mp h
  obtain ⟨st1', c', hrun', ht', hgap⟩ := hf a ha st st' b st1 c ht hrun
  exact ⟨st1', c', follow_bind_eq_ok.mpr ⟨a, ha, hrun'⟩, ht', hgap⟩

/-- A parameter is put where its argument comes in; from then on it is not read by its offset. -/
theorem load (id : SymId) (i : Nat) :
    M.Alongside loaded (loaded ++ [id]) []
      (Gen.update fun st => { st with entries := st.entries.modify id fun e =>
        { e with isArgLoaded := true, argReg := i } })
      (Gen.update fun st => { st with entries := st.entries.modify id fun e =>
        { e with isArgLoaded := true, argReg := i } }) := by
  intro st st' u st1 c ht h
  obtain ⟨rfl, rfl⟩ := Gen.update_eq_ok.mp h
  refine ⟨_, [], rfl, ⟨?_, ht.entries.modify id fun _ _ => rfl, ?_, fun id' e he => ?_⟩, Gap.refl _⟩
  · conv_lhs => rw [ht.rest]
  · rw [← ht.kinds]
    refine List.ext_getElem? fun j => ?_
    rw [List.getElem?_map, List.getElem?_map, List.getElem?_modify]
    by_cases hj : id = j <;> cases st.entries[j]? <;> simp [hj]
  · rw [List.getElem?_modify] at he
    obtain ⟨e', he', rfl⟩ := Option.map_eq_some_iff.mp he
    rw [List.mem_append, List.mem_singleton, ← ht.loaded id' e' he']
    by_cases hid : id = id'
    · simp [hid]
    · simp [hid, Ne.symm hid]

theorem loadParams (loaded : List SymId) (i : Nat) (params : List Param) :
    M.Alongside loaded (loaded ++ params.filterMap Param.symbol) [] (MyLang.loadParams i params)
      (MyLang.loadParams i params) := by
  induction params generalizing i loaded with
  | nil =>
      rw [List.filterMap_nil, List.append_nil]
      exact pure ()
  | cons param rest ih =>
      refine follow_bind fun id hid => (load id i).after fun _ => ?_
      have hrest := ih (loaded ++ [id]) (i + 1)
      rw [List.append_assoc] at hrest
      rw [List.filterMap_cons_some hid]
      exact hrest

theorem genFuncDef {value type : String} {body : AstNode} {params : List Param}
    {symbol : Option SymId} (hff : body.funcFree = true) (frames : List StackFrame)
    (hvars : ∀ id ∈ body.localIds, id ∈ M.vars) :
    M.Alongside loaded (loaded ++ params.filterMap Param.symbol)
      (body.unsetUses M.entries M.vars (loaded ++ params.filterMap Param.symbol))
      (MyLang.genAsmNode frames (.funcDef value type body params symbol))
      (MyLang.genAsmNode frames (.funcDef value type body params symbol)) := by
  refine (label _).after fun _ => (loadParams loaded 0 params).after fun _ =>
    entry fun id e o _ _ _ _ => ?_
  refine (frameSizeOf frames e o).after fun size =>
    (lines fun _ => emitPrologue_apply _).after fun _ => ?_
  exact (genAsmNode hff frames hvars).before fun _ => lines fun _ => genFuncEnd_apply type _

/-- The functions of a program, one after the other. -/
theorem genProg {prog : List AstNode} (hprog : ∀ n ∈ prog, n.isFuncDef = true)
    (frames : List StackFrame) (hvars : ∀ id ∈ progVars prog, id ∈ M.vars) (loaded : List SymId) :
    ∃ loaded', M.Alongside loaded loaded' (unsetUsesProg M.entries M.vars loaded prog)
      (MyLang.genAsmList frames prog) (MyLang.genAsmList frames prog) := by
  induction prog generalizing loaded with
  | nil => exact ⟨loaded, pure ()⟩
  | cons node rest ih =>
      have hnode := hprog node List.mem_cons_self
      obtain ⟨value, type, body, params, symbol, rfl⟩ := AstNode.eq_funcDef hnode
      have hff := funcFree_of_isFuncDef hnode
      simp only [progVars, List.mem_append] at hvars
      obtain ⟨loaded', hrest⟩ := ih (fun n hn => hprog n (List.mem_cons_of_mem _ hn))
        (fun id hid => hvars id (Or.inr hid)) (loaded ++ params.filterMap Param.symbol)
      exact ⟨loaded', (genFuncDef hff frames fun id hid => hvars id (Or.inl hid)).bind
        fun _ => hrest⟩

end Memories.Alongside

/--
**With other memory the generator returns too, with the same lines where no unset offset is
used.**
-/
theorem genAsm_alongside {r : SemaResult} {entries : List SymTabEntry} {one other : SymId → Nat}
    {P : List Line} (hprog : ∀ n ∈ r.prog, n.isFuncDef = true)
    (ht : Twins one other (progVars r.prog) r.entries entries)
    (hloaded : ∀ e ∈ r.entries, e.isArgLoaded = false) (h : genAsm r = .ok P) :
    ∃ P', genAsm { r with entries } = .ok P' ∧
      (⟨one, other, r.entries, progVars r.prog⟩ : Memories).Gap r.unsetUses P P' := by
  obtain ⟨st1, c, hrun, rfl⟩ := genAsm_eq_ok.mp h
  obtain ⟨loaded', halong⟩ :=
    Memories.Alongside.genProg (M := ⟨one, other, r.entries, progVars r.prog⟩)
    hprog r.frames (fun id hid => hid) []
  have hstart : (⟨one, other, r.entries, progVars r.prog⟩ : Memories).Twins [] (makeRiscv r.entries)
      (makeRiscv entries) := by
    refine ⟨rfl, ht, rfl, fun id e he => ?_⟩
    rw [hloaded e (List.mem_of_getElem? he)]
    simp
  obtain ⟨st1', c', hrun', -, hgap⟩ := halong _ _ _ _ _ hstart hrun
  exact ⟨startCode ++ c', genAsm_eq_ok.mpr ⟨st1', c', hrun', rfl⟩,
    (Memories.Gap.refl startCode).append hgap⟩

end MyLang
