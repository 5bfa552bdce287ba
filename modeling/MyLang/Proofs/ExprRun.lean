/-
What the code of an expression without calls computes.

`denote` is the meaning of the code, not of the source: every operand is evaluated, on
32-bit words, and variables are slots of the frame.  Nothing is undefined in it.  The run
of the code ends with the value in the result's register, the memory `denote` gives, and
every other busy register as it was.

An operand may store, since an assignment is an expression, so memory goes through
`denote` from the left to the right.  What the left operand has given stays in its
register meanwhile, which is busy, and busy registers are kept (`ExprDone`).

A variable is read and written by the entry its symbol points to, and the two need not
agree: a parameter is read at the slot of its register and written at its `offset`.  So
there are two functions for the two places, and nothing is assumed about them here.
-/
import MyLang.Proofs.OpRun

namespace MyLang

open Rv32 ByteMemory

variable {P : List Line} {L : Layout P.length} {m m' m'' : Machine}
  {frames : List StackFrame} {st st' : AsmState} {reg : Temp} {c : List Line}

namespace AstNode

/-- There is no call in an expression. -/
def callFree : AstNode → Bool
  | .funcCall _ _ _ => false
  | .binExp _ _ left right => left.callFree && right.callFree
  | .unaryExpr postfixExpr _ _ => postfixExpr.callFree
  | .varAsgn target rval => target.callFree && rval.callFree
  | _ => true
termination_by structural node => node

end AstNode

/-! ### The meaning of the code

A node that has no code, as a call here, is given some value; no run is about it.
-/

/-- The entry a symbol pointer leads to. -/
def entryOf (entries : List SymTabEntry) (symbol : Option SymId) : Option SymTabEntry :=
  symbol.bind (entries[·]?)

@[simp] theorem entryOf_some (entries : List SymTabEntry) (id : SymId) :
    entryOf entries (some id) = entries[id]? := rfl

/-- The value of an identifier. -/
def identWord (entries : List SymTabEntry) (fp : Word) (symbol : Option SymId) (mem : Mem) : Word :=
  match entryOf entries symbol with
  | none => 0
  | some e =>
      if e.symbol = .const then BitVec.ofNat 32 e.constValue else loadWord mem (below fp (slotOf e))

/-- How far below the frame pointer a variable is written: not where a parameter is read. -/
def lvalWord (entries : List SymTabEntry) : AstNode → Word
  | .ident _ symbol =>
      match entryOf entries symbol with
      | none => 0
      | some e => BitVec.ofNat 32 (localsBase + e.offset)
  | _ => 0

/-- The value of an expression without calls and the memory it leaves. -/
def denote (entries : List SymTabEntry) (fp : Word) : AstNode → Mem → Word × Mem
  | .intConst value, mem => (BitVec.ofInt 32 value, mem)
  | .ident _ symbol, mem => (identWord entries fp symbol mem, mem)
  | .lval _ ident, mem => (lvalWord entries ident, mem)
  | .binExp _ opType left right, mem =>
      let l := denote entries fp left mem
      let r := denote entries fp right l.2
      (opWord opType l.1 r.1, r.2)
  | .unaryExpr postfixExpr _ _, mem =>
      let r := denote entries fp postfixExpr mem
      (ofBool (r.1 = 0), r.2)
  | .varAsgn lval rval, mem =>
      let l := denote entries fp lval mem
      let r := denote entries fp rval l.2
      (r.1, storeWord r.2 (fp - l.1) r.1)
  | _, mem => (0, mem)
termination_by structural node => node

theorem ofInt_sizeToInt (n : Nat) : BitVec.ofInt 32 (sizeToInt n) = BitVec.ofNat 32 n := by
  rw [sizeToInt, BitVec.ofInt_toInt]

/-! ### Runs

One lemma for each kind of expression, and the induction over all of them.
-/

/-- What the run of an expression's code leaves. -/
structure ExprDone (L : Layout P.length) (reg : Temp) (free : Temp → Bool) (res : Word × Mem)
    (n : Nat) (m m' : Machine) : Prop where
  runs : Runs L m m'
  pc : m'.pc = m.pc + n
  value : m'.get (.t reg) = res.1
  mem : m'.mem = res.2
  keeps : Keeps free m m'

/-- One instruction that sets a register that was free. -/
theorem exprDone_set {i : Instr} {v : Word} (hreg : st.free reg = true)
    (hc : CodeAt P m.pc [.instr i]) (he : i.exec L m = some (m.set (.t reg) v).next) :
    ∃ m', ExprDone L reg st.free (v, m.mem) 1 m m' := by
  refine ⟨_, runs_instr hc he, rfl, get_set_next_temp, rfl, fun r hr => ?_⟩
  exact Keeps.set hreg r hr

private theorem evalIntConst_run {value : Int}
    (h : evalIntConst value st = .ok (reg, st', c)) (hc : CodeAt P m.pc c) :
    ∃ m', ExprDone L reg st.free (BitVec.ofInt 32 value, m.mem) c.length m m' := by
  obtain ⟨hr, rfl, rfl⟩ := evalIntConst_eq_ok.mp h
  exact exprDone_set (alloc_free hr) hc (by simp [Instr.exec])

private theorem evalIdent_run {symbol : Option SymId}
    (h : evalIdent symbol st = .ok (reg, st', c)) (hc : CodeAt P m.pc c) :
    ∃ m', ExprDone L reg st.free (identWord st.entries (m.get fp) symbol m.mem, m.mem) c.length
      m m' := by
  obtain ⟨id, e, rfl, he, hr, rfl, rfl⟩ := evalIdent_eq_ok.mp h
  refine exprDone_set (alloc_free hr) hc ?_
  rw [identWord, entryOf_some, he]
  by_cases hconst : e.symbol = .const
  · simp [identInstr, hconst, Instr.exec, BitVec.ofInt_natCast]
  · simp only [identInstr, if_neg hconst]
    rw [Instr.exec, add_ofInt_neg]

private theorem evalLval_run {kind : AstLValueKind} {ident : AstNode}
    (h : evalLval kind ident st = .ok (reg, st', c)) (hc : CodeAt P m.pc c) :
    ∃ m', ExprDone L reg st.free (lvalWord st.entries ident, m.mem) c.length m m' := by
  obtain ⟨value, id, e, rfl, he, hr, rfl, rfl⟩ := evalLval_eq_ok.mp h
  refine exprDone_set (alloc_free hr) hc ?_
  rw [Instr.exec, ofInt_sizeToInt, lvalWord, entryOf_some, he]
  simp

/-- The runs of the two operands, one after the other. -/
private theorem operands_run {left right : Temp} {st1 : AsmState} {c1 c2 : List Line}
    {n1 n2 : AstNode} (ha : Allocs st left st1)
    (hl : ∀ m : Machine, CodeAt P m.pc c1 →
      ∃ m', ExprDone L left st.free (denote st.entries (m.get fp) n1 m.mem) c1.length m m')
    (hr : ∀ m : Machine, CodeAt P m.pc c2 →
      ∃ m', ExprDone L right st1.free (denote st1.entries (m.get fp) n2 m.mem) c2.length m m')
    (hc1 : CodeAt P m.pc c1) (hc2 : CodeAt P (m.pc + c1.length) c2) :
    ∃ m', ExprDone L right st.free
        (denote st.entries (m.get fp) n2 (denote st.entries (m.get fp) n1 m.mem).2)
        (c1.length + c2.length) m m' ∧
      m'.get (.t left) = (denote st.entries (m.get fp) n1 m.mem).1 := by
  obtain ⟨m1, h1⟩ := hl m hc1
  obtain ⟨m2, h2⟩ := hr m1 (by rw [h1.pc]; exact hc2)
  rw [ha.entries, h1.keeps.fp, h1.mem] at h2
  refine ⟨m2, ⟨h1.runs.trans h2.runs, ?_, h2.value, h2.mem, ?_⟩, ?_⟩
  · rw [h2.pc, h1.pc, Nat.add_assoc]
  · exact h1.keeps.trans (h2.keeps.mono fun i => ha.busy_of_busy)
  · rw [h2.keeps.temp ha.busy, h1.value]

/-- **The code of an expression without calls computes what it denotes.** -/
theorem evalAsm_run {node : AstNode} (hcf : node.callFree = true)
    (h : evalAsm frames node st = .ok (reg, st', c)) (hnd : (labels P).Nodup)
    (hc : CodeAt P m.pc c) :
    ∃ m', ExprDone L reg st.free (denote st.entries (m.get fp) node m.mem) c.length m m' := by
  induction node generalizing st st' reg c m with
  | intConst value => exact evalIntConst_run h hc
  | ident value symbol => exact evalIdent_run h hc
  | lval kind ident => exact evalLval_run h hc
  | binExp value opType left right ihl ihr =>
      simp only [AstNode.callFree, Bool.and_eq_true] at hcf
      rw [evalAsm] at h
      obtain ⟨rl, st1, c1, rr, st2, c2, c3, hleft, hright, hop, rfl⟩ := evalBinExp_opCode h
      rw [codeAt_append, codeAt_append] at hc
      have ha := evalAsm_allocs left hleft
      have hb := evalAsm_allocs right hright
      obtain ⟨m2, h2, hv⟩ := operands_run ha (fun m hc => ihl hcf.1 hleft hc)
        (fun m hc => ihr hcf.2 hright hc) hc.1 hc.2.1
      obtain ⟨m3, h3⟩ := hop.run (L := L) (m := m2) hnd (by
        rw [h2.pc, ← Nat.add_assoc]
        exact hc.2.2)
      refine ⟨m3, h2.runs.trans h3.runs, ?_, ?_, h3.mem.trans h2.mem, ?_⟩
      · rw [h3.pc, h2.pc, List.length_append, List.length_append]
        omega
      · rw [h3.value, hv, h2.value, denote]
      · intro r hr
        refine (h3.keeps r ?_ fun i hi => ?_).trans (h2.keeps r hr)
        · rintro rfl
          simpa [hr rl rfl] using ha.was_free
        · exact hb.busy_of_busy (ha.busy_of_busy (hr i hi))
  | unaryExpr postfixExpr value opType ih =>
      rw [evalAsm] at h
      obtain ⟨rfl, tmp, st1, c1, hr, htmp, rfl, rfl⟩ := evalUnaryExpr_eq_ok.mp h
      rw [codeAt_append] at hc
      obtain ⟨m1, h1⟩ := ih hcf htmp hc.1
      rw [AsmState.take_entries] at h1
      have hc2 : CodeAt P m1.pc [.instr (.seqz (.t reg) (.t tmp))] := by
        rw [h1.pc]
        exact hc.2
      refine ⟨_, h1.runs.trans (runs_instr hc2 rfl), ?_, ?_, h1.mem, ?_⟩
      · rw [Machine.next_pc, Machine.set_pc, h1.pc, List.length_append]
        rfl
      · rw [get_set_next_temp, h1.value, denote]
      · refine fun s hs => (Keeps.set (alloc_free hr) s hs).trans (h1.keeps s fun i hi => ?_)
        simp only [AsmState.take_free, Function.update_apply, hs i hi, ite_self]
  | varAsgn lval rval ihl ihr =>
      simp only [AstNode.callFree, Bool.and_eq_true] at hcf
      rw [evalAsm] at h
      obtain ⟨rl, st1, c1, st2, c2, hleft, hright, rfl, rfl⟩ := evalVarAsgn_eq_ok.mp h
      rw [codeAt_append, codeAt_append] at hc
      have ha := evalAsm_allocs lval hleft
      have hb := evalAsm_allocs rval hright
      obtain ⟨m2, h2, hv⟩ := operands_run ha (fun m hc => ihl hcf.1 hleft hc)
        (fun m hc => ihr hcf.2 hright hc) hc.1 hc.2.1
      have hc3 := hc.2.2
      rw [Nat.add_assoc, ← h2.pc] at hc3
      have hne : (Reg.t reg) ≠ .t rl := by
        intro he
        exact ha.ne hb (Reg.t.inj he)
      refine ⟨_, h2.runs.trans ((runs_instr hc3 rfl).trans (runs_instr hc3.2 rfl)), ?_, ?_, ?_, ?_⟩
      · rw [Machine.next_pc, Machine.store_pc, Machine.next_pc, Machine.set_pc, h2.pc,
          List.length_append, List.length_append, asgnStore_length]
        omega
      · rw [Machine.next_get, Machine.store_get, get_set_next_ne hne, h2.value, denote]
      · rw [Machine.next_mem, Machine.store_mem, Machine.next_mem, Machine.set_mem, h2.mem,
          get_set_next_ne hne, h2.value, get_set_next_temp, hv, h2.keeps.fp, denote]
        simp [AluOp.eval]
      · intro r hr
        rw [Machine.next_get, Machine.store_get]
        exact (Keeps.set ha.was_free r hr).trans (h2.keeps r hr)
  | funcCall value args symbol ih => simp [AstNode.callFree] at hcf
  | _ => simp [evalAsm] at h

end MyLang
