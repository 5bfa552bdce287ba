/-
`&&` and `||` evaluate both operands.

`eval_bin_exp` writes the code of the right operand directly behind that of the left one,
before `eval_log_and` and `eval_log_or` write their first branch.  So the right operand is
evaluated whatever the left one gave, with all its effects, and short-circuit evaluation
is met only where there is nothing to skip.

`ShortCircuits` is about runs that have evaluated the left operand, and asks that the code
of the right one is executed only where the left one leaves the result open.  Since the
code of the right operand is where such a run goes on, and every expression has some code
(`evalAsm_code_ne_nil`), it is executed always.  So the property holds of a run exactly if
the left value does not decide.

The value that decides is zero for `&&` and anything else for `||`.
-/
import MyLang.Proofs.PureExpr

namespace MyLang

open Rv32 ByteMemory

variable {P : List Line} {frames : List StackFrame}

/-- The value of the left operand is the value of `&&` or `||` already. -/
def decides : TokenType → Word → Bool
  | .logAnd, v => v = 0
  | .logOr, v => v ≠ 0
  | _, _ => false

/-- The code of an operator: that of its operands, then its own. -/
structure BinExpCode (frames : List StackFrame) (opType : TokenType) (l r : AstNode) (st : AsmState)
    (reg : Temp) (st' : AsmState) (c : List Line) where
  left : Temp
  right : Temp
  st1 : AsmState
  st2 : AsmState
  leftCode : List Line
  rightCode : List Line
  opCode : List Line
  left_eq : evalAsm frames l st = .ok (left, st1, leftCode)
  right_eq : evalAsm frames r st1 = .ok (right, st2, rightCode)
  op : OpCode left right st2 opType reg st' opCode
  code_eq : c = leftCode ++ (rightCode ++ opCode)

theorem evalBinExp_code {value : String} {opType : TokenType} {l r : AstNode} {st st' : AsmState}
    {reg : Temp} {c : List Line}
    (h : evalAsm frames (.binExp value opType l r) st = .ok (reg, st', c)) :
    Nonempty (BinExpCode frames opType l r st reg st' c) := by
  rw [evalAsm] at h
  obtain ⟨left, st1, c1, right, st2, c2, c3, h1, h2, hop, rfl⟩ := evalBinExp_opCode h
  exact ⟨left, right, st1, st2, c1, c2, c3, h1, h2, hop, rfl⟩

theorem OpCode.code_ne_nil {left right reg : Temp} {st st' : AsmState} {opType : TokenType}
    {c : List Line} (h : OpCode left right st opType reg st' c) : c ≠ [] := by
  cases h <;> simp [logicCode]

/-- Every expression has code, so that evaluating it executes something. -/
theorem evalAsm_code_ne_nil {node : AstNode} {st st' : AsmState} {reg : Temp} {c : List Line}
    (h : evalAsm frames node st = .ok (reg, st', c)) : c ≠ [] := by
  cases node with
  | intConst value =>
      obtain ⟨-, -, rfl⟩ := evalIntConst_eq_ok.mp h
      simp
  | ident value symbol =>
      obtain ⟨id, e, -, -, -, -, rfl⟩ := evalIdent_eq_ok.mp h
      simp
  | lval kind ident =>
      obtain ⟨value, id, e, -, -, -, -, rfl⟩ := evalLval_eq_ok.mp h
      simp
  | binExp value opType left right =>
      obtain ⟨f⟩ := evalBinExp_code h
      rw [f.code_eq]
      simp [f.op.code_ne_nil]
  | unaryExpr expr value opType =>
      obtain ⟨-, tmp, st1, c1, -, -, -, rfl⟩ := evalUnaryExpr_eq_ok.mp h
      simp
  | varAsgn target rval =>
      obtain ⟨lval, st1, c1, st2, c2, -, -, -, rfl⟩ := evalVarAsgn_eq_ok.mp h
      simp [asgnStore]
  | funcCall value args symbol =>
      rw [evalAsm] at h
      obtain ⟨f⟩ := evalFuncCall_code h
      rw [f.code_eq]
      simp
  | _ => simp [evalAsm] at h

/-! ### What is executed

A line is executed if a run comes to it; the lines of the right operand have a place of
their own.
-/

/-- Execution comes to a line of `code`, which stands at `p`. -/
def Executes (L : Layout P.length) (m : Machine) (p : Nat) (code : List Line) : Prop :=
  ∃ m', Runs L m m' ∧ ∃ i, i < code.length ∧ m'.pc = p + i ∧ P[m'.pc]? = code[i]?

/--
Whenever a run from the start of the code has evaluated the left operand, the code of
the right one is executed only if the value of the left one leaves the result open.
-/
def ShortCircuits {opType : TokenType} {l r : AstNode} {st st' : AsmState} {reg : Temp}
    {c : List Line} (L : Layout P.length) (f : BinExpCode frames opType l r st reg st' c)
    (m : Machine) : Prop :=
  ∀ m1, Runs L m m1 → m1.pc = m.pc + f.leftCode.length →
    Executes L m1 (m.pc + f.leftCode.length) f.rightCode →
      decides opType (m1.get (.t f.left)) = false

theorem BinExpCode.left_codeAt {opType : TokenType} {l r : AstNode} {st st' : AsmState} {reg : Temp}
    {c : List Line} (f : BinExpCode frames opType l r st reg st' c) {p : Nat} (hc : CodeAt P p c) :
    CodeAt P p f.leftCode := by
  have := f.code_eq ▸ hc
  exact (codeAt_append.mp this).1

/-- Once the left operand is evaluated, the code of the right one is executed. -/
theorem BinExpCode.executes_right {opType : TokenType} {l r : AstNode} {st st' : AsmState}
    {reg : Temp} {c : List Line} (f : BinExpCode frames opType l r st reg st' c)
    (L : Layout P.length) {p : Nat} (hc : CodeAt P p c) {m : Machine}
    (hm : m.pc = p + f.leftCode.length) : Executes L m (p + f.leftCode.length) f.rightCode := by
  have hright : CodeAt P (p + f.leftCode.length) f.rightCode := by
    have := f.code_eq ▸ hc
    rw [codeAt_append, codeAt_append] at this
    exact this.2.1
  have hne := evalAsm_code_ne_nil f.right_eq
  refine ⟨m, Runs.refl m, 0, List.length_pos_iff.mpr hne, hm, ?_⟩
  -- the code of the right operand starts where that of the left one ends
  cases hr : f.rightCode with
  | nil => exact absurd hr hne
  | cons x rest =>
      rw [hr] at hright
      rw [hm]
      exact hright.1

/--
**The right operand of `&&` and `||` is executed only if needed exactly where it is needed.**
-/
theorem shortCircuits_iff {opType : TokenType} {l r : AstNode} {st st' : AsmState} {reg : Temp}
    {c : List Line} (f : BinExpCode frames opType l r st reg st' c) (L : Layout P.length)
    {m : Machine} (hc : CodeAt P m.pc c) :
    ShortCircuits L f m ↔ ∀ m1, Runs L m m1 → m1.pc = m.pc + f.leftCode.length →
      decides opType (m1.get (.t f.left)) = false := by
  constructor
  · intro h m1 hruns hpc
    exact h m1 hruns hpc (f.executes_right L hc hpc)
  · intro h m1 hruns hpc _
    exact h m1 hruns hpc

/-- The entry of a local variable `x`. -/
def xEntry : SymTabEntry := varEntry "x" .int 0

/-- `0 && (x = 1)` -/
def skippedAsgn : AstNode :=
  .binExp "&&" .logAnd (.intConst 0) (.varAsgn (.lval .ident (.ident "x" (some 0))) (.intConst 1))

private theorem skippedAsgn_code : ∃ reg st' c,
    evalAsm [] skippedAsgn (makeRiscv [xEntry]) = .ok (reg, st', c) ∧ c.length < 2 ^ 32 :=
  ⟨_, _, _, rfl, by decide⟩

theorem shortCircuits_iff_skippedAsgn : ∃ reg st' c,
    evalAsm [] skippedAsgn (makeRiscv [xEntry]) = .ok (reg, st', c) ∧
    ∃ (f : BinExpCode [] .logAnd (.intConst 0) (.varAsgn (.lval .ident (.ident "x" (some 0)))
        (.intConst 1)) (makeRiscv [xEntry]) reg st' c) (L : Layout c.length),
      ShortCircuits L f zeroMachine ↔ ∀ m1, Runs L zeroMachine m1 →
        m1.pc = zeroMachine.pc + f.leftCode.length → decides .logAnd (m1.get (.t f.left))
          = false := by
  obtain ⟨reg, st', c, h, hlen⟩ := skippedAsgn_code
  obtain ⟨f⟩ := evalBinExp_code h
  have hcode : CodeAt c ([] : List Line).length c := codeAt_of_eq (List.append_nil c).symm
  exact ⟨reg, st', c, h, f, Layout.ofLines _ hlen, shortCircuits_iff f _ hcode⟩

/--
The left operand of `0 && (x = 1)` is zero, the right one is executed, and `x` is 1
afterwards.
-/
theorem skippedAsgn_not_shortCircuits : ∃ reg st' c,
    evalAsm [] skippedAsgn (makeRiscv [xEntry]) = .ok (reg, st', c) ∧
    ∃ (f : BinExpCode [] .logAnd (.intConst 0) (.varAsgn (.lval .ident (.ident "x" (some 0)))
        (.intConst 1)) (makeRiscv [xEntry]) reg st' c) (L : Layout c.length),
      ¬ ShortCircuits L f zeroMachine ∧
      ∃ m', Runs L zeroMachine m' ∧ m'.pc = c.length ∧ m'.get (.t reg) = 0 ∧
        loadWord m'.mem (below 0 localsBase) = 1 := by
  obtain ⟨reg, st', c, h, hlen⟩ := skippedAsgn_code
  obtain ⟨f⟩ := evalBinExp_code h
  have hnd : (labels c).Nodup := (evalAsm_labelled skippedAsgn h).drawn.nodup
  have hcode : CodeAt c ([] : List Line).length c := codeAt_of_eq (List.append_nil c).symm
  have hleft : CodeAt c ([] : List Line).length f.leftCode := f.left_codeAt hcode
  refine ⟨reg, st', c, h, f, Layout.ofLines _ hlen, fun hshort => ?_, ?_⟩
  · obtain ⟨m1, h1⟩ := evalAsm_run (L := Layout.ofLines _ hlen)
      (m := zeroMachine) rfl f.left_eq hnd hleft
    have := hshort m1 h1.runs h1.pc (f.executes_right _ hcode h1.pc)
    rw [h1.value] at this
    simp [decides, denote] at this
  · obtain ⟨m', hm'⟩ := evalAsm_run (L := Layout.ofLines _ hlen) (m := zeroMachine) rfl h hnd hcode
    refine ⟨m', hm'.runs, by simpa [zeroMachine] using hm'.pc, ?_, ?_⟩
    · rw [hm'.value]
      rfl
    · rw [hm'.mem]
      exact loadWord_storeWord_self _ _ _

end MyLang
