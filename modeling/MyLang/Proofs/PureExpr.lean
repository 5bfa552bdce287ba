/-
Expressions without assignments and calls.

Such an expression has a value, given the values of its variables; evaluating it leaves
memory alone.  Its code computes the value whatever registers are busy: what the registers
hold before does not enter into it, and every busy one is left as it was.

`word` is this value, defined on the expression alone, with the values of its variables as
an argument.  So it is seen that neither the registers nor the state of the generator have
a say in it.  `Computes` adds what else the code has to do: it is generated with labels
that do not meet, and it runs to its end in every program in which it stands.

All operators are here, also those that branch.  There is nothing to be skipped on the
right of `&&` and `||`, so evaluating both operands gives the value that C asks for.
-/
import MyLang.Proofs.Labels

namespace MyLang

open Rv32 ByteMemory

namespace AstNode

/-- Constants and variables under `!` and the binary operators. -/
def isPure : AstNode → Bool
  | .intConst _ => true
  | .ident _ _ => true
  | .binExp _ opType left right => isBinOp opType && left.isPure && right.isPure
  | .unaryExpr postfixExpr _ opType => opType = .not && postfixExpr.isPure
  | _ => false
termination_by structural node => node

/-- The value of an expression as a 32-bit word; `vars` are those of the variables. -/
def word (entries : List SymTabEntry) (vars : SymId → Word) : AstNode → Word
  | .intConst value => BitVec.ofInt 32 value
  | .ident _ symbol =>
      match symbol with
      | none => 0
      | some id =>
          match entries[id]? with
          | none => 0
          | some e => if e.symbol = .const then BitVec.ofNat 32 e.constValue else vars id
  | .binExp _ opType left right => opWord opType (left.word entries vars) (right.word entries vars)
  | .unaryExpr postfixExpr _ _ => ofBool (postfixExpr.word entries vars = 0)
  | _ => 0
termination_by structural node => node

theorem callFree_of_isPure {node : AstNode} (h : node.isPure = true) : node.callFree = true := by
  induction node with
  | binExp value opType left right ihl ihr =>
      simp only [isPure, Bool.and_eq_true] at h
      rw [callFree, ihl h.1.2, ihr h.2, Bool.and_self]
  | unaryExpr postfixExpr value opType ih =>
      simp only [isPure, Bool.and_eq_true] at h
      exact ih h.2
  | intConst | ident => rfl
  | _ => simp [isPure] at h

end AstNode

/-- The words in the slots of the variables of a frame. -/
def frameVars (entries : List SymTabEntry) (fp : Word) (mem : Mem) (id : SymId) : Word :=
  loadWord mem (below fp (slotAt entries id))

/-- A pure expression denotes its value, and no change of memory. -/
theorem denote_of_isPure {entries : List SymTabEntry} {fp : Word} {node : AstNode} {mem : Mem}
    (h : node.isPure = true) :
    denote entries fp node mem = (node.word entries (frameVars entries fp mem), mem) := by
  induction node with
  | intConst value => rfl
  | ident value symbol =>
      cases symbol with
      | none => rfl
      | some id =>
          cases he : entries[id]? with
          | none => simp [denote, identWord, AstNode.word, he]
          | some e => simp [denote, identWord, AstNode.word, he, frameVars, slotAt]
  | binExp value opType left right ihl ihr =>
      simp only [AstNode.isPure, Bool.and_eq_true] at h
      simp only [denote, ihl h.1.2, ihr h.2, AstNode.word]
  | unaryExpr postfixExpr value opType ih =>
      simp only [AstNode.isPure, Bool.and_eq_true] at h
      simp only [denote, ih h.2, AstNode.word]
  | _ => simp [AstNode.isPure] at h

/-- What the run of the code of an expression leaves, if it only computes a value. -/
structure Computes {P : List Line} (L : Layout P.length) (reg : Temp) (free : Temp → Bool)
    (v : Word) (n : Nat) (m m' : Machine) : Prop where
  runs : Runs L m m'
  pc : m'.pc = m.pc + n
  value : m'.get (.t reg) = v
  mem : m'.mem = m.mem
  sp : m'.get .sp = m.get .sp
  fp : m'.get fp = m.get fp
  busy : ∀ i, free i = false → m'.get (.t i) = m.get (.t i)

/--
**The code of an expression is correct whatever registers are busy.**  Its labels are
unambiguous, and in every program it stands in whose labels are, it leaves the value of
the expression in the register returned and changes nothing that was in use.
-/
theorem evalAsm_computes {frames : List StackFrame} {st st' : AsmState} {reg : Temp} {c : List Line}
    {node : AstNode} (hpure : node.isPure = true) (h : evalAsm frames node st = .ok (reg, st', c)) :
    (labels c).Nodup ∧ ∀ (P : List Line) (L : Layout P.length) (m : Machine),
      (labels P).Nodup → CodeAt P m.pc c →
        ∃ m', Computes L reg st.free
          (node.word st.entries (frameVars st.entries (m.get fp) m.mem)) c.length m m' := by
  refine ⟨(evalAsm_labelled node h).drawn.nodup, fun P L m hnd hc => ?_⟩
  obtain ⟨m', hd⟩ := evalAsm_run (L := L) (AstNode.callFree_of_isPure hpure) h hnd hc
  rw [denote_of_isPure hpure] at hd
  exact ⟨m', hd.runs, hd.pc, hd.value, hd.mem, hd.keeps.sp, hd.keeps.fp,
    fun i hi => hd.keeps.temp hi⟩

/-- `x <= p && !(x == 7)` -/
def compareExpr : AstNode :=
  .binExp "&&" .logAnd (.binExp "<=" .ltEq (.ident "x" (some 0)) (.ident "p" (some 1)))
    (.unaryExpr (.binExp "==" .equal (.ident "x" (some 0)) (.intConst 7)) "!" .not)

/-- `x` is the first local variable of a function, and `p` its first parameter. -/
def compareEntries : List SymTabEntry :=
  [⟨"x", .variable, .int, false, 0, 0, none, 0, none, false⟩,
    ⟨"p", .variable, .int, true, 0, 0, none, 0, none, false⟩]

/-- A machine at the first line. -/
def zeroMachine : Machine := { pc := 0, regs := fun _ => 0, mem := fun _ => 0 }

/-- The same with 3 in the slot of `x`, 4 in that of `p`, and the frame pointer above both. -/
def compareMachine : Machine :=
  ((zeroMachine.set fp 1000).store (below 1000 localsBase) 3).store (below 1000 12) 4

/-- `t0` is busy when the code is generated, and keeps what it holds. -/
theorem evalAsm_computes_compareExpr :
    ∃ reg st' c, evalAsm [] compareExpr ((makeRiscv compareEntries).withFree fun i => i ≠ 0)
        = .ok (reg, st', c) ∧
      ∃ (L : Layout c.length) (m' : Machine),
        Computes L reg (fun i => i ≠ 0) 1 c.length (compareMachine.set (.t 0) 99) m' ∧
          m'.get (.t 0) = 99 := by
  have hok : ∃ reg st' c, evalAsm [] compareExpr
    ((makeRiscv compareEntries).withFree fun i => i ≠ 0)
      = .ok (reg, st', c) ∧ c.length < 2 ^ 32 := ⟨_, _, _, rfl, by decide⟩
  obtain ⟨reg, st', c, h, hlen⟩ := hok
  obtain ⟨hnd, hrun⟩ := evalAsm_computes rfl h
  have hcode : CodeAt c ([] : List Line).length c := codeAt_of_eq (List.append_nil c).symm
  obtain ⟨m', hm'⟩ := hrun c (Layout.ofLines _ hlen) (compareMachine.set (.t 0) 99) hnd hcode
  exact ⟨reg, st', c, h, _, m', hm', hm'.busy 0 rfl⟩

end MyLang
