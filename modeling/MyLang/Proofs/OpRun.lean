/-
What the code of an operator computes.

The run starts with the operands in their registers and ends behind the operator's code
with the value `opWord` gives in the result's register.  Memory is as before, and so is
every register but the left operand's and the free temporaries.

`OpCode` (`Proofs/OpCode.lean`) has five shapes of code, and `OpCode.run` is one case for
each.  In four of them the instructions are executed in a row, and what they compute is an
identity of words: the difference of two words is zero just if they are equal, and `xori`
by one turns a truth value around.  The fifth is the code of `&&` and `||`, which
branches.  The labels it jumps to are its own, and they are found since no label stands
twice in the program.

`Keeps` says which registers come through a piece of code: all but the temporaries that
are free in a state, or fewer the more of them are.
-/
import MyLang.Proofs.Registers

namespace MyLang

open Rv32 ByteMemory

variable {P : List Line} {L : Layout P.length} {m m' m'' : Machine}

/-! ### Steps of a machine at a piece of code

A piece of code stands at a line, and after an instruction the rest of it stands at the
next one.
-/

section Steps

variable {c : List Line} {i : Instr} {l : String}

theorem runs_instr (hc : CodeAt P m.pc (.instr i :: c)) (he : i.exec L m = some m') :
    Runs L m m' := Runs.one (by rw [step_instr hc.1, he])

/-- Behind an instruction that sets a register. -/
theorem codeAt_set_next {x : Line} (rd : Reg) (v : Word) (hc : CodeAt P m.pc (x :: c)) :
    CodeAt P (m.set rd v).next.pc c := hc.2

/-- Behind an instruction that stores. -/
theorem codeAt_store_next {x : Line} (a v : Word) (hc : CodeAt P m.pc (x :: c)) :
    CodeAt P (m.store a v).next.pc c := hc.2

/-- A register other than the one set keeps its value over the instruction. -/
theorem get_set_next_ne {r rd : Reg} {v : Word} (h : r ≠ rd) :
    (m.set rd v).next.get r = m.get r := by
  rw [Machine.next_get, Machine.get_set_ne m v h]

@[simp] theorem get_set_next_temp {i : Temp} {v : Word} :
    (m.set (.t i) v).next.get (.t i) = v := by simp

end Steps

/-- Registers that are not free temporaries keep their values. -/
def Keeps (free : Temp → Bool) (m m' : Machine) : Prop :=
  ∀ r : Reg, (∀ i, r = .t i → free i = false) → m'.get r = m.get r

namespace Keeps

variable {free free' : Temp → Bool}

theorem refl (m : Machine) : Keeps free m m := fun _ _ => rfl

theorem trans (h : Keeps free m m') (h' : Keeps free m' m'') : Keeps free m m'' :=
  fun r hr => (h' r hr).trans (h r hr)

/-- With more registers free less is promised. -/
theorem mono (h : Keeps free m m') (hf : ∀ i, free' i = false → free i = false) :
    Keeps free' m m' := fun r hr => h r fun i hi => hf i (hr i hi)

theorem temp (h : Keeps free m m') {i : Temp} (hi : free i = false) :
    m'.get (.t i) = m.get (.t i) :=
  h _ fun j hj => by
    cases hj
    exact hi

theorem fp (h : Keeps free m m') : m'.get fp = m.get fp := h _ fun i hi => by cases hi

theorem sp (h : Keeps free m m') : m'.get .sp = m.get .sp := h _ fun i hi => by cases hi

theorem set {i : Temp} {v : Word} (hi : free i = true) :
    Keeps free m (m.set (.t i) v) := by
  intro r hr
  refine Machine.get_set_ne m v ?_
  rintro rfl
  simp [hr i rfl] at hi

end Keeps

/-! ### Operators

The values are those of RV32IM, where nothing is undefined: a division by zero gives a
word, too.
-/

theorem ofInt_ite (b : Bool) : BitVec.ofInt 32 (if b then 1 else 0) = ofBool b := by
  cases b <;> decide

theorem ofInt_ite_not (b : Bool) : BitVec.ofInt 32 (if b then 0 else 1) = ofBool (!b) := by
  cases b <;> decide

/-- The difference `==` and `!=` look at. -/
private theorem sub_eq_zero_comm (x y : Word) : (y - x = 0) = (x = y) :=
  propext (sub_eq_zero.trans eq_comm)

theorem ofBool_xor_one (b : Bool) : ofBool b ^^^ BitVec.ofInt 32 1 = ofBool (!b) := by
  cases b <;> decide

theorem opWord_arith {opType : TokenType} {aop : AluOp} (h : arithOp opType = some aop)
    (x y : Word) : opWord opType x y = aop.eval x y := by
  cases opType <;> cases h <;> rfl

theorem opWord_direct {opType : TokenType} {aop : AluOp} {swap : Bool}
    (h : directOp opType = some (aop, swap)) (x y : Word) :
    opWord opType x y = aop.eval (if swap then y else x) (if swap then x else y) := by
  cases opType <;> cases h <;> rfl

theorem opWord_inverted {opType : TokenType} {swap : Bool} (h : invertedOp opType = some swap)
    (x y : Word) :
    opWord opType x y = ofBool (!((if swap then y else x).slt (if swap then x else y))) := by
  cases opType <;> cases h <;> simp [opWord, BitVec.sle_eq_not_slt]

/-- What an operator's run leaves. -/
structure OpDone (L : Layout P.length) (left reg : Temp) (free : Temp → Bool) (v : Word) (n : Nat)
    (m m' : Machine) : Prop where
  runs : Runs L m m'
  pc : m'.pc = m.pc + n
  mem : m'.mem = m.mem
  value : m'.get (.t reg) = v
  keeps : ∀ r, r ≠ .t left → (∀ i, r = .t i → free i = false) → m'.get r = m.get r

/-- The code of `&&` and of `||`: the jump is taken if one of the operands passes the test. -/
private theorem logic_run {st : AsmState} {left right reg : Temp} {fall jump : Int}
    {l lend : String} {branch : Reg → Reg → String → Instr} (test : Word → Bool)
    (hbranch : ∀ (r : Reg) (l : String) (m : Machine), (branch r .zero l).exec L m =
      if test (m.get r) then (lineOf P l).map m.goto else some m.next)
    (hreg : st.free reg = true) (hnd : (labels P).Nodup)
    (hc : CodeAt P m.pc (logicCode branch reg left right fall jump l lend)) :
    ∃ m', OpDone L left reg st.free
      (BitVec.ofInt 32 (if test (m.get (.t left)) || test (m.get (.t right)) then jump else fall)) 7
      m m' := by
  simp only [logicCode, codeAt_cons, codeAt_nil, and_true] at hc
  obtain ⟨h0, h1, h2, h3, h4, h5, h6⟩ := hc
  have hl := lineOf_eq hnd h4
  have hend := lineOf_eq hnd h6
  have hfree : ∀ r : Reg, (∀ i, r = .t i → st.free i = false) → r ≠ .t reg := by
    rintro r hr rfl
    simp [hr reg rfl] at hreg
  -- from the jump target on
  have hjump : ∀ m1 : Machine, m1.pc = m.pc + 1 + 1 + 1 + 1 → m1.mem = m.mem →
      (∀ r, m1.get r = m.get r) → ∃ m', Runs L m1 m' ∧ m'.pc = m.pc + 7 ∧ m'.mem = m.mem ∧
        m'.get (.t reg) = BitVec.ofInt 32 jump ∧ ∀ r, r ≠ .t reg → m'.get r = m.get r := by
    intro m1 hpc hmem hget
    refine ⟨((m1.next.set (.t reg) (BitVec.ofInt 32 jump)).next).next, ?_, by simp [hpc],
      by simp [hmem], by simp, fun r hr => by simp [Machine.get_set_ne _ _ hr, hget]⟩
    refine (Runs.one (step_label (by rw [hpc]; exact h4))).trans ((Runs.one ?_).trans
      (Runs.one (step_label (l := lend) ?_)))
    · rw [step_instr (i := .addi (.t reg) .zero jump) (by simp [hpc, h5])]
      simp [Instr.exec]
    · simp [hpc, h6]
  by_cases hx : test (m.get (.t left)) = true
  · obtain ⟨m', hr, hpc, hmem, hv, hk⟩ := hjump (m.goto (m.pc + 1 + 1 + 1 + 1)) rfl rfl fun _ => rfl
    refine ⟨m', (Runs.one ?_).trans hr, hpc,
      hmem, by simp [hv, hx], fun r _ hr => hk r (hfree r hr)⟩
    rw [step_instr h0, hbranch, if_pos hx, hl, Option.map_some]
  have s0 : step L m = some m.next := by rw [step_instr h0, hbranch, if_neg hx]
  by_cases hy : test (m.get (.t right)) = true
  · obtain ⟨m', hr, hpc, hmem, hv, hk⟩ :=
      hjump (m.next.goto (m.pc + 1 + 1 + 1 + 1)) rfl rfl fun _ => rfl
    refine ⟨m', Runs.head s0 ((Runs.one ?_).trans hr), hpc, hmem, by simp [hv, hy],
      fun r _ hr => hk r (hfree r hr)⟩
    rw [step_instr (i := branch (.t right) .zero l) (by simpa using h1), hbranch,
      if_pos (by simpa using hy), hl, Option.map_some]
  have s1 : step L m.next = some m.next.next := by
    rw [step_instr (i := branch (.t right) .zero l) (by simpa using h1), hbranch,
      if_neg (by simpa using hy)]
  have s2 : step L m.next.next = some (m.next.next.set (.t reg) (BitVec.ofInt 32 fall)).next := by
    rw [step_instr (i := .addi (.t reg) .zero fall) (by simpa using h2)]
    simp [Instr.exec]
  refine ⟨(((m.next.next.set (.t reg) (BitVec.ofInt 32 fall)).next).goto (m.pc + 6)).next, ?_,
    by simp, by simp, by simp [hx, hy], fun r _ hr => by simp [Machine.get_set_ne _ _ (hfree r hr)]⟩
  refine Runs.head s0
    (Runs.head s1 (Runs.head s2 (Runs.head ?_ (Runs.one (step_label (l := lend) ?_)))))
  · rw [step_instr (i := .j lend) (by simpa using h3)]
    simp [Instr.exec, hend]
  · simpa using h6

private theorem exec_beq_zero (r : Reg) (l : String) (m : Machine) :
    (Instr.beq r .zero l).exec L m =
      if decide (m.get r = 0) then (lineOf P l).map m.goto else some m.next := by
  by_cases h : m.get r = 0
  · rw [if_pos (decide_eq_true h), Instr.exec, if_pos (by rw [h, Machine.get_zero])]
  · rw [if_neg (by simpa using h), Instr.exec, if_neg (by rwa [Machine.get_zero])]

private theorem exec_bne_zero (r : Reg) (l : String) (m : Machine) :
    (Instr.bne r .zero l).exec L m =
      if decide (m.get r ≠ 0) then (lineOf P l).map m.goto else some m.next := by
  by_cases h : m.get r = 0
  · rw [if_neg (by simpa using h), Instr.exec, if_neg (by simp [h])]
  · rw [if_pos (by simpa using h), Instr.exec, if_pos (by rwa [Machine.get_zero])]

/-- **The code of an operator computes the operator.** -/
theorem OpCode.run {st st' : AsmState} {left right reg : Temp} {opType : TokenType} {c : List Line}
    (h : OpCode left right st opType reg st' c) (hnd : (labels P).Nodup) (hc : CodeAt P m.pc c) :
    ∃ m', OpDone L left reg st.free (opWord opType (m.get (.t left)) (m.get (.t right))) c.length
      m m' := by
  have hfree : ∀ {i : Temp}, st.free i = true → ∀ r : Reg, (∀ i, r = .t i → st.free i = false) →
      r ≠ .t i := by
    rintro i hi r hr rfl
    simp [hr i rfl] at hi
  cases h with
  | @inPlace _ aop ha =>
      rw [opWord_arith ha]
      exact ⟨_, runs_instr hc rfl, rfl, rfl, get_set_next_temp,
        fun r hleft _ => get_set_next_ne hleft⟩
  | @direct _ aop swap reg ha hreg =>
      rw [opWord_direct ha]
      refine ⟨_, runs_instr hc rfl, rfl, rfl, ?_, fun r _ hr =>
        get_set_next_ne (hfree (alloc_free hreg) r hr)⟩
      rw [get_set_next_temp]
      cases swap <;> rfl
  | @equal reg hreg =>
      have h1 := hfree (alloc_free hreg)
      refine ⟨_, (runs_instr hc rfl).trans (runs_instr hc.2 rfl), rfl, rfl, ?_, fun r _ hr => by
        rw [get_set_next_ne (h1 r hr), get_set_next_ne (h1 r hr)]⟩
      simp only [get_set_next_temp, AluOp.eval, opWord, sub_eq_zero_comm]
  | @notEqual reg hreg =>
      have h1 := hfree (alloc_free hreg)
      refine ⟨_, (runs_instr hc rfl).trans (runs_instr hc.2 rfl), rfl, rfl, ?_, fun r _ hr => by
        rw [get_set_next_ne (h1 r hr), get_set_next_ne (h1 r hr)]⟩
      simp only [get_set_next_temp, AluOp.eval, opWord, ne_eq, sub_eq_zero_comm]
  | @inverted _ swap reg tmp ha hreg htmp =>
      have hf := alloc_free htmp
      have hneq : tmp ≠ reg := by
        rintro rfl
        simp at hf
      have htmp' : st.free tmp = true := by simpa [hneq] using hf
      have h1 := hfree (alloc_free hreg)
      have h2 := hfree htmp'
      rw [opWord_inverted ha]
      refine ⟨_, (runs_instr hc rfl).trans (runs_instr hc.2 rfl), rfl, rfl, ?_, fun r _ hr => by
        rw [get_set_next_ne (h1 r hr), get_set_next_ne (h2 r hr)]⟩
      rw [get_set_next_temp, get_set_next_temp, AluOp.eval, ofBool_xor_one]
      cases swap <;> rfl
  | @logAnd reg hreg =>
      obtain ⟨m', h⟩ := logic_run (L := L) (fun x => decide (x = 0))
        exec_beq_zero (alloc_free hreg) hnd hc
      refine ⟨m', h.runs, h.pc, h.mem, ?_, h.keeps⟩
      rw [h.value, ofInt_ite_not, opWord]
      congr 1
      simp only [Bool.not_or, ← decide_not, Bool.decide_and]
  | @logOr reg hreg =>
      obtain ⟨m', h⟩ := logic_run (L := L) (fun x => decide (x ≠ 0))
        exec_bne_zero (alloc_free hreg) hnd hc
      refine ⟨m', h.runs, h.pc, h.mem, ?_, h.keeps⟩
      rw [h.value, ofInt_ite, opWord]
      congr 1
      simp only [Bool.decide_or]

end MyLang
