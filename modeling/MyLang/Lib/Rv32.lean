/-
RV32IM assembly: instructions, labels, and what a run of them does.

A program is a list of lines, each a label or an instruction, and the program counter is a
line number.  Where the assembler puts the lines is left open: a `Layout` gives every line
a code address and can read the line back from the address, which is all that `jal` and
`jalr` need.  Pseudo-instructions that expand to one real instruction (`mv`, `li`, `seqz`,
`snez`, `j`, `jalr rs`) are instructions of their own here, with the effect of their
expansion.

`CodeAt P p c` says that the lines `c` stand in `P` from line `p` on.  A proof about
generated code follows it: the code of a construct is the code of its parts in a row,
`codeAt_append` takes it apart, and the run of the whole is the runs of the parts, one
after the other.

A step has at most one successor, and none where a label is not found, where the program
counter is behind the last line, or at an `ecall`.  So that a program runs to a state is
always a statement about the run there is.
-/
import Mathlib.Logic.Relation
import Mathlib.Logic.Function.Basic
import MyLang.Lib.ByteMemory

namespace Rv32

open ByteMemory

/-! ### Registers and instructions

Those a simple compiler for RV32IM writes, with labels as names.
-/

/-- The registers, under their calling-convention names. -/
inductive Reg where
  | zero
  | ra
  | sp
  | gp
  | tp
  | t (i : Fin 7)
  | s (i : Fin 12)
  | a (i : Fin 8)
deriving DecidableEq, Repr

/-- There is a register `a0`. -/
instance argRegs : NeZero 8 := ⟨by decide⟩

/-- There is a register `t0`. -/
instance tempRegs : NeZero 7 := ⟨by decide⟩

/-- Register-register operations. -/
inductive AluOp where
  | add
  | sub
  | mul
  | div
  | slt
  | sll
  | sra
  | and
  | or
  | xor
deriving DecidableEq, Repr

/-- `div` never traps: dividing by zero gives all ones. -/
def divWord (x y : Word) : Word := if y = 0 then -1 else x.sdiv y

/-- A truth value in a register. -/
def ofBool (b : Bool) : Word := if b then 1 else 0

/-- Shifts use the low five bits of their second operand. -/
def AluOp.eval : AluOp → Word → Word → Word
  | .add, x, y => x + y
  | .sub, x, y => x - y
  | .mul, x, y => x * y
  | .div, x, y => divWord x y
  | .slt, x, y => ofBool (x.slt y)
  | .sll, x, y => x <<< (y.toNat % 32)
  | .sra, x, y => x.sshiftRight (y.toNat % 32)
  | .and, x, y => x &&& y
  | .or, x, y => x ||| y
  | .xor, x, y => x ^^^ y

/-- Assembly instructions; labels are still names. -/
inductive Instr where
  | alu (op : AluOp) (rd rs1 rs2 : Reg)
  | addi (rd rs : Reg) (imm : Int)
  | xori (rd rs : Reg) (imm : Int)
  | li (rd : Reg) (imm : Int)
  | mv (rd rs : Reg)
  | seqz (rd rs : Reg)
  | snez (rd rs : Reg)
  | lw (rd : Reg) (offset : Int) (base : Reg)
  | sw (rs : Reg) (offset : Int) (base : Reg)
  | beq (rs1 rs2 : Reg) (label : String)
  | bne (rs1 rs2 : Reg) (label : String)
  | j (label : String)
  | jal (label : String)
  | call (label : String)
  | jalr (rs : Reg)
  | ecall
deriving DecidableEq, Repr

/-- A line of an assembly file. -/
inductive Line where
  | label (name : String)
  | instr (i : Instr)
deriving DecidableEq, Repr

/-! ### Immediates and labels

What the assembler asks of a piece of code, read off its lines.
-/

/-- The range of a signed 12-bit immediate. -/
def Fits12 (imm : Int) : Prop := -2048 ≤ imm ∧ imm ≤ 2047

instance (imm : Int) : Decidable (Fits12 imm) := inferInstanceAs (Decidable (_ ∧ _))

/-- The immediates an instruction has to encode in twelve bits. -/
def Instr.Encodable : Instr → Prop
  | .addi _ _ imm => Fits12 imm
  | .xori _ _ imm => Fits12 imm
  | .lw _ offset _ => Fits12 offset
  | .sw _ offset _ => Fits12 offset
  | _ => True

instance (i : Instr) : Decidable i.Encodable := by
  cases i <;> unfold Instr.Encodable <;> infer_instance

/-- Every immediate in a piece of code is encodable. -/
def Encodes (c : List Line) : Prop := ∀ i, .instr i ∈ c → i.Encodable

section Encodes

variable {c d : List Line}

@[simp] theorem encodes_nil : Encodes [] := by
  intro i h
  simp at h

@[simp] theorem encodes_cons_label {l : String} : Encodes (.label l :: c) ↔ Encodes c := by
  simp [Encodes]

@[simp] theorem encodes_cons_instr {i : Instr} : Encodes (.instr i :: c) ↔
    i.Encodable ∧ Encodes c := by
  simp [Encodes]

@[simp] theorem encodes_append : Encodes (c ++ d) ↔ Encodes c ∧ Encodes d := by
  unfold Encodes
  constructor
  · intro h
    exact ⟨fun i hi => h i (List.mem_append_left d hi),
      fun i hi => h i (List.mem_append_right c hi)⟩
  · intro h i hi
    rcases List.mem_append.mp hi with hi | hi
    · exact h.1 i hi
    · exact h.2 i hi

end Encodes

/-- The label an instruction transfers control to. -/
def Instr.target : Instr → Option String
  | .beq _ _ l => some l
  | .bne _ _ l => some l
  | .j l => some l
  | .jal l => some l
  | .call l => some l
  | _ => none

/-- The label a line defines. -/
def Line.defines : Line → Option String
  | .label l => some l
  | .instr _ => none

/-- The labels a piece of code defines, in order. -/
def labels (P : List Line) : List String := P.filterMap Line.defines

@[simp] theorem labels_nil : labels [] = [] := rfl

@[simp] theorem labels_append (c d : List Line) : labels (c ++ d) = labels c ++ labels d :=
  List.filterMap_append ..

@[simp] theorem labels_cons_label (l : String) (c : List Line) :
    labels (.label l :: c) = l :: labels c := rfl

@[simp] theorem labels_cons_instr (i : Instr) (c : List Line) :
    labels (.instr i :: c) = labels c := rfl

/-- The label a line transfers control to. -/
def Line.target : Line → Option String
  | .label _ => none
  | .instr i => i.target

/-- The labels a piece of code transfers control to, in order. -/
def targets (P : List Line) : List String := P.filterMap Line.target

@[simp] theorem targets_nil : targets [] = [] := rfl

@[simp] theorem targets_append (c d : List Line) : targets (c ++ d) = targets c ++ targets d :=
  List.filterMap_append ..

@[simp] theorem targets_cons_label (l : String) (c : List Line) :
    targets (.label l :: c) = targets c := rfl

@[simp] theorem targets_cons_instr (i : Instr) (c : List Line) :
    targets (.instr i :: c) = i.target.toList ++ targets c := by
  unfold targets
  rw [List.filterMap_cons]
  cases h : i.target <;> simp [Line.target, h]

/-- The line a label stands on. -/
def lineOf (P : List Line) (l : String) : Option Nat := P.findIdx? (· = .label l)

/-! ### Where code stands

A label stands at the first line that defines it; without doubles that is the only one.
-/

/-- The lines `c` stand in `P` from line `p` on. -/
def CodeAt (P : List Line) : Nat → List Line → Prop
  | _, [] => True
  | p, x :: c => P[p]? = some x ∧ CodeAt P (p + 1) c

@[simp] theorem codeAt_nil (P : List Line) (p : Nat) : CodeAt P p [] := trivial

@[simp] theorem codeAt_cons {P : List Line} {p : Nat} {x : Line} {c : List Line} :
    CodeAt P p (x :: c) ↔ P[p]? = some x ∧ CodeAt P (p + 1) c := Iff.rfl

@[simp] theorem codeAt_append {P : List Line} :
    ∀ {c d : List Line} {p : Nat},
      CodeAt P p (c ++ d) ↔ CodeAt P p c ∧ CodeAt P (p + c.length) d := by
  intro c
  induction c with
  | nil => intro d p; simp
  | cons x c ih =>
      intro d p
      simp only [List.cons_append, codeAt_cons, ih, List.length_cons, and_assoc,
        show p + 1 + c.length = p + (c.length + 1) by omega]

/-- A piece of a program stands where it stands. -/
theorem codeAt_of_eq {P pre c post : List Line} (h : P = pre ++ (c ++ post)) :
    CodeAt P pre.length c := by
  subst h
  induction c generalizing pre with
  | nil => trivial
  | cons x c ih =>
      refine ⟨by simp, ?_⟩
      simpa using @ih (pre ++ [x])

/-- In a program whose labels are unambiguous a label is found where it stands. -/
theorem lineOf_eq {P : List Line} {l : String} (hnd : (labels P).Nodup) :
    ∀ {p : Nat}, P[p]? = some (.label l) → lineOf P l = some p := by
  induction P with
  | nil => intro p h; simp at h
  | cons x P ih =>
      intro p h
      unfold lineOf
      rw [List.findIdx?_cons]
      cases p with
      | zero =>
          have hx : x = .label l := by simpa using h
          simp [hx]
      | succ p =>
          have hp : P[p]? = some (.label l) := by simpa using h
          have hmem : l ∈ labels P :=
            List.mem_filterMap.mpr ⟨.label l, List.mem_of_getElem? hp, rfl⟩
          have hne : x ≠ .label l := by
            rintro rfl
            simp only [labels_cons_label, List.nodup_cons] at hnd
            exact hnd.1 hmem
          have hnd' : (labels P).Nodup := by
            cases x with
            | label l' => exact (List.nodup_cons.mp (by simpa using hnd)).2
            | instr i => simpa using hnd
          have hrec : P.findIdx? (· = .label l) = some p := ih hnd' hp
          simp [hne, hrec]

/-! ### Machine states

`get` and `set` treat the register `zero` as the hardware does.
-/

/-- Code addresses: where the lines of a program of `n` lines are put. -/
structure Layout (n : Nat) where
  addr : Nat → Word
  decode : Word → Nat
  /-- A code address can be read back, one past the last line included. -/
  decode_addr : ∀ i ≤ n, decode (addr i) = i

/-- The layout that puts every line at its own number. -/
def Layout.ofLines (n : Nat) (h : n < 2 ^ 32) : Layout n where
  addr := BitVec.ofNat 32
  decode := BitVec.toNat
  decode_addr i hi := by
    rw [BitVec.toNat_ofNat]
    omega

/-- Registers, memory, and the line about to be executed. -/
structure Machine where
  pc : Nat
  regs : Reg → Word
  mem : Mem

namespace Machine

/-- Register `zero` reads as zero. -/
def get (m : Machine) (r : Reg) : Word := if r = .zero then 0 else m.regs r

/-- Writes to register `zero` are lost. -/
def set (m : Machine) (r : Reg) (v : Word) : Machine :=
  { m with regs := Function.update m.regs r v }

/-- Go on with the next line. -/
def next (m : Machine) : Machine := { m with pc := m.pc + 1 }

/-- Go on with the given line. -/
def goto (m : Machine) (p : Nat) : Machine := { m with pc := p }

/-- Write a word of memory. -/
def store (m : Machine) (a v : Word) : Machine := { m with mem := storeWord m.mem a v }

@[simp] theorem get_zero (m : Machine) : m.get .zero = 0 := rfl

theorem get_set (m : Machine) (r r' : Reg) (v : Word) (hr : r ≠ .zero) :
    (m.set r v).get r' = if r' = r then v else m.get r' := by
  unfold get set
  by_cases h : r' = r
  · subst h
    simp [hr]
  · simp [h]

@[simp] theorem get_set_self (m : Machine) (r : Reg) (v : Word) (hr : r ≠ .zero) :
    (m.set r v).get r = v := by
  simp [get_set, hr]

theorem get_set_ne (m : Machine) {r r' : Reg} (v : Word) (h : r' ≠ r) :
    (m.set r v).get r' = m.get r' := by
  unfold get set
  simp [h]

@[simp] theorem set_pc (m : Machine) (r : Reg) (v : Word) : (m.set r v).pc = m.pc := rfl
@[simp] theorem set_mem (m : Machine) (r : Reg) (v : Word) : (m.set r v).mem = m.mem := rfl
@[simp] theorem next_pc (m : Machine) : m.next.pc = m.pc + 1 := rfl
@[simp] theorem next_mem (m : Machine) : m.next.mem = m.mem := rfl
@[simp] theorem next_get (m : Machine) (r : Reg) : m.next.get r = m.get r := rfl
@[simp] theorem goto_pc (m : Machine) (p : Nat) : (m.goto p).pc = p := rfl
@[simp] theorem goto_mem (m : Machine) (p : Nat) : (m.goto p).mem = m.mem := rfl
@[simp] theorem goto_get (m : Machine) (p : Nat) (r : Reg) : (m.goto p).get r = m.get r := rfl
@[simp] theorem store_pc (m : Machine) (a v : Word) : (m.store a v).pc = m.pc := rfl
@[simp] theorem store_mem (m : Machine) (a v : Word) :
    (m.store a v).mem = storeWord m.mem a v := rfl
@[simp] theorem store_get (m : Machine) (a v : Word) (r : Reg) :
    (m.store a v).get r = m.get r := rfl

end Machine

/-! ### Execution

A run of any length is `Runs`, and one of a known length `runFor`.
-/

variable {P : List Line}

/-- What one instruction does.  `ecall` leaves the program, so it has no successor. -/
def Instr.exec (L : Layout P.length) (m : Machine) : Instr → Option Machine
  | .alu op rd rs1 rs2 => some (m.set rd (op.eval (m.get rs1) (m.get rs2))).next
  | .addi rd rs imm => some (m.set rd (m.get rs + BitVec.ofInt 32 imm)).next
  | .xori rd rs imm => some (m.set rd (m.get rs ^^^ BitVec.ofInt 32 imm)).next
  | .li rd imm => some (m.set rd (BitVec.ofInt 32 imm)).next
  | .mv rd rs => some (m.set rd (m.get rs)).next
  | .seqz rd rs => some (m.set rd (ofBool (m.get rs = 0))).next
  | .snez rd rs => some (m.set rd (ofBool (m.get rs ≠ 0))).next
  | .lw rd off base => some (m.set rd (loadWord m.mem (m.get base + BitVec.ofInt 32 off))).next
  | .sw rs off base => some (m.store (m.get base + BitVec.ofInt 32 off) (m.get rs)).next
  | .beq rs1 rs2 l =>
      if m.get rs1 = m.get rs2 then (lineOf P l).map m.goto else some m.next
  | .bne rs1 rs2 l =>
      if m.get rs1 ≠ m.get rs2 then (lineOf P l).map m.goto else some m.next
  | .j l => (lineOf P l).map m.goto
  | .jal l => (lineOf P l).map (m.set .ra (L.addr (m.pc + 1))).goto
  | .call l => (lineOf P l).map (m.set .ra (L.addr (m.pc + 1))).goto
  | .jalr rs => some ((m.set .ra (L.addr (m.pc + 1))).goto (L.decode (m.get rs)))
  | .ecall => none

/-- One step: labels are passed over, instructions executed. -/
def step (L : Layout P.length) (m : Machine) : Option Machine :=
  match P[m.pc]? with
  | none => none
  | some (.label _) => some m.next
  | some (.instr i) => i.exec L m

/-- Finitely many steps. -/
def Runs (L : Layout P.length) : Machine → Machine → Prop :=
  Relation.ReflTransGen fun m m' => step L m = some m'

section Runs

variable {L : Layout P.length} {m m' m'' : Machine}

@[refl] theorem Runs.refl (m : Machine) : Runs L m m := Relation.ReflTransGen.refl

@[trans] theorem Runs.trans (h : Runs L m m') (h' : Runs L m' m'') : Runs L m m'' :=
  Relation.ReflTransGen.trans h h'

theorem Runs.one (h : step L m = some m') : Runs L m m' := Relation.ReflTransGen.single h

theorem Runs.head (h : step L m = some m') (h' : Runs L m' m'') : Runs L m m'' :=
  Relation.ReflTransGen.head h h'

/-- A label is passed over. -/
theorem step_label {l : String} (h : P[m.pc]? = some (.label l)) : step L m = some m.next := by
  simp [step, h]

/-- An instruction is executed. -/
theorem step_instr {i : Instr} (h : P[m.pc]? = some (.instr i)) : step L m = i.exec L m := by
  simp [step, h]

/-- The machine is deterministic: of two states reached from one, one reaches the other. -/
theorem Runs.total (h : Runs L m m') (h' : Runs L m m'') : Runs L m' m'' ∨ Runs L m'' m' :=
  Relation.ReflTransGen.total_of_right_unique
    (fun _ _ _ h1 h2 => Option.some.inj (h1.symm.trans h2)) h h'

/-- Nothing is reached from a state that cannot step. -/
theorem Runs.eq_of_stuck (hs : step L m = none) (h : Runs L m m') : m' = m := by
  rcases Relation.ReflTransGen.cases_head h with rfl | ⟨m1, h1, _⟩
  · rfl
  · simp [hs] at h1

/-- A number of steps. -/
def runFor (L : Layout P.length) : Nat → Machine → Option Machine
  | 0, m => some m
  | n + 1, m => (step L m).bind (runFor L n)

/-- One step first. -/
theorem runFor_head {n : Nat} (hs : step L m = some m') (h : runFor L n m' = some m'') :
    runFor L (n + 1) m = some m'' := by
  rw [runFor, hs, Option.bind_some, h]

/-- One step more. -/
theorem runFor_last {n : Nat} (h : runFor L n m = some m') (hs : step L m' = some m'') :
    runFor L (n + 1) m = some m'' := by
  induction n generalizing m with
  | zero =>
      obtain rfl := Option.some.inj h
      rw [runFor, hs]
      rfl
  | succ n ih =>
      obtain ⟨m1, h1, h⟩ := Option.bind_eq_some_iff.mp h
      exact runFor_head h1 (ih h)

theorem Runs.of_runFor {n : Nat} (h : runFor L n m = some m') : Runs L m m' := by
  induction n generalizing m with
  | zero =>
      obtain rfl := Option.some.inj h
      exact Runs.refl m
  | succ n ih =>
      obtain ⟨m1, h1, h⟩ := Option.bind_eq_some_iff.mp h
      exact Runs.head h1 (ih h)

/-! ### What an instruction leaves alone

An instruction writes one register, or memory, or neither.
-/

/-- The register an instruction writes. -/
def Instr.dest : Instr → Option Reg
  | .alu _ rd _ _ => some rd
  | .addi rd _ _ => some rd
  | .xori rd _ _ => some rd
  | .li rd _ => some rd
  | .mv rd _ => some rd
  | .seqz rd _ => some rd
  | .snez rd _ => some rd
  | .lw rd _ _ => some rd
  | .jal _ => some .ra
  | .call _ => some .ra
  | .jalr _ => some .ra
  | _ => none

/-- Other registers keep their values. -/
theorem Instr.get_of_exec {i : Instr} {r : Reg} (h : i.exec L m = some m') (hr : i.dest ≠ some r) :
    m'.get r = m.get r := by
  have hset : ∀ (rd : Reg) (v : Word), some rd ≠ some r → (m.set rd v).get r = m.get r := by
    intro rd v hne
    exact Machine.get_set_ne m v fun heq => hne (heq ▸ rfl)
  have hjump : ∀ {m0 : Machine} {l : String}, (lineOf P l).map m0.goto = some m' →
      m'.get r = m0.get r := by
    intro m0 l h
    obtain ⟨p, -, rfl⟩ := Option.map_eq_some_iff.mp h
    rfl
  cases i with
  | beq rs1 rs2 l | bne rs1 rs2 l =>
      rw [Instr.exec] at h
      split at h
      · exact hjump h
      · obtain rfl := Option.some.inj h
        rfl
  | j l => exact hjump h
  | jal l | call l => exact (hjump h).trans (hset _ _ hr)
  | sw rs off base =>
      obtain rfl := Option.some.inj h
      rfl
  | ecall => simp [Instr.exec] at h
  | _ =>
      obtain rfl := Option.some.inj h
      exact hset _ _ hr

end Runs

end Rv32
