/-
The code of a statement does what the statement does.

The induction is on the source run, not on the statement: a loop is executed as often as
the source executes it, each time from the same lines.  Its invariant is that the machine
is in the frame of the function and the frame holds the store.  A statement that is run
through ends behind its lines; one that returns ends at a `jalr ra`, with the registers
the function saved at its entry restored.

`Exec` has rules for statements, for lists of them, and for the parts of a `for` loop.  To
have one induction for all of them the rules are about commands, and `CmdCode` says which
lines the code of a command is.  `Ends` is then the statement that is proved of every run:
run through (`Through`) if the source goes on, left (`Left`) if it returns.

The proof of `exec_run` is put together from the rules of these two.  `Through.trans` and
`Through.left` compose them, `label` and `jump` take a machine over the lines that only
steer, and `cond_run` is the branch that a condition decides.
-/
import MyLang.Proofs.ExprSound
import MyLang.Proofs.StmtGen

namespace MyLang

open Rv32 ByteMemory

variable {P : List Line} {L : Layout P.length} {m m' : Machine} {frames : List StackFrame}
  {entries es : List SymTabEntry} {locals ids : List SymId} {func : Option SymId} {frame : Nat}
  {F : Word} {σ σ' : Store} {st st' st1 : AsmState} {reg : Temp} {c : List Line}

/-! ### Statements without calls

`coreStmt` marks out the statements without calls; it also says that a `return` is linked
to its function, which is how the generator finds out whether there is a value to return.
-/

namespace AstNode

mutual

/--
A statement without calls and without `else`, whose expressions are `coreExpr` and whose
returns are linked to `func`.
-/
def coreStmt (entries : List SymTabEntry) (locals ids : List SymId) (func : Option SymId) :
    AstNode → Bool
  | .varDec _ _ _ => true
  | .varDef _ _ expr _ => expr.coreExpr entries locals ids
  | .exprStmt expr => expr.isEmptyExpr || expr.coreExpr entries locals ids
  | .emptyExpr => true
  | .enum _ _ => true
  | .compStmt body => coreStmts entries locals ids func body
  | .ifElse ifExpr ifBody .null =>
      ifExpr.coreExpr entries locals ids && ifBody.coreStmt entries locals ids func
  | .while_ expr body =>
      expr.coreExpr entries locals ids && body.coreStmt entries locals ids func
  | .for_ init cond step body =>
      (init.isForInit && init.coreStmt entries locals ids func || init.coreExpr entries locals ids)
        && (cond.isEmptyExpr || cond.coreExpr entries locals ids) &&
        (step.isEmptyExpr || step.coreExpr entries locals ids) &&
        body.coreStmt entries locals ids func
  | .ret expr target => target = func && (expr.isEmptyExpr || expr.coreExpr entries locals ids)
  | _ => false
termination_by structural node => node

/-- `coreStmt` for every element of a list. -/
def coreStmts (entries : List SymTabEntry) (locals ids : List SymId) (func : Option SymId) :
    List AstNode → Bool
  | [] => true
  | node :: rest =>
      node.coreStmt entries locals ids func && coreStmts entries locals ids func rest
termination_by structural nodes => nodes

end

theorem coreStmts_iff {l : List AstNode} :
    coreStmts entries locals ids func l = true ↔
      ∀ n ∈ l, n.coreStmt entries locals ids func = true := by
  induction l with
  | nil => simp [coreStmts]
  | cons n l ih => simp [coreStmts, ih]

theorem funcFree_of_coreExpr {node : AstNode} (h : node.coreExpr entries locals ids = true) :
    node.funcFree = true := by
  induction h using coreExpr_induct with
  | intConst value => rfl
  | ident value id => rfl
  | binExp value opType left right h hl hr hop ihl ihr =>
      simp only [funcFree, ihl, ihr, Bool.and_self]
  | unaryExpr postfixExpr value opType h he ih => exact ih
  | varAsgn value id rval h hr hid ih => simp only [funcFree, ih, Bool.and_self]

/-- There is no declaration in an expression. -/
theorem localIds_of_coreExpr {node : AstNode} (h : node.coreExpr entries locals ids = true) :
    node.localIds = [] := by
  induction h using coreExpr_induct with
  | intConst value => rfl
  | ident value id => rfl
  | binExp value opType left right h hl hr hop ihl ihr =>
      simp only [localIds, ihl, ihr, List.append_nil]
  | unaryExpr postfixExpr value opType h he ih => exact ih
  | varAsgn value id rval h hr hid ih => simp only [localIds, ih, List.append_nil]

theorem localIds_of_emptyOr {node : AstNode}
    (h : (node.isEmptyExpr || node.coreExpr entries locals ids) = true) : node.localIds = [] := by
  rw [Bool.or_eq_true] at h
  rcases h with h | h
  · cases node <;> simp_all [isEmptyExpr, localIds]
  · exact localIds_of_coreExpr h

private theorem funcFree_of_emptyOr {node : AstNode}
    (h : (node.isEmptyExpr || node.coreExpr entries locals ids) = true) : node.funcFree = true := by
  rw [Bool.or_eq_true] at h
  rcases h with h | h
  · cases node <;> simp_all [isEmptyExpr, funcFree]
  · exact funcFree_of_coreExpr h

/-- There is no function in such a statement. -/
theorem funcFree_of_coreStmt {node : AstNode}
    (h : node.coreStmt entries locals ids func = true) : node.funcFree = true := by
  induction node with
  | varDef value type expr symbol _ => exact @funcFree_of_coreExpr _ _ _ expr h
  | exprStmt expr _ => exact @funcFree_of_emptyOr _ _ _ expr h
  | compStmt body ih =>
      rw [coreStmt, coreStmts_iff] at h
      rw [funcFree, funcFreeList_iff]
      exact fun n hn => ih n hn (h n hn)
  | ifElse ifExpr ifBody elseBody _ ihb _ =>
      cases elseBody with
      | null =>
          simp only [coreStmt, Bool.and_eq_true] at h
          simp only [funcFree, funcFree_of_coreExpr h.1, ihb h.2, Bool.and_self]
      | _ => simp [coreStmt] at h
  | while_ expr body _ ihb =>
      simp only [coreStmt, Bool.and_eq_true] at h
      simp only [funcFree, funcFree_of_coreExpr h.1, ihb h.2, Bool.and_self]
  | for_ init cond step body ihi _ _ ihb =>
      simp only [coreStmt, Bool.and_eq_true] at h
      have hinit : init.funcFree = true := by
        have hi := h.1.1.1
        rw [Bool.or_eq_true, Bool.and_eq_true] at hi
        rcases hi with hi | hi
        · exact ihi hi.2
        · exact funcFree_of_coreExpr hi
      simp only [funcFree, hinit, funcFree_of_emptyOr h.1.1.2, funcFree_of_emptyOr h.1.2, ihb h.2,
        Bool.and_self]
  | ret expr target _ =>
      simp only [coreStmt, Bool.and_eq_true] at h
      exact @funcFree_of_emptyOr _ _ _ expr h.2
  | varDec | enum | emptyExpr => rfl
  | _ => simp [coreStmt] at h

end AstNode

/-! ### The machine in a frame

A function has saved `ra` and the frame pointer at the top of its frame, and its code does
not write there.
-/

/-- The machine is in the frame below `F`, and the frame holds the store. -/
structure InFrame (es : List SymTabEntry) (ids : List SymId) (frame : Nat) (F : Word) (σ : Store)
    (m : Machine) : Prop where
  fp : m.get fp = F
  sp : m.get .sp = below F frame
  holds : Holds es ids F σ m.mem

/-- Going on at another line changes nothing. -/
theorem InFrame.goto (h : InFrame es ids frame F σ m) (p : Nat) :
    InFrame es ids frame F σ (m.goto p) := ⟨h.fp, h.sp, h.holds⟩

/-- What code that is run through leaves. -/
structure Through (L : Layout P.length) (es : List SymTabEntry) (ids : List SymId) (frame : Nat)
    (F : Word) (σ : Store) (p : Nat) (m m' : Machine) : Prop where
  runs : Runs L m m'
  pc : m'.pc = p
  inFrame : InFrame es ids frame F σ m'
  kept : KeptAbove F m.mem m'.mem

/-- What code that leaves the function leaves: the saved registers are restored. -/
structure Left (L : Layout P.length) (F : Word) (v : Option CInt) (m m' : Machine) : Prop where
  runs : Runs L m m'
  exit : P[m'.pc]? = some (.instr (.jalr .ra))
  ra : m'.get .ra = loadWord m.mem (below F 4)
  fp : m'.get fp = loadWord m.mem (below F 8)
  sp : m'.get .sp = F
  value : ∀ x, v = some x → m'.get (.a 0) = x.word
  kept : KeptAbove F m.mem m'.mem

/-- The words saved at the top of the frame are as before. -/
theorem KeptAbove.loadWord {fp : Word} {mem mem' : Mem} {off : Nat} (h : KeptAbove fp mem mem')
    (h4 : 4 ≤ off) (h8 : off ≤ 8) (hroom : 8 ≤ fp.toNat) :
    loadWord mem' (below fp off) = loadWord mem (below fp off) := by
  refine loadWord_congr fun i hi => h _ ?_
  have := fp.isLt
  rw [BitVec.toNat_add, below_toNat (by omega), BitVec.toNat_ofNat]
  omega

/-- Code run through, then code that leaves the function. -/
theorem Through.left {p : Nat} {v : Option CInt} {m'' : Machine}
    (h : Through L es ids frame F σ p m m') (h' : Left L F v m' m'') (hroom : 8 ≤ F.toNat) :
    Left L F v m m'' := by
  refine ⟨h.runs.trans h'.runs, h'.exit, ?_, ?_, h'.sp, h'.value, h.kept.trans h'.kept⟩
  · rw [h'.ra, h.kept.loadWord (by omega) (by omega) hroom]
  · rw [h'.fp, h.kept.loadWord (by omega) (by omega) hroom]

theorem Through.trans {p q : Nat} {m'' : Machine} (h : Through L es ids frame F σ p m m')
    (h' : Through L es ids frame F σ' q m' m'') : Through L es ids frame F σ' q m m'' :=
  ⟨h.runs.trans h'.runs, h'.pc, h'.inFrame, h.kept.trans h'.kept⟩

theorem Through.congr {p q : Nat} (h : Through L es ids frame F σ p m m') (hpq : p = q) :
    Through L es ids frame F σ q m m' := hpq ▸ h

/-- A label is passed over. -/
theorem Through.label {l : String} (h : P[m.pc]? = some (.label l))
    (hm : InFrame es ids frame F σ m) : Through L es ids frame F σ (m.pc + 1) m m.next :=
  ⟨Runs.one (step_label h), rfl, hm.goto _, KeptAbove.refl F m.mem⟩

/-- A jump lands behind its label. -/
theorem Through.jump {l : String} {q : Nat} (hnd : (labels P).Nodup)
    (h : P[m.pc]? = some (.instr (.j l))) (hq : P[q]? = some (.label l))
    (hm : InFrame es ids frame F σ m) : Through L es ids frame F σ q m (m.goto q) := by
  refine ⟨Runs.one ?_, rfl, hm.goto q, KeptAbove.refl F m.mem⟩
  rw [step_instr h, Instr.exec, lineOf_eq hnd hq]
  rfl

/--
What is fixed while the code of a function's body runs: the program, the entries the
generator works with, the slots of the frame, and room for it.
-/
structure FrameContext (P : List Line) (frames : List StackFrame) (entries es : List SymTabEntry)
    (locals ids : List SymId) (func : Option SymId) (frame : Nat) (F : Word) : Prop where
  nodup : (labels P).Nodup
  fixed : es.map SymTabEntry.fixed = entries.map SymTabEntry.fixed
  slots : FrameSlots es locals ids frame
  room : frame ≤ F.toNat
  saved : 8 ≤ frame
  size : ∀ id e fid fr, func = some id → es[id]? = some e → e.frame = some fid →
    frames[fid]? = some fr → frameSize fr.size = frame

theorem below_add {k n : Nat} (h : k ≤ n) :
    below F n + BitVec.ofNat 32 k = below F (n - k) := by
  rw [below, below, show BitVec.ofNat 32 n = BitVec.ofNat 32 (n - k) + BitVec.ofNat 32 k by
    rw [← BitVec.ofNat_add, Nat.sub_add_cancel h], ← BitVec.sub_sub, BitVec.sub_add_cancel]

section Run

variable (hC : FrameContext P frames entries es locals ids func frame F)

include hC

/-- The code of an expression. -/
theorem expr_run {node : AstNode} {v : CInt} (hcore : node.coreExpr entries locals ids = true)
    (hgen : evalAsm frames node st = .ok (reg, st', c)) (hes : st.entries = es)
    (hc : CodeAt P m.pc c) (hm : InFrame es ids frame F σ m)
    (hv : evalExpr entries node σ = some (v, σ')) :
    ∃ m', Through L es ids frame F σ' (m.pc + c.length) m m' ∧ m'.get (.t reg) = v.word := by
  obtain ⟨m', h⟩ := evalAsm_run (L := L) (AstNode.callFree_of_coreExpr hcore) hgen hC.nodup hc
  rw [hes, hm.fp] at h
  obtain ⟨hval, hholds, hkept⟩ := denote_sound hC.fixed hC.slots hC.room hcore hv hm.holds
  refine ⟨m', ⟨h.runs, h.pc, ⟨?_, ?_, ?_⟩, ?_⟩, h.value.trans hval⟩
  · rw [h.keeps.fp, hm.fp]
  · rw [h.keeps.sp, hm.sp]
  · rw [h.mem]
    exact hholds
  · rw [h.mem]
    exact hkept

/-- The code of a condition and the branch that leaves if it is zero. -/
theorem cond_run {node : AstNode} {x : CInt} {l : String} {q : Nat}
    (hcore : node.coreExpr entries locals ids = true)
    (hgen : evalAsm frames node st = .ok (reg, st', c)) (hes : st.entries = es)
    (hc : CodeAt P m.pc (c ++ [.instr (.beq (.t reg) .zero l)])) (hq : P[q]? = some (.label l))
    (hm : InFrame es ids frame F σ m) (hv : evalExpr entries node σ = some (x, σ')) :
    ∃ m', Through L es ids frame F σ' (if x.val = 0 then q else m.pc + (c.length + 1)) m m' := by
  rw [codeAt_append, codeAt_cons] at hc
  obtain ⟨m1, h1, hval⟩ := expr_run (L := L) hC hcore hgen hes hc.1 hm hv
  have hstep := step_instr (L := L) (m := m1) (by rw [h1.pc]; exact hc.2.1)
  rw [Instr.exec, hval, Machine.get_zero, lineOf_eq hC.nodup hq] at hstep
  by_cases hx : x.val = 0
  · rw [if_pos (CInt.word_eq_zero.mpr hx)] at hstep
    rw [if_pos hx]
    exact ⟨_, h1.trans ⟨Runs.one hstep, rfl, h1.inFrame.goto q, KeptAbove.refl F m1.mem⟩⟩
  · rw [if_neg (fun h => hx (CInt.word_eq_zero.mp h))] at hstep
    rw [if_neg hx]
    refine ⟨_, h1.trans ⟨Runs.one hstep, ?_, h1.inFrame.goto _, KeptAbove.refl F m1.mem⟩⟩
    rw [Machine.next_pc, h1.pc, Nat.add_assoc]

/-- The code that leaves the function. -/
theorem epilogue_run {v : Option CInt}
    (hc : CodeAt P m.pc (epilogueCode frame ++ [.instr (.jalr .ra)]))
    (hm : InFrame es ids frame F σ m) (hv : ∀ x, v = some x → m.get (.a 0) = x.word) :
    ∃ m', Left L F v m m' := by
  have h8 := hC.saved
  have haddr : ∀ k ≤ 8, below F frame + BitVec.ofInt 32 (sizeToInt (frame - k)) = below F k := by
    intro k hk
    rw [ofInt_sizeToInt, below_add (by omega), Nat.sub_sub_self (by omega)]
  refine ⟨_, (runs_instr hc rfl).trans ((runs_instr (codeAt_set_next _ _ hc) rfl).trans
    (runs_instr (codeAt_set_next _ _ (codeAt_set_next _ _ hc)) rfl)), ?_, ?_, ?_, ?_, ?_,
    KeptAbove.refl F m.mem⟩
  · exact (codeAt_set_next _ _ (codeAt_set_next _ _ (codeAt_set_next _ _ hc))).1
  · rw [get_set_next_ne (by simp), get_set_next_ne (by simp), Machine.next_get,
      Machine.get_set_self _ _ _ (by simp), hm.sp]
    exact congrArg _ (haddr 4 (by omega))
  · rw [get_set_next_ne (by simp), Machine.next_get, Machine.get_set_self _ _ _ (by simp),
      get_set_next_ne (by simp), hm.sp]
    exact congrArg _ (haddr 8 (by omega))
  · rw [Machine.next_get, Machine.get_set_self _ _ _ (by simp), get_set_next_ne (by simp),
      get_set_next_ne (by simp), hm.sp, BitVec.ofInt_natCast, below_add (le_refl _), Nat.sub_self]
    simp [below]
  · intro x hx
    rw [get_set_next_ne (by simp), get_set_next_ne (by simp), get_set_next_ne (by simp), hv x hx]

/-- A label, a condition, and the branch that leaves if it is zero. -/
theorem head_run {node : AstNode} {x : CInt} {l0 l : String} {q : Nat} {rest : List Line}
    (hcore : node.coreExpr entries locals ids = true)
    (hgen : evalAsm frames node st = .ok (reg, st', c)) (hes : st.entries = es)
    (hc : CodeAt P m.pc (.label l0 :: (c ++ .instr (.beq (.t reg) .zero l) :: rest)))
    (hq : P[q]? = some (.label l)) (hm : InFrame es ids frame F σ m)
    (hv : evalExpr entries node σ = some (x, σ')) :
    ∃ m', Through L es ids frame F σ' (if x.val = 0 then q else m.pc + (c.length + 2)) m m' := by
  rw [codeAt_cons, codeAt_append, codeAt_cons] at hc
  have h0 := Through.label (L := L) hc.1 hm
  have hcode : CodeAt P m.next.pc (c ++ [.instr (.beq (.t reg) .zero l)]) :=
    codeAt_append.mpr ⟨hc.2.1, hc.2.2.1, trivial⟩
  obtain ⟨m1, h1⟩ := cond_run (L := L) hC hcore hgen hes hcode hq h0.inFrame hv
  refine ⟨m1, (h0.trans h1).congr ?_⟩
  rw [Machine.next_pc, show m.pc + 1 + (c.length + 1) = m.pc + (c.length + 2) by omega]

/-- The condition of a `for` loop. -/
theorem forCond_run {cond : AstNode} {label : String} {b : Bool} {q : Nat} {u : Unit}
    (hcore : (cond.isEmptyExpr || cond.coreExpr entries locals ids) = true)
    (hgen : genForCond label cond.isEmptyExpr (evalAsm frames cond) st = .ok (u, st', c))
    (hes : st.entries = es) (hc : CodeAt P m.pc c)
    (hq : P[q]? = some (.label (extendLabel label "end"))) (hm : InFrame es ids frame F σ m)
    (hv : evalCond entries cond σ = some (b, σ')) :
    ∃ m', Through L es ids frame F σ' (if b then m.pc + c.length else q) m m' := by
  rcases genForCond_eq_ok.mp hgen with ⟨hempty, rfl, rfl⟩ | ⟨hempty, reg, st1, c1, he, rfl, rfl⟩
  · rw [evalCond, if_pos hempty] at hv
    obtain ⟨rfl, rfl⟩ := Prod.mk.inj (Option.some.inj hv)
    exact ⟨m, Runs.refl m, rfl, hm, KeptAbove.refl F m.mem⟩
  · rw [hempty, Bool.false_or] at hcore
    rw [evalCond, hempty, if_neg Bool.false_ne_true, Option.map_eq_some_iff] at hv
    obtain ⟨⟨x, σ1⟩, hx, heq⟩ := hv
    obtain ⟨rfl, rfl⟩ := Prod.mk.inj heq
    obtain ⟨m1, h1⟩ := cond_run (L := L) hC hcore he hes hc hq hm hx
    refine ⟨m1, h1.congr ?_⟩
    by_cases hz : x.val = 0 <;> simp [hz]

/-- The code of a variable's definition. -/
theorem varDef_run {expr : AstNode} {symbol : SymId} {v : CInt} {u : Unit}
    (hcore : expr.coreExpr entries locals ids = true) (hid : symbol ∈ locals)
    (hgen : genVarDef (some symbol) (evalAsm frames expr) st = .ok (u, st', c))
    (hes : st.entries = es) (hc : CodeAt P m.pc c) (hm : InFrame es ids frame F σ m)
    (hv : evalExpr entries expr σ = some (v, σ')) :
    ∃ m', Through L es ids frame F (Function.update σ' symbol (some v)) (m.pc + c.length) m m' := by
  obtain ⟨_, e, reg, st1, c1, hsym, hent, he, rfl, rfl⟩ := genVarDef_eq_ok.mp hgen
  obtain rfl := Option.some.inj hsym
  rw [codeAt_append] at hc
  obtain ⟨m1, h1, hval⟩ := expr_run (L := L) hC hcore he hes hc.1 hm hv
  rw [hes] at hent
  have hmem := hC.slots.mem_of_local symbol hid
  have hb := hC.slots.bounds symbol hmem
  have hroom := hC.room
  have hslot : slotAt es symbol = e.offset + localsBase := by
    rw [slotAt, hent, Nat.add_comm]
    exact hC.slots.local_slot symbol hid e hent
  have hstore := runs_instr (L := L) (m := m1) (by rw [h1.pc]; exact hc.2) rfl
  rw [h1.inFrame.fp, add_ofInt_neg, hval, ← hslot] at hstore
  refine ⟨_, h1.trans ⟨hstore, ?_, ⟨h1.inFrame.fp, h1.inFrame.sp, ?_⟩, ?_⟩⟩
  · rw [Machine.next_pc, Machine.store_pc, h1.pc, List.length_append, List.length_singleton,
      Nat.add_assoc]
  · exact h1.inFrame.holds.assign hC.slots hroom hmem v
  · exact KeptAbove.store hb.1 (by omega) _

end Run

/-! ### Commands

A command is what the source executes next: a statement, the rest of a block, or a loop
that has been entered.
-/

/-- The lines of a command. -/
def CmdCode (frames : List StackFrame) (st st' : AsmState) (c : List Line) : Cmd → Prop
  | .stmt node => genAsmNode frames node st = .ok ((), st', c)
  | .loop cond step body => ∃ label,
      genForLoop label cond.isEmptyExpr (evalAsm frames cond)
        (genForStep step.isEmptyExpr (evalAsm frames step)) (genAsmNode frames body) st
          = .ok ((), st', c)

namespace Cmd

/-- `coreStmt` of a command. -/
def core (entries : List SymTabEntry) (locals ids : List SymId) (func : Option SymId) : Cmd → Bool
  | .stmt node => node.coreStmt entries locals ids func
  | .loop cond step body => (cond.isEmptyExpr || cond.coreExpr entries locals ids) &&
      (step.isEmptyExpr || step.coreExpr entries locals ids) &&
      body.coreStmt entries locals ids func

/-- The variables a command declares. -/
def localIds : Cmd → List SymId
  | .stmt node => node.localIds
  | .loop _ _ body => body.localIds

end Cmd

/-- How the code of a command ends. -/
def Ends (L : Layout P.length) (es : List SymTabEntry) (ids : List SymId) (frame : Nat) (F : Word)
    (σ : Store) (p : Nat) (m m' : Machine) : Outcome → Prop
  | .normal => Through L es ids frame F σ p m m'
  | .returned v => Left L F v m m'

namespace Ends

variable {p q : Nat} {m'' : Machine} {o : Outcome}

/-- Code run through, then the code of a command. -/
theorem head (h : Through L es ids frame F σ p m m') (h' : Ends L es ids frame F σ' q m' m'' o)
    (hroom : 8 ≤ F.toNat) : Ends L es ids frame F σ' q m m'' o := by
  cases o with
  | normal => exact Through.trans h h'
  | returned v => exact Through.left h h' hroom

/-- The code of a command, then a label. -/
theorem label {l : String} (h : Ends L es ids frame F σ p m m' o)
    (hl : P[p]? = some (.label l)) : ∃ m'', Ends L es ids frame F σ (p + 1) m m'' o := by
  cases o with
  | normal =>
      have h : Through L es ids frame F σ p m m' := h
      have hpc := h.pc
      subst hpc
      exact ⟨_, Through.trans h (Through.label hl h.inFrame)⟩
  | returned v => exact ⟨m', h⟩

theorem congr (h : Ends L es ids frame F σ p m m' o) (hpq : p = q) :
    Ends L es ids frame F σ q m m' o := hpq ▸ h

end Ends

/-- What a `for` statement starts with is a statement of the kind. -/
private theorem coreStmt_forInit {init : AstNode}
    (h : (init.isForInit && init.coreStmt entries locals ids func ||
      init.coreExpr entries locals ids) = true) :
    (forInit init).coreStmt entries locals ids func = true := by
  cases init <;> simp_all [forInit, AstNode.isForInit, AstNode.coreStmt, AstNode.coreExpr]

/-- What a `for` statement starts with is generated by its own generator. -/
private theorem genForInit_eq {init : AstNode}
    (h : (init.isForInit && init.coreStmt entries locals ids func ||
      init.coreExpr entries locals ids) = true) :
    genForInit init.isForInit (genAsmNode frames init) (evalAsm frames init)
      = genAsmNode frames (forInit init) := by
  cases init <;>
    simp_all [forInit, AstNode.isForInit, AstNode.coreExpr, genForInit, genAsmNode,
      AstNode.isEmptyExpr]

private theorem genForStep_eq (step : AstNode) :
    genForStep step.isEmptyExpr (evalAsm frames step) = genAsmNode frames (.exprStmt step) := rfl

section Run

variable (hC : FrameContext P frames entries es locals ids func frame F)

include hC

/-- **The code of a command does what the command does.** -/
theorem exec_run {cmd : Cmd} {o : Outcome} (h : Exec entries cmd σ o σ')
    (hcore : cmd.core entries locals ids func = true) (hloc : ∀ id ∈ cmd.localIds, id ∈ locals)
    (hgen : CmdCode frames st st' c cmd) (hes : st.entries = es) (hc : CodeAt P m.pc c)
    (hm : InFrame es ids frame F σ m) :
    ∃ m', Ends L es ids frame F σ' (m.pc + c.length) m m' o := by
  have hroom : 8 ≤ F.toNat := hC.saved.trans hC.room
  -- on the run of the source; a loop that goes round again is a run of its own
  induction h generalizing st st' c m with
  | varDec =>
      obtain ⟨-, rfl, rfl⟩ := Gen.pure_eq_ok.mp hgen
      exact ⟨m, Runs.refl m, rfl, ⟨hm.fp, hm.sp, hm.holds.unset _⟩, KeptAbove.refl F m.mem⟩
  | varDef hv =>
      exact varDef_run hC hcore (hloc _ (by simp [Cmd.localIds, AstNode.localIds])) hgen hes hc hm
        hv
  | @exprStmt expr σ v σ1 hv =>
      rw [Cmd.core, AstNode.coreStmt, Bool.or_eq_true] at hcore
      have hne : expr.isEmptyExpr = false := by
        cases expr <;> simp_all [AstNode.isEmptyExpr, evalExpr]
      rw [hne] at hcore
      rw [CmdCode, genAsmNode, hne] at hgen
      obtain ⟨reg, st1, he, rfl⟩ := discard_eq_ok.mp hgen
      obtain ⟨m1, h1, -⟩ := expr_run (L := L) hC (by simpa using hcore) he hes hc hm hv
      exact ⟨m1, h1⟩
  | emptyStmt | emptyExpr | enum | blockNil =>
      obtain ⟨-, rfl, rfl⟩ := Gen.pure_eq_ok.mp hgen
      exact ⟨m, Runs.refl m, rfl, hm, KeptAbove.refl F m.mem⟩
  | @blockCons node rest σ σ1 o σ2 hfirst hrest ih1 ih2 =>
      simp only [Cmd.core, AstNode.coreStmt, AstNode.coreStmts, Bool.and_eq_true] at hcore
      simp only [Cmd.localIds, AstNode.localIds, AstNode.localIdsList, List.mem_append] at hloc
      rw [CmdCode, genAsmNode, genAsmList, Gen.bind_eq_ok] at hgen
      obtain ⟨_, st1, c1, c2, hg1, hg2, rfl⟩ := hgen
      rw [codeAt_append] at hc
      have hbal := genAsmNode_balanced (AstNode.funcFree_of_coreStmt hcore.1) hg1
      obtain ⟨m1, h1⟩ := ih1 hcore.1 (fun id hid => hloc id (Or.inl hid)) hg1 hes hc.1 hm
      have h1 : Through L es ids frame F σ1 (m.pc + c1.length) m m1 := h1
      obtain ⟨m2, h2⟩ := ih2 hcore.2 (fun id hid => hloc id (Or.inr hid)) hg2
        (hbal.entries.trans hes) (by rw [h1.pc]; exact hc.2) h1.inFrame
      refine ⟨m2, (h2.head h1 hroom).congr ?_⟩
      rw [h1.pc, List.length_append, Nat.add_assoc]
  | @blockReturn node rest σ v σ1 hfirst ih1 =>
      simp only [Cmd.core, AstNode.coreStmt, AstNode.coreStmts, Bool.and_eq_true] at hcore
      simp only [Cmd.localIds, AstNode.localIds, AstNode.localIdsList, List.mem_append] at hloc
      rw [CmdCode, genAsmNode, genAsmList, Gen.bind_eq_ok] at hgen
      obtain ⟨_, st1, c1, c2, hg1, hg2, rfl⟩ := hgen
      rw [codeAt_append] at hc
      obtain ⟨m1, h1⟩ := ih1 hcore.1 (fun id hid => hloc id (Or.inl hid)) hg1 hes hc.1 hm
      exact ⟨m1, h1⟩
  | @ifTrue ifExpr ifBody elseBody σ x σ1 o σ2 hv hx hbody ih =>
      cases elseBody with
      | null =>
          simp only [Cmd.core, AstNode.coreStmt, Bool.and_eq_true] at hcore
          simp only [Cmd.localIds, AstNode.localIds, List.mem_append] at hloc
          rw [CmdCode, genAsmNode, genIf_eq_ok] at hgen
          obtain ⟨reg, st1, c1, st2, c2, c3, he, hb, helse, rfl⟩ := hgen
          obtain ⟨-, rfl, rfl⟩ := Gen.pure_eq_ok.mp helse
          have hes1 : ((st.bump .if_).bump .else_).entries = es := by simpa using hes
          have hat := hc
          simp only [codeAt_cons, codeAt_append] at hat
          obtain ⟨-, -, -, hc2, hlabel, -⟩ := hat
          obtain ⟨m1, h1⟩ := head_run (L := L) hC hcore.1 he hes1 hc hlabel hm hv
          rw [if_neg hx] at h1
          have hpc : m1.pc = m.pc + 1 + c1.length + 1 := by rw [h1.pc]; omega
          obtain ⟨m2, h2⟩ := ih hcore.2 (fun id hid => hloc id (Or.inl hid)) hb
            ((Balanced.eval he).entries.trans hes1) (by rw [hpc]; exact hc2) h1.inFrame
          obtain ⟨m3, h3⟩ := (h2.head h1 hroom).label (by rw [hpc]; exact hlabel)
          refine ⟨m3, h3.congr ?_⟩
          simp only [hpc, List.length_cons, List.length_append, List.length_nil]
          omega
      | _ => simp [Cmd.core, AstNode.coreStmt] at hcore
  | @ifFalse ifExpr ifBody σ x σ1 hv hx =>
      simp only [Cmd.core, AstNode.coreStmt, Bool.and_eq_true] at hcore
      rw [CmdCode, genAsmNode, genIf_eq_ok] at hgen
      obtain ⟨reg, st1, c1, st2, c2, c3, he, hb, helse, rfl⟩ := hgen
      obtain ⟨-, rfl, rfl⟩ := Gen.pure_eq_ok.mp helse
      have hat := hc
      simp only [codeAt_cons, codeAt_append] at hat
      obtain ⟨-, -, -, -, hlabel, -⟩ := hat
      obtain ⟨m1, h1⟩ := head_run (L := L) hC hcore.1 he (by simpa using hes) hc hlabel hm hv
      rw [if_pos hx] at h1
      have h1 : Ends L es ids frame F σ1 _ m m1 .normal := h1
      obtain ⟨m2, h2⟩ := h1.label hlabel
      refine ⟨m2, h2.congr ?_⟩
      simp only [List.length_cons, List.length_append, List.length_nil]
      omega
  | @ifElse ifExpr ifBody elseBody σ x σ1 o σ2 hv hx hne hbody ih =>
      cases elseBody <;> simp_all [Cmd.core, AstNode.coreStmt, AstNode.nonNull]
  | @whileDone expr body σ x σ1 hv hx =>
      simp only [Cmd.core, AstNode.coreStmt, Bool.and_eq_true] at hcore
      rw [CmdCode, genAsmNode, genWhile_eq_ok] at hgen
      obtain ⟨reg, st1, c1, c2, he, hb, rfl⟩ := hgen
      have hat := hc
      simp only [codeAt_cons, codeAt_append] at hat
      obtain ⟨-, -, -, -, -, hend, -⟩ := hat
      obtain ⟨m1, h1⟩ := head_run (L := L) hC hcore.1 he (by simpa using hes) hc hend hm hv
      rw [if_pos hx] at h1
      have h1 : Ends L es ids frame F σ1 _ m m1 .normal := h1
      obtain ⟨m2, h2⟩ := h1.label hend
      refine ⟨m2, h2.congr ?_⟩
      simp only [List.length_cons, List.length_append, List.length_nil]
      omega
  | @whileStep expr body σ x σ1 σ2 o σ3 hv hx hbody hrest ih1 ih2 =>
      have hcore' := hcore
      simp only [Cmd.core, AstNode.coreStmt, Bool.and_eq_true] at hcore'
      have hloc' := hloc
      simp only [Cmd.localIds, AstNode.localIds, List.mem_append] at hloc'
      have hgen' := hgen
      rw [CmdCode, genAsmNode, genWhile_eq_ok] at hgen'
      obtain ⟨reg, st1, c1, c2, he, hb, rfl⟩ := hgen'
      have hes1 : (st.bump .while_).entries = es := by simpa using hes
      have hat := hc
      simp only [codeAt_cons, codeAt_append] at hat
      obtain ⟨hstart, -, -, hc2, hj, hend, -⟩ := hat
      obtain ⟨m1, h1⟩ := head_run (L := L) hC hcore'.1 he hes1 hc hend hm hv
      rw [if_neg hx] at h1
      have hpc : m1.pc = m.pc + 1 + c1.length + 1 := by rw [h1.pc]; omega
      obtain ⟨m2, h2⟩ := ih1 hcore'.2 (fun id hid => hloc' id (Or.inr hid)) hb
        ((Balanced.eval he).entries.trans hes1) (by rw [hpc]; exact hc2) h1.inFrame
      have h2 : Through L es ids frame F σ2 (m1.pc + c2.length) m1 m2 := h2
      -- back to the start of the loop, and into the same lines again
      have h3 := Through.jump (L := L) hC.nodup (by rw [h2.pc, hpc]; exact hj) hstart h2.inFrame
      obtain ⟨m4, h4⟩ := ih2 (m := m2.goto m.pc) hcore hloc hgen hes hc h3.inFrame
      exact ⟨m4, ((h4.head h3 hroom).head h2 hroom).head h1 hroom⟩
  | @whileReturn expr body σ x σ1 v σ2 hv hx hbody ih =>
      simp only [Cmd.core, AstNode.coreStmt, Bool.and_eq_true] at hcore
      simp only [Cmd.localIds, AstNode.localIds, List.mem_append] at hloc
      rw [CmdCode, genAsmNode, genWhile_eq_ok] at hgen
      obtain ⟨reg, st1, c1, c2, he, hb, rfl⟩ := hgen
      have hes1 : (st.bump .while_).entries = es := by simpa using hes
      have hat := hc
      simp only [codeAt_cons, codeAt_append] at hat
      obtain ⟨-, -, -, hc2, -, hend, -⟩ := hat
      obtain ⟨m1, h1⟩ := head_run (L := L) hC hcore.1 he hes1 hc hend hm hv
      rw [if_neg hx] at h1
      have hpc : m1.pc = m.pc + 1 + c1.length + 1 := by rw [h1.pc]; omega
      obtain ⟨m2, h2⟩ := ih hcore.2 (fun id hid => hloc id (Or.inr hid)) hb
        ((Balanced.eval he).entries.trans hes1) (by rw [hpc]; exact hc2) h1.inFrame
      exact ⟨m2, h2.head h1 hroom⟩
  | @forStart init cond step body σ σ1 o σ2 hinit hloop ih1 ih2 =>
      simp only [Cmd.core, AstNode.coreStmt, Bool.and_eq_true] at hcore
      simp only [Cmd.localIds, AstNode.localIds, List.mem_append] at hloc
      rw [CmdCode, genAsmNode, genFor_eq_ok, genForInit_eq hcore.1.1.1] at hgen
      obtain ⟨st1, c1, c2, hg1, hg2, rfl⟩ := hgen
      have hes1 : (st.bump .for_).entries = es := by simpa using hes
      have hinit' := coreStmt_forInit hcore.1.1.1
      rw [codeAt_cons, codeAt_append] at hc
      have h0 := Through.label (L := L) hc.1 hm
      obtain ⟨m1, h1⟩ := ih1 hinit' (fun id hid => hloc id (Or.inl (by
        unfold forInit at hid
        split at hid
        · exact hid
        · simpa [Cmd.localIds, AstNode.localIds] using hid))) hg1 hes1 hc.2.1 h0.inFrame
      have h1 : Through L es ids frame F σ1 (m.pc + 1 + c1.length) m.next m1 := h1
      have hbal := genAsmNode_balanced (AstNode.funcFree_of_coreStmt hinit') hg1
      obtain ⟨m2, h2⟩ :=
        ih2 (by simp only [Cmd.core, hcore.1.1.2, hcore.1.2, hcore.2, Bool.and_self])
        (fun id hid => hloc id (Or.inr (Or.inr (Or.inr hid)))) ⟨_, hg2⟩ (hbal.entries.trans hes1)
        (by rw [h1.pc]; exact hc.2.2) h1.inFrame
      refine ⟨m2, ((h2.head h1 hroom).head h0 hroom).congr ?_⟩
      rw [h1.pc, List.length_cons, List.length_append]
      omega
  | @loopDone cond step body σ σ1 hv =>
      simp only [Cmd.core, Bool.and_eq_true] at hcore
      obtain ⟨label, hg⟩ := hgen
      obtain ⟨st1, c1, st2, c2, c3, hcond, hb, hs, rfl⟩ := genForLoop_eq_ok.mp hg
      simp only [codeAt_cons, codeAt_append] at hc
      obtain ⟨hstart, hc1, -, -, -, -, -, hend, -⟩ := hc
      have h0 := Through.label (L := L) hstart hm
      obtain ⟨m1, h1⟩ := forCond_run (L := L) hC hcore.1.1 hcond hes hc1 hend h0.inFrame hv
      rw [if_neg Bool.false_ne_true] at h1
      have h1 : Ends L es ids frame F σ1 _ m.next m1 .normal := h1
      obtain ⟨m2, h2⟩ := h1.label hend
      refine ⟨m2, (h2.head h0 hroom).congr ?_⟩
      simp only [List.length_cons, List.length_append, List.length_nil]
      omega
  | @loopStep cond step body σ σ1 σ2 σ3 o σ4 hv hbody hstep hrest ih1 ih2 ih3 =>
      have hcore' := hcore
      simp only [Cmd.core, Bool.and_eq_true] at hcore'
      obtain ⟨label, hg⟩ := hgen
      obtain ⟨st1, c1, st2, c2, c3, hcond, hb, hs, rfl⟩ := genForLoop_eq_ok.mp hg
      have hat := hc
      simp only [codeAt_cons, codeAt_append] at hat
      obtain ⟨hstart, hc1, hlb, hc2, hls, hc3, hj, hend, -⟩ := hat
      have hes1 := (genForCond_balanced hcond).entries.trans hes
      have hes2 :=
        (genAsmNode_balanced (AstNode.funcFree_of_coreStmt hcore'.2) hb).entries.trans hes1
      have h0 := Through.label (L := L) hstart hm
      obtain ⟨m1, h1⟩ := forCond_run (L := L) hC hcore'.1.1 hcond hes hc1 hend h0.inFrame hv
      have h1 := h1.congr (if_pos rfl)
      have hpc1 : m1.pc = m.pc + 1 + c1.length := h1.pc
      have h2 := Through.label (L := L) (by rw [hpc1]; exact hlb) h1.inFrame
      obtain ⟨m3, h3⟩ := ih1 (m := m1.next) hcore'.2 hloc hb hes1 (by
        rw [Machine.next_pc, hpc1]
        exact hc2) h2.inFrame
      have h3 : Through L es ids frame F σ2 _ m1.next m3 := h3
      have hpc3 : m3.pc = m.pc + 1 + c1.length + 1 + c2.length := by
        rw [h3.pc, Machine.next_pc, hpc1]
      have h4 := Through.label (L := L) (by rw [hpc3]; exact hls) h3.inFrame
      obtain ⟨m5, h5⟩ := ih2 (m := m3.next) hcore'.1.2 (by simp [Cmd.localIds, AstNode.localIds,
          AstNode.localIds_of_emptyOr hcore'.1.2])
        (by rw [genForStep_eq] at hs; exact hs) hes2 (by
          rw [Machine.next_pc, hpc3]
          exact hc3) h4.inFrame
      have h5 : Through L es ids frame F σ3 _ m3.next m5 := h5
      have hpc5 : m5.pc = m.pc + 1 + c1.length + 1 + c2.length + 1 + c3.length := by
        rw [h5.pc, Machine.next_pc, hpc3]
      -- back to the condition, and into the same lines again
      have h6 := Through.jump (L := L) hC.nodup (by rw [hpc5]; exact hj) hstart h5.inFrame
      obtain ⟨m7, h7⟩ := ih3 (m := m5.goto m.pc) hcore hloc ⟨label, hg⟩ hes hc h6.inFrame
      exact ⟨m7, h7.head (h0.trans (h1.trans (h2.trans (h3.trans (h4.trans (h5.trans h6)))))) hroom⟩
  | @loopReturn cond step body σ σ1 v σ2 hv hbody ih =>
      simp only [Cmd.core, Bool.and_eq_true] at hcore
      obtain ⟨label, hg⟩ := hgen
      obtain ⟨st1, c1, st2, c2, c3, hcond, hb, hs, rfl⟩ := genForLoop_eq_ok.mp hg
      simp only [codeAt_cons, codeAt_append] at hc
      obtain ⟨hstart, hc1, hlb, hc2, -, -, -, hend, -⟩ := hc
      have h0 := Through.label (L := L) hstart hm
      obtain ⟨m1, h1⟩ := forCond_run (L := L) hC hcore.1.1 hcond hes hc1 hend h0.inFrame hv
      have h1 := h1.congr (if_pos rfl)
      have hpc1 : m1.pc = m.pc + 1 + c1.length := h1.pc
      have h2 := Through.label (L := L) (by rw [hpc1]; exact hlb) h1.inFrame
      obtain ⟨m3, h3⟩ := ih (m := m1.next) hcore.2 hloc hb
        ((genForCond_balanced hcond).entries.trans hes) (by
          rw [Machine.next_pc, hpc1]
          exact hc2) h2.inFrame
      exact ⟨m3, h3.head (h0.trans (h1.trans h2)) hroom⟩
  | @ret expr target σ v σ1 hv =>
      simp only [Cmd.core, AstNode.coreStmt, Bool.and_eq_true, decide_eq_true_eq,
        Bool.or_eq_true] at hcore
      have hne : expr.isEmptyExpr = false := by
        cases expr <;> simp_all [AstNode.isEmptyExpr, evalExpr]
      obtain ⟨rfl, hexpr⟩ := hcore
      rw [CmdCode, genAsmNode, genRet_eq_ok] at hgen
      obtain ⟨id, e, fid, fr, c1, hid, hent, hfid, hfr, hval, rfl⟩ := hgen
      rw [hC.size id e fid fr hid (hes ▸ hent) hfid hfr, codeAt_append] at hc
      rcases genRetValue_eq_ok.mp hval with ⟨hempty, -⟩ | ⟨-, reg, st1, c0, he, -, rfl⟩
      · simp [hne] at hempty
      · obtain ⟨hc0, hep⟩ := hc
        rw [codeAt_append] at hc0
        obtain ⟨m1, h1, hv1⟩ := expr_run (L := L) hC (by simpa [hne] using hexpr) he hes hc0.1 hm hv
        have hmv := runs_instr (L := L) (m := m1) (by rw [h1.pc]; exact hc0.2) rfl
        rw [hv1] at hmv
        have h2 : Through L es ids frame F σ1 (m1.pc + 1) m1 (m1.set (.a 0) v.word).next :=
          ⟨hmv, rfl, ⟨by rw [get_set_next_ne (by simp), h1.inFrame.fp],
            by rw [get_set_next_ne (by simp), h1.inFrame.sp], h1.inFrame.holds⟩,
            KeptAbove.refl F m1.mem⟩
        obtain ⟨m3, h3⟩ := epilogue_run (L := L) (v := some v) hC (by
          rw [h2.pc, h1.pc, Nat.add_assoc]
          simpa using hep) h2.inFrame (by
            intro x hx
            obtain rfl := Option.some.inj hx
            rw [Machine.next_get, Machine.get_set_self _ _ _ (by simp)])
        exact ⟨m3, (h1.trans h2).left h3 hroom⟩
  | @retVoid target σ =>
      simp only [Cmd.core, AstNode.coreStmt, Bool.and_eq_true, decide_eq_true_eq] at hcore
      obtain ⟨rfl, -⟩ := hcore
      rw [CmdCode, genAsmNode, genRet_eq_ok] at hgen
      obtain ⟨id, e, fid, fr, c1, hid, hent, hfid, hfr, hval, rfl⟩ := hgen
      rw [hC.size id e fid fr hid (hes ▸ hent) hfid hfr, codeAt_append] at hc
      rcases genRetValue_eq_ok.mp hval with ⟨-, hg⟩ | ⟨hne, -⟩
      · obtain ⟨-, rfl, rfl⟩ := Gen.pure_eq_ok.mp hg
        exact epilogue_run (L := L) (v := none) hC (by simpa using hc.2) hm (by simp)
      · simp [AstNode.isEmptyExpr] at hne

end Run

end MyLang
