/-
Every way out of a function but one gives the caller back what it had.

In a run with its open activations, the one that runs is in the prologue of its function,
in the body, where stack and frame pointer are those behind the prologue, or on its way
out; and one that waits is in its body as well, at the line behind the call.  Every step
keeps this, and at the jump that leaves a function it says that stack pointer, frame
pointer and return address are those of the entry.  The exception is the jump behind the
body of a function that is not `void`, where the frame has not been given back.

A run is followed line by line, not by what the source says, since nothing is assumed of
the program but that it was accepted.  What a line of a body may be is said by
`Proofs/FrameCode.lean`: no instruction of a body sets the stack or the frame pointer, and
a jump of a body goes to a line of the body.  `Lib/CallStack.lean` has the runs with the
list of the activations that are open, and the rule by which an invariant of each gives
one of the run.

The slots in which the registers are saved have to be as they were when the function
leaves; that is assumed of the run, and nothing else.
-/
import MyLang.Proofs.CallReach
import MyLang.Proofs.FrameCode
import MyLang.Proofs.ReturnFrames

namespace MyLang

open Rv32 ByteMemory

variable {frames : List StackFrame} {st st' : AsmState} {c : List Line} {P : List Line}
  {L : Layout P.length}
  {r : SemaResult} {e e' m m' : Machine} {p : Nat}

/-! ### Where the functions stand

The code of each function is a piece of the file, from its label to the jump behind its
body.
-/

/-- A function of a program whose code stands at a line. -/
structure FuncStands (r : SemaResult) (P : List Line) (p : Nat) where
  name : String
  type : String
  frame : Nat
  code : List Line
  stands : CodeAt P p (.label name :: (prologueCode frame ++ (code ++ funcEndCode type frame)))
  large : 48 ≤ frame
  framed : Framed frame (funcNames r.prog) code
  inside : JumpsInside code
  falls : type ≠ "void" → FallsOff r (p + headLength + code.length)

theorem prologueCode_length (frame : Nat) : (prologueCode frame).length = 12 := by
  simp [prologueCode, argLength]

theorem headLength_eq (frame : Nat) : headLength = 1 + (prologueCode frame).length := by
  rw [headLength, prologueCode_length, prologueCode_length]

/-- The code of a function of a program, and where it ends if control can fall off it. -/
theorem genAsmList_funcAt {prog : List AstNode} (hprog : ∀ n ∈ prog, n.isFuncDef = true)
    (base : Nat) (h : genAsmList frames prog st = .ok ((), st', c)) {name type : String}
    {body : AstNode} {params : List Param} {symbol : Option SymId}
    (hn : .funcDef name type body params symbol ∈ prog) :
    ∃ st1 st2 pre fc post, genAsmNode frames (.funcDef name type body params symbol) st1
      = .ok ((), st2, fc) ∧
      c = pre ++ (fc ++ post) ∧ st1.entries.map SymTabEntry.fixed
        = st.entries.map SymTabEntry.fixed ∧
      (type ≠ "void" → base + pre.length + fc.length - 1 ∈ fallOffLines frames base prog st) := by
  induction prog generalizing st c base with
  | nil => simp at hn
  | cons node rest ih =>
      rw [genAsmList, Gen.bind_eq_ok] at h
      obtain ⟨_, st1, c1, c2, h1, h2, rfl⟩ := h
      rw [fallOffLines, h1]
      rcases List.mem_cons.mp hn with rfl | hin
      · refine ⟨st, st1, [], c1, c2, h1, rfl, rfl, fun hvoid => List.mem_append_left _ ?_⟩
        simp [AstNode.isVoid, hvoid]
      · obtain ⟨value, type', body', params', symbol', rfl⟩ :=
          AstNode.eq_funcDef (hprog node (by simp))
        have hff := funcFree_of_isFuncDef (hprog _ List.mem_cons_self)
        obtain ⟨-, hent⟩ := genFuncDef_entries hff h1
        obtain ⟨st2, st3, pre, fc, post, hnode, rfl, hfix, hfalls⟩ :=
          ih (fun n hn => hprog n (by simp [hn])) (base + c1.length) h2 hin
        refine ⟨st2, st3, c1 ++ pre, fc, post,
          hnode, by rw [List.append_assoc], ?_, fun hvoid => ?_⟩
        · rw [hfix, hent, paramEntries_fixed]
        · refine List.mem_append_right _ ?_
          rw [List.length_append, ← Nat.add_assoc]
          exact hfalls hvoid

/--
**The functions of an accepted program stand in its code, and their code keeps their
frames.**
-/
theorem Accepted.funcStands {uninit : Int} {arena : SymId → Nat} {tokens : List Token}
    (hacc : Accepted uninit arena tokens r) (hasm : genAsm r = .ok P) {name type : String}
    {body : AstNode} {params : List Param} {symbol : Option SymId}
    (hmem : .funcDef name type body params symbol ∈ r.prog) :
    ∃ p, P[p]? = some (.label name) ∧ Nonempty (FuncStands r P p) := by
  obtain ⟨stp, cp, hgen, hP⟩ := genAsm_eq_ok.mp hasm
  obtain ⟨st1, st2, pre, fc, post, hnode, rfl, hfix, hfalls⟩ :=
    genAsmList_funcAt hacc.isFuncDef startCode.length hgen hmem
  have hfixed : st1.entries.map SymTabEntry.fixed = r.entries.map SymTabEntry.fixed := hfix
  have hff := funcFree_of_isFuncDef (hacc.isFuncDef _ hmem)
  rw [genAsmNode, genFuncDef_eq_ok] at hnode
  obtain ⟨id, entry, fid, fr, cb, -, rfl, hid, hfid, hfr, hbody, rfl⟩ := hnode
  have hentries : (paramEntries 0 params st1.entries).map SymTabEntry.fixed
      = r.entries.map SymTabEntry.fixed := by
    rw [paramEntries_fixed, hfixed]
  have hframe : frameOf r.entries r.frames (some id) = some fr := by
    rw [← frameOf_congr hentries]
    simp [frameOf, hid, hfid, hfr]
  obtain ⟨_, _, _, _, gid, fid', lo, hi, heq, hlay, -⟩ := hacc.layout.func hmem
  obtain ⟨rfl, rfl, rfl, rfl, hgid⟩ := AstNode.funcDef.inj heq
  rw [hgid, hlay.frameOf] at hframe
  have hframed : Framed (frameSize fr.size) (funcNames r.prog) cb := by
    refine genAsmNode_framed hff ?_ (fun s hs fr' hfr' => ?_) hbody
    · have hcalls := callsList_subset hacc.calls.1 _ hmem
      exact hcalls
    · have hfr' : frameOf (paramEntries 0 params st1.entries) r.frames s = some fr' := hfr'
      rw [frameOf_congr hentries] at hfr'
      rw [hacc.returnFrame hmem hs hfr', ← Option.some.inj hframe]
  have hbound := frameSize_bounds fr.size
  have hc : CodeAt P (startCode ++ pre).length _ := codeAt_of_eq (by rw [hP, List.append_assoc])
  refine ⟨(startCode ++ pre).length, hc.1,
    ⟨name, type, frameSize fr.size, cb, hc, by omega, hframed,
    genAsmNode_keeps hbody, fun hvoid => ?_⟩⟩
  have hfalls := hfalls hvoid
  rw [FallsOff]
  convert hfalls using 1
  rw [headLength_eq (frameSize fr.size)]
  simp only [List.length_append, List.length_cons, funcEndCode, if_neg hvoid, List.nil_append,
    List.length_nil]
  omega

/-! ### Where an activation is

The three places are the head of the function, the body, and the lines that restore the
registers, of which there may be several, one for each `return`.
-/

/-- The lines before a body are run through one after the other. -/
theorem headLine_plain {x : Line} {name : String} {frame : Nat}
    (h : x ∈ .label name :: prologueCode frame) :
    x.plain = true ∧ ∀ i, x = .instr i → i.jump = none := by
  rcases List.mem_cons.mp h with rfl | h
  · exact ⟨rfl, by simp⟩
  · have hstore : ∀ {regs : List Reg} {off : Nat} {y : Line}, y ∈ storeCode regs off →
        y.plain = true ∧ ∀ i, y = .instr i → i.jump = none := by
      intro regs off y hy
      refine ⟨plain_of_moves storeCode_moves y hy, ?_⟩
      rintro i rfl
      have hjumps := jumpsTo_of_moves [] storeCode_moves i hy
      cases hi : i.jump with
      | none => rfl
      | some l => simpa using hjumps l hi
    simp only [prologueCode, List.mem_cons] at h
    rcases h with rfl | rfl | rfl | rfl | h
    · exact ⟨rfl, by simp [Instr.jump]⟩
    · exact ⟨rfl, by simp [Instr.jump]⟩
    · exact ⟨rfl, by simp [Instr.jump]⟩
    · exact ⟨rfl, by simp [Instr.jump]⟩
    · exact hstore h

theorem FuncStands.head_plain (f : FuncStands r P p) {k : Nat} (hk : k < headLength)
    (hpc : m.pc = p + k) {x : Line} (hx : P[m.pc]? = some x) :
    x.plain = true ∧ ∀ i, x = .instr i → i.jump = none := by
  have hc := f.stands
  rw [← List.cons_append, codeAt_append] at hc
  have hlen : (Line.label f.name :: prologueCode f.frame).length = headLength := by
    rw [headLength_eq f.frame, List.length_cons, Nat.add_comm]
  have hline := hc.1.getElem? (q := m.pc) (by omega) (by omega)
  exact headLine_plain (List.mem_of_getElem? (hline.symm.trans hx))

/-- What the prologue of a function leaves. -/
theorem FuncStands.head_done (f : FuncStands r P e.pc) :
    ∃ b, runFor L headLength e = some b ∧ b.pc = e.pc + headLength ∧ b.get fp = e.get .sp ∧
      b.get .sp = below (e.get .sp) f.frame ∧ loadWord b.mem (below (e.get .sp) 4) = e.get .ra ∧
      loadWord b.mem (below (e.get .sp) 8) = e.get fp := by
  obtain ⟨hlabel, hc⟩ := f.stands
  obtain ⟨b, h⟩ := prologue_done (L := L) (m := e.next) f.large (codeAt_append.mp hc).1
  refine ⟨b, ?_, ?_, h.fp, h.sp, h.ra, h.oldFp⟩
  · rw [headLength_eq f.frame, Nat.add_comm]
    exact runFor_head (step_label hlabel) h.runFor
  · rw [h.pc, headLength_eq f.frame, Machine.next_pc]
    omega

/-- An activation goes on in its frame at a line of the body. -/
structure GoesOn (f : FuncStands r P e.pc) (m : Machine) (q : Nat) : Prop where
  code : ∃ pre rest, f.code = pre ++ rest ∧ q = e.pc + headLength + pre.length ∧
    Framed f.frame (funcNames r.prog) rest
  sp : m.get .sp = below (e.get .sp) f.frame
  fp : m.get fp = e.get .sp

/-- An activation is on its way out of its function. -/
inductive Leaving (P : List Line) (frame : Nat) (e m : Machine) : Prop
  | ra (hc : CodeAt P m.pc [.instr (.lw fp (sizeToInt (frame - registerSize * 2)) .sp),
        .instr (.addi .sp .sp frame), .instr (.jalr .ra)])
      (hsp : m.get .sp = below (e.get .sp) frame)
      (hra : m.get .ra = loadWord m.mem (below (e.get .sp) 4))
  | fp (hc : CodeAt P m.pc [.instr (.addi .sp .sp frame), .instr (.jalr .ra)])
      (hsp : m.get .sp = below (e.get .sp) frame)
      (hra : m.get .ra = loadWord m.mem (below (e.get .sp) 4))
      (hfp : m.get fp = loadWord m.mem (below (e.get .sp) 8))
  | sp (hc : CodeAt P m.pc [.instr (.jalr .ra)])
      (hsp : m.get .sp = e.get .sp) (hra : m.get .ra = loadWord m.mem (below (e.get .sp) 4))
      (hfp : m.get fp = loadWord m.mem (below (e.get .sp) 8))

/-- Where the activation is that runs. -/
inductive Running (r : SemaResult) (L : Layout P.length) (e m : Machine) : Prop
  | head (f : FuncStands r P e.pc) (k : Nat) (hk : k < headLength) (hrun : runFor L k e = some m)
      (hpc : m.pc = e.pc + k)
  | body (f : FuncStands r P e.pc) (h : GoesOn f m m.pc)
  | leaving (f : FuncStands r P e.pc) (h : Leaving P f.frame e m)

/-- An activation waits for another one, which has been entered in the state `e'`. -/
def Waits (r : SemaResult) (L : Layout P.length) (e e' : Machine) : Prop :=
  ∃ (f : FuncStands r P e.pc) (q : Nat), q ≤ P.length ∧ GoesOn f e' q ∧ e'.get .ra = L.addr q

/-- A function that is entered runs. -/
theorem FuncStands.running (f : FuncStands r P e.pc) : Running r L e e :=
  Running.head f 0 (Nat.lt_of_lt_of_le Nat.zero_lt_one (Nat.le_add_right ..)) rfl rfl

/-- The first instruction of the way out. -/
theorem Leaving.of_step {frame : Nat} (hframe : 48 ≤ frame)
    (hc : CodeAt P m.pc (epilogueCode frame ++ [.instr (.jalr .ra)]))
    (hsp : m.get .sp = below (e.get .sp) frame) (hs : step L m = some m') :
    Leaving P frame e m' := by
  obtain ⟨h1, hrest⟩ := hc
  have haddr : below (e.get .sp) frame + BitVec.ofInt 32 (sizeToInt (frame - registerSize))
      = below (e.get .sp) 4 := by
    rw [ofInt_sizeToInt, below_add (by omega)]
    congr 1
    simp only [registerSize]
    omega
  rw [step_instr h1, Instr.exec, hsp, haddr] at hs
  obtain rfl := Option.some.inj hs
  refine Leaving.ra hrest ?_ ?_
  · rw [get_set_next_ne (by simp), hsp]
  · simp

/-- On the way out the next instruction is executed. -/
theorem Leaving.step {frame : Nat} (hframe : 48 ≤ frame) (h : Leaving P frame e m) {x : Line}
    (hx : P[m.pc]? = some x) (hplain : x.plain = true) (hs : Rv32.step L m = some m') :
    Leaving P frame e m' := by
  -- one case for each of the lines that restore a register
  cases h with
  | ra hc hsp hra =>
      have haddr : below (e.get .sp) frame + BitVec.ofInt 32 (sizeToInt (frame - registerSize * 2))
          = below (e.get .sp) 8 := by
        rw [ofInt_sizeToInt, below_add (by omega)]
        congr 1
        simp only [registerSize]
        omega
      rw [step_instr hc.1, Instr.exec, hsp, haddr] at hs
      obtain rfl := Option.some.inj hs
      refine Leaving.fp hc.2 ?_ ?_ ?_
      · rw [get_set_next_ne (by simp), hsp]
      · rw [get_set_next_ne (by simp), hra]
        rfl
      · simp
  | fp hc hsp hra hfp =>
      rw [step_instr hc.1, Instr.exec, hsp] at hs
      obtain rfl := Option.some.inj hs
      refine Leaving.sp hc.2 ?_ ?_ ?_
      · rw [Machine.next_get, Machine.get_set_self _ _ _ (by simp), BitVec.ofInt_natCast,
          below_add (by omega), Nat.sub_self]
        simp [below]
      · rw [get_set_next_ne (by simp), hra]
        rfl
      · rw [get_set_next_ne (by simp), hfp]
        rfl
  | sp hc =>
      obtain rfl := Option.some.inj (hx.symm.trans hc.1)
      simp [Line.plain] at hplain

/-! ### Steps of an activation

A step that is no call and no return goes on in the same activation, one place further.
-/

/-- What stands at a line of the body. -/
theorem FuncStands.codeAt_rest (f : FuncStands r P p) {pre rest : List Line}
    (h : f.code = pre ++ rest) :
    CodeAt P (p + headLength + pre.length) (rest ++ funcEndCode f.type f.frame) := by
  have hc := f.stands
  rw [h, ← List.cons_append, codeAt_append, List.append_assoc, codeAt_append] at hc
  have hc := hc.2.2
  rwa [List.length_cons, Nat.add_comm _ 1, ← headLength_eq] at hc

/-- Behind a line of the body comes the next one. -/
theorem GoesOn.next {f : FuncStands r P e.pc} {pre rest : List Line} {x : Line}
    (hcode : f.code = pre ++ x :: rest) (hrest : Framed f.frame (funcNames r.prog) rest)
    (hpc : m.pc = e.pc + headLength + pre.length) (hsp : m'.get .sp = below (e.get .sp) f.frame)
    (hfp : m'.get MyLang.fp = e.get .sp) : GoesOn f m' (m.pc + 1) := by
  refine ⟨⟨pre ++ [x], rest, by simp [hcode], ?_, hrest⟩, hsp, hfp⟩
  rw [hpc, List.length_append, List.length_singleton, Nat.add_assoc]

/-- A jump of the body goes to a line of the body. -/
theorem GoesOn.jump {f : FuncStands r P e.pc} (hnd : (labels P).Nodup) {i : Instr}
    (hi : .instr i ∈ f.code) {l : String} (hl : i.jump = some l) {q : Nat}
    (hq : lineOf P l = some q) (hsp : m'.get .sp = below (e.get .sp) f.frame)
    (hfp : m'.get MyLang.fp = e.get .sp) : GoesOn f m' q := by
  obtain ⟨c1, c2, hcode, hframed⟩ := f.framed.split_label (f.inside i hi l hl)
  have hline := (f.codeAt_rest hcode).1
  have heq := Option.some.inj (hq.symm.trans (lineOf_eq hnd hline))
  exact ⟨⟨c1, .label l :: c2, hcode, heq, hframed⟩, hsp, hfp⟩

/-- A step in the prologue. -/
theorem Running.head_step (f : FuncStands r P e.pc) {k : Nat} (hk : k < headLength)
    (hrun : runFor L k e = some m) (hpc : m.pc = e.pc + k) (hs : step L m = some m') :
    Running r L e m' := by
  have hrun' := runFor_last hrun hs
  by_cases hend : k + 1 < headLength
  · obtain ⟨x, hx⟩ : ∃ x, P[m.pc]? = some x := by
      cases hx : P[m.pc]? with
      | none => simp [step, hx] at hs
      | some x => exact ⟨x, rfl⟩
    obtain ⟨hplain, hjump⟩ := f.head_plain hk hpc hx
    refine Running.head f (k + 1) hend hrun' ?_
    cases x with
    | label l =>
        rw [step_label hx] at hs
        obtain rfl := Option.some.inj hs
        rw [Machine.next_pc, hpc, Nat.add_assoc]
    | instr i =>
        have hcall : ∀ l, i ≠ .jal l ∧ i ≠ .call l := by
          intro l
          constructor <;> (rintro rfl; simp [Line.plain] at hplain)
        have hret : ∀ rs, i ≠ .jalr rs := by
          rintro rs rfl
          simp [Line.plain] at hplain
        rcases step_pc hx hs hcall hret with hpc' | ⟨l, hl, -⟩
        · rw [hpc', hpc, Nat.add_assoc]
        · simp [hjump i rfl] at hl
  · -- the prologue is done
    obtain ⟨b, hb, hbpc, hbfp, hbsp, -⟩ := f.head_done (L := L)
    rw [show headLength = k + 1 by omega, hrun'] at hb
    obtain rfl := Option.some.inj hb
    exact Running.body f ⟨⟨[], f.code, rfl, by simp [hbpc], f.framed⟩, hbsp, hbfp⟩

/-- A step in the body that is no call and no return. -/
theorem Running.body_step (hnd : (labels P).Nodup) (f : FuncStands r P e.pc) (h : GoesOn f m m.pc)
    {x : Line} (hx : P[m.pc]? = some x) (hplain : x.plain = true) (hs : step L m = some m') :
    Running r L e m' := by
  obtain ⟨⟨pre, rest, hcode, hpc, hframed⟩, hsp, hfp⟩ := h
  have hc := f.codeAt_rest hcode
  rw [← hpc] at hc
  cases hframed with
  | nil =>
      rw [List.nil_append, funcEndCode] at hc
      by_cases hvoid : f.type = "void"
      · rw [if_pos hvoid] at hc
        exact Running.leaving f (Leaving.of_step f.large hc hsp hs)
      · rw [if_neg hvoid] at hc
        obtain rfl := Option.some.inj (hx.symm.trans hc.1)
        simp [Line.plain] at hplain
  | exit _ =>
      have hexit : CodeAt P m.pc (epilogueCode f.frame ++ [.instr (.jalr .ra)]) := by
        rw [List.append_assoc, codeAt_append, List.cons_append] at hc
        rw [codeAt_append]
        exact ⟨hc.1, hc.2.1, trivial⟩
      exact Running.leaving f (Leaving.of_step f.large hexit hsp hs)
  | @line x' rest hkeep hrest =>
      obtain rfl := Option.some.inj (hx.symm.trans hc.1)
      refine Running.body f ?_
      cases x with
      | label l =>
          rw [step_label hx] at hs
          obtain rfl := Option.some.inj hs
          exact GoesOn.next hcode hrest hpc hsp hfp
      | instr i =>
          have hexec : i.exec L m = some m' := by rw [← step_instr hx, hs]
          have hcall : ∀ l, i ≠ .jal l ∧ i ≠ .call l := by
            intro l
            constructor <;> (rintro rfl; simp [Line.plain] at hplain)
          have hret : ∀ rs, i ≠ .jalr rs := by
            rintro rs rfl
            simp [Line.plain] at hplain
          have hdest : i.dest ≠ some .sp ∧ i.dest ≠ some fp := by
            cases i <;> first | exact hkeep | simp [Line.plain] at hplain
          have hsp' := (Instr.get_of_exec hexec hdest.1).trans hsp
          have hfp' := (Instr.get_of_exec hexec hdest.2).trans hfp
          -- a line of the body is a plain one, a jump within it, or the beginning of a way
          -- out
          rcases step_pc hx hs hcall hret with hpc' | ⟨l, hl, hline⟩
          · rw [hpc']
            exact GoesOn.next hcode hrest hpc hsp' hfp'
          · exact GoesOn.jump hnd (by simp [hcode]) hl hline hsp' hfp'

/-- **A step that is no call and no return keeps an activation running.** -/
theorem Running.plain (hnd : (labels P).Nodup) (h : Running r L e m) {x : Line}
    (hx : P[m.pc]? = some x) (hplain : x.plain = true) (hs : step L m = some m') :
    Running r L e m' := by
  cases h with
  | head f k hk hrun hpc => exact Running.head_step f hk hrun hpc hs
  | body f h => exact Running.body_step hnd f h hx hplain hs
  | leaving f h => exact Running.leaving f (h.step f.large hx hplain hs)

/-- The functions of a program stand in its code. -/
def FuncsStand (r : SemaResult) (P : List Line) : Prop :=
  ∀ name ∈ funcNames r.prog, ∃ p, P[p]? = some (.label name) ∧ Nonempty (FuncStands r P p)

/-- **A call is one of a function of the program, and the activation waits behind it.** -/
theorem Running.call (hnd : (labels P).Nodup) (hfuncs : FuncsStand r P) (h : Running r L e m)
    {x : Line} (hx : P[m.pc]? = some x) (hcall : x.isCall = true) (hs : step L m = some m') :
    Running r L m' m' ∧ Waits r L e m' := by
  cases h with
  | head f k hk hrun hpc =>
      obtain ⟨hplain, -⟩ := f.head_plain hk hpc hx
      simp [Line.plain_of_isCall hcall] at hplain
  | leaving f h =>
      cases h with
      | ra hc | fp hc | sp hc =>
          obtain rfl := Option.some.inj (hx.symm.trans hc.1)
          simp [Line.isCall] at hcall
  | body f h =>
      obtain ⟨⟨pre, rest, hcode, hpc, hframed⟩, hsp, hfp⟩ := h
      have hc := f.codeAt_rest hcode
      rw [← hpc] at hc
      cases hframed with
      | nil =>
          rw [List.nil_append, funcEndCode] at hc
          split at hc <;>
            obtain rfl := Option.some.inj (hx.symm.trans hc.1) <;> simp [Line.isCall] at hcall
      | exit _ =>
          obtain rfl := Option.some.inj (hx.symm.trans hc.1)
          simp [Line.isCall] at hcall
      | @line x' rest hkeep hrest =>
          obtain rfl := Option.some.inj (hx.symm.trans hc.1)
          obtain ⟨l, rfl⟩ : ∃ l, x = .instr (.jal l) := by
            cases x with
            | label l => simp [Line.isCall] at hcall
            | instr i =>
                cases i with
                | jal l => exact ⟨l, rfl⟩
                | call l => exact absurd hkeep id
                | _ => simp [Line.isCall] at hcall
          obtain ⟨q, hq, ⟨g⟩⟩ := hfuncs l hkeep
          rw [step_instr hx, Instr.exec, lineOf_eq hnd hq] at hs
          obtain rfl := Option.some.inj hs
          have hlt := (List.getElem?_eq_some_iff.mp hx).1
          refine ⟨FuncStands.running g, f, m.pc + 1, hlt, GoesOn.next hcode hrest hpc ?_ ?_, ?_⟩
          · rw [Machine.goto_get, Machine.get_set_ne _ _ (by simp), hsp]
          · rw [Machine.goto_get, Machine.get_set_ne _ _ (by simp), hfp]
          · rw [Machine.goto_get, Machine.get_set_self _ _ _ (by simp)]

/--
**At the jump that leaves a function the caller has its own again, unless control has fallen
off the end.**
-/
theorem Running.restores (h : Running r L e m) {rs : Reg} (hx : P[m.pc]? = some (.instr (.jalr rs)))
    (hwell : LeavesWell r L e m) : rs = .ra ∧ Restores e m := by
  obtain ⟨hkept, hfalls⟩ := hwell
  cases h with
  | head f k hk hrun hpc =>
      obtain ⟨hplain, -⟩ := f.head_plain hk hpc hx
      simp [Line.plain] at hplain
  | leaving f h =>
      obtain ⟨b, hb, -, -, -, hra, hfp⟩ := f.head_done (L := L)
      obtain ⟨hkra, hkfp⟩ := hkept b hb
      cases h with
      | ra hc | fp hc =>
          have hline := hx.symm.trans hc.1
          simp at hline
      | sp hc hsp hmra hmfp =>
          obtain ⟨rfl⟩ := Instr.jalr.inj (Line.instr.inj (Option.some.inj (hx.symm.trans hc.1)))
          refine ⟨rfl, hsp, ?_, ?_⟩
          · rw [hmfp, hkfp, hfp]
          · rw [hmra, hkra, hra]
  | body f h =>
      obtain ⟨⟨pre, rest, hcode, hpc, hframed⟩, -, -⟩ := h
      have hc := f.codeAt_rest hcode
      rw [← hpc] at hc
      cases hframed with
      | nil =>
          rw [List.nil_append, funcEndCode] at hc
          by_cases hvoid : f.type = "void"
          · rw [if_pos hvoid] at hc
            have hline := hx.symm.trans hc.1
            simp at hline
          · refine absurd ?_ hfalls
            rw [hpc]
            rw [List.append_nil] at hcode
            rw [← hcode]
            exact f.falls hvoid
      | exit _ =>
          have hline := hx.symm.trans hc.1
          simp at hline
      | @line x' rest hkeep hrest =>
          obtain rfl := Option.some.inj (hx.symm.trans hc.1)
          exact absurd hkeep id

/-- **Behind a call the activation that has waited goes on.** -/
theorem Waits.ret (hwait : Waits r L e e') (h : Running r L e' m) {rs : Reg}
    (hx : P[m.pc]? = some (.instr (.jalr rs))) (hwell : LeavesWell r L e' m)
    (hs : step L m = some m') : Running r L e m' := by
  obtain ⟨f, q, hq, hgoes, hra⟩ := hwait
  obtain ⟨rfl, hrest⟩ := h.restores hx hwell
  rw [step_instr hx, Instr.exec, hrest.ra, hra, L.decode_addr q hq] at hs
  obtain rfl := Option.some.inj hs
  refine Running.body f ⟨hgoes.code, ?_, ?_⟩
  · rw [Machine.goto_get, Machine.get_set_ne _ _ (by simp), hrest.sp, hgoes.sp]
  · rw [Machine.goto_get, Machine.get_set_ne _ _ (by simp), hrest.fp, hgoes.fp]

/-! ### Runs

The invariant of the run is that of each of its activations.
-/

/-- A name among those of functions is the name of one. -/
theorem exists_of_mem_funcNames {prog : List AstNode} {name : String} (h : name ∈ funcNames prog) :
    ∃ type body params symbol, .funcDef name type body params symbol ∈ prog := by
  induction prog with
  | nil => simp [funcNames] at h
  | cons node rest ih =>
      have hrest : name ∈ funcNames rest → ∃ type body params symbol,
          .funcDef name type body params symbol ∈ node :: rest := by
        intro h
        obtain ⟨type, body, params, symbol, hmem⟩ := ih h
        exact ⟨type, body, params, symbol, List.mem_cons_of_mem _ hmem⟩
      cases node with
      | funcDef value type body params symbol =>
          rcases List.mem_cons.mp h with rfl | h
          · exact ⟨type, body, params, symbol, List.mem_cons_self⟩
          · exact hrest h
      | _ => exact hrest h

/--
**In every run from the entry of a function in which no function that is not `void` is left by
falling off its end, every function is left with the stack pointer, the frame pointer and the
return address it was entered with.**
-/
theorem exits_restore {uninit : Int} {arena : SymId → Nat} {tokens : List Token}
    (hacc : Accepted uninit arena tokens r) (hasm : genAsm r = .ok P) (hnd : (labels P).Nodup)
    (L : Layout P.length) {name : String} (hname : name ∈ funcNames r.prog) {m0 : Machine}
    (hentry : lineOf P name = some m0.pc) {s : List Machine}
    (hrun : OpenRun L (LeavesWell r L) m0 (e :: s) m) {rs : Reg}
    (hexit : P[m.pc]? = some (.instr (.jalr rs))) (hwell : LeavesWell r L e m) : Restores e m := by
  have hfuncs : FuncsStand r P := by
    intro name hname
    obtain ⟨type, body, params, symbol, hmem⟩ := exists_of_mem_funcNames hname
    exact hacc.funcStands hasm hmem
  obtain ⟨p, hp, ⟨f⟩⟩ := hfuncs name hname
  obtain rfl : p = m0.pc := Option.some.inj ((lineOf_eq hnd hp).symm.trans hentry)
  have hinv := hrun.invariant f.running (fun h hx hplain hs => h.plain hnd hx hplain hs)
    (fun h hx hcall hs => h.call hnd hfuncs hx hcall hs)
    (fun hwait h hx hok hs => hwait.ret h hx hok hs)
  exact ((hinv.1 e s rfl).restores hexit hwell).2

/-- `<type> main() { }` -/
def emptyMainTokens (type : String) : List Token :=
  [tok .type type, tok .ident "main", tok .lparen "(", tok .rparen ")", tok .lbrace "\x7b",
    tok .rbrace "\x7d"]

/-- Its code. -/
def emptyMainCode (type : String) : List Line :=
  startCode ++ .label "main" :: (prologueCode 112 ++ funcEndCode type 112)

/-- A machine at the label of `main`, all registers and memory zero. -/
def atMain : Machine := { pc := 4, regs := fun _ => 0, mem := fun _ => 0 }

theorem exits_restore_void :
    ∃ r m, ∃ L : Layout (emptyMainCode "void").length, Accepted 0 (fun _ => 0)
      (emptyMainTokens "void") r ∧
      genAsm r = .ok (emptyMainCode "void") ∧ OpenRun L (LeavesWell r L) atMain [atMain] m ∧
      (emptyMainCode "void")[m.pc]? = some (.instr (.jalr .ra)) ∧ Restores atMain m := by
  obtain ⟨r, hacc, hasm, hprog⟩ : ∃ r, Accepted 0 (fun _ => 0) (emptyMainTokens "void") r ∧
      genAsm r = .ok (emptyMainCode "void") ∧
        r.prog = [.funcDef "main" "void" (.compStmt []) [] (some 0)] :=
    ⟨_, ⟨_, _, rfl, rfl⟩, rfl, rfl⟩
  let L : Layout (emptyMainCode "void").length := Layout.ofLines _ (by decide)
  obtain ⟨b, hb, hpc⟩ : ∃ b, OpenRun.plainFor L headLength atMain = some b ∧ b.pc = 17 :=
    ⟨_, rfl, rfl⟩
  have hrun : OpenRun L (LeavesWell r L) atMain [atMain] b := OpenRun.start.of_plainFor hb
  -- the three instructions before the jump
  let m1 := (b.set .ra (loadWord b.mem (b.get .sp + BitVec.ofInt 32 (sizeToInt 108)))).next
  let m2 := (m1.set fp (loadWord m1.mem (m1.get .sp + BitVec.ofInt 32 (sizeToInt 104)))).next
  let m3 := (m2.set .sp (m2.get .sp + BitVec.ofInt 32 112)).next
  have hrun1 : OpenRun L (LeavesWell r L) atMain [atMain] m1 := by
    have hx : (emptyMainCode "void")[b.pc]? = some (.instr (.lw .ra (sizeToInt 108) .sp)) := by
      rw [hpc]; rfl
    exact hrun.plain hx rfl (step_instr hx)
  have hrun2 : OpenRun L (LeavesWell r L) atMain [atMain] m2 := by
    have hx : (emptyMainCode "void")[m1.pc]? = some (.instr (.lw fp (sizeToInt 104) .sp)) := by
      rw [show m1.pc = b.pc + 1 from rfl, hpc]; rfl
    exact hrun1.plain hx rfl (step_instr hx)
  have hrun3 : OpenRun L (LeavesWell r L) atMain [atMain] m3 := by
    have hx : (emptyMainCode "void")[m2.pc]? = some (.instr (.addi .sp .sp 112)) := by
      rw [show m2.pc = b.pc + 2 from rfl, hpc]; rfl
    exact hrun2.plain hx rfl (step_instr hx)
  have hx : (emptyMainCode "void")[m3.pc]? = some (.instr (.jalr .ra)) := by
    rw [show m3.pc = b.pc + 3 from rfl, hpc]; rfl
  have hwell : LeavesWell r L atMain m3 := by
    refine ⟨fun b' hb' => ?_, ?_⟩
    · rw [OpenRun.runFor_of_plainFor hb] at hb'
      obtain rfl := Option.some.inj hb'
      exact ⟨rfl, rfl⟩
    · have hvoid : ∀ node ∈ r.prog, node.isVoid = true := by rw [hprog]; simp [AstNode.isVoid]
      rw [FallsOff, fallOffLines_void hvoid]
      exact List.not_mem_nil
  have hname : "main" ∈ funcNames r.prog := by rw [hprog]; decide
  have hentry : lineOf (emptyMainCode "void") "main" = some atMain.pc := by decide
  exact ⟨r, m3, L, hacc, hasm, hrun3, hx,
    exits_restore hacc hasm (by decide) L hname hentry hrun3 hx hwell⟩

/-- The end of an `int` function gives nothing back. -/
theorem intMain_not_restores :
    ∃ r m, ∃ L : Layout (emptyMainCode "int").length, Accepted 0 (fun _ => 0)
      (emptyMainTokens "int") r ∧
      genAsm r = .ok (emptyMainCode "int") ∧ OpenRun L (LeavesWell r L) atMain [atMain] m ∧
      (emptyMainCode "int")[m.pc]? = some (.instr (.jalr .ra)) ∧ SlotsKept L atMain m ∧
        ¬ Restores atMain m := by
  obtain ⟨r, hacc, hasm⟩ : ∃ r, Accepted 0 (fun _ => 0) (emptyMainTokens "int") r ∧
      genAsm r = .ok (emptyMainCode "int") := ⟨_, ⟨_, _, rfl, rfl⟩, rfl⟩
  let L : Layout (emptyMainCode "int").length := Layout.ofLines _ (by decide)
  obtain ⟨b, hb, hpc, hsp⟩ : ∃ b, OpenRun.plainFor L headLength atMain = some b ∧ b.pc = 17 ∧
      b.get .sp = -112 :=
    ⟨_, rfl, rfl, rfl⟩
  refine ⟨r, b, L, hacc, hasm,
    OpenRun.start.of_plainFor hb, by rw [hpc]; rfl, fun b' hb' => ?_, fun h => ?_⟩
  · rw [OpenRun.runFor_of_plainFor hb] at hb'
    obtain rfl := Option.some.inj hb'
    exact ⟨rfl, rfl⟩
  · have heq := h.sp
    rw [hsp] at heq
    exact absurd heq (by decide)

end MyLang
