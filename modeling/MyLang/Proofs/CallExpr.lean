/-
The code of expressions with calls does what the expressions do.

`Evaluated` is what is known behind the code of an expression: the frame holds the store
the expression leaves, the result is in its register, and what is still needed is as it
was, the busy temporaries and the slots held for the calls around.  Every store is to a
free slot, one apart from all of these; of the functions called it is assumed that their
code does what the calls do.

Each construct has a lemma of its own (`unaryExpr_runs`, `binExp_runs`, `varAsgn_runs`,
`funcCall_runs`), which takes the statement for its parts and gives it for the whole;
`eval_run` is the induction that puts them together.  What makes the calls work is the
list `held`.  A call in an argument spills to slots that start from a base of its own, so
the slots that the calls around it have filled are carried along as held, and `callExpr`
asks of every call that its slots are apart from them.

The assumption about the functions called (`CallsRun`) is about their first line and about
the stack that is left.  It is discharged in `Proofs/CallProg.lean`, by induction on how
deep the calls of a run are nested.
-/
import MyLang.Callable
import MyLang.Proofs.CallReach

namespace MyLang

open Rv32 ByteMemory

variable {P : List Line} {L : Layout P.length} {m m' m1 m2 : Machine} {S : FrameShape}
  {es : List SymTabEntry}
  {ids : List SymId} {F : Word} {frame room w base n b : Nat} {call : CallRel} {held : List Nat}
  {st st' st1 : AsmState} {reg : Temp} {c : List Line} {σ σ' : Store} {res : Option CInt}
  {mem mem' mem'' : Mem}

/-! ### Free slots

A store to a slot keeps the store of the frame, the slots held and everything above the
frame, if the slot is apart from the variables and from the slots held.
-/

/--
What is needed of the memory of a frame is as before: every store it holds, the slots
`held`, and the words above.
-/
structure Kept (es : List SymTabEntry) (ids : List SymId) (held : List Nat) (F : Word)
    (mem mem' : Mem) : Prop where
  holds : ∀ σ, Holds es ids F σ mem → Holds es ids F σ mem'
  held : ∀ w ∈ held, loadWord mem' (below F w) = loadWord mem (below F w)
  above : KeptAbove F mem mem'

namespace Kept

theorem refl : Kept es ids held F mem mem :=
  ⟨fun _ h => h, fun _ _ => rfl, KeptAbove.refl F mem⟩

theorem trans (h : Kept es ids held F mem mem') (h' : Kept es ids held F mem' mem'') :
    Kept es ids held F mem mem'' :=
  ⟨fun σ hσ => h'.holds σ (h.holds σ hσ), fun w hw => (h'.held w hw).trans (h.held w hw),
    h.above.trans h'.above⟩

end Kept

/-- A slot below the frame pointer, apart from the variables and from the slots `held`. -/
structure FreeSlot (es : List SymTabEntry) (ids : List SymId) (held : List Nat) (F : Word)
    (w : Nat) : Prop where
  low : 12 ≤ w
  fits : w + 8 ≤ F.toNat
  ids : ∀ id ∈ ids, slotsApart (slotAt es id) w = true
  held : ∀ h ∈ held, slotsApart h w = true

/-- A slot that can be held: it is in memory, and apart from the variables that are assigned. -/
structure Holdable (S : FrameShape) (F : Word) (w : Nat) : Prop where
  low : localsBase + registerSize ≤ w
  fits : w + 8 ≤ F.toNat
  locals : ∀ l ∈ S.localSlots, slotsApart w l = true

/-- A store to a free slot. -/
theorem FreeSlot.store {locals : List SymId} (hS : FrameSlots es locals ids frame)
    (hroom : frame ≤ F.toNat) (hheld : ∀ h ∈ held, Holdable S F h) (h : FreeSlot es ids held F w)
    (v : Word) : Kept es ids held F mem (storeWord mem (below F w) v) := by
  have hlt := F.isLt
  have hfits := h.fits
  refine ⟨fun σ hσ id hid x hx => ?_, fun a ha => ?_, KeptAbove.store h.low (by omega) v⟩
  · have hb := (hS.bounds id hid).2
    have hapart := slotsApart_iff.mp (h.ids id hid)
    -- a variable has its word still, since the slot is apart from its own
    rw [loadWord_storeWord_apart _ _ (below_apart F (by omega) (by omega) hapart.symm),
      hσ id hid x hx]
  · have hfit := (hheld a ha).fits
    have hapart := slotsApart_iff.mp (h.held a ha)
    rw [loadWord_storeWord_apart _ _ (below_apart F (by omega) (by omega) hapart.symm)]

/-- Stores to free slots in a row. -/
theorem kept_storeSlots {locals : List SymId} (hS : FrameSlots es locals ids frame)
    (hroom : frame ≤ F.toNat) (hheld : ∀ h ∈ held, Holdable S F h) {vs : List Word} {off : Nat}
    (h : ∀ w ∈ slotsAfter off vs.length, FreeSlot es ids held F w) :
    Kept es ids held F mem (storeSlots F vs off mem) := by
  induction vs generalizing off mem with
  | nil => exact Kept.refl
  | cons v vs ih =>
      rw [List.length_cons, slotsAfter_succ] at h
      have hfirst : Kept es ids held F mem (storeWord mem (below F (off + registerSize)) v) :=
        (h _ List.mem_cons_self).store hS hroom hheld v
      rw [storeSlots]
      exact hfirst.trans (ih fun w hw => h w (List.mem_cons_of_mem _ hw))

/-- What changes only below the stack pointer keeps the slots above it. -/
theorem Kept.of_agree {locals : List SymId} (hS : FrameSlots es locals ids frame)
    (hroom : frame ≤ F.toNat) (hsaved : 8 ≤ frame)
    (hheld : ∀ h ∈ held, registerSize ≤ h ∧ h ≤ frame)
    (h : ∀ a : Word, (below F frame).toNat ≤ a.toNat → mem' a = mem a) :
    Kept es ids held F mem mem' := by
  refine ⟨fun σ hσ id hid x hx => ?_, fun w hw => ?_, fun a ha => ?_⟩
  · have hb := hS.bounds id hid
    rw [loadWord_of_agree hroom (by omega) (by omega) h, hσ id hid x hx]
  · exact loadWord_of_agree hroom (hheld w hw).1 (hheld w hw).2 h
  · refine h a ?_
    rw [below_toNat hroom]
    omega

/-! ### The frame of a function and the functions it calls

A function that has come back has left the frame alone from the stack pointer up, and has
its result in `a0`.  The words below the stack pointer are its own to use.
-/

/-- A function has come back with what it returns. -/
structure Returned (P : List Line) (res : Option CInt) (m m' : Machine) : Prop where
  exit : P[m'.pc]? = some (.instr (.jalr .ra))
  value : ∀ v, res = some v → m'.get (.a 0) = v.word
  ra : m'.get .ra = m.get .ra
  sp : m'.get .sp = m.get .sp
  fp : m'.get fp = m.get fp
  mem : ∀ a : Word, (m.get .sp).toNat ≤ a.toNat → m'.mem a = m.mem a

/-- With `room` bytes of stack the code of the functions does what their calls do. -/
def CallsRun (L : Layout P.length) (room : Nat) (call : CallRel) : Prop :=
  ∀ name id args res, call name id args res → ∃ p, lineOf P name = some p ∧
    ∀ m : Machine, m.pc = p → room ≤ (m.get .sp).toNat →
      (∀ (i : Fin argLength) v, args[(i : Nat)]? = some v → m.get (.a i) = v.word) →
      ∃ m', Runs L m m' ∧ Returned P res m m'

/--
What is fixed while the code of a function runs that may call others: its frame, where its
variables are, and the stack that is left for the functions it calls.
-/
structure CallContext (L : Layout P.length) (S : FrameShape) (es : List SymTabEntry) (F : Word)
    (room : Nat) (call : CallRel) : Prop where
  frame : FrameContext P S.frames S.entries es S.locals S.ids S.func S.frame F
  stack : S.frame + room ≤ F.toNat
  slots : ∀ id ∈ S.ids, slotAt es id + registerSize ≤ localsBase ∨ slotAt es id ∈ S.localSlots
  calls : CallsRun L room call
  callee : ∀ name id args res, call name id args res →
    calleeBase S.entries S.frames (some id) + registerSize * (tempLength + argLength) ≤ room

/--
A jump to a function that leaves the next line in `ra` comes back to that line with what the
function returns.
-/
theorem CallsRun.jump_run {i : Instr} {name : String} {id : SymId} {args : List CInt}
    (h : CallsRun L room call) (hi : i = .jal name ∨ i = .call name) (hcall : call name id args res)
    (hc : P[m.pc]? = some (.instr i)) (hroom : room ≤ (m.get .sp).toNat)
    (hargs : ∀ (i : Fin argLength) v, args[(i : Nat)]? = some v → m.get (.a i) = v.word) :
    ∃ m', Runs L m m' ∧ m'.pc = m.pc + 1 ∧ m'.get .sp = m.get .sp ∧ m'.get fp = m.get fp ∧
      (∀ v, res = some v → m'.get (.a 0) = v.word) ∧
      ∀ a : Word, (m.get .sp).toNat ≤ a.toNat → m'.mem a = m.mem a := by
  obtain ⟨p, hp, hrun⟩ := h name id args res hcall
  have hlt : m.pc < P.length := (List.getElem?_eq_some_iff.mp hc).1
  let entry := (m.set .ra (L.addr (m.pc + 1))).goto p
  have hjump : Runs L m entry := by
    refine Runs.one ?_
    rw [step_instr hc]
    rcases hi with rfl | rfl <;> rw [Instr.exec, hp] <;> rfl
  have hentry : ∀ r, r ≠ .ra → entry.get r = m.get r := fun r hr => Machine.get_set_ne m _ hr
  have hra : entry.get .ra = L.addr (m.pc + 1) := Machine.get_set_self m _ _ (by simp)
  obtain ⟨back, hruns, hback⟩ := hrun entry rfl (by
    rw [hentry _ (by simp)]
    exact hroom) fun i v hv => (hentry _ (by simp)).trans (hargs i v hv)
  let after := (back.set .ra (L.addr (back.pc + 1))).goto (m.pc + 1)
  have hret : Runs L back after := by
    refine Runs.one ?_
    rw [step_instr hback.exit, Instr.exec, hback.ra, hra, L.decode_addr _ hlt]
  have hafter : ∀ r, r ≠ .ra → after.get r = back.get r := fun r hr => Machine.get_set_ne back _ hr
  refine ⟨after, hjump.trans (hruns.trans hret), rfl, ?_, ?_, fun v hv => ?_,
    fun a ha => hback.mem a ?_⟩
  · rw [hafter _ (by simp), hback.sp, hentry _ (by simp)]
  · rw [hafter _ (by simp), hback.fp, hentry _ (by simp)]
  · rw [hafter _ (by simp)]
    exact hback.value v hv
  · rw [hentry _ (by simp)]
    exact ha

/-- Where a call spills to does not depend on what the generator writes into the entries. -/
theorem calleeBase_fixed {entries : List SymTabEntry} {frames : List StackFrame}
    (h : es.map SymTabEntry.fixed = entries.map SymTabEntry.fixed) (symbol : Option SymId) :
    calleeBase es frames symbol = calleeBase entries frames symbol := by
  have hframe : (entryOf es symbol).bind SymTabEntry.frame
      = (entryOf entries symbol).bind SymTabEntry.frame := by
    cases symbol with
    | none => rfl
    | some id =>
        have hid := congrArg (·[id]?) h
        simp only [List.getElem?_map] at hid
        rw [entryOf_some, entryOf_some]
        cases he : es[id]? with
        | none =>
            rw [he, Option.map_none, eq_comm, Option.map_eq_none_iff] at hid
            rw [hid]
        | some e =>
            rw [he, Option.map_some, eq_comm, Option.map_eq_some_iff] at hid
            obtain ⟨e', he', hfixed⟩ := hid
            rw [he']
            have hf := congrArg SymTabEntry.frame hfixed
            exact hf.symm
  rw [calleeBase, calleeBase, hframe]

/-- An expression without calls has the value it has in a program without calls. -/
theorem Eval.core {entries : List SymTabEntry} {locals : List SymId} {node : AstNode}
    (hcore : node.coreExpr entries locals ids = true) (h : Eval entries call node σ res σ') :
    ∃ v, res = some v ∧ evalExpr entries node σ = some (v, σ') := by
  induction hcore using AstNode.coreExpr_induct generalizing σ σ' res with
  | intConst value =>
      cases h with
      | intConst hv => exact ⟨_, rfl, by simp [evalExpr, hv]⟩
  | ident value id =>
      cases h with
      | ident hv => exact ⟨_, rfl, by simp [evalExpr, hv]⟩
  | binExp value opType left right _ _ _ _ ihl ihr =>
      cases h with
      | shortcut hx hz =>
          obtain ⟨_, heq, hl⟩ := ihl hx
          obtain rfl := Option.some.inj heq
          exact ⟨_, rfl, by simp [evalExpr, hl, hz]⟩
      | binExp hx hnone hy hz =>
          obtain ⟨_, heq, hl⟩ := ihl hx
          obtain rfl := Option.some.inj heq
          obtain ⟨_, heq, hr⟩ := ihr hy
          obtain rfl := Option.some.inj heq
          exact ⟨_, rfl, by simp [evalExpr, hl, hnone, hr, hz]⟩
  | unaryExpr postfixExpr value opType _ _ ih =>
      cases h with
      | not hx =>
          obtain ⟨_, heq, he⟩ := ih hx
          obtain rfl := Option.some.inj heq
          exact ⟨_, rfl, by simp [evalExpr, he]⟩
  | varAsgn value id rval _ _ _ ih =>
      cases h with
      | varAsgn hx =>
          obtain ⟨_, heq, he⟩ := ih hx
          obtain rfl := Option.some.inj heq
          exact ⟨_, rfl, by simp [evalExpr, he]⟩

theorem EvalAll.length_eq {entries : List SymTabEntry} {nodes : List AstNode} {vs : List CInt}
    (h : EvalAll entries call nodes σ vs σ') : vs.length = nodes.length := by
  induction nodes generalizing σ vs with
  | nil =>
      cases h
      rfl
  | cons node nodes ih =>
      cases h with
      | cons _ hrest => rw [List.length_cons, List.length_cons, ih hrest]

/-! ### Behind an expression

The operands of an operator are evaluated one after the other, the second while the first
is in a register that is busy.  The right operand of `&&` and `||` is evaluated in any
case, so where the meaning skips it, it has to be without effect: it is `quiet`.
-/

/-- What the code of an expression leaves. -/
structure Evaluated (L : Layout P.length) (S : FrameShape) (es : List SymTabEntry) (F : Word)
    (held : List Nat) (free : Temp → Bool) (σ : Store) (res : Option CInt) (reg : Temp) (p : Nat)
    (m m' : Machine) : Prop where
  runs : Runs L m m'
  pc : m'.pc = p
  inFrame : InFrame es S.ids S.frame F σ m'
  value : ∀ v, res = some v → m'.get (.t reg) = v.word
  temps : ∀ i, free i = false → m'.get (.t i) = m.get (.t i)
  held : ∀ w ∈ held, loadWord m'.mem (below F w) = loadWord m.mem (below F w)
  above : KeptAbove F m.mem m'.mem

/-- The code of an expression does what the expression does. -/
def ExprRuns (L : Layout P.length) (S : FrameShape) (es : List SymTabEntry) (F : Word)
    (call : CallRel) (node : AstNode) : Prop :=
  ∀ ⦃held st reg st' c m σ res σ'⦄, node.callExpr S held st.busy.length = true →
    (∀ h ∈ held, Holdable S F h) → evalAsm S.frames node st = .ok (reg, st', c) → st.entries = es →
    CodeAt P m.pc c → InFrame es S.ids S.frame F σ m → Eval S.entries call node σ res σ' →
    ∃ m', Evaluated L S es F held st.free σ' res reg (m.pc + c.length) m m'

/-- The code of `!`, if that of its operand does what it should. -/
theorem unaryExpr_runs {value : String} {opType : TokenType} {postfixExpr : AstNode}
    (he : ExprRuns L S es F call postfixExpr) :
    ExprRuns L S es F call (.unaryExpr postfixExpr value opType) := by
  intro held st reg st' c m σ res σ' hcall hheld hgen hes hc hm hv
  rw [AstNode.callExpr] at hcall
  rw [evalAsm] at hgen
  obtain ⟨rfl, tmp, st1, c1, hr, htmp, rfl, rfl⟩ := evalUnaryExpr_eq_ok.mp hgen
  have ha : Allocs st reg (st.take reg) := Allocs.of_first hr
  rw [codeAt_append] at hc
  cases hv with
  | not hx =>
      rw [← ha.busy_length] at hcall
      obtain ⟨m1, h1⟩ := he hcall hheld htmp hes hc.1 hm hx
      have hc2 : CodeAt P m1.pc [.instr (.seqz (.t reg) (.t tmp))] := by
        rw [h1.pc]
        exact hc.2
      refine ⟨_, h1.runs.trans (runs_instr hc2 rfl), ?_, ⟨?_, ?_, h1.inFrame.holds⟩, fun v hv => ?_,
        fun i hi => ?_, h1.held, h1.above⟩
      · rw [Machine.next_pc, Machine.set_pc, h1.pc, List.length_append]
        rfl
      · rw [get_set_next_ne (by simp), h1.inFrame.fp]
      · rw [get_set_next_ne (by simp), h1.inFrame.sp]
      · rw [get_set_next_temp, h1.value _ rfl, ← Option.some.inj hv, CInt.word_ofBool]
        simp only [CInt.word_eq_zero, ofBool]
      · have hne : Reg.t i ≠ .t reg := by
          intro heq
          rw [Reg.t.inj heq, ha.was_free] at hi
          simp at hi
        rw [get_set_next_ne hne, h1.temps i (ha.busy_of_busy hi)]

/-- The argument registers are loaded from the slots after `off`. -/
theorem loadArgs_run {regs : List (Fin argLength)} {off : Nat} (hnd : regs.Nodup)
    (hc : CodeAt P m.pc (loadCode (regs.map .a) off)) :
    ∃ m', Runs L m m' ∧ m'.pc = m.pc + regs.length ∧ m'.mem = m.mem ∧
      (∀ r, (∀ i ∈ regs, r ≠ .a i) → m'.get r = m.get r) ∧
      ∀ (k : Nat) i, regs[k]? = some i →
        m'.get (.a i) = loadWord m.mem (below (m.get fp) (off + registerSize * (k + 1))) := by
  induction regs generalizing m off with
  | nil => exact ⟨m, Runs.refl m, rfl, rfl, fun _ _ => rfl, by simp⟩
  | cons x regs ih =>
      rw [List.nodup_cons] at hnd
      rw [List.map_cons, loadCode] at hc
      let m1 := (m.set (.a x) (loadWord m.mem (m.get fp +
        BitVec.ofInt 32 (-((off + registerSize : Nat) : Int))))).next
      have hfp : m1.get fp = m.get fp := get_set_next_ne (by simp)
      obtain ⟨m2, hr, hpc, hmem, hother, hval⟩ := ih (m := m1) hnd.2 (codeAt_set_next _ _ hc)
      refine ⟨m2, (runs_instr hc rfl).trans hr, ?_, hmem, fun r hr => ?_, fun k i hk => ?_⟩
      · rw [hpc, List.length_cons]
        show m.pc + 1 + regs.length = _
        omega
      · rw [hother r fun i hi => hr i (List.mem_cons_of_mem _ hi)]
        exact get_set_next_ne (hr x List.mem_cons_self)
      · cases k with
        | zero =>
            obtain rfl : x = i := by simpa using hk
            rw [hother (.a x) fun j hj heq => hnd.1 (Reg.a.inj heq ▸ hj), Nat.zero_add, Nat.mul_one,
              ← add_ofInt_neg]
            exact Machine.get_set_self m _ _ (by simp)
        | succ k =>
            rw [hval k i (by simpa using hk), hfp, show off + registerSize * (k + 1 + 1)
              = off + registerSize + registerSize * (k + 1) by
                simp only [registerSize]
                omega]
            rfl

section Run

variable (hC : CallContext L S es F room call)

include hC

/-- An expression without calls and assignments changes nothing but its register. -/
theorem quiet_run {node : AstNode} (hcore : node.coreExpr S.entries S.locals S.ids = true)
    (hassigned : node.assigned = []) (hgen : evalAsm S.frames node st = .ok (reg, st', c))
    (hes : st.entries = es) (hc : CodeAt P m.pc c) (hm : InFrame es S.ids S.frame F σ m) :
    ∃ m', ExprDone L reg st.free ((denote es F node m.mem).1, m.mem) c.length m m' ∧
      Evaluated L S es F held st.free σ none reg (m.pc + c.length) m m' := by
  obtain ⟨m', h⟩ := evalAsm_run (L := L) (AstNode.callFree_of_coreExpr hcore) hgen hC.frame.nodup hc
  rw [hes, hm.fp] at h
  have hmem : m'.mem = m.mem := h.mem.trans (denote_mem_eq hcore hassigned)
  refine ⟨m', ⟨h.runs, h.pc, h.value, hmem, h.keeps⟩, h.runs, h.pc, ⟨?_, ?_, ?_⟩,
    fun v hv => by simp at hv,
    fun i hi => h.keeps.temp hi, fun w _ => by rw [hmem], fun a _ => by rw [hmem]⟩
  · rw [h.keeps.fp, hm.fp]
  · rw [h.keeps.sp, hm.sp]
  · rw [hmem]
    exact hm.holds

/-- The same with its value. -/
theorem quiet_eval_run {node : AstNode} (hcore : node.coreExpr S.entries S.locals S.ids = true)
    (hassigned : node.assigned = []) (hgen : evalAsm S.frames node st = .ok (reg, st', c))
    (hes : st.entries = es) (hc : CodeAt P m.pc c) (hm : InFrame es S.ids S.frame F σ m)
    (hv : Eval S.entries call node σ res σ') :
    ∃ m', Evaluated L S es F held st.free σ' res reg (m.pc + c.length) m m' := by
  obtain ⟨v, rfl, hval⟩ := hv.core hcore
  obtain ⟨m', hdone, h⟩ : ∃ m', _ ∧ Evaluated L S es F held st.free σ none reg
      (m.pc + c.length) m m' :=
    quiet_run hC hcore hassigned hgen hes hc hm
  obtain ⟨hval, hholds, -⟩ :=
    denote_sound hC.frame.fixed hC.frame.slots hC.frame.room hcore hval hm.holds
  have hmem : m'.mem = m.mem := hdone.mem
  rw [denote_mem_eq hcore hassigned, ← hmem] at hholds
  refine ⟨m', h.runs, h.pc, ⟨h.inFrame.fp, h.inFrame.sp, hholds⟩, fun x hx => ?_, h.temps, h.held,
    h.above⟩
  rw [← Option.some.inj hx]
  exact hdone.value.trans hval

/-- The code of an operator, if those of its operands do what they should. -/
theorem binExp_runs {value : String} {opType : TokenType} {left right : AstNode}
    (hl : ExprRuns L S es F call left) (hr : ExprRuns L S es F call right) :
    ExprRuns L S es F call (.binExp value opType left right) := by
  intro held st reg st' c m σ res σ' hcall hheld hgen hes hc hm hv
  rw [AstNode.callExpr, Bool.and_eq_true] at hcall
  rw [evalAsm] at hgen
  obtain ⟨rl, st1, c1, rr, st2, c2, c3, hleft, hright, hop, rfl⟩ := evalBinExp_opCode hgen
  rw [codeAt_append, codeAt_append] at hc
  obtain ⟨hc1, hc2, hc3⟩ := hc
  have ha := evalAsm_allocs left hleft
  have hb := evalAsm_allocs right hright
  have hbusy : ∀ i, st.free i = false → st2.free i = false :=
    fun i hi => hb.busy_of_busy (ha.busy_of_busy hi)
  -- both operands have been evaluated
  have hdone : ∀ {x : CInt} {y : Word} {z : CInt} {σ2 : Store} {m1 m2 : Machine},
      Evaluated L S es F held st.free σ2 (some x) rl (m.pc + c1.length) m m1 →
      Evaluated L S es F held st1.free σ' none rr (m1.pc + c2.length) m1 m2 → m2.get (.t rr) = y →
      opWord opType x.word y = z.word →
      ∃ m', Evaluated L S es F held st.free σ' (some z) reg
        (m.pc + (c1 ++ (c2 ++ c3)).length) m m' := by
    intro x y z σ2 m1 m2 h1 h2 hy hz
    obtain ⟨m3, h3⟩ := hop.run (L := L) (m := m2) hC.frame.nodup (by
      rw [h2.pc, h1.pc]
      exact hc3)
    have hkeep : ∀ r : Reg, (∀ i, r ≠ .t i) → m3.get r = m2.get r :=
      fun r hr => h3.keeps r (hr rl) fun i hi => absurd hi (hr i)
    refine ⟨m3, h1.runs.trans (h2.runs.trans h3.runs), ?_, ⟨?_, ?_, ?_⟩, fun v hv => ?_,
      fun i hi => ?_, fun w hw => ?_, ?_⟩
    · rw [h3.pc, h2.pc, h1.pc, List.length_append, List.length_append]
      omega
    · rw [hkeep _ (by simp), h2.inFrame.fp]
    · rw [hkeep _ (by simp), h2.inFrame.sp]
    · rw [h3.mem]
      exact h2.inFrame.holds
    · rw [h3.value, h2.temps rl ha.busy, h1.value x rfl, hy, hz, Option.some.inj hv]
    · have hne : Reg.t i ≠ .t rl := by
        intro heq
        rw [Reg.t.inj heq, ha.was_free] at hi
        simp at hi
      rw [h3.keeps _ hne fun j hj => by
        rw [← Reg.t.inj hj]
        exact hbusy i hi, h2.temps i (ha.busy_of_busy hi), h1.temps i hi]
    · rw [h3.mem, h2.held w hw, h1.held w hw]
    · rw [h3.mem]
      exact h1.above.trans h2.above
  cases hv with
  -- the left operand decides: the code of the right one runs all the same, and changes
  -- nothing
  | shortcut hx hz =>
      obtain ⟨m1, h1⟩ := hl hcall.1 hheld hleft hes hc1 hm hx
      have hcore := hcall.2
      rw [if_pos (by simpa using logic_of_shortcut hz), Bool.and_eq_true, List.isEmpty_iff] at hcore
      obtain ⟨m2, -, h2⟩ := quiet_run hC hcore.1 hcore.2 hright (ha.entries.trans hes) (by
        rw [h1.pc]
        exact hc2) h1.inFrame
      exact hdone h1 h2 rfl (opWord_shortcut hz _)
  -- both operands have values
  | binExp hx hnone hy hz =>
      obtain ⟨m1, h1⟩ := hl hcall.1 hheld hleft hes hc1 hm hx
      have hat : CodeAt P m1.pc c2 := by
        rw [h1.pc]
        exact hc2
      obtain ⟨m2, h2⟩ : ∃ m2, Evaluated L S es F held st1.free σ' (some _) rr
          (m1.pc + c2.length) m1 m2 := by
        have hcore := hcall.2
        by_cases hop : opType = .logAnd ∨ opType = .logOr
        · rw [if_pos (by simpa using hop), Bool.and_eq_true, List.isEmpty_iff] at hcore
          exact quiet_eval_run hC hcore.1 hcore.2 hright (ha.entries.trans hes) hat h1.inFrame hy
        · rw [if_neg (by simpa using hop), ← ha.busy_length] at hcore
          exact hr hcore hheld hright (ha.entries.trans hes) hat h1.inFrame hy
      refine hdone h1 ⟨h2.runs, h2.pc, h2.inFrame,
        fun v hv => by simp at hv, h2.temps, h2.held, h2.above⟩
        (h2.value _ rfl) (opWord_sourceOp hz)

/-- The code of an assignment, if that of its right side does what it should. -/
theorem varAsgn_runs {value : String} {id : SymId} {rval : AstNode}
    (hr : ExprRuns L S es F call rval) :
    ExprRuns L S es F call (.varAsgn (.lval .ident (.ident value (some id))) rval) := by
  intro held st reg st' c m σ res σ' hcall hheld hgen hes hc hm hv
  rw [AstNode.callExpr, Bool.and_eq_true, List.contains_iff_mem] at hcall
  obtain ⟨hlocal, hcall⟩ := hcall
  rw [evalAsm] at hgen
  obtain ⟨rl, st1, c1, st2, c2, hleft, hright, rfl, rfl⟩ := evalVarAsgn_eq_ok.mp hgen
  have ha := evalAsm_allocs _ hleft
  have hb := evalAsm_allocs rval hright
  rw [evalAsm] at hleft
  obtain ⟨hfree, rfl, -⟩ := evalLval_code hleft
  rw [hes] at hc
  rw [codeAt_append, codeAt_append] at hc
  obtain ⟨hc1, hc2, hc3⟩ := hc
  -- where the variable is
  have hid := hC.frame.slots.mem_of_local id hlocal
  obtain ⟨e, hent, -⟩ := hC.frame.slots.entry id hid
  have hslot : storeOffset es (some id) = slotAt es id := by
    rw [storeOffset, entryOf_some, slotAt, hent]
    exact (hC.frame.slots.local_slot id hlocal e hent).symm
  have hb12 := hC.frame.slots.bounds id hid
  have hroom := hC.frame.room
  have hlt := F.isLt
  -- the address
  -- the code of the left side puts the offset of the variable into a register
  let m1 :=
    (m.set (.t rl) (m.get .zero + BitVec.ofInt 32 (sizeToInt (storeOffset es (some id))))).next
  have haddr : m1.get (.t rl) = BitVec.ofNat 32 (slotAt es id) := by
    rw [get_set_next_temp, ofInt_sizeToInt, Machine.get_zero, hslot]
    simp
  have hm1 : InFrame es S.ids S.frame F σ m1 :=
    ⟨(get_set_next_ne (by simp)).trans hm.fp, (get_set_next_ne (by simp)).trans hm.sp, hm.holds⟩
  -- the value
  cases hv with
  | varAsgn hx =>
      rename_i v σ1
      rw [← ha.busy_length] at hcall
      obtain ⟨m2, h2⟩ := hr (m := m1) hcall hheld hright (ha.entries.trans hes) hc2 hm1 hx
      -- the store
      rw [List.length_singleton, show m.pc + 1 = m1.pc from rfl, ← h2.pc] at hc3
      let m3 := (m2.set (.t rl) (AluOp.eval .sub (m2.get fp) (m2.get (.t rl)))).next
      have hne : Reg.t reg ≠ .t rl := fun heq => ha.ne hb (Reg.t.inj heq)
      have hreg : m3.get (.t reg) = v.word := (get_set_next_ne hne).trans (h2.value v rfl)
      have hstored : m3.get (.t rl) + BitVec.ofInt 32 0 = below F (slotAt es id) := by
        rw [get_set_next_temp, h2.temps rl ha.busy, haddr, h2.inFrame.fp]
        simp [AluOp.eval, below]
      have hrun : Runs L m2 (m3.store (below F (slotAt es id)) v.word).next := by
        rw [← hstored, ← hreg]
        exact (runs_instr hc3 rfl).trans (runs_instr (m := m3) hc3.2 rfl)
      refine ⟨_, (runs_instr hc1 rfl).trans (h2.runs.trans hrun), ?_, ⟨?_, ?_, ?_⟩, fun x hx => ?_,
        fun i hi => ?_, fun w hw => ?_, ?_⟩
      · rw [Machine.next_pc, Machine.store_pc, Machine.next_pc, Machine.set_pc, h2.pc,
          List.length_append, List.length_append, asgnStore_length]
        show m.pc + 1 + c2.length + 1 + 1 = m.pc + (1 + (c2.length + 2))
        omega
      · have hfp3 : m3.get fp = m2.get fp := get_set_next_ne (by simp)
        exact hfp3.trans h2.inFrame.fp
      · have hsp3 : m3.get .sp = m2.get .sp := get_set_next_ne (by simp)
        exact hsp3.trans h2.inFrame.sp
      · exact h2.inFrame.holds.assign hC.frame.slots hroom hid v
      · rw [← Option.some.inj hx]
        exact hreg
      · have hil : Reg.t i ≠ .t rl := by
          intro heq
          rw [Reg.t.inj heq, hfree] at hi
          simp at hi
        have h3 : m3.get (.t i) = m2.get (.t i) := get_set_next_ne hil
        have h1 : m1.get (.t i) = m.get (.t i) := get_set_next_ne hil
        exact h3.trans ((h2.temps i (ha.busy_of_busy hi)).trans h1)
      · have hw8 := (hheld w hw).fits
        have hlow := (hheld w hw).low
        have hap : w + 4 ≤ slotAt es id ∨ slotAt es id + 4 ≤ w := by
          rcases hC.slots id hid with hpar | hloc
          · simp only [registerSize] at *
            omega
          · exact slotsApart_iff.mp ((hheld w hw).locals _ hloc)
        rw [Machine.next_mem, Machine.store_mem, loadWord_storeWord_apart _ _
          (below_apart F (by omega) (by omega) hap.symm)]
        exact h2.held w hw
      · exact h2.above.trans (KeptAbove.store hb12.1 (by omega) _)

/-! ### Calls

A call fills the slots behind its base: first the busy temporaries, then the arguments,
each when it has been evaluated.  While an argument is evaluated the slots filled before
it are held, and so is everything that was held when the call began.
-/

/-- The slots a call spills to are free, and hold what is put there. -/
theorem spill_free {value : String} {id : SymId} {args : List AstNode} {vs : List CInt} {busy : Nat}
    (hcall : call value id vs res) (hbusy : busy ≤ tempLength) (hargs : args.length ≤ argLength)
    (hbase : localsBase ≤ calleeBase S.entries S.frames (some id))
    (hfits : S.spillFits (some id) held busy args.length = true) :
    ∀ w ∈ slotsAfter (calleeBase S.entries S.frames (some id)) (busy + args.length),
      FreeSlot es S.ids held F w ∧ Holdable S F w := by
  intro w hw
  have hcallee := hC.callee _ _ _ _ hcall
  have hstack := hC.stack
  have hsaved := hC.frame.saved
  rw [FrameShape.spillFits, Bool.and_eq_true, List.all_eq_true] at hfits
  have hapart := List.all_eq_true.mp (hfits.1 w hw)
  obtain ⟨k, hk, hwk⟩ := mem_slotsAfter.mp hw
  simp only [registerSize, argLength, tempLength] at hbusy hargs hcallee hwk
  have hlow : localsBase + 4 ≤ w := by omega
  have hfit : w + 8 ≤ F.toNat := by omega
  refine ⟨⟨Nat.le_trans (by decide) hlow, hfit, fun i hi => ?_, fun h hh => ?_⟩, hlow, hfit,
    fun l hl =>
    hapart l (List.mem_append_right _ hl)⟩
  · rcases hC.slots i hi with hpar | hloc
    · exact slotsApart_iff.mpr (Or.inl (Nat.le_trans hpar (by omega)))
    · rw [slotsApart_comm]
      exact hapart _ (List.mem_append_right _ hloc)
  · rw [slotsApart_comm]
    exact hapart h (List.mem_append_left _ hh)

/--
The code that evaluates the arguments of a call, of whose slots `n` are in use, into the
next ones.
-/
theorem spillArgs_runs {args : List AstNode} {off : Nat} {u : Unit} {vs : List CInt}
    (hargs : ∀ a ∈ args, ExprRuns L S es F call a)
    (h : spillArgs (args.map (evalAsm S.frames)) off st = .ok (u, st', c)) (hes : st.entries = es)
    (hbusy : st.busy = []) (hcall : AstNode.callArgs S args held base n = true)
    (hoff : off = base + registerSize * n) (hheld : ∀ h ∈ held, Holdable S F h)
    (hfree : ∀ w ∈ slotsAfter base (n + args.length), FreeSlot es S.ids held F w ∧ Holdable S F w)
    (hc : CodeAt P m.pc c) (hm : InFrame es S.ids S.frame F σ m)
    (hv : EvalAll S.entries call args σ vs σ') :
    ∃ m', Evaluated L S es F (held ++ slotsAfter base n)
      (fun _ => true) σ' none 0 (m.pc + c.length) m m' ∧
      ∀ (k : Nat) v, vs[k]? = some v → loadWord m'.mem (below F (off + registerSize * (k + 1)))
        = v.word := by
  -- `n` slots are in use; the induction is on the arguments that are still to be evaluated
  induction args generalizing st off c m σ vs n with
  | nil =>
      simp only [List.map_nil, spillArgs, Gen.pure_eq_ok] at h
      obtain ⟨-, rfl, rfl⟩ := h
      cases hv with
      | nil =>
          exact ⟨m, ⟨Runs.refl m, rfl, hm,
            fun v hv => by simp at hv, fun _ _ => rfl, fun _ _ => rfl,
            KeptAbove.refl F m.mem⟩, by simp⟩
  | cons a args ih =>
      rw [List.map_cons, spillArgs_cons_eq_ok] at h
      obtain ⟨r, st1, c1, c3, ha, h, rfl⟩ := h
      rw [codeAt_append] at hc
      rw [AstNode.callArgs, Bool.and_eq_true] at hcall
      have hal := evalAsm_allocs a ha
      cases hv with
      | cons hva hrest =>
          rename_i v σ1 vs
          -- the argument, above the slots in use
          have hheld1 : ∀ h ∈ held ++ slotsAfter base n, Holdable S F h := by
            intro w hw
            rcases List.mem_append.mp hw with hw | hw
            · exact hheld w hw
            · refine (hfree w ?_).2
              rw [slotsAfter_append]
              exact List.mem_append_left _ hw
          obtain ⟨m1, h1⟩ := hargs a (by simp) (by
            rw [hbusy]
            exact hcall.1) hheld1 ha hes hc.1 hm hva
          -- its slot
          obtain rfl := hoff
          have hslot : base + registerSize * n + registerSize
              ∈ slotsAfter base (n + (a :: args).length) :=
            mem_slotsAfter.mpr ⟨n, by simp, by simp only [registerSize]; omega⟩
          obtain ⟨hw, -⟩ := hfree _ hslot
          have hkept : Kept es S.ids (held ++ slotsAfter base n) F m1.mem
              (storeWord m1.mem (below F (base + registerSize * n + registerSize)) v.word) := by
            refine FreeSlot.store hC.frame.slots hC.frame.room hheld1 ⟨hw.low, hw.fits, hw.ids,
              fun h hh => ?_⟩ _
            rcases List.mem_append.mp hh with hh | hh
            · exact hw.held h hh
            · obtain ⟨k, hk, rfl⟩ := mem_slotsAfter.mp hh
              rw [slotsApart_iff]
              simp only [registerSize]
              omega
          have hc2 := hc.2
          rw [← h1.pc] at hc2
          let m2 := (m1.store (below F (base + registerSize * n + registerSize)) v.word).next
          have hstep : Runs L m1 m2 := by
            refine runs_instr hc2 ?_
            rw [Instr.exec, add_ofInt_neg, h1.inFrame.fp, h1.value v rfl]
          have hm2 : InFrame es S.ids S.frame F σ1 m2 :=
            ⟨h1.inFrame.fp, h1.inFrame.sp, hkept.holds σ1 h1.inFrame.holds⟩
          -- the other arguments, above this one as well
          obtain ⟨m3, h3, hval⟩ := ih (m := m2) (n := n + 1) (fun b hb => hargs b (by simp [hb])) h
            ((AsmState.release_entries ..).trans (hal.entries.trans hes)) (by
              unfold AsmState.busy
              rw [hal.release]
              exact hbusy) hcall.2 (by simp only [registerSize]; omega) (fun w hw => hfree w (by
              rwa [List.length_cons, Nat.add_comm args.length, ← Nat.add_assoc]))
            (codeAt_store_next _ _ hc2) hm2 hrest
          rw [slotsAfter_append, ← List.append_assoc] at h3
          refine ⟨m3, ⟨h1.runs.trans (hstep.trans h3.runs), ?_, h3.inFrame,
            fun v hv => by simp at hv, fun i hi => by
            simp at hi, fun w hw => ?_, (h1.above.trans hkept.above).trans h3.above⟩,
              fun k x hk => ?_⟩
          · rw [h3.pc, List.length_append, List.length_cons]
            show m1.pc + 1 + c3.length = _
            rw [h1.pc]
            omega
          · rw [h3.held w (List.mem_append_left _ hw), ← h1.held w hw]
            exact hkept.held w hw
          · cases k with
            -- the slot of this argument was held while the others were evaluated
            | zero =>
                obtain rfl : v = x := by simpa using hk
                have hin : base + registerSize * n + registerSize ∈ (held ++ slotsAfter base n) ++
                    slotsAfter (base + registerSize * n) 1 := by simp [slotsAfter]
                rw [Nat.zero_add, Nat.mul_one, h3.held _ hin]
                exact loadWord_storeWord_self _ _ _
            -- the slot of another, counted from the next one on
            | succ k =>
                rw [← hval k x (by simpa using hk)]
                congr 2
                simp only [registerSize]
                omega

/-- The code of a call, if those of its arguments and the function called do what they should. -/
theorem funcCall_runs {value : String} {symbol : Option SymId} {args : List AstNode}
    (hargs : ∀ a ∈ args, ExprRuns L S es F call a) :
    ExprRuns L S es F call (.funcCall value args symbol) := by
  intro held st reg st' c m σ res σ' hcall hheld hgen hes hc hm hv
  have hallocs := evalAsm_allocs _ hgen
  rw [evalAsm] at hgen
  obtain ⟨f⟩ := evalFuncCall_code hgen
  have hbase : calleeBase S.entries S.frames symbol = spillBase f.frame := by
    rw [← calleeBase_fixed hC.frame.fixed, ← hes]
    exact calleeBase_eq f
  have hcode := f.code_eq
  have hspill : spillArgs (args.map (evalAsm S.frames))
    (spillBase f.frame + registerSize * st.busy.length)
      (st.withFree fun _ => true) = .ok ((), f.argState, f.argCode) := by
    rw [← evalAsmList_eq_map]
    exact f.spill
  rw [AstNode.callExpr, Bool.and_eq_true, Bool.and_eq_true, decide_eq_true_eq, hbase] at hcall
  obtain ⟨⟨hcount, hfits⟩, hcall⟩ := hcall
  cases hv with
  | funcCall hvals hres =>
      rename_i id vs
      have hlow : localsBase ≤ spillBase f.frame := Nat.le_add_left ..
      have hbusy : st.busy.length ≤ tempLength := by
        refine (List.length_filter_le _ _).trans ?_
        rw [List.length_finRange]
      have hfree : ∀ w ∈ slotsAfter (calleeBase S.entries S.frames (some id))
        (st.busy.length + args.length),
          FreeSlot es S.ids held F w ∧ Holdable S F w :=
            spill_free hC hres hbusy hcount (by rwa [hbase]) hfits
      rw [hbase] at hfree
      have hcallee := hC.callee _ _ _ _ hres
      rw [hbase] at hcallee
      rw [FrameShape.spillFits, Bool.and_eq_true, hbase] at hfits
      have hinFrame := List.all_eq_true.mp hfits.2
      have hcounts : (evalAsmList S.frames args).length = args.length := by
        rw [evalAsmList_eq_map, List.length_map]
      have hlen := congrArg List.length hcode
      rw [hcode] at hc
      simp only [codeAt_append, codeAt_cons, storeCode_length, loadCode_length, restoreCode_length,
        List.length_map, List.length_append, List.length_cons, List.length_nil, List.length_reverse]
          at hc hlen
      obtain ⟨hc1, hc2, hc3, hjal, hc4, hmv, -⟩ := hc
      change CodeAt P _ (storeCode _ (spillBase f.frame)) at hc1
      change CodeAt P _ (loadCode _ (spillBase f.frame + registerSize * st.busy.length)) at hc3
      change CodeAt P _ (restoreCode _ (spillBase f.frame + registerSize * st.busy.length)) at hc4
      generalize spillBase f.frame = base at *
      -- the busy temporaries
      let words := (st.busy.map Reg.t).map m.get
      have hwords : words.length = st.busy.length := by simp [words]
      let m1 : Machine :=
        { m with pc := m.pc + st.busy.length, mem := storeSlots F words base m.mem }
      have hrun1 : Runs L m m1 := by
        have h := storeCode_run (L := L) hc1
        rw [List.length_map, hm.fp] at h
        exact h
      have hkept1 : Kept es S.ids held F m.mem m1.mem := by
        refine kept_storeSlots hC.frame.slots hC.frame.room hheld fun w hw => (hfree w ?_).1
        rw [hwords] at hw
        rw [slotsAfter_append]
        exact List.mem_append_left _ hw
      have hm1 : InFrame es S.ids S.frame F σ m1 := ⟨hm.fp, hm.sp, hkept1.holds σ hm.holds⟩
      -- the arguments
      obtain ⟨m2, h2, hval2⟩ :=
        spillArgs_runs (m := m1) hC hargs hspill hes (busy_of_all_free rfl) hcall rfl
        hheld hfree hc2 hm1 hvals
      -- the argument registers
      obtain ⟨m3, hrun3, hpc3, hmem3, hother3, hval3⟩ := loadArgs_run (L := L) (m := m2)
        ((List.nodup_finRange _).sublist (List.take_sublist ..)) (by
          rw [h2.pc]
          exact hc3)
      have hfp3 : m3.get fp = F := (hother3 _ (by simp)).trans h2.inFrame.fp
      have hsp3 : m3.get .sp = below F S.frame := (hother3 _ (by simp)).trans h2.inFrame.sp
      have hm3 : InFrame es S.ids S.frame F σ' m3 :=
        ⟨hfp3, hsp3, by rw [hmem3]; exact h2.inFrame.holds⟩
      have hlenvs : vs.length = args.length := hvals.length_eq
      -- the call
      have hpc13 : m3.pc = m.pc + st.busy.length + f.argCode.length
        + ((List.finRange argLength).take
          (evalAsmList S.frames args).length).length := by rw [hpc3, h2.pc]
      rw [← hpc13] at hjal hc4 hmv
      obtain ⟨m4, hrun4, hpc4, hsp4, hfp4, hval4, hmem4⟩ :=
        hC.calls.jump_run (Or.inl rfl) hres hjal (by
        have hstack := hC.stack
        rw [hsp3, below_toNat hC.frame.room]
        omega) fun i v hv => by
        have hi : (i : Nat) < args.length := by
          rw [← hlenvs]
          exact (List.getElem?_eq_some_iff.mp hv).1
        rw [hval3 i i (by
          rw [hcounts, List.getElem?_take_of_lt hi]
          simp), h2.inFrame.fp]
        exact hval2 i v hv
      have hfp4 : m4.get fp = F := hfp4.trans hfp3
      have hkept4 : Kept es S.ids (held ++ slotsAfter base st.busy.length) F m3.mem m4.mem := by
        rw [hsp3] at hmem4
        refine Kept.of_agree hC.frame.slots hC.frame.room hC.frame.saved
          (fun w hw => ⟨?_, ?_⟩) hmem4
        · rcases List.mem_append.mp hw with hw | hw
          · exact Nat.le_trans (Nat.le_add_left ..) (hheld w hw).low
          · obtain ⟨k, -, rfl⟩ := mem_slotsAfter.mp hw
            simp only [registerSize]
            omega
        · simpa using hinFrame w hw
      -- the temporaries
      obtain ⟨m5, hrun5, hpc5, hmem5, hval5, hother5⟩ :=
        restoreCode_run (L := L) (m := m4) st.busy base ((List.nodup_finRange _).filter _) (by
          rw [hpc4]
          exact hc4)
      -- the result
      have hmv5 : P[m5.pc]? = some (.instr (.mv (.t reg) (.a 0))) := by
        rw [hpc5, hpc4]
        exact hmv
      let m6 := (m5.set (.t reg) (m5.get (.a 0))).next
      have hrun6 : Runs L m5 m6 := Runs.one (step_instr hmv5)
      have hkeep6 : ∀ r, (∀ i, r ≠ .t i) → m6.get r = m4.get r := fun r hr =>
        (get_set_next_ne (hr reg)).trans (hother5 r fun i _ => hr i)
      have hmem6 : m6.mem = m4.mem := hmem5
      have hword : ∀ w ∈ held ++ slotsAfter base st.busy.length,
          loadWord m6.mem (below F w) = loadWord m1.mem (below F w) := fun w hw => by
        rw [hmem6, hkept4.held w hw, hmem3, h2.held w hw]
      refine ⟨m6, ?_, ?_, ⟨?_, ?_, ?_⟩, fun v hv => ?_, fun i hi => ?_, fun w hw => ?_, ?_⟩
      · exact hrun1.trans (h2.runs.trans (hrun3.trans (hrun4.trans (hrun5.trans hrun6))))
      · show m5.pc + 1 = _
        rw [hpc5, hpc4, hpc13, hlen]
        omega
      · rw [hkeep6 _ (by simp), hfp4]
      · rw [hkeep6 _ (by simp), hsp4, hsp3]
      · rw [hmem6]
        exact hkept4.holds σ' hm3.holds
      · refine (get_set_next_temp).trans ?_
        rw [hother5 _ (by simp), hval4 v hv]
      · -- a busy temporary comes back from its slot, which was held up to the jump and lies
        -- above the stack pointer of the callee
        obtain ⟨k, hk⟩ := List.mem_iff_getElem?.mp (AsmState.mem_busy.mpr hi)
        have hklt := (List.getElem?_eq_some_iff.mp hk).1
        have hne : Reg.t i ≠ .t reg := by
          intro heq
          rw [Reg.t.inj heq, hallocs.was_free] at hi
          simp at hi
        refine (get_set_next_ne hne).trans ?_
        have hw := hword (base + registerSize * (k + 1))
          (List.mem_append_right _ (mem_slotsAfter.mpr ⟨k, hklt, rfl⟩))
        rw [hval5 k i hk, hfp4, ← hmem6, hw]
        have hstack := hC.stack
        have hlt := F.isLt
        refine storeSlots_get ?_ (by simp [words, hk])
        simp only [hwords, registerSize, tempLength, argLength] at hcallee hbusy ⊢
        omega
      · rw [hword w (List.mem_append_left _ hw)]
        exact hkept1.held w hw
      · have habove := (hkept1.above.trans h2.above).trans (hmem3 ▸ hkept4.above)
        rw [hmem6]
        exact habove

/-- **The code of an expression with calls does what the expression does.** -/
theorem eval_run (node : AstNode) : ExprRuns L S es F call node := by
  induction node with
  | intConst value =>
      intro held st reg st' c m σ res σ' hcall hheld hgen hes hc hm hv
      exact quiet_eval_run hC rfl rfl hgen hes hc hm hv
  | ident value symbol =>
      intro held st reg st' c m σ res σ' hcall hheld hgen hes hc hm hv
      cases symbol with
      | none => simp [AstNode.callExpr] at hcall
      | some id =>
          exact quiet_eval_run hC (by simpa [AstNode.callExpr, AstNode.coreExpr] using hcall) rfl
            hgen hes hc hm hv
  | binExp value opType left right ihl ihr => exact binExp_runs hC ihl ihr
  | unaryExpr postfixExpr value opType ih => exact unaryExpr_runs ih
  | varAsgn lval rval _ ih =>
      intro held st reg st' c m σ res σ' hcall hheld hgen hes hc hm hv
      cases hv with
      | varAsgn hx => exact varAsgn_runs hC ih hcall hheld hgen hes hc hm (.varAsgn hx)
  | funcCall value args symbol ih => exact funcCall_runs hC ih
  | _ =>
      intro held st reg st' c m σ res σ' hcall
      simp [AstNode.callExpr] at hcall

end Run

end MyLang
