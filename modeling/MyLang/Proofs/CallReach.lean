/-
What the code of an expression with calls leaves alone.

`Passed` is what is known behind the code of an expression, however its calls return: the
frame and the stack pointer are as before, and so is every slot the code does not write,
from the stack pointer up if there are calls.  The temporaries that were busy come back
where `keepsTargets` holds them to be addresses.

Nothing is said here of values, in contrast to `Proofs/CallExpr.lean`: a call may return
anything, and it may leave anything in the temporaries.  So the statements are about code
that runs, not about source that has a meaning, and `ReachesEnd` says of the code of an
expression that whoever goes on from its last line comes to the end of the activation.

The addresses of the stores are needed for this, and they are in temporaries.  The one
store through a temporary whose address was computed before a call is that of an
assignment, whose target is loaded before its right side is evaluated; `keepsTargets` asks
of the calls of the right side that the temporary comes back.
-/
import MyLang.Proofs.CallArgs

namespace MyLang

open Rv32 ByteMemory

variable {P : List Line} {L : Layout P.length} {m m' m1 m2 : Machine} {frames : List StackFrame}
  {entries : List SymTabEntry} {st st' st1 : AsmState} {reg : Temp} {c : List Line}
  {frame base n n1 n2 b : Nat} {slots s1 s2 : List Nat} {calm held : Bool} {free : Temp → Bool}

/-! ### Slots

Slots are numbered as the generator does, by their distance from the frame pointer.
-/

theorem mem_slotsAfter {w : Nat} : w ∈ slotsAfter base n ↔
    ∃ k < n, w = base + registerSize * (k + 1) := by
  simp only [slotsAfter, List.mem_map, List.mem_range, eq_comm]

theorem slotsAfter_append (base n k : Nat) :
    slotsAfter base (n + k) = slotsAfter base n ++ slotsAfter (base + registerSize * n) k := by
  unfold slotsAfter
  rw [List.range_add, List.map_append, List.map_map]
  congr 1
  refine List.map_congr_left fun j _ => ?_
  simp only [Function.comp_apply, registerSize]
  omega

theorem slotsAfter_succ (base n : Nat) :
    slotsAfter base (n + 1) = (base + registerSize) :: slotsAfter (base + registerSize) n := by
  rw [Nat.add_comm n, slotsAfter_append, Nat.mul_one]
  simp [slotsAfter]

theorem slotsApart_iff {a b : Nat} :
    slotsApart a b = true ↔ a + registerSize ≤ b ∨ b + registerSize ≤ a := by
  simp [slotsApart]

theorem slotsApart_comm {a b : Nat} : slotsApart a b = slotsApart b a := by
  simp [slotsApart, or_comm]

/-- A slot is apart from those after it. -/
theorem apart_slotsAfter {a : Nat} (h : a ≤ base) :
    ∀ w ∈ slotsAfter base n, slotsApart a w = true := by
  intro w hw
  obtain ⟨k, -, rfl⟩ := mem_slotsAfter.mp hw
  rw [slotsApart_iff]
  simp only [registerSize]
  omega

theorem Room.mono {slots' : List Nat} (h : Room frame slots m) (hsub : slots' ⊆ slots) :
    Room frame slots' m :=
  ⟨h.sp, h.frame, fun w hw => h.slots w (hsub hw), h.top⟩

/-- Two slots there is room for are apart in memory. -/
theorem Room.below_apart {a w : Nat} (h : Room frame slots m) (ha : a ≤ (m.get fp).toNat)
    (hw : w ∈ slots) (hap : slotsApart a w = true) :
    Apart (below (m.get fp) w) (below (m.get fp) a) := by
  have hw := h.slots w hw
  have htop := h.top
  rw [slotsApart_iff] at hap
  exact ByteMemory.below_apart _ (by omega) (by omega) hap.symm

/-! ### Behind a piece of code

`Passed` composes along the lines: what two pieces write are the slots of both.
-/

/-- The slots other than the given ones are kept, from the stack pointer up unless it is `calm`. -/
def KeepsSlots (frame : Nat) (slots : List Nat) (calm : Bool) (m m' : Machine) : Prop :=
  ∀ a, registerSize ≤ a → a ≤ (m.get fp).toNat → (calm = true ∨ a ≤ frame) →
    (∀ w ∈ slots, slotsApart a w = true) →
    loadWord m'.mem (below (m.get fp) a) = loadWord m.mem (below (m.get fp) a)

/-- What is known `n` lines on, behind the code of an expression. -/
structure Passed (frame : Nat) (slots : List Nat) (calm held : Bool) (free : Temp → Bool) (n : Nat)
    (m m' : Machine) : Prop where
  pc : m'.pc = m.pc + n
  sp : m'.get .sp = m.get .sp
  fp : m'.get fp = m.get fp
  temps : held = true → ∀ i, free i = false → m'.get (.t i) = m.get (.t i)
  mem : KeepsSlots frame slots calm m m'

namespace Passed

theorem trans {free' : Temp → Bool} {calm' : Bool} (h : Passed frame s1 calm held free n1 m m1)
    (h' : Passed frame s2 calm' held free' n2 m1 m2)
    (hfree : ∀ i, free i = false → free' i = false) :
    Passed frame (s1 ++ s2) (calm && calm') held free (n1 + n2) m m2 where
  pc := by rw [h'.pc, h.pc, Nat.add_assoc]
  sp := h'.sp.trans h.sp
  fp := h'.fp.trans h.fp
  temps hheld i hi := (h'.temps hheld i (hfree i hi)).trans (h.temps hheld i hi)
  mem a ha hfp hcalm hslots := by
    have h2 := h'.mem a ha (by rwa [h.fp]) (hcalm.imp_left fun hc => by simp_all)
      fun w hw => hslots w (List.mem_append_right _ hw)
    rw [h.fp] at h2
    exact h2.trans (h.mem a ha hfp (hcalm.imp_left fun hc => by simp_all)
      fun w hw => hslots w (List.mem_append_left _ hw))

theorem room (h : Passed frame s1 calm held free n m m1) (hr : Room frame slots m) :
    Room frame slots m1 where
  sp := by rw [h.sp, h.fp, hr.sp]
  frame := by rw [h.fp]; exact hr.frame
  slots := by rw [h.fp]; exact hr.slots
  top := by rw [h.fp]; exact hr.top

/-- More slots, and less that is kept. -/
theorem mono {free' : Temp → Bool} {held' calm' : Bool} (h : Passed frame s1 calm held free n m m1)
    (hslots : s1 ⊆ s2) (hcalm : calm' = true → calm = true) (hheld : held' = true → held = true)
    (hfree : ∀ i, free' i = false → free i = false) : Passed frame s2 calm' held' free' n m m1 where
  pc := h.pc
  sp := h.sp
  fp := h.fp
  temps hh i hi := h.temps (hheld hh) i (hfree i hi)
  mem a ha hfp hc hs := h.mem a ha hfp (hc.imp_left hcalm) fun w hw => hs w (hslots hw)

end Passed

/-- Nothing is said of the temporaries. -/
theorem Passed.forget (h : Passed frame slots calm held free n m m1) (free' : Temp → Bool) :
    Passed frame slots false false free' n m m1 where
  pc := h.pc
  sp := h.sp
  fp := h.fp
  temps hh := by cases hh
  mem a ha hfp hc hs := h.mem a ha hfp (Or.inr (hc.resolve_left (by simp))) hs

/-- One instruction that sets a free temporary. -/
theorem passed_set {v : Word} (hreg : free reg = true) :
    Passed frame [] true held free 1 m (m.set (.t reg) v).next where
  pc := rfl
  sp := get_set_next_ne (by simp)
  fp := get_set_next_ne (by simp)
  temps _ i hi := get_set_next_ne (by
    rintro h
    obtain rfl := Reg.t.inj h
    simp [hi] at hreg)
  mem _ _ _ _ _ := rfl

/-- One instruction that stores into a slot. -/
theorem passed_store {w : Nat} {v : Word} (hr : Room frame [w] m) :
    Passed frame [w] true held free 1 m (m.store (below (m.get fp) w) v).next where
  pc := rfl
  sp := rfl
  fp := rfl
  temps _ _ _ := rfl
  mem a _ hfp _ hs := by
    rw [Machine.next_mem, Machine.store_mem, loadWord_storeWord_apart]
    exact hr.below_apart hfp (List.mem_singleton_self w) (hs w (List.mem_singleton_self w))

/-! ### Code without calls

Code that only moves words between registers, and stores to slots, passes as it stands.
-/

theorem plain_of_moves (h : ∀ x ∈ c, FrameMove x) : ∀ x ∈ c, x.plain = true := by
  intro x hx
  cases h x hx <;> rfl

theorem OpCode.plain {left right : Temp} {opType : TokenType}
    (h : OpCode left right st opType reg st' c) : ∀ x ∈ c, x.plain = true := by
  cases h <;> simp [logicCode, Line.plain]

/-- Behind the code of an operator. -/
theorem OpCode.passed {left right : Temp} {opType : TokenType} {free : Temp → Bool}
    (h : OpCode left right st opType reg st' c) (hnd : (labels P).Nodup) (hc : CodeAt P m.pc c)
    (hfree : ∀ i, free i = false → st.free i = false) (hleft : free left = true) :
    Reaches L (ReturnsTo L) (Passed frame [] true held free c.length m) m := by
  have hreach : Reaches L (ReturnsTo L) (fun m' => m'.pc = m.pc + c.length ∧ m'.mem = m.mem ∧
      ∀ r, r ≠ .t left → (∀ i, r = .t i → st.free i = false) → m'.get r = m.get r) m := by
    refine Reaches.of_runs hnd hc h.jumpsInside h.plain fun L' hnd' hc' => ?_
    obtain ⟨m', hm'⟩ := h.run (L := L') hnd' hc'
    exact ⟨m', hm'.runs, hm'.pc, hm'.mem, hm'.keeps⟩
  refine hreach.mono fun m' hm' => ?_
  obtain ⟨hpc, hmem, hkeeps⟩ := hm'
  refine ⟨hpc, hkeeps _ (by simp) (by simp), hkeeps _ (by simp) (by simp), fun _ i hi => ?_,
    fun a _ _ _ _ => by rw [hmem]⟩
  refine hkeeps _ (fun h => ?_) fun j hj => ?_
  · rw [Reg.t.inj h, hleft] at hi
    cases hi
  · rw [← Reg.t.inj hj]
    exact hfree i hi

/-- A generator that returned has written one instruction, which sets a free temporary. -/
structure SetsTemp (st : AsmState) (reg : Temp) (c : List Line) : Prop where
  free : st.free reg = true
  code : ∃ i, c = [.instr i] ∧ Line.plain (.instr i) = true ∧
    ∀ {P : List Line} (L : Layout P.length) (m : Machine),
      ∃ v, i.exec L m = some (m.set (.t reg) v).next

theorem SetsTemp.passed (h : SetsTemp st reg c) (hc : CodeAt P m.pc c) :
    Reaches L (ReturnsTo L) (Passed frame [] true held st.free c.length m) m := by
  obtain ⟨i, rfl, hplain, hexec⟩ := h.code
  obtain ⟨v, hv⟩ := hexec L m
  exact Reaches.instr hc hv hplain (Reaches.here (passed_set h.free))

theorem evalIntConst_sets {value : Int} (h : evalIntConst value st = .ok (reg, st', c)) :
    SetsTemp st reg c := by
  obtain ⟨hr, rfl, rfl⟩ := evalIntConst_eq_ok.mp h
  exact ⟨alloc_free hr, _, rfl, rfl, fun L m => ⟨_, rfl⟩⟩

theorem evalIdent_sets {symbol : Option SymId} (h : evalIdent symbol st = .ok (reg, st', c)) :
    SetsTemp st reg c := by
  obtain ⟨id, e, rfl, he, hr, rfl, rfl⟩ := evalIdent_eq_ok.mp h
  rcases identInstr_cases e reg with ⟨v, hi⟩ | ⟨off, hi⟩
  · exact ⟨alloc_free hr, _, by rw [hi], rfl, fun L m => ⟨_, rfl⟩⟩
  · exact ⟨alloc_free hr, _, by rw [hi], rfl, fun L m => ⟨_, rfl⟩⟩

/-- The target of an assignment: its distance from the frame pointer is loaded. -/
theorem evalLval_code {symbol : Option SymId} {value : String}
    (h : evalLval .ident (.ident value symbol) st = .ok (reg, st', c)) :
    st.free reg = true ∧
      c = [.instr (.addi (.t reg) .zero (sizeToInt (storeOffset st.entries symbol)))] ∧
      localsBase ≤ storeOffset st.entries symbol := by
  obtain ⟨value', id, e, hident, he, hr, rfl, rfl⟩ := evalLval_eq_ok.mp h
  obtain ⟨-, rfl⟩ := AstNode.ident.inj hident
  have hoff : storeOffset st.entries (some id) = localsBase + e.offset := by
    rw [storeOffset, entryOf_some, he]
  rw [hoff]
  exact ⟨alloc_free hr, rfl, Nat.le_add_right ..⟩

/-! ### Busy temporaries

The generator saves the busy temporaries before a call, and there are seven at most.
-/

theorem Allocs.busy_length (h : Allocs st reg st') : st'.busy.length = st.busy.length + 1 := by
  have hperm : st'.busy.Perm (reg :: st.busy) := by
    have hnd : ∀ st : AsmState, st.busy.Nodup := fun st => (List.nodup_finRange _).filter _
    refine (List.perm_ext_iff_of_nodup (hnd st') ?_).mpr fun i => ?_
    · rw [List.nodup_cons, AsmState.mem_busy, h.was_free]
      exact ⟨by simp, hnd st⟩
    · rw [List.mem_cons, AsmState.mem_busy, AsmState.mem_busy]
      by_cases hi : i = reg
      · rw [hi, h.busy]
        simp
      · rw [h.free_of_ne hi]
        simp [hi]
  rw [hperm.length_eq, List.length_cons]

theorem busy_of_all_free (h : st.free = fun _ => true) : st.busy = [] := by
  rw [List.eq_nil_iff_forall_not_mem]
  intro i hi
  rw [AsmState.mem_busy, h] at hi
  simp at hi

/-! ### Expressions

An operator is the code of its operands and then one or more instructions on two
temporaries.
-/

section Expr

/--
From the code of an expression on, with `b` temporaries busy, the activation comes to its end,
and what the expression leaves alone is as before.
-/
def ReachesEnd (entries : List SymTabEntry) (frames : List StackFrame) (frame : Nat)
    (node : AstNode) : Prop :=
  ∀ ⦃P : List Line⦄ (L : Layout P.length) ⦃m : Machine⦄ ⦃held : Bool⦄ ⦃st reg st' c⦄,
    evalAsm frames node st = .ok (reg, st', c) → st.entries = entries →
    node.keepsTargets entries frames frame held st.busy.length = true → (labels P).Nodup →
    (∀ l ∈ node.calls, .label l ∈ P) → CodeAt P m.pc c →
    Room frame (node.writes entries frames st.busy.length) m →
    Reaches L (ReturnsTo L)
      (Passed frame (node.writes entries frames st.busy.length) node.callFree held st.free
        c.length m) m

/-- An operator is passed if its operands are. -/
theorem binExp_reaches {value : String} {opType : TokenType} {left right : AstNode}
    (hl : ReachesEnd entries frames frame left) (hr : ReachesEnd entries frames frame right) :
    ReachesEnd entries frames frame (.binExp value opType left right) := by
  intro P L m held st reg st' c h hent hkeeps hnd hlabels hc hroom
  rw [evalAsm] at h
  obtain ⟨rl, st1, c1, rr, st2, c2, c3, hleft, hright, hop, rfl⟩ := evalBinExp_opCode h
  have ha := evalAsm_allocs left hleft
  have hb := evalAsm_allocs right hright
  rw [codeAt_append, codeAt_append] at hc
  rw [AstNode.keepsTargets, Bool.and_eq_true] at hkeeps
  simp only [AstNode.calls, List.mem_append] at hlabels
  rw [AstNode.writes] at hroom ⊢
  refine (hl L hleft hent hkeeps.1 hnd (fun l hl => hlabels l (Or.inl hl)) hc.1
    (hroom.mono (List.subset_append_left ..))).bind fun m1 h1 => ?_
  have hroom1 := h1.room hroom
  rw [← ha.busy_length] at hkeeps hroom1 ⊢
  refine (hr L hright (ha.entries.trans hent) hkeeps.2 hnd (fun l hl => hlabels l (Or.inr hl))
    (by rw [h1.pc]; exact hc.2.1) (hroom1.mono (List.subset_append_right ..))).bind fun m2 h2 => ?_
  have h12 := h1.trans h2 fun i => ha.busy_of_busy
  have hop : Reaches L (ReturnsTo L) (Passed frame [] true held st.free c3.length m2) m2 :=
    hop.passed hnd (by rw [h12.pc, ← Nat.add_assoc]; exact hc.2.2)
      (fun i hi => hb.busy_of_busy (ha.busy_of_busy hi)) ha.was_free
  refine hop.mono fun m3 h3 => ?_
  have h13 := h12.trans h3 fun i hi => hi
  rw [List.append_nil, Bool.and_true] at h13
  rw [List.length_append, List.length_append, ← Nat.add_assoc]
  exact h13

/-- `!` is passed if its operand is. -/
theorem unaryExpr_reaches {value : String} {opType : TokenType} {postfixExpr : AstNode}
    (hp : ReachesEnd entries frames frame postfixExpr) :
    ReachesEnd entries frames frame (.unaryExpr postfixExpr value opType) := by
  intro P L m held st reg st' c h hent hkeeps hnd hlabels hc hroom
  rw [evalAsm] at h
  obtain ⟨rfl, tmp, st1, c1, hr, htmp, rfl, rfl⟩ := evalUnaryExpr_eq_ok.mp h
  have ha := Allocs.of_first hr
  rw [codeAt_append] at hc
  rw [AstNode.keepsTargets] at hkeeps
  rw [AstNode.writes] at hroom ⊢
  rw [← ha.busy_length] at hkeeps hroom ⊢
  refine (hp L htmp hent hkeeps hnd hlabels hc.1 hroom).bind fun m1 h1 => ?_
  have hc2 : CodeAt P m1.pc [.instr (.seqz (.t reg) (.t tmp))] := by
    rw [h1.pc]
    exact hc.2
  refine Reaches.instr hc2 rfl rfl (Reaches.here ?_)
  have hset : Passed frame [] true held st.free 1 m1
      (m1.set (.t reg) (ofBool (m1.get (.t tmp) = 0))).next := passed_set (alloc_free hr)
  have h12 := (h1.mono (List.Subset.refl _) id id fun i => ha.busy_of_busy).trans hset
    fun i hi => hi
  rw [List.append_nil, Bool.and_true] at h12
  rw [List.length_append]
  exact h12

/-- An assignment is passed if its right side is, with the address kept on the way. -/
theorem varAsgn_reaches {value : String} {symbol : Option SymId} {rval : AstNode}
    (hr : ReachesEnd entries frames frame rval) :
    ReachesEnd entries frames frame (.varAsgn (.lval .ident (.ident value symbol)) rval) := by
  intro P L m held st reg st' c h hent hkeeps hnd hlabels hc hroom
  rw [evalAsm] at h
  obtain ⟨rl, st1, c1, st2, c2, hleft, hright, rfl, rfl⟩ := evalVarAsgn_eq_ok.mp h
  have ha := evalAsm_allocs _ hleft
  have hb := evalAsm_allocs rval hright
  rw [evalAsm] at hleft
  obtain ⟨hfree, rfl, hbase⟩ := evalLval_code hleft
  rw [hent] at hbase hc
  rw [codeAt_append, codeAt_append] at hc
  rw [AstNode.keepsTargets] at hkeeps
  rw [AstNode.writes] at hroom ⊢
  rw [← ha.busy_length] at hkeeps hroom ⊢
  -- the address
  let m1 :=
    (m.set (.t rl) (m.get .zero + BitVec.ofInt 32 (sizeToInt (storeOffset entries symbol)))).next
  have h1 : Passed frame [] true true st.free 1 m m1 := passed_set hfree
  have haddr : m1.get (.t rl) = BitVec.ofNat 32 (storeOffset entries symbol) := by
    rw [get_set_next_temp, ofInt_sizeToInt, Machine.get_zero]
    simp
  refine Reaches.instr hc.1 rfl rfl ?_
  -- the value
  refine (hr L (m := m1) hright (ha.entries.trans hent) hkeeps hnd (fun l hl => hlabels l (by
    simpa [AstNode.calls] using hl)) hc.2.1 (h1.room (hroom.mono
      (List.subset_append_left ..)))).bind fun m2 h2 => ?_
  have h12 := h1.trans h2 fun i => ha.busy_of_busy
  have haddr2 : m2.get (.t rl) = BitVec.ofNat 32 (storeOffset entries symbol) :=
    (h2.temps rfl rl ha.busy).trans haddr
  -- the store
  have hc3 := hc.2.2
  rw [List.length_singleton, Nat.add_assoc, ← h12.pc] at hc3
  refine Reaches.instr hc3 rfl rfl ?_
  refine Reaches.instr hc3.2 rfl rfl (Reaches.here ?_)
  let m3 := (m2.set (.t rl) (AluOp.eval .sub (m2.get fp) (m2.get (.t rl)))).next
  have h3 : Passed frame [] true true st.free 1 m2 m3 := passed_set hfree
  have h13 := h12.trans h3 fun i hi => hi
  have hstored : m3.get (.t rl) + BitVec.ofInt 32 0 = below (m3.get fp)
      (storeOffset entries symbol) := by
    rw [get_set_next_temp, haddr2, h3.fp]
    simp [AluOp.eval, below]
  have h4 : Passed frame [storeOffset entries symbol] true true st.free 1 m3
      (m3.store (m3.get (.t rl) + BitVec.ofInt 32 0) (m3.get (.t reg))).next := by
    rw [hstored]
    exact passed_store ((h13.room hroom).mono (by simp))
  have h14 := h13.trans h4 fun i hi => hi
  rw [List.length_append, List.length_append]
  change Passed _ _ _ _ _ (1 + (c2.length + (1 + 1))) _ _
  rw [← Nat.add_assoc c2.length, ← Nat.add_assoc, ← Nat.add_assoc]
  refine h14.mono ?_ ?_ (fun _ => rfl) fun i hi => hi
  · simp
  · simp [AstNode.callFree]

/-! ### Calls

A call writes the slots behind its base, jumps, and loads the saved temporaries again.
They come back if their slots were kept, which takes that nothing between writes these
slots.
-/

/-- An argument: no temporary is busy before it. -/
theorem ReachesEnd.arg {arg : AstNode} (harg : ReachesEnd entries frames frame arg)
    (h : evalAsm frames arg st = .ok (reg, st', c)) (hent : st.entries = entries)
    (hbusy : st.busy = []) (hkeeps : arg.keepsTargets entries frames frame false 0 = true)
    (hnd : (labels P).Nodup) (hlabels : ∀ l ∈ arg.calls, .label l ∈ P) (hc : CodeAt P m.pc c)
    (hroom : Room frame (arg.writes entries frames 0) m) :
    Reaches L (ReturnsTo L)
      (Passed frame (arg.writes entries frames 0) arg.callFree false st.free c.length m) m := by
  have hbusy0 : st.busy.length = 0 := by rw [hbusy]; rfl
  rw [← hbusy0] at hkeeps hroom ⊢
  exact harg L h hent hkeeps hnd hlabels hc hroom

/-- The code that evaluates the arguments of a call into the slots after `off`. -/
theorem spillArgs_reaches {args : List AstNode} {off : Nat} {u : Unit}
    (hargs : ∀ a ∈ args, ReachesEnd entries frames frame a)
    (h : spillArgs (args.map (evalAsm frames)) off st = .ok (u, st', c))
    (hent : st.entries = entries) (hbusy : st.busy = [])
    (hkeeps : AstNode.keepsTargetsList entries frames frame args = true)
    (hnd : (labels P).Nodup) (hlabels : ∀ l ∈ AstNode.callsList args, .label l ∈ P)
    (hc : CodeAt P m.pc c)
    (hroom : Room frame (slotsAfter off args.length ++ AstNode.writesList entries frames args) m) :
    Reaches L (ReturnsTo L)
      (Passed frame (slotsAfter off args.length ++ AstNode.writesList entries frames args) false
        false st.free c.length m) m := by
  induction args generalizing st off c m with
  | nil =>
      simp only [List.map_nil, spillArgs, Gen.pure_eq_ok] at h
      obtain ⟨-, rfl, rfl⟩ := h
      exact Reaches.here ⟨rfl, rfl, rfl, fun _ _ _ => rfl, fun _ _ _ _ _ => rfl⟩
  | cons a args ih =>
      rw [List.map_cons, spillArgs_cons_eq_ok] at h
      obtain ⟨r, st1, c1, c3, ha, h, rfl⟩ := h
      rw [codeAt_append] at hc
      rw [AstNode.keepsTargetsList, Bool.and_eq_true] at hkeeps
      rw [AstNode.callsList] at hlabels
      rw [List.length_cons, slotsAfter_succ, AstNode.writesList] at hroom ⊢
      have hal := evalAsm_allocs a ha
      have hea := (hargs a (by simp)).arg (L := L) ha hent hbusy hkeeps.1 hnd
        (fun l hl => hlabels l (List.mem_append_left _ hl)) hc.1
        (hroom.mono (by intro w hw; simp [hw]))
      refine hea.bind fun m1 h1 => ?_
      have hroom1 := h1.room hroom
      have hc2 := hc.2
      rw [← h1.pc] at hc2
      -- the slot of the argument
      have hstore : Passed frame [off + registerSize] true false st.free 1 m1
          (m1.store (m1.get fp + BitVec.ofInt 32 (-((off + registerSize : Nat) : Int)))
            (m1.get (.t r))).next := by
        rw [add_ofInt_neg]
        exact passed_store (hroom1.mono (by simp))
      have h12 := h1.trans hstore fun i hi => hi
      refine Reaches.instr hc2 rfl rfl ?_
      refine (ih (fun b hb => hargs b (by simp [hb])) h ((AsmState.release_entries ..).trans
        (hal.entries.trans hent)) ?_ hkeeps.2 (fun l hl => hlabels l (List.mem_append_right _ hl))
        (codeAt_store_next _ _ hc2) ((h12.room hroom).mono ?_)).mono fun m3 h3 => ?_
      · unfold AsmState.busy
        rw [hal.release]
        exact hbusy
      · intro w hw
        rcases List.mem_append.mp hw with hw | hw <;> simp [hw]
      · rw [hal.release] at h3
        have h13 := h12.trans h3 fun i hi => hi
        rw [List.length_append, List.length_cons, Nat.add_comm c3.length, ← Nat.add_assoc]
        refine h13.mono ?_ (fun h => by cases h) id fun i hi => hi
        intro w hw
        simp only [List.mem_append, List.mem_cons, List.not_mem_nil, or_false] at hw ⊢
        grind

theorem calleeBase_eq {value : String} {symbol : Option SymId} {evalArgs : List (Gen Temp)}
    (f : FuncCallCode frames value symbol evalArgs st reg st' c) :
    calleeBase st.entries frames symbol = spillBase f.frame := by
  have he : entryOf st.entries symbol = some f.entry := by
    simp only [entryOf, f.symbol_eq, Option.bind_some, f.entry_eq]
  simp only [calleeBase, he, Option.bind_some, f.frameId_eq, f.frame_eq, Option.map_some,
    Option.getD_some]

/-- The busy temporaries go to the slots after `off`. -/
theorem storeCode_passed {regs : List Temp} {off : Nat}
    (hc : CodeAt P m.pc (storeCode (regs.map .t) off))
    (hroom : Room frame (slotsAfter off regs.length) m) : Reaches L (ReturnsTo L) (fun m' =>
      Passed frame (slotsAfter off regs.length) true true free regs.length m m' ∧
      ∀ k i, regs[k]? = some i →
        loadWord m'.mem (below (m.get fp) (off + registerSize * (k + 1))) = m.get (.t i)) m := by
  induction regs generalizing m off with
  | nil => exact Reaches.here ⟨⟨rfl, rfl, rfl, fun _ _ _ => rfl, fun _ _ _ _ _ => rfl⟩, by simp⟩
  | cons r regs ih =>
      rw [List.length_cons, slotsAfter_succ] at hroom ⊢
      rw [List.map_cons, storeCode] at hc
      let m1 := (m.store (m.get fp + BitVec.ofInt 32 (-((off + registerSize : Nat) : Int)))
        (m.get (.t r))).next
      have h1 : Passed frame [off + registerSize] true true free 1 m m1 := by
        have hslot : Room frame [off + registerSize] m := hroom.mono (by simp)
        have hm1 : m1 = (m.store (below (m.get fp) (off + registerSize)) (m.get (.t r))).next := by
          rw [← add_ofInt_neg]
        rw [hm1]
        exact passed_store hslot
      have hroom1 := h1.room hroom
      refine Reaches.instr hc rfl rfl ?_
      refine (ih (m := m1) (codeAt_store_next _ _ hc) (hroom1.mono (by simp))).mono fun m2 h2 => ?_
      obtain ⟨h2, hval⟩ := h2
      refine ⟨?_, fun k i hk => ?_⟩
      · have h12 := h1.trans h2 fun i hi => hi
        rw [Nat.add_comm regs.length]
        exact h12
      · cases k with
        | zero =>
            obtain rfl : r = i := by simpa using hk
            rw [Nat.zero_add, Nat.mul_one]
            have hkept := h2.mem (off + registerSize) (by simp) (hroom.slots _ (by simp))
              (Or.inl rfl) (apart_slotsAfter (Nat.le_refl _))
            refine hkept.trans ?_
            rw [Machine.next_mem, Machine.store_mem, add_ofInt_neg]
            exact loadWord_storeWord_self _ _ _
        | succ k =>
            have hv := hval k i (by simpa using hk)
            rw [show off + registerSize * (k + 1 + 1) = off + registerSize
              + registerSize * (k + 1) by
              simp only [registerSize]
              omega]
            exact hv

/-- The argument registers are loaded from the slots after `off`. -/
theorem loadCode_passed {regs : List (Fin argLength)} {off : Nat} (hnd : regs.Nodup)
    (hc : CodeAt P m.pc (loadCode (regs.map .a) off)) :
    Reaches L (ReturnsTo L) (fun m' => Passed frame [] true true free regs.length m m' ∧
      (∀ r, r ∉ regs → m'.get (.a r) = m.get (.a r)) ∧ m'.mem = m.mem ∧
      ∀ k r, regs[k]? = some r →
        m'.get (.a r) = loadWord m.mem (below (m.get fp) (off + registerSize * (k + 1)))) m := by
  induction regs generalizing m off with
  | nil =>
      exact Reaches.here ⟨⟨rfl, rfl, rfl, fun _ _ _ => rfl, fun _ _ _ _ _ => rfl⟩, fun _ _ => rfl,
        rfl, by simp⟩
  | cons r regs ih =>
      rw [List.nodup_cons] at hnd
      rw [List.map_cons, loadCode] at hc
      let m1 := (m.set (.a r) (loadWord m.mem (m.get fp +
        BitVec.ofInt 32 (-((off + registerSize : Nat) : Int))))).next
      have h1 : Passed frame [] true true free 1 m m1 :=
        ⟨rfl, get_set_next_ne (by simp), get_set_next_ne (by simp),
          fun _ _ _ => get_set_next_ne (by simp), fun _ _ _ _ _ => rfl⟩
      refine Reaches.instr hc rfl rfl ?_
      refine (ih (m := m1) hnd.2 (codeAt_set_next _ _ hc)).mono fun m2 h2 => ?_
      obtain ⟨h2, hother, hmem, hval⟩ := h2
      refine ⟨?_, fun q hq => ?_, hmem, fun k q hk => ?_⟩
      · have h12 := h1.trans h2 fun i hi => hi
        rw [List.length_cons, Nat.add_comm regs.length]
        exact h12
      · rw [List.mem_cons, not_or] at hq
        rw [hother q hq.2]
        exact get_set_next_ne (by simpa using hq.1)
      · cases k with
        | zero =>
            obtain rfl : r = q := by simpa using hk
            rw [hother r hnd.1, Nat.zero_add, Nat.mul_one, Machine.next_get,
              Machine.get_set_self _ _ _ (by simp), add_ofInt_neg]
        | succ k =>
            rw [hval k q (by simpa using hk), h1.fp,
              show off + registerSize * (k + 1 + 1) = off + registerSize + registerSize * (k + 1) by
                simp only [registerSize]
                omega]
            rfl

/-- Nothing above the stack pointer is changed by a function called. -/
theorem CalleeReturns.slot {entry back : Machine} {ret a : Nat} (h : CalleeReturns entry back ret)
    (hroom : Room frame slots entry) (ha : registerSize ≤ a) (hframe : a ≤ frame) :
    loadWord back.mem (below (entry.get MyLang.fp) a)
      = loadWord entry.mem (below (entry.get MyLang.fp) a) := by
  refine loadWord_of_agree hroom.frame ha hframe fun x hx => h.mem x ?_
  rw [hroom.sp]
  exact hx

/--
From the jump of a call on: whatever is called returns, and the temporaries come back from
their slots.
-/
theorem jump_reaches {value : String} {regs : List Temp} (hregs : regs.Nodup)
    (hfree : free reg = true) (hregs_free : ∀ i, i ∈ regs ↔ free i = false) (hnd : (labels P).Nodup)
    (hlabel : .label value ∈ P) (hc : CodeAt P m.pc (.instr (.jal value) ::
      (restoreCode (regs.reverse.map .t) (base + registerSize * regs.length) ++
        [.instr (.mv (.t reg) (.a 0))])))
    (hroom : Room frame slots m) :
    Reaches L (ReturnsTo L) (fun m' => Passed frame [] false false free (regs.length + 2) m m' ∧
      ((regs = [] ∨ base + registerSize * regs.length ≤ frame) → ∀ k i, regs[k]? = some i →
        m'.get (.t i) = loadWord m.mem (below (m.get fp) (base + registerSize * (k + 1))))) m := by
  obtain ⟨hjal, hrest⟩ := hc
  rw [codeAt_append, restoreCode_length, List.length_map, List.length_reverse] at hrest
  obtain ⟨q, hq, hql⟩ := List.mem_iff_getElem.mp hlabel
  have hline : lineOf P value = some q := lineOf_eq hnd (by rw [List.getElem?_eq_getElem hq, hql])
  have hlt : m.pc < P.length := (List.getElem?_eq_some_iff.mp hjal).1
  refine Reaches.jal hjal hline fun back hback => ?_
  let entry := (m.set .ra (L.addr (m.pc + 1))).goto q
  have hentry : ∀ r, r ≠ .ra → entry.get r = m.get r := fun r hr => Machine.get_set_ne m _ hr
  have hback : CalleeReturns entry back (m.pc + 1) := by
    have hra : L.decode (entry.get .ra) = m.pc + 1 := by
      have hget : entry.get .ra = L.addr (m.pc + 1) := Machine.get_set_self m _ _ (by simp)
      rw [hget]
      exact L.decode_addr _ hlt
    rw [← hra]
    exact hback
  have hfp : back.get fp = m.get fp := hback.fp.trans (hentry _ (by simp))
  have hsp : back.get .sp = m.get .sp := hback.sp.trans (hentry _ (by simp))
  have hentryRoom : Room frame slots entry :=
    ⟨by rw [hentry _ (by simp), hentry _ (by simp), hroom.sp],
      by rw [hentry _ (by simp)]; exact hroom.frame,
      by rw [hentry _ (by simp)]; exact hroom.slots, by rw [hentry _ (by simp)]; exact hroom.top⟩
  have hmem : ∀ a, registerSize ≤ a → a ≤ frame →
      loadWord back.mem (below (m.get fp) a) = loadWord m.mem (below (m.get fp) a) := by
    intro a ha haf
    have hslot := hback.slot hentryRoom ha haf
    rw [hentry _ (by simp)] at hslot
    exact hslot
  -- the temporaries
  have hrestore : Reaches L (ReturnsTo L) (fun m' => m'.pc = back.pc + regs.length ∧
      m'.mem = back.mem ∧ (∀ k i, regs[k]? = some i → m'.get (.t i)
        = loadWord back.mem (below (back.get fp) (base + registerSize * (k + 1)))) ∧
      ∀ r, (∀ i ∈ regs, r ≠ .t i) → m'.get r = back.get r) back := by
    have hlen : (restoreCode (regs.reverse.map Reg.t) (base + registerSize * regs.length)).length
        = regs.length := by simp
    rw [← hback.pc] at hrest
    rw [← hlen]
    refine Reaches.of_runs hnd hrest.1 (jumpsTo_of_moves _ restoreCode_moves)
      (plain_of_moves restoreCode_moves) fun L' _ hc' => ?_
    obtain ⟨m', hr, hpc, hm, hv, hk⟩ := restoreCode_run (L := L') regs base hregs hc'
    exact ⟨m', hr, by rw [hpc, hlen], hm, hv, hk⟩
  refine hrestore.bind fun m5 h5 => ?_
  obtain ⟨hpc5, hmem5, hval5, hkeep5⟩ := h5
  have hmv : CodeAt P m5.pc [.instr (.mv (.t reg) (.a 0))] := by
    rw [hpc5, hback.pc]
    exact hrest.2
  refine Reaches.instr hmv rfl rfl (Reaches.here ⟨?_, fun hfits k i hk => ?_⟩)
  · refine ⟨?_, ?_, ?_, fun h => by simp at h, fun a ha hafp hcalm _ => ?_⟩
    · rw [Machine.next_pc, Machine.set_pc, hpc5, hback.pc]
      omega
    · rw [get_set_next_ne (by simp), hkeep5 _ (by simp), hsp]
    · rw [get_set_next_ne (by simp), hkeep5 _ (by simp), hfp]
    · rw [Machine.next_mem, Machine.set_mem, hmem5]
      exact hmem a ha (hcalm.resolve_left (by simp))
  · have hne : (Reg.t i) ≠ .t reg := by
      intro h
      have := (hregs_free i).mp (List.mem_of_getElem? hk)
      rw [Reg.t.inj h, hfree] at this
      simp at this
    have hklt := (List.getElem?_eq_some_iff.mp hk).1
    rw [get_set_next_ne hne, hval5 k i hk, hfp]
    rcases hfits with rfl | hfits
    · simp at hk
    · refine hmem _ ?_ ?_ <;> simp only [registerSize] at * <;> omega

/-- A call is passed if its arguments are. -/
theorem funcCall_reaches {value : String} {symbol : Option SymId} {args : List AstNode}
    (hargs : ∀ a ∈ args, ReachesEnd entries frames frame a) :
    ReachesEnd entries frames frame (.funcCall value args symbol) := by
  intro P L m held st reg st' c h hent hkeeps hnd hlabels hc hroom
  have hallocs := evalAsm_allocs _ h
  rw [evalAsm] at h
  obtain ⟨f⟩ := evalFuncCall_code h
  have hbase := calleeBase_eq f
  have hspill : spillArgs (args.map (evalAsm frames))
      (f.frame.size + localsBase + registerSize * st.busy.length) (st.withFree fun _ => true)
        = .ok ((), f.argState, f.argCode) := by
    rw [← evalAsmList_eq_map]
    exact f.spill
  have hcode := f.code_eq
  have hcodeAt := hc
  rw [hcode] at hcodeAt
  simp only [codeAt_append, storeCode_length, loadCode_length, List.length_map] at hcodeAt
  obtain ⟨hc1, hc2, hc3, hc4⟩ := hcodeAt
  rw [AstNode.writes, ← hent, hbase, slotsAfter_append] at hroom ⊢
  rw [AstNode.keepsTargets, Bool.and_eq_true, ← hent, hbase] at hkeeps
  obtain ⟨hheld, hkeeps⟩ := hkeeps
  simp only [AstNode.calls, List.mem_append, List.mem_singleton] at hlabels
  generalize hb : spillBase f.frame = base at *
  have hsize : f.frame.size + localsBase = base := hb
  rw [hsize] at hc1 hc3 hc4 hspill
  have hcount : (evalAsmList frames args).length = args.length := by
    rw [evalAsmList_eq_map, List.length_map]
  have hslots : slotsAfter base st.busy.length ⊆ slotsAfter base st.busy.length ++
      slotsAfter (base + registerSize * st.busy.length) args.length ++
        AstNode.writesList st.entries frames args := by
    intro w hw
    simp [hw]
  -- the temporaries
  have hstore : Reaches L (ReturnsTo L) (fun m' =>
      Passed frame (slotsAfter base st.busy.length) true true st.free st.busy.length m m' ∧
      ∀ k i, st.busy[k]? = some i →
        loadWord m'.mem (below (m.get fp) (base + registerSize * (k + 1))) = m.get (.t i)) m :=
    storeCode_passed hc1 (hroom.mono hslots)
  refine hstore.bind fun m1 h1 => ?_
  obtain ⟨h1, hval1⟩ := h1
  have hroom1 := h1.room hroom
  -- the arguments
  rw [← h1.pc] at hc2 hc3 hc4
  refine (spillArgs_reaches hargs hspill hent (busy_of_all_free rfl) (hent ▸ hkeeps) hnd
    (fun l hl => hlabels l (Or.inl hl)) hc2 (hroom1.mono ?_)).bind fun m2 h2 => ?_
  · intro w hw
    rw [← hent] at hw
    simp only [List.mem_append] at hw ⊢
    grind
  have hroom2 := h2.room hroom1
  -- the argument registers
  rw [← h2.pc] at hc3 hc4
  have hload : Reaches L (ReturnsTo L) (fun m' => Passed frame [] true true st.free
      ((List.finRange argLength).take (evalAsmList frames args).length).length m2 m' ∧
      m'.mem = m2.mem) m2 :=
    (loadCode_passed ((List.nodup_finRange _).sublist (List.take_sublist ..)) hc3).mono
      fun m' h => ⟨h.1, h.2.2.1⟩
  refine hload.bind fun m3 h3 => ?_
  obtain ⟨h3, hmem3⟩ := h3
  have hroom3 := h3.room hroom2
  -- the jump
  rw [← h3.pc] at hc4
  have hbusy : st.busy.Nodup := (List.nodup_finRange _).filter _
  refine (jump_reaches hbusy hallocs.was_free (fun i => AsmState.mem_busy) hnd
    (hlabels value (Or.inr rfl)) hc4 hroom3).mono fun m4 h4 => ?_
  obtain ⟨h4, hval4⟩ := h4
  have h14 := (((h1.forget st.free).trans (h2.forget st.free) fun i hi => hi).trans
    (h3.forget st.free) fun i hi => hi).trans h4 fun i hi => hi
  have hlen : st.busy.length + f.argCode.length
      + ((List.finRange argLength).take (evalAsmList frames args).length).length
      + (st.busy.length + 2) = c.length := by
    have hlen := congrArg List.length hcode
    simp only [List.length_append, List.length_cons, List.length_nil, storeCode_length,
      loadCode_length, restoreCode_length, List.length_map, List.length_reverse] at hlen
    omega
  rw [hlen] at h14
  refine ⟨h14.pc, h14.sp, h14.fp, fun hh i hi => ?_, fun a ha hafp hcalm hs => ?_⟩
  · -- a saved temporary
    subst hh
    simp only [Bool.not_true, Bool.false_or, Bool.and_eq_true, Bool.or_eq_true, decide_eq_true_eq,
      List.all_eq_true] at hheld
    obtain ⟨hapart, hfits⟩ := hheld
    obtain ⟨k, hk, hki⟩ := List.mem_iff_getElem.mp (AsmState.mem_busy.mpr hi)
    have hki : st.busy[k]? = some i := by rw [List.getElem?_eq_getElem hk, hki]
    have hframe : base + registerSize * (k + 1) ≤ frame := by
      have hpos : st.busy.length ≠ 0 := by omega
      have := hfits.resolve_left hpos
      simp only [registerSize] at *
      omega
    have hmem : base + registerSize * (k + 1) ∈ slotsAfter base st.busy.length :=
      mem_slotsAfter.mpr ⟨k, hk, rfl⟩
    have hm2 := h2.mem (base + registerSize * (k + 1)) (by simp only [registerSize]; omega)
      (hroom1.slots _ (hslots hmem)) (Or.inr hframe) (by
        intro w hw
        rcases List.mem_append.mp hw with hw | hw
        · refine apart_slotsAfter ?_ w hw
          simp only [registerSize]
          omega
        · rw [slotsApart_comm]
          exact hapart w (by rw [hent]; exact hw) _ hmem)
    rw [hval4 (Or.inr ((hfits.resolve_left (by omega)))) k i hki, hmem3, h3.fp, h2.fp, hm2, h1.fp]
    exact hval1 k i hki
  · refine h14.mem a ha hafp (Or.inr (hcalm.resolve_left (by simp [AstNode.callFree])))
      fun w hw => ?_
    refine hs w ?_
    rw [hent]
    simp only [List.mem_append, List.not_mem_nil, or_false] at hw ⊢
    grind

/-- **An expression's code is passed, whatever the functions called do.** -/
theorem evalAsm_reaches {node : AstNode} (he : node.isExpr = true) :
    ReachesEnd entries frames frame node := by
  induction node with
  | intConst value =>
      intro P L m held st reg st' c h _ _ _ _ hc _
      exact (evalIntConst_sets h).passed hc
  | ident value symbol =>
      intro P L m held st reg st' c h _ _ _ _ hc _
      exact (evalIdent_sets h).passed hc
  | binExp value opType left right ihl ihr =>
      simp only [AstNode.isExpr, Bool.and_eq_true] at he
      exact binExp_reaches (ihl he.1.2) (ihr he.2)
  | unaryExpr postfixExpr value opType ih =>
      simp only [AstNode.isExpr, Bool.and_eq_true] at he
      exact unaryExpr_reaches (ih he.2)
  | varAsgn lval rval _ ihr =>
      obtain ⟨⟨value, symbol, rfl⟩, hrval⟩ := AstNode.isExpr_varAsgn.mp he
      exact varAsgn_reaches (ihr hrval)
  | funcCall value args symbol ih =>
      have hall := AstNode.areExprs_iff.mp he
      exact funcCall_reaches fun a ha => ih a ha (hall a ha)
  | emptyExpr =>
      intro P L m held st reg st' c h
      simp [evalAsm] at h
  | _ => simp [AstNode.isExpr] at he

end Expr

end MyLang
