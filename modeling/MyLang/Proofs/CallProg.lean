/-
The code of a program does what the program does.

The induction is on how deep calls are nested.  With calls of one depth doing what they
should, the code of an expression does, so the code of a body does, so the code of a
function does; and this is a call of the next depth.  At the outermost level `_start`
calls `main` and leaves with what it returns.

`Calls` (`SourceCalls.lean`) is what a call means, with the depth of the calls in it and
the bytes of stack they are given.  A meaning is only given where the stack suffices, and
that is how a call of the source comes to say something about addresses: the callee finds
its frame and what it spills to below the stack pointer (`Calls.callee_le`).

The conditions are collected in `callContext`, one for a function that is entered, and the
lemmas of `Proofs/CallExpr.lean` and `Proofs/CallStmt.lean` use it as a whole.
-/
import MyLang.Proofs.CallStmt
import MyLang.Compiler

namespace MyLang

open Rv32 ByteMemory

variable {P : List Line} {L : Layout P.length} {m m' : Machine} {r : SemaResult}
  {es es0 : List SymTabEntry}
  {room : Nat} {call : CallRel} {st st' : AsmState} {c : List Line} {F : Word} {res : Option CInt}
  {name type : String} {body : AstNode} {params : List Param} {gid fid lo hi : Nat}
  {args : List CInt}

/-! ### The frame of a function

The stack that a function has is divided between its own frame, what it spills to, and
what the functions that it calls take.
-/

/-- What a call spills lies in the stack its callee takes. -/
theorem spill_le_frameBytes (body : AstNode) :
    intSize * body.localIds.length + localsBase + registerSize * (tempLength + argLength)
      ≤ frameBytes body := by
  simp only [frameBytes, frameSize, localsBase, registerSize, tempLength, argLength, intSize]
  omega

/-- A call that has a meaning finds the stack it spills to. -/
theorem Calls.callee_le {uninit : Int} {arena : SymId → Nat} {tokens : List Token}
    (hacc : Accepted uninit arena tokens r) (hasm : genAsm r = .ok P) {depth : Nat} {id : SymId}
    (h : Calls r depth room name id args res) :
    calleeBase r.entries r.frames (some id) + registerSize * (tempLength + argLength) ≤ room := by
  cases depth with
  | zero => exact h.elim
  | succ depth =>
      obtain ⟨type, body, params, o, σ, hfunc, -, hroom, -⟩ := h
      obtain ⟨gid, fid, flo, fhi, st1, st2, cb, p, hid, hlay, -⟩ := hacc.funcCode hasm hfunc
      obtain rfl := Option.some.inj hid
      obtain ⟨type', offset, hc⟩ := hlay.entry
      obtain ⟨e, he, hcore⟩ := coreAt_eq_some hc
      have hfid : e.frame = some fid := congrArg SymTabEntry.frame hcore
      have hbase : calleeBase r.entries r.frames (some id) = intSize * body.localIds.length
          + localsBase := by
        rw [calleeBase, entryOf_some, he, Option.bind_some, hfid]
        simp only [hlay.frame, Option.map_some, Option.getD_some, spillBase]
      rw [hbase]
      exact (spill_le_frameBytes body).trans hroom

/-- A function entered on a stack with room for its frame and for what it calls. -/
theorem FuncLayout.callContext (hlay : FuncLayout r.entries r.frames name body params gid fid lo hi)
    (hlen : params.length ≤ argLength) (hnd : (labels P).Nodup)
    (hkeep : ∀ id, lo ≤ id → es0[id]? = r.entries[id]?)
    (hfix : es0.map SymTabEntry.fixed = r.entries.map SymTabEntry.fixed)
    (hstack : frameBytes body + room ≤ F.toNat) (hcalls : CallsRun L room call)
    (hcallee : ∀ name id args res, call name id args res →
      calleeBase r.entries r.frames (some id) + registerSize * (tempLength + argLength) ≤ room) :
    CallContext L (FrameShape.of r body params (some gid))
      (paramEntries 0 params es0) F room call := by
  have hbound := frameSize_bounds (intSize * body.localIds.length)
  have hlen' : params.length ≤ 8 := hlen
  refine ⟨⟨hnd, (paramEntries_fixed ..).trans hfix, hlay.frameSlots hlen hkeep,
    Nat.le_of_add_right_le hstack,
    Nat.le_trans (by omega) hbound.1, fun id e fid' fr hid he hfid hfr => ?_⟩, hstack,
      fun id hid => ?_, hcalls, hcallee⟩
  · obtain rfl := Option.some.inj hid
    obtain ⟨type, offset, hcore⟩ := hlay.entry
    obtain ⟨e', he', hce⟩ := coreAt_eq_some hcore
    have hgid := hlay.gid_eq
    rw [paramEntries_get _ 0 hlay.param_symbol, if_neg (by omega), hkeep _ (by omega), he'] at he
    obtain rfl := Option.some.inj he
    have hf := congrArg SymTabEntry.frame hce
    obtain rfl : fid = fid' := Option.some.inj (hf.symm.trans hfid)
    have hfr : r.frames[fid]? = some fr := hfr
    rw [hlay.frame] at hfr
    rw [← Option.some.inj hfr]
    rfl
  · have hid : id ∈ paramIds params ++ body.localIds := hid
    rcases List.mem_append.mp hid with hid | hid
    · obtain ⟨i, hi, rfl⟩ := hlay.mem_paramIds.mp hid
      obtain ⟨e, he, -, hs⟩ := hlay.param_slot hkeep hi
      refine Or.inl ?_
      rw [slotAt, he]
      simp only [hs, registerSize, localsBase, argLength]
      omega
    · obtain ⟨k, hk, hkid⟩ := List.mem_iff_getElem.mp hid
      have hk' : body.localIds[k]? = some id := by rw [List.getElem?_eq_getElem hk, hkid]
      obtain ⟨e, he, -, hoff, hs⟩ := hlay.local_slot hkeep hk'
      refine Or.inr ?_
      rw [slotAt, he]
      simp only [hs, hoff]
      exact List.mem_map.mpr ⟨k, List.mem_range.mpr hk, rfl⟩

/-- Behind the prologue the frame holds the store the function starts with. -/
theorem FuncLayout.inFrame (hlay : FuncLayout r.entries r.frames name body params gid fid lo hi)
    (hlen : params.length ≤ argLength) (hkeep : ∀ id, lo ≤ id → es0[id]? = r.entries[id]?)
    (hargs : ∀ (i : Fin argLength) v, args[(i : Nat)]? = some v → m.get (.a i) = v.word)
    (hent : Entered L (frameBytes body) m m') (ids : List SymId) :
    InFrame (paramEntries 0 params es0) ids (frameBytes body) (m.get .sp)
      (bindParams params args) m' := by
  refine ⟨hent.fp, hent.sp, fun id _ w hw => ?_⟩
  obtain ⟨i, hi, rfl, ha⟩ := bindParams_eq lo hlay.param_symbol hw
  obtain ⟨e, he, -, hs⟩ := hlay.param_slot hkeep hi
  rw [slotAt, he]
  have hi8 : i < argLength := lt_of_lt_of_le hi hlen
  simp only [hs]
  rw [hent.args ⟨i, hi8⟩, hargs ⟨i, hi8⟩ w ha]

/-- What has left the frame of a function has come back. -/
theorem Left.returned {frame : Nat} {v : Option CInt} {m1 m2 : Machine}
    (h : Left L (m.get .sp) v m1 m2) (hent : Entered L frame m m1) :
    Runs L m m2 ∧ Returned P v m m2 := by
  refine ⟨hent.runs.trans h.runs, h.exit, h.value, ?_, h.sp, ?_, fun a ha => ?_⟩
  · rw [h.ra, hent.ra]
  · rw [h.fp, hent.oldFp]
  · rw [h.kept a (by omega), hent.above a ha]

/-! ### The functions of a program

Every function of an accepted program stands in its code, so a call of any of them finds
it.
-/

/--
The code of the functions of a program does what their calls do, however deep they are
nested.
-/
theorem calls_run {uninit : Int} {arena : SymId → Nat} {tokens : List Token}
    (hacc : Accepted uninit arena tokens r) (hasm : genAsm r = .ok P) (hnd : (labels P).Nodup)
    (hfunc : ∀ n ∈ r.prog, n.callFunc r = true) (L : Layout P.length) (depth room : Nat) :
    CallsRun L room (Calls r depth room) := by
  induction depth generalizing room with
  | zero =>
      intro name id args res h
      exact h.elim
  | succ depth ih =>
      intro name id args res h
      obtain ⟨type, body, params, o, σ, hmem, -, hroom, hexec, hres⟩ := h
      have hok := hfunc _ hmem
      rw [AstNode.callFunc, Bool.and_eq_true, decide_eq_true_eq] at hok
      obtain ⟨gid, fid, flo, fhi, st1, st2, cb, p, hid, hlay, hff, hfree, hkeep, hfix, hgen, hc⟩ :=
        hacc.funcCode hasm hmem
      obtain rfl := Option.some.inj hid
      have hframe : 48 ≤ frameBytes body :=
        Nat.le_trans (by omega) (frameSize_bounds (intSize * body.localIds.length)).1
      rw [codeAt_cons, codeAt_append, codeAt_append] at hc
      obtain ⟨hlabel, hpro, hcb, hend⟩ := hc
      refine ⟨p, lineOf_eq hnd hlabel, fun m hpc hm hargs => ?_⟩
      -- the prologue
      have hlabel0 : Runs L m m.next := Runs.one (step_label (by rw [hpc]; exact hlabel))
      obtain ⟨m1, h1⟩ := prologue_run (L := L) (m := m.next) (Nat.le_trans hroom hm) hframe (by
        rw [Machine.next_pc, hpc]
        exact hpro)
      have hpc1 : m1.pc = p + 1 + (prologueCode (frameBytes body)).length := by
        rw [h1.pc, Machine.next_pc, hpc]
      -- the body
      have hC := hlay.callContext (L := L) (F := m.get .sp) hok.1 hnd hkeep hfix (by
        rwa [Nat.add_sub_cancel' hroom]) (ih (room - frameBytes body))
          fun name id args res h => Calls.callee_le hacc hasm h
      have hin := hlay.inFrame (m := m.next) hok.1 hkeep hargs h1 (paramIds params ++ body.localIds)
      obtain ⟨m2, h2⟩ := execs_run hC hexec ⟨hok.2, ⟨hff, fun id hid => hid⟩, hgen, hfree, rfl, by
        rw [hpc1]
        exact hcb, hin⟩
      -- the way back
      obtain ⟨m3, h3⟩ : ∃ m3, Left L (m.get .sp) res m1 m3 := by
        cases o with
        | returned v =>
            obtain rfl : res = v := hres
            exact ⟨m2, h2⟩
        | normal =>
            obtain ⟨rfl, rfl⟩ : type = "void" ∧ res = none := hres
            have h2 : Through L _ _ _ _ σ _ m1 m2 := h2
            obtain ⟨m3, h3⟩ := epilogue_run (L := L) (m := m2) (v := none) hC.frame (by
              rw [h2.pc, hpc1]
              exact hend) h2.inFrame (by simp)
            exact ⟨m3, h2.left h3 (hC.frame.saved.trans hC.frame.room)⟩
      obtain ⟨hruns, hret⟩ := Left.returned (m := m.next) h3 h1
      exact ⟨m3, hlabel0.trans hruns, hret.exit, hret.value, hret.ra, hret.sp, hret.fp, hret.mem⟩

/-- `int down(int n) { if (n) return n + down(n - 1); return 0; } int main() { return down(1); }` -/
def downTokens : List Token :=
  [tok .type "int", tok .ident "down", tok .lparen "(", tok .type "int", tok .ident "n",
    tok .rparen ")", tok .lbrace "\x7b",
    tok .if_ "if", tok .lparen "(", tok .ident "n", tok .rparen ")",
    tok .return_ "return", tok .ident "n", tok .add "+", tok .ident "down", tok .lparen "(",
      tok .ident "n",
    tok .sub "-", tok .num "1", tok .rparen ")", tok .semicolon ";",
    tok .return_ "return", tok .num "0", tok .semicolon ";", tok .rbrace "\x7d",
    tok .type "int", tok .ident "main", tok .lparen "(", tok .rparen ")", tok .lbrace "\x7b",
    tok .return_ "return", tok .ident "down", tok .lparen "(", tok .num "1", tok .rparen ")",
      tok .semicolon ";",
    tok .rbrace "\x7d"]

/-- What `parse` makes of `downTokens`. -/
def downProg : List AstNode :=
  [.funcDef "down" "int"
      (.compStmt [.ifElse (.ident "n" none)
          (.ret (.binExp "+" .add (.ident "n" none) (.funcCall "down"
            [.binExp "-" .sub (.ident "n" none) (.intConst 1)] none)) none) .null,
        .ret (.intConst 0) none])
      [{ value := "n", type := "int", symbol := none }] none,
    .funcDef "main" "int" (.compStmt [.ret (.funcCall "down" [.intConst 1] none) none]) [] none]

/-- The checked body of `down` in `downTokens`. -/
def downBody : AstNode :=
  .compStmt [.ifElse (.ident "n" (some 0))
      (.ret (.binExp "+" .add (.ident "n" (some 0)) (.funcCall "down"
        [.binExp "-" .sub (.ident "n" (some 0)) (.intConst 1)] (some 1))) (some 1)) .null,
    .ret (.intConst 0) (some 1)]

/-- What `sema_check` makes of it. -/
def downResult : SemaResult :=
  { prog := [.funcDef "down" "int" downBody [{ value := "n", type := "int", symbol := some 0 }]
    (some 1),
      .funcDef "main" "int" (.compStmt [.ret (.funcCall "down" [.intConst 1] (some 1)) (some 2)]) []
        (some 2)]
    entries := [{ varEntry "n" .int 0 with isUsed := true },
      { funcEntry "down" .int 0 [{ value := "n", type := "int", symbol := some 0 }]
        0 with isUsed := true },
      funcEntry "main" .int 0 [] 1]
    frames := [{ size := 0, func := "down" }, { size := 0, func := "main" }]
    symbols := [1, 2]
    warnings := [] }

/-- A call of it that calls itself. -/
theorem down_calls : Calls downResult 2 224 "down" 1 [CInt.ofWord 1] (some (CInt.ofWord 1)) := by
  have hdown : .funcDef "down" "int" downBody [{ value := "n", type := "int", symbol := some 0 }]
    (some 1) ∈
      downResult.prog := List.mem_cons_self ..
  have hn : ∀ σ : Store, identValue downResult.entries (some 0) σ = σ 0 := fun _ => rfl
  have h0 : Calls downResult 1 112 "down" 1 [CInt.ofWord 0] (some (CInt.ofWord 0)) := by
    refine ⟨_, _, _, _, _, hdown, rfl, by decide, .blockCons (.ifFalse (.ident (hn _)) rfl)
      (.blockReturn (.ret (.intConst rfl))), rfl⟩
  refine ⟨_, _, _, _, _, hdown, rfl, by decide, .blockReturn (.ifTrue (.ident (hn _)) (by decide)
    (.ret (.binExp (.ident (hn _)) rfl
      (.funcCall (.cons (.binExp (.ident (hn _)) rfl (.intConst rfl) rfl) .nil)
      h0) rfl))), rfl⟩

/--
A compiled program does what its source does, if its functions are `callFunc` and no label
stands twice in its code.  Started at its first line with `room` bytes of stack, it reaches
the `ecall` that ends a process with the number of that call in `a7` and what `main` returns
in `a0`.
-/
theorem program_run {uninit : Int} {arena : SymId → Nat} {tokens : List Token}
    (hacc : Accepted uninit arena tokens r) (hasm : genAsm r = .ok P) (hnd : (labels P).Nodup)
    (hfunc : ∀ n ∈ r.prog, n.callFunc r = true) (L : Layout P.length) {depth : Nat} {id : SymId}
    {v : CInt} (hmain : Calls r depth room "main" id [] (some v)) (hpc : m.pc = 0)
    (hroom : room ≤ (m.get .sp).toNat) :
    ∃ m', Runs L m m' ∧ P[m'.pc]? = some (.instr .ecall) ∧ m'.get (.a 7) = BitVec.ofNat 32 93 ∧
      m'.get (.a 0) = v.word := by
  obtain ⟨st', c, -, hP⟩ := genAsm_eq_ok.mp hasm
  have hline : ∀ k, k < startCode.length → P[k]? = startCode[k]? := fun k hk => by
    rw [hP, List.getElem?_append_left hk]
  have hcalls := calls_run hacc hasm hnd hfunc L depth room
  -- the label, the call, the number of the system call
  have h0 : Runs L m m.next := Runs.one (step_label (by
    rw [hpc]
    exact hline 0 (by decide)))
  obtain ⟨m1, h1, hpc1, -, -, hval, -⟩ := hcalls.jump_run (m := m.next) (Or.inr rfl) hmain (by
    rw [Machine.next_pc, hpc]
    exact hline 1 (by decide)) hroom (by simp)
  rw [Machine.next_pc, hpc] at hpc1
  have h2 : Runs L m1 (m1.set (.a 7) (BitVec.ofInt 32 93)).next := by
    refine Runs.one (step_instr (i := .li (.a 7) 93) ?_)
    rw [hpc1]
    exact hline 2 (by decide)
  refine ⟨_, h0.trans (h1.trans h2), ?_, ?_, ?_⟩
  · rw [Machine.next_pc, Machine.set_pc, hpc1]
    exact hline 3 (by decide)
  · exact Machine.get_set_self m1 _ _ (by simp)
  · exact (get_set_next_ne (by simp)).trans (hval v rfl)

end MyLang
