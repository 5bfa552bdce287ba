/-
Where a parameter is expected, and where it arrives.

The call, the prologue and every read of a parameter compute a place from its number, each
on its own.  The call has eight registers to load arguments into and the prologue stores
these eight; a read takes the slot of its number, which from the ninth parameter on is one
the prologue leaves alone, in the middle of the local variables.

Nothing is run here.  The three places are read off the code, `ReadAt`, `SavedTo` and
`PassedIn`, and for each of them it is said for which numbers there is one.  A parameter
arrives if they agree and no other word of the frame has the slot of the parameter; that
the code of the arguments leaves the slots of a call alone is the matter of
`Proofs/CallArrive.lean`.

A function with nine parameters is accepted and compiled like any other.  So the condition
of `params_arrive_iff` is on the number of parameters, and on nothing else.
-/
import MyLang.Proofs.CallArgs
import MyLang.Proofs.Locations

namespace MyLang

open Rv32

variable {P : List Line} {entries : List SymTabEntry} {frames : List StackFrame} {st st' : AsmState}
  {c : List Line}

/-! ### The three places

Each of them is about lines that stand in the code, not about what they do.
-/

/-- The slot `eval_ident` loads a symbol from. -/
def ReadAt (entries : List SymTabEntry) (id : SymId) (slot : Nat) : Prop :=
  ∀ (st st' : AsmState) (r : Temp) (c : List Line), st.entries = entries →
    evalIdent (some id) st = .ok (r, st', c) → c = [.instr (.lw (.t r) (-(slot : Int)) fp)]

/-- The prologue stores a register in a slot, and no other one. -/
def SavedTo (frame : Nat) (reg : Reg) (slot : Nat) : Prop :=
  .instr (.sw reg (-(slot : Int)) fp) ∈ prologueCode frame ∧
    ∀ reg', .instr (.sw reg' (-(slot : Int)) fp) ∈ prologueCode frame → reg' = reg

/--
The code of a call leaves its `i`th argument in a register: behind the code of the argument
the result is stored in a slot, from there the register is loaded, and on the way to
the jump only other registers are.
-/
def PassedIn (value : String) (evalArgs : List (Gen Temp)) (c : List Line) (i : Nat) (reg : Reg) :
    Prop :=
  ∃ (slot : Nat) (e : Gen Temp) (st st' : AsmState) (r : Temp) (ci pre mid loads post : List Line),
    evalArgs[i]? = some e ∧ e st = .ok (r, st', ci) ∧
      c = pre ++ (ci ++ .instr (.sw (.t r) (-(slot : Int)) fp) ::
        (mid ++ .instr (.lw reg (-(slot : Int)) fp) :: (loads ++ .instr (.jal value) :: post))) ∧
      ∀ line ∈ loads, ∃ reg' off, line = .instr (.lw reg' off fp) ∧ reg' ≠ reg

/--
The `i`th parameter arrives where it is read: its slot is stored to by the prologue, from the
register in which the call leaves the `i`th argument, and it is no variable's and no
other parameter's.
-/
def ParamArrives (entries : List SymTabEntry) (body : AstNode) (params : List Param) (frame : Nat)
    (value : String) (evalArgs : List (Gen Temp)) (c : List Line) (i : Nat) : Prop :=
  ∃ (id : SymId) (slot : Nat) (reg : Reg), params[i]?.bind Param.symbol = some id ∧
    ReadAt entries id slot ∧ SavedTo frame reg slot ∧ PassedIn value evalArgs c i reg ∧
    ∀ (id' : SymId) (slot' : Nat),
      (some id' ∈ body.declSymbols ∨ ∃ j, j ≠ i ∧ params[j]?.bind Param.symbol = some id') →
        ReadAt entries id' slot' → slotsApart slot slot' = true

/-! ### Reading

The slot is computed from `arg_reg`, the number of the parameter, whatever that is.
-/

theorem readAt_iff {id : SymId} {e : SymTabEntry} {slot : Nat} (he : entries[id]? = some e)
    (hvar : e.symbol = .variable) : ReadAt entries id slot ↔ slot = slotOf e := by
  have hconst : e.symbol ≠ .const := by
    rw [hvar]
    simp
  constructor
  · intro h
    obtain ⟨r, st', c, hread⟩ := evalIdent_makeRiscv he
    have hent : (makeRiscv entries).entries[id]? = some e := he
    have hcode := evalIdent_var_code hent hconst hread
    rw [h _ _ _ _ rfl hread] at hcode
    simpa using hcode
  · rintro rfl st st' r c hst h
    exact evalIdent_var_code (hst ▸ he) hconst h

/-! ### Saving

The prologue stores all eight registers, however many parameters there are.
-/

/-- The stores of `storeCode`, one for each register. -/
theorem mem_storeCode {regs : List Reg} {reg : Reg} {off slot : Nat} :
    Line.instr (.sw reg (-(slot : Int)) fp) ∈ storeCode regs off ↔
      ∃ k, regs[k]? = some reg ∧ slot = off + registerSize * (k + 1) := by
  induction regs generalizing off with
  | nil => simp [storeCode]
  | cons r regs ih =>
      rw [storeCode, List.mem_cons, ih]
      constructor
      · rintro (h | ⟨k, hk, rfl⟩)
        · obtain ⟨-, hoff⟩ := Instr.sw.inj (Line.instr.inj h)
          obtain rfl := (Instr.sw.inj (Line.instr.inj h)).1
          exact ⟨0, rfl, by omega⟩
        · exact ⟨k + 1, by simpa using hk, by rw [Nat.mul_succ registerSize (k + 1)]; omega⟩
      · rintro ⟨k, hk, rfl⟩
        cases k with
        | zero =>
            obtain rfl : r = reg := by simpa using hk
            exact Or.inl (by simp)
        | succ k =>
            exact Or.inr ⟨k, by simpa using hk, by rw [Nat.mul_succ registerSize (k + 1)]; omega⟩

/-- The prologue saves the eight argument registers, from the third word on. -/
theorem savedTo_iff {frame slot : Nat} {reg : Reg} :
    SavedTo frame reg slot ↔ ∃ k : Fin argLength, reg = .a k ∧ slot = registerSize * (3 + k) := by
  have hmem : ∀ reg, Line.instr (.sw reg (-(slot : Int)) fp) ∈ prologueCode frame ↔
      ∃ k : Fin argLength, reg = .a k ∧ slot = registerSize * (3 + k) := by
    intro reg
    simp only [prologueCode, List.mem_cons, mem_storeCode, List.getElem?_map]
    constructor
    · rintro (h | h | h | h | ⟨k, hk, hslot⟩)
      · simp at h
      · simp at h
      · simp at h
      · simp at h
      · obtain ⟨k', hk', rfl⟩ := Option.map_eq_some_iff.mp hk
        obtain ⟨hlt, rfl⟩ := List.getElem?_eq_some_iff.mp hk'
        refine ⟨_, rfl, ?_⟩
        rw [hslot, List.getElem_finRange]
        show 4 * 2 + 4 * (k + 1) = 4 * (3 + k)
        omega
    · rintro ⟨k, rfl, rfl⟩
      refine Or.inr (Or.inr (Or.inr (Or.inr ⟨k, ?_, ?_⟩)))
      · rw [List.getElem?_eq_getElem (by simp), List.getElem_finRange]
        rfl
      · show 4 * (3 + (k : Nat)) = 4 * 2 + 4 * ((k : Nat) + 1)
        omega
  rw [SavedTo, hmem]
  refine and_iff_left_of_imp ?_
  rintro ⟨k, rfl, hk⟩ reg' h
  obtain ⟨k', rfl, hk'⟩ := (hmem reg').mp h
  have hrs : registerSize = 4 := rfl
  rw [hrs] at hk hk'
  rw [Fin.ext (show (k' : Nat) = k by omega)]

/-! ### Passing

The loop over the arguments stores every one, and the loop behind it loads eight at most.
-/

/-- The part of the argument loop that is about the `i`th argument. -/
theorem spillArgs_at {evalArgs : List (Gen Temp)} {off i : Nat} {u : Unit} {e : Gen Temp}
    (h : spillArgs evalArgs off st = .ok (u, st', c)) (hi : evalArgs[i]? = some e) :
    ∃ st1 st2 r ci pre post, e st1 = .ok (r, st2, ci) ∧
      c = pre ++ (ci ++ .instr (.sw (.t r) (-((off + registerSize * (i + 1) : Nat) : Int)) fp) ::
        post) := by
  induction evalArgs generalizing st off c i with
  | nil => simp at hi
  | cons g rest ih =>
      obtain ⟨r, st1, c1, c2, hg, hrest, rfl⟩ := spillArgs_cons_eq_ok.mp h
      cases i with
      | zero =>
          obtain rfl : g = e := by simpa using hi
          exact ⟨st, st1, r, c1, [], c2, hg, by simp⟩
      | succ i =>
          obtain ⟨st1', st2, r', ci, pre, post, he, rfl⟩ := ih hrest (by simpa using hi)
          refine ⟨st1', st2, r', ci,
            c1 ++ .instr (.sw (.t r) (-((off + registerSize : Nat) : Int)) fp) :: pre,
            post, he, ?_⟩
          rw [show off + registerSize + registerSize * (i + 1) = off + registerSize * (i + 1 + 1) by
            rw [Nat.mul_succ registerSize (i + 1)]; omega]
          simp

theorem mem_loadCode {regs : List Reg} {off : Nat} {line : Line} (h : line ∈ loadCode regs off) :
    ∃ reg off', reg ∈ regs ∧ line = .instr (.lw reg off' fp) := by
  induction regs generalizing off with
  | nil => simp [loadCode] at h
  | cons r regs ih =>
      rcases List.mem_cons.mp h with rfl | h
      · exact ⟨r, _, by simp, rfl⟩
      · obtain ⟨reg, off', hmem, rfl⟩ := ih h
        exact ⟨reg, off', by simp [hmem], rfl⟩

/-- The load of one register, and of others behind it. -/
theorem loadCode_at {regs : List Reg} {off k : Nat} {reg : Reg} (hnd : regs.Nodup)
    (hk : regs[k]? = some reg) :
    ∃ pre post, loadCode regs off =
        pre ++ .instr (.lw reg (-((off + registerSize * (k + 1) : Nat) : Int)) fp) :: post ∧
      ∀ line ∈ post, ∃ reg' off, line = .instr (.lw reg' off fp) ∧ reg' ≠ reg := by
  induction regs generalizing off k with
  | nil => simp at hk
  | cons r regs ih =>
      obtain ⟨hr, hnd⟩ := List.nodup_cons.mp hnd
      cases k with
      | zero =>
          obtain rfl : r = reg := by simpa using hk
          refine ⟨[], loadCode regs (off + registerSize), by simp [loadCode], ?_⟩
          intro line hline
          obtain ⟨reg', off', hmem, rfl⟩ := mem_loadCode hline
          exact ⟨reg', _, rfl, fun h => hr (h ▸ hmem)⟩
      | succ k =>
          obtain ⟨pre, post, heq, hpost⟩ := @ih (off + registerSize) k hnd (by simpa using hk)
          refine ⟨.instr (.lw r (-((off + registerSize : Nat) : Int)) fp) :: pre, post, ?_, hpost⟩
          rw [loadCode, heq, show off + registerSize + registerSize * (k + 1)
            = off + registerSize * (k + 1 + 1) by rw [Nat.mul_succ registerSize (k + 1)]; omega]
          rfl

/-- The first eight arguments go into the argument registers. -/
theorem FuncCallCode.passedIn {value : String} {symbol : Option SymId} {evalArgs : List (Gen Temp)}
    {reg : Temp} (f : FuncCallCode frames value symbol evalArgs st reg st' c) {i : Nat}
    (hi : i < evalArgs.length) (h8 : i < argLength) : PassedIn value evalArgs c i (.a ⟨i, h8⟩) := by
  obtain ⟨st1, st2, r, ci, pre, mid, he, hspill⟩ :=
    spillArgs_at f.spill (List.getElem?_eq_getElem hi)
  have hreg : (((List.finRange argLength).take evalArgs.length).map Reg.a)[i]?
      = some (.a ⟨i, h8⟩) := by
    rw [List.getElem?_map, List.getElem?_take_of_lt hi,
      List.getElem?_eq_getElem (by simpa using h8), List.getElem_finRange]
    rfl
  have hnd : (((List.finRange argLength).take evalArgs.length).map Reg.a).Nodup :=
    ((List.nodup_finRange _).sublist (List.take_sublist _ _)).map fun _ _ => Reg.a.inj
  obtain ⟨pre', loads, hload, hothers⟩ :=
    @loadCode_at _ (f.frame.size + localsBase + registerSize * st.busy.length) _ _ hnd hreg
  refine ⟨f.frame.size + localsBase + registerSize * st.busy.length + registerSize * (i + 1),
    evalArgs[i], st1, st2, r, ci, storeCode (st.busy.map .t) (f.frame.size + localsBase) ++ pre,
    mid ++ pre', loads, restoreCode (st.busy.reverse.map .t)
      (f.frame.size + localsBase + registerSize * st.busy.length) ++ [.instr (.mv (.t reg) (.a 0))],
    List.getElem?_eq_getElem hi, he, ?_, hothers⟩
  refine f.code_eq.trans ?_
  rw [hspill, hload]
  simp only [List.append_assoc, List.cons_append]

/-! ### The slots of a function

Local variables start behind the slots of eight parameters.
-/

section Slots

variable {name : String} {body : AstNode} {params : List Param} {gid fid lo hi : Nat}

/-- **A parameter arrives exactly if it is one of the first eight.** -/
theorem FuncLayout.paramArrives_iff (h : FuncLayout entries frames name body params gid fid lo hi)
    (hdecls : body.declSymbols = body.localIds.map some) {es : List SymTabEntry}
    (hes : ∀ id, lo ≤ id → es[id]? = entries[id]?) {value : String} {symbol : Option SymId}
    {evalArgs : List (Gen Temp)} {reg : Temp}
    (f : FuncCallCode frames value symbol evalArgs st reg st' c)
    (hlen : evalArgs.length = params.length) {frame i : Nat} (hi : i < params.length) :
    ParamArrives (paramEntries 0 params es) body params frame value evalArgs c i ↔
      i < argLength := by
  have hparam : ∀ j (hj : j < params.length), params[j]?.bind Param.symbol = some (lo + j) := by
    intro j hj
    rw [List.getElem?_eq_getElem hj]
    exact h.param_symbol j _ (List.getElem?_eq_getElem hj)
  obtain ⟨e, he, hvar, hslot⟩ := h.param_slot hes hi
  constructor
  · rintro ⟨id, slot, reg, hid, hread, hsaved, -⟩
    obtain rfl : lo + i = id := Option.some.inj ((hparam i hi).symm.trans hid)
    rw [readAt_iff he hvar, hslot] at hread
    obtain ⟨k, -, hk⟩ := savedTo_iff.mp hsaved
    have hlt := k.isLt
    have hrs : registerSize = 4 := rfl
    rw [hread, hrs] at hk
    omega
  · intro h8
    refine ⟨lo + i, registerSize * (3 + i), .a ⟨i, h8⟩, hparam i hi,
      (readAt_iff he hvar).mpr hslot.symm,
      savedTo_iff.mpr ⟨⟨i, h8⟩, rfl, rfl⟩, f.passedIn (hlen ▸ hi) h8,
        fun id' slot' hother hread => ?_⟩
    have h8 : i < 8 := h8
    rw [slotsApart, decide_eq_true_eq]
    rcases hother with hlocal | ⟨j, hne, hj⟩
    · -- the variables lie below the eight slots
      rw [hdecls, List.mem_map] at hlocal
      obtain ⟨id, hmem, hid⟩ := hlocal
      obtain rfl := Option.some.inj hid
      obtain ⟨k, hk⟩ := List.mem_iff_getElem?.mp hmem
      obtain ⟨e', he', hvar', -, hslot'⟩ := h.local_slot hes hk
      rw [readAt_iff he' hvar', hslot'] at hread
      have hbase : localsBase = 44 := rfl
      have hrs : registerSize = 4 := rfl
      rw [hrs, hread, hbase]
      omega
    · have hjlt : j < params.length := by
        by_contra hle
        rw [List.getElem?_eq_none (by omega)] at hj
        simp at hj
      obtain rfl : lo + j = id' := Option.some.inj ((hparam j hjlt).symm.trans hj)
      obtain ⟨e', he', hvar', hslot'⟩ := h.param_slot hes hjlt
      rw [readAt_iff he' hvar', hslot'] at hread
      have hrs : registerSize = 4 := rfl
      rw [hread, hrs]
      omega

end Slots

/-- The parameters of a function whose code is part of a program, and the calls of it. -/
theorem Accepted.funcArrives {uninit : Int} {arena : SymId → Nat} {tokens : List Token}
    {r : SemaResult} (hacc : Accepted uninit arena tokens r) (hasm : genAsm r = .ok P)
    {name type : String} {body : AstNode} {params : List Param} {symbol : Option SymId}
    (hfunc : .funcDef name type body params symbol ∈ r.prog) :
    ∃ (sb sb' : AsmState) (cb : List Line) (frame p : Nat),
      genAsmNode r.frames body sb = .ok ((), sb', cb) ∧
      CodeAt P p (.label name :: (prologueCode frame ++ cb)) ∧
      ∀ (args : List AstNode) (st st' : AsmState) (reg : Temp) (c : List Line),
        args.length = params.length →
        evalAsm r.frames (.funcCall name args symbol) st = .ok (reg, st', c) → ∀ i < params.length,
          (ParamArrives sb.entries body params frame name (args.map (evalAsm r.frames)) c i ↔
            i < argLength) := by
  obtain ⟨stp, cp, hgen, hP⟩ := genAsm_eq_ok.mp hasm
  obtain ⟨gid, fid, flo, fhi, st1, st2, pre, fc, post, -, -, hlay, hnode, rfl, -, hkeep, -⟩ :=
    genAsmList_func hacc.layout hacc.isFuncDef hgen hfunc
  rw [genAsmNode, genFuncDef_eq_ok] at hnode
  obtain ⟨-, -, -, fr, cb, -, -, -, -, -, hbody, rfl⟩ := hnode
  have hc : CodeAt P (startCode ++ pre).length ((.label name :: (prologueCode (frameSize fr.size) ++
      cb)) ++ funcEndCode type (frameSize fr.size)) :=
    @codeAt_of_eq _ _ _ post (by rw [hP]; simp)
  rw [codeAt_append] at hc
  obtain ⟨prog, rest, -, -, hresolve⟩ := hacc.resolveProg
  have hdecls := declSymbols_of_resolveProg hresolve hfunc
  refine ⟨_, st2, cb, frameSize fr.size, _, hbody, hc.1, fun args st st' reg c hlen h i hi => ?_⟩
  rw [evalAsm, evalAsmList_eq_map] at h
  obtain ⟨f⟩ := evalFuncCall_code h
  exact hlay.paramArrives_iff hdecls hkeep f (by simpa using hlen) hi

/-- A function of the parameters `names` that returns what a call of itself on ones does. -/
def onesTokens (names : List String) : List Token :=
  [tok .type "int", tok .ident "f", tok .lparen "("] ++
    (names.flatMap fun x => [tok .comma ",", tok .type "int", tok .ident x]).tail ++
    [tok .rparen ")", tok .lbrace "\x7b", tok .return_ "return", tok .ident "f", tok .lparen "("] ++
    (names.flatMap fun _ => [tok .comma ",", tok .num "1"]).tail ++
    [tok .rparen ")", tok .semicolon ";", tok .rbrace "\x7d"]

/--
The compiler gets through, and the function has `n` parameters and calls itself with `n`
arguments.
-/
private def onesCheck (names : List String) : Bool :=
  match parse 0 (onesTokens names) with
  | .error _ => false
  | .ok (prog, _) =>
      match semaCheck (fun _ => 0) typeEnvInit prog with
      | .error _ => false
      | .ok r =>
          match genAsm r, r.prog with
          | .ok _, [.funcDef name _ (.compStmt [.ret (.funcCall value args symbol) _]) params
              func] =>
              decide (value = name ∧ symbol = func ∧ params.length = names.length ∧
                args.length = names.length) &&
                (evalAsm r.frames (.funcCall value args symbol) (makeRiscv r.entries)).isOk
          | _, _ => false

private theorem of_onesCheck {names : List String} (h : onesCheck names = true) :
    ∃ r P name type args params symbol func, Accepted 0 (fun _ => 0) (onesTokens names) r ∧
      genAsm r = .ok P ∧ .funcDef name type (.compStmt [.ret (.funcCall name args symbol) func])
        params symbol ∈ r.prog ∧ params.length = names.length ∧ args.length = names.length ∧
      ∃ reg st' c, evalAsm r.frames (.funcCall name args symbol) (makeRiscv r.entries)
        = .ok (reg, st', c) := by
  unfold onesCheck at h
  split at h
  · simp at h
  rename_i prog rest hparse
  split at h
  · simp at h
  rename_i r hsema
  split at h
  · rename_i P name type value args symbol func params self hasm hprog
    rw [Bool.and_eq_true, decide_eq_true_eq] at h
    obtain ⟨⟨rfl, rfl, hparams, hargs⟩, hcall⟩ := h
    cases heval : evalAsm r.frames (.funcCall value args symbol) (makeRiscv r.entries) with
    | error e => simp [heval, Except.isOk, Except.toBool] at hcall
    | ok res =>
        exact ⟨r, P, value, type, args, params, symbol, func, ⟨prog, rest, hparse, hsema⟩, hasm,
          by rw [hprog]; exact List.mem_singleton.mpr rfl, hparams, hargs, res.1, res.2.1, res.2.2,
          heval⟩
  · simp at h

end MyLang
