/-
A call of a compiled function.

The prologue saves `ra` and the frame pointer in the two words at the top of the new frame
and the argument registers below them; the entries the generator works with say of every
parameter that it is kept there.  From then on the frame holds the store the source
function starts with, so the code of the body does what the body does, and a body that
returns leaves with everything saved restored.

`genAsm_preserves` puts three things together.  The analysis has laid the variables of the
function out in its frame (`Accepted.layout`); the generator has put the code of the
function into the file, with its label (`Accepted.funcCode`); and the code of the body
does what the body does from every machine whose frame holds the store (`exec_run`).  What
is left is the prologue, which makes such a machine.

The frame has a word for each register that an argument may come in and one for each local
variable, in this order from the top, and `frameSlots` says that these do not meet.
-/
import MyLang.Proofs.StmtRun
import MyLang.Proofs.SemaShape
import MyLang.Proofs.CallPreserves

namespace MyLang

open Rv32 ByteMemory

variable {P : List Line} {L : Layout P.length} {m m' : Machine} {frames : List StackFrame}
  {entries es : List SymTabEntry} {st st' : AsmState} {c : List Line} {F : Word}

/-! ### The entries of the parameters

`gen_load_func_params` goes through the parameters and writes into the entry of each the
number of the register it comes in.
-/

/-- What an entry is once the parameters have been loaded: a parameter has its number. -/
theorem paramEntries_get {params : List Param} (lo k : Nat)
    (hsym : ∀ i p, params[i]? = some p → p.symbol = some (lo + i)) (id : Nat) :
    (paramEntries k params es)[id]? = if lo ≤ id ∧ id < lo + params.length then
      es[id]?.map (fun e => { e with isArgLoaded := true, argReg := k + (id - lo) })
        else es[id]? := by
  induction params generalizing k lo es with
  | nil =>
      rw [List.length_nil, if_neg (by omega)]
      rfl
  | cons param params ih =>
      have h0 : param.symbol = some lo := hsym 0 param rfl
      rw [paramEntries, h0, ih (lo + 1) (k + 1) fun i p hp => by
        rw [hsym (i + 1) p (by simpa using hp)]
        congr 1
        omega]
      simp only [List.length_cons, List.getElem?_modify]
      by_cases hlo : lo = id
      · subst hlo
        simp
      · by_cases hin : lo + 1 ≤ id ∧ id < lo + 1 + params.length
        · rw [if_pos hin, if_pos (by omega)]
          simp [hlo, show k + 1 + (id - (lo + 1)) = k + (id - lo) by omega]
        · rw [if_neg hin, if_neg (by omega)]
          simp [hlo]

theorem paramEntries_fixed (k : Nat) (params : List Param) (es : List SymTabEntry) :
    (paramEntries k params es).map SymTabEntry.fixed = es.map SymTabEntry.fixed := by
  induction params generalizing k es with
  | nil => rfl
  | cons param params ih =>
      rw [paramEntries, ih]
      cases param.symbol with
      | none => rfl
      | some id =>
          refine List.ext_getElem? fun j => ?_
          simp only [List.getElem?_map, List.getElem?_modify]
          by_cases hj : id = j <;> cases es[j]? <;> simp [hj, SymTabEntry.fixed]

/-! ### The code of a function in the code of the program

The functions are generated one after the other, with entries in which the parameters of
the functions before are marked, and these are not looked at again.
-/

/-- The lines of `emitLinuxPrologue`. -/
def startCode : List Line :=
  [.label "_start", .instr (.call "main"), .instr (.li (.a 7) 93), .instr .ecall]

/-- The file is the lines from `_start` on and the code of the functions. -/
theorem genAsm_eq_ok {r : SemaResult} :
    genAsm r = .ok P ↔ ∃ st' c, genAsmList r.frames r.prog (makeRiscv r.entries)
      = .ok ((), st', c) ∧ P = startCode ++ c := by
  have hstart : emitLinuxPrologue (makeRiscv r.entries)
      = .ok ((), makeRiscv r.entries, startCode) :=
    rfl
  unfold genAsm
  cases h : (do emitLinuxPrologue; genAsmList r.frames r.prog : Gen Unit) (makeRiscv r.entries) with
  | error e =>
      simp only [reduceCtorEq, false_iff]
      rintro ⟨st', c, hg, -⟩
      rw [Gen.bind_eq_error] at h
      rcases h with h | ⟨_, _, _, h, h'⟩
      · rw [hstart] at h
        simp at h
      · rw [hstart] at h
        obtain ⟨-, rfl, -⟩ := Prod.mk.inj (Except.ok.inj h)
        rw [hg] at h'
        simp at h'
  | ok res =>
      obtain ⟨u, st', code⟩ := res
      obtain ⟨_, st1, c1, c2, h1, h2, rfl⟩ := Gen.bind_eq_ok.mp h
      rw [hstart] at h1
      obtain ⟨-, rfl, rfl⟩ := Prod.mk.inj (Except.ok.inj h1)
      constructor
      · intro h
        exact ⟨st', c2, h2, (Except.ok.inj h).symm⟩
      · rintro ⟨st'', c', hg, rfl⟩
        rw [hg] at h2
        obtain ⟨-, -, rfl⟩ := Prod.mk.inj (Except.ok.inj h2)
        rfl

/-- What generating a function leaves: only its parameters are written into. -/
theorem genFuncDef_entries {name type : String} {body : AstNode} {params : List Param}
    {symbol : Option SymId} (hff : body.funcFree = true)
    (h : genAsmNode frames (.funcDef name type body params symbol) st = .ok ((), st', c)) :
    st'.free = st.free ∧ st'.entries = paramEntries 0 params st.entries := by
  rw [genAsmNode, genFuncDef_eq_ok] at h
  obtain ⟨id, e, fid, fr, c1, -, -, -, -, -, hb, -⟩ := h
  have hbal := genAsmNode_balanced hff hb
  exact ⟨hbal.free, hbal.entries⟩

theorem funcFree_of_isFuncDef {name type : String} {body : AstNode} {params : List Param}
    {symbol : Option SymId} (h : (AstNode.funcDef name type body params symbol).isFuncDef = true) :
    body.funcFree = true := by
  cases body with
  | compStmt l => exact @AstNode.funcFree_of_isStmt (.compStmt l) h
  | _ => simp [AstNode.isFuncDef] at h

/-- **The code of a function, and the state it is generated in.** -/
theorem genAsmList_func {lo : Nat} {prog : List AstNode} (hlay : ProgLayout entries frames lo prog)
    (hprog : ∀ n ∈ prog, n.isFuncDef = true) (h : genAsmList frames prog st = .ok ((), st', c))
    {name type : String} {body : AstNode} {params : List Param} {symbol : Option SymId}
    (hn : .funcDef name type body params symbol ∈ prog) :
    ∃ gid fid flo fhi st1 st2 pre fc post, symbol = some gid ∧ lo ≤ flo ∧
      FuncLayout entries frames name body params gid fid flo fhi ∧
      genAsmNode frames (.funcDef name type body params symbol) st1 = .ok ((), st2, fc) ∧
      c = pre ++ (fc ++ post) ∧ st1.free = st.free ∧
      (∀ id, flo ≤ id → st1.entries[id]? = st.entries[id]?) ∧
      st1.entries.map SymTabEntry.fixed = st.entries.map SymTabEntry.fixed := by
  induction hlay generalizing st c with
  | nil => simp at hn
  | @cons lo hi gid fid name' type' body' params' rest hf hrest ih =>
      rw [genAsmList, Gen.bind_eq_ok] at h
      obtain ⟨_, st1, c1, c2, h1, h2, rfl⟩ := h
      rcases List.mem_cons.mp hn with heq | hn
      · obtain ⟨rfl, rfl, rfl, rfl, rfl⟩ := AstNode.funcDef.inj heq
        exact ⟨gid, fid, lo, hi, st, st1, [], c1, c2, rfl, le_refl _, hf, h1, rfl, rfl,
          fun _ _ => rfl, rfl⟩
      · obtain ⟨hfree, hent⟩ :=
          genFuncDef_entries (funcFree_of_isFuncDef (hprog _ (List.mem_cons_self ..))) h1
        obtain ⟨gid', fid', flo, fhi, st2, st3, pre, fc, post, hsym, hle, hf', hg, rfl, hfree',
          hkeep, hfix⟩ := ih (fun n hn => hprog n (by simp [hn])) h2 hn
        have hlt := hf.gid_eq ▸ hf.gid_lt
        refine ⟨gid', fid', flo, fhi, st2, st3, c1 ++ pre, fc, post, hsym, by omega, hf', hg,
          by rw [List.append_assoc], hfree'.trans hfree, fun id hid => ?_, ?_⟩
        · rw [hkeep id hid, hent, paramEntries_get _ 0 hf.param_symbol, if_neg (by omega)]
        · rw [hfix, hent, paramEntries_fixed]

/-! ### The frame of a function

Two symbols of a function have two slots, and both are within its frame.
-/

/-- The store a function starts with has values for parameters only. -/
theorem bindParams_eq {params : List Param} (lo : Nat) {args : List CInt} {id : Nat} {v : CInt}
    (hsym : ∀ i p, params[i]? = some p → p.symbol = some (lo + i))
    (hv : bindParams params args id = some v) :
    ∃ i, i < params.length ∧ id = lo + i ∧ args[i]? = some v := by
  induction params generalizing lo args with
  | nil => simp [bindParams] at hv
  | cons p params ih =>
      cases args with
      | nil => simp [bindParams] at hv
      | cons a args =>
          have h0 : p.symbol = some lo := hsym 0 p rfl
          rw [bindParams, h0] at hv
          have hv : Function.update (bindParams params args) lo (some a) id = some v := hv
          by_cases hid : id = lo
          · subst hid
            rw [Function.update_self] at hv
            exact ⟨0, by simp, by simp, hv⟩
          · rw [Function.update_of_ne hid] at hv
            obtain ⟨i, hi, rfl, ha⟩ := ih (lo + 1) (fun i q hq => by
              rw [hsym (i + 1) q (by simpa using hq)]
              congr 1
              omega) hv
            exact ⟨i + 1, by simpa using hi, by omega, by simpa using ha⟩

/-- The symbols of parameters. -/
def paramIds (params : List Param) : List SymId := params.filterMap Param.symbol

namespace FuncLayout

variable {name : String} {body : AstNode} {params : List Param} {gid fid lo hi : Nat}
  {es0 : List SymTabEntry}

theorem mem_paramIds (h : FuncLayout entries frames name body params gid fid lo hi) {id : Nat} :
    id ∈ paramIds params ↔ ∃ i, i < params.length ∧ id = lo + i := by
  rw [paramIds, List.mem_filterMap]
  constructor
  · rintro ⟨p, hp, hid⟩
    obtain ⟨i, hi, rfl⟩ := List.mem_iff_getElem.mp hp
    have := h.param_symbol i _ (List.getElem?_eq_getElem hi)
    exact ⟨i, hi, Option.some.inj (hid.symm.trans this)⟩
  · rintro ⟨i, hi, rfl⟩
    exact ⟨_, List.getElem_mem hi, h.param_symbol i _ (List.getElem?_eq_getElem hi)⟩

/-- A parameter is kept where the prologue saves its register. -/
theorem param_slot (h : FuncLayout entries frames name body params gid fid lo hi)
    (hkeep : ∀ id, lo ≤ id → es0[id]? = entries[id]?) {i : Nat} (hi : i < params.length) :
    ∃ e, (paramEntries 0 params es0)[lo + i]? = some e ∧ e.symbol = .variable ∧
      slotOf e = registerSize * (3 + i) := by
  obtain ⟨key, type, offset, hc⟩ := h.param_entry i hi
  obtain ⟨e, he, hcore⟩ := coreAt_eq_some hc
  have hsym := congrArg SymTabEntry.symbol hcore
  refine ⟨{ e with isArgLoaded := true, argReg := i }, ?_, hsym, rfl⟩
  rw [paramEntries_get _ 0 h.param_symbol, if_pos (by omega), hkeep _ (by omega), he]
  simp

/-- A local variable is kept behind the words for registers, where it is stored to. -/
theorem local_slot (h : FuncLayout entries frames name body params gid fid lo hi)
    (hkeep : ∀ id, lo ≤ id → es0[id]? = entries[id]?) {k : Nat} {id : SymId}
    (hk : body.localIds[k]? = some id) :
    ∃ e, (paramEntries 0 params es0)[id]? = some e ∧ e.symbol = .variable ∧
      e.offset = intSize * k ∧ slotOf e = localsBase + e.offset := by
  obtain ⟨key, type, hc⟩ := h.local_entry k id hk
  obtain ⟨e, he, hcore⟩ := coreAt_eq_some hc
  have hsym := congrArg SymTabEntry.symbol hcore
  have harg := congrArg SymTabEntry.isArgLoaded hcore
  have hoff := congrArg SymTabEntry.offset hcore
  have hb := h.local_bounds id (List.mem_of_getElem? hk)
  have hgid := h.gid_eq
  refine ⟨e, ?_, hsym, hoff, ?_⟩
  · rw [paramEntries_get _ 0 h.param_symbol, if_neg (by omega), hkeep _ (by omega), he]
  · have harg : e.isArgLoaded = false := harg
    rw [slotOf, harg, if_neg Bool.false_ne_true, Nat.add_comm]

/-- The slots of a function's parameters and variables. -/
theorem frameSlots (h : FuncLayout entries frames name body params gid fid lo hi)
    (hlen : params.length ≤ argLength) (hkeep : ∀ id, lo ≤ id → es0[id]? = entries[id]?) :
    FrameSlots (paramEntries 0 params es0) body.localIds (paramIds params ++ body.localIds)
      (frameSize (intSize * body.localIds.length)) := by
  have hrs : registerSize = 4 := rfl
  have his : intSize = 4 := rfl
  have hlb : localsBase = 44 := rfl
  have hlen : params.length ≤ 8 := hlen
  have hbound := frameSize_bounds (intSize * body.localIds.length)
  have hslot : ∀ id ∈ paramIds params ++ body.localIds,
      (∃ e, (paramEntries 0 params es0)[id]? = some e ∧ e.symbol = .variable) ∧
      ((∃ i, i < params.length ∧ id = lo + i ∧
          slotAt (paramEntries 0 params es0) id = 12 + 4 * i) ∨
        ∃ k, body.localIds[k]? = some id ∧ k < body.localIds.length ∧
          slotAt (paramEntries 0 params es0) id = 44 + 4 * k) := by
    intro id hid
    rcases List.mem_append.mp hid with hid | hid
    · obtain ⟨i, hi, rfl⟩ := h.mem_paramIds.mp hid
      obtain ⟨e, he, hsym, hs⟩ := h.param_slot hkeep hi
      refine ⟨⟨e, he, hsym⟩, Or.inl ⟨i, hi, rfl, ?_⟩⟩
      rw [slotAt, he]
      simp only [hs, hrs]
      omega
    · obtain ⟨k, hk, hkid⟩ := List.mem_iff_getElem.mp hid
      have hk' : body.localIds[k]? = some id := by rw [List.getElem?_eq_getElem hk, hkid]
      obtain ⟨e, he, hsym, hoff, hs⟩ := h.local_slot hkeep hk'
      refine ⟨⟨e, he, hsym⟩, Or.inr ⟨k, hk', hk, ?_⟩⟩
      rw [slotAt, he]
      simp only [hs, hoff, his, hlb]
  -- two slots are apart: parameters and variables, each against each
  refine ⟨fun id hid => ?_, fun id hid => ?_, fun id hid id' hid' hne => ?_, fun id hid => ?_,
    fun id hid e he => ?_⟩
  · obtain ⟨⟨e, he, hsym⟩, -⟩ := hslot id hid
    exact ⟨e, he, by rw [hsym]; decide⟩
  · simp only [his] at *
    rcases (hslot id hid).2 with ⟨i, hi, -, hs⟩ | ⟨k, -, hk, hs⟩ <;> omega
  · rcases (hslot id hid).2 with ⟨i, hi, rfl, hs⟩ | ⟨k, hk, hkl, hs⟩ <;>
      rcases (hslot id' hid').2 with ⟨i', hi', rfl, hs'⟩ | ⟨k', hk', hkl', hs'⟩
    · have : i ≠ i' := fun he => hne (by rw [he])
      omega
    · omega
    · omega
    · have : k ≠ k' := by
        rintro rfl
        exact hne (Option.some.inj (hk.symm.trans hk'))
      omega
  · exact List.mem_append_right _ hid
  · obtain ⟨k, hk, hkid⟩ := List.mem_iff_getElem.mp hid
    have hk' : body.localIds[k]? = some id := by rw [List.getElem?_eq_getElem hk, hkid]
    obtain ⟨e', he', -, -, hs⟩ := h.local_slot hkeep hk'
    obtain rfl := Option.some.inj (he'.symm.trans he)
    exact hs

end FuncLayout

/-! ### The prologue

Four instructions make the frame, then the eight argument registers are saved.
-/

/-- Stores into slots below `F` leave memory from `F` on alone. -/
theorem storeSlots_above {vs : List Word} {off : Nat} {mem : Mem} {a : Word}
    (hend : off + registerSize * vs.length ≤ F.toNat) (ha : F.toNat ≤ a.toNat) :
    storeSlots F vs off mem a = mem a := by
  have hrs : registerSize = 4 := rfl
  induction vs generalizing off mem with
  | nil => rfl
  | cons v vs ih =>
      simp only [List.length_cons, hrs] at hend
      rw [storeSlots, ih (by simp only [hrs]; omega), storeWord_far]
      have := a.isLt
      rw [BitVec.toNat_sub, below_toNat (by simp only [hrs]; omega)]
      simp only [hrs]
      omega

/-- What the prologue leaves. -/
structure Entered (L : Layout P.length) (frame : Nat) (m m' : Machine) : Prop where
  runs : Runs L m m'
  pc : m'.pc = m.pc + (prologueCode frame).length
  fp : m'.get fp = m.get .sp
  sp : m'.get .sp = below (m.get .sp) frame
  ra : loadWord m'.mem (below (m.get .sp) 4) = m.get .ra
  oldFp : loadWord m'.mem (below (m.get .sp) 8) = m.get MyLang.fp
  args : ∀ i : Fin argLength,
    loadWord m'.mem (below (m.get .sp) (registerSize * (3 + i))) = m.get (.a i)
  above : ∀ a : Word, (m.get .sp).toNat ≤ a.toNat → m'.mem a = m.mem a

/-- What the prologue leaves, step by step and wherever the stack pointer is. -/
structure PrologueDone (L : Layout P.length) (frame : Nat) (m m' : Machine) : Prop where
  runFor : runFor L (prologueCode frame).length m = some m'
  pc : m'.pc = m.pc + (prologueCode frame).length
  fp : m'.get fp = m.get .sp
  sp : m'.get .sp = below (m.get .sp) frame
  ra : loadWord m'.mem (below (m.get .sp) 4) = m.get .ra
  oldFp : loadWord m'.mem (below (m.get .sp) 8) = m.get MyLang.fp
  args : ∀ i : Fin argLength,
    loadWord m'.mem (below (m.get .sp) (registerSize * (3 + i))) = m.get (.a i)
  above : frame ≤ (m.get .sp).toNat → ∀ a : Word, (m.get .sp).toNat ≤ a.toNat → m'.mem a = m.mem a

/-- The four instructions before the argument registers are saved. -/
private theorem prologue_head {frame : Nat} (hframe : 48 ≤ frame)
    (hc : CodeAt P m.pc (prologueCode frame)) :
    ∃ m4, (∀ {n m'}, runFor L n m4 = some m' → runFor L (n + 4) m = some m') ∧ m4.pc = m.pc + 4 ∧
      m4.get fp = m.get .sp ∧ m4.get .sp = below (m.get .sp) frame ∧
      m4.mem = storeWord (storeWord m.mem (below (m.get .sp) 4) (m.get .ra)) (below (m.get .sp) 8)
        (m.get fp) ∧
      ∀ i, m4.get (.a i) = m.get (.a i) := by
  have haddr : ∀ k ≤ 8, below (m.get .sp) frame + BitVec.ofInt 32 (sizeToInt (frame - k))
      = below (m.get .sp) k := by
    intro k hk
    rw [ofInt_sizeToInt, below_add (by omega), Nat.sub_sub_self (by omega)]
  have ha4 : below (m.get .sp) frame + BitVec.ofInt 32 (sizeToInt (frame - registerSize))
      = below (m.get .sp) 4 := haddr 4 (by omega)
  have ha8 : below (m.get .sp) frame + BitVec.ofInt 32 (sizeToInt (frame - registerSize * 2))
      = below (m.get .sp) 8 := haddr 8 (by omega)
  have ha0 : below (m.get .sp) frame + BitVec.ofInt 32 (sizeToInt frame) = m.get .sp := by
    have := haddr 0 (by omega)
    rwa [Nat.sub_zero, show below (m.get .sp) 0 = m.get .sp by simp [below]] at this
  obtain ⟨i1, i2, i3, i4, -⟩ := hc
  let m1 := (m.set .sp (below (m.get .sp) frame)).next
  let m2 := (m1.store (below (m.get .sp) 4) (m.get .ra)).next
  let m3 := (m2.store (below (m.get .sp) 8) (m.get fp)).next
  let m4 := (m3.set fp (m.get .sp)).next
  have hsp1 : m1.get .sp = below (m.get .sp) frame := by simp [m1]
  have hne1 : ∀ r, r ≠ .sp → m1.get r = m.get r := fun r hr => get_set_next_ne hr
  have h1 : step L m = some m1 := by rw [step_instr i1, Instr.exec, add_ofInt_neg]
  have h2 : step L m1 = some m2 := by
    rw [step_instr i2, Instr.exec, hsp1, ha4, hne1 _ (by simp)]
  have h3 : step L m2 = some m3 := by
    rw [step_instr i3, Instr.exec, show m2.get .sp = m1.get .sp from rfl, hsp1, ha8,
      show m2.get fp = m1.get fp from rfl, hne1 _ (by simp)]
  have h4 : step L m3 = some m4 := by
    rw [step_instr i4, Instr.exec, show m3.get .sp = m1.get .sp from rfl, hsp1, ha0]
  have hne4 : ∀ r, r ≠ fp → m4.get r = m1.get r := fun r hr => get_set_next_ne hr
  refine ⟨m4, fun h => ?_, rfl, by simp [m4], ?_, rfl, fun i => ?_⟩
  · exact runFor_head h1 (runFor_head h2 (runFor_head h3 (runFor_head h4 h)))
  · rw [hne4 _ (by simp), hsp1]
  · rw [hne4 _ (by simp), hne1 _ (by simp)]

/-- The whole prologue, with the argument registers saved. -/
theorem prologue_done {frame : Nat} (hframe : 48 ≤ frame)
    (hc : CodeAt P m.pc (prologueCode frame)) : ∃ m', PrologueDone L frame m m' := by
  have hrs : registerSize = 4 := rfl
  obtain ⟨m4, hrun, hpc, hfp, hsp, hmem, harg⟩ := prologue_head (L := L) hframe hc
  obtain ⟨-, -, -, -, hsave⟩ := hc
  rw [← show m4.pc = m.pc + 1 + 1 + 1 + 1 from hpc] at hsave
  obtain ⟨m5, h5, hpc5, hmem5, hget5⟩ :
    ∃ m5, runFor L ((List.finRange argLength).map Reg.a).length m4 = some m5 ∧
      m5.pc = m4.pc + ((List.finRange argLength).map Reg.a).length ∧
      m5.mem = storeSlots (m4.get fp) (((List.finRange argLength).map Reg.a).map m4.get)
        (registerSize * 2) m4.mem ∧
      ∀ r, m5.get r = m4.get r := ⟨_, storeCode_runFor hsave, rfl, rfl, fun _ => rfl⟩
  have hvals : ((List.finRange argLength).map Reg.a).map m4.get
      = (List.finRange argLength).map fun i => m.get (.a i) := by
    rw [List.map_map]
    exact List.map_congr_left fun i _ => harg i
  have hlen : ((List.finRange argLength).map fun i => m.get (.a i)).length = 8 := by simp
  have hcount : (prologueCode frame).length = ((List.finRange argLength).map Reg.a).length + 4 := by
    simp [prologueCode]
  rw [hvals, hfp, hmem] at hmem5
  refine ⟨m5, ?_, ?_, ?_, ?_, ?_, ?_, fun i => ?_, fun hroom a ha => ?_⟩
  · rw [hcount]
    exact hrun h5
  · rw [hpc5, hpc, hcount]
    omega
  · rw [hget5, hfp]
  · rw [hget5, hsp]
  · rw [hmem5, storeSlots_apart (by simp only [hlen, hrs]; omega) (by omega) (by omega),
      loadWord_storeWord_apart _ _ (below_apart _ (by omega) (by omega) (by omega)),
      loadWord_storeWord_self]
  · rw [hmem5, storeSlots_apart (by simp only [hlen, hrs]; omega) (by omega)
      (by simp only [hrs]; omega), loadWord_storeWord_self]
  · rw [hmem5, show registerSize * (3 + (i : Nat)) = registerSize * 2 + registerSize * (i + 1) by
      simp only [hrs]; omega]
    exact storeSlots_get (by simp only [hlen, hrs]; omega) (by simp)
  · have hlt := a.isLt
    rw [hmem5, storeSlots_above (by simp only [hlen, hrs]; omega) ha, storeWord_far, storeWord_far]
      <;> rw [BitVec.toNat_sub, below_toNat (by omega)] <;> omega

theorem prologue_run {frame : Nat} (hroom : frame ≤ (m.get .sp).toNat) (hframe : 48 ≤ frame)
    (hc : CodeAt P m.pc (prologueCode frame)) : ∃ m', Entered L frame m m' := by
  obtain ⟨m', h⟩ := prologue_done (L := L) hframe hc
  exact ⟨m', Runs.of_runFor h.runFor, h.pc, h.fp, h.sp, h.ra, h.oldFp, h.args, h.above hroom⟩

/-! ### Calls of a function

`FuncEntry` and `FuncExit` are what the two sides of a call agree on.
-/

/-- The state a function is entered in: arguments in registers, and room for its frame. -/
structure FuncEntry (P : List Line) (name : String) (frame : Nat) (args : List CInt) (m : Machine) :
    Prop where
  pc : lineOf P name = some m.pc
  room : frame ≤ (m.get .sp).toNat
  args : ∀ (i : Fin argLength) v, args[(i : Nat)]? = some v → m.get (.a i) = v.word

/-- The state a function returns in, at the `jalr` that goes back to its caller. -/
structure FuncExit (P : List Line) (v : CInt) (m m' : Machine) : Prop where
  exit : P[m'.pc]? = some (.instr (.jalr .ra))
  value : m'.get (.a 0) = v.word
  ra : m'.get .ra = m.get .ra
  sp : m'.get .sp = m.get .sp
  fp : m'.get fp = m.get fp
  mem : ∀ a : Word, (m.get .sp).toNat ≤ a.toNat → m'.mem a = m.mem a

/-- The body of a function entered does what the body does. -/
theorem body_run {name : String} {body : AstNode} {params : List Param} {gid fid lo hi : Nat}
    {es0 : List SymTabEntry} {args : List CInt} {v : CInt}
    (hlay : FuncLayout entries frames name body params gid fid lo hi)
    (hlen : params.length ≤ argLength) (hnd : (labels P).Nodup)
    (hkeep : ∀ id, lo ≤ id → es0[id]? = entries[id]?)
    (hfix : es0.map SymTabEntry.fixed = entries.map SymTabEntry.fixed)
    (hcore : body.coreStmt entries body.localIds (paramIds params ++ body.localIds)
      (some gid) = true)
    (hgen : genAsmNode frames body st = .ok ((), st', c))
    (hes : st.entries = paramEntries 0 params es0)
    (hargs : ∀ (i : Fin argLength) v, args[(i : Nat)]? = some v → m.get (.a i) = v.word)
    (hroom : frameSize (intSize * body.localIds.length) ≤ (m.get .sp).toNat)
    (hent : Entered L (frameSize (intSize * body.localIds.length)) m m') (hc : CodeAt P m'.pc c)
    (hret : FuncReturns entries params body args v) :
    ∃ m'', Runs L m m'' ∧ FuncExit P v m m'' := by
  have hbound := frameSize_bounds (intSize * body.localIds.length)
  have hlen' : params.length ≤ 8 := hlen
  have hslots := hlay.frameSlots hlen hkeep
  have hC : FrameContext P frames entries (paramEntries 0 params es0) body.localIds
      (paramIds params ++ body.localIds) (some gid) (frameSize (intSize * body.localIds.length))
      (m.get .sp) := by
    refine ⟨hnd, (paramEntries_fixed ..).trans hfix, hslots, hroom, by omega, ?_⟩
    intro id e fid' fr hid he hfid hfr
    obtain rfl := Option.some.inj hid
    obtain ⟨type, offset, hcore⟩ := hlay.entry
    obtain ⟨e', he', hce⟩ := coreAt_eq_some hcore
    have hgid := hlay.gid_eq
    rw [paramEntries_get _ 0 hlay.param_symbol, if_neg (by omega), hkeep _ (by omega), he'] at he
    obtain rfl := Option.some.inj he
    have hf := congrArg SymTabEntry.frame hce
    obtain rfl : fid = fid' := Option.some.inj (hf.symm.trans hfid)
    rw [hlay.frame] at hfr
    rw [← Option.some.inj hfr]
  have hin : InFrame (paramEntries 0 params es0) (paramIds params ++ body.localIds)
      (frameSize (intSize * body.localIds.length)) (m.get .sp) (bindParams params args) m' := by
    refine ⟨hent.fp, hent.sp, fun id _ w hw => ?_⟩
    obtain ⟨i, hi, rfl, ha⟩ := bindParams_eq lo hlay.param_symbol hw
    obtain ⟨e, he, -, hs⟩ := hlay.param_slot hkeep hi
    rw [slotAt, he]
    have hi8 : i < argLength := lt_of_lt_of_le hi hlen
    simp only [hs]
    rw [hent.args ⟨i, hi8⟩, hargs ⟨i, hi8⟩ w ha]
  obtain ⟨σ, hexec⟩ := hret
  obtain ⟨m'', h⟩ := exec_run (L := L) hC hexec hcore (fun id hid => hid) hgen hes hc hin
  have h : Left L (m.get .sp) (some v) m' m'' := h
  refine ⟨m'', hent.runs.trans h.runs, h.exit, h.value v rfl, ?_, h.sp, ?_, fun a ha => ?_⟩
  · rw [h.ra, hent.ra]
  · rw [h.fp, hent.oldFp]
  · rw [h.kept a (by omega), hent.above a ha]

/--
**The code of a function of an accepted program stands in the file.**  It is the label,
the prologue, the code of the body and what follows it, all with the function's frame.
-/
theorem Accepted.funcCode {uninit : Int} {arena : SymId → Nat} {tokens : List Token}
    {r : SemaResult} (hacc : Accepted uninit arena tokens r) (hasm : genAsm r = .ok P)
    {name type : String} {body : AstNode} {params : List Param} {symbol : Option SymId}
    (hfunc : .funcDef name type body params symbol ∈ r.prog) :
    ∃ (gid fid flo fhi : Nat) (st1 st2 : AsmState) (cb : List Line) (p : Nat), symbol = some gid ∧
      FuncLayout r.entries r.frames name body params gid fid flo fhi ∧ body.funcFree = true ∧
      st1.free = (fun _ => true) ∧ (∀ id, flo ≤ id → st1.entries[id]? = r.entries[id]?) ∧
      st1.entries.map SymTabEntry.fixed = r.entries.map SymTabEntry.fixed ∧
      genAsmNode r.frames body { st1 with entries := paramEntries 0 params st1.entries }
        = .ok ((), st2, cb) ∧
      CodeAt P p (.label name :: (prologueCode (frameSize (intSize * body.localIds.length)) ++
        (cb ++ funcEndCode type (frameSize (intSize * body.localIds.length))))) := by
  obtain ⟨stp, cp, hgen, hP⟩ := genAsm_eq_ok.mp hasm
  obtain ⟨gid, fid, flo, fhi, st1, st2, pre, fc, post, rfl, -, hlay, hnode, rfl, hfree, hkeep,
      hfix⟩ :=
    genAsmList_func hacc.layout hacc.isFuncDef hgen hfunc
  have hc : CodeAt P (startCode ++ pre).length fc := codeAt_of_eq (by rw [hP, List.append_assoc])
  rw [genAsmNode, genFuncDef_eq_ok] at hnode
  obtain ⟨id, e, fid', fr, cb, -, hid, hent, hfid, hfr, hbody, rfl⟩ := hnode
  obtain rfl := Option.some.inj hid
  have hsize : fr.size = intSize * body.localIds.length := by
    obtain ⟨type', offset, hc⟩ := hlay.entry
    obtain ⟨e', he', hce⟩ := coreAt_eq_some hc
    have hgid := hlay.gid_eq
    rw [paramEntries_get _ 0 hlay.param_symbol, if_neg (by omega), hkeep _ (by omega)] at hent
    obtain rfl := Option.some.inj (he'.symm.trans hent)
    have hf := congrArg SymTabEntry.frame hce
    obtain rfl : fid = fid' := Option.some.inj (hf.symm.trans hfid)
    rw [hlay.frame] at hfr
    rw [← Option.some.inj hfr]
  rw [hsize] at hc
  exact ⟨gid, fid, flo, fhi, st1, st2, cb, _, rfl, hlay,
    funcFree_of_isFuncDef (hacc.isFuncDef _ hfunc), hfree, hkeep, hfix, hbody, hc⟩

/--
**Compilation preserves the meaning of functions without calls.**  Whenever the source
function, called with `args`, runs to a `return` of `v`, its code, entered with the
arguments in registers, runs to a `jalr ra` with `v` in `a0`, with `ra`, `sp` and the frame
pointer as at entry, and with memory from the caller's `sp` on as it was.
-/
theorem genAsm_preserves {uninit : Int} {arena : SymId → Nat} {tokens : List Token} {r : SemaResult}
    (hacc : Accepted uninit arena tokens r) (hasm : genAsm r = .ok P) (hnd : (labels P).Nodup)
    {name type : String} {body : AstNode} {params : List Param} {symbol : Option SymId}
    (hfunc : .funcDef name type body params symbol ∈ r.prog) (hlen : params.length ≤ argLength)
    (hcore : body.coreStmt r.entries body.localIds (paramIds params ++ body.localIds) symbol = true)
    {args : List CInt} {v : CInt} (hret : FuncReturns r.entries params body args v)
    (L : Layout P.length) {m : Machine}
    (hm : FuncEntry P name (frameSize (intSize * body.localIds.length)) args m) :
    ∃ m', Runs L m m' ∧ FuncExit P v m m' := by
  obtain ⟨gid, fid, flo, fhi, st1, st2, cb, p, rfl, hlay, -, -, hkeep, hfix, hbody, hc⟩ :=
    hacc.funcCode hasm hfunc
  have hbound := frameSize_bounds (intSize * body.localIds.length)
  rw [codeAt_cons, codeAt_append, codeAt_append] at hc
  obtain ⟨hlabel, hpro, hcb, -⟩ := hc
  obtain rfl : p = m.pc := Option.some.inj ((lineOf_eq hnd hlabel).symm.trans hm.pc)
  obtain ⟨m1, h1⟩ := prologue_run (L := L) (m := m.next) hm.room (by omega) hpro
  obtain ⟨m2, hruns, h2⟩ := body_run (m := m.next) hlay hlen hnd hkeep hfix hcore
    hbody rfl hm.args hm.room h1 (by
    rw [h1.pc]
    exact hcb) hret
  exact ⟨m2, Runs.head (step_label hlabel) hruns, h2.exit, h2.value, h2.ra, h2.sp, h2.fp, h2.mem⟩

/-- `int sum(int n) { int s = 0; for (int i = 0; i < n; i = i + 1) s = s + i; return s; }` -/
def sumTokens : List Token :=
  [tok .type "int", tok .ident "sum", tok .lparen "(", tok .type "int", tok .ident "n",
    tok .rparen ")", tok .lbrace "\x7b",
    tok .type "int", tok .ident "s", tok .assign "=", tok .num "0", tok .semicolon ";",
    tok .for_ "for", tok .lparen "(",
    tok .type "int", tok .ident "i", tok .assign "=", tok .num "0", tok .semicolon ";",
    tok .ident "i", tok .lt "<", tok .ident "n", tok .semicolon ";",
    tok .ident "i", tok .assign "=", tok .ident "i", tok .add "+", tok .num "1", tok .rparen ")",
    tok .ident "s", tok .assign "=", tok .ident "s", tok .add "+", tok .ident "i",
    tok .semicolon ";",
    tok .return_ "return", tok .ident "s", tok .semicolon ";", tok .rbrace "\x7d"]

/-- A machine about to enter line `p` with one argument. -/
def entryMachine (p : Nat) (arg : CInt) : Machine where
  pc := p
  regs := fun r => if r = .a 0 then arg.word else if r = .sp then BitVec.ofNat 32 (2 ^ 31) else 0
  mem := fun _ => 0

/-- The checked body of `sum` in `sumTokens`. -/
def sumBody : AstNode :=
  .compStmt [.varDef "s" "int" (.intConst 0) (some 2),
    .for_ (.varDef "i" "int" (.intConst 0) (some 3))
      (.binExp "<" .lt (.ident "i" (some 3)) (.ident "n" (some 0)))
      (.varAsgn (.lval .ident (.ident "i" (some 3)))
        (.binExp "+" .add (.ident "i" (some 3)) (.intConst 1)))
      (.exprStmt (.varAsgn (.lval .ident (.ident "s" (some 2)))
        (.binExp "+" .add (.ident "s" (some 2)) (.ident "i" (some 3))))),
    .ret (.ident "s" (some 2)) (some 1)]

theorem genAsm_preserves_sum : ∃ r P, Accepted 0 (fun _ => 0) sumTokens r ∧ genAsm r = .ok P ∧
    ∃ (L : Layout P.length) (m m' : Machine), FuncEntry P "sum" 112 [CInt.ofWord 2] m ∧
      Runs L m m' ∧ FuncExit P (CInt.ofWord 1) m m' := by
  have hacc : ∃ r P, Accepted 0 (fun _ => 0) sumTokens r ∧ genAsm r = .ok P ∧ (labels P).Nodup ∧
      P.length < 2 ^ 32 ∧ lineOf P "sum" = some 4 ∧
      .funcDef "sum" "int" sumBody [{ value := "n", type := "int", symbol := some 0 }] (some 1)
        ∈ r.prog ∧
      sumBody.coreStmt r.entries sumBody.localIds [0, 2, 3] (some 1) = true ∧
      FuncReturns r.entries [{ value := "n", type := "int", symbol := some 0 }] sumBody
        [CInt.ofWord 2] (CInt.ofWord 1) :=
    ⟨_, _, ⟨_, _, rfl, rfl⟩, rfl, by decide, by decide, by decide, List.mem_cons_self .., rfl, _,
      .blockCons (.varDef rfl) (.blockCons (.forStart (.varDef rfl) (.loopStep rfl (.exprStmt rfl)
        (.exprStmt rfl) (.loopStep rfl (.exprStmt rfl) (.exprStmt rfl) (.loopDone rfl))))
        (.blockReturn (.ret rfl)))⟩
  obtain ⟨r, P, hacc, hasm, hnd, hlen, hline, hfunc, hcore, hret⟩ := hacc
  have hm : FuncEntry P "sum" 112 [CInt.ofWord 2] (entryMachine 4 (CInt.ofWord 2)) := by
    refine ⟨hline, by decide, fun i v hv => ?_⟩
    obtain ⟨i, hi⟩ := i
    cases i with
    | zero =>
        obtain rfl := Option.some.inj hv
        rfl
    | succ i => simp at hv
  obtain ⟨m', hruns, hexit⟩ :=
    genAsm_preserves hacc hasm hnd hfunc (by decide) hcore hret (Layout.ofLines _ hlen) hm
  exact ⟨r, P, hacc, hasm, _, _, m', hm, hruns, hexit⟩

end MyLang
