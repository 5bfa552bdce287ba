/-
Where an assignment writes and where a read looks.

`eval_lval` takes the place of a variable from the `offset` of its entry; `eval_ident`
does so only if the entry is not that of a parameter, whose place it takes from `arg_reg`.
The analysis never sets the `offset` of a parameter, so an assignment to one goes to
wherever the arena's memory says.  For an enum constant nothing is read at all.

`LocationAgrees` is about code that was generated, in any state with the same entries: the
address of every read is that of the store, and a read directly behind the store gives the
value that was stored.  It comes down to one number against another
(`locationAgrees_iff_slot`): the distance at which the entry is read and the distance at
which it is written.

What these are for the symbols of an accepted program takes both ends of the compiler.
The analysis says which entries are variables with an offset of their own, and the
generator marks the parameters of a function before it goes through the body, those of
earlier functions having been marked before.
-/
import MyLang.Proofs.FrameLayout
import MyLang.Proofs.FuncRun

namespace MyLang

open Rv32 ByteMemory StateExcept

variable {P : List Line} {entries : List SymTabEntry} {frames : List StackFrame}

/-! ### Which parameters have been loaded

A parameter stays marked, so an assignment in a later function to a name that has leaked
is one to a parameter, too.
-/

/-- A symbol is that of the `i`th parameter of a function of the program. -/
def ParamAt (prog : List AstNode) (id : SymId) (i : Nat) : Prop :=
  ∃ name type body params symbol p, .funcDef name type body params symbol ∈ prog ∧
    params[i]? = some p ∧ p.symbol = some id

/-- The entries after the functions of a program are generated. -/
def loadedEntries : List AstNode → List SymTabEntry → List SymTabEntry
  | .funcDef _ _ _ params _ :: rest, entries => loadedEntries rest (paramEntries 0 params entries)
  | _, entries => entries

theorem ParamAt.of_rest {node : AstNode} {rest : List AstNode} {id : SymId} {i : Nat}
    (h : ParamAt rest id i) : ParamAt (node :: rest) id i := by
  obtain ⟨name, type, body, params, symbol, p, hmem, hp, hid⟩ := h
  exact ⟨name, type, body, params, symbol, p, List.mem_cons_of_mem _ hmem, hp, hid⟩

namespace ProgLayout

variable {lo : Nat} {prog : List AstNode}

theorem take {prog' : List AstNode} (h : ProgLayout entries frames lo (prog ++ prog')) :
    ProgLayout entries frames lo prog := by
  induction prog generalizing lo with
  | nil => exact ProgLayout.nil
  | cons node rest ih =>
      cases h with
      | cons hf hrest => exact ProgLayout.cons hf (ih hrest)

theorem loadedEntries_append (h : ProgLayout entries frames lo prog) (prog' : List AstNode)
    (es : List SymTabEntry) :
    loadedEntries (prog ++ prog') es = loadedEntries prog' (loadedEntries prog es) := by
  induction h generalizing es with
  | nil => rfl
  | cons hf hrest ih => exact ih _

theorem paramAt_ge (h : ProgLayout entries frames lo prog) {id : Nat} {i : Nat}
    (hp : ParamAt prog id i) : lo ≤ id := by
  obtain ⟨name, type, body, params, symbol, p, hmem, hpi, hid⟩ := hp
  obtain ⟨_, _, _, _, gid, fid, flo, fhi, heq, hf, hle⟩ := h.func hmem
  obtain ⟨rfl, rfl, rfl, rfl, rfl⟩ := AstNode.funcDef.inj heq
  have hid : id = flo + i := Option.some.inj (hid.symm.trans (hf.param_symbol i p hpi))
  omega

/-- Only parameters are marked. -/
theorem loadedEntries_of_not_paramAt (h : ProgLayout entries frames lo prog) {id : Nat}
    (hid : ∀ i, ¬ ParamAt prog id i) (es : List SymTabEntry) :
    (loadedEntries prog es)[id]? = es[id]? := by
  induction h generalizing es with
  | nil => rfl
  | @cons lo hi gid fid name type body params rest hf hrest ih =>
      rw [loadedEntries, ih (fun i hi => hid i hi.of_rest), paramEntries_get _ 0 hf.param_symbol]
      rw [if_neg ?_]
      rintro ⟨h1, h2⟩
      have hlt : id - lo < params.length := by omega
      refine hid (id - lo) ⟨name, type, body, params, some gid, params[id - lo], by simp,
        List.getElem?_eq_getElem hlt, ?_⟩
      rw [hf.param_symbol (id - lo) _ (List.getElem?_eq_getElem hlt),
        show lo + (id - lo) = id by omega]

/-- A parameter is marked with its number. -/
theorem loadedEntries_of_paramAt (h : ProgLayout entries frames lo prog) {id : Nat} {i : Nat}
    (hp : ParamAt prog id i) (es : List SymTabEntry) :
    (loadedEntries prog es)[id]? = es[id]?.map fun e =>
    { e with isArgLoaded := true, argReg := i } := by
  induction h generalizing es with
  | nil =>
      obtain ⟨_, _, _, _, _, _, hmem, -⟩ := hp
      simp at hmem
  | @cons lo hi gid fid name type body params rest hf hrest ih =>
      rw [loadedEntries]
      obtain ⟨name', type', body', params', symbol', p, hmem, hpi, hpid⟩ := hp
      rcases List.mem_cons.mp hmem with heq | hmem
      · obtain ⟨rfl, rfl, rfl, rfl, rfl⟩ := AstNode.funcDef.inj heq
        have hi' : i < params'.length := (List.getElem?_eq_some_iff.mp hpi).1
        have hid : id = lo + i := Option.some.inj (hpid.symm.trans (hf.param_symbol i p hpi))
        -- the functions behind have other parameters
        rw [hrest.loadedEntries_of_not_paramAt fun j hj => ?_, paramEntries_get _ 0 hf.param_symbol,
          if_pos (by omega), show 0 + (id - lo) = i by omega]
        have := hrest.paramAt_ge hj
        have hg := hf.gid_eq
        have hlt := hf.gid_lt
        omega
      · have hp : ParamAt rest id i := ⟨name', type', body', params', symbol', p, hmem, hpi, hpid⟩
        rw [ih hp, paramEntries_get _ 0 hf.param_symbol, if_neg ?_]
        have := hrest.paramAt_ge hp
        have hg := hf.gid_eq
        have hlt := hf.gid_lt
        omega

end ProgLayout

/-- Nothing is marked in what a function allocates. -/
theorem FuncLayout.not_loaded {name : String} {body : AstNode} {params : List Param}
    {gid fid lo hi : Nat} (h : FuncLayout entries frames name body params gid fid lo hi) {id : Nat}
    (h1 : lo ≤ id) (h2 : id < hi) {e : SymTabEntry} (he : coreAt entries id = some e) :
    e.isArgLoaded = false := by
  have hg := h.gid_eq
  rcases Nat.lt_trichotomy id gid with hlt | rfl | hgt
  · obtain ⟨key, type, offset, hc⟩ := h.param_entry (id - lo) (by omega)
    rw [show lo + (id - lo) = id by omega, he] at hc
    rw [Option.some.inj hc]
    rfl
  · obtain ⟨type, offset, hc⟩ := h.entry
    rw [Option.some.inj (he.symm.trans hc)]
    rfl
  · by_cases hmem : id ∈ body.localIds
    · obtain ⟨k, hk, rfl⟩ := List.mem_iff_getElem.mp hmem
      obtain ⟨key, type, hc⟩ := h.local_entry k _ (List.getElem?_eq_getElem hk)
      rw [Option.some.inj (he.symm.trans hc)]
      rfl
    · obtain ⟨key, offset, value, hc⟩ := h.const_entry id hgt h2 hmem
      rw [Option.some.inj (he.symm.trans hc)]
      rfl

/-- The analysis of a program marks no entry. -/
theorem symCheckList_not_loaded {arena : SymId → Nat} {typeEnv : HashMap TypeSpecifier}
    {prog prog' : List AstNode} {s s' : SemaState} (hprog : ∀ n ∈ prog, n.isFuncDef = true)
    (h : symCheckList arena typeEnv none prog s = .ok (prog', s')) {id : Nat} (hid : s.nextId ≤ id)
    {e : SymTabEntry} (he : coreAt s'.entries id = some e) : e.isArgLoaded = false := by
  induction prog generalizing s prog' with
  | nil =>
      rw [symCheckList, pure_eq_ok] at h
      obtain ⟨rfl, rfl⟩ := h
      have := (List.getElem?_eq_some_iff.mp he).1
      rw [List.length_map] at this
      exact absurd this (by simpa [SemaState.nextId] using hid)
  | cons node rest ih =>
      rw [symCheckList, bind_eq_ok] at h
      obtain ⟨n1, s1, h1, h⟩ := h
      rw [bind_eq_ok] at h
      obtain ⟨r1, s2, h2, h⟩ := h
      rw [pure_eq_ok] at h
      obtain ⟨rfl, rfl⟩ := h
      obtain ⟨-, hent, hfr⟩ := symCheckList_layout (fun n hn => hprog n (by simp [hn])) h2
      have hnode := hprog node (by simp)
      by_cases hlt : s1.nextId ≤ id
      · exact ih (fun n hn => hprog n (by simp [hn])) h2 hlt
      · unfold AstNode.isFuncDef at hnode
        split at hnode
        · rename_i value type body params symbol
          obtain ⟨body', ps, gid, -, hf, -⟩ :=
            symCheckFuncDef_layout (@AstNode.funcFree_of_isStmt (.compStmt body) hnode) h1
          exact (hf.mono hent hfr).not_loaded hid (by omega) he
        · simp at hnode

/-- The analysis marks nothing. -/
theorem Accepted.not_loaded {uninit : Int} {arena : SymId → Nat} {tokens : List Token}
    {r : SemaResult} (h : Accepted uninit arena tokens r) {id : Nat} {e : SymTabEntry}
    (he : r.entries[id]? = some e) : e.isArgLoaded = false := by
  obtain ⟨prog, rest, hparse, hsema⟩ := h
  simp only [semaCheck, ExceptRun.bind_eq_ok, ExceptRun.pure_eq_ok] at hsema
  obtain ⟨⟨prog', st⟩, hrun, _, _, rfl⟩ := hsema
  have hcore : coreAt st.entries id = some e.core := by
    rw [coreAt, List.getElem?_map, he]
    rfl
  have := symCheckList_not_loaded (parse_isFuncDef hparse) hrun (Nat.zero_le id) hcore
  exact this

/-- The code of the functions before one, and the state its own is generated in. -/
theorem genAsmList_split {pre post : List AstNode} {node : AstNode} {st st' : AsmState}
    {c : List Line} (hprog : ∀ n ∈ pre ++ node :: post, n.isFuncDef = true)
    (h : genAsmList frames (pre ++ node :: post) st = .ok ((), st', c)) :
    ∃ st1 st2 c1 c2 c3, st1.entries = loadedEntries pre st.entries ∧
      genAsmNode frames node st1 = .ok ((), st2, c2) ∧ c = c1 ++ (c2 ++ c3) := by
  induction pre generalizing st c with
  | nil =>
      rw [List.nil_append, genAsmList, Gen.bind_eq_ok] at h
      obtain ⟨_, st2, c2, c3, h2, -, rfl⟩ := h
      exact ⟨st, st2, [], c2, c3, rfl, h2, rfl⟩
  | cons head pre ih =>
      rw [List.cons_append, genAsmList, Gen.bind_eq_ok] at h
      obtain ⟨_, st1, c0, cr, h0, hrest, rfl⟩ := h
      have hhead := hprog head (by simp)
      obtain ⟨st1', st2, c1, c2, c3, hent, h2, rfl⟩ := ih (fun n hn => hprog n (by simp [hn])) hrest
      refine ⟨st1', st2, c0 ++ c1, c2, c3, ?_, h2, by rw [List.append_assoc]⟩
      cases head with
      | funcDef name type body params symbol =>
          rw [hent, loadedEntries, (genFuncDef_entries (funcFree_of_isFuncDef hhead) h0).2]
      | _ => simp [AstNode.isFuncDef] at hhead

/-! ### Reading back what was assigned

The address is computed from the frame pointer at run time, by an addition that wraps
around.
-/

/-- The code of an assignment: the offset, the value, and the store. -/
structure AsgnCode (frames : List StackFrame) (rval : AstNode) (st : AsmState) (reg : Temp)
    (c : List Line) where
  lreg : Temp
  offset : Int
  st1 : AsmState
  valCode : List Line
  val_eq : evalAsm frames rval (st.take lreg) = .ok (reg, st1, valCode)
  code_eq : c = .instr (.addi (.t lreg) .zero offset) :: (valCode ++ asgnStore lreg reg)

theorem evalVarAsgn_code {x : String} {id : SymId} {rval : AstNode} {st st' : AsmState} {reg : Temp}
    {c : List Line}
    (h : evalAsm frames (.varAsgn (.lval .ident (.ident x (some id))) rval) st
      = .ok (reg, st', c)) :
    ∃ e, st.entries[id]? = some e ∧
      ∃ f : AsgnCode frames rval st reg c, f.offset = sizeToInt (localsBase + e.offset) := by
  rw [evalAsm] at h
  obtain ⟨lreg, st1, c1, st2, cv, hl, hr, rfl, rfl⟩ := evalVarAsgn_eq_ok.mp h
  obtain ⟨x', id', e, hident, he, -, rfl, rfl⟩ := evalLval_eq_ok.mp hl
  obtain ⟨-, hid⟩ := AstNode.ident.inj hident
  obtain rfl := Option.some.inj hid
  exact ⟨e, he, ⟨lreg, _, st2, cv, hr, rfl⟩, rfl⟩

/--
Wherever a variable is read, that is at the address the assignment stores to; and
directly behind the store the value read is the one stored.
-/
structure LocationAgrees (entries : List SymTabEntry) (id : SymId) (lreg reg : Temp)
    (offset : Int) : Prop where
  address : ∀ (st st' : AsmState) (r : Temp) (c : List Line), st.entries = entries →
    evalIdent (some id) st = .ok (r, st', c) →
      ∃ slot : Int, c = [.instr (.lw (.t r) slot fp)] ∧
        ∀ s0 : Word, s0 + BitVec.ofInt 32 slot = s0 - BitVec.ofInt 32 offset
  readBack : ∀ (st st' : AsmState) (r : Temp) (c : List Line), st.entries = entries →
    evalIdent (some id) st = .ok (r, st', c) →
      ∀ (P : List Line) (L : Layout P.length) (m : Machine),
        CodeAt P m.pc (asgnStore lreg reg ++ c) →
        lreg ≠ reg → m.get (.t lreg) = BitVec.ofInt 32 offset →
        ∃ m', Runs L m m' ∧ m'.pc = m.pc + (asgnStore lreg reg ++ c).length ∧
          m'.get (.t r) = m.get (.t reg)

/-- The place an entry is read at is the one it is written at. -/
def SlotsMeet (prog : List AstNode) (id : SymId) (e : SymTabEntry) : Prop :=
  e.symbol ≠ .const ∧
    ∀ i, ParamAt prog id i → BitVec.ofNat 32 (localsBase + e.offset)
      = BitVec.ofNat 32 (registerSize * (3 + i))

section Ident

variable {id : SymId} {e : SymTabEntry} {st st' : AsmState} {r : Temp} {c : List Line}

theorem evalIdent_const_code (he : st.entries[id]? = some e) (hconst : e.symbol = .const)
    (h : evalIdent (some id) st = .ok (r, st', c)) :
    c = [.instr (.addi (.t r) .zero e.constValue)] := by
  obtain ⟨id', e', hid, he', -, -, rfl⟩ := evalIdent_eq_ok.mp h
  obtain rfl := Option.some.inj hid
  obtain rfl := Option.some.inj (he.symm.trans he')
  rw [identInstr, if_pos hconst]

theorem evalIdent_var_code (he : st.entries[id]? = some e) (hconst : e.symbol ≠ .const)
    (h : evalIdent (some id) st = .ok (r, st', c)) :
    c = [.instr (.lw (.t r) (-(slotOf e : Int)) fp)] := by
  obtain ⟨id', e', hid, he', -, -, rfl⟩ := evalIdent_eq_ok.mp h
  obtain rfl := Option.some.inj hid
  obtain rfl := Option.some.inj (he.symm.trans he')
  rw [identInstr, if_neg hconst]

/-- With a free register, any entry can be read. -/
theorem evalIdent_makeRiscv (he : entries[id]? = some e) :
    ∃ r st' c, evalIdent (some id) (makeRiscv entries) = .ok (r, st', c) := by
  have hent : (makeRiscv entries).entries[id]? = some e := he
  exact ⟨0, _, _, evalIdent_eq_ok.mpr ⟨id, e, rfl, hent, rfl, rfl, rfl⟩⟩

end Ident

/-- The store and a load from the same address. -/
private theorem readBack_run {L : Layout P.length} {m : Machine} {lreg reg r : Temp}
    {slot offset : Int} (hc : CodeAt P m.pc (asgnStore lreg reg ++ [.instr (.lw (.t r) slot fp)]))
    (hne : lreg ≠ reg) (hl : m.get (.t lreg) = BitVec.ofInt 32 offset)
    (haddr : m.get fp + BitVec.ofInt 32 slot = m.get fp - BitVec.ofInt 32 offset) :
    ∃ m', Runs L m m' ∧ m'.pc = m.pc + 3 ∧ m'.get (.t r) = m.get (.t reg) := by
  have hreg : (Reg.t reg) ≠ .t lreg := fun h => hne (Reg.t.inj h).symm
  have hfp : (fp : Reg) ≠ .t lreg := by simp
  have hc3 := hc.2.2
  -- the machine behind the store
  obtain ⟨m2, hruns, hpc, hget, hmem⟩ : ∃ m2, Runs L m m2 ∧ m2.pc = m.pc + 2 ∧
    m2.get fp = m.get fp ∧
      m2.mem = storeWord m.mem (m.get fp - BitVec.ofInt 32 offset) (m.get (.t reg)) := by
    refine ⟨_, (runs_instr hc rfl).trans (runs_instr hc.2 rfl), rfl, ?_, ?_⟩
    · rw [Machine.next_get, Machine.store_get, get_set_next_ne hfp]
    · rw [Machine.next_mem, Machine.store_mem, Machine.next_mem, Machine.set_mem,
        get_set_next_ne hreg, get_set_next_temp, hl]
      simp [AluOp.eval]
  have hc3 : CodeAt P m2.pc [.instr (.lw (.t r) slot fp)] := by
    rw [hpc]
    exact hc.2.2
  refine ⟨_, hruns.trans (runs_instr hc3 rfl), ?_, ?_⟩
  · rw [Machine.next_pc, Machine.set_pc, hpc]
  · rw [get_set_next_temp, hget, hmem, haddr, loadWord_storeWord_self]

/--
The two places are the same exactly if a variable is read, and at the offset it is written
at.
-/
theorem locationAgrees_iff_slot {id : SymId} {e : SymTabEntry} (he : entries[id]? = some e)
    (lreg reg : Temp) :
    LocationAgrees entries id lreg reg (sizeToInt (localsBase + e.offset)) ↔
      e.symbol ≠ .const ∧ BitVec.ofNat 32 (localsBase + e.offset) = BitVec.ofNat 32 (slotOf e) := by
  constructor
  · intro h
    obtain ⟨r, st', c, hread⟩ := evalIdent_makeRiscv he
    obtain ⟨slot, hc, haddr⟩ := h.address _ _ _ _ rfl hread
    by_cases hconst : e.symbol = .const
    · have hent : (makeRiscv entries).entries[id]? = some e := he
      rw [evalIdent_const_code hent hconst hread] at hc
      simp at hc
    · refine ⟨hconst, ?_⟩
      have hent : (makeRiscv entries).entries[id]? = some e := he
      rw [evalIdent_var_code hent hconst hread] at hc
      obtain rfl : -(slotOf e : Int) = slot := by simpa using hc
      have := haddr 0
      rw [add_ofInt_neg, ofInt_sizeToInt, below] at this
      simpa using this.symm
  · rintro ⟨hconst, hslot⟩
    have haddr : ∀ s0 : Word, s0 + BitVec.ofInt 32 (-(slotOf e : Int))
        = s0 - BitVec.ofInt 32 (sizeToInt (localsBase + e.offset)) := by
      intro s0
      rw [add_ofInt_neg, ofInt_sizeToInt, hslot, below]
    refine ⟨fun st st' r c hst hread => ?_, fun st st' r c hst hread P L m hc hne hl => ?_⟩
    · exact ⟨_, evalIdent_var_code (hst ▸ he) hconst hread, haddr⟩
    · obtain rfl := evalIdent_var_code (hst ▸ he) hconst hread
      exact readBack_run hc hne hl (haddr _)

/--
**A read finds what was assigned exactly where the two places are the same.**  That is
so for every variable of the function; for a parameter, its own or one an earlier
function has left in scope, only by chance; never for an enum constant.
-/
theorem Accepted.locationAgrees_iff {uninit : Int} {arena : SymId → Nat} {tokens : List Token}
    {r : SemaResult} (hacc : Accepted uninit arena tokens r) (hasm : genAsm r = .ok P)
    {pre post : List AstNode} {name type : String} {body : AstNode} {params : List Param}
    {symbol : Option SymId}
    (hprog : r.prog = pre ++ .funcDef name type body params symbol :: post) :
    ∃ st st' cb p, genAsmNode r.frames body st = .ok ((), st', cb) ∧ CodeAt P p cb ∧
      ∀ (x : String) (id : SymId) (rval : AstNode) (st1 st1' : AsmState) (reg : Temp)
        (c : List Line), st1.entries = st.entries →
        evalAsm r.frames (.varAsgn (.lval .ident (.ident x (some id))) rval) st1
          = .ok (reg, st1', c) →
        ∃ (e : SymTabEntry) (f : AsgnCode r.frames rval st1 reg c), r.entries[id]? = some e ∧
          (LocationAgrees st.entries id f.lreg reg f.offset ↔
            SlotsMeet (pre ++ [.funcDef name type body params symbol]) id e) := by
  obtain ⟨stp, cp, hgen, hP⟩ := genAsm_eq_ok.mp hasm
  have hfuncs := hacc.isFuncDef
  have hlay := hacc.layout
  rw [hprog] at hgen hfuncs hlay
  obtain ⟨st0, st2, c1, c2, c3, hent, hnode, rfl⟩ := genAsmList_split hfuncs hgen
  rw [genAsmNode, genFuncDef_eq_ok] at hnode
  obtain ⟨gid, ge, fid, fr, cb, -, -, -, -, -, hbody, rfl⟩ := hnode
  have hc : CodeAt P (startCode ++ c1).length (.label name :: (prologueCode (frameSize fr.size) ++
      (cb ++ funcEndCode type (frameSize fr.size)))) := codeAt_of_eq (by rw [hP, List.append_assoc])
  rw [codeAt_cons, codeAt_append, codeAt_append] at hc
  refine ⟨_, st2, cb, _, hbody, hc.2.2.1, fun x id rval st1 st1' reg c hst h => ?_⟩
  obtain ⟨e1, he1, f, hoff⟩ := evalVarAsgn_code h
  have hlay' :
      ProgLayout r.entries r.frames 0 (pre ++ [.funcDef name type body params symbol]) := by
    have : pre ++ .funcDef name type body params symbol :: post
        = (pre ++ [.funcDef name type body params symbol]) ++ post := by simp
    exact (this ▸ hlay).take
  -- the functions up to this one are those whose parameters are marked
  have hes :
      st1.entries = loadedEntries (pre ++ [.funcDef name type body params symbol]) r.entries := by
    rw [hst, hlay'.take.loadedEntries_append, loadedEntries, hent]
    rfl
  rw [← hst]
  rw [hes] at he1
  by_cases hp : ∃ i, ParamAt (pre ++ [.funcDef name type body params symbol]) id i
  · obtain ⟨i, hi⟩ := hp
    rw [hlay'.loadedEntries_of_paramAt hi, Option.map_eq_some_iff] at he1
    obtain ⟨e, he, rfl⟩ := he1
    have he1 := hlay'.loadedEntries_of_paramAt hi r.entries
    rw [he, ← hes] at he1
    have hagree := locationAgrees_iff_slot he1 f.lreg reg
    rw [← hoff] at hagree
    refine ⟨e, f, he, hagree.trans (and_congr_right fun _ => ?_)⟩
    have hslot : slotOf { e with isArgLoaded := true, argReg := i } = registerSize * (3 + i) := rfl
    rw [hslot]
    constructor
    · intro h j hj
      have hej := hlay'.loadedEntries_of_paramAt hj r.entries
      rw [← hes, he1, he] at hej
      obtain rfl : i = j := congrArg SymTabEntry.argReg (Option.some.inj hej)
      exact h
    · intro h
      exact h i hi
  · have hp : ∀ i, ¬ ParamAt (pre ++ [.funcDef name type body params symbol]) id i :=
      fun i hi => hp ⟨i, hi⟩
    rw [hlay'.loadedEntries_of_not_paramAt hp] at he1
    have he := hlay'.loadedEntries_of_not_paramAt hp r.entries
    rw [he1, ← hes] at he
    have hagree := locationAgrees_iff_slot he f.lreg reg
    rw [← hoff] at hagree
    refine ⟨e1, f, he1, hagree.trans (and_congr_right fun _ => ?_)⟩
    have hslot : slotOf e1 = e1.offset + localsBase := by
      rw [slotOf, hacc.not_loaded he1]
      rfl
    rw [hslot, Nat.add_comm e1.offset]
    exact ⟨fun _ i hi => absurd hi (hp i), fun _ => rfl⟩

/-- `int f(int x) { x = 1; return x; }` -/
def asgnTokens : List Token :=
  [tok .type "int", tok .ident "f", tok .lparen "(", tok .type "int", tok .ident "x",
    tok .rparen ")", tok .lbrace "\x7b", tok .ident "x", tok .assign "=", tok .num "1",
    tok .semicolon ";", tok .return_ "return", tok .ident "x", tok .semicolon ";",
    tok .rbrace "\x7d"]

/-- The checked body of `f` in `asgnTokens`. -/
def asgnBody : AstNode :=
  .compStmt [.exprStmt (.varAsgn (.lval .ident (.ident "x" (some 0))) (.intConst 1)),
    .ret (.ident "x" (some 0)) (some 1)]

/-- The checked `f` of `asgnTokens`. -/
def asgnFunc : AstNode :=
  .funcDef "f" "int" asgnBody [{ value := "x", type := "int", symbol := some 0 }] (some 1)

theorem Accepted.locationAgrees_iff_asgn : ∃ r P, Accepted 0 (fun _ => 0) asgnTokens r ∧
    genAsm r = .ok P ∧
    ∃ st st' cb p, genAsmNode r.frames asgnBody st = .ok ((), st', cb) ∧ CodeAt P p cb ∧
      ∀ (x : String) (id : SymId) (rval : AstNode) (st1 st1' : AsmState) (reg : Temp)
        (c : List Line), st1.entries = st.entries →
        evalAsm r.frames (.varAsgn (.lval .ident (.ident x (some id))) rval) st1
          = .ok (reg, st1', c) →
        ∃ (e : SymTabEntry) (f : AsgnCode r.frames rval st1 reg c), r.entries[id]? = some e ∧
          (LocationAgrees st.entries id f.lreg reg f.offset ↔
            SlotsMeet ([] ++ [asgnFunc]) id e) := by
  have hacc : ∃ r P, Accepted 0 (fun _ => 0) asgnTokens r ∧ genAsm r = .ok P ∧
      r.prog = [] ++ asgnFunc :: [] :=
    ⟨_, _, ⟨_, _, rfl, rfl⟩, rfl, rfl⟩
  obtain ⟨r, P, hacc, hasm, hprog⟩ := hacc
  exact ⟨r, P, hacc, hasm, hacc.locationAgrees_iff hasm hprog⟩

/-- In `f`, `x = 1` goes to another place than the one `x` is read at. -/
theorem asgnTokens_not_locationAgrees : ∃ r, Accepted 0 (fun _ => 0) asgnTokens r ∧
    ∃ st st' cb, genAsmNode r.frames asgnFunc (makeRiscv r.entries) = .ok ((), st', cb) ∧
      st.entries = loadedEntries r.prog r.entries ∧
      ∃ (reg : Temp) (st1 : AsmState) (c : List Line)
        (f : AsgnCode r.frames (.intConst 1) st reg c),
        evalAsm r.frames (.varAsgn (.lval .ident (.ident "x" (some 0))) (.intConst 1)) st
          = .ok (reg, st1, c) ∧ c <:+: cb ∧ ¬ LocationAgrees st.entries 0 f.lreg reg f.offset := by
  have hacc : ∃ r, Accepted 0 (fun _ => 0) asgnTokens r ∧
      ∃ st st' cb, genAsmNode r.frames asgnFunc (makeRiscv r.entries) = .ok ((), st', cb) ∧
        st.entries = loadedEntries r.prog r.entries ∧
        (∃ reg st1 c, evalAsm r.frames (.varAsgn (.lval .ident (.ident "x" (some 0)))
          (.intConst 1)) st = .ok (reg, st1, c) ∧ c = (cb.drop 13).take 4) ∧
        st.entries[0]? = some { varEntry "x" .int 0 with isArgLoaded := true, isUsed := true } :=
    ⟨_, ⟨_, _, rfl, rfl⟩, { makeRiscv [] with entries := _ }, _, _, rfl, rfl, ⟨_, _, _, rfl, rfl⟩,
      rfl⟩
  obtain ⟨r, hacc, st, st', cb, hgen, hent, ⟨reg, st1, c, h, hin⟩, he⟩ := hacc
  have hin : c <:+: cb :=
    hin ▸ (List.take_prefix 4 _).isInfix.trans (List.drop_suffix 13 cb).isInfix
  obtain ⟨e, he', f, hoff⟩ := evalVarAsgn_code h
  obtain rfl := Option.some.inj (he.symm.trans he')
  refine ⟨r, hacc, st, st', cb, hgen, hent, reg, st1, c, f, h, hin, ?_⟩
  rw [hoff, locationAgrees_iff_slot he]
  rintro ⟨-, hslot⟩
  -- the offset field is 0, the parameter is the first one
  exact absurd hslot (by decide)

end MyLang
