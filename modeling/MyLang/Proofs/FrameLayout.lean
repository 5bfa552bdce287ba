/-
The words of a stack frame.

The words are given by how far below the frame pointer they start, as the code that writes
them computes it: the saved `ra` and frame pointer and the argument registers in the
prologue, a variable where it is defined.  Variables get their offsets from one counter,
so each declaration of a function has a word of its own, in whatever block it stands; what
the sizes in `gen_func_def` add up to is just enough for them and for what a call saves.

That no two words overlap follows from a number for each: the words of a frame stand one
below the other, and `FrameWord.index` counts them from the frame pointer down.  Different
words have different numbers (`index_inj`), and a number is below the size of the frame
(`index_lt`).

The distances are connected to the code twice.  `Entered.saved` says that behind the
prologue each of its words holds the register it is for, and `FuncCallCode.saved` that at
the jump of a call the words behind `spillSlot` hold the temporaries and the arguments.
The words of variables are those that `storeOffset` gives, which is what a definition
stores to.
-/
import MyLang.Proofs.FuncRun
import MyLang.Proofs.Resolve

namespace MyLang

open Rv32 ByteMemory

/-! ### Declarations

Every declaration of a function is to have a word, so each has to have a symbol in the
first place: a linked tree has one for every declaration, in the order in which they are
checked.
-/

namespace AstNode

mutual

/-- The symbol fields of the variable declarations of a statement, in the order they are checked. -/
def declSymbols : AstNode → List (Option SymId)
  | .varDec _ _ symbol => [symbol]
  | .varDef _ _ _ symbol => [symbol]
  | .compStmt body => declSymbolsList body
  | .ifElse _ ifBody elseBody => ifBody.declSymbols ++ elseBody.declSymbols
  | .while_ _ body => body.declSymbols
  | .for_ init _ _ body => init.declSymbols ++ body.declSymbols
  | _ => []
termination_by structural node => node

/-- `declSymbols` of the elements of a list. -/
def declSymbolsList : List AstNode → List (Option SymId)
  | [] => []
  | node :: rest => node.declSymbols ++ declSymbolsList rest
termination_by structural nodes => nodes

end

variable {typeEnv : HashMap TypeSpecifier} {func : String} {env : Env} {next : Nat}
  {node' : AstNode}

private theorem localIds_of_resolveExprs {args args' : List AstNode}
    (hargs : ∀ node ∈ args, ∀ {node' : AstNode}, node.resolveExpr env = some node' →
      node'.localIds = [])
    (h : resolveExprs env args = some args') : localIdsList args' = [] := by
  induction args generalizing args' with
  | nil =>
      obtain rfl := Option.some.inj h
      rfl
  | cons node rest ih =>
      obtain ⟨node', rest', h1, h2, rfl⟩ := resolveExprs_cons_eq_some.mp h
      rw [localIdsList, hargs node (by simp) h1, ih (fun n hn => hargs n (by simp [hn])) h2,
        List.append_nil]

/-- Expressions declare nothing. -/
theorem localIds_of_resolveExpr {node : AstNode} (h : node.resolveExpr env = some node') :
    node'.localIds = [] := by
  induction node generalizing node' with
  | intConst | emptyExpr =>
      rw [← Option.some.inj h]
      rfl
  | ident value symbol =>
      obtain ⟨b, -, rfl⟩ := resolveExpr_ident_eq_some.mp h
      rfl
  | funcCall value args symbol ih =>
      obtain ⟨b, args', -, -, hargs, rfl⟩ := resolveExpr_funcCall_eq_some.mp h
      rw [localIds, localIds_of_resolveExprs (fun n hn => ih n hn) hargs]
  | binExp value opType left right ihl ihr =>
      obtain ⟨left', right', hl, hr, rfl⟩ := resolveExpr_binExp_eq_some.mp h
      rw [localIds, ihl hl, ihr hr, List.append_nil]
  | varAsgn target rval ihl ihr =>
      obtain ⟨left', right', hl, hr, rfl⟩ := resolveExpr_varAsgn_eq_some.mp h
      rw [localIds, ihl hl, ihr hr, List.append_nil]
  | unaryExpr expr value opType ih =>
      obtain ⟨expr', he, rfl⟩ := resolveExpr_unaryExpr_eq_some.mp h
      rw [localIds, ih he]
  | lval kind ident ih =>
      obtain ⟨expr', he, rfl⟩ := resolveExpr_lval_eq_some.mp h
      rw [localIds, ih he]
  | _ => simp [resolveExpr] at h

/-- There is no declaration in an expression. -/
theorem declSymbols_of_resolveExpr {node : AstNode} (h : node.resolveExpr env = some node') :
    node'.declSymbols = [] := by
  cases node with
  | intConst | emptyExpr =>
      rw [← Option.some.inj h]
      rfl
  | ident value symbol =>
      obtain ⟨b, -, rfl⟩ := resolveExpr_ident_eq_some.mp h
      rfl
  | funcCall value args symbol =>
      obtain ⟨b, args', -, -, -, rfl⟩ := resolveExpr_funcCall_eq_some.mp h
      rfl
  | binExp value opType left right =>
      obtain ⟨left', right', -, -, rfl⟩ := resolveExpr_binExp_eq_some.mp h
      rfl
  | varAsgn target rval =>
      obtain ⟨left', right', -, -, rfl⟩ := resolveExpr_varAsgn_eq_some.mp h
      rfl
  | unaryExpr expr value opType =>
      obtain ⟨expr', -, rfl⟩ := resolveExpr_unaryExpr_eq_some.mp h
      rfl
  | lval kind ident =>
      obtain ⟨expr', -, rfl⟩ := resolveExpr_lval_eq_some.mp h
      rfl
  | _ => simp [resolveExpr] at h

private theorem declSymbolsList_of_resolve {l l' : List AstNode}
    (hl : ∀ node ∈ l, ∀ {env : Env} {next : Nat} {node' : AstNode},
      node.resolve typeEnv func env next = some node' →
        node'.declSymbols = node'.localIds.map some)
    (h : resolveList typeEnv func env next l = some l') :
    declSymbolsList l' = (localIdsList l').map some := by
  induction l generalizing l' env next with
  | nil =>
      obtain rfl := Option.some.inj h
      rfl
  | cons node rest ih =>
      obtain ⟨node', rest', h1, h2, rfl⟩ := resolveList_cons_eq_some.mp h
      rw [declSymbolsList, localIdsList, List.map_append, hl node (by simp) h1,
        ih (fun n hn => hl n (by simp [hn])) h2]

/-- **Every declaration of a linked statement has a symbol.** -/
theorem declSymbols_of_resolve {node : AstNode}
    (h : node.resolve typeEnv func env next = some node') :
    node'.declSymbols = node'.localIds.map some := by
  induction node generalizing node' env next with
  | varDec value type symbol =>
      obtain ⟨-, -, rfl⟩ := resolve_varDec_eq_some.mp h
      rfl
  | varDef value type expr symbol _ =>
      obtain ⟨-, expr', he, -, rfl⟩ := resolve_varDef_eq_some.mp h
      rw [declSymbols, localIds, localIds_of_resolveExpr he]
      rfl
  | enum value enums =>
      rw [← Option.some.inj h]
      rfl
  | compStmt body ih =>
      obtain ⟨body', hb, rfl⟩ := resolve_compStmt_eq_some.mp h
      exact declSymbolsList_of_resolve (fun n hn => ih n hn) hb
  | ifElse ifExpr ifBody elseBody _ ihb ihe =>
      obtain ⟨ifExpr', ifBody', elseBody', hb, hc, he, rfl⟩ := resolve_ifElse_eq_some.mp h
      rw [declSymbols, localIds, localIds_of_resolveExpr hc, ihb hb, List.nil_append,
        List.map_append]
      split at he
      · rw [ihe he]
      · rename_i hnull
        rw [he, eq_null hnull]
        rfl
  | while_ expr body _ ihb =>
      obtain ⟨expr', body', he, hb, rfl⟩ := resolve_while_eq_some.mp h
      rw [declSymbols, localIds, localIds_of_resolveExpr he, ihb hb, List.nil_append]
  | for_ init cond step body ihi _ _ ihb =>
      obtain ⟨init', cond', step', body', hi, hc, hs, hb, rfl⟩ := resolve_for_eq_some.mp h
      rw [declSymbols, localIds, localIds_of_resolveExpr hc, localIds_of_resolveExpr hs, ihi hi,
        ihb hb, List.nil_append, List.nil_append, List.map_append]
  | ret expr symbol _ =>
      obtain ⟨expr', he, rfl⟩ := resolve_ret_eq_some.mp h
      rw [localIds, localIds_of_resolveExpr he]
      rfl
  | exprStmt expr _ =>
      obtain ⟨expr', he, rfl⟩ := resolve_exprStmt_eq_some.mp h
      rw [localIds, localIds_of_resolveExpr he]
      rfl
  | _ => exact (declSymbols_of_resolveExpr h).trans (by rw [localIds_of_resolveExpr h]; rfl)

end AstNode

/-- Every declaration of a function of a linked program has a symbol. -/
theorem declSymbols_of_resolveProg {typeEnv : HashMap TypeSpecifier} {env : Env} {next : Nat}
    {prog prog' : List AstNode} (h : resolveProg typeEnv env next prog = some prog')
    {name type : String} {body : AstNode} {params : List Param} {symbol : Option SymId}
    (hn : .funcDef name type body params symbol ∈ prog') :
    body.declSymbols = body.localIds.map some := by
  induction prog generalizing env next prog' with
  | nil =>
      obtain rfl := Option.some.inj h
      simp at hn
  | cons node rest ih =>
      cases node with
      | funcDef value type' body' params' symbol' =>
          obtain ⟨body1, rest', -, -, -, hb, hrest, rfl⟩ := resolveProg_cons_eq_some.mp h
          rcases List.mem_cons.mp hn with heq | hn
          · obtain ⟨-, -, rfl, -, -⟩ := AstNode.funcDef.inj heq
            exact AstNode.declSymbols_of_resolve hb
          · exact ih hrest hn
      | _ => simp [resolveProg] at h

/-! ### The words of a frame

The slot of a save register is computed from the new stack pointer, the others from the
frame pointer.  They fit together because the frame is rounded up from what is put into
it.
-/

/-- The words of the frame of a function with `n` variables. -/
inductive FrameWord (n : Nat) where
  | ra
  | fp
  | arg (i : Fin argLength)
  | var (k : Fin n)
deriving DecidableEq

/--
How far below the frame pointer a word starts.  The prologue stores `ra` and the frame
pointer from below, relative to the new stack pointer, which is `frame` below.
-/
def FrameWord.slot (entries : List SymTabEntry) (decls : List (Option SymId)) (frame : Nat) :
    FrameWord decls.length → Nat
  | .ra => frame - (frame - registerSize)
  | .fp => frame - (frame - registerSize * 2)
  | .arg i => registerSize * 3 + registerSize * i
  | .var k => storeOffset entries decls[k]

/--
Where a call stores the `j`th word it saves, a busy temporary or an argument; `frame` is
the frame of the function called (`FuncCallCode.saved`).
-/
def spillSlot (frame : StackFrame) (j : Nat) : Nat := spillBase frame + registerSize * (j + 1)

/-- What a frame is to satisfy; `frame.size` is what the declarations of the function add up to. -/
structure FrameLaidOut (entries : List SymTabEntry) (decls : List (Option SymId))
    (frame : StackFrame) : Prop where
  /-- No two words meet. -/
  apart : ∀ w w' : FrameWord decls.length, w ≠ w' →
    w.slot entries decls (frameSize frame.size) + registerSize
        ≤ w'.slot entries decls (frameSize frame.size) ∨
      w'.slot entries decls (frameSize frame.size) + registerSize
        ≤ w.slot entries decls (frameSize frame.size)
  aligned : ∀ w : FrameWord decls.length,
    registerSize ∣ w.slot entries decls (frameSize frame.size)
  /-- Each word is between the stack pointer and the frame pointer. -/
  inside : ∀ w : FrameWord decls.length,
    registerSize ≤ w.slot entries decls (frameSize frame.size) ∧
      w.slot entries decls (frameSize frame.size) ≤ frameSize frame.size
  multiple : 16 ∣ frameSize frame.size
  /--
  Below the words a call with this frame as its base saves every temporary and eight
  arguments.
  -/
  room : ∀ j < tempLength + argLength, spillSlot frame j ≤ frameSize frame.size ∧
    ∀ w : FrameWord decls.length,
      w.slot entries decls (frameSize frame.size) + registerSize ≤ spillSlot frame j

/-- The position of a word, counted from the frame pointer down. -/
def FrameWord.index {n : Nat} : FrameWord n → Nat
  | .ra => 0
  | .fp => 1
  | .arg i => 2 + i
  | .var k => 2 + argLength + k

/-- No two words have one position. -/
theorem FrameWord.index_inj {n : Nat} {w w' : FrameWord n} (h : w.index = w'.index) : w = w' := by
  cases w with
  | ra =>
      cases w' with
      | ra => rfl
      | _ => simp only [index] at h; omega
  | fp =>
      cases w' with
      | fp => rfl
      | _ => simp only [index] at h; omega
  | arg i =>
      have hi : (i : Nat) < 8 := i.isLt
      cases w' with
      | arg i' =>
          simp only [index] at h
          rw [Fin.ext (show (i : Nat) = i' by omega)]
      | _ => simp only [index] at h; omega
  | var k =>
      cases w' with
      | var k' =>
          simp only [index] at h
          rw [Fin.ext (show (k : Nat) = k' by omega)]
      | arg i' =>
          have hi : (i' : Nat) < 8 := i'.isLt
          simp only [index] at h
          omega
      | _ => simp only [index] at h; omega

theorem FrameWord.index_lt {n : Nat} (w : FrameWord n) : w.index < 10 + n := by
  cases w with
  | arg i =>
      have hi : (i : Nat) < 8 := i.isLt
      simp only [index]
      omega
  | var k =>
      have hk := k.isLt
      have h8 : argLength = 8 := rfl
      simp only [index, h8]
      omega
  | _ => simp only [index]; omega

/-- The words stand one below the other. -/
theorem FuncLayout.slot_eq {entries : List SymTabEntry} {frames : List StackFrame} {name : String}
    {body : AstNode} {params : List Param} {gid fid lo hi : Nat}
    (h : FuncLayout entries frames name body params gid fid lo hi) {decls : List (Option SymId)}
    (hdecls : decls = body.localIds.map some) {frame : Nat} (hframe : 8 ≤ frame)
    (w : FrameWord decls.length) : w.slot entries decls frame = 4 * (w.index + 1) := by
  have hrs : registerSize = 4 := rfl
  cases w with
  | ra => simp only [FrameWord.slot, FrameWord.index, hrs]; omega
  | fp => simp only [FrameWord.slot, FrameWord.index, hrs]; omega
  | arg i => simp only [FrameWord.slot, FrameWord.index, hrs]; omega
  | var k =>
      subst hdecls
      have hk : (k : Nat) < body.localIds.length := by simpa using k.isLt
      have hslot := h.storeOffset_eq rfl (List.getElem?_eq_getElem hk)
      rw [FrameWord.slot, Fin.getElem_fin, List.getElem_map, hslot, FrameWord.index]
      simp only [localsBase, intSize, registerSize, argLength]
      omega

/-- The frame of a function that lies in the heap is laid out. -/
theorem FuncLayout.laidOut {entries : List SymTabEntry} {frames : List StackFrame} {name : String}
    {body : AstNode} {params : List Param} {gid fid lo hi : Nat}
    (h : FuncLayout entries frames name body params gid fid lo hi) {decls : List (Option SymId)}
    (hdecls : decls = body.localIds.map some) :
    FrameLaidOut entries decls { size := intSize * body.localIds.length, func := name } := by
  have hrs : registerSize = 4 := rfl
  have hlen : decls.length = body.localIds.length := by rw [hdecls, List.length_map]
  generalize hframe : ({ size := intSize * body.localIds.length, func := name } : StackFrame)
    = frame
  have hsize : frame.size = 4 * decls.length := by
    rw [← hframe, hlen]
  obtain ⟨hlo, -, hmod⟩ := frameSize_bounds frame.size
  -- the sum is a multiple of four, so rounding it up to sixteen adds at least four
  have hfit : 4 * decls.length + 104 ≤ frameSize frame.size := by omega
  have hslot := fun w => h.slot_eq hdecls (show 8 ≤ frameSize frame.size by omega) w
  have hspill : ∀ j, spillSlot frame j = 4 * decls.length + 48 + 4 * j := by
    intro j
    simp only [spillSlot, spillBase, hsize, localsBase, registerSize, argLength]
    omega
  refine ⟨fun w w' hne => ?_, fun w => ?_, fun w => ?_, ?_, fun j hj => ⟨?_, fun w => ?_⟩⟩
  · have hindex : w.index ≠ w'.index := fun heq => hne (FrameWord.index_inj heq)
    rw [hslot, hslot, hrs]
    omega
  · rw [hslot, hrs]
    exact Nat.dvd_mul_right 4 _
  · have := w.index_lt
    rw [hslot, hrs]
    omega
  · exact Nat.dvd_of_mod_eq_zero hmod
  · have hj : j < 15 := hj
    rw [hspill]
    omega
  · have := w.index_lt
    rw [hslot, hspill, hrs]
    omega

/-! ### What the words hold

The code of a prologue and of a call, run from any state with room for them.
-/

/-- The register a word of the frame holds a copy of. -/
def FrameWord.reg {n : Nat} : FrameWord n → Option Reg
  | .ra => some .ra
  | .fp => some MyLang.fp
  | .arg i => some (.a i)
  | .var _ => none

/-- **The prologue saves every register in its word.** -/
theorem Entered.saved {P : List Line} {L : Layout P.length} {m m' : Machine} {frame : Nat}
    (h : Entered L frame m m') (hframe : 8 ≤ frame) (entries : List SymTabEntry)
    {decls : List (Option SymId)} {w : FrameWord decls.length} {reg : Reg} (hw : w.reg = some reg) :
    loadWord m'.mem (below (m.get .sp) (w.slot entries decls frame)) = m.get reg := by
  have hrs : registerSize = 4 := rfl
  cases w with
  | ra =>
      obtain rfl := Option.some.inj hw
      rw [← h.ra]
      congr 2
      simp only [FrameWord.slot, hrs]
      omega
  | fp =>
      obtain rfl := Option.some.inj hw
      rw [← h.oldFp]
      congr 2
      simp only [FrameWord.slot, hrs]
      omega
  | arg i =>
      obtain rfl := Option.some.inj hw
      rw [← h.args i]
      congr 2
      simp only [FrameWord.slot, hrs]
      omega
  | var k => simp [FrameWord.reg] at hw

/--
**A call saves the busy temporaries and the arguments in its words.**  The temporaries come
first; an argument has the value it has in the memory that the ones before it left.
-/
theorem FuncCallCode.saved {P : List Line} {L : Layout P.length} {m : Machine}
    {frames : List StackFrame} {value : String} {symbol : Option SymId} {args : List AstNode}
    {st st' : AsmState} {reg : Temp} {c : List Line}
    (f : FuncCallCode frames value symbol (evalAsmList frames args) st reg st' c)
    (he : ∀ n ∈ args, n.isExpr = true) (hcf : ∀ n ∈ args, n.callFree = true)
    (hassigned : ∀ n ∈ args, ∀ s ∈ n.assigned, storeOffset st.entries s ≤ spillBase f.frame)
    (hend : spillSlot f.frame (st.busy.length + args.length) ≤ 2 ^ 32) (hnd : (labels P).Nodup)
    (hlabel : .label value ∈ P) (hc : CodeAt P m.pc c) :
    ∃ call, Runs L m call ∧ lineOf P value = some call.pc ∧ call.get fp = m.get fp ∧
      (∀ k i, st.busy[k]? = some i →
        loadWord call.mem (below (m.get fp) (spillSlot f.frame k)) = m.get (.t i)) ∧
      ∀ k arg, args[k]? = some arg →
        loadWord call.mem (below (m.get fp) (spillSlot f.frame (st.busy.length + k)))
          = (denote st.entries (m.get fp) arg
              (callMem m st.entries (spillBase f.frame) st.busy (args.take k))).1 := by
  have hrs : registerSize = 4 := rfl
  have hbound : spillBase f.frame + registerSize * (st.busy.length + args.length) ≤ 2 ^ 32 - 4 := by
    simp only [spillSlot, hrs] at *
    omega
  obtain ⟨call, ret, hcall, -⟩ := f.run (L := L) hcf hnd hlabel hc
  refine ⟨call, hcall.runs, hcall.pc, hcall.fp, fun k i hk => ?_, fun k arg hk => ?_⟩
  · rw [hcall.mem]
    exact callMem_temp he hcf hbound hk hassigned
  · -- counted from the first argument on, its slot is the `k`th
    have hslot : spillSlot f.frame (st.busy.length + k) =
        spillBase f.frame + registerSize * st.busy.length + registerSize * (k + 1) := by
      simp only [spillSlot, hrs]
      omega
    rw [hcall.mem, callMem, hslot]
    refine denoteArgs_get he hcf (by simp only [hrs] at *; omega) (fun n hn s hs => ?_) hk
    exact Nat.le_add_right_of_le (hassigned n hn s hs)

/--
**The frame of every function of an accepted program is laid out without overlaps.**
Every declaration of the body has a symbol, and a word of its own.
-/
theorem Accepted.frameLaidOut {uninit : Int} {arena : SymId → Nat} {tokens : List Token}
    {r : SemaResult} (hacc : Accepted uninit arena tokens r) {name type : String} {body : AstNode}
    {params : List Param} {symbol : Option SymId}
    (hfunc : .funcDef name type body params symbol ∈ r.prog) :
    ∃ (gid : SymId) (e : SymTabEntry) (fid : FrameId) (frame : StackFrame), symbol = some gid ∧
      r.entries[gid]? = some e ∧ e.frame = some fid ∧ r.frames[fid]? = some frame ∧
      FrameLaidOut r.entries body.declSymbols frame := by
  obtain ⟨name', type', body', params', gid, fid, flo, fhi, heq, hlay, -⟩ := hacc.layout.func hfunc
  obtain ⟨rfl, rfl, rfl, rfl, rfl⟩ := AstNode.funcDef.inj heq
  obtain ⟨ty, offset, hc⟩ := hlay.entry
  obtain ⟨e, he, hcore⟩ := coreAt_eq_some hc
  have hframe : e.frame = some fid := congrArg SymTabEntry.frame hcore
  obtain ⟨prog, rest, -, -, hresolve⟩ := hacc.resolveProg
  exact ⟨gid, e, fid, _, rfl, he, hframe, hlay.frame,
    hlay.laidOut (declSymbols_of_resolveProg hresolve hfunc)⟩

theorem Accepted.frameLaidOut_sum : ∃ r, Accepted 0 (fun _ => 0) sumTokens r ∧
    ∃ (gid : SymId) (e : SymTabEntry) (fid : FrameId) (frame : StackFrame), some 1 = some gid ∧
      r.entries[gid]? = some e ∧ e.frame = some fid ∧ r.frames[fid]? = some frame ∧
      FrameLaidOut r.entries sumBody.declSymbols frame := by
  have hacc : ∃ r, Accepted 0 (fun _ => 0) sumTokens r ∧
      .funcDef "sum" "int" sumBody [{ value := "n", type := "int", symbol := some 0 }] (some 1)
        ∈ r.prog := ⟨_, ⟨_, _, rfl, rfl⟩, List.mem_cons_self ..⟩
  obtain ⟨r, hacc, hfunc⟩ := hacc
  exact ⟨r, hacc, hacc.frameLaidOut hfunc⟩

end MyLang
