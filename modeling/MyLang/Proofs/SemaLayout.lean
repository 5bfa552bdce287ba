/-
How the analysis lays out the heap.

Checking a statement only appends entries: one per declaration, in the order the
declarations are checked.  The entry of a local variable gets the current size of its
function's frame as its offset and the frame grows by a word, so the offsets of a
function's variables are 0, 4, 8 and so on up to the size of its frame, and no two
functions share a variable.  Entries that exist change only in `isUsed`, which `core`
leaves out.

`Declares` is this for a piece of a body, and it composes: `symCheck_declares` is the
induction over the tree, and each case of it is the pieces in the order in which
`symCheck` visits them (`trans`), with a declaration of its own (`var`, `const`) where
there is one.  A scope that is entered and left changes neither entries nor frames, so the
scopes play no part here.

`FuncLayout` is what the code generator finds of a function, and `Accepted.layout` the
whole of what the later modules take from the analysis: the functions of an accepted
program lie in the heap one after the other, in ranges that do not meet.
-/
import MyLang.Compiler
import MyLang.Proofs.SemaStep
import MyLang.Proofs.ParseShape

namespace MyLang

open StateExcept

variable {arena : SymId → Nat} {typeEnv : HashMap TypeSpecifier} {s s' s1 s2 : SemaState}
  {fid : FrameId}

namespace AstNode

mutual

/-- There is no function definition in a tree. -/
def funcFree : AstNode → Bool
  | .intConst _ | .ident _ _ | .enum _ _ | .varDec _ _ _ | .emptyExpr | .null => true
  | .binExp _ _ left right => left.funcFree && right.funcFree
  | .funcDef _ _ _ _ _ => false
  | .varDef _ _ expr _ => expr.funcFree
  | .compStmt body => funcFreeList body
  | .funcCall _ args _ => funcFreeList args
  | .ret expr _ => expr.funcFree
  | .ifElse ifExpr ifBody elseBody => ifExpr.funcFree && ifBody.funcFree && elseBody.funcFree
  | .varAsgn target rval => target.funcFree && rval.funcFree
  | .while_ expr body => expr.funcFree && body.funcFree
  | .for_ init cond step body =>
      init.funcFree && cond.funcFree && step.funcFree && body.funcFree
  | .exprStmt expr => expr.funcFree
  | .unaryExpr postfixExpr _ _ => postfixExpr.funcFree
  | .lval _ target => target.funcFree
termination_by structural node => node

/-- `funcFree` on the elements of a list. -/
def funcFreeList : List AstNode → Bool
  | [] => true
  | node :: rest => node.funcFree && funcFreeList rest
termination_by structural nodes => nodes

end

mutual

/-- The symbols of the variables a tree declares, in the order they are checked. -/
def localIds : AstNode → List SymId
  | .intConst _ | .ident _ _ | .enum _ _ | .emptyExpr | .null | .funcDef _ _ _ _ _ => []
  | .varDec _ _ symbol => symbol.toList
  | .binExp _ _ left right => left.localIds ++ right.localIds
  | .varDef _ _ expr symbol => expr.localIds ++ symbol.toList
  | .compStmt body => localIdsList body
  | .funcCall _ args _ => localIdsList args
  | .ret expr _ => expr.localIds
  | .ifElse ifExpr ifBody elseBody => ifBody.localIds ++ (ifExpr.localIds ++ elseBody.localIds)
  | .varAsgn target rval => target.localIds ++ rval.localIds
  | .while_ expr body => expr.localIds ++ body.localIds
  | .for_ init cond step body =>
      init.localIds ++ (cond.localIds ++ (step.localIds ++ body.localIds))
  | .exprStmt expr => expr.localIds
  | .unaryExpr postfixExpr _ _ => postfixExpr.localIds
  | .lval _ target => target.localIds
termination_by structural node => node

/-- `localIds` of the elements of a list, in order. -/
def localIdsList : List AstNode → List SymId
  | [] => []
  | node :: rest => node.localIds ++ localIdsList rest
termination_by structural nodes => nodes

end

end AstNode

/-! ### Entries

`varIds` picks the variables out of a run of entries, and `Numbered` says which offsets
they have.  Enum constants come between them, with an offset nothing reads.
-/

/-- An entry without its mark of use. -/
def SymTabEntry.core (e : SymTabEntry) : SymTabEntry := { e with isUsed := false }

theorem core_varEntry (key : String) (type : TypeSpecifier) (offset : Nat) :
    (varEntry key type offset).core = varEntry key type offset := rfl

theorem core_constEntry (key : String) (offset value : Nat) :
    (constEntry key offset value).core = constEntry key offset value := rfl

theorem core_funcEntry (key : String) (type : TypeSpecifier) (offset : Nat)
    (params : List Param) (frame : FrameId) :
    (funcEntry key type offset params frame).core = funcEntry key type offset params frame := rfl

/-- The ids of the variables among entries numbered from `n` on. -/
def varIds : Nat → List SymTabEntry → List Nat
  | _, [] => []
  | n, e :: es => if e.symbol = .variable then n :: varIds (n + 1) es else varIds (n + 1) es

/-- Variables take the offsets from `size` on, word by word; between them are enum constants. -/
inductive Numbered : Nat → List SymTabEntry → Prop
  | nil {size} : Numbered size []
  | var {size key type es} (h : Numbered (size + intSize) es) :
      Numbered size (varEntry key type size :: es)
  | const {size key offset value es} (h : Numbered size es) :
      Numbered size (constEntry key offset value :: es)

theorem varIds_append (n : Nat) (es es' : List SymTabEntry) :
    varIds n (es ++ es') = varIds n es ++ varIds (n + es.length) es' := by
  induction es generalizing n with
  | nil => simp [varIds]
  | cons e es ih =>
      rw [List.cons_append, varIds, varIds, ih, List.length_cons,
        show n + 1 + es.length = n + (es.length + 1) by omega]
      split <;> simp

theorem Numbered.append {size : Nat} {es es' : List SymTabEntry} (n : Nat)
    (h : Numbered size es) (h' : Numbered (size + intSize * (varIds n es).length) es') :
    Numbered size (es ++ es') := by
  induction h generalizing n with
  | nil => simpa [varIds] using h'
  | @var size key type es h ih =>
      refine Numbered.var (ih (n + 1) ?_)
      simpa [varIds, varEntry, Nat.mul_add, Nat.add_comm, Nat.add_left_comm, Nat.add_assoc] using h'
  | const h ih =>
      refine Numbered.const (ih (n + 1) ?_)
      simpa [varIds, constEntry] using h'

/-- The ids of variables lie in their range and ascend. -/
theorem varIds_bounds {n id : Nat} {es : List SymTabEntry} (h : id ∈ varIds n es) :
    n ≤ id ∧ id < n + es.length := by
  induction es generalizing n with
  | nil => simp [varIds] at h
  | cons e es ih =>
      rw [varIds] at h
      rw [List.length_cons]
      split at h
      · rcases List.mem_cons.mp h with rfl | h
        · omega
        · have := ih h
          omega
      · have := ih h
        omega

theorem varIds_sorted (n : Nat) (es : List SymTabEntry) : (varIds n es).Pairwise (· < ·) := by
  induction es generalizing n with
  | nil => exact List.Pairwise.nil
  | cons e es ih =>
      rw [varIds]
      split
      · exact List.Pairwise.cons (fun id h => (varIds_bounds h).1) (ih (n + 1))
      · exact ih (n + 1)

/-- The entry of the `k`th variable has the `k`th offset. -/
theorem Numbered.entry {size : Nat} {n id : Nat} {es : List SymTabEntry} (h : Numbered size es)
    {k : Nat} (hk : (varIds n es)[k]? = some id) :
    ∃ key type, es[id - n]? = some (varEntry key type (size + intSize * k)) := by
  induction h generalizing n k with
  | nil => simp [varIds] at hk
  | @var size key type es h ih =>
      rw [varIds, if_pos (by rfl)] at hk
      cases k with
      | zero =>
          obtain rfl : n = id := by simpa using hk
          exact ⟨key, type, by simp⟩
      | succ k =>
          rw [List.getElem?_cons_succ] at hk
          obtain ⟨key', type', he⟩ := ih hk
          have hb := varIds_bounds (List.mem_of_getElem? hk)
          refine ⟨key', type', ?_⟩
          rw [show id - n = id - (n + 1) + 1 by omega, List.getElem?_cons_succ, he,
            show size + intSize + intSize * k = size + intSize * (k + 1) by
            rw [Nat.mul_succ]
            omega]
  | @const size key offset value es h ih =>
      rw [varIds, if_neg (by simp [constEntry])] at hk
      obtain ⟨key', type', he⟩ := ih hk
      have hb := varIds_bounds (List.mem_of_getElem? hk)
      refine ⟨key', type', ?_⟩
      rw [show id - n = id - (n + 1) + 1 by omega, List.getElem?_cons_succ, he]

/-! ### Statements

`frames[fid]?` is the only frame a body changes, and it grows by a word for each variable,
so the size of the frame before a piece is the offset of its first variable.
-/

/--
From `s` to `s'` a piece of a function body was checked: the entries `new` came in, the
variables among them, `ids`, took the next words of the frame, nothing else changed.
-/
structure Declares (fid : FrameId) (s : SemaState) (ids : List SymId) (new : List SymTabEntry)
    (s' : SemaState) : Prop where
  entries : s'.entries.map SymTabEntry.core = s.entries.map SymTabEntry.core ++ new
  ids_eq : ids = varIds s.nextId new
  frames : s'.frames =
    s.frames.modify fid fun f => { f with size := f.size + intSize * ids.length }
  numbered : ∀ f, s.frames[fid]? = some f → Numbered f.size new

namespace Declares

variable {ids ids1 ids2 : List SymId} {new new1 new2 : List SymTabEntry}

theorem nextId (h : Declares fid s ids new s') : s'.nextId = s.nextId + new.length := by
  have := congrArg List.length h.entries
  simpa [SemaState.nextId] using this

private theorem modify_grow_zero (frames : List StackFrame) :
    frames.modify fid (fun f => { f with size := f.size + 0 }) = frames := by
  have : (fun f : StackFrame => { f with size := f.size + 0 }) = id := by
    funext f
    rfl
  rw [this, List.modify_id]

theorem refl (s : SemaState) : Declares fid s [] [] s :=
  ⟨by simp, rfl, (modify_grow_zero _).symm, fun _ _ => Numbered.nil⟩

/-- Only the entries' cores and the frames matter. -/
theorem congr (h : Declares fid s ids new s')
    (h1 : s1.entries.map SymTabEntry.core = s.entries.map SymTabEntry.core)
    (h1f : s1.frames = s.frames)
    (h2 : s2.entries.map SymTabEntry.core = s'.entries.map SymTabEntry.core)
    (h2f : s2.frames = s'.frames) : Declares fid s1 ids new s2 := by
  have hid : s1.nextId = s.nextId := by
    have := congrArg List.length h1
    simpa [SemaState.nextId] using this
  exact ⟨by rw [h2, h.entries, h1], by rw [hid, h.ids_eq], by rw [h2f, h.frames, h1f],
    fun f hf => h.numbered f (h1f ▸ hf)⟩

theorem trans_eq (h : Declares fid s ids1 new s') (he : ids1 = ids2) :
    Declares fid s ids2 new s' := he ▸ h

theorem trans (h1 : Declares fid s ids1 new1 s1) (h2 : Declares fid s1 ids2 new2 s2) :
    Declares fid s (ids1 ++ ids2) (new1 ++ new2) s2 := by
  refine ⟨by rw [h2.entries, h1.entries, List.append_assoc], ?_, ?_, ?_⟩
  · rw [varIds_append, ← h1.nextId, ← h1.ids_eq, ← h2.ids_eq]
  · rw [h2.frames, h1.frames, List.modify_modify_eq]
    congr 1
    funext f
    simp [Nat.mul_add, Nat.add_assoc]
  · intro f hf
    refine (h1.numbered f hf).append s.nextId ?_
    rw [← h1.ids_eq]
    refine h2.numbered { f with size := f.size + intSize * ids1.length } ?_
    rw [h1.frames, List.getElem?_modify_eq, hf]
    rfl

private theorem core_use (s : SemaState) (id : SymId) :
    (s.use id).entries.map SymTabEntry.core = s.entries.map SymTabEntry.core := by
  apply List.ext_getElem?
  intro i
  simp only [SemaState.use, List.getElem?_map, List.getElem?_modify]
  cases s.entries[i]? with
  | none => rfl
  | some e => by_cases hi : id = i <;> simp [hi, SymTabEntry.core]

theorem use (s : SemaState) (id : SymId) : Declares fid s [] [] (s.use id) :=
  (refl s).congr rfl rfl (core_use s id) rfl

theorem const (s : SemaState) (key : String) (offset value : Nat) :
    Declares fid s [] [constEntry key offset value] (s.declare (constEntry key offset value)) :=
  ⟨by simp [SemaState.declare, core_constEntry], rfl, (modify_grow_zero _).symm,
    fun _ _ => Numbered.const Numbered.nil⟩

theorem var {f : StackFrame} {key : String} {type : TypeSpecifier} (hf : s.frames[fid]? = some f)
    (hent : s1.entries = s.entries) (hfr : s1.frames = s.frames) :
    Declares fid s [s.nextId] [varEntry key type f.size]
      ((s1.grow fid).declare (varEntry key type f.size)) := by
  refine ⟨by simp [SemaState.declare, SemaState.grow, hent, core_varEntry], rfl, ?_, ?_⟩
  · simp [SemaState.declare, SemaState.grow, hfr]
  · intro f' hf'
    obtain rfl : f = f' := Option.some.inj (hf.symm.trans hf')
    exact Numbered.var Numbered.nil

end Declares

private theorem symCheckEnums_declares {keys : List String} {i : Nat} {u : Unit}
    (h : symCheckEnums arena i keys s = .ok (u, s')) : ∃ new, Declares fid s [] new s' := by
  induction keys generalizing s i with
  | nil =>
      obtain rfl := symCheckEnums_nil_eq_ok.mp h
      exact ⟨[], Declares.refl _⟩
  | cons key rest ih =>
      obtain ⟨new, hd⟩ := ih (symCheckEnums_cons_eq_ok.mp h)
      exact ⟨_, (Declares.const s key _ _).trans hd⟩

/-- Checking the elements of a list, if checking each of them declares. -/
private theorem symCheckList_declares {l l' : List AstNode}
    (hl : ∀ node ∈ l, ∀ {s s' : SemaState} {node' : AstNode},
      symCheck arena typeEnv (some fid) node s = .ok (node', s') →
        ∃ new, Declares fid s node'.localIds new s')
    (h : symCheckList arena typeEnv (some fid) l s = .ok (l', s')) :
    ∃ new, Declares fid s (AstNode.localIdsList l') new s' := by
  induction l generalizing s l' with
  | nil =>
      rw [symCheckList, pure_eq_ok] at h
      obtain ⟨rfl, rfl⟩ := h
      exact ⟨[], Declares.refl _⟩
  | cons node rest ih =>
      rw [symCheckList, bind_eq_ok] at h
      obtain ⟨n1, s1, h1, h⟩ := h
      rw [bind_eq_ok] at h
      obtain ⟨r1, s2, h2, h⟩ := h
      rw [pure_eq_ok] at h
      obtain ⟨rfl, rfl⟩ := h
      obtain ⟨new1, hd1⟩ := hl node (by simp) h1
      obtain ⟨new2, hd2⟩ := ih (fun node hn => hl node (by simp [hn])) h2
      exact ⟨_, hd1.trans hd2⟩

theorem funcFreeList_iff {l : List AstNode} :
    AstNode.funcFreeList l = true ↔ ∀ n ∈ l, n.funcFree = true := by
  induction l with
  | nil => simp [AstNode.funcFreeList]
  | cons n l ih => simp [AstNode.funcFreeList, ih]

/-- **Checking a piece of a function body declares its variables and nothing else.** -/
theorem symCheck_declares {node node' : AstNode} (hff : node.funcFree = true)
    (h : symCheck arena typeEnv (some fid) node s = .ok (node', s')) :
    ∃ new, Declares fid s node'.localIds new s' := by
  induction node generalizing s s' node' with
  | intConst value =>
      rw [symCheck, pure_eq_ok] at h
      obtain ⟨rfl, rfl⟩ := h
      exact ⟨[], Declares.refl _⟩
  | emptyExpr =>
      rw [symCheck, pure_eq_ok] at h
      obtain ⟨rfl, rfl⟩ := h
      exact ⟨[], Declares.refl _⟩
  | null => simp [symCheck] at h
  -- a function in a function would change another frame
  | funcDef value type body params symbol ih => simp [AstNode.funcFree] at hff
  | ident value symbol =>
      rw [symCheck, symCheckIdent_eq_ok] at h
      obtain ⟨id, _, rfl, rfl⟩ := h
      exact ⟨[], Declares.use s id⟩
  | enum value enums =>
      rw [symCheck, bind_eq_ok] at h
      obtain ⟨u, s1, h1, h⟩ := h
      rw [pure_eq_ok] at h
      obtain ⟨rfl, rfl⟩ := h
      exact symCheckEnums_declares h1
  | varDec value type symbol =>
      rw [symCheck, symCheckVarDec_eq_ok] at h
      obtain ⟨_, ts, fid', f, _, hfid, hf, rfl, rfl⟩ := h
      cases hfid
      exact ⟨_, Declares.var hf rfl rfl⟩
  | varDef value type expr symbol ih =>
      rw [symCheck, symCheckVarDef_eq_ok] at h
      obtain ⟨_, e1, s1, ts, fid', f, h1, _, hfid, hf, rfl, rfl⟩ := h
      cases hfid
      obtain ⟨new1, hd1⟩ := ih (by simpa [AstNode.funcFree] using hff) h1
      exact ⟨_, hd1.trans (Declares.var hf rfl rfl)⟩
  | exprStmt expr ih =>
      rw [symCheck, bind_eq_ok] at h
      obtain ⟨e1, s1, h1, h⟩ := h
      rw [pure_eq_ok] at h
      obtain ⟨rfl, rfl⟩ := h
      obtain ⟨new, hd⟩ := ih hff h1
      exact ⟨new, hd⟩
  | unaryExpr postfixExpr value opType ih =>
      rw [symCheck, bind_eq_ok] at h
      obtain ⟨e1, s1, h1, h⟩ := h
      rw [pure_eq_ok] at h
      obtain ⟨rfl, rfl⟩ := h
      obtain ⟨new, hd⟩ := ih hff h1
      exact ⟨new, hd⟩
  | lval kind ident ih =>
      rw [symCheck, bind_eq_ok] at h
      obtain ⟨e1, s1, h1, h⟩ := h
      rw [pure_eq_ok] at h
      obtain ⟨rfl, rfl⟩ := h
      obtain ⟨new, hd⟩ := ih hff h1
      exact ⟨new, hd⟩
  | ret expr func ih =>
      rw [symCheck, symCheckRet_eq_ok] at h
      obtain ⟨fid', f, e1, _, _, h1, rfl⟩ := h
      obtain ⟨new, hd⟩ := ih hff h1
      exact ⟨new, hd⟩
  | funcCall value args symbol ih =>
      rw [symCheck, symCheckFuncCall_eq_ok] at h
      obtain ⟨id, e, ps, args', _, _, _, _, h1, rfl⟩ := h
      have hargs := funcFreeList_iff.mp (by simpa [AstNode.funcFree] using hff)
      obtain ⟨new, hd⟩ := symCheckList_declares (fun n hn => ih n hn (hargs n hn)) h1
      exact ⟨_, (Declares.use s id).trans hd⟩
  | compStmt body ih =>
      rw [symCheck, inChildScope_eq_ok] at h
      obtain ⟨s2, h, rfl⟩ := h
      rw [bind_eq_ok] at h
      obtain ⟨body', s1, h1, h⟩ := h
      rw [pure_eq_ok] at h
      obtain ⟨rfl, rfl⟩ := h
      have hbody := funcFreeList_iff.mp (by simpa [AstNode.funcFree] using hff)
      obtain ⟨new, hd⟩ := symCheckList_declares (fun n hn => ih n hn (hbody n hn)) h1
      exact ⟨_, hd.congr rfl rfl rfl rfl⟩
  | binExp value opType left right ihl ihr =>
      simp only [AstNode.funcFree, Bool.and_eq_true] at hff
      rw [symCheck, bind_eq_ok] at h
      obtain ⟨n1, s1, h1, h⟩ := h
      rw [bind_eq_ok] at h
      obtain ⟨n2, s2, h2, h⟩ := h
      rw [pure_eq_ok] at h
      obtain ⟨rfl, rfl⟩ := h
      obtain ⟨new1, hd1⟩ := ihl hff.1 h1
      obtain ⟨new2, hd2⟩ := ihr hff.2 h2
      exact ⟨_, hd1.trans hd2⟩
  | varAsgn lval rval ihl ihr =>
      simp only [AstNode.funcFree, Bool.and_eq_true] at hff
      rw [symCheck, bind_eq_ok] at h
      obtain ⟨n1, s1, h1, h⟩ := h
      rw [bind_eq_ok] at h
      obtain ⟨n2, s2, h2, h⟩ := h
      rw [pure_eq_ok] at h
      obtain ⟨rfl, rfl⟩ := h
      obtain ⟨new1, hd1⟩ := ihl hff.1 h1
      obtain ⟨new2, hd2⟩ := ihr hff.2 h2
      exact ⟨_, hd1.trans hd2⟩
  | while_ expr body ihl ihr =>
      simp only [AstNode.funcFree, Bool.and_eq_true] at hff
      rw [symCheck, bind_eq_ok] at h
      obtain ⟨n1, s1, h1, h⟩ := h
      rw [bind_eq_ok] at h
      obtain ⟨n2, s2, h2, h⟩ := h
      rw [pure_eq_ok] at h
      obtain ⟨rfl, rfl⟩ := h
      obtain ⟨new1, hd1⟩ := ihl hff.1 h1
      obtain ⟨new2, hd2⟩ := ihr hff.2 h2
      exact ⟨_, hd1.trans hd2⟩
  -- the body is checked before the condition
  | ifElse ifExpr ifBody elseBody ihe ihb ihc =>
      simp only [AstNode.funcFree, Bool.and_eq_true] at hff
      rw [symCheck, bind_eq_ok] at h
      obtain ⟨n1, s1, h1, h⟩ := h
      rw [bind_eq_ok] at h
      obtain ⟨n2, s2, h2, h⟩ := h
      obtain ⟨new1, hd1⟩ := ihb hff.1.2 h1
      obtain ⟨new2, hd2⟩ := ihe hff.1.1 h2
      split at h
      · rw [bind_eq_ok] at h
        obtain ⟨n3, s3, h3, h⟩ := h
        rw [pure_eq_ok] at h
        obtain ⟨rfl, rfl⟩ := h
        obtain ⟨new3, hd3⟩ := ihc hff.2 h3
        exact ⟨_, hd1.trans (hd2.trans hd3)⟩
      · rename_i hnull
        rw [pure_eq_ok] at h
        obtain ⟨rfl, rfl⟩ := h
        have hnil : elseBody.localIds = [] := by
          cases elseBody <;> simp [AstNode.nonNull] at hnull
          rfl
        refine ⟨_, (hd1.trans hd2).trans_eq ?_⟩
        rw [AstNode.localIds, hnil, List.append_nil]
  -- the scope of the loop is left behind it, the entries stay
  | for_ init cond step body ih1 ih2 ih3 ih4 =>
      simp only [AstNode.funcFree, Bool.and_eq_true] at hff
      rw [symCheck, inChildScope_eq_ok] at h
      obtain ⟨s5, h, rfl⟩ := h
      rw [bind_eq_ok] at h
      obtain ⟨n1, s1, h1, h⟩ := h
      rw [bind_eq_ok] at h
      obtain ⟨n2, s2, h2, h⟩ := h
      rw [bind_eq_ok] at h
      obtain ⟨n3, s3, h3, h⟩ := h
      rw [bind_eq_ok] at h
      obtain ⟨n4, s4, h4, h⟩ := h
      rw [pure_eq_ok] at h
      obtain ⟨rfl, rfl⟩ := h
      obtain ⟨new1, hd1⟩ := ih1 hff.1.1.1 h1
      obtain ⟨new2, hd2⟩ := ih2 hff.1.1.2 h2
      obtain ⟨new3, hd3⟩ := ih3 hff.1.2 h3
      obtain ⟨new4, hd4⟩ := ih4 hff.2 h4
      exact ⟨_, (hd1.trans (hd2.trans (hd3.trans hd4))).congr rfl rfl rfl rfl⟩

/-! ### Functions

The parameters are declared first, then the function, then what its body declares.  Their
offsets are those that were in memory, so only that they are variables is said of them.
-/

/-- Checking parameters adds a variable for each, and leaves the frames alone. -/
private theorem symCheckParams_spec {params ps : List Param}
    (h : symCheckParams arena typeEnv params s = .ok (ps, s')) :
    ∃ new, s'.entries = s.entries ++ new ∧ s'.frames = s.frames ∧ new.length = params.length ∧
      ps.length = params.length ∧
      (∀ i p, ps[i]? = some p → p.symbol = some (s.nextId + i)) ∧
      ∀ e ∈ new, ∃ key type offset, e = varEntry key type offset := by
  induction params generalizing s ps with
  | nil =>
      rw [symCheckParams, pure_eq_ok] at h
      obtain ⟨rfl, rfl⟩ := h
      exact ⟨[], by simp⟩
  | cons param rest ih =>
      rw [symCheckParams_cons_eq_ok] at h
      obtain ⟨ts, ps', _, h, rfl⟩ := h
      obtain ⟨new, hent, hfr, hlen, hps, hsym, hnew⟩ := ih h
      refine ⟨varEntry param.value ts (arena s.nextId) :: new, ?_,
        hfr, by simp [hlen], by simp [hps], ?_, ?_⟩
      · rw [hent, SemaState.declare, List.append_assoc]
        rfl
      · intro i p hp
        -- the first parameter has the next id, the others follow it
        cases i with
        | zero =>
            obtain rfl := Option.some.inj hp
            rfl
        | succ i =>
            rw [hsym i p hp]
            simp [SemaState.declare, SemaState.nextId, Nat.add_assoc, Nat.add_comm 1 i]
      · intro e he
        rcases List.mem_cons.mp he with rfl | he
        · exact ⟨_, _, _, rfl⟩
        · exact hnew e he

/-- The core of the entry an id leads to. -/
def coreAt (entries : List SymTabEntry) (id : SymId) : Option SymTabEntry :=
  (entries.map SymTabEntry.core)[id]?

/--
A checked function in the heap.  Its parameters have the ids from `lo` on, then comes
its own symbol `gid`, then up to `hi` what its body declares: variables with the
offsets 0, 4, 8 and so on, and enum constants.
-/
structure FuncLayout (entries : List SymTabEntry) (frames : List StackFrame) (name : String)
    (body : AstNode) (params : List Param) (gid fid lo hi : Nat) : Prop where
  gid_eq : gid = lo + params.length
  gid_lt : gid < hi
  param_symbol : ∀ i p, params[i]? = some p → p.symbol = some (lo + i)
  param_entry : ∀ i, i < params.length →
    ∃ key type offset, coreAt entries (lo + i) = some (varEntry key type offset)
  entry : ∃ type offset, coreAt entries gid = some (funcEntry name type offset params fid)
  frame : frames[fid]? = some { size := intSize * body.localIds.length, func := name }
  sorted : body.localIds.Pairwise (· < ·)
  local_bounds : ∀ id : Nat, id ∈ body.localIds → gid < id ∧ id < hi
  local_entry : ∀ k id, body.localIds[k]? = some id →
    ∃ key type, coreAt entries id = some (varEntry key type (intSize * k))
  const_entry : ∀ id : Nat, gid < id → id < hi → id ∉ body.localIds →
    ∃ key offset value, coreAt entries id = some (constEntry key offset value)

/-- Entries and frames that come in later change nothing. -/
theorem FuncLayout.mono {entries entries' : List SymTabEntry} {frames frames' : List StackFrame}
    {name : String} {body : AstNode} {params : List Param} {gid fid lo hi : Nat}
    (h : FuncLayout entries frames name body params gid fid lo hi)
    (hent : ∃ new, entries'.map SymTabEntry.core = entries.map SymTabEntry.core ++ new)
    (hfr : ∃ new, frames' = frames ++ new) :
    FuncLayout entries' frames' name body params gid fid lo hi := by
  obtain ⟨new, hent⟩ := hent
  obtain ⟨newf, rfl⟩ := hfr
  have hcore : ∀ {id e}, coreAt entries id = some e → coreAt entries' id = some e := by
    intro id e he
    rw [coreAt] at he ⊢
    rw [hent, List.getElem?_append_left (List.getElem?_eq_some_iff.mp he).1, he]
  refine ⟨h.gid_eq, h.gid_lt, h.param_symbol, fun i hi => ?_, ?_, ?_, h.sorted, h.local_bounds,
    fun k id hk => ?_, fun id h1 h2 h3 => ?_⟩
  · obtain ⟨key, type, offset, he⟩ := h.param_entry i hi
    exact ⟨key, type, offset, hcore he⟩
  · obtain ⟨type, offset, he⟩ := h.entry
    exact ⟨type, offset, hcore he⟩
  · rw [List.getElem?_append_left (List.getElem?_eq_some_iff.mp h.frame).1, h.frame]
  · obtain ⟨key, type, he⟩ := h.local_entry k id hk
    exact ⟨key, type, hcore he⟩
  · obtain ⟨key, offset, value, he⟩ := h.const_entry id h1 h2 h3
    exact ⟨key, offset, value, hcore he⟩

/-- Among numbered entries the ones that are no variables are constants. -/
private theorem Numbered.const_of_not_mem {size n id : Nat} {es : List SymTabEntry}
    (h : Numbered size es) (hn : n ≤ id) (hlt : id < n + es.length) (hid : id ∉ varIds n es) :
    ∃ key offset value, es[id - n]? = some (constEntry key offset value) := by
  induction h generalizing n with
  | nil =>
      rw [List.length_nil] at hlt
      omega
  | @var size key type es h ih =>
      rw [varIds, if_pos (by rfl), List.mem_cons, not_or] at hid
      rw [List.length_cons] at hlt
      obtain ⟨key', offset', value', he⟩ := ih (n := n + 1) (by omega) (by omega) hid.2
      exact ⟨key', offset', value', by
        rw [show id - n = id - (n + 1) + 1 by omega, List.getElem?_cons_succ, he]⟩
  | @const size key offset value es h ih =>
      rw [varIds, if_neg (by simp [constEntry])] at hid
      rw [List.length_cons] at hlt
      by_cases he : id = n
      · subst he
        exact ⟨key, offset, value, by simp⟩
      · obtain ⟨key', offset', value', he⟩ := ih (n := n + 1) (by omega) (by omega) hid
        exact ⟨key', offset', value', by
          rw [show id - n = id - (n + 1) + 1 by omega, List.getElem?_cons_succ, he]⟩

/-- **Checking a function lays it out behind everything that was there.** -/
theorem symCheckFuncDef_layout {value type : String} {body : AstNode} {params : List Param}
    {symbol : Option SymId} {frame : Option FrameId} {node' : AstNode}
    (hff : body.funcFree = true)
    (h : symCheck arena typeEnv frame (.funcDef value type body params symbol) s
      = .ok (node', s')) :
    ∃ body' ps gid, node' = .funcDef value type body' ps (some gid) ∧
      FuncLayout s'.entries s'.frames value body' ps gid s.frames.length s.nextId s'.nextId ∧
      (∃ new, s'.entries.map SymTabEntry.core = s.entries.map SymTabEntry.core ++ new) ∧
      ∃ new, s'.frames = s.frames ++ new := by
  rw [symCheck, symCheckFuncDef_eq_ok] at h
  obtain ⟨_, ps, s1, ts, body', hps, _, hbody, rfl⟩ := h
  obtain ⟨newp, hent, hfr, hlen, hpslen, hsym, hnew⟩ := symCheckParams_spec hps
  obtain ⟨new, hd⟩ := symCheck_declares hff hbody
  -- the state the body is checked in
  have hframes1 : s1.frames = s.frames ++ [{ size := 0, func := value }] := hfr
  have hentries1 : s1.entries = s.entries ++ newp := hent
  have hgid : s1.nextId = s.nextId + ps.length := by
    simp [SemaState.nextId, hentries1, hpslen, hlen]
  have hframe : (s1.watch.declare (funcEntry value ts (arena s1.nextId) ps
      s.frames.length)).frames[s.frames.length]? = some { size := 0, func := value } := by
    simp [SemaState.declare, SemaState.watch, hframes1]
  have hent' : s'.entries.map SymTabEntry.core = s.entries.map SymTabEntry.core ++
      (newp.map SymTabEntry.core ++
        (funcEntry value ts (arena s1.nextId) ps s.frames.length :: new)) := by
    rw [hd.entries]
    simp [SemaState.declare, SemaState.watch, hentries1, core_funcEntry]
  have hnext : s'.nextId = s1.nextId + 1 + new.length := by
    rw [hd.nextId]
    simp [SemaState.declare, SemaState.watch, SemaState.nextId]
  have hstart : (s1.watch.declare (funcEntry value ts (arena s1.nextId) ps
      s.frames.length)).nextId = s1.nextId + 1 := by
    simp [SemaState.declare, SemaState.watch, SemaState.nextId]
  have hnum := hd.numbered _ hframe
  have hids := hd.ids_eq
  rw [hstart] at hids
  have hlens : (s.entries.map SymTabEntry.core).length = s.nextId := by simp [SemaState.nextId]
  have hlenp : (newp.map SymTabEntry.core).length = ps.length := by simp [hlen, hpslen]
  -- an id of the body is an index into the new entries
  have hbodyAt : ∀ id : Nat, s1.nextId + 1 ≤ id →
      coreAt s'.entries id = new[id - (s1.nextId + 1)]? := by
    intro id hid
    rw [coreAt, hent', List.getElem?_append_right (by omega), List.getElem?_append_right (by omega),
      hlens, hlenp, show id - s.nextId - ps.length = id - (s1.nextId + 1) + 1 by omega,
      List.getElem?_cons_succ]
  refine ⟨body', ps, s1.nextId, rfl, ⟨hgid, by omega, ?_, ?_, ?_, ?_, ?_, ?_, ?_, ?_⟩,
    ⟨_, hent'⟩, ?_⟩
  · exact hsym
  · intro i hi
    obtain ⟨key, ty, off, he⟩ := hnew newp[i] (List.getElem_mem _)
    refine ⟨key, ty, off, ?_⟩
    rw [coreAt, hent', List.getElem?_append_right (by omega), hlens,
      List.getElem?_append_left (by omega), List.getElem?_map,
      show s.nextId + i - s.nextId = i by omega, List.getElem?_eq_getElem (by omega), he]
    rfl
  · refine ⟨ts, arena s1.nextId, ?_⟩
    rw [coreAt, hent', List.getElem?_append_right (by omega), List.getElem?_append_right (by omega),
      hlens, hlenp, show s1.nextId - s.nextId - ps.length = 0 by omega, List.getElem?_cons_zero]
  · rw [hd.frames, List.getElem?_modify_eq, hframe]
    simp
  · rw [hids]
    exact varIds_sorted _ _
  · intro id hid
    have := varIds_bounds (hids ▸ hid)
    omega
  · intro k id hk
    obtain ⟨key, ty, he⟩ := hnum.entry (hids ▸ hk)
    have := varIds_bounds (hids ▸ List.mem_of_getElem? hk)
    refine ⟨key, ty, ?_⟩
    rw [hbodyAt id this.1, he]
    simp
  · intro id h1 h2 h3
    have hle : s1.nextId + 1 ≤ id := by omega
    obtain ⟨key, off, v, he⟩ := hnum.const_of_not_mem hle (by omega) (hids ▸ h3)
    exact ⟨key, off, v, by rw [hbodyAt id (by omega), he]⟩
  · refine ⟨[{ size := intSize * body'.localIds.length, func := value }], ?_⟩
    rw [hd.frames]
    simp only [SemaState.declare, SemaState.watch, hframes1]
    rw [modify_concat, Nat.zero_add]

/-! ### Programs

The heap only grows, so the layout of a function stays when the next one is checked
(`FuncLayout.mono`).
-/

namespace AstNode

/-- Expressions have no function definitions in them. -/
theorem funcFree_of_isExpr {node : AstNode} (h : node.isExpr = true) : node.funcFree = true := by
  induction node with
  | funcCall value args symbol ih =>
      rw [funcFree, funcFreeList_iff]
      rw [isExpr, areExprs_iff] at h
      exact fun n hn => ih n hn (h n hn)
  | binExp value opType left right ihl ihr =>
      simp only [isExpr, Bool.and_eq_true] at h
      simp [funcFree, ihl h.1.2, ihr h.2]
  | unaryExpr postfixExpr value opType ih =>
      simp only [isExpr, Bool.and_eq_true] at h
      simp [funcFree, ih h.2]
  | varAsgn target rval ihl ihr =>
      obtain ⟨⟨name, symbol, rfl⟩, hrval⟩ := isExpr_varAsgn.mp h
      simp [funcFree, ihr hrval]
  | intConst | ident | emptyExpr => rfl
  | _ => simp [isExpr] at h

theorem funcFree_of_isDecl {node : AstNode} (h : node.isDecl = true) : node.funcFree = true := by
  cases node with
  | varDec value type symbol => rfl
  | varDef value type expr symbol => exact @funcFree_of_isExpr expr h
  | _ => simp [isDecl] at h

/-- Statements have no function definitions in them. -/
theorem funcFree_of_isStmt {node : AstNode} (h : node.isStmt = true) : node.funcFree = true := by
  induction node with
  | compStmt body ih =>
      rw [funcFree, funcFreeList_iff]
      rw [isStmt, areStmts_iff] at h
      exact fun n hn => ih n hn (h n hn)
  | ifElse ifExpr ifBody elseBody _ ihb ihe =>
      simp only [isStmt, Bool.and_eq_true, Bool.or_eq_true] at h
      have helse : elseBody.funcFree = true := by
        rcases h.2 with h | h
        · cases elseBody <;> simp [nonNull] at h
          rfl
        · exact ihe h
      simp [funcFree, funcFree_of_isExpr h.1.1, ihb h.1.2, helse]
  | while_ expr body _ ihb =>
      simp only [isStmt, Bool.and_eq_true] at h
      simp [funcFree, funcFree_of_isExpr h.1, ihb h.2]
  | for_ init cond step body _ _ _ ihb =>
      simp only [isStmt, Bool.and_eq_true, Bool.or_eq_true] at h
      have hinit : init.funcFree = true := h.1.1.1.elim funcFree_of_isDecl funcFree_of_isExpr
      simp [funcFree, hinit, funcFree_of_isExpr h.1.1.2, funcFree_of_isExpr h.1.2, ihb h.2]
  | varDef value type expr symbol => exact @funcFree_of_isExpr expr h
  | ret expr func => exact @funcFree_of_isExpr expr h
  | exprStmt expr => exact @funcFree_of_isExpr expr h
  | varDec | enum => rfl
  | _ => simp [isStmt] at h

end AstNode

/-- The checked functions of a program in the heap, each behind the one before. -/
inductive ProgLayout (entries : List SymTabEntry) (frames : List StackFrame) :
    Nat → List AstNode → Prop
  | nil {lo} : ProgLayout entries frames lo []
  | cons {lo hi gid fid name type body params rest}
      (h : FuncLayout entries frames name body params gid fid lo hi)
      (hrest : ProgLayout entries frames hi rest) :
      ProgLayout entries frames lo (.funcDef name type body params (some gid) :: rest)

/-- **A checked program lies in the heap function by function.** -/
theorem symCheckList_layout {prog prog' : List AstNode} (hprog : ∀ n ∈ prog, n.isFuncDef = true)
    (h : symCheckList arena typeEnv none prog s = .ok (prog', s')) :
    ProgLayout s'.entries s'.frames s.nextId prog' ∧
      (∃ new, s'.entries.map SymTabEntry.core = s.entries.map SymTabEntry.core ++ new) ∧
      ∃ new, s'.frames = s.frames ++ new := by
  induction prog generalizing s prog' with
  | nil =>
      rw [symCheckList, pure_eq_ok] at h
      obtain ⟨rfl, rfl⟩ := h
      exact ⟨ProgLayout.nil, ⟨[], by simp⟩, ⟨[], by simp⟩⟩
  | cons node rest ih =>
      rw [symCheckList, bind_eq_ok] at h
      obtain ⟨n1, s1, h1, h⟩ := h
      rw [bind_eq_ok] at h
      obtain ⟨r1, s2, h2, h⟩ := h
      rw [pure_eq_ok] at h
      obtain ⟨rfl, rfl⟩ := h
      obtain ⟨hlay, hent2, hfr2⟩ := ih (fun n hn => hprog n (by simp [hn])) h2
      have hnode := hprog node (by simp)
      unfold AstNode.isFuncDef at hnode
      split at hnode
      · rename_i value type body params symbol
        obtain ⟨body', ps, gid, rfl, hf, hent1, hfr1⟩ :=
          symCheckFuncDef_layout (@AstNode.funcFree_of_isStmt (.compStmt body) hnode) h1
        refine ⟨ProgLayout.cons (hf.mono hent2 hfr2) hlay, ?_, ?_⟩
        · obtain ⟨new1, he1⟩ := hent1
          obtain ⟨new2, he2⟩ := hent2
          exact ⟨new1 ++ new2, by rw [he2, he1, List.append_assoc]⟩
        · obtain ⟨new1, he1⟩ := hfr1
          obtain ⟨new2, he2⟩ := hfr2
          exact ⟨new1 ++ new2, by rw [he2, he1, List.append_assoc]⟩
      · simp at hnode

namespace ProgLayout

variable {entries : List SymTabEntry} {frames : List StackFrame} {lo : Nat} {prog : List AstNode}

/-- The layout of one function of the program. -/
theorem func (h : ProgLayout entries frames lo prog) {node : AstNode} (hn : node ∈ prog) :
    ∃ name type body params gid fid flo fhi, node = .funcDef name type body params (some gid) ∧
      FuncLayout entries frames name body params gid fid flo fhi ∧ lo ≤ flo := by
  induction h with
  | nil => simp at hn
  | @cons lo hi gid fid name type body params rest h hrest ih =>
      rcases List.mem_cons.mp hn with rfl | hn
      · exact ⟨name, type, body, params, gid, fid, lo, hi, rfl, h, le_refl _⟩
      · obtain ⟨_, _, _, _, _, _, flo, fhi, rfl, hf, hle⟩ := ih hn
        have hlt := h.gid_eq ▸ h.gid_lt
        exact ⟨_, _, _, _, _, _, flo, fhi, rfl, hf, by omega⟩

end ProgLayout

/-- **The functions of an accepted program lie in the heap one after the other.** -/
theorem Accepted.layout {uninit : Int} {arena : SymId → Nat} {tokens : List Token} {r : SemaResult}
    (h : Accepted uninit arena tokens r) : ProgLayout r.entries r.frames 0 r.prog := by
  obtain ⟨prog, rest, hparse, hsema⟩ := h
  simp only [semaCheck, ExceptRun.bind_eq_ok, ExceptRun.pure_eq_ok] at hsema
  obtain ⟨⟨prog', st⟩, hrun, _, _, rfl⟩ := hsema
  exact (symCheckList_layout (parse_isFuncDef hparse) hrun).1

end MyLang
