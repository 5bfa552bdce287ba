/-
Which slots of the caller's frame a call leaves alone.

The slots a call spills to start behind as many variables as the *callee* has, while the
caller's own variables and its stack pointer go by the caller's frame.  So a call keeps
the caller's state exactly if the callee has no fewer variables, up to one, and the saved
temporaries end above the caller's stack pointer: `SpillFits`.

The exception of one variable comes from the base: the slots start one word behind it, so
that with one variable less the first of them is just behind the last variable of the
caller.  Of the arguments nothing is asked at the lower end, since they are loaded into
registers before the jump, and the callee may have their slots.

`CallPreserves` is what is asked of a call, in all programs in which its code stands and
whatever the callee does.  When it holds and when not is `Proofs/CallPreserves.lean`.
-/
import MyLang.Proofs.CallRun
import MyLang.Proofs.SemaLayout

namespace MyLang

open Rv32 ByteMemory

variable {P : List Line} {L : Layout P.length} {m m' : Machine} {st st' : AsmState} {reg : Temp}
  {c : List Line} {entries : List SymTabEntry}

namespace AstNode

/-- The symbols an expression without calls assigns. -/
def assigned : AstNode → List (Option SymId)
  | .binExp _ _ left right => left.assigned ++ right.assigned
  | .unaryExpr postfixExpr _ _ => postfixExpr.assigned
  | .varAsgn (.lval _ (.ident _ symbol)) rval => symbol :: rval.assigned
  | _ => []
termination_by structural node => node

end AstNode

/-- How far below the frame pointer an assignment to a symbol stores. -/
def storeOffset (entries : List SymTabEntry) (symbol : Option SymId) : Nat :=
  match entryOf entries symbol with
  | none => 0
  | some e => localsBase + e.offset

/-! ### What evaluation writes

An expression without calls stores by its assignments only.
-/

/-- Evaluation changes no slot apart from the ones it assigns. -/
theorem denote_apart {node : AstNode} {fp a : Word} {mem : Mem} (he : node.isExpr = true)
    (hcf : node.callFree = true)
    (h : ∀ s ∈ node.assigned, Apart (below fp (storeOffset entries s)) a) :
    loadWord (denote entries fp node mem).2 a = loadWord mem a := by
  induction node generalizing mem with
  | binExp value opType left right ihl ihr =>
      simp only [AstNode.isExpr, AstNode.callFree, Bool.and_eq_true] at he hcf
      rw [denote, ihr he.2 hcf.2 fun s hs => h s (by simp [AstNode.assigned, hs]),
        ihl he.1.2 hcf.1 fun s hs => h s (by simp [AstNode.assigned, hs])]
  | unaryExpr postfixExpr value opType ih =>
      simp only [AstNode.isExpr, AstNode.callFree, Bool.and_eq_true] at he hcf
      rw [denote, ih he.2 hcf fun s hs => h s (by simpa [AstNode.assigned] using hs)]
  | varAsgn lval rval _ ihr =>
      obtain ⟨⟨value, symbol, rfl⟩, hrval⟩ := AstNode.isExpr_varAsgn.mp he
      simp only [AstNode.callFree, Bool.and_eq_true] at hcf
      rw [denote, loadWord_storeWord_apart, ihr hrval hcf.2 fun s hs =>
        h s (by simp [AstNode.assigned, hs])]
      · rfl
      · have hs := h symbol (by simp [AstNode.assigned])
        have heq : fp - (denote entries fp (.lval .ident (.ident value symbol)) mem).1
            = below fp (storeOffset entries symbol) := by
          rw [denote, lvalWord, storeOffset, below]
          cases entryOf entries symbol <;> rfl
        rw [heq]
        exact hs
  | funcCall value args symbol ih => simp [AstNode.callFree] at hcf
  | _ => rfl

/-- Evaluating arguments changes no slot apart from the ones they assign and the ones they go to. -/
theorem denoteArgs_apart {args : List AstNode} {fp : Word} {off a : Nat} {mem : Mem}
    (he : ∀ n ∈ args, n.isExpr = true) (hcf : ∀ n ∈ args, n.callFree = true)
    (hend : off + registerSize * args.length ≤ 2 ^ 32 - 4) (ha : a ≤ off)
    (h : ∀ n ∈ args, ∀ s ∈ n.assigned, storeOffset entries s ≤ 2 ^ 32 - 4 ∧
      (a + 4 ≤ storeOffset entries s ∨ storeOffset entries s + 4 ≤ a)) :
    loadWord (denoteArgs entries fp args off mem) (below fp a) = loadWord mem (below fp a) := by
  have hrs : registerSize = 4 := rfl
  induction args generalizing off mem with
  | nil => rfl
  | cons arg rest ih =>
      rw [List.length_cons] at hend
      rw [denoteArgs, ih (fun n hn => he n (by simp [hn])) (fun n hn => hcf n (by simp [hn]))
        (by simp only [hrs] at *; omega) (by omega) fun n hn => h n (by simp [hn]),
        loadWord_storeWord_apart]
      · refine denote_apart (he arg (by simp)) (hcf arg (by simp)) fun s hs => ?_
        have := h arg (by simp) s hs
        exact below_apart fp this.1 (by simp only [hrs] at *; omega) this.2.symm
      · exact below_apart fp (by simp only [hrs] at *; omega) (by simp only [hrs] at *; omega)
          (by omega)

/-- Evaluating arguments leaves the value of each in its slot. -/
theorem denoteArgs_get {args : List AstNode} {arg : AstNode} {fp : Word} {off k : Nat} {mem : Mem}
    (he : ∀ n ∈ args, n.isExpr = true) (hcf : ∀ n ∈ args, n.callFree = true)
    (hend : off + registerSize * args.length ≤ 2 ^ 32 - 4)
    (h : ∀ n ∈ args, ∀ s ∈ n.assigned, storeOffset entries s ≤ off) (hk : args[k]? = some arg) :
    loadWord (denoteArgs entries fp args off mem) (below fp (off + registerSize * (k + 1)))
      = (denote entries fp arg (denoteArgs entries fp (args.take k) off mem)).1 := by
  have hrs : registerSize = 4 := rfl
  induction args generalizing off k mem with
  | nil => simp at hk
  | cons a rest ih =>
      rw [List.length_cons] at hend
      have hrest : off + registerSize + registerSize * rest.length ≤ 2 ^ 32 - 4 := by
        simp only [hrs] at *
        omega
      have hlow : ∀ n ∈ rest, ∀ s ∈ n.assigned, storeOffset entries s ≤ off :=
        fun n hn => h n (by simp [hn])
      rw [denoteArgs]
      cases k with
      | zero =>
          -- the slot was just stored into; what follows stores above it or below `off`
          obtain rfl : a = arg := by simpa using hk
          rw [Nat.zero_add, Nat.mul_one, denoteArgs_apart (fun n hn => he n (by simp [hn]))
            (fun n hn => hcf n (by simp [hn])) hrest (le_refl _), loadWord_storeWord_self]
          · rfl
          · intro n hn s hs
            have := hlow n hn s hs
            simp only [hrs] at *
            omega
      | succ k =>
          rw [show off + registerSize * (k + 1 + 1) = off + registerSize + registerSize * (k + 1) by
            simp only [hrs]
            omega]
          rw [ih (fun n hn => he n (by simp [hn])) (fun n hn => hcf n (by simp [hn])) hrest
            (fun n hn s hs => Nat.le_add_right_of_le (hlow n hn s hs)) (by simpa using hk)]
          rfl

/-! ### Frames

Addresses are computed modulo `2 ^ 32`, and a frame lies within half of that.
-/

/-- A frame is a multiple of 16 bytes and at least as large as what is put in it. -/
theorem frameSize_bounds (size : Nat) :
    size + 101 ≤ frameSize size ∧ frameSize size ≤ size + 116 ∧ frameSize size % 16 = 0 := by
  simp only [frameSize, registerSize, tempLength, argLength]
  omega

theorem below_toNat {fp : Word} {off : Nat} (h : off ≤ fp.toNat) :
    (below fp off).toNat = fp.toNat - off := by
  have := fp.isLt
  rw [below, BitVec.toNat_sub, BitVec.toNat_ofNat]
  omega

/-- Memories that agree from the stack pointer up agree on the slots of the frame. -/
theorem loadWord_of_agree {mem mem' : Mem} {fp : Word} {frame off : Nat} (hroom : frame ≤ fp.toNat)
    (h4 : 4 ≤ off) (hoff : off ≤ frame)
    (h : ∀ a : Word, (below fp frame).toNat ≤ a.toNat → mem' a = mem a) :
    loadWord mem' (below fp off) = loadWord mem (below fp off) := by
  refine loadWord_congr fun i hi => h _ ?_
  have := fp.isLt
  rw [below_toNat hroom, BitVec.toNat_add, below_toNat (by omega), BitVec.toNat_ofNat]
  omega

/-! ### What a call has to keep

The callee may do with its own part of the stack what it likes.
-/

/-- The state the callee may return in: at the return address, `sp` and `s0` as at entry,
memory changed only below `sp`. -/
structure CalleeReturns (call back : Machine) (ret : Nat) : Prop where
  pc : back.pc = ret
  sp : back.get .sp = call.get .sp
  fp : back.get fp = call.get fp
  mem : ∀ a : Word, (call.get .sp).toNat ≤ a.toNat → back.mem a = call.mem a

/--
The caller's state is kept: its variables but the assigned ones, its saved parameters, its
busy temporaries.
-/
structure CallerKept (entries : List SymTabEntry) (locals : List SymId)
    (assigned : List (Option SymId)) (free : Temp → Bool) (m m' : Machine) : Prop where
  locals : ∀ id ∈ locals, some id ∉ assigned → ∀ e, entries[id]? = some e →
    loadWord m'.mem (below (m.get fp) (e.offset + localsBase))
      = loadWord m.mem (below (m.get fp) (e.offset + localsBase))
  params : ∀ i < argLength, loadWord m'.mem (below (m.get fp) (registerSize * (3 + i)))
    = loadWord m.mem (below (m.get fp) (registerSize * (3 + i)))
  temps : ∀ i, free i = false → m'.get (.t i) = m.get (.t i)

/--
The code `c` of a call of `value`, from a function with a frame of `frame` bytes,
preserves the caller's state: in every program it stands in and from every state with
room for the frame and the `spill` bytes the call uses, it enters the callee, and however the
callee returns it ends with the caller's state kept.
-/
def CallPreserves (entries : List SymTabEntry) (locals : List SymId)
    (assigned : List (Option SymId)) (free : Temp → Bool) (value : String) (frame spill : Nat)
    (c : List Line) : Prop :=
  ∀ (P : List Line) (L : Layout P.length) (m : Machine), (labels P).Nodup → .label value ∈ P →
    CodeAt P m.pc c → m.get .sp = below (m.get fp) frame → frame ≤ (m.get fp).toNat →
    spill ≤ (m.get fp).toNat →
    ∃ call, Runs L m call ∧ lineOf P value = some call.pc ∧
      ∀ back, CalleeReturns call back (L.decode (call.get .ra)) →
        ∃ m', Runs L back m' ∧ m'.pc = m.pc + c.length ∧
          CallerKept entries locals assigned free m m'

/--
The slots of a call from a function with `f` variables to one with `g`, with `busy`
temporaries and `n` arguments, meet no variable of the caller, and those of the
temporaries lie above the caller's stack pointer.
-/
def SpillFits (f g busy n : Nat) : Prop :=
  (busy + n = 0 ∨ f ≤ g + 1) ∧
    (busy = 0 ∨ intSize * g + localsBase + registerSize * busy ≤ frameSize (intSize * f))

instance (f g busy n : Nat) : Decidable (SpillFits f g busy n) :=
  inferInstanceAs (Decidable (_ ∧ _))

/--
An argument of a call in a function: no call in it, and it assigns only variables of the
function.
-/
structure CallArg (body arg : AstNode) : Prop where
  isExpr : arg.isExpr = true
  callFree : arg.callFree = true
  assigned : ∀ s ∈ arg.assigned, ∃ id ∈ body.localIds, s = some id

/-- What the generator's entries keep of the analysis': all but the two fields for parameters. -/
def SymTabEntry.fixed (e : SymTabEntry) : SymTabEntry :=
  { e with isArgLoaded := false, argReg := 0 }

/-! ### Calls that fit

What is in the memory that the callee finds, slot by slot.
-/

section Fits

variable {frames : List StackFrame} {value : String} {symbol : Option SymId} {args : List AstNode}

/-- The memory the callee finds has the caller's slots, apart from the assigned ones, as before. -/
theorem callMem_slot {base off : Nat} {busy : List Temp} (he : ∀ n ∈ args, n.isExpr = true)
    (hcf : ∀ n ∈ args, n.callFree = true)
    (hend : base + registerSize * (busy.length + args.length) ≤ 2 ^ 32 - 4) (hoff : off ≤ base)
    (h : ∀ n ∈ args, ∀ s ∈ n.assigned, storeOffset entries s ≤ 2 ^ 32 - 4 ∧
      (off + 4 ≤ storeOffset entries s ∨ storeOffset entries s + 4 ≤ off)) :
    loadWord (callMem m entries base busy args) (below (m.get fp) off)
      = loadWord m.mem (below (m.get fp) off) := by
  have hrs : registerSize = 4 := rfl
  rw [callMem, denoteArgs_apart he hcf (by simp only [hrs] at *; omega)
    (by simp only [hrs] at *; omega) h]
  refine storeSlots_apart ?_ ?_ (Or.inl hoff) <;>
    simp only [List.length_map, hrs] at * <;> omega

/-- The memory the callee finds has the saved temporaries. -/
theorem callMem_temp {base k : Nat} {busy : List Temp} {i : Temp}
    (he : ∀ n ∈ args, n.isExpr = true) (hcf : ∀ n ∈ args, n.callFree = true)
    (hend : base + registerSize * (busy.length + args.length) ≤ 2 ^ 32 - 4)
    (hk : busy[k]? = some i)
    (h : ∀ n ∈ args, ∀ s ∈ n.assigned, storeOffset entries s ≤ base) :
    loadWord (callMem m entries base busy args)
      (below (m.get fp) (base + registerSize * (k + 1))) = m.get (.t i) := by
  have hrs : registerSize = 4 := rfl
  have hlt := (List.getElem?_eq_some_iff.mp hk).1
  rw [callMem, denoteArgs_apart he hcf (by simp only [hrs] at *; omega)
    (by simp only [hrs] at *; omega) fun n hn s hs => ?_]
  · exact storeSlots_get (by simp only [List.length_map, hrs] at *; omega) (by simp [hk])
  · have := h n hn s hs
    simp only [hrs] at *
    omega

end Fits

end MyLang
