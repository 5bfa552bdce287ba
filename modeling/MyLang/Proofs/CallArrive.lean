/-
Arguments that fit arrive.

While an argument is evaluated, the slots before its own hold the temporaries saved and
the arguments before it.  That is the invariant: an argument that fits leaves these slots
alone, and its value then goes to the next one.  At the end the slots are loaded into the
argument registers.

What an argument leaves alone is known from `Proofs/CallReach.lean`, however the calls in
it return.  An argument fits if the slots that it writes, and if it calls anything all
that is below the stack pointer, are apart from those before its own; `argsFit` asks this
of one argument after the other, so it is a condition on the tree and on the sizes of
frames.

It is not necessary, and no condition on slots is: in `f(1, f(1, 2))` the inner call
writes over the slot of the first argument, but writes what was there.  In `f(1, f(2, 3))`
it does not, and the outer call is entered with 2 as its first argument.  There the base
of the slots is the same for both calls, as they are calls of one function.
-/
import Mathlib.Tactic.IntervalCases
import MyLang.Compiler
import MyLang.Proofs.CallReach

namespace MyLang

open Rv32 ByteMemory

variable {P : List Line} {L : Layout P.length} {m m' start : Machine} {frames : List StackFrame}
  {entries : List SymTabEntry} {st st' : AsmState} {reg : Temp} {c : List Line}
  {frame base jump p n : Nat} {busy : List Temp} {args : List AstNode} {symbol : Option SymId}

/-- The words are in the slots after `base`. -/
def InSlots (base : Nat) (words : List Word) (m : Machine) : Prop :=
  ∀ k v, words[k]? = some v → loadWord m.mem (below (m.get fp) (base + registerSize * (k + 1))) = v

theorem mem_slotsAfter_of_get {words : List Word} {k : Nat} {v : Word} (h : words[k]? = some v) :
    base + registerSize * (k + 1) ∈ slotsAfter base words.length :=
  mem_slotsAfter.mpr ⟨k, (List.getElem?_eq_some_iff.mp h).1, rfl⟩

/-- An argument that fits keeps what is in the slots before its own. -/
theorem InSlots.arg {words : List Word} {arg : AstNode} {free : Temp → Bool}
    (h : InSlots base words m) (hfit : argFits entries frames frame base words.length arg = true)
    (hroom : Room frame (slotsAfter base words.length) m)
    (hpass : Passed frame (arg.writes entries frames 0) arg.callFree false free n m m') :
    InSlots base words m' := by
  intro k v hk
  simp only [argFits, Bool.and_eq_true, List.all_eq_true, Bool.or_eq_true, decide_eq_true_eq]
    at hfit
  obtain ⟨⟨hapart, hcalm⟩, -⟩ := hfit
  have hlt := (List.getElem?_eq_some_iff.mp hk).1
  have hslot : base + registerSize * (k + 1) ∈ slotsAfter base words.length :=
    mem_slotsAfter_of_get hk
  rw [hpass.fp, hpass.mem _ ?_ (hroom.slots _ hslot) ?_ ?_]
  · exact h k v hk
  · simp only [registerSize]
    omega
  · rcases hcalm with (hcalm | hzero) | hframe
    · exact Or.inl hcalm
    · omega
    · right
      simp only [registerSize] at *
      omega
  · intro w hw
    rw [slotsApart_comm]
    exact hapart w hw _ hslot

/-- The value of an argument goes to the next slot. -/
theorem InSlots.store {words : List Word} {v : Word} (h : InSlots base words m)
    (hroom : Room frame (slotsAfter base (words.length + 1)) m) :
    InSlots base (words ++ [v])
      (m.store (below (m.get fp) (base + registerSize * (words.length + 1))) v).next := by
  intro k w hk
  rw [Machine.next_mem, Machine.store_mem, Machine.next_get, Machine.store_get]
  by_cases hlt : k < words.length
  · rw [List.getElem?_append_left hlt] at hk
    rw [loadWord_storeWord_apart]
    · exact h k w hk
    · refine hroom.below_apart (hroom.slots _ (mem_slotsAfter.mpr ⟨k, by omega, rfl⟩))
        (mem_slotsAfter.mpr ⟨words.length, by omega, rfl⟩) ?_
      rw [slotsApart_iff]
      simp only [registerSize]
      omega
  · have hle := (List.getElem?_eq_some_iff.mp hk).1
    rw [List.length_append, List.length_singleton] at hle
    obtain rfl : k = words.length := by omega
    obtain rfl : v = w := by simpa using hk
    exact loadWord_storeWord_self _ _ _

/-- Other code may come first. -/
theorem ArgsArrive.of_reaches {atJump : List Word → Machine → Prop} {vals : List Word}
    (h : Reaches L (ReturnsTo L) (ArgsArrive L frames atJump args st p vals) m) :
    ArgsArrive L frames atJump args st p vals m := by
  cases args with
  | nil => exact h.bind fun _ h1 => h1
  | cons arg rest => exact fun reg st' c harg => h.bind fun _ h1 => h1 reg st' c harg

/-- The argument registers are loaded, and the jump is reached. -/
theorem reaches_jump {saved vals : List Word} (hheld : InSlots base (saved ++ vals) m)
    (hsaved : saved = busy.map fun i => start.get (.t i)) (hfp : m.get fp = start.get fp)
    (hc : CodeAt P m.pc (loadCode (((List.finRange argLength).take vals.length).map .a)
      (base + registerSize * saved.length)))
    (hjump : jump = m.pc + ((List.finRange argLength).take vals.length).length) :
    Reaches L (ReturnsTo L) (AtJump jump base busy start vals) m := by
  have hload : Reaches L (ReturnsTo L) (fun m' => Passed 0 [] true true (fun _ => true)
      ((List.finRange argLength).take vals.length).length m m' ∧ _) m :=
    loadCode_passed ((List.nodup_finRange _).sublist (List.take_sublist ..)) hc
  refine hload.mono fun m' h => ?_
  obtain ⟨hpass, -, hmem, hval⟩ := h
  refine ⟨hpass.pc.trans hjump.symm, fun i hi v hv => ?_, fun k i hk => ?_⟩
  · have hlt := (List.getElem?_eq_some_iff.mp hv).1
    have hreg : ((List.finRange argLength).take vals.length)[i]? = some ⟨i, hi⟩ := by
      rw [List.getElem?_take, if_pos hlt, List.getElem?_eq_getElem (by simpa using hi)]
      simp
    rw [hval i _ hreg]
    have hk : (saved ++ vals)[saved.length + i]? = some v := by
      rw [List.getElem?_append_right (Nat.le_add_right ..), Nat.add_sub_cancel_left]
      exact hv
    rw [show base + registerSize * saved.length + registerSize * (i + 1)
      = base + registerSize * (saved.length + i + 1) by
        simp only [registerSize]
        omega]
    exact hheld _ v hk
  · rw [hmem, ← hfp]
    refine hheld k _ ?_
    have hlt : k < saved.length := by
      rw [hsaved, List.length_map]
      exact (List.getElem?_eq_some_iff.mp hk).1
    rw [List.getElem?_append_left hlt, hsaved, List.getElem?_map, hk]
    rfl

/-- Arguments that fit arrive, one after the other. -/
theorem argsArrive_of_fits {saved vals : List Word} {u : Unit}
    (he : ∀ a ∈ args, a.isExpr = true)
    (hfit : argsFit entries frames frame base (saved ++ vals).length args = true)
    (h : spillArgs (args.map (evalAsm frames)) (base + registerSize * (saved ++ vals).length) st
      = .ok (u, st', c)) (hent : st.entries = entries) (hfree : st.busy = [])
    (hnd : (labels P).Nodup) (hlabels : ∀ l ∈ AstNode.callsList args, .label l ∈ P)
    (hc : CodeAt P m.pc (c ++ loadCode (((List.finRange argLength).take
      (vals.length + args.length)).map .a) (base + registerSize * saved.length)))
    (hroom : Room frame (slotsAfter base ((saved ++ vals).length + args.length) ++
      AstNode.writesList entries frames args) m)
    (hheld : InSlots base (saved ++ vals) m)
    (hsaved : saved = busy.map fun i => start.get (.t i)) (hfp : m.get fp = start.get fp)
    (hjump : jump = m.pc + (c.length
      + ((List.finRange argLength).take (vals.length + args.length)).length)) :
    ArgsArrive L frames (AtJump jump base busy start) args st m.pc vals m := by
  induction args generalizing vals m st c with
  | nil =>
      simp only [List.map_nil, spillArgs, Gen.pure_eq_ok] at h
      obtain ⟨-, rfl, rfl⟩ := h
      rw [List.length_nil, Nat.zero_add] at hjump
      exact reaches_jump hheld hsaved hfp hc hjump
  | cons a args ih =>
      rw [List.map_cons, spillArgs_cons_eq_ok] at h
      obtain ⟨r, st1, c1, c3, ha, h, rfl⟩ := h
      rw [argsFit, Bool.and_eq_true] at hfit
      rw [AstNode.callsList] at hlabels
      rw [List.length_cons, AstNode.writesList] at hroom
      rw [List.append_assoc, codeAt_append, List.cons_append] at hc
      have hal := evalAsm_allocs a ha
      have hkeeps : a.keepsTargets entries frames frame false 0 = true := by
        have hfit1 := hfit.1
        rw [argFits, Bool.and_eq_true] at hfit1
        exact hfit1.2
      have hslots : slotsAfter base ((saved ++ vals).length + 1) ⊆
          slotsAfter base ((saved ++ vals).length + (args.length + 1)) ++
            (a.writes entries frames 0 ++ AstNode.writesList entries frames args) := by
        intro w hw
        obtain ⟨k, hk, rfl⟩ := mem_slotsAfter.mp hw
        exact List.mem_append_left _ (mem_slotsAfter.mpr ⟨k, by omega, rfl⟩)
      intro reg st2 c hreg
      obtain ⟨rfl, rfl, rfl⟩ : reg = r ∧ st2 = st1 ∧ c = c1 := by
        have := hreg.symm.trans ha
        simpa using this
      have hea := (evalAsm_reaches (he a (by simp))).arg (L := L) ha hent hfree hkeeps hnd
        (fun l hl => hlabels l (List.mem_append_left _ hl)) hc.1
        (hroom.mono (by intro w hw; simp [hw]))
      refine hea.mono fun m1 h1 => ⟨h1.pc, ?_⟩
      have hroom1 := h1.room hroom
      have hheld1 := hheld.arg hfit.1 (hroom.mono (fun w hw => hslots (by
        obtain ⟨k, hk, rfl⟩ := mem_slotsAfter.mp hw
        exact mem_slotsAfter.mpr ⟨k, by omega, rfl⟩))) h1
      -- the slot of the argument
      have hheld2 := hheld1.store (v := m1.get (.t reg)) (hroom1.mono hslots)
      have hc2 := hc.2
      rw [← h1.pc] at hc2
      have hlen : (saved ++ (vals ++ [m1.get (.t reg)])).length = (saved ++ vals).length + 1 := by
        simp only [List.length_append, List.length_singleton]
        omega
      have hstore : (Instr.sw (.t reg) (-((base + registerSize * (saved ++ vals).length
          + registerSize : Nat) : Int)) fp).exec L m1
          = some (m1.store (below (m1.get fp) (base + registerSize * ((saved ++ vals).length + 1)))
            (m1.get (.t reg))).next := by
        rw [Instr.exec, add_ofInt_neg, Nat.mul_add, Nat.mul_one, Nat.add_assoc]
      refine ArgsArrive.of_reaches (Reaches.instr hc2 hstore rfl (Reaches.here ?_))
      let m2 := (m1.store (below (m1.get fp) (base + registerSize * ((saved ++ vals).length + 1)))
        (m1.get (.t reg))).next
      have hpc2 : m2.pc = m.pc + c.length + 1 := by rw [← h1.pc]; rfl
      have hcount : (vals ++ [m1.get (.t reg)]).length + args.length = vals.length
          + (args.length + 1) := by
        rw [List.length_append, List.length_singleton]
        omega
      rw [List.append_assoc] at hheld2
      have hspill : spillArgs (args.map (evalAsm frames)) (base + registerSize *
          (saved ++ (vals ++ [m1.get (.t reg)])).length) (st2.release reg) = .ok (u, st', c3) := by
        rw [hlen, Nat.mul_add, Nat.mul_one, ← Nat.add_assoc]
        exact h
      have hfree2 : (st2.release reg).busy = [] := by
        unfold AsmState.busy
        rw [hal.release]
        exact hfree
      have hroom2 : Room frame (slotsAfter base ((saved ++ vals).length + (args.length + 1)) ++
          (a.writes entries frames 0 ++ AstNode.writesList entries frames args)) m2 :=
        ⟨hroom1.sp, hroom1.frame, hroom1.slots, hroom1.top⟩
      rw [← hpc2]
      refine ih (m := m2) (fun b hb => he b (by simp [hb])) (by rw [hlen]; exact hfit.2) hspill
        ((AsmState.release_entries ..).trans (hal.entries.trans hent)) hfree2
        (fun l hl => hlabels l (List.mem_append_right _ hl)) ?_ (hroom2.mono fun w hw => ?_) hheld2
        (h1.fp.trans hfp) ?_
      · rw [hcount]
        exact codeAt_store_next _ _ hc2
      · rw [hlen, Nat.add_assoc, Nat.add_comm 1] at hw
        simp only [List.mem_append] at hw ⊢
        grind
      · rw [List.length_append, List.length_cons, List.length_cons] at hjump
        rw [hjump, hcount, hpc2]
        omega

section Nested

/-- `int f(int a, int b) { return a; }  int main() { return f(f(2, 3), 1); }` -/
def firstTokens : List Token :=
  [tok .type "int", tok .ident "f", tok .lparen "(", tok .type "int", tok .ident "a",
    tok .comma ",", tok .type "int", tok .ident "b", tok .rparen ")", tok .lbrace "\x7b",
    tok .return_ "return", tok .ident "a", tok .semicolon ";", tok .rbrace "\x7d",
    tok .type "int", tok .ident "main", tok .lparen "(", tok .rparen ")", tok .lbrace "\x7b",
    tok .return_ "return", tok .ident "f", tok .lparen "(", tok .ident "f", tok .lparen "(",
    tok .num "2", tok .comma ",", tok .num "3", tok .rparen ")", tok .comma ",", tok .num "1",
    tok .rparen ")", tok .semicolon ";", tok .rbrace "\x7d"]

/-- The arguments of the outer call in `firstTokens`. -/
def firstArgs : List AstNode := [.funcCall "f" [.intConst 2, .intConst 3] (some 2), .intConst 1]

/-- `int f(int a, int b) { return a; }  int main() { return f(1, f(2, 3)); }` -/
def nestTokens : List Token :=
  [tok .type "int", tok .ident "f", tok .lparen "(", tok .type "int", tok .ident "a",
    tok .comma ",", tok .type "int", tok .ident "b", tok .rparen ")", tok .lbrace "\x7b",
    tok .return_ "return", tok .ident "a", tok .semicolon ";", tok .rbrace "\x7d",
    tok .type "int", tok .ident "main", tok .lparen "(", tok .rparen ")", tok .lbrace "\x7b",
    tok .return_ "return", tok .ident "f", tok .lparen "(", tok .num "1", tok .comma ",",
    tok .ident "f", tok .lparen "(", tok .num "2", tok .comma ",", tok .num "3", tok .rparen ")",
    tok .rparen ")", tok .semicolon ";", tok .rbrace "\x7d"]

/-- The arguments of the outer call in `nestTokens`. -/
def nestArgs : List AstNode := [.intConst 1, .funcCall "f" [.intConst 2, .intConst 3] (some 2)]

/-- The checked `main` of `nestTokens`. -/
def nestMain : AstNode :=
  .funcDef "main" "int" (.compStmt [.ret (.funcCall "f" nestArgs (some 2)) (some 3)]) [] (some 3)

/-- The code of `f(1, f(2, 3))`. -/
private def nestCode : List Line :=
  [.instr (.addi (.t 0) .zero 1), .instr (.sw (.t 0) (-48) fp), .instr (.addi (.t 0) .zero 2),
    .instr (.sw (.t 0) (-48) fp), .instr (.addi (.t 0) .zero 3), .instr (.sw (.t 0) (-52) fp),
    .instr (.lw (.a 0) (-48) fp), .instr (.lw (.a 1) (-52) fp), .instr (.jal "f"),
    .instr (.mv (.t 0) (.a 0)), .instr (.sw (.t 0) (-52) fp), .instr (.lw (.a 0) (-48) fp),
    .instr (.lw (.a 1) (-52) fp), .instr (.jal "f"), .instr (.mv (.t 0) (.a 0))]

private def nestLines : List Line := nestCode ++ [.label "f"]

private def nestLayout : Layout nestLines.length := Layout.ofLines 16 (by decide)

private def nestState : Machine where
  pc := 0
  regs := fun r => if r = .sp then 2 ^ 31 - 112 else if r = fp then 2 ^ 31 else 0
  mem := fun _ => 0

/-- The function called returns its first argument. -/
private def nestBack (entry : Machine) : Machine :=
  { entry with pc := nestLayout.decode (entry.get .ra) }

private theorem nestBack_returns (entry : Machine) : ReturnsTo nestLayout entry (nestBack entry) :=
  ⟨rfl, rfl, rfl, fun _ _ => rfl⟩

/-- The run of the code passes every line once. -/
private theorem nest_pc (n : Nat) : ((stepOver nestLayout nestBack)^[n] nestState).pc
    = min n 16 := by
  by_cases h : n ≤ 16
  · interval_cases n <;> rfl
  · obtain ⟨k, rfl⟩ := Nat.exists_eq_add_of_lt (Nat.lt_of_not_le h)
    have hend : (stepOver nestLayout nestBack)^[k + 1]
      ((stepOver nestLayout nestBack)^[16] nestState)
        = (stepOver nestLayout nestBack)^[16] nestState := Function.iterate_fixed rfl _
    rw [Nat.add_assoc, Nat.add_comm 16, Function.iterate_add_apply, hend]
    rw [Nat.min_eq_right (by omega)]
    rfl

/-- Where the run is on a line, it has made that many steps. -/
private theorem nest_steps {n k : Nat} (h : ((stepOver nestLayout nestBack)^[n] nestState).pc = k)
    (hk : k < 16) : n = k := by
  rw [nest_pc] at h
  omega

end Nested

end MyLang
