/-
What the code of a call does up to the jump and from the return on.

Busy temporaries and arguments are spilled to consecutive slots below the frame pointer,
from a base that depends on the frame of the function called.  Up to the jump the run
writes nothing but these slots and what the arguments assign; from the return on it only
reads.  So the run is two memories: `callMem`, which the callee finds, and the one it
leaves, out of which the temporaries come back.

The arguments here are without calls, so what their code does is `denote`, and
`denoteArgs` is one after the other, each stored to its slot.  Calls in arguments are the
matter of `Proofs/CallReach.lean` and `Proofs/CallExpr.lean`.

The slots may lie anywhere, also on the variables of the caller: nothing here needs them
to be apart, and where they are not `callMem` shows what becomes of the variables.
-/
import MyLang.Proofs.ExprRun

namespace MyLang

open Rv32 ByteMemory

variable {P : List Line} {L : Layout P.length} {m m' : Machine} {frames : List StackFrame}
  {st st' : AsmState} {reg : Temp} {c : List Line}

/-! ### Slots in a row

Storing a list of registers, and loading it again in the same order or the reverse one.
-/

/-- Store words into the slots after `off`, one after the other. -/
def storeSlots (fp : Word) : List Word → Nat → Mem → Mem
  | [], _, mem => mem
  | v :: vs, off, mem =>
      storeSlots fp vs (off + registerSize) (storeWord mem (below fp (off + registerSize)) v)

@[simp] theorem storeCode_length (regs : List Reg) (off : Nat) :
    (storeCode regs off).length = regs.length := by
  induction regs generalizing off with
  | nil => rfl
  | cons r regs ih => simp [storeCode, ih]

@[simp] theorem loadCode_length (regs : List Reg) (off : Nat) :
    (loadCode regs off).length = regs.length := by
  induction regs generalizing off with
  | nil => rfl
  | cons r regs ih => simp [loadCode, ih]

@[simp] theorem restoreCode_length (regs : List Reg) (off : Nat) :
    (restoreCode regs off).length = regs.length := by
  induction regs generalizing off with
  | nil => rfl
  | cons r regs ih => simp [restoreCode, ih]

/-- A slot apart from the ones stored into keeps its word. -/
theorem storeSlots_apart {fp : Word} {vs : List Word} {off a : Nat} {mem : Mem}
    (hend : off + registerSize * vs.length ≤ 2 ^ 32 - 4) (ha : a ≤ 2 ^ 32 - 4)
    (h : a ≤ off ∨ off + registerSize * vs.length + registerSize ≤ a) :
    loadWord (storeSlots fp vs off mem) (below fp a) = loadWord mem (below fp a) := by
  induction vs generalizing off mem with
  | nil => rfl
  | cons v vs ih =>
      simp only [List.length_cons, registerSize] at hend h
      have hrs : registerSize = 4 := rfl
      rw [storeSlots, ih (by simp only [hrs]; omega) (by simp only [hrs]; omega),
        loadWord_storeWord_apart]
      exact below_apart fp (by omega) ha (by omega)

/-- The slots stored into hold what was stored. -/
theorem storeSlots_get {fp : Word} {vs : List Word} {off k : Nat} {v : Word} {mem : Mem}
    (hend : off + registerSize * vs.length ≤ 2 ^ 32 - 4) (hk : vs[k]? = some v) :
    loadWord (storeSlots fp vs off mem) (below fp (off + registerSize * (k + 1))) = v := by
  induction vs generalizing off mem k with
  | nil => simp at hk
  | cons w vs ih =>
      simp only [List.length_cons, registerSize] at hend
      have hrs : registerSize = 4 := rfl
      rw [storeSlots]
      cases k with
      | zero =>
          obtain rfl : w = v := by simpa using hk
          rw [Nat.zero_add, Nat.mul_one, storeSlots_apart (by simp only [hrs]; omega)
            (by omega) (by simp only [hrs]; omega), loadWord_storeWord_self]
      | succ k =>
          rw [show off + registerSize * (k + 1 + 1) = off + registerSize + registerSize * (k + 1) by
            simp only [hrs]
            omega]
          exact ih (by simp only [hrs]; omega) (by simpa using hk)

theorem storeCode_runFor {regs : List Reg} {off : Nat} (hc : CodeAt P m.pc (storeCode regs off)) :
    runFor L regs.length m = some { m with pc := m.pc + regs.length,
                                           mem := storeSlots (m.get fp)
                                             (regs.map m.get) off m.mem } := by
  induction regs generalizing m off with
  | nil => rfl
  | cons r regs ih =>
      have hstep : step L m = some (m.store (below (m.get fp) (off + registerSize))
          (m.get r)).next := by
        rw [step_instr hc.1, Instr.exec, add_ofInt_neg]
      refine runFor_head hstep ?_
      rw [ih (codeAt_store_next _ _ hc), List.length_cons, Nat.add_comm regs.length,
        ← Nat.add_assoc]
      rfl

theorem storeCode_run {regs : List Reg} {off : Nat} (hc : CodeAt P m.pc (storeCode regs off)) :
    Runs L m { m with pc := m.pc + regs.length,
                      mem := storeSlots (m.get fp) (regs.map m.get) off m.mem } :=
  Runs.of_runFor (storeCode_runFor hc)

theorem loadCode_run {regs : List Reg} {off : Nat} (hc : CodeAt P m.pc (loadCode regs off)) :
    ∃ m', Runs L m m' ∧ m'.pc = m.pc + regs.length ∧ m'.mem = m.mem ∧
      ∀ r, r ∉ regs → m'.get r = m.get r := by
  induction regs generalizing m off with
  | nil => exact ⟨m, Runs.refl m, rfl, rfl, fun _ _ => rfl⟩
  | cons r regs ih =>
      obtain ⟨m', hr, hpc, hmem, hget⟩ := ih (m := (m.set r (loadWord m.mem (m.get fp +
        BitVec.ofInt 32 (-((off + registerSize : Nat) : Int))))).next) (codeAt_set_next _ _ hc)
      refine ⟨m', (runs_instr hc rfl).trans hr, ?_, hmem, ?_⟩
      · rw [hpc, Machine.next_pc, Machine.set_pc, List.length_cons]
        omega
      · intro s hs
        rw [List.mem_cons, not_or] at hs
        rw [hget s hs.2, get_set_next_ne hs.1]

/-- Loading in reverse order brings back what is in the slots. -/
theorem restoreCode_run (regs : List Temp) (off : Nat) (hnd : regs.Nodup)
    (hc : CodeAt P m.pc
      (restoreCode (regs.reverse.map .t) (off + registerSize * regs.length))) :
    ∃ m', Runs L m m' ∧ m'.pc = m.pc + regs.length ∧ m'.mem = m.mem ∧
      (∀ k i, regs[k]? = some i → m'.get (.t i)
        = loadWord m.mem (below (m.get fp) (off + registerSize * (k + 1)))) ∧
      ∀ r, (∀ i ∈ regs, r ≠ .t i) → m'.get r = m.get r := by
  induction regs using List.reverseRecOn generalizing m with
  | nil => exact ⟨m, Runs.refl m, rfl, rfl, by simp, fun _ _ => rfl⟩
  | append_singleton regs x ih =>
      rw [List.nodup_append] at hnd
      rw [List.reverse_append, List.reverse_singleton, List.singleton_append, List.map_cons,
        restoreCode, List.length_append, List.length_singleton] at hc
      let v := loadWord m.mem (m.get fp +
        BitVec.ofInt 32 (-((off + registerSize * (regs.length + 1) : Nat) : Int)))
      have hx : x ∉ regs := fun hx => hnd.2.2 x hx x (by simp) rfl
      obtain ⟨m', hr, hpc, hmem, hval, hget⟩ := ih (m := (m.set (.t x) v).next) hnd.1 (by
        have := codeAt_set_next (.t x) v hc
        rwa [show off + registerSize * (regs.length + 1) - registerSize
          = off + registerSize * regs.length by
            simp only [registerSize]
            omega] at this)
      refine ⟨m', (runs_instr hc rfl).trans hr, ?_, hmem, ?_, ?_⟩
      · rw [hpc, Machine.next_pc, Machine.set_pc, List.length_append, List.length_singleton]
        omega
      · intro k i hk
        by_cases hlt : k < regs.length
        · rw [List.getElem?_append_left hlt] at hk
          rw [hval k i hk, Machine.next_mem, Machine.set_mem, get_set_next_ne (by simp)]
        · have hkl := (List.getElem?_eq_some_iff.mp hk).1
          rw [List.length_append, List.length_singleton] at hkl
          obtain rfl : k = regs.length := by omega
          obtain rfl : x = i := by simpa using hk
          rw [hget (.t x) (fun j hj he => hx (Reg.t.inj he ▸ hj)), get_set_next_temp]
          simp only [v, add_ofInt_neg]
      · intro r hr
        rw [hget r fun i hi => hr i (by simp [hi]), get_set_next_ne (hr x (by simp))]

/-! ### Arguments

An argument is evaluated with all registers free, into the first of them.
-/

/-- The memory after the arguments were evaluated into the slots after `off`. -/
def denoteArgs (entries : List SymTabEntry) (fp : Word) : List AstNode → Nat → Mem → Mem
  | [], _, mem => mem
  | arg :: rest, off, mem =>
      let r := denote entries fp arg mem
      denoteArgs entries fp rest (off + registerSize)
        (storeWord r.2 (below fp (off + registerSize)) r.1)

/-- The code of arguments without calls, each stored to its slot. -/
theorem spillArgs_run {args : List AstNode} {off : Nat} {u : Unit}
    (hcf : ∀ a ∈ args, a.callFree = true)
    (h : spillArgs (args.map (evalAsm frames)) off st = .ok (u, st', c)) (hnd : (labels P).Nodup)
    (hc : CodeAt P m.pc c) :
    ∃ m', Runs L m m' ∧ m'.pc = m.pc + c.length ∧
      m'.mem = denoteArgs st.entries (m.get fp) args off m.mem ∧ Keeps st.free m m' := by
  induction args generalizing st off c m with
  | nil =>
      simp only [List.map_nil, spillArgs, Gen.pure_eq_ok] at h
      obtain ⟨-, rfl, rfl⟩ := h
      exact ⟨m, Runs.refl m, rfl, rfl, Keeps.refl m⟩
  | cons a args ih =>
      rw [List.map_cons, spillArgs_cons_eq_ok] at h
      obtain ⟨r, st1, c1, c3, ha, h, rfl⟩ := h
      rw [codeAt_append] at hc
      have hal := evalAsm_allocs a ha
      obtain ⟨m1, h1⟩ := evalAsm_run (L := L) (hcf a (by simp)) ha hnd hc.1
      have hc2 := hc.2
      rw [← h1.pc] at hc2
      obtain ⟨m2, hr, hpc, hmem, hk⟩ := ih
        (m := (m1.store (m1.get fp + BitVec.ofInt 32 (-((off + registerSize : Nat) : Int)))
          (m1.get (.t r))).next) (fun b hb => hcf b (by simp [hb])) h
        (codeAt_store_next _ _ hc2)
      rw [hal.release] at hk
      rw [AsmState.release_entries, hal.entries] at hmem
      refine ⟨m2, h1.runs.trans ((runs_instr hc2 rfl).trans hr), ?_, ?_, fun s hs => ?_⟩
      · rw [hpc, Machine.next_pc, Machine.store_pc, h1.pc, List.length_append, List.length_cons]
        omega
      · rw [hmem, Machine.next_mem, Machine.store_mem, Machine.next_get, Machine.store_get,
          h1.value, h1.mem, h1.keeps.fp, add_ofInt_neg, denoteArgs]
      · rw [hk s hs, Machine.next_get, Machine.store_get, h1.keeps s hs]

/-! ### The whole call

The two halves are put together by the run of the callee, which is not known.
-/

/-- The slot before the first one a call spills to. -/
def spillBase (frame : StackFrame) : Nat := frame.size + localsBase

/-- The memory the callee finds. -/
def callMem (m : Machine) (entries : List SymTabEntry) (base : Nat) (busy : List Temp)
    (args : List AstNode) : Mem :=
  denoteArgs entries (m.get fp) args (base + registerSize * busy.length)
    (storeSlots (m.get fp) (busy.map fun i => m.get (.t i)) base m.mem)

/-- The state in which a call enters the callee, from the state it starts in. -/
structure CallEntry (P : List Line) (L : Layout P.length) (value : String) (mem : Mem) (ret : Nat)
    (m call : Machine) : Prop where
  runs : Runs L m call
  pc : lineOf P value = some call.pc
  ra : L.decode (call.get .ra) = ret
  sp : call.get .sp = m.get .sp
  fp : call.get fp = m.get fp
  mem : call.mem = mem

/-- The state a call ends in, from the state the callee returns in. -/
structure CallExit (L : Layout P.length) (busy : List Temp) (base n : Nat) (reg : Temp)
    (back m' : Machine) : Prop where
  runs : Runs L back m'
  pc : m'.pc = n
  mem : m'.mem = back.mem
  value : m'.get (.t reg) = back.get (.a 0)
  temps : ∀ k i, busy[k]? = some i →
    m'.get (.t i) = loadWord back.mem (below (back.get MyLang.fp) (base + registerSize * (k + 1)))
  keeps : ∀ r, (∀ i, r ≠ .t i) → m'.get r = back.get r

variable {value : String} {symbol : Option SymId} {args : List AstNode}

/--
**The code of a call enters the callee with everything spilled, and restores it on the way
back.**
-/
theorem FuncCallCode.run (f : FuncCallCode frames value symbol
      (evalAsmList frames args) st reg st' c) (hcf : ∀ a ∈ args, a.callFree = true)
    (hnd : (labels P).Nodup) (hlabel : .label value ∈ P)
    (hc : CodeAt P m.pc c) :
    ∃ call ret, CallEntry P L value (callMem m st.entries (spillBase f.frame) st.busy args) ret m
      call ∧ ∀ back : Machine, back.pc = ret →
        ∃ m', CallExit L st.busy (spillBase f.frame) (m.pc + c.length) reg back m' := by
  have hspill : spillArgs (args.map (evalAsm frames))
      (f.frame.size + localsBase + registerSize * st.busy.length) (st.withFree fun _ => true)
        = .ok ((), f.argState, f.argCode) := by
    rw [← evalAsmList_eq_map]
    exact f.spill
  have hcode := f.code_eq
  rw [hcode] at hc
  simp only [codeAt_append, codeAt_cons, storeCode_length, loadCode_length, restoreCode_length,
    List.length_map] at hc
  obtain ⟨hc1, hc2, hc3, hjal, hc4, hmv, -⟩ := hc
  -- the temporaries
  have h1 := storeCode_run (L := L) hc1
  rw [List.length_map] at h1
  -- the arguments
  obtain ⟨m2, h2, hpc2, hmem2, hk2⟩ := spillArgs_run (L := L)
    (m := { m with pc := m.pc + st.busy.length,
                   mem := storeSlots (m.get fp) ((st.busy.map Reg.t).map m.get)
                     (f.frame.size + localsBase) m.mem }) hcf hspill hnd hc2
  dsimp only at hpc2
  -- the argument registers
  obtain ⟨m3, h3, hpc3, hmem3, hk3⟩ := loadCode_run (L := L) (m := m2) (by
    rw [hpc2]
    exact hc3)
  rw [List.length_map] at hpc3
  -- the jump
  obtain ⟨p, hp, hpl⟩ := List.mem_iff_getElem.mp hlabel
  have hline : lineOf P value = some p := lineOf_eq hnd (by rw [List.getElem?_eq_getElem hp, hpl])
  have hjal3 : P[m3.pc]? = some (.instr (.jal value)) := by
    rw [hpc3, hpc2]
    exact hjal
  have h4 : Runs L m3 ((m3.set .ra (L.addr (m3.pc + 1))).goto p) := by
    refine Runs.one ?_
    rw [step_instr hjal3, Instr.exec, hline]
    rfl
  have hlt : m3.pc < P.length := (List.getElem?_eq_some_iff.mp hjal3).1
  have hother : ∀ r : Reg, (∀ i, r ≠ .t i) → (∀ i, r ≠ .a i) → m3.get r = m.get r := by
    intro r ht ha
    rw [hk3 r (by
      intro h
      obtain ⟨i, -, rfl⟩ := List.mem_map.mp h
      exact ha i rfl), hk2 r fun i hi => absurd hi (ht i)]
    rfl
  refine ⟨_, m3.pc + 1, ⟨h1.trans (h2.trans (h3.trans h4)), hline, ?_, ?_, ?_, ?_⟩, ?_⟩
  · rw [Machine.goto_get, Machine.get_set_self _ _ _ (by simp), L.decode_addr _ hlt]
  · rw [Machine.goto_get, Machine.get_set_ne _ _ (by simp), hother _ (by simp) (by simp)]
  · rw [Machine.goto_get, Machine.get_set_ne _ _ (by simp), hother _ (by simp) (by simp)]
  · rw [Machine.goto_mem, Machine.set_mem, hmem3, hmem2, callMem, List.map_map]
    rfl
  · intro back hback
    obtain ⟨m5, h5, hpc5, hmem5, hval5, hk5⟩ := restoreCode_run (L := L) (m := back)
      st.busy (spillBase f.frame) ((List.nodup_finRange _).filter _) (by
        rw [hback, hpc3, hpc2]
        exact hc4)
    have hmv5 : P[m5.pc]? = some (.instr (.mv (.t reg) (.a 0))) := by
      rw [hpc5, hback, hpc3, hpc2]
      simpa using hmv
    have hreg : st.free reg = true :=
      (f.allocs fun g hg => by
        rw [evalAsmList_eq_map] at hg
        obtain ⟨a, -, rfl⟩ := List.mem_map.mp hg
        exact evalAsm_allocs a).was_free
    refine ⟨(m5.set (.t reg) (m5.get (.a 0))).next,
      ⟨h5.trans (Runs.one (step_instr hmv5)), ?_, hmem5, ?_, ?_, ?_⟩⟩
    · have hlen := congrArg List.length hcode
      simp only [List.length_append, List.length_cons, storeCode_length, loadCode_length,
        restoreCode_length, List.length_map, List.length_reverse, List.length_nil] at hlen
      rw [Machine.next_pc, Machine.set_pc, hpc5, hback, hpc3, hpc2]
      omega
    · rw [get_set_next_temp, hk5 _ (by simp)]
    · intro k i hk
      have hi : st.free i = false := AsmState.mem_busy.mp (List.mem_of_getElem? hk)
      rw [get_set_next_ne (by rintro ⟨⟩; simp [hi] at hreg), hval5 k i hk]
    · intro r hr
      rw [get_set_next_ne (hr reg), hk5 r fun i _ => hr i]

end MyLang
