/-
When a call preserves the caller's state.

If the slots fit, every run of a call keeps the caller's variables, saved parameters and
busy temporaries.  If they do not, a call with constant arguments already breaks one: from
a state chosen so that the first slot spilled to differs from the variable it lies on, or
with a callee that uses the memory below the caller's stack pointer, where a saved
temporary then lies.

The slots start where the variables of the callee would end in its frame, not where those
of the caller do.  With a callee that has two variables less they lie on those of the
caller; with one that has more they may come below the stack pointer.  So that they fit is
a matter of the sizes of the two frames and of the number of busy temporaries and
arguments, and of nothing else.

For the direction in which a call goes wrong a run has to be given.  `clashState` is a
machine in the middle of the address space whose memory has a one where the first slot is,
and the call writes a zero there, be it a temporary or an argument.
-/
import MyLang.Proofs.CallFrame

namespace MyLang

open Rv32 ByteMemory

variable {st st' : AsmState} {reg : Temp} {c : List Line} {entries : List SymTabEntry}
  {frames : List StackFrame}

/-! ### Entries of the caller and the callee

The generator has marked parameters in the entries of the analysis; offsets and frames are
the same.
-/

section Entries

variable {body : AstNode} {params : List Param} {name : String} {gid fid lo hi : Nat}

theorem coreAt_eq_some {id : SymId} {e : SymTabEntry} (h : coreAt entries id = some e) :
    ∃ e', entries[id]? = some e' ∧ e'.core = e := by
  rw [coreAt, List.getElem?_map, Option.map_eq_some_iff] at h
  exact h

/-- The offset of a variable is its place among the variables. -/
theorem FuncLayout.offset (h : FuncLayout entries frames name body params gid fid lo hi) {k : Nat}
    {id : SymId} {e : SymTabEntry} (hk : body.localIds[k]? = some id) (he : entries[id]? = some e) :
    e.offset = intSize * k := by
  obtain ⟨key, type, hc⟩ := h.local_entry k id hk
  obtain ⟨e', he', hcore⟩ := coreAt_eq_some hc
  obtain rfl := Option.some.inj (he'.symm.trans he)
  exact congrArg SymTabEntry.offset hcore

/-- The generator's entries have the analysis' offsets and frames. -/
theorem entry_of_fixed {entries' : List SymTabEntry}
    (hst : entries'.map SymTabEntry.fixed = entries.map SymTabEntry.fixed) {id : SymId}
    {e : SymTabEntry} (he : entries[id]? = some e) :
    ∃ e', entries'[id]? = some e' ∧ e'.offset = e.offset ∧ e'.frame = e.frame := by
  have h : (entries'.map SymTabEntry.fixed)[id]? = some e.fixed := by
    rw [hst, List.getElem?_map, he]
    rfl
  rw [List.getElem?_map, Option.map_eq_some_iff] at h
  obtain ⟨e', he', hf⟩ := h
  have hoff := congrArg SymTabEntry.offset hf
  have hframe := congrArg SymTabEntry.frame hf
  exact ⟨e', he', hoff, hframe⟩

/-- An assignment to a variable of the function stores into its slot. -/
theorem FuncLayout.storeOffset_eq (h : FuncLayout entries frames name body params gid fid lo hi)
    {entries' : List SymTabEntry}
    (hst : entries'.map SymTabEntry.fixed = entries.map SymTabEntry.fixed) {k : Nat} {id : SymId}
    (hk : body.localIds[k]? = some id) :
    storeOffset entries' (some id) = localsBase + intSize * k := by
  obtain ⟨key, type, hc⟩ := h.local_entry k id hk
  obtain ⟨e, he, _⟩ := coreAt_eq_some hc
  obtain ⟨e', he', hoff, _⟩ := entry_of_fixed hst he
  rw [storeOffset, entryOf_some, he', ← h.offset hk he, ← hoff]

/-- The frame a call looks up is the callee's. -/
theorem FuncLayout.frame_size (h : FuncLayout entries frames name body params gid fid lo hi)
    {value : String} {evalArgs : List (Gen Temp)}
    (hst : st.entries.map SymTabEntry.fixed = entries.map SymTabEntry.fixed)
    (f : FuncCallCode frames value (some gid) evalArgs st reg st' c) :
    f.frame.size = intSize * body.localIds.length := by
  obtain ⟨type, offset, hc⟩ := h.entry
  obtain ⟨e, he, hcore⟩ := coreAt_eq_some hc
  obtain ⟨e', he', _, hframe⟩ := entry_of_fixed hst he
  have hid : gid = f.id := Option.some.inj f.symbol_eq
  have hentry : f.entry = e' := by
    have := f.entry_eq
    rw [← hid, he'] at this
    exact (Option.some.inj this).symm
  have hfid : f.entry.frame = some fid := by
    rw [hentry, hframe]
    exact congrArg SymTabEntry.frame hcore
  have hfid' : fid = f.frameId := Option.some.inj (hfid.symm.trans f.frameId_eq)
  have := f.frame_eq
  rw [← hfid', h.frame] at this
  rw [← Option.some.inj this]

end Entries

/-! ### If the slots fit

Slots that lie between the variables and the stack pointer are not looked at by anyone
else.
-/

section Fits

variable {fbody gbody : AstNode} {fparams gparams : List Param} {fname gname : String}
  {fgid ffid flo fhi ggid gfid glo ghi : Nat} {args : List AstNode}

/-- The bytes below the frame pointer that a call to a function with `g` variables uses. -/
def spillSize (g busy n : Nat) : Nat :=
  intSize * g + localsBase + registerSize * (busy + n)

/-- A call whose slots fit preserves the caller's state. -/
theorem callPreserves_of_fits
    (hF : FuncLayout entries frames fname fbody fparams fgid ffid flo fhi)
    (hG : FuncLayout entries frames gname gbody gparams ggid gfid glo ghi)
    (hst : st.entries.map SymTabEntry.fixed = entries.map SymTabEntry.fixed)
    (f : FuncCallCode frames gname (some ggid) (evalAsmList frames args) st reg st' c)
    (hargs : ∀ a ∈ args, CallArg fbody a)
    (hfits : SpillFits fbody.localIds.length gbody.localIds.length st.busy.length args.length) :
    CallPreserves entries fbody.localIds (args.flatMap AstNode.assigned) st.free gname
      (frameSize (intSize * fbody.localIds.length))
      (spillSize gbody.localIds.length st.busy.length args.length) c := by
  -- the run of the call: what is spilled, the callee, and what is loaded again
  intro P L m hnd hlabel hc hsp hframe hspill
  have hrs : registerSize = 4 := rfl
  have his : intSize = 4 := rfl
  have hlb : localsBase = 44 := rfl
  have hlt := (m.get fp).isLt
  have hbound := frameSize_bounds (intSize * fbody.localIds.length)
  have hsize : spillBase f.frame = intSize * gbody.localIds.length + localsBase := by
    rw [spillBase, hG.frame_size hst f]
  obtain ⟨hover, hbelow⟩ := hfits
  have hE := fun n hn => (hargs n hn).isExpr
  have hCF := fun n hn => (hargs n hn).callFree
  have hend : spillBase f.frame + registerSize * (st.busy.length + args.length) ≤ 2 ^ 32 - 4 := by
    rw [hsize]
    simp only [spillSize, hrs, hlb] at *
    omega
  -- an assignment of the arguments goes to a variable of the caller
  have hassigned : ∀ n ∈ args, ∀ s ∈ n.assigned, ∃ k < fbody.localIds.length,
      ∃ id, s = some id ∧ fbody.localIds[k]? = some id ∧
        storeOffset st.entries s = localsBase + intSize * k := by
    intro n hn s hs
    obtain ⟨id, hid, rfl⟩ := (hargs n hn).assigned s hs
    obtain ⟨k, hk, hkid⟩ := List.mem_iff_getElem.mp hid
    have hk' : fbody.localIds[k]? = some id := by rw [List.getElem?_eq_getElem hk, hkid]
    exact ⟨k, hk, id, rfl, hk', hF.storeOffset_eq hst hk'⟩
  obtain ⟨call, ret, hcall, hexit⟩ := f.run (L := L) (m := m) hCF hnd hlabel hc
  refine ⟨call, hcall.runs, hcall.pc, fun back hback => ?_⟩
  obtain ⟨m', hm'⟩ := hexit back (by rw [hback.pc, hcall.ra])
  refine ⟨m', hm'.runs, hm'.pc, ?_⟩
  -- the callee leaves the slots of the frame alone
  have hkeep : ∀ off, 4 ≤ off → off ≤ frameSize (intSize * fbody.localIds.length) →
      loadWord back.mem (below (m.get fp) off) = loadWord call.mem (below (m.get fp) off) := by
    intro off h4 hoff
    refine loadWord_of_agree hframe h4 hoff fun a ha => hback.mem a ?_
    rwa [hcall.sp, hsp]
  -- a slot of the frame that is not assigned is not spilled to
  have hslot : ∀ off, 4 ≤ off → off ≤ localsBase + intSize * fbody.localIds.length - 4 →
      (∀ n ∈ args, ∀ s ∈ n.assigned,
        off + 4 ≤ storeOffset st.entries s ∨ storeOffset st.entries s + 4 ≤ off) →
      loadWord m'.mem (below (m.get fp) off) = loadWord m.mem (below (m.get fp) off) := by
    intro off h4 hoff hapart
    rw [hm'.mem, hkeep off h4 (by simp only [his, hlb] at *; omega), hcall.mem]
    rcases hover with hnone | hle
    · obtain rfl : args = [] := List.length_eq_zero_iff.mp (by omega)
      have hbusy : st.busy = [] := List.length_eq_zero_iff.mp (by omega)
      rw [hbusy]
      rfl
    · refine callMem_slot hE hCF hend ?_ fun n hn s hs => ⟨?_, hapart n hn s hs⟩
      · rw [hsize]
        simp only [his, hlb] at *
        omega
      · obtain ⟨k, hk, -, -, -, hoff⟩ := hassigned n hn s hs
        rw [hoff]
        simp only [his, hlb] at *
        omega
  refine ⟨fun id hid hnot e he => ?_, fun i hi => ?_, fun i hi => ?_⟩
  · -- a variable
    obtain ⟨k, hk, hkid⟩ := List.mem_iff_getElem.mp hid
    have hk' : fbody.localIds[k]? = some id := by rw [List.getElem?_eq_getElem hk, hkid]
    rw [hF.offset hk' he]
    refine hslot _ (by simp only [his, hlb]; omega) (by simp only [his, hlb]; omega) ?_
    intro n hn s hs
    obtain ⟨k', hk'', id', rfl, hid', hoff⟩ := hassigned n hn s hs
    have hne : k' ≠ k := by
      rintro rfl
      obtain rfl := Option.some.inj (hk'.symm.trans hid')
      exact hnot (List.mem_flatMap.mpr ⟨n, hn, hs⟩)
    rw [hoff]
    simp only [his, hlb]
    omega
  · -- a saved parameter
    have hi8 : i < 8 := hi
    refine hslot _ (by simp only [hrs]; omega) (by simp only [hrs, hlb]; omega) ?_
    intro n hn s hs
    obtain ⟨k', hk'', -, -, -, hoff⟩ := hassigned n hn s hs
    rw [hoff]
    simp only [hrs, hlb]
    omega
  · -- a busy temporary
    obtain ⟨k, hk, hki⟩ := List.mem_iff_getElem.mp (AsmState.mem_busy.mpr hi)
    have hk' : st.busy[k]? = some i := by rw [List.getElem?_eq_getElem hk, hki]
    rw [hm'.temps k i hk', hback.fp, hcall.fp, hkeep _ (by simp only [hrs]; omega), hcall.mem]
    · refine callMem_temp hE hCF hend hk' fun n hn s hs => ?_
      obtain ⟨k', hk'', -, -, -, hoff⟩ := hassigned n hn s hs
      rw [hoff, hsize]
      simp only [his, hlb] at *
      omega
    · rw [hsize]
      simp only [hrs, hlb] at *
      omega

end Fits

/-! ### Calls with constant arguments

The code of such a call can be had for any number of arguments, and it has no labels.
-/

section Constants

variable {P : List Line} {value : String}

theorem saveTemps_ok (regs : List Temp) (off : Nat) (st : AsmState) :
    ∃ r, saveTemps regs off st = .ok r := by
  induction regs generalizing off st with
  | nil => exact ⟨_, rfl⟩
  | cons reg regs ih =>
      simp only [saveTemps, state_bind_apply]
      by_cases hfree : st.free reg = true
      · rw [if_pos hfree]
        exact ih off st
      · rw [if_neg hfree]
        obtain ⟨⟨⟨off', freed⟩, st', c⟩, h⟩ := ih (off + registerSize) (st.release reg)
        exact ⟨((off', reg :: freed), st', _), emit_bind_eq_ok.mpr ⟨_, by
          rw [freeRegister_bind_apply, Gen.bind_eq_ok]
          exact ⟨_, _, _, [], h, rfl, rfl⟩, rfl⟩⟩

theorem restoreTemps_ok (regs : List Temp) (off : Nat) (st : AsmState) :
    ∃ st' c, restoreTemps regs off st = .ok ((), st', c) := by
  induction regs generalizing off st with
  | nil => exact ⟨_, _, rfl⟩
  | cons reg regs ih =>
      obtain ⟨st', c, h⟩ := ih (off - registerSize)
        { st with free := Function.update st.free reg false }
      refine ⟨st', .instr (.lw (.t reg) (-(off : Int)) fp) :: c, ?_⟩
      simp only [restoreTemps, emitLoadWordFp, emit_bind_eq_ok, update_bind_apply]
      exact ⟨c, h, rfl⟩

/-- Constant arguments can be evaluated when a register is free. -/
theorem spillArgs_const_ok (n off : Nat) (hfirst : ∃ reg, st.first = some reg) :
    ∃ st' c, spillArgs (List.replicate n (evalIntConst 0)) off st = .ok ((), st', c) ∧
      labels c = [] ∧ c.length = 2 * n := by
  induction n generalizing off st with
  | zero => exact ⟨st, [], rfl, rfl, rfl⟩
  | succ n ih =>
      obtain ⟨reg, hreg⟩ := hfirst
      have hfree : ((st.take reg).release reg).free = st.free := (Allocs.of_first hreg).release
      have hfirst : ((st.take reg).release reg).first = some reg := by
        rw [AsmState.first, hfree]
        exact hreg
      obtain ⟨st', c, h, hl, hn⟩ := ih (off + registerSize) ⟨reg, hfirst⟩
      refine ⟨st', [.instr (.addi (.t reg) .zero 0)] ++
        (.instr (.sw (.t reg) (-((off + registerSize : Nat) : Int)) fp) :: c), ?_, hl,
        by simp [hn, Nat.mul_succ]⟩
      rw [List.replicate_succ, spillArgs_cons_eq_ok]
      exact ⟨reg, st.take reg, _, c, evalIntConst_eq_ok.mpr ⟨hreg, rfl, rfl⟩, h, rfl⟩

/-- The constant arguments of a call, `n` of them. -/
def constArgs (n : Nat) : List AstNode := List.replicate n (.intConst 0)

theorem constArgs_callArg (body : AstNode) (n : Nat) : ∀ a ∈ constArgs n, CallArg body a := by
  intro a ha
  obtain rfl := List.eq_of_mem_replicate ha
  exact ⟨rfl, rfl, by simp [AstNode.assigned]⟩

theorem first_of_free {i : Temp} (h : st.free i = true) : ∃ reg, st.first = some reg := by
  rw [← Option.isSome_iff_exists, AsmState.first, List.find?_isSome]
  exact ⟨i, List.mem_finRange i, h⟩

/-- A call with constant arguments compiles as soon as one temporary is free. -/
theorem evalFuncCall_const_ok {id : SymId} {entry : SymTabEntry} {fid : FrameId}
    {frame : StackFrame} (value : String) (hent : st.entries[id]? = some entry)
    (hfid : entry.frame = some fid) (hframe : frames[fid]? = some frame)
    (hfree : ∃ i, st.free i = true) (n : Nat) :
    ∃ reg st' c, evalFuncCall frames value (some id) (evalAsmList frames (constArgs n)) st
      = .ok (reg, st', c) ∧ labels c = [] ∧ c.length ≤ 2 * n + 24 := by
  obtain ⟨i, hi⟩ := hfree
  have hmap : evalAsmList frames (constArgs n) = List.replicate n (evalIntConst 0) := by
    rw [evalAsmList_eq_map, constArgs, List.map_replicate]
    rfl
  have hallocs : ∀ g ∈ List.replicate n (evalIntConst 0), AllocsResult g := by
    intro g hg
    obtain rfl := List.eq_of_mem_replicate hg
    exact evalIntConst_allocs
  obtain ⟨⟨⟨off, freed⟩, st1, c1⟩, h1⟩ :=
    saveTemps_ok (List.finRange tempLength) (frame.size + localsBase) st
  obtain ⟨hfreed, hoff, hst1, hc1⟩ := saveTemps_eq_ok (List.nodup_finRange _) h1
  have hfirst1 : ∃ reg, st1.first = some reg := first_of_free (i := i) (by simp [hst1])
  obtain ⟨st2, c2, h2, hl2, hn2⟩ := spillArgs_const_ok n off hfirst1
  obtain ⟨hfree2, hent2⟩ := spillArgs_free hallocs h2
  obtain ⟨st3, c3, h3⟩ := restoreTemps_ok freed.reverse off st2
  obtain ⟨hst3, hc3⟩ := restoreTemps_eq_ok h3
  have hfree3 : st3.free i = true := by simp [hst3, hfree2, hst1, hfreed, hi]
  obtain ⟨reg, hreg⟩ := first_of_free hfree3
  refine ⟨reg, st3.take reg,
    c1 ++ (c2 ++ (loadCode (((List.finRange argLength).take n).map .a) off ++
    (.instr (.jal value) :: (c3 ++ [.instr (.mv (.t reg) (.a 0))])))), ?_, ?_, ?_⟩
  · simp only [evalFuncCall, symbolEntry_bind_eq_ok, frameSizeOf, bind_assoc, follow_bind_eq_ok,
      pure_bind, hmap, List.length_replicate]
    refine ⟨id, entry, rfl, hent, fid, hfid, frame, hframe, ?_⟩
    rw [Gen.bind_eq_ok]
    refine ⟨_, _, _, _, h1, ?_, rfl⟩
    rw [Gen.bind_eq_ok]
    refine ⟨_, _, _, _, h2, ?_, rfl⟩
    rw [Gen.bind_eq_ok]
    refine ⟨(), _, _, _, loadArgs_eq_ok.mpr ⟨rfl, rfl⟩, ?_, rfl⟩
    refine emit_bind_eq_ok.mpr ⟨_, ?_, rfl⟩
    rw [Gen.bind_eq_ok]
    refine ⟨_, _, _, _, h3, ?_, rfl⟩
    refine allocRegister_bind_eq_ok.mpr ⟨reg, hreg, ?_⟩
    exact emit_bind_eq_ok.mpr ⟨[], rfl, rfl⟩
  · simp [hc1, hl2, hc3]
  · have hlen : freed.length ≤ 7 := by
      rw [hfreed]
      exact (List.length_filter_le _ _).trans (by simp)
    have htake : ((List.finRange argLength).take n).length ≤ 8 := by
      rw [List.length_take]
      simp
    simp only [List.length_append, List.length_cons, hc1, hc3, storeCode_length, loadCode_length,
      restoreCode_length, List.length_map, List.length_reverse, List.length_nil, hn2]
    omega

end Constants

/-! ### If the slots do not fit

One of the two things goes wrong: the first slot is that of a variable, or the last of the
saved temporaries lies below the stack pointer, where the callee has its frame.
-/

section Clash

variable {P : List Line} {L : Layout P.length} {fbody gbody : AstNode}
  {fparams gparams : List Param}
  {fname gname : String} {fgid ffid flo fhi ggid gfid glo ghi : Nat}

/--
In a program that ends with a label, of two states at it one of which reaches the other,
there is one.
-/
private theorem eq_of_last {n : Nat} {l : String} {x y : Machine} (hlen : P.length = n + 1)
    (hl : P[n]? = some (.label l)) (hx : x.pc = n) (hy : y.pc = n)
    (h : Runs L x y ∨ Runs L y x) : x = y := by
  have hone : ∀ {x y : Machine}, x.pc = n → y.pc = n → Runs L x y → x = y := by
    intro x y hx hy h
    rcases Relation.ReflTransGen.cases_head h with rfl | ⟨z, hz, hzy⟩
    · rfl
    · rw [step_label (l := l) (by rw [hx, hl])] at hz
      obtain rfl := Option.some.inj hz
      have hstuck : step L x.next = none := by
        rw [step, List.getElem?_eq_none (by rw [Machine.next_pc, hx]; omega)]
      obtain rfl := Runs.eq_of_stuck hstuck hzy
      rw [Machine.next_pc] at hy
      omega
  rcases h with h | h
  · exact hone hx hy h
  · exact (hone hy hx h).symm

/-- The middle of the address space. -/
private def midFp : Word := BitVec.ofNat 32 (2 ^ 31)

private theorem midFp_toNat : midFp.toNat = 2 ^ 31 := by decide

/-- A state with a frame of `frame` bytes, every temporary zero, and a one in the slot `slot`. -/
private def clashState (frame slot : Nat) : Machine where
  pc := 0
  regs := fun r => if r = .sp then below midFp frame else if r = fp then midFp else 0
  mem := storeWord (fun _ => 0) (below midFp slot) 1

private theorem clashState_fp (frame slot : Nat) : (clashState frame slot).get fp = midFp := rfl

private theorem clashState_sp (frame slot : Nat) :
    (clashState frame slot).get .sp = below midFp frame := rfl

private theorem clashState_t (frame slot : Nat) (i : Temp) :
    (clashState frame slot).get (.t i) = 0 := rfl

/-- Constant arguments write their own slots only. -/
private theorem constArgs_mem_apart {fp : Word} {n off a : Nat} {mem : Mem}
    (hend : off + registerSize * n ≤ 2 ^ 32 - 4) (ha : a ≤ off) :
    loadWord (denoteArgs entries fp (constArgs n) off mem) (below fp a)
      = loadWord mem (below fp a) := by
  refine denoteArgs_apart (fun a ha => ?_) (fun a ha => ?_) (by simpa [constArgs] using hend) ha
    fun a ha s hs => ?_
  all_goals obtain rfl := List.eq_of_mem_replicate ha
  · rfl
  · rfl
  · simp [AstNode.assigned] at hs

/-- The first slot a call with something to spill writes to is zero when the callee is entered. -/
private theorem callMem_first {base n frame slot : Nat} {busy : List Temp}
    (hend : base + registerSize * (busy.length + n) ≤ 2 ^ 32 - 4) (hpos : busy.length + n ≠ 0) :
    loadWord (callMem (clashState frame slot) entries base busy (constArgs n))
      (below midFp (base + registerSize)) = 0 := by
  have hrs : registerSize = 4 := rfl
  rw [callMem, clashState_fp]
  cases busy with
  | cons i busy =>
      rw [List.length_cons] at hend
      rw [constArgs_mem_apart (by simp only [List.length_cons, hrs] at *; omega)
        (by simp only [List.length_cons, hrs]; omega)]
      have h :
        loadWord (storeSlots midFp ((i :: busy).map fun i => (clashState frame slot).get (.t i))
          base (clashState frame slot).mem) (below midFp (base + registerSize * (0 + 1))) = 0 :=
        storeSlots_get (by simp only [List.length_map, List.length_cons, hrs] at *; omega) rfl
      rwa [Nat.zero_add, Nat.mul_one] at h
  | nil =>
      cases n with
      | zero => simp at hpos
      | succ n =>
          rw [List.length_nil] at hend
          change loadWord (denoteArgs entries midFp (.intConst 0 :: constArgs n) base _) _ = 0
          rw [denoteArgs, constArgs_mem_apart (by simp only [hrs] at *; omega) (le_refl _),
            loadWord_storeWord_self]
          rfl

/-- A call whose slots do not fit, with constant arguments, does not preserve the caller's state. -/
theorem exists_not_callPreserves
    (hF : FuncLayout entries frames fname fbody fparams fgid ffid flo fhi)
    (hG : FuncLayout entries frames gname gbody gparams ggid gfid glo ghi)
    (hst : st.entries.map SymTabEntry.fixed = entries.map SymTabEntry.fixed)
    (hfree : ∃ i, st.free i = true) (n : Nat)
    (hframe : frameSize (intSize * fbody.localIds.length) ≤ 2 ^ 31)
    (hspill : spillSize gbody.localIds.length st.busy.length n ≤ 2 ^ 31)
    (hfits : ¬ SpillFits fbody.localIds.length gbody.localIds.length st.busy.length n) :
    ∃ reg st' c, evalFuncCall frames gname (some ggid) (evalAsmList frames (constArgs n)) st
        = .ok (reg, st', c) ∧
      ¬ CallPreserves entries fbody.localIds ((constArgs n).flatMap AstNode.assigned) st.free gname
        (frameSize (intSize * fbody.localIds.length))
        (spillSize gbody.localIds.length st.busy.length n) c := by
  have hrs : registerSize = 4 := rfl
  have his : intSize = 4 := rfl
  have hlb : localsBase = 44 := rfl
  have hbound := frameSize_bounds (intSize * fbody.localIds.length)
  obtain ⟨type, offset, hc⟩ := hG.entry
  obtain ⟨e, he, hcore⟩ := coreAt_eq_some hc
  obtain ⟨e', he', _, hfr⟩ := entry_of_fixed hst he
  have hcore := congrArg SymTabEntry.frame hcore
  obtain ⟨reg, st', c, hok, hlabels, hlen⟩ := evalFuncCall_const_ok gname he'
    (hfr.trans hcore) hG.frame hfree n
  refine ⟨reg, st', c, hok, fun hpres => ?_⟩
  obtain ⟨f⟩ := evalFuncCall_code hok
  have hbase : spillBase f.frame = intSize * gbody.localIds.length + localsBase := by
    rw [spillBase, hG.frame_size hst f]
  -- the program, and a state whose first slot spilled to holds a one
  have hPlen : (c ++ [Line.label gname]).length = c.length + 1 := by simp
  have hlast : (c ++ [Line.label gname])[c.length]? = some (.label gname) := by simp
  let L : Layout (c ++ [Line.label gname]).length := Layout.ofLines _ (by
    simp only [spillSize, hrs] at hspill
    omega)
  let m := clashState (frameSize (intSize * fbody.localIds.length))
    (spillBase f.frame + registerSize)
  have hnd : (labels (c ++ [Line.label gname])).Nodup := by simp [hlabels]
  have hcode : CodeAt (c ++ [Line.label gname]) m.pc c :=
    codeAt_of_eq (show c ++ [Line.label gname] = [] ++ (c ++ [Line.label gname]) from rfl)
  have hend : spillBase f.frame + registerSize * (st.busy.length + n) ≤ 2 ^ 32 - 4 := by
    rw [hbase]
    simp only [spillSize] at hspill
    omega
  -- what the run does, and what is to be shown of it
  obtain ⟨call, ret, hcall, hexit⟩ := f.run (L := L) (m := m)
    (fun a ha => (constArgs_callArg fbody n a ha).callFree) hnd (by simp) hcode
  obtain ⟨call', hruns', hpc', hback'⟩ := hpres _ L m hnd (by simp) hcode rfl
    (by rw [clashState_fp, midFp_toNat]; exact hframe)
    (by rw [clashState_fp, midFp_toNat]; exact hspill)
  have hline := lineOf_eq hnd hlast
  have hcallpc : call.pc = c.length := Option.some.inj (hcall.pc.symm.trans hline)
  obtain rfl : call' = call := eq_of_last hPlen hlast
    (Option.some.inj (hpc'.symm.trans hline)) hcallpc (hruns'.total hcall.runs)
  have hmpc : m.pc + c.length = c.length := Nat.zero_add _
  have hkept : ∀ back : Machine, CalleeReturns call' back ret → ∃ m', m'.mem = back.mem ∧
      (∀ k i, st.busy[k]? = some i → m'.get (.t i) = loadWord back.mem
        (below (back.get fp) (spillBase f.frame + registerSize * (k + 1)))) ∧
      CallerKept entries fbody.localIds ((constArgs n).flatMap AstNode.assigned) st.free m m' := by
    intro back hback
    obtain ⟨m1, hm1⟩ := hexit back hback.pc
    obtain ⟨m2, hruns2, hpc2, hkept⟩ := hback' back (by rw [hcall.ra]; exact hback)
    obtain rfl : m2 = m1 := eq_of_last hPlen hlast (hpc2.trans hmpc) (hm1.pc.trans hmpc)
      (hruns2.total hm1.runs)
    exact ⟨m2, hm1.mem, hm1.temps, hkept⟩
  rw [SpillFits, not_and_or, not_or, not_or] at hfits
  rcases hfits with ⟨hpos, hover⟩ | ⟨hbusy, hbelow⟩
  · -- a variable lies on the first slot spilled to
    obtain ⟨m', hmem, -, hkept⟩ := hkept { call' with pc := ret } ⟨rfl, rfl, rfl, fun _ _ => rfl⟩
    have hk : gbody.localIds.length + 1 < fbody.localIds.length := by omega
    obtain ⟨key, ty, hc⟩ := hF.local_entry _ _ (List.getElem?_eq_getElem hk)
    obtain ⟨ev, hev, -⟩ := coreAt_eq_some hc
    have hoff := hF.offset (List.getElem?_eq_getElem hk) hev
    have hslot : ev.offset + localsBase = spillBase f.frame + registerSize := by
      rw [hoff, hbase]
      simp only [hrs]
      omega
    have hv := hkept.locals _ (List.getElem_mem hk) (by
      intro hmem
      obtain ⟨a, ha, hs⟩ := List.mem_flatMap.mp hmem
      obtain rfl := List.eq_of_mem_replicate ha
      simp [AstNode.assigned] at hs) ev hev
    rw [hslot, hmem, clashState_fp] at hv
    have hzero : loadWord (callMem m st.entries (spillBase f.frame) st.busy (constArgs n))
        (below midFp (spillBase f.frame + registerSize)) = 0 := callMem_first hend hpos
    rw [show ({ call' with pc := ret } : Machine).mem = call'.mem from rfl, hcall.mem, hzero] at hv
    have hone : loadWord m.mem (below midFp (spillBase f.frame + registerSize)) = 1 :=
      loadWord_storeWord_self _ _ _
    rw [hone] at hv
    exact absurd hv (by decide)
  · -- the last temporary saved lies below the stack pointer
    have hlt : st.busy.length - 1 < st.busy.length := by omega
    let off := spillBase f.frame + registerSize * (st.busy.length - 1 + 1)
    have hoffeq : off = intSize * gbody.localIds.length + localsBase
        + registerSize * st.busy.length := by
      simp only [off, hbase, hrs]
      omega
    have hfar : frameSize (intSize * fbody.localIds.length) + 4 ≤ off := by
      rw [hoffeq]
      simp only [hrs, hlb] at *
      omega
    have hoff31 : off ≤ 2 ^ 31 := by
      rw [hoffeq]
      simp only [spillSize, hrs] at hspill ⊢
      omega
    obtain ⟨m', hmem, htemps, hkept⟩ := hkept
      { call' with pc := ret, mem := storeWord call'.mem (below midFp off) 1 }
      ⟨rfl, rfl, rfl, fun a ha => storeWord_far _ _ _ (by
        have hsp : call'.get .sp = below midFp (frameSize (intSize * fbody.localIds.length)) := by
          rw [hcall.sp, clashState_sp]
        rw [hsp, below_toNat (by rw [midFp_toNat]; exact hframe), midFp_toNat] at ha
        have hb : (below midFp off).toNat = 2 ^ 31 - off := by
          rw [below_toNat (by rw [midFp_toNat]; exact hoff31), midFp_toNat]
        rw [BitVec.toNat_sub, hb]
        have := a.isLt
        omega)⟩
    have hi : st.free st.busy[st.busy.length - 1] = false :=
      AsmState.mem_busy.mp (List.getElem_mem hlt)
    have hv := htemps _ _ (List.getElem?_eq_getElem hlt)
    have hfp : ({ call' with pc := ret, mem := storeWord call'.mem (below midFp off) 1 } :
        Machine).get fp = midFp := by
      change call'.get fp = midFp
      rw [hcall.fp, clashState_fp]
    rw [hkept.temps _ hi, clashState_t, hfp] at hv
    have hone : loadWord (storeWord call'.mem (below midFp off) 1) (below midFp off) = 1 :=
      loadWord_storeWord_self _ _ _
    exact absurd (hv.trans hone) (by decide)

end Clash

/-! ### The calls of an accepted program

The analysis says where the variables of the caller are, and how large both frames.
-/

section Program

variable {uninit : Int} {arena : SymId → Nat} {tokens : List Token} {r : SemaResult}
  {fname ftype gname gtype : String} {fbody gbody : AstNode} {fparams gparams : List Param}
  {fsym gsym : Option SymId}

/-- `int g(int x) { return x; }  int main() { int a = 1; int b = 2; g(0); return b; }` -/
def clashTokens : List Token :=
  [tok .type "int", tok .ident "g", tok .lparen "(", tok .type "int", tok .ident "x",
    tok .rparen ")", tok .lbrace "\x7b", tok .return_ "return", tok .ident "x", tok .semicolon ";",
    tok .rbrace "\x7d",
    tok .type "int", tok .ident "main", tok .lparen "(", tok .rparen ")", tok .lbrace "\x7b",
    tok .type "int", tok .ident "a", tok .assign "=", tok .num "1", tok .semicolon ";",
    tok .type "int", tok .ident "b", tok .assign "=", tok .num "2", tok .semicolon ";",
    tok .ident "g", tok .lparen "(", tok .num "0", tok .rparen ")", tok .semicolon ";",
    tok .return_ "return", tok .ident "b", tok .semicolon ";", tok .rbrace "\x7d"]

/-- The checked body of `main` in `clashTokens`. -/
def clashMain : AstNode :=
  .compStmt [.varDef "a" "int" (.intConst 1) (some 3), .varDef "b" "int" (.intConst 2) (some 4),
    .exprStmt (.funcCall "g" [.intConst 0] (some 1)), .ret (.ident "b" (some 4)) (some 2)]

/-- The checked body of `g` in `clashTokens`. -/
def clashCallee : AstNode := .compStmt [.ret (.ident "x" (some 0)) (some 1)]

theorem clashTokens_accepted : ∃ r, Accepted 0 (fun _ => 0) clashTokens r ∧
    .funcDef "main" "int" clashMain [] (some 2) ∈ r.prog ∧
    .funcDef "g" "int" clashCallee [{ value := "x", type := "int", symbol := some 0 }] (some 1)
      ∈ r.prog :=
  ⟨_, ⟨_, _, rfl, rfl⟩, List.mem_cons_of_mem _ (List.mem_cons_self ..), List.mem_cons_self ..⟩

end Program

end MyLang
