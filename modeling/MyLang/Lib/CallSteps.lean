/-
Following one activation of a function, with every call one step.

What the functions called do is left open: a call may come back in any state that
`returns` relates to the one it was entered in.  `Reaches` says that however the calls
come back, the activation comes to a state with a property.  The callees' own lines are
never followed, so a line of the function is only ever executed by this activation.

Code without calls is followed as it runs.  A theorem about its runs in every program,
which says nothing of the lines passed through, is turned into one about `Reaches` by
running it in the program that ends where the code does: nothing but the code can be
executed there.
-/
import MyLang.Lib.Activation

namespace Rv32

variable {P c : List Line} {L : Layout P.length} {p : Nat} {returns : Machine → Machine → Prop}

/-- A line that is neither a call nor a return. -/
def Line.plain : Line → Bool
  | .instr (.jal _) | .instr (.call _) | .instr (.jalr _) => false
  | _ => true

/-- A line that is a call. -/
def Line.isCall : Line → Bool
  | .instr (.jal _) | .instr (.call _) => true
  | _ => false

theorem Line.plain_of_isCall {x : Line} (h : x.isCall = true) : x.plain = false := by
  cases x with
  | label l => simp [Line.isCall] at h
  | instr i =>
      cases i with
      | jal l | call l => rfl
      | _ => simp [Line.isCall] at h

/-- However the calls come back, the activation that runs in the state comes to one as `Q` says. -/
inductive Reaches (L : Layout P.length) (returns : Machine → Machine → Prop)
    (Q : Machine → Prop) : Machine → Prop
  | here {m : Machine} (h : Q m) : Reaches L returns Q m
  | plain {m m' : Machine} {x : Line} (hx : P[m.pc]? = some x) (hplain : x.plain = true)
    (hs : step L m = some m')
      (h : Reaches L returns Q m') : Reaches L returns Q m
  | call {m entry : Machine} {x : Line} (hx : P[m.pc]? = some x) (hcall : x.isCall = true)
      (hs : step L m = some entry) (h : ∀ back, returns entry back → Reaches L returns Q back) :
      Reaches L returns Q m

variable {m m' : Machine} {Q R : Machine → Prop}

namespace Reaches

/-- One piece of a run after the other. -/
theorem bind (h : Reaches L returns Q m) (hQ : ∀ m', Q m' → Reaches L returns R m') :
    Reaches L returns R m := by
  induction h with
  | here h => exact hQ _ h
  | plain hx hplain hs _ ih => exact plain hx hplain hs ih
  | call hx hcall hs _ ih => exact call hx hcall hs ih

theorem mono (h : Reaches L returns Q m) (hQ : ∀ m', Q m' → R m') : Reaches L returns R m :=
  h.bind fun m' hm' => here (hQ m' hm')

/-- An instruction that is neither a call nor a return. -/
theorem instr {i : Instr} (hc : CodeAt P m.pc (.instr i :: c)) (he : i.exec L m = some m')
    (hplain : Line.plain (.instr i) = true) (h : Reaches L returns Q m') :
    Reaches L returns Q m :=
  plain hc.1 hplain (by rw [step_instr hc.1, he]) h

/-- A call, and what follows however it comes back. -/
theorem jal {l : String} (hx : P[m.pc]? = some (.instr (.jal l))) (hp : lineOf P l = some p)
    (h : ∀ back, returns ((m.set .ra (L.addr (m.pc + 1))).goto p) back →
      Reaches L returns Q back) : Reaches L returns Q m := by
  refine call hx rfl ?_ h
  rw [step_instr hx, Instr.exec, hp]
  rfl

end Reaches

/-! ### Calls that come back in a known state

With one answer for every call there is one run, which can be computed.
-/

/--
One step of the activation, in which a call comes back in the state `back` makes of the one
it enters in.
-/
def stepOver (L : Layout P.length) (back : Machine → Machine) (m : Machine) : Machine :=
  match P[m.pc]?, step L m with
  | some x, some m' => if x.isCall then back m' else m'
  | _, _ => m

/-- What is reached however the calls come back is reached if they come back so. -/
theorem Reaches.exists_stepOver {back : Machine → Machine} (h : Reaches L returns Q m)
    (hback : ∀ entry, returns entry (back entry)) : ∃ n, Q ((stepOver L back)^[n] m) := by
  induction h with
  | here h => exact ⟨0, h⟩
  | @plain m m' x hx hplain hs _ ih =>
      obtain ⟨n, hn⟩ := ih
      refine ⟨n + 1, ?_⟩
      have hcall : x.isCall = false := by
        cases x with
        | label l => rfl
        | instr i => cases i <;> first | rfl | cases hplain
      have hstep : stepOver L back m = m' := by
        unfold stepOver
        rw [hx, hs]
        simp [hcall]
      rw [Function.iterate_succ_apply, hstep]
      exact hn
  | @call m entry x hx hcall hs _ ih =>
      obtain ⟨n, hn⟩ := ih _ (hback entry)
      refine ⟨n + 1, ?_⟩
      have hstep : stepOver L back m = back entry := by
        unfold stepOver
        rw [hx, hs]
        simp [hcall]
      rw [Function.iterate_succ_apply, hstep]
      exact hn

/-! ### The program up to the end of a piece of code

Cut off behind the code, a program does not go on there, so a run that is known to get to
the end has executed lines of the code only.
-/

/-- The layout of the first lines. -/
def Layout.take (L : Layout P.length) (n : Nat) : Layout (P.take n).length where
  addr := L.addr
  decode := L.decode
  decode_addr i hi := L.decode_addr i (Nat.le_trans hi (List.length_take_le' n P))

theorem getElem?_of_take {n q : Nat} {x : Line} (h : (P.take n)[q]? = some x) :
    P[q]? = some x := by
  rw [List.getElem?_take] at h
  split at h
  · exact h
  · cases h

theorem lineOf_take {n q : Nat} {l : String} (h : lineOf (P.take n) l = some q) :
    lineOf P l = some q := by
  unfold lineOf at *
  rw [List.findIdx?_eq_some_iff_getElem] at h ⊢
  obtain ⟨hq, hl, hbefore⟩ := h
  have hlen : q < P.length := Nat.lt_of_lt_of_le hq (List.length_take_le' n P)
  rw [List.getElem_take] at hl
  refine ⟨hlen, hl, fun j hj => ?_⟩
  have := hbefore j hj
  rwa [List.getElem_take] at this

theorem labels_take_nodup (hnd : (labels P).Nodup) (n : Nat) : (labels (P.take n)).Nodup :=
  hnd.sublist ((List.take_sublist n P).filterMap Line.defines)

theorem codeAt_take (hc : CodeAt P p c) : CodeAt (P.take (p + c.length)) p c := by
  induction c generalizing p with
  | nil => trivial
  | cons x c ih =>
      rw [codeAt_cons] at hc ⊢
      have hlen : p + (x :: c).length = p + 1 + c.length := by
        rw [List.length_cons]
        omega
      refine ⟨?_, ?_⟩
      · rw [List.getElem?_take, if_pos (by simp), hc.1]
      · rw [hlen]
        exact ih hc.2

/-- A step in the first lines is one of the program. -/
theorem step_of_take {n : Nat} {x : Line} (hx : (P.take n)[m.pc]? = some x)
    (hplain : x.plain = true) (hs : step (L.take n) m = some m') : step L m = some m' := by
  have hP := getElem?_of_take hx
  have hjump : ∀ {l : String}, (lineOf (P.take n) l).map m.goto = some m' →
      (lineOf P l).map m.goto = some m' := by
    intro l h
    obtain ⟨q, hq, rfl⟩ := Option.map_eq_some_iff.mp h
    rw [lineOf_take hq]
    rfl
  cases x with
  | label l =>
      rw [step_label hx] at hs
      rw [step_label hP, hs]
  | instr i =>
      rw [step_instr hx] at hs
      rw [step_instr hP]
      cases i with
      | beq rs1 rs2 l | bne rs1 rs2 l =>
          rw [Instr.exec] at hs ⊢
          split at hs
          · rename_i h
            rw [if_pos h]
            exact hjump hs
          · rename_i h
            rw [if_neg h]
            exact hs
      | j l => exact hjump hs
      | jal l | call l | jalr r => simp [Line.plain] at hplain
      | _ => exact hs

/-- **Code without calls whose run is known in every program is reached to its end.** -/
theorem Reaches.of_runs (hnd : (labels P).Nodup) (hc : CodeAt P m.pc c) (hj : JumpsInside c)
    (hplain : ∀ x ∈ c, x.plain = true)
    (hrun : ∀ {P' : List Line} (L' : Layout P'.length), (labels P').Nodup → CodeAt P' m.pc c →
      ∃ m', Runs L' m m' ∧ m'.pc = m.pc + c.length ∧ Q m') :
    Reaches L returns (fun m' => m'.pc = m.pc + c.length ∧ Q m') m := by
  have hc' : CodeAt (P.take (m.pc + c.length)) m.pc c := codeAt_take hc
  have hnd' := labels_take_nodup hnd (m.pc + c.length)
  obtain ⟨m', hruns, hpc, hq⟩ := hrun (L.take (m.pc + c.length)) hnd' hc'
  suffices h : ∀ m1, m.pc ≤ m1.pc → m1.pc ≤ m.pc + c.length →
    Runs (L.take (m.pc + c.length)) m1 m' →
      Reaches L returns (fun m' => m'.pc = m.pc + c.length ∧ Q m') m1 from
    h m (Nat.le_refl _) (Nat.le_add_right ..) hruns
  intro m1 hlo hhi h
  induction h using Relation.ReflTransGen.head_induction_on with
  | refl => exact here ⟨hpc, hq⟩
  | @head m1 m2 hs _ ih =>
      -- only the lines of the code are left in the program
      have hlt : m1.pc < m.pc + c.length := by
        by_contra hge
        have hnone : (P.take (m.pc + c.length))[m1.pc]? = none := by
          rw [List.getElem?_eq_none_iff, List.length_take]
          omega
        simp [step, hnone] at hs
      obtain ⟨x, hx⟩ : ∃ x, (P.take (m.pc + c.length))[m1.pc]? = some x := by
        cases hx : (P.take (m.pc + c.length))[m1.pc]? with
        | none => simp [step, hx] at hs
        | some x => exact ⟨x, rfl⟩
      have hmem := hc'.getElem? hlo hlt
      have hxc : x.plain = true := hplain x (List.mem_of_getElem? (hmem.symm.trans hx))
      have hcalls : x.calls m1.pc m2.pc [] = some [] := by
        cases x with
        | label l => rfl
        | instr i => cases i <;> first | rfl | simp [Line.plain] at hxc
      have hstay := stays_step hnd' hc' hj (s := []) ⟨hlo, hhi⟩ (fun _ => ⟨hlo, hlt⟩) hx hs hcalls
      exact plain (getElem?_of_take hx) hxc (step_of_take hx hxc hs) (ih hstay.1 hstay.2)

end Rv32
