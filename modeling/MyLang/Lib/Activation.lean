/-
Following one activation of a function.

A run of the machine goes through the functions that are called as well, and through the
same lines again if one of them is the function itself.  `Within` follows a run from one
state on and keeps the lines that the open calls come back to: while there is none, it is
the activation itself whose lines are executed.  It is followed as long as it stays in a
range of lines.  A call that comes back to another line than the one behind it is not
followed any further.

Code whose branches and jumps land in it is left in two ways only, by returning and behind
its end.  `Within.narrow` is what follows from that: as long as an activation does not come
to the end of such a piece of code, it can be followed in this piece alone.
-/
import MyLang.Lib.Rv32

namespace Rv32

variable {P c d : List Line} {L : Layout P.length} {m m' m1 m2 : Machine} {lo hi p q : Nat}
  {s s' : List Nat}

/-! ### Branches and jumps

Targets are names, so that whether a piece of code keeps control can be said without the
program it stands in.
-/

/-- The label an instruction goes to for good. -/
def Instr.jump : Instr → Option String
  | .beq _ _ l => some l
  | .bne _ _ l => some l
  | .j l => some l
  | _ => none

/-- The branches and jumps of a piece of code go to labels of a list. -/
def JumpsTo (ls : List String) (c : List Line) : Prop :=
  ∀ i, .instr i ∈ c → ∀ l, i.jump = some l → l ∈ ls

@[simp] theorem jumpsTo_nil (ls : List String) : JumpsTo ls [] := by
  intro i h
  simp at h

@[simp] theorem jumpsTo_cons_label {ls : List String} {l : String} :
    JumpsTo ls (.label l :: c) ↔ JumpsTo ls c := by
  simp [JumpsTo]

@[simp] theorem jumpsTo_cons_instr {ls : List String} {i : Instr} :
    JumpsTo ls (.instr i :: c) ↔ (∀ l, i.jump = some l → l ∈ ls) ∧ JumpsTo ls c := by
  unfold JumpsTo
  constructor
  · intro h
    exact ⟨h i (by simp), fun j hj => h j (by simp [hj])⟩
  · intro h j hj
    rcases List.mem_cons.mp hj with hj | hj
    · obtain rfl := Line.instr.inj hj
      exact h.1
    · exact h.2 j hj

@[simp] theorem jumpsTo_append {ls : List String} :
    JumpsTo ls (c ++ d) ↔ JumpsTo ls c ∧ JumpsTo ls d := by
  unfold JumpsTo
  simp only [List.mem_append]
  constructor
  · intro h
    exact ⟨fun i hi => h i (Or.inl hi), fun i hi => h i (Or.inr hi)⟩
  · intro h i hi
    rcases hi with hi | hi
    · exact h.1 i hi
    · exact h.2 i hi

theorem JumpsTo.mono {ls ls' : List String} (h : JumpsTo ls c) (hsub : ls ⊆ ls') : JumpsTo ls' c :=
  fun i hi l hl => hsub (h i hi l hl)

/-- The branches and jumps of a piece of code land in it. -/
def JumpsInside (c : List Line) : Prop := JumpsTo (labels c) c

theorem JumpsInside.append (h : JumpsInside c) (h' : JumpsInside d) : JumpsInside (c ++ d) := by
  unfold JumpsInside at *
  rw [labels_append, jumpsTo_append]
  exact ⟨h.mono (List.subset_append_left ..), h'.mono (List.subset_append_right ..)⟩

/-! ### Lines of a piece of code

A label of a piece of code is found in it, if no label stands twice in the program.
-/

theorem CodeAt.getElem? {code : List Line} (hc : CodeAt P p code) (hlo : p ≤ q)
    (hhi : q < p + code.length) : P[q]? = code[q - p]? := by
  induction code generalizing p with
  | nil =>
      rw [List.length_nil] at hhi
      omega
  | cons x code ih =>
      rw [codeAt_cons] at hc
      rw [List.length_cons] at hhi
      by_cases hq : q = p
      · subst hq
        simp [hc.1]
      · rw [ih hc.2 (by omega) (by omega), show q - p = (q - (p + 1)) + 1 by omega,
          List.getElem?_cons_succ]

/-- A label of a piece of code stands in it. -/
theorem CodeAt.line_of_mem_labels (hc : CodeAt P p c) {l : String} (h : l ∈ labels c) :
    ∃ q, p ≤ q ∧ q < p + c.length ∧ P[q]? = some (.label l) := by
  induction c generalizing p with
  | nil => simp at h
  | cons x c ih =>
      rw [codeAt_cons] at hc
      have hrest : l ∈ labels c → ∃ q, p ≤ q ∧ q < p + (c.length + 1) ∧
          P[q]? = some (.label l) := by
        intro h
        obtain ⟨q, hlo, hhi, hq⟩ := ih hc.2 h
        exact ⟨q, by omega, by omega, hq⟩
      rw [List.length_cons]
      cases x with
      | instr i => exact hrest h
      | label l' =>
          rw [labels_cons_label, List.mem_cons] at h
          rcases h with rfl | h
          · exact ⟨p, le_refl p, by omega, hc.1⟩
          · exact hrest h

/-- An instruction that is no call and no return goes on behind itself or jumps. -/
theorem step_pc {i : Instr} (hx : P[m.pc]? = some (.instr i)) (hs : step L m = some m')
    (hcall : ∀ l, i ≠ .jal l ∧ i ≠ .call l) (hret : ∀ r, i ≠ .jalr r) :
    m'.pc = m.pc + 1 ∨ ∃ l, i.jump = some l ∧ lineOf P l = some m'.pc := by
  rw [step_instr hx] at hs
  have hjump : ∀ l, (lineOf P l).map m.goto = some m' → lineOf P l = some m'.pc := by
    intro l h
    obtain ⟨p, hp, rfl⟩ := Option.map_eq_some_iff.mp h
    exact hp
  cases i with
  | beq rs1 rs2 l | bne rs1 rs2 l =>
      rw [Instr.exec] at hs
      split at hs
      · exact Or.inr ⟨l, rfl, hjump l hs⟩
      · obtain rfl := Option.some.inj hs
        exact Or.inl rfl
  | j l => exact Or.inr ⟨l, rfl, hjump l hs⟩
  | jal l => exact absurd rfl (hcall l).1
  | call l => exact absurd rfl (hcall l).2
  | jalr r => exact absurd rfl (hret r)
  | ecall => simp [Instr.exec] at hs
  | _ =>
      obtain rfl := Option.some.inj hs
      exact Or.inl rfl

/-! ### Open calls

The lines that open calls come back to are a stack; while it is empty the activation
itself runs.
-/

/--
The lines that the open calls come back to, the last one first, once the line `x` at `p` has
been executed and the next one is `p'`.
-/
def Line.calls (x : Line) (p p' : Nat) (s : List Nat) : Option (List Nat) :=
  match x with
  | .instr (.jal _) => some ((p + 1) :: s)
  | .instr (.call _) => some ((p + 1) :: s)
  | .instr (.jalr _) =>
      match s with
      | [] => none
      | q :: s => if p' = q then some s else none
  | _ => some s

/--
The activation that runs in `m` is followed to `m'`, with the calls `s` open there.  Its own
lines are all between `lo` and `hi`, that of `m'` perhaps not.
-/
inductive Within (L : Layout P.length) (lo hi : Nat) (m : Machine) : List Nat → Machine → Prop
  | start : Within L lo hi m [] m
  | step {s s' m1 m2 x} (h : Within L lo hi m s m1) (hin : s = [] → lo ≤ m1.pc ∧ m1.pc < hi)
      (hx : P[m1.pc]? = some x) (hs : step L m1 = some m2)
      (hcalls : x.calls m1.pc m2.pc s = some s') : Within L lo hi m s' m2

namespace Within

theorem trans (h : Within L lo hi m [] m1) (h' : Within L lo hi m1 s m') :
    Within L lo hi m s m' := by
  induction h' with
  | start => exact h
  | step h' hin hx hs hcalls ih => exact ih.step hin hx hs hcalls

/-- A wider range. -/
theorem mono {lo' hi' : Nat} (h : Within L lo hi m s m') (hlo : lo' ≤ lo) (hhi : hi ≤ hi') :
    Within L lo' hi' m s m' := by
  induction h with
  | start => exact start
  | step h hin hx hs hcalls ih =>
      refine ih.step (fun hnil => ?_) hx hs hcalls
      have := hin hnil
      omega

/-- Outside the range nothing is followed. -/
theorem eq_of_outside (h : Within L lo hi m s m') (hout : m.pc < lo ∨ hi ≤ m.pc) :
    s = [] ∧ m' = m := by
  induction h with
  | start => exact ⟨rfl, rfl⟩
  | step h hin hx hs hcalls ih =>
      obtain ⟨rfl, rfl⟩ := ih
      have := hin rfl
      omega

/-- The first line is no call and no return. -/
theorem cases_head {x : Line} (hx : P[m.pc]? = some x) (hs : Rv32.step L m = some m1)
    (hplain : ∀ p', x.calls m.pc p' [] = some []) (h : Within L lo hi m s m') :
    (s = [] ∧ m' = m) ∨ Within L lo hi m1 s m' := by
  induction h with
  | start => exact Or.inl ⟨rfl, rfl⟩
  | step h hin hx' hs' hcalls ih =>
      right
      rcases ih with ⟨rfl, rfl⟩ | ih
      · obtain rfl := Option.some.inj (hx.symm.trans hx')
        obtain rfl := Option.some.inj (hs.symm.trans hs')
        obtain rfl := Option.some.inj ((hplain _).symm.trans hcalls)
        exact start
      · exact ih.step hin hx' hs' hcalls

end Within

/-! ### Code that keeps control

The invariant is where the first of the open calls comes back, or where the activation is
if there is none.
-/

/--
Where an activation is that came into the code between `lo` and `hi`: the first of its open
calls comes back there too.
-/
def Stays (lo hi : Nat) (s : List Nat) (p : Nat) : Prop :=
  match s.getLast? with
  | none => lo ≤ p ∧ p ≤ hi
  | some q => lo ≤ q ∧ q ≤ hi

/-- One line of the code is executed. -/
theorem stays_step {x : Line} (hnd : (labels P).Nodup) (hc : CodeAt P p c) (hj : JumpsInside c)
    (hstay : Stays p (p + c.length) s m.pc) (hin : s = [] → p ≤ m.pc ∧ m.pc < p + c.length)
    (hx : P[m.pc]? = some x) (hs : step L m = some m') (hcalls : x.calls m.pc m'.pc s = some s') :
    Stays p (p + c.length) s' m'.pc := by
  -- a line that opens and closes no call
  have hplain : s' = s → (∀ i, x = .instr i → (∀ l, i ≠ .jal l ∧ i ≠ .call l) ∧ ∀ r, i ≠ .jalr r) →
      Stays p (p + c.length) s' m'.pc := by
    rintro rfl hi
    cases s' with
    | cons q s => exact hstay
    | nil =>
        have hin := hin rfl
        have hmem := hc.getElem? hin.1 hin.2
        cases x with
        | label l =>
            rw [step_label hx] at hs
            obtain rfl := Option.some.inj hs
            show p ≤ m.pc + 1 ∧ m.pc + 1 ≤ p + c.length
            omega
        | instr i =>
            rcases step_pc hx hs (hi i rfl).1 (hi i rfl).2 with hpc | ⟨l, hl, hline⟩
            · show p ≤ m'.pc ∧ m'.pc ≤ p + c.length
              omega
            · have hl := hj i (List.mem_of_getElem? (hmem.symm.trans hx)) l hl
              obtain ⟨q, hlo, hhi, hq⟩ := hc.line_of_mem_labels hl
              have heq := Option.some.inj (hline.symm.trans (lineOf_eq hnd hq))
              show p ≤ m'.pc ∧ m'.pc ≤ p + c.length
              omega
  -- a call
  have hcall : s' = (m.pc + 1) :: s → Stays p (p + c.length) s' m'.pc := by
    rintro rfl
    cases s with
    | nil =>
        have hin := hin rfl
        show p ≤ m.pc + 1 ∧ m.pc + 1 ≤ p + c.length
        omega
    | cons q s =>
        unfold Stays at *
        rw [List.getLast?_cons_cons]
        exact hstay
  cases x with
  | label l => exact hplain (Option.some.inj hcalls).symm (fun i hi => by simp at hi)
  | instr i =>
      cases i with
      | jal l | call l => exact hcall (Option.some.inj hcalls).symm
      | jalr r =>
          cases s with
          | nil => simp [Line.calls] at hcalls
          | cons q s =>
              simp only [Line.calls] at hcalls
              split at hcalls
              · obtain rfl := Option.some.inj hcalls
                rename_i hpc
                cases s with
                | nil =>
                    rw [hpc]
                    exact hstay
                | cons q' s =>
                    unfold Stays at *
                    rw [List.getLast?_cons_cons] at hstay
                    exact hstay
              · simp at hcalls
      | _ => exact hplain (Option.some.inj hcalls).symm (fun i hi => by
          obtain rfl := Line.instr.inj hi
          simp)

/-- **Code whose jumps land in it is left by returning or behind its end.** -/
theorem Within.stays (hnd : (labels P).Nodup) (hc : CodeAt P p c) (hj : JumpsInside c)
    (hm : p ≤ m.pc ∧ m.pc ≤ p + c.length) (h : Within L p (p + c.length) m s m') :
    Stays p (p + c.length) s m'.pc := by
  induction h with
  | start => exact hm
  | step h hin hx hs hcalls ih => exact stays_step hnd hc hj ih hin hx hs hcalls

/--
Followed in a wider range, an activation is followed in the code alone, or it comes to the
end of the code.
-/
theorem Within.narrow (hnd : (labels P).Nodup) (hc : CodeAt P p c) (hj : JumpsInside c)
    (hm : p ≤ m.pc ∧ m.pc ≤ p + c.length) (h : Within L lo hi m s m') :
    Within L p (p + c.length) m s m' ∨
      ∃ m1, Within L p (p + c.length) m [] m1 ∧ m1.pc = p + c.length ∧ Within L lo hi m1 s m' := by
  induction h with
  | start => exact Or.inl start
  | @step s s' m1 m2 x h hin hx hs hcalls ih =>
      rcases ih with ih | ⟨m0, h0, hpc0, ih⟩
      · by_cases hend : s = [] ∧ m1.pc = p + c.length
        · obtain ⟨rfl, hend⟩ := hend
          exact Or.inr ⟨m1, ih, hend, start.step hin hx hs hcalls⟩
        · refine Or.inl (ih.step (fun hnil => ?_) hx hs hcalls)
          have hstay := ih.stays hnd hc hj hm
          subst hnil
          have hstay : p ≤ m1.pc ∧ m1.pc ≤ p + c.length := hstay
          have hne : m1.pc ≠ p + c.length := fun hpc => hend ⟨rfl, hpc⟩
          omega
      · exact Or.inr ⟨m0, h0, hpc0, ih.step hin hx hs hcalls⟩

end Rv32
