/-
Runs with the activations that are open.

A call opens an activation and a return closes the one opened last.  `OpenRun` keeps the
state every open activation was entered in, so that what a function finds when it is left
can be compared with what it was entered with, however many calls there were on the way
and whatever they called.

A property of the activation that runs, and one of an activation that waits for another,
are kept in every run if each kind of step keeps them: `OpenRun.invariant`.

There are three kinds of steps: a call, a return, and anything else, which is a step of
the activation that runs.  A return may be restricted by what is true of the state it
leaves in (`ok`); a run in which some function is left in another way is not followed any
further.  So an invariant that holds only as long as the functions behave is one of these
runs.
-/
import Mathlib.Data.List.Chain
import MyLang.Lib.CallSteps

namespace Rv32

variable {P : List Line} {L : Layout P.length} {ok : Machine → Machine → Prop} {m0 m m' e : Machine}
  {s : List Machine}

/--
The run from a state on, with the states its open activations were entered in, the last one
first.  An activation entered in `e` is left in a state that `ok e` allows.
-/
inductive OpenRun (L : Layout P.length) (ok : Machine → Machine → Prop) (m0 : Machine) :
    List Machine → Machine → Prop
  | start : OpenRun L ok m0 [m0] m0
  | plain {s e m m' x} (h : OpenRun L ok m0 (e :: s) m) (hx : P[m.pc]? = some x)
      (hplain : x.plain = true) (hs : step L m = some m') : OpenRun L ok m0 (e :: s) m'
  | call {s e m m' x} (h : OpenRun L ok m0 (e :: s) m) (hx : P[m.pc]? = some x)
      (hcall : x.isCall = true) (hs : step L m = some m') : OpenRun L ok m0 (m' :: e :: s) m'
  | ret {s e m m' r} (h : OpenRun L ok m0 (e :: s) m) (hx : P[m.pc]? = some (.instr (.jalr r)))
      (hok : ok e m) (hs : step L m = some m') : OpenRun L ok m0 s m'

namespace OpenRun

/-- A number of steps, as long as none of them is a call or a return. -/
def plainFor (L : Layout P.length) : Nat → Machine → Option Machine
  | 0, m => some m
  | n + 1, m =>
      match P[m.pc]? with
      | some x => if x.plain then (step L m).bind (plainFor L n) else none
      | none => none

theorem runFor_of_plainFor {n : Nat} (h : plainFor L n m = some m') : runFor L n m = some m' := by
  induction n generalizing m with
  | zero => exact h
  | succ n ih =>
      rw [plainFor] at h
      split at h
      · split at h
        · obtain ⟨m1, hs, h⟩ := Option.bind_eq_some_iff.mp h
          exact runFor_head hs (ih h)
        · simp at h
      · simp at h

/-- They are steps of the activation that runs. -/
theorem of_plainFor {n : Nat} (h : OpenRun L ok m0 (e :: s) m) (hrun : plainFor L n m = some m') :
    OpenRun L ok m0 (e :: s) m' := by
  induction n generalizing m with
  | zero =>
      obtain rfl := Option.some.inj hrun
      exact h
  | succ n ih =>
      rw [plainFor] at hrun
      split at hrun
      · rename_i x hx
        split at hrun
        · rename_i hplain
          obtain ⟨m1, hs, hrun⟩ := Option.bind_eq_some_iff.mp hrun
          exact ih (plain h hx hplain hs) hrun
        · simp at hrun
      · simp at hrun

/--
**What every step keeps of the activation that runs, and of those that wait, holds in every
run.**
-/
theorem invariant {running waits : Machine → Machine → Prop} (h0 : running m0 m0)
    (hplain : ∀ {e m m' x}, running e m → P[m.pc]? = some x → x.plain = true → step L m = some m' →
      running e m') (hcall : ∀ {e m m' x}, running e m → P[m.pc]? = some x → x.isCall = true →
      step L m = some m' →
      running m' m' ∧ waits e m')
    (hret : ∀ {e e' m m' r}, waits e e' → running e' m → P[m.pc]? = some (.instr (.jalr r)) →
      ok e' m → step L m = some m' → running e m')
    (h : OpenRun L ok m0 s m) :
    (∀ e rest, s = e :: rest → running e m) ∧ s.IsChain fun e' e => waits e e' := by
  induction h with
  | start =>
      refine ⟨fun e rest hs => ?_, List.isChain_singleton m0⟩
      obtain ⟨rfl, -⟩ := List.cons.inj hs
      exact h0
  | plain h hx hpl hs ih =>
      refine ⟨fun e rest hcons => ?_, ih.2⟩
      exact hplain (ih.1 e rest hcons) hx hpl hs
  | call h hx hc hs ih =>
      obtain ⟨hrun, hwait⟩ := hcall (ih.1 _ _ rfl) hx hc hs
      refine ⟨fun e rest hcons => ?_, List.isChain_cons_cons.mpr ⟨hwait, ih.2⟩⟩
      obtain ⟨rfl, -⟩ := List.cons.inj hcons
      exact hrun
  | ret h hx hok hs ih =>
      refine ⟨fun e' rest hcons => ?_, ih.2.tail⟩
      subst hcons
      exact hret (List.isChain_cons_cons.mp ih.2).1 (ih.1 _ _ rfl) hx hok hs

end OpenRun

end Rv32
