/-
Runs whose end is foreseen.

A check that only looks ahead can say of a run whether it will return, and if not, what
will stop it.  `EndsAs` is the relation between the two, and it goes through a sequence of
runs one part after the other.

The reasons of the check need not be the errors of the run: `error` says which error goes
with a reason, and two reasons may have one error.  What a run returns and the state that
it leaves are not foreseen, only that it returns.  A check is therefore good for saying
which inputs get through, and the rest is known from the runs that did.
-/
import MyLang.Lib.StateExcept

namespace ExceptRun

variable {ε φ α β : Type} {reason : φ → ε} {x : Except ε α} {y : Except φ Unit} {f : φ}

/-- The run returns if the check passes, and stops for the reason it gives if it does not. -/
def EndsAs (reason : φ → ε) (x : Except ε α) (y : Except φ Unit) : Prop :=
  match y with
  | .ok _ => ∃ a, x = .ok a
  | .error f => x = .error (reason f)

namespace EndsAs

theorem error : EndsAs reason (.error (reason f) : Except ε α) (.error f) := rfl

/-- What is said of one run is said of another that ends like it. -/
theorem congr {x' : Except ε β} (h : EndsAs reason x y) (hok : ∀ a, x = .ok a → ∃ b, x' = .ok b)
    (herr : ∀ e, x = .error e → x' = .error e) : EndsAs reason x' y := by
  cases y with
  | ok u =>
      obtain ⟨a, ha⟩ := h
      exact hok a ha
  | error f => exact herr _ h

/-- A run stops for a reason exactly if the check gives it. -/
theorem error_iff (h : EndsAs reason x y) (hinj : Function.Injective reason) :
    x = .error (reason f) ↔ y = .error f := by
  cases y with
  | ok u =>
      obtain ⟨a, ha⟩ := h
      simp [ha]
  | error g =>
      have hx : x = .error (reason g) := h
      rw [hx, Except.error.injEq, Except.error.injEq, hinj.eq_iff]

/-- What stops a run is the reason of some check. -/
theorem reason_of_error (h : EndsAs reason x y) {e : ε} (he : x = .error e) :
    ∃ f, e = reason f := by
  cases y with
  | ok u =>
      obtain ⟨a, ha⟩ := h
      rw [ha] at he
      simp at he
  | error g =>
      have hx : x = .error (reason g) := h
      rw [hx] at he
      exact ⟨g, (Except.error.inj he).symm⟩

end EndsAs

end ExceptRun
