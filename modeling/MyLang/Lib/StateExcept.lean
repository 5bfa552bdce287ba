/-
Runs of a state monad that can stop.

A function in `StateT σ (Except ε)` is taken apart from its result: it returned exactly if
each of its parts did, one after the other, the state passed along.  The lemmas say so for
the primitives; as simp lemmas they turn a do-block's run into the chain of its parts'
runs.

`Follows` compares such a function with a partial one: where the partial function has a
value the run returns it, where it has none the run stops, and with what error is left
open.  The state that is left may be described by what was returned.  It is how a function
that keeps tables is shown to compute what is said without any.
-/
import Mathlib.Tactic.Common

namespace StateExcept

variable {σ ε α β : Type}

@[simp] theorem bind_eq_ok {x : StateT σ (Except ε) α} {f : α → StateT σ (Except ε) β} {s s' : σ}
    {b : β} : (x >>= f) s = .ok (b, s') ↔ ∃ a s1, x s = .ok (a, s1) ∧ f a s1 = .ok (b, s') := by
  change (x s >>= fun p => f p.1 p.2) = _ ↔ _
  cases h : x s with
  | error e => simp [bind, Except.bind]
  | ok p =>
      obtain ⟨a, s1⟩ := p
      simp [bind, Except.bind]

@[simp] theorem pure_eq_ok {a b : α} {s s' : σ} :
    (pure a : StateT σ (Except ε) α) s = .ok (b, s') ↔ b = a ∧ s' = s := by
  change Except.ok (a, s) = _ ↔ _
  simp [eq_comm]

@[simp] theorem throw_eq_ok {e : ε} {a : α} {s s' : σ} :
    (throw e : StateT σ (Except ε) α) s = .ok (a, s') ↔ False := by
  change Except.error e = _ ↔ _
  simp

/-! ### A primitive and what follows it

With these a run is computed forwards, from a state that is known.
-/

@[simp] theorem get_bind_apply {f : σ → StateT σ (Except ε) α} {s : σ} :
    ((get : StateT σ (Except ε) σ) >>= f) s = f s s := rfl

@[simp] theorem modify_bind_apply {g : σ → σ} {f : PUnit → StateT σ (Except ε) α} {s : σ} :
    ((modify g : StateT σ (Except ε) PUnit) >>= f) s = f ⟨⟩ (g s) := rfl

theorem bind_of_ok {x : StateT σ (Except ε) α} {f : α → StateT σ (Except ε) β} {s s1 : σ} {a : α}
    (h : x s = .ok (a, s1)) : (x >>= f) s = f a s1 := by
  change (x s >>= fun p => f p.1 p.2) = f a s1
  rw [h]
  rfl

theorem lift_of_ok {x : Except ε α} {s : σ} {a : α} (h : x = .ok a) :
    (liftM x : StateT σ (Except ε) α) s = .ok (a, s) := by
  rw [h]
  rfl

/-! ### The same for runs that stop

A run stops in its first part, or in the second one behind a first that returned.
-/

theorem bind_eq_error {x : StateT σ (Except ε) α} {f : α → StateT σ (Except ε) β} {s : σ} {e : ε} :
    (x >>= f) s = .error e ↔
      x s = .error e ∨ ∃ a s1, x s = .ok (a, s1) ∧ f a s1 = .error e := by
  change (x s >>= fun p => f p.1 p.2) = _ ↔ _
  cases h : x s with
  | error e => simp [bind, Except.bind]
  | ok p =>
      obtain ⟨a, s1⟩ := p
      simp [bind, Except.bind]

/-! ### Runs that follow a partial function

A run does what a partial function says if it returns exactly where the function is
defined, with the function's value.  `R` is what then holds of the state.
-/

/--
From `s` on, `x` returns the value of `y` in a state `R` allows, or stops if `y` has no
value.
-/
def Follows (x : StateT σ (Except ε) α) (s : σ) (y : Option α) (R : α → σ → Prop) : Prop :=
  match x s with
  | .ok (a, s') => y = some a ∧ R a s'
  | .error _ => y = none

namespace Follows

variable {s : σ} {a : α} {y : Option α} {R : α → σ → Prop} {R' : β → σ → Prop}

theorem pure (h : R a s) : Follows (Pure.pure a : StateT σ (Except ε) α) s (some a) R :=
  ⟨rfl, h⟩

/-- Two runs in a row follow two partial functions in a row. -/
theorem bind {x : StateT σ (Except ε) α} {f : α → StateT σ (Except ε) β} {g : α → Option β}
    (hx : Follows x s y R) (hf : ∀ a s', R a s' → Follows (f a) s' (g a) R') :
    Follows (x >>= f) s (y >>= g) R' := by
  unfold Follows at hx ⊢
  change (match (x s >>= fun p => f p.1 p.2 : Except ε (β × σ)) with
    | .ok (a, s') => y >>= g = some a ∧ R' a s'
    | .error _ => y >>= g = none)
  cases hxs : x s with
  | error e =>
      rw [hxs] at hx
      simp only at hx
      rw [hx]
      rfl
  | ok p =>
      obtain ⟨a, s'⟩ := p
      rw [hxs] at hx
      obtain ⟨rfl, ha⟩ := hx
      exact hf a s' ha

theorem mono {x : StateT σ (Except ε) α} {Q : α → σ → Prop} (hx : Follows x s y R)
    (h : ∀ a s', R a s' → Q a s') : Follows x s y Q := by
  unfold Follows at hx ⊢
  cases hxs : x s with
  | error e =>
      rw [hxs] at hx
      exact hx
  | ok p =>
      rw [hxs] at hx
      exact ⟨hx.1, h _ _ hx.2⟩

/-- What the partial function says of a run that returned. -/
theorem of_ok {x : StateT σ (Except ε) α} {s' : σ} (hx : Follows x s y R)
    (h : x s = .ok (a, s')) : y = some a ∧ R a s' := by
  unfold Follows at hx
  rw [h] at hx
  exact hx

/-- Where the partial function is defined the run returns. -/
theorem of_some {x : StateT σ (Except ε) α} (hx : Follows x s (some a) R) :
    ∃ s', x s = .ok (a, s') ∧ R a s' := by
  unfold Follows at hx
  cases hxs : x s with
  | error e =>
      rw [hxs] at hx
      simp at hx
  | ok p =>
      obtain ⟨b, s'⟩ := p
      rw [hxs] at hx
      obtain rfl := Option.some.inj hx.1
      exact ⟨s', rfl, hx.2⟩

/-- A run whose results are known follows a partial function defined on just them. -/
theorem intro {x : StateT σ (Except ε) α}
    (hok : ∀ a s', x s = .ok (a, s') → y = some a ∧ R a s')
    (hsome : ∀ a, y = some a → ∃ s', x s = .ok (a, s')) : Follows x s y R := by
  unfold Follows
  cases hxs : x s with
  | error e =>
      simp only
      cases hy : y with
      | none => rfl
      | some a =>
          obtain ⟨s', h⟩ := hsome a hy
          rw [hxs] at h
          simp at h
  | ok p => exact hok p.1 p.2 hxs

end Follows

end StateExcept

/-! ### Runs of `Except` alone

The same without a state.
-/

namespace ExceptRun

variable {ε α β : Type}

theorem bind_eq_ok {x : Except ε α} {f : α → Except ε β} {b : β} :
    (x >>= f) = .ok b ↔ ∃ a, x = .ok a ∧ f a = .ok b := by
  cases x <;> simp [bind, Except.bind]

theorem pure_eq_ok {a b : α} : (pure a : Except ε α) = .ok b ↔ b = a := by
  simp [pure, Except.pure, eq_comm]

theorem bind_eq_error {x : Except ε α} {f : α → Except ε β} {e : ε} :
    (x >>= f) = .error e ↔ x = .error e ∨ ∃ a, x = .ok a ∧ f a = .error e := by
  cases x <;> simp [bind, Except.bind]

theorem pure_ne_error {a : α} {e : ε} : (pure a : Except ε α) = .error e ↔ False := by
  simp [pure, Except.pure]

end ExceptRun
