/-
Runs told by their events.

What a checker does can be foreseen as a list of events, some of which stop it.  A run
meets the list if it stops for the first event that stops it, and returns if there is
none.  Lists are put together as runs are, one behind the other.

The list goes on behind an event that stops the run, with events that are never met.  So
it can be computed from an input by going through all of it, without asking at each step
whether the run has got so far; and what is said of all events of the list, that each is
harmless, is known of a run that returned (`of_ok`).
-/
import MyLang.Lib.StateExcept

namespace StateExcept

variable {σ ε α β ι : Type} {stop : ι → Option ε} {x : StateT σ (Except ε) α} {s : σ}
  {l l' : List ι}
  {R : α → σ → Prop}

/-- From `s` on, `x` stops for the first of the events that stop, or returns what `R` allows. -/
def Meets (stop : ι → Option ε) (x : StateT σ (Except ε) α) (s : σ) (l : List ι)
    (R : α → σ → Prop) : Prop :=
  match l.findSome? stop with
  | some e => x s = .error e
  | none => ∃ a s', x s = .ok (a, s') ∧ R a s'

namespace Meets

theorem pure {a : α} (h : R a s) : Meets stop (Pure.pure a : StateT σ (Except ε) α) s [] R :=
  ⟨a, s, rfl, h⟩

/-- The events of one run and then those of another. -/
theorem bind {R' : β → σ → Prop} {f : α → StateT σ (Except ε) β} (hx : Meets stop x s l R)
    (hf : ∀ a s', R a s' → Meets stop (f a) s' l' R') : Meets stop (x >>= f) s (l ++ l') R' := by
  unfold Meets at hx ⊢
  rw [List.findSome?_append]
  cases hl : l.findSome? stop with
  | some e =>
      rw [hl] at hx
      exact bind_eq_error.mpr (Or.inl hx)
  | none =>
      rw [hl] at hx
      obtain ⟨a, s1, ha, hR⟩ := hx
      have h := hf a s1 hR
      unfold Meets at h
      rw [Option.none_or]
      cases hl' : l'.findSome? stop with
      | some e =>
          rw [hl'] at h
          exact bind_eq_error.mpr (Or.inr ⟨a, s1, ha, h⟩)
      | none =>
          rw [hl'] at h
          obtain ⟨b, s2, hb, hR'⟩ := h
          exact ⟨b, s2, bind_eq_ok.mpr ⟨a, s1, ha, hb⟩, hR'⟩

theorem map {R' : β → σ → Prop} {f : α → β} (hx : Meets stop x s l R)
    (h : ∀ a s', R a s' → R' (f a) s') : Meets stop (do return f (← x)) s l R' := by
  rw [← List.append_nil l]
  exact hx.bind fun a s' hR => Meets.pure (h a s' hR)

/-- Only what a run does counts. -/
theorem congr {y : StateT σ (Except ε) α} {s1 : σ} (h : x s = y s1) (hy : Meets stop y s1 l R) :
    Meets stop x s l R := by
  unfold Meets at hy ⊢
  rw [h]
  exact hy

theorem mono {R' : α → σ → Prop} (hx : Meets stop x s l R) (h : ∀ a s', R a s' → R' a s') :
    Meets stop x s l R' := by
  unfold Meets at hx ⊢
  cases hl : l.findSome? stop with
  | some e =>
      rw [hl] at hx
      exact hx
  | none =>
      rw [hl] at hx
      obtain ⟨a, s', ha, hR⟩ := hx
      exact ⟨a, s', ha, h a s' hR⟩

/-- An event that stops the run there and then. -/
theorem stopped {e : ε} {i : ι} (hi : stop i = some e) (h : x s = .error e) :
    Meets stop x s (i :: l) R := by
  unfold Meets
  rw [List.findSome?_cons, hi]
  exact h

/-- An event that does not stop the run. -/
theorem passed {i : ι} (hi : stop i = none) (h : Meets stop x s l R) :
    Meets stop x s (i :: l) R := by
  unfold Meets at h ⊢
  rw [List.findSome?_cons, hi]
  exact h

/-- A run that returned met no event that stops. -/
theorem of_ok {a : α} {s' : σ} (h : Meets stop x s l R) (hok : x s = .ok (a, s')) :
    l.findSome? stop = none ∧ R a s' := by
  unfold Meets at h
  cases hl : l.findSome? stop with
  | some e =>
      rw [hl] at h
      simp [h] at hok
  | none =>
      rw [hl] at h
      obtain ⟨b, s1, hb, hR⟩ := h
      obtain ⟨rfl, rfl⟩ := Prod.mk.inj (Except.ok.inj (hb.symm.trans hok))
      exact ⟨rfl, hR⟩

/-- A run stops for the first event that stops it, and for nothing else. -/
theorem error_iff {e : ε} (h : Meets stop x s l R) : x s = .error e ↔
    l.findSome? stop = some e := by
  unfold Meets at h
  cases hl : l.findSome? stop with
  | some e' =>
      rw [hl] at h
      rw [h, Except.error.injEq, Option.some.injEq]
  | none =>
      rw [hl] at h
      obtain ⟨a, s1, ha, -⟩ := h
      simp [ha]

end Meets

end StateExcept
