/-
Bounded recursion, and how far a result depends on it.

A function whose recursion or loop is bounded by a number ends with the error `bot` where
the bound runs out.  `Approx bot p q` says that this is the only way in which `p` differs
from `q`.  Whatever is composed from approximations approximates what is composed from the
originals, so a bound that is not reached may as well be any larger one.

`cut` bounds a recursion in another way: it refuses all but the states that are smaller.
If the error does not come up then, the recursion was used on smaller states only.

So two questions about a recursion with a bound are answered by one relation.  That the
bound does not matter is an approximation whose result is not `bot`, by another one with a
larger bound.  That each call gets a smaller state is an approximation by the function
itself of what is left when all other calls are cut off.
-/
import Mathlib.Tactic.Common

namespace StateExcept

section Approx

variable {σ ε α β ι : Type} {bot : ε} {p q r : StateT σ (Except ε) α}
  {f g : α → StateT σ (Except ε) β}
  {s : σ}

/-- `p` does as `q` does, or ends with `bot`. -/
def Approx (bot : ε) (p q : StateT σ (Except ε) α) : Prop := ∀ s, p s = .error bot ∨ p s = q s

namespace Approx

theorem refl (p : StateT σ (Except ε) α) : Approx bot p p := fun _ => Or.inr rfl

theorem trans (h : Approx bot p q) (h' : Approx bot q r) : Approx bot p r := by
  intro s
  rcases h s with hs | hs
  · exact Or.inl hs
  · rw [hs]
    exact h' s

/-- A bound that has run out. -/
theorem throw_bot : Approx bot (throw bot) q := fun _ => Or.inl rfl

theorem bind (hp : Approx bot p q) (hf : ∀ a, Approx bot (f a) (g a)) :
    Approx bot (p >>= f) (q >>= g) := by
  intro s
  change (p s >>= fun x => f x.1 x.2) = _ ∨ (p s >>= fun x => f x.1 x.2)
    = (q s >>= fun x => g x.1 x.2)
  rcases hp s with hs | hs
  · rw [hs]
    exact Or.inl rfl
  · rw [hs]
    cases q s with
    | error e => exact Or.inr rfl
    | ok x => exact hf x.1 x.2

/-- One computation first, and then the approximations. -/
theorem bind_right (hf : ∀ a, Approx bot (f a) (g a)) : Approx bot (p >>= f) (p >>= g) :=
  (refl p).bind hf

theorem ite {c : Prop} [Decidable c] {p' q' : StateT σ (Except ε) α} (h : Approx bot p q)
    (h' : Approx bot p' q') : Approx bot (if c then p else p') (if c then q else q') := by
  by_cases hc : c
  · rw [if_pos hc, if_pos hc]
    exact h
  · rw [if_neg hc, if_neg hc]
    exact h'

/-- Where the bound does not show, nothing does. -/
theorem eq_of_ne (h : Approx bot p q) (hs : p s ≠ .error bot) : p s = q s :=
  (h s).resolve_left hs

end Approx

/-! ### Loops

A loop is a turn that is handed the loop with a smaller bound.
-/

/-- A loop that is bounded by the number of its turns, each of which is a `turn`. -/
structure IsLoop (bot : ε) (turn : (ι → StateT σ (Except ε) α) → ι → StateT σ (Except ε) α)
    (loop : Nat → ι → StateT σ (Except ε) α) : Prop where
  zero : ∀ i, loop 0 i = throw bot
  succ : ∀ n i, loop (n + 1) i = turn (loop n) i

/-- A turn does as well with an approximation of the next ones. -/
def MonoTurn (bot : ε) (turn : (ι → StateT σ (Except ε) α) → ι → StateT σ (Except ε) α) : Prop :=
  ∀ next next', (∀ i, Approx bot (next i) (next' i)) → ∀ i, Approx bot (turn next i) (turn next' i)

namespace IsLoop

variable {turn : (ι → StateT σ (Except ε) α) → ι → StateT σ (Except ε) α}
  {loop : Nat → ι → StateT σ (Except ε) α}

/-- A loop with a smaller bound approximates the one with a larger. -/
theorem approx (h : IsLoop bot turn loop) (hmono : MonoTurn bot turn) {n n' : Nat} (hn : n ≤ n')
    (i : ι) : Approx bot (loop n i) (loop n' i) := by
  induction n generalizing n' i with
  | zero =>
      rw [h.zero]
      exact Approx.throw_bot
  | succ n ih =>
      obtain ⟨k, rfl⟩ : ∃ k, n' = k + 1 := ⟨n' - 1, by omega⟩
      rw [h.succ, h.succ]
      exact hmono _ _ (fun i => ih (by omega) i) i

/--
What holds of a turn if it holds of the next ones on smaller states holds of the whole loop, if its
bound is above the size of the state.
-/
theorem induct {R : StateT σ (Except ε) α → σ → Prop} (size : σ → Nat) (h : IsLoop bot turn loop)
    {N : Nat} (hturn : ∀ next i s, size s < N → (∀ i s', size s' < size s → R (next i) s') →
      R (turn next i) s) {n : Nat} {i : ι} {s : σ} (hn : size s < n)
    (hN : size s < N) : R (loop n i) s := by
  induction n generalizing i s with
  | zero => omega
  | succ n ih =>
      rw [h.succ]
      exact hturn _ i s hN fun i s' hs => ih (by omega) (by omega)

end IsLoop

/-! ### Smaller states only

The calls that are refused end with `bot` as well, so that `Approx` is about them, too.
-/

/-- A computation that is refused on all but some states. -/
def cut (small : σ → Prop) [DecidablePred small] (bot : ε) (p : StateT σ (Except ε) α) :
    StateT σ (Except ε) α :=
  fun s => if small s then p s else .error bot

variable {small : σ → Prop} [DecidablePred small]

theorem cut_of (h : small s) : cut small bot p s = p s := if_pos h

theorem cut_approx : Approx bot (cut small bot p) p := by
  intro s
  by_cases h : small s
  · exact Or.inr (cut_of h)
  · exact Or.inl (if_neg h)

/-- A turn that ends although the next ones are refused is one of the loop. -/
theorem IsLoop.cut_eq {turn : (ι → StateT σ (Except ε) α) → ι → StateT σ (Except ε) α}
    {loop : Nat → ι → StateT σ (Except ε) α} (h : IsLoop bot turn loop) (hmono : MonoTurn bot turn)
    {n : Nat} {i : ι} (hturn : turn (fun i => cut small bot (loop n i)) i s ≠ .error bot)
    (hloop : loop n i s ≠ .error bot) : turn (fun i => cut small bot (loop n i)) i s
      = loop n i s := by
  rw [((h.approx hmono (Nat.le_succ n) i).eq_of_ne hloop), h.succ]
  exact (hmono _ _ (fun _ => cut_approx) i).eq_of_ne hturn

end Approx

end StateExcept
