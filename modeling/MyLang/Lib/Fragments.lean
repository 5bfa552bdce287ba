/-
Values in bytes.

A value that takes `n` bytes is stored as its fragments, each of which knows the value and
which byte of it it is.  Read back it is there if all of its fragments are, side by side;
any other byte among them leaves nothing to be read.

So nothing has to be known of how a pointer or a number looks in memory, and a byte of the
one is never taken for a byte of the other.  Values of one size that lie at multiples of
it are the same or beside each other, which is how the cells of an array are kept apart.
-/
import Mathlib.Tactic.Common

namespace Fragments

variable {δ : Type}

/-- One byte of a value. -/
structure Fragment (δ : Type) where
  datum : δ
  index : Nat
deriving DecidableEq, Repr

/-- From the byte `i` on there are the `n` fragments of a value. -/
def Stored (n : Nat) (bytes : Nat → Option (Fragment δ)) (i : Nat) (d : δ) : Prop :=
  ∀ j < n, bytes (i + j) = some ⟨d, j⟩

/-- The first `n` fragments of a value in place of what was there. -/
def put (n : Nat) (bytes : Nat → Option (Fragment δ)) (i : Nat) (d : δ) :
    Nat → Option (Fragment δ) :=
  fun k => if i ≤ k ∧ k < i + n then some ⟨d, k - i⟩ else bytes k

variable {n i i' j : Nat} {bytes : Nat → Option (Fragment δ)} {d d' : δ}

theorem put_zero : put 0 bytes i d = bytes := by
  funext k
  rw [put, if_neg (by omega)]

/-- One fragment after the other. -/
theorem put_succ : put (n + 1) bytes i d = Function.update (put n bytes i d) (i + n)
    (some ⟨d, n⟩) := by
  funext k
  by_cases hk : k = i + n
  · subst hk
    rw [Function.update_self, put, if_pos (by omega), Nat.add_sub_cancel_left]
  · rw [Function.update_of_ne hk, put, put]
    by_cases hin : i ≤ k ∧ k < i + n
    · rw [if_pos hin, if_pos (by omega)]
    · rw [if_neg hin, if_neg (by omega)]

theorem stored_put : Stored n (put n bytes i d) i d := by
  intro j hj
  rw [put, if_pos (by omega), Nat.add_sub_cancel_left]

/-- A value beside the one that is put stays. -/
theorem Stored.put (h : Stored n bytes i d) (hne : i + n ≤ i' ∨ i' + n ≤ i) :
    Stored n (Fragments.put n bytes i' d') i d := by
  intro j hj
  rw [Fragments.put, if_neg (by omega)]
  exact h j hj

/-- Values lie at multiples of their size: they are the same or beside each other. -/
theorem Stored.put_cell {k k' : Nat} (h : Stored n bytes (n * k) d) (hne : k ≠ k') :
    Stored n (Fragments.put n bytes (n * k') d') (n * k) d := by
  refine h.put ?_
  rcases Nat.lt_or_gt_of_ne hne with hlt | hlt
  · exact Or.inl (Nat.mul_le_mul_left n hlt)
  · exact Or.inr (Nat.mul_le_mul_left n hlt)

end Fragments
