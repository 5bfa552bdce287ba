/-
Intervals that are laid one behind the other.

What is handed out from one end only and taken back to a former end is a stack of
intervals: each begins where the ones before it have ended, and all end below the top.
From the order alone any two of them are apart.

The ends may be numbers or pairs of numbers, since nothing is asked of their order but
that it is one, and there may be room between two intervals.  Going back is to any point
that the first intervals are below, and leaves these.
-/
import Mathlib.Order.Basic
import Mathlib.Data.List.Basic

variable {α : Type} [Preorder α] {l : List (α × α)} {p : α × α} {top top' : α} {i j n : Nat}

/-- The intervals lie in order, none reaching into a later one, and all below the top. -/
structure Stacked (l : List (α × α)) (top : α) : Prop where
  ordered : l.Pairwise fun p q => p.2 ≤ q.1
  valid : ∀ p ∈ l, p.1 ≤ p.2
  below : ∀ p ∈ l, p.2 ≤ top

namespace Stacked

theorem nil : Stacked [] top := ⟨List.Pairwise.nil, by simp, by simp⟩

/-- The top goes up. -/
theorem mono (h : Stacked l top) (hle : top ≤ top') : Stacked l top' :=
  ⟨h.ordered, h.valid, fun p hp => (h.below p hp).trans hle⟩

/-- An interval from the top up. -/
theorem push (h : Stacked l top) (hfrom : top ≤ p.1) (hp : p.1 ≤ p.2) : Stacked (l ++ [p]) p.2 := by
  refine ⟨?_, fun q hq => ?_, fun q hq => ?_⟩
  · rw [List.pairwise_append]
    refine ⟨h.ordered, List.pairwise_singleton _ _, fun q hq r hr => ?_⟩
    rw [List.mem_singleton.mp hr]
    exact (h.below q hq).trans hfrom
  · rcases List.mem_append.mp hq with hq | hq
    · exact h.valid q hq
    · rw [List.mem_singleton.mp hq]
      exact hp
  · rcases List.mem_append.mp hq with hq | hq
    · exact ((h.below q hq).trans hfrom).trans hp
    · rw [List.mem_singleton.mp hq]

/-- Back to a top that the first intervals are below. -/
theorem take (h : Stacked l top) (hbelow : ∀ p ∈ l.take n, p.2 ≤ top') : Stacked (l.take n) top' :=
  ⟨h.ordered.sublist (List.take_sublist n l), fun p hp => h.valid p (List.mem_of_mem_take hp),
    hbelow⟩

/-- An interval ends before a later one begins. -/
theorem apart {q : α × α} (h : Stacked l top) (hij : i < j) (hi : l[i]? = some p)
    (hj : l[j]? = some q) : p.2 ≤ q.1 := by
  obtain ⟨hi', rfl⟩ := List.getElem?_eq_some_iff.mp hi
  obtain ⟨hj', rfl⟩ := List.getElem?_eq_some_iff.mp hj
  exact List.pairwise_iff_getElem.mp h.ordered i j hi' hj' hij

/-- Back to where an interval ends, all intervals up to it are left. -/
theorem take_succ (h : Stacked l top) (hi : l[i]? = some p) : Stacked (l.take (i + 1)) p.2 := by
  refine h.take fun q hq => ?_
  obtain ⟨k, hk⟩ := List.mem_iff_getElem?.mp hq
  rw [List.getElem?_take] at hk
  split at hk
  · rename_i hlt
    rcases Nat.lt_or_ge k i with hki | hki
    · exact (h.apart hki hk hi).trans (h.valid p (List.mem_of_getElem? hi))
    · obtain rfl : k = i := by omega
      obtain rfl := Option.some.inj (hk.symm.trans hi)
      exact le_refl _
  · cases hk

end Stacked
