/-
Names made from counters.

A `Scheme` makes a name from a kind, a number and an ending.  A program that makes names
keeps one counter per kind, and every number it takes gives one name for each ending of
the kind.  `Drawn S lo hi names` says of the names made while the counters went from `lo`
to `hi` that they are all of these, each once; what is made first and what is made after
it then never meet.

The counters are a function on kinds, so that several of them are moved at once and
compared kind by kind.  Of a scheme only one thing is asked, that different numbers, kinds
and endings give different names.  The names may come in any order, since only the set of
them matters for whether one is made twice.
-/
import Mathlib.Data.List.Nodup
import Mathlib.Order.Nat

namespace FreshNames

variable {κ σ ν : Type}

/-- A way to make names from a kind, a number and an ending. -/
structure Scheme (κ σ ν : Type) where
  /-- The endings of a kind. -/
  ends : κ → List σ
  name : κ → Nat → σ → ν
  ends_nodup : ∀ k, (ends k).Nodup
  /-- A name can be read back. -/
  name_inj : ∀ {k k' i i' e e'}, e ∈ ends k → e' ∈ ends k' → name k i e = name k' i' e' →
    k = k' ∧ i = i' ∧ e = e'

/-- The names made while the counters went from `lo` to `hi`, each once. -/
structure Drawn (S : Scheme κ σ ν) (lo hi : κ → Nat) (names : List ν) : Prop where
  le : lo ≤ hi
  nodup : names.Nodup
  mem : ∀ x, x ∈ names ↔ ∃ k i e, lo k ≤ i ∧ i < hi k ∧ e ∈ S.ends k ∧ x = S.name k i e

namespace Drawn

variable {S : Scheme κ σ ν} {lo mid hi : κ → Nat} {names names' : List ν}

theorem nil (lo : κ → Nat) : Drawn S lo lo [] := by
  refine ⟨le_refl lo, List.nodup_nil, fun x => ?_⟩
  simp only [List.not_mem_nil, false_iff]
  rintro ⟨k, i, e, hlo, hhi, -⟩
  omega

/-- Names made one after the other never meet. -/
theorem append (h : Drawn S lo mid names) (h' : Drawn S mid hi names') :
    Drawn S lo hi (names ++ names') := by
  refine ⟨le_trans h.le h'.le, List.nodup_append'.mpr ⟨h.nodup, h'.nodup, ?_⟩, fun x => ?_⟩
  · intro x hx hx'
    obtain ⟨k, i, e, -, hi, he, rfl⟩ := (h.mem x).mp hx
    obtain ⟨k', i', e', hi', -, he', heq⟩ := (h'.mem _).mp hx'
    obtain ⟨rfl, rfl, -⟩ := S.name_inj he he' heq
    omega
  · rw [List.mem_append, h.mem, h'.mem]
    constructor
    · rintro (⟨k, i, e, hlo, hhi, he, rfl⟩ | ⟨k, i, e, hlo, hhi, he, rfl⟩)
      · exact ⟨k, i, e, hlo, lt_of_lt_of_le hhi (h'.le k), he, rfl⟩
      · exact ⟨k, i, e, le_trans (h.le k) hlo, hhi, he, rfl⟩
    · rintro ⟨k, i, e, hlo, hhi, he, rfl⟩
      by_cases hmid : i < mid k
      · exact Or.inl ⟨k, i, e, hlo, hmid, he, rfl⟩
      · exact Or.inr ⟨k, i, e, not_lt.mp hmid, hhi, he, rfl⟩

/-- The order of the names does not matter. -/
theorem perm (h : Drawn S lo hi names) (hp : names'.Perm names) : Drawn S lo hi names' :=
  ⟨h.le, hp.nodup_iff.mpr h.nodup, fun x => hp.mem_iff.trans (h.mem x)⟩

/-- Taking one number gives one name for each ending of its kind. -/
theorem take [DecidableEq κ] (S : Scheme κ σ ν) (lo : κ → Nat) (k : κ) :
    Drawn S lo (Function.update lo k (lo k + 1)) ((S.ends k).map (S.name k (lo k))) := by
  refine ⟨fun k' => ?_, ?_, fun x => ?_⟩
  · by_cases hk : k' = k
    · subst hk
      simp
    · simp [hk]
  · exact (S.ends_nodup k).map_on fun e he e' he' heq => (S.name_inj he he' heq).2.2
  · rw [List.mem_map]
    constructor
    · rintro ⟨e, he, rfl⟩
      exact ⟨k, lo k, e, le_refl _, by simp, he, rfl⟩
    · rintro ⟨k', i, e, hlo, hhi, he, rfl⟩
      by_cases hk : k' = k
      · subst hk
        rw [Function.update_self] at hhi
        obtain rfl : i = lo k' := by omega
        exact ⟨e, he, rfl⟩
      · rw [Function.update_of_ne hk] at hhi
        omega

end Drawn

end FreshNames
