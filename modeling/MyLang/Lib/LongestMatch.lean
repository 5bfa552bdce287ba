/-
Longest match.

`Longest Q w rest` says that `w` is the longest beginning of `w ++ rest` that is one of
the words `Q`.  Where a text is cut that way is determined by the text.  A class of words
whose characters after the first are all of one kind is matched by taking as many of these
as there are; a finite class by looking ahead as far as its longest word.

Nothing is asked of the words, which may be beginnings of each other, and a text may have
no word at its beginning at all.  `Longest.of_not` is how a match is shown to be the
longest: what is longer and begins the text is no word.
-/
import Mathlib.Data.List.TakeWhile
import Mathlib.Data.List.Infix

namespace LongestMatch

variable {α : Type} {Q : List α → Prop} {w w' rest rest' : List α} {p : α → Bool} {c : α}

/-- The words of `Q` that `w ++ rest` starts with are no longer than `w`, which is one. -/
structure Longest (Q : List α → Prop) (w rest : List α) : Prop where
  word : Q w
  longest : ∀ w', Q w' → w' <+: w ++ rest → w'.length ≤ w.length

/-- A text is cut in one way. -/
theorem Longest.unique (h : Longest Q w rest) (h' : Longest Q w' rest')
    (heq : w ++ rest = w' ++ rest') : w = w' ∧ rest = rest' := by
  have hle := h.longest w' h'.word (heq ▸ List.prefix_append w' rest')
  have hle' := h'.longest w h.word (heq ▸ List.prefix_append w rest)
  exact List.append_inj heq (Nat.le_antisymm hle' hle)

/-- Nothing longer than `w` is a word that starts the text. -/
theorem Longest.of_not (hw : Q w) (h : ∀ v, v ≠ [] → v <+: rest → ¬ Q (w ++ v)) :
    Longest Q w rest := by
  refine ⟨hw, fun w' hw' hpre => ?_⟩
  by_contra hlen
  obtain ⟨v, rfl⟩ := List.prefix_of_prefix_length_le (List.prefix_append w rest) hpre (by omega)
  have hv : v <+: rest := (List.prefix_append_right_inj w).mp hpre
  refine h v ?_ hv hw'
  rintro rfl
  simp at hlen

/-- What `takeWhile` takes is followed by nothing it could take as well. -/
theorem prefix_takeWhile {l v : List α} (hv : v <+: l) (hp : ∀ x ∈ v, p x = true) :
    v <+: l.takeWhile p := by
  obtain ⟨t, rfl⟩ := hv
  rw [List.takeWhile_append_of_pos hp]
  exact List.prefix_append v _

/-- Words whose characters after the first are those with `p`. -/
theorem longest_takeWhile (hw : Q (c :: rest.takeWhile p))
    (h : ∀ v, Q (c :: v) → ∀ x ∈ v, p x = true) :
    Longest Q (c :: rest.takeWhile p) (rest.dropWhile p) := by
  refine ⟨hw, fun w' hw' hpre => ?_⟩
  rw [List.cons_append, List.takeWhile_append_dropWhile] at hpre
  cases w' with
  | nil => simp
  | cons d v =>
      obtain ⟨rfl, hv⟩ := List.cons_prefix_cons.mp hpre
      have := (prefix_takeWhile hv (h v hw')).length_le
      simpa using this

end LongestMatch
