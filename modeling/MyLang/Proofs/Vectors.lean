/-
Vectors and strings stand for lists.

`CVector.Holds` is what every operation keeps: the cells in use are the elements of the
list, and the array has as many cells as `size` says.  So when `size` has been doubled,
half of it is the length of the old array, and what is copied is all of it.  A string
holds its characters if its vector holds pointers to them; new boxes come behind the old
ones, so it goes on holding them.

The growth is the one thing in `vector_push` that could go wrong.  `arena_realloc` is
given the old size in bytes and copies as many into a new array, and `grow` shows that
this is what is in use, whatever was in the memory the new array is made of.

The functions on strings are loops over an index.  `as_str` and `string_clone` count in a
`size_t`, which no string runs over; `string` counts in an `int`, and reads at a negative
index once a string is longer than `INT_MAX`.  That is why the theorem for sequences of
operations is an equivalence: it says up to which length `string` makes a string at all.
-/
import MyLang.Lib.StateExcept
import MyLang.Vectors

namespace MyLang

variable {α : Type} {vector : CVector α} {l : List α} {ptr : α}

/-! ### Vectors

An operation on a vector that holds a list does on the list what its name says.
-/

/-- The cells in use are the elements of `l`, and the array is as long as `size` says. -/
structure CVector.Holds (vector : CVector α) (l : List α) : Prop where
  length : vector.length = l.length
  room : vector.length ≤ vector.size
  pos : 0 < vector.size
  array : vector.array.length = vector.size
  cells : vector.array.take vector.length = l.map some

namespace CVector.Holds

theorem new : (vectorNew : CVector α).Holds [] :=
  ⟨rfl, Nat.zero_le _, Nat.succ_pos _, by rw [vectorNew, allocArray, List.length_replicate], rfl⟩

theorem read (h : vector.Holds l) {i : Nat} (hi : i < l.length) :
    readCell vector.array i = .ok l[i] := by
  have hget : vector.array[i]? = some (some l[i]) := by
    have htake := congrArg (·[i]?) h.cells
    have hlt : i < vector.length := h.length ▸ hi
    simpa [List.getElem?_take, hlt, hi] using htake
  rw [readCell, hget]

theorem get (h : vector.Holds l) {i : Nat} (hi : i < l.length) : vectorGet vector i = .ok l[i] := by
  have hlt : ¬ i ≥ vector.length := by
    rw [h.length]
    omega
  rw [vectorGet, if_neg hlt]
  exact h.read hi

/-- The stop of `vector_get`. -/
theorem get_stop (h : vector.Holds l) {i : Nat} (hi : l.length ≤ i) :
    vectorGet vector i = .error (.outOfRange i) := by
  have hge : i ≥ vector.length := h.length ▸ hi
  rw [vectorGet, if_pos hge]
  rfl

theorem set_stop (h : vector.Holds l) {i : Nat} (hi : l.length ≤ i) :
    vectorSet vector i ptr = .error (.outOfRange i) := by
  have hge : i ≥ vector.length := h.length ▸ hi
  rw [vectorSet, if_pos hge]
  rfl

/-- `vector_set` puts a cell in use. -/
theorem set (h : vector.Holds l) {i : Nat} (hi : i < l.length) :
    ∃ vector', vectorSet vector i ptr = .ok vector' ∧ vector'.Holds (l.set i ptr) := by
  have hlt : ¬ i ≥ vector.length := by
    rw [h.length]
    omega
  have hcell : i < vector.array.length := by
    have hroom := h.room
    rw [h.array]
    omega
  refine ⟨{ vector with array := vector.array.set i (some ptr) }, ?_, ?_, h.room, h.pos, ?_, ?_⟩
  · rw [vectorSet, if_neg hlt, writeCell, if_pos hcell]
    rfl
  · rw [List.length_set]
    exact h.length
  · rw [List.length_set]
    exact h.array
  · rw [List.take_set, h.cells, List.map_set]

/-- The vector after the growth, when there is any. -/
def grown (vector : CVector α) : CVector α :=
  if vector.length ≥ vector.size then
    { vector with array := vector.array ++ allocArray vector.size, size := vector.size * 2 }
  else vector

/-- Growing copies all cells that are in use. -/
theorem grow (h : vector.Holds l) : (grown vector).Holds l ∧
    (grown vector).length < (grown vector).size := by
  have hroom := h.room
  have hpos := h.pos
  unfold grown
  by_cases hfull : vector.length ≥ vector.size
  · rw [if_pos hfull]
    refine ⟨⟨h.length, ?_, ?_, ?_, ?_⟩, ?_⟩
    · show vector.length ≤ vector.size * 2
      omega
    · show 0 < vector.size * 2
      omega
    · show (vector.array ++ allocArray vector.size).length = vector.size * 2
      rw [List.length_append, h.array, allocArray, List.length_replicate]
      omega
    · show (vector.array ++ allocArray vector.size).take vector.length = l.map some
      rw [List.take_append_of_le_length (h.array ▸ hroom), h.cells]
    · show vector.length < vector.size * 2
      omega
  · rw [if_neg hfull]
    exact ⟨h, by omega⟩

theorem arenaRealloc_double {array : List (Option α)} {n : Nat} (hpos : 0 < n)
    (harray : array.length = n) :
    arenaRealloc array (n * 2 / 2) (n * 2) = .ok (array ++ allocArray n) := by
  have hhalf : n * 2 / 2 = n := by omega
  have hrest : n * 2 - n = n := by omega
  rw [hhalf, arenaRealloc, if_neg (by omega), if_neg (by omega), hrest,
    List.take_of_length_le harray.le]

/-- `vector_push` grows if it has to, and then appends. -/
theorem vectorPush_eq (h : vector.Holds l) :
    vectorPush vector ptr = .ok { grown vector with
      array := (grown vector).array.set vector.length (some ptr), length :=
  vector.length + 1 } := by
  have hcell : vector.length < (grown vector).array.length := by
    obtain ⟨hgrown, hlt⟩ := h.grow
    rw [hgrown.array, h.length, ← hgrown.length]
    exact hlt
  unfold vectorPush
  by_cases hfull : vector.length ≥ vector.size
  · simp only [grown, if_pos hfull] at hcell ⊢
    rw [arenaRealloc_double h.pos h.array]
    show (writeCell (vector.array ++ allocArray vector.size) vector.length ptr >>= _) = _
    rw [writeCell, if_pos hcell]
    rfl
  · simp only [grown, if_neg hfull] at hcell ⊢
    show (writeCell vector.array vector.length ptr >>= _) = _
    rw [writeCell, if_pos hcell]
    rfl

/-- **`vector_push` appends, also when the array grows.** -/
theorem push (h : vector.Holds l) (ptr : α) :
    ∃ vector', vectorPush vector ptr = .ok vector' ∧ vector'.Holds (l ++ [ptr]) := by
  obtain ⟨hgrown, hlt⟩ := h.grow
  have hlen : (grown vector).length = vector.length := by rw [hgrown.length, h.length]
  rw [hlen] at hlt
  refine ⟨_, h.vectorPush_eq, ?_, hlt, hgrown.pos, ?_, ?_⟩
  · show vector.length + 1 = (l ++ [ptr]).length
    rw [List.length_append, h.length]
    rfl
  · show ((grown vector).array.set vector.length (some ptr)).length = (grown vector).size
    rw [List.length_set]
    exact hgrown.array
  · show ((grown vector).array.set vector.length (some ptr)).take (vector.length + 1)
      = (l ++ [ptr]).map some
    have hcells := hgrown.cells
    rw [hlen] at hcells
    have hcell : vector.length < ((grown vector).array.set vector.length (some ptr)).length := by
      rw [List.length_set, hgrown.array]
      exact hlt
    rw [List.take_succ_eq_append_getElem hcell, List.getElem_set_self, List.take_set_of_le le_rfl,
      hcells, List.map_append]
    rfl

theorem lists (h : vector.Holds l) : vector.Lists l where
  length := h.length
  room := h.room
  get _ hi := h.get hi
  stop _ hi := ⟨h.get_stop hi, fun _ => h.set_stop hi⟩

end CVector.Holds

/-! ### Sequences of operations

By induction on the sequence, since every operation keeps `Holds`.
-/

namespace VectorOp

theorem run_holds (h : vector.Holds l) (op : VectorOp α) :
    match apply l op with
    | .ok l' => ∃ vector', run vector op = .ok vector' ∧ vector'.Holds l'
    | .error e => run vector op = .error e := by
  cases op with
  | push ptr => exact h.push ptr
  | set index ptr =>
      simp only [apply, run]
      by_cases hi : index < l.length
      · rw [if_pos hi]
        exact h.set hi
      · rw [if_neg hi]
        exact h.set_stop (Nat.le_of_not_lt hi)

/-- A sequence of operations does on a vector what it does on the list. -/
theorem foldlM_holds (ops : List (VectorOp α)) (h : vector.Holds l) :
    match ops.foldlM apply l with
    | .ok l' => ∃ vector', ops.foldlM run vector = .ok vector' ∧ vector'.Holds l'
    | .error e => ops.foldlM run vector = .error e := by
  induction ops generalizing vector l with
  | nil => exact ⟨vector, rfl, h⟩
  | cons op ops ih =>
      rw [List.foldlM_cons, List.foldlM_cons]
      have hop := run_holds h op
      cases happ : apply l op with
      | ok l1 =>
          rw [happ] at hop
          obtain ⟨vector1, hrun, h1⟩ := hop
          rw [hrun]
          exact ih h1
      | error e =>
          rw [happ] at hop
          rw [hop]
          rfl

theorem refines (ops : List (VectorOp α)) : Refines ops := by
  have hops := foldlM_holds ops CVector.Holds.new
  unfold Refines applyAll runAll
  cases happ : ops.foldlM apply [] with
  | ok l =>
      rw [happ] at hops
      obtain ⟨vector, hrun, hvector⟩ := hops
      exact ⟨vector, hrun, hvector.lists⟩
  | error e =>
      rw [happ] at hops
      exact hops

end VectorOp

/-! ### Strings

A string is a vector of pointers, each to a box of its own with one character in it.
-/

section Strings

variable {str : CString} {boxes : List Char} {cs : List Char}

/-- The vector leads to the boxes that hold `cs`, and the length is theirs. -/
structure CString.Holds (str : CString) (boxes : List Char) (cs : List Char) : Prop where
  length : str.length = cs.length
  vector : ∃ ptrs, str.vector.Holds ptrs ∧ ptrs.map (boxes[·]?) = cs.map some

theorem map_range_getElem? (cs : List Char) :
    (List.range cs.length).map (cs[·]?) = cs.map some := by
  refine List.ext_getElem? ?_
  intro i
  rw [List.getElem?_map, List.getElem?_map]
  by_cases hi : i < cs.length
  · rw [List.getElem?_range hi, List.getElem?_eq_getElem hi]
    simp [hi]
  · rw [List.getElem?_eq_none (by simpa using hi), List.getElem?_eq_none (by simpa using hi)]
    rfl

namespace CString.Holds

theorem new : stringNew.Holds boxes [] := ⟨rfl, [], CVector.Holds.new, rfl⟩

/-- What was in memory stays there. -/
theorem mono (h : str.Holds boxes cs) (more : List Char) : str.Holds (boxes ++ more) cs := by
  obtain ⟨ptrs, hvector, hptrs⟩ := h.vector
  refine ⟨h.length, ptrs, hvector, ?_⟩
  rw [← hptrs]
  refine List.map_congr_left ?_
  intro ptr hmem
  have hsome : boxes[ptr]? ∈ cs.map some := hptrs ▸ List.mem_map_of_mem hmem
  obtain ⟨c, -, hc⟩ := List.mem_map.1 hsome
  exact List.getElem?_append_left (List.getElem?_eq_some_iff.1 hc.symm).1

/-- A character is read through its box. -/
theorem get (h : str.Holds boxes cs) {i : Nat} {c : Char} (hi : cs[i]? = some c) :
    stringGet str i boxes = .ok (c, boxes) := by
  obtain ⟨ptrs, hvector, hptrs⟩ := h.vector
  have hmap : (ptrs.map (boxes[·]?))[i]? = some (some c) := by
    rw [hptrs, List.getElem?_map, hi]
    rfl
  rw [List.getElem?_map, Option.map_eq_some_iff] at hmap
  obtain ⟨ptr, hptr, hbox⟩ := hmap
  obtain ⟨hlt, rfl⟩ := List.getElem?_eq_some_iff.1 hptr
  unfold stringGet
  rw [hvector.get hlt]
  show readBox ptrs[i] boxes = .ok (c, boxes)
  unfold readBox
  rw [StateExcept.get_bind_apply, hbox]
  rfl

/-- One more character, in a new box. -/
theorem append (h : str.Holds boxes cs) (c : Char) :
    ∃ str', stringAppend str c boxes = .ok (str', boxes ++ [c]) ∧
      str'.Holds (boxes ++ [c]) (cs ++ [c]) := by
  obtain ⟨ptrs, hvector, hptrs⟩ := (h.mono [c]).vector
  obtain ⟨vector', hpush, hvector'⟩ := hvector.push boxes.length
  refine ⟨{ vector := vector', length := str.length + 1 }, ?_, ?_, ptrs ++ [boxes.length], hvector',
    ?_⟩
  · have hbox : makeBox c boxes = .ok (boxes.length, boxes ++ [c]) := rfl
    unfold stringAppend
    rw [StateExcept.bind_of_ok hbox, StateExcept.bind_of_ok (StateExcept.lift_of_ok hpush)]
    rfl
  · show str.length + 1 = (cs ++ [c]).length
    rw [List.length_append, h.length]
    rfl
  · rw [List.map_append, hptrs, List.map_append, List.map_singleton, List.getElem?_concat_length]
    rfl

/-! ### Reading a string back

Both functions read a character at each index, one into a buffer and one into a new
string.
-/

/-- `as_str` reads the characters at the indices it goes through. -/
theorem reads (h : str.Holds boxes cs) {is : List Nat} {ds : List Char}
    (his : is.map (cs[·]?) = ds.map some) : is.mapM (stringGet str) boxes = .ok (ds, boxes) := by
  induction is generalizing ds with
  | nil =>
      obtain rfl : ds = [] := by simpa using his.symm
      rfl
  | cons i is ih =>
      cases ds with
      | nil => simp at his
      | cons d ds =>
          simp only [List.map_cons, List.cons.injEq] at his
          obtain ⟨hd, hds⟩ := his
          rw [List.mapM_cons, StateExcept.bind_of_ok (h.get hd), StateExcept.bind_of_ok (ih hds)]
          rfl

/-- `string_clone` copies the characters at the indices it goes through behind what it has. -/
theorem copies (h : str.Holds boxes cs) {copy : CString} {es : List Char}
    (hcopy : copy.Holds boxes es) {is : List Nat} {ds : List Char}
    (his : is.map (cs[·]?) = ds.map some) :
    ∃ copy', (is.foldlM (fun s i => do stringAppend s (← stringGet str i)) copy : Boxed CString)
      boxes =
        .ok (copy', boxes ++ ds) ∧
      copy'.Holds (boxes ++ ds) (es ++ ds) := by
  induction is generalizing ds copy es boxes with
  | nil =>
      obtain rfl : ds = [] := by simpa using his.symm
      rw [List.append_nil, List.append_nil]
      exact ⟨copy, rfl, hcopy⟩
  | cons i is ih =>
      cases ds with
      | nil => simp at his
      | cons d ds =>
          simp only [List.map_cons, List.cons.injEq] at his
          obtain ⟨hd, hds⟩ := his
          obtain ⟨copy1, happend, hcopy1⟩ := hcopy.append d
          obtain ⟨copy2, hrest, hcopy2⟩ := ih (h.mono [d]) hcopy1 hds
          rw [List.append_assoc, List.singleton_append] at hrest
          rw [List.append_assoc, List.append_assoc, List.singleton_append] at hcopy2
          have hstep : (do stringAppend copy (← stringGet str i) : Boxed CString) boxes =
              .ok (copy1, boxes ++ [d]) := by
            rw [StateExcept.bind_of_ok (h.get hd), happend]
          refine ⟨copy2, ?_, hcopy2⟩
          rw [List.foldlM_cons, StateExcept.bind_of_ok hstep, hrest]

theorem asStr (h : str.Holds boxes cs) : MyLang.asStr str boxes = .ok (terminated cs, boxes) := by
  unfold MyLang.asStr
  rw [h.length, StateExcept.bind_of_ok (h.reads (map_range_getElem? cs))]
  rfl

/-- A clone reads as the string does, which it leaves as it was. -/
theorem clone (h : str.Holds boxes cs) :
    ∃ copy boxes2, stringClone str boxes = .ok (copy, boxes2) ∧
      MyLang.asStr copy boxes2 = .ok (terminated cs, boxes2) ∧
      MyLang.asStr str boxes2 = .ok (terminated cs, boxes2) := by
  obtain ⟨copy, hclone, hcopy⟩ := h.copies new (map_range_getElem? cs)
  refine ⟨copy, boxes ++ cs, ?_, hcopy.asStr, (h.mono cs).asStr⟩
  unfold stringClone
  rw [h.length]
  exact hclone

/-! ### Making a string

The loop ends at the terminator, if the index gets there.
-/

theorem appendAll (h : str.Holds boxes cs) (ds : List Char) :
    ∃ str', (ds.foldlM stringAppend str : Boxed CString) boxes = .ok (str', boxes ++ ds) ∧
      str'.Holds (boxes ++ ds) (cs ++ ds) := by
  induction ds generalizing str boxes cs with
  | nil =>
      rw [List.append_nil, List.append_nil]
      exact ⟨str, rfl, h⟩
  | cons d ds ih =>
      obtain ⟨str1, happend, h1⟩ := h.append d
      obtain ⟨str2, hrest, h2⟩ := ih h1
      rw [List.append_assoc, List.singleton_append] at hrest
      rw [List.append_assoc, List.append_assoc, List.singleton_append] at h2
      refine ⟨str2, ?_, h2⟩
      rw [List.foldlM_cons, StateExcept.bind_of_ok happend, hrest]

/-- While the index of `string` is an `int`, its loop appends what it reads. -/
theorem stringLoop_ok (h : str.Holds boxes cs) {i : Int} {ds : List Char} (hnul : nul ∉ ds)
    (hfits : i + ds.length ≤ intMax) :
    ∃ str', stringLoop str i (terminated ds) boxes = .ok (str', boxes ++ ds) ∧
      str'.Holds (boxes ++ ds) (cs ++ ds) := by
  induction ds generalizing str boxes cs i with
  | nil =>
      rw [List.append_nil, List.append_nil]
      refine ⟨str, ?_, h⟩
      show stringLoop str i [nul] boxes = .ok (str, boxes)
      unfold stringLoop
      rw [if_pos rfl]
      rfl
  | cons d ds ih =>
      have hd : d ≠ nul := fun hd => hnul (hd ▸ List.mem_cons_self)
      rw [List.length_cons, Nat.cast_succ] at hfits
      obtain ⟨str1, happend, h1⟩ := h.append d
      obtain ⟨str2, hrest, h2⟩ :=
        ih (i := i + 1) h1 (fun hmem => hnul (List.mem_cons_of_mem d hmem)) (by omega)
      rw [List.append_assoc, List.singleton_append] at hrest
      rw [List.append_assoc, List.append_assoc, List.singleton_append] at h2
      refine ⟨str2, ?_, h2⟩
      show stringLoop str i (d :: terminated ds) boxes = _
      unfold stringLoop
      rw [if_neg hd, StateExcept.bind_of_ok happend, if_neg (by omega)]
      exact hrest

/-- A string that does not end before the index has run over has none. -/
theorem stringLoop_undefined (h : str.Holds boxes cs) {i : Int} {ds : List Char} (hnul : nul ∉ ds)
    (hi : i ≤ intMax) (hlong : intMax < i + ds.length) :
    stringLoop str i (terminated ds) boxes = .error .undefined := by
  induction ds generalizing str boxes cs i with
  | nil =>
      rw [List.length_nil, Nat.cast_zero] at hlong
      omega
  | cons d ds ih =>
      have hd : d ≠ nul := fun hd => hnul (hd ▸ List.mem_cons_self)
      rw [List.length_cons, Nat.cast_succ] at hlong
      obtain ⟨str1, happend, h1⟩ := h.append d
      show stringLoop str i (d :: terminated ds) boxes = _
      unfold stringLoop
      rw [if_neg hd, StateExcept.bind_of_ok happend]
      by_cases hmax : i = intMax
      · rw [if_pos hmax]
        rfl
      · rw [if_neg hmax]
        exact ih h1 (fun hmem => hnul (List.mem_cons_of_mem d hmem)) (by omega) (by omega)

/-! ### Comparing a string

The lengths are compared first, and then the characters.
-/

/-- The characters are compared from the `i`th on. -/
theorem stringEqLoop (h : str.Holds boxes cs) {t : List Char} (ht : t.length = cs.length)
    {i n : Nat} (hi : i + n = cs.length) :
    MyLang.stringEqLoop str (terminated t) i n boxes = .ok (decide (cs.drop i = t.drop i),
      boxes) := by
  induction n generalizing i with
  | zero =>
      rw [List.drop_of_length_le (by omega), List.drop_of_length_le (by omega), decide_eq_true rfl]
      rfl
  | succ n ih =>
      have hlt : i < cs.length := by omega
      have hlt' : i < t.length := by omega
      have hcmp : (terminated t)[i]? = some t[i] := by
        rw [terminated, List.getElem?_append_left hlt', List.getElem?_eq_getElem hlt']
      unfold MyLang.stringEqLoop
      rw [StateExcept.bind_of_ok (h.get (List.getElem?_eq_getElem hlt)), hcmp,
        List.drop_eq_getElem_cons hlt, List.drop_eq_getElem_cons hlt']
      by_cases hc : cs[i] = t[i]
      · rw [hc]
        simp only [ne_eq, not_true_eq_false, if_false, List.cons.injEq, true_and]
        exact ih (by omega)
      · simp only [ne_eq, hc, not_false_eq_true, if_true, List.cons.injEq, false_and, decide_false]
        rfl

end CString.Holds

theorem strlen_terminated {t : List Char} (ht : nul ∉ t) : strlen (terminated t) = t.length := by
  unfold strlen terminated
  rw [List.takeWhile_append_of_pos]
  · simp
  · intro c hc
    have hne : c ≠ nul := fun h => ht (h ▸ hc)
    simpa using hne

theorem CString.Holds.stringEq (h : str.Holds boxes cs) {t : List Char} (ht : nul ∉ t) :
    MyLang.stringEq str (terminated t) boxes = .ok (decide (cs = t), boxes) := by
  unfold MyLang.stringEq
  rw [h.length, strlen_terminated ht]
  by_cases hlen : cs.length = t.length
  · rw [if_neg (not_not_intro hlen), h.stringEqLoop hlen.symm (Nat.zero_add _)]
    rfl
  · have hne : cs ≠ t := fun heq => hlen (congrArg List.length heq)
    rw [if_pos hlen, decide_eq_false hne]
    rfl

end Strings

/-! ### Vectors and strings stand for lists

Three statements, of which only the one about `string` needs a bound.
-/

theorem cloneRefines (cs : List Char) : CloneRefines cs := by
  intro boxes
  have hnew : stringNew.Holds boxes [] := CString.Holds.new
  obtain ⟨str, happend, hstr⟩ := hnew.appendAll cs
  exact ⟨str, boxes ++ cs, happend, hstr.asStr, hstr.clone⟩

/-- `string` has a result exactly if an `int` can count its characters. -/
theorem stringRefines_iff {s t : List Char} (hs : nul ∉ s) (ht : nul ∉ t) :
    StringRefines s t ↔ s.length ≤ intMax := by
  constructor
  · intro h
    by_contra hlong
    obtain ⟨str, boxes, hstring, -⟩ := h []
    have hundefined : string (terminated s) [] = .error .undefined :=
      CString.Holds.new.stringLoop_undefined hs (by decide) (by omega)
    rw [hundefined] at hstring
    simp at hstring
  · intro hfits boxes
    have hnew : stringNew.Holds boxes [] := CString.Holds.new
    obtain ⟨str, hstring, hstr⟩ := hnew.stringLoop_ok (i := 0) hs (by omega)
    exact ⟨str, boxes ++ s, hstring, hstr.asStr, hstr.clone, hstr.stringEq ht⟩

/--
**Vectors and strings stand for lists, as far as `string` can count.**

Any sequence of operations on a vector does what it does on a list, and clones read as what
they were made from.  A string made of `s` reads as `s`, and compares as `s`, if `s` has no
more characters than an `int` can count: the index of `string` is one, where the other loops
have a `size_t`.
-/
theorem vectors_refine_iff {s t : List Char} (hs : nul ∉ s) (ht : nul ∉ t) :
    (∀ (α : Type) (ops : List (VectorOp α)), VectorOp.Refines ops) ∧ (∀ cs, CloneRefines cs) ∧
      (StringRefines s t ↔ s.length ≤ intMax) :=
  ⟨fun _ => VectorOp.refines, cloneRefines, stringRefines_iff hs ht⟩

/--
Two strings of one length that end differently, and a vector that grows: of twelve characters,
where ten have room at first.
-/
theorem vectors_refine_iff_grown :
    VectorOp.Refines ("hello, world".toList.map VectorOp.push ++ [.set 4 'x', .set 12 'y']) ∧
      CloneRefines "hello, world".toList ∧
      StringRefines "hello, world".toList "hello, there".toList := by
  have hs : nul ∉ "hello, world".toList := by decide
  have ht : nul ∉ "hello, there".toList := by decide
  obtain ⟨hops, hclone, hstring⟩ := vectors_refine_iff hs ht
  exact ⟨hops _ _, hclone _, hstring.mpr (by decide)⟩

private theorem not_refines_replicate {n : Nat} (hn : intMax < n) :
    nul ∉ List.replicate n 'a' ∧ ¬ StringRefines (List.replicate n 'a') (List.replicate n 'a') := by
  have hnul : nul ∉ List.replicate n 'a' := by
    intro hmem
    exact absurd (List.eq_of_mem_replicate hmem) (by decide)
  refine ⟨hnul, ?_⟩
  rw [stringRefines_iff hnul hnul, List.length_replicate]
  omega

/-- The index of `string` runs over on a string of `INT_MAX + 1` characters. -/
theorem long_not_stringRefines : nul ∉ List.replicate 2147483648 'a' ∧
    ¬ StringRefines (List.replicate 2147483648 'a') (List.replicate 2147483648 'a') :=
  not_refines_replicate (by decide)

end MyLang
