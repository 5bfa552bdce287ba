/-
The vectors and strings of `util.c`.

A vector has an array of `size` cells, of which the first `length` are in use.  When all
are, `size` is doubled first and the array copied then, so that the old one has half of
the new `size`.  The memory of an arena is not cleared: a cell that has not been written
is `none`, and to read one, or past the end of an array, is undefined.

A string is a vector of pointers to single characters, with a length of its own.  The
boxes the pointers lead to are never given back, so memory is the list of all that have
been made.  A `char *` is the memory it points to, as far as the terminator.

`VectorOp.Refines`, `CloneRefines` and `StringRefines` say what they are for, in terms of
lists.  The loops of the source count in the type that they have there: `string` in an
`int`, the others in a `size_t`.
-/
import MyLang.Lex
import MyLang.Parse

namespace MyLang

/-- How a function on vectors stops without a result. -/
inductive VectorError where
  /-- `Index out of range. %zu` -/
  | outOfRange (index : Nat)
  /-- What no array holds was read or written, or an `int` ran over. -/
  | undefined
deriving DecidableEq, Repr

/-! ### Vectors

An operation that stops with a message is told apart from one that is undefined.
-/

/-- `Vector`. -/
structure CVector (α : Type) where
  array : List (Option α)
  size : Nat
  length : Nat
deriving DecidableEq, Repr

/-- `VECTOR_INIT_SIZE`. -/
abbrev vectorInitSize : Nat := 10

section Vector

variable {α : Type}

/-- `context_alloc` of an array of `n` pointers. -/
def allocArray (n : Nat) : List (Option α) := List.replicate n none

/--
`arena_realloc` of an array of `oldsz` pointers to one of `newsz`: the loop copies `oldsz`
of them.
-/
def arenaRealloc (oldptr : List (Option α)) (oldsz newsz : Nat) :
    Except VectorError (List (Option α)) :=
  if newsz ≤ oldsz then .ok oldptr
  else if oldptr.length < oldsz then .error .undefined
  else .ok (oldptr.take oldsz ++ allocArray (newsz - oldsz))

/-- `array[index] = ptr`. -/
def writeCell (array : List (Option α)) (index : Nat) (ptr : α) :
    Except VectorError (List (Option α)) :=
  if index < array.length then .ok (array.set index (some ptr)) else .error .undefined

/-- `array[index]`. -/
def readCell (array : List (Option α)) (index : Nat) : Except VectorError α :=
  match array[index]? with
  | some (some ptr) => .ok ptr
  | _ => .error .undefined

/-- `vector_new`. -/
def vectorNew : CVector α := { array := allocArray vectorInitSize, size := 10, length := 0 }

/-- `vector_push`. -/
def vectorPush (vector : CVector α) (ptr : α) : Except VectorError (CVector α) := do
  let vector ←
    if vector.length ≥ vector.size then do
      let size := vector.size * 2
      let array ← arenaRealloc vector.array (size / 2) size
      pure { vector with array, size }
    else
      pure vector
  let array ← writeCell vector.array vector.length ptr
  return { vector with array, length := vector.length + 1 }

/-- `vector_set`. -/
def vectorSet (vector : CVector α) (index : Nat) (ptr : α) : Except VectorError (CVector α) := do
  if index ≥ vector.length then
    throw (.outOfRange index)
  let array ← writeCell vector.array index ptr
  return { vector with array }

/-- `vector_get`. -/
def vectorGet (vector : CVector α) (index : Nat) : Except VectorError α := do
  if index ≥ vector.length then
    throw (.outOfRange index)
  readCell vector.array index

/-- What is done with a vector. -/
inductive VectorOp (α : Type) where
  | push (ptr : α)
  | set (index : Nat) (ptr : α)

namespace VectorOp

/-- One operation on a vector. -/
def run (vector : CVector α) : VectorOp α → Except VectorError (CVector α)
  | push ptr => vectorPush vector ptr
  | set index ptr => vectorSet vector index ptr

/-- The same on a list. -/
def apply (l : List α) : VectorOp α → Except VectorError (List α)
  | push ptr => .ok (l ++ [ptr])
  | set index ptr => if index < l.length then .ok (l.set index ptr) else .error (.outOfRange index)

/-- A sequence of operations on a fresh vector. -/
def runAll (ops : List (VectorOp α)) : Except VectorError (CVector α) := ops.foldlM run vectorNew

/-- The same on the empty list. -/
def applyAll (ops : List (VectorOp α)) : Except VectorError (List α) := ops.foldlM apply []

end VectorOp

/-- A vector stands for a list: it has room for it, and gives back its elements, and no others. -/
structure CVector.Lists (vector : CVector α) (l : List α) : Prop where
  length : vector.length = l.length
  room : vector.length ≤ vector.size
  get : ∀ i (h : i < l.length), vectorGet vector i = .ok l[i]
  stop : ∀ i, l.length ≤ i → vectorGet vector i = .error (.outOfRange i) ∧
    ∀ ptr, vectorSet vector i ptr = .error (.outOfRange i)

/--
Where `ops` lead on a list, they lead on a vector that stands for it; where they stop, they
stop.
-/
def VectorOp.Refines (ops : List (VectorOp α)) : Prop :=
  match applyAll ops with
  | .ok l => ∃ vector, runAll ops = .ok vector ∧ vector.Lists l
  | .error e => runAll ops = .error e

end Vector

/-! ### Strings

A pointer to a character is the number of its box.
-/

/-- `String`. -/
structure CString where
  vector : CVector Nat
  length : Nat
deriving DecidableEq, Repr

/-- A function that makes and reads boxes. -/
abbrev Boxed := StateT (List Char) (Except VectorError)

/-- `context_alloc(sizeof(char))`, and the character written to it. -/
def makeBox (c : Char) : Boxed Nat := do
  let n := (← get).length
  set ((← get) ++ [c])
  return n

/-- `*c`. -/
def readBox (ptr : Nat) : Boxed Char := do
  match (← get)[ptr]? with
  | some c => return c
  | none => throw .undefined

/-- The memory of a string: its characters and the terminator. -/
def terminated (s : List Char) : List Char := s ++ [nul]

/-- `strlen`. -/
def strlen (str : List Char) : Nat := (str.takeWhile (· ≠ nul)).length

/-- `string_new`. -/
def stringNew : CString := { vector := vectorNew, length := 0 }

/-- `string_append`. -/
def stringAppend (string : CString) (c : Char) : Boxed CString := do
  let n ← makeBox c
  let vector ← vectorPush string.vector n
  return { vector, length := string.length + 1 }

/-- The loop of `string`, with `str` from the `i`th character on; `i` is an `int`. -/
def stringLoop (s : CString) (i : Int) : List Char → Boxed CString
  | [] => throw .undefined
  | c :: rest => do
      if c = nul then
        return s
      let s ← stringAppend s c
      if i = intMax then
        throw .undefined
      stringLoop s (i + 1) rest

/-- `string`. -/
def string (str : List Char) : Boxed CString := stringLoop stringNew 0 str

/-- `*(char *)vector_get(string->vector, i)`. -/
def stringGet (string : CString) (i : Nat) : Boxed Char := do
  let c ← vectorGet string.vector i
  readBox c

/-- `string_clone`. -/
def stringClone (string : CString) : Boxed CString :=
  (List.range string.length).foldlM (fun s i => do stringAppend s (← stringGet string i)) stringNew

/-- The loop of `string_eq`, from `i` on, for `n` turns. -/
def stringEqLoop (string : CString) (cmp : List Char) (i : Nat) : Nat → Boxed Bool
  | 0 => return true
  | n + 1 => do
      let c ← stringGet string i
      match cmp[i]? with
      | none => throw .undefined
      | some d => if c ≠ d then return false else stringEqLoop string cmp (i + 1) n

/-- `string_eq`. -/
def stringEq (string : CString) (cmp : List Char) : Boxed Bool :=
  if string.length ≠ strlen cmp then return false else stringEqLoop string cmp 0 string.length

/-- `as_str`: the memory of the result. -/
def asStr (string : CString) : Boxed (List Char) := do
  let s ← (List.range string.length).mapM (stringGet string)
  return s ++ [nul]

/-- The characters of `cs` appended to a fresh string. -/
def stringAppendAll (cs : List Char) : Boxed CString := cs.foldlM stringAppend stringNew

/-- What was appended is what the string holds, and what a clone of it holds. -/
def CloneRefines (cs : List Char) : Prop :=
  ∀ boxes, ∃ str boxes1, stringAppendAll cs boxes = .ok (str, boxes1) ∧
    asStr str boxes1 = .ok (terminated cs, boxes1) ∧
    ∃ clone boxes2, stringClone str boxes1 = .ok (clone, boxes2) ∧
      asStr clone boxes2 = .ok (terminated cs, boxes2) ∧
        asStr str boxes2 = .ok (terminated cs, boxes2)

/-- A string made of `s` and compared with `t` does what `s` does. -/
def StringRefines (s t : List Char) : Prop :=
  ∀ boxes, ∃ str boxes1, string (terminated s) boxes = .ok (str, boxes1) ∧
    asStr str boxes1 = .ok (terminated s, boxes1) ∧
    (∃ clone boxes2, stringClone str boxes1 = .ok (clone, boxes2) ∧
      asStr clone boxes2 = .ok (terminated s, boxes2) ∧
        asStr str boxes2 = .ok (terminated s, boxes2)) ∧
    stringEq str (terminated t) boxes1 = .ok (decide (s = t), boxes1)

end MyLang
