/-
The vectors of `util.c` in the bytes of the arena.

All vectors of the compiler get their memory from one arena: the `Vector` itself, its
array, and a longer array when the first is full.  Here they are what they are in memory:
a vector is the pointer to its 24 bytes, and every access goes through the bytes behind a
pointer.  A byte is a fragment of the pointer or number it was stored as part of.

A `PoolOp` is what a program with several vectors does, which asks the arena for other
memory in between and writes to it; it expects of each of the vectors to be a list.

`Vectors.lean` has the same functions on a vector that is a record with an array, for one
vector at a time.  What is added here is that the vectors share an arena: that no push
writes into another vector, that the array of one is not handed out again, and that an
array that was left behind by a growth is not read any more.
-/
import MyLang.Arena
import MyLang.Vectors
import MyLang.Lib.Fragments

namespace MyLang

open Fragments

/-- What eight bytes of memory may stand for: an address, a `size_t`, or an element of a vector. -/
inductive Datum (α : Type) where
  | ptr (p : DataPtr)
  | num (n : Nat)
  | elem (v : α)
deriving DecidableEq

/-- The bytes of the arena. -/
abbrev Byte (α : Type) := Fragment (Datum α)

section Bytes

variable {α : Type} [DecidableEq α]

namespace Arena

/-- Store the fragments of a value from the `j`th on, `n` of them. -/
def storeFrom (a : Arena (Byte α)) (ptr : DataPtr) (i : Nat) (d : Datum α) (j : Nat) :
    Nat → Option (Arena (Byte α))
  | 0 => some a
  | n + 1 => do
      let a ← a.store ptr (i + j) ⟨d, j⟩
      storeFrom a ptr i d (j + 1) n

/-- The value whose fragments lie from the byte `i` on. -/
def loadDatum (a : Arena (Byte α)) (ptr : DataPtr) (i : Nat) : Option (Datum α) := do
  let byte ← a.load ptr i
  if (List.range wordSize).all fun j =>
    a.load ptr (i + j) = some ⟨byte.datum, j⟩ then some byte.datum else none

end Arena

/-- What is done with the bytes of the arena can stop. -/
abbrev Bytes (α : Type) := StateT (Arena (Byte α)) (Except VectorError)

/-- The result of an access, if there is one. -/
def orUndefined {γ : Type} : Option γ → Bytes α γ
  | some x => pure x
  | none => throw .undefined

/-- `context_alloc`. -/
def contextAlloc (size : Nat) : Bytes α DataPtr := do
  let res ← orUndefined ((← get).alloc size)
  set res.2
  return res.1

/-- `arena_realloc` on the arena of the compiler. -/
def contextRealloc (oldptr : DataPtr) (oldsz newsz : Nat) : Bytes α DataPtr := do
  let res ← orUndefined ((← get).realloc oldptr oldsz newsz)
  set res.2
  return res.1

/-- Write a byte. -/
def storeByte (ptr : DataPtr) (i : Nat) (v : Byte α) : Bytes α Unit := do
  set (← orUndefined ((← get).store ptr i v))

/-- Write eight bytes. -/
def writeDatum (ptr : DataPtr) (i : Nat) (d : Datum α) : Bytes α Unit := do
  set (← orUndefined ((← get).storeFrom ptr i d 0 wordSize))

/-- Read an address. -/
def readPtr (ptr : DataPtr) (i : Nat) : Bytes α DataPtr := do
  match (← get).loadDatum ptr i with
  | some (.ptr p) => return p
  | _ => throw .undefined

/-- Read a `size_t`. -/
def readNum (ptr : DataPtr) (i : Nat) : Bytes α Nat := do
  match (← get).loadDatum ptr i with
  | some (.num n) => return n
  | _ => throw .undefined

/-- Read an element of a vector. -/
def readElem (ptr : DataPtr) (i : Nat) : Bytes α α := do
  match (← get).loadDatum ptr i with
  | some (.elem v) => return v
  | _ => throw .undefined

/-! ### The functions of `util.c`

A field is a word at a fixed number of bytes behind the pointer.
-/

/-- Where `array`, `size` and `length` are in a `Vector`, and its size. -/
abbrev arrayOffset : Nat := 0
abbrev sizeOffset : Nat := 8
abbrev lengthOffset : Nat := 16
abbrev vectorBytes : Nat := 24

/-- A `size_t`. -/
abbrev wrap (n : Nat) : Nat := n % 2 ^ 64

/-- `vector_new`. -/
def vectorNewAt : Bytes α DataPtr := do
  let vector ← contextAlloc vectorBytes
  let array ← contextAlloc (wordSize * vectorInitSize)
  writeDatum vector arrayOffset (.ptr array)
  writeDatum vector sizeOffset (.num 10)
  writeDatum vector lengthOffset (.num 0)
  return vector

/-- The part of `vector_push` that makes room: `size` is doubled first, the array copied then. -/
def vectorGrowAt (vector : DataPtr) : Bytes α Unit := do
  let length ← readNum vector lengthOffset
  let size ← readNum vector sizeOffset
  if length ≥ size then
    writeDatum vector sizeOffset (.num (wrap (size * 2)))
    let array ← readPtr vector arrayOffset
    let oldSize ← readNum vector sizeOffset
    let newSize ← readNum vector sizeOffset
    let newArray ← contextRealloc array (wrap (wordSize * (oldSize / 2)))
      (wrap (wordSize * newSize))
    writeDatum vector arrayOffset (.ptr newArray)

/-- `vector_push`. -/
def vectorPushAt (vector : DataPtr) (ptr : α) : Bytes α Unit := do
  vectorGrowAt vector
  let array ← readPtr vector arrayOffset
  let length ← readNum vector lengthOffset
  writeDatum array (wordSize * length) (.elem ptr)
  let length ← readNum vector lengthOffset
  writeDatum vector lengthOffset (.num (wrap (length + 1)))

/-- `vector_set`. -/
def vectorSetAt (vector : DataPtr) (index : Nat) (ptr : α) : Bytes α Unit := do
  let length ← readNum vector lengthOffset
  if index ≥ length then
    throw (.outOfRange index)
  let array ← readPtr vector arrayOffset
  writeDatum array (wordSize * index) (.elem ptr)

/-- `vector_get`. -/
def vectorGetAt (vector : DataPtr) (index : Nat) : Bytes α α := do
  let length ← readNum vector lengthOffset
  if index ≥ length then
    throw (.outOfRange index)
  let array ← readPtr vector arrayOffset
  readElem array (wordSize * index)

/-! ### Programs with several vectors

The lists are what is expected; the arena and the pointers are what there is.
-/

/-- What a program does with its vectors and its other blocks, each numbered as they come. -/
inductive PoolOp (α : Type) where
  | alloc (size : Nat)
  | store (j i : Nat) (v : Byte α)
  | new
  | push (k : Nat) (ptr : α)
  | set (k index : Nat) (ptr : α)

/-- The pointers a program has. -/
structure Pool where
  vectors : List DataPtr
  others : List DataPtr

/-- What the program takes them for: the elements of the vectors, the sizes of the other blocks. -/
structure PoolView (α : Type) where
  lists : List (List α)
  sizes : List Nat

namespace PoolOp

/-- One operation. -/
def run (pool : Pool) : PoolOp α → Bytes α Pool
  | alloc size => return { pool with others := pool.others ++ [← contextAlloc size] }
  | store j i v => do
      storeByte (← orUndefined pool.others[j]?) i v
      return pool
  | new => return { pool with vectors := pool.vectors ++ [← vectorNewAt] }
  | push k ptr => do
      vectorPushAt (← orUndefined pool.vectors[k]?) ptr
      return pool
  | set k index ptr => do
      vectorSetAt (← orUndefined pool.vectors[k]?) index ptr
      return pool

/-- The same on lists; a program has to keep to its blocks, and to what a `size_t` can count. -/
def apply (view : PoolView α) : PoolOp α → Except VectorError (PoolView α)
  | alloc size =>
      if Blocks.Fits size then .ok { view with sizes := view.sizes ++ [size] }
        else .error .undefined
  | store j i _ =>
      match view.sizes[j]? with
      | some size => if i < size then .ok view else .error .undefined
      | none => .error .undefined
  | new => .ok { view with lists := view.lists ++ [[]] }
  | push k ptr =>
      match view.lists[k]? with
      | some l =>
          if Blocks.Fits (2 * (wordSize * l.length))
            then .ok { view with lists := view.lists.set k (l ++ [ptr]) }
          else .error .undefined
      | none => .error .undefined
  | set k index ptr =>
      match view.lists[k]? with
      | some l =>
          if index < l.length then .ok { view with lists := view.lists.set k (l.set index ptr) }
          else .error (.outOfRange index)
      | none => .error .undefined

/-- A sequence of operations, from no pointers on. -/
def runAll (ops : List (PoolOp α)) : Bytes α Pool := ops.foldlM run { vectors := [], others := [] }

/-- The same on lists. -/
def applyAll (ops : List (PoolOp α)) : Except VectorError (PoolView α) :=
  ops.foldlM apply { lists := [], sizes := [] }

/--
Where `ops` lead on lists, they lead on vectors in an arena whose memory held anything, and each
vector reads as its list, and no further; where they stop out of range, they stop.
-/
def Refines (mem : Nat → Nat → Byte α) (ops : List (PoolOp α)) : Prop :=
  match applyAll ops with
  | .ok view => ∃ pool a, runAll ops (Arena.empty mem) = .ok (pool, a) ∧
        pool.vectors.length = view.lists.length ∧
      ∀ (k : Nat) vector l, pool.vectors[k]? = some vector → view.lists[k]? = some l →
        ∀ i, vectorGetAt vector i a = match l[i]? with
        | some ptr => .ok (ptr, a)
        | none => .error (.outOfRange i)
  | .error (.outOfRange i) => runAll ops (Arena.empty mem) = .error (.outOfRange i)
  | .error .undefined => True

end PoolOp

end Bytes

end MyLang
