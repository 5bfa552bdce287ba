/-
The arena of `arena.h`, which hands out all memory of the compiler.

An arena is a list of regions, and behind the region `end` none is in use.  A block starts
at a word of a region and is never given back on its own: `arena_rewind` goes back to
where the arena was, `arena_reset` to its beginning.  A region is known by the address
`malloc` gave it, and what it holds by the number of the byte; `malloc` does not fail
here.

`Client` is a program that works with an arena, and `Blocks` what it expects of it:
separate blocks that keep what is stored in them for as long as they are there.

A pointer is the address of a region and the number of a byte in it.  The regions that
`arena_trim` and `arena_free` give back are taken out of the list, and nothing is said of
what becomes of their memory.  An assertion that fails, and a `NULL` that is followed, are
`none`.
-/
import Mathlib.Algebra.Order.Ring.Nat
import Mathlib.Data.List.Basic

namespace MyLang

/-! ### Regions

A region has a capacity in words, and a count of those that are in use.
-/

/-- `sizeof(uintptr_t)`. -/
abbrev wordSize : Nat := 8

/-- `sizeof(Region)`. -/
abbrev regionHeader : Nat := 24

/-- `ARENA_REGION_DEFAULT_CAPACITY`. -/
abbrev defaultCapacity : Nat := 8 * 1024

/-- `Region`: of `capacity` words `count` are given out; `malloc` gave `room` bytes for them. -/
structure Region where
  addr : Nat
  count : Nat
  capacity : Nat
  room : Nat
deriving DecidableEq, Repr

/--
`Arena`: the regions from `begin` on in the order of `next`, and which of them is `end`.  What
the regions hold is by address and byte; addresses from `fresh` on are not in use.
-/
structure Arena (β : Type) where
  regions : List Region
  end_ : Option Nat
  mem : Nat → Nat → β
  fresh : Nat

/-- A pointer into the data of a region. -/
structure DataPtr where
  region : Nat
  offset : Nat
deriving DecidableEq, Repr

/-- `Arena_Mark`. -/
structure ArenaMark where
  region : Option Nat
  count : Nat
deriving DecidableEq, Repr

namespace Arena

variable {β : Type}

/-- `{0}`. -/
def empty (mem : Nat → Nat → β) : Arena β := { regions := [], end_ := none, mem, fresh := 0 }

/-- The byte `i` behind a pointer; outside of what `malloc` gave there is none. -/
def load (a : Arena β) (ptr : DataPtr) (i : Nat) : Option β := do
  let r ← a.regions.find? fun r => r.addr = ptr.region
  if ptr.offset + i < r.room then some (a.mem ptr.region (ptr.offset + i)) else none

/-- Write the byte `i` behind a pointer. -/
def store (a : Arena β) (ptr : DataPtr) (i : Nat) (v : β) : Option (Arena β) := do
  let r ← a.regions.find? fun r => r.addr = ptr.region
  if ptr.offset + i < r.room then
    some { a with mem := Function.update a.mem ptr.region
                    (Function.update (a.mem ptr.region) (ptr.offset + i) v) }
  else none

/-! ### Allocation

`arena_alloc` goes on from `end` to the first region with room, or makes a new one.
-/

/-- The words of so many bytes, as `arena_alloc` counts them in a `size_t`. -/
def wordsOf (sizeBytes : Nat) : Nat := (sizeBytes + wordSize - 1) % 2 ^ 64 / wordSize

/-- The capacity of a region that is to take `size` words. -/
def capacityFor (size : Nat) : Nat := if defaultCapacity < size then size else defaultCapacity

/-- `new_region`; `malloc` is taken to succeed, so the assertion on its result never fails. -/
def newRegion (addr capacity : Nat) : Region :=
  { addr, count := 0, capacity,
    room := (regionHeader + wordSize * capacity) % 2 ^ 64 - regionHeader }

/-- A new region behind the last one. -/
def grow (a : Arena β) (capacity : Nat) : Arena β :=
  { a with regions := a.regions ++ [newRegion a.fresh capacity], fresh := a.fresh + 1 }

/-- An arena without regions gets its first. -/
def openFirst (a : Arena β) (size : Nat) : Option (Arena β) :=
  match a.end_ with
  | some _ => some a
  | none => if a.regions = [] then some { a.grow (capacityFor size) with end_ := some 0 } else none

/-- How many regions `end` moves on from the first of the list, for one with room. -/
def advance (size : Nat) : List Region → Nat
  | r :: next :: rest => if r.count + size > r.capacity then advance size (next :: rest) + 1 else 0
  | _ => 0

/-- `end` has no room and is the last one, so there is one more. -/
def extend (a : Arena β) (e size : Nat) : Option (Arena β × Nat) := do
  let r ← a.regions[e]?
  if r.count + size > r.capacity then
    if e + 1 = a.regions.length then some (a.grow (capacityFor size), e + 1) else none
  else some (a, e)

/-- The next `size` words of the region `e`, which is `end` from now on. -/
def take (a : Arena β) (e size : Nat) : Option (DataPtr × Arena β) := do
  let r ← a.regions[e]?
  return ({ region := r.addr, offset := wordSize * r.count },
    { a with regions := a.regions.set e { r with count := r.count + size }, end_ := some e })

/-- `arena_alloc`. -/
def alloc (a : Arena β) (sizeBytes : Nat) : Option (DataPtr × Arena β) := do
  let size := wordsOf sizeBytes
  let a ← a.openFirst size
  let e ← a.end_
  let ext ← a.extend (e + advance size (a.regions.drop e)) size
  ext.1.take ext.2 size

/-- The loop of `arena_realloc` and of `arena_memcpy`: `n` bytes from the byte `i` on. -/
def copyFrom (dest src : DataPtr) (i : Nat) : Nat → Arena β → Option (Arena β)
  | 0, a => some a
  | n + 1, a => do
      let v ← a.load src i
      let a ← a.store dest i v
      copyFrom dest src (i + 1) n a

/-- `arena_realloc`. -/
def realloc (a : Arena β) (oldptr : DataPtr) (oldsz newsz : Nat) : Option (DataPtr × Arena β) :=
  if newsz ≤ oldsz then some (oldptr, a)
  else do
    let res ← a.alloc newsz
    let a ← copyFrom res.1 oldptr 0 oldsz res.2
    return (res.1, a)

/-- `arena_memdup`. -/
def memdup (a : Arena β) (data : DataPtr) (size : Nat) : Option (DataPtr × Arena β) := do
  let res ← a.alloc size
  let a ← copyFrom res.1 data 0 size res.2
  return (res.1, a)

/-! ### Going back

A mark is a region and its count; a region that comes behind it is emptied.
-/

/-- `count = 0`. -/
def clear (r : Region) : Region := { r with count := 0 }

/-- `arena_snapshot`. -/
def snapshot (a : Arena β) : Option ArenaMark :=
  match a.end_ with
  | none => if a.regions = [] then some { region := none, count := 0 } else none
  | some e => do
      let r ← a.regions[e]?
      return { region := some r.addr, count := r.count }

/-- `arena_reset`. -/
def reset (a : Arena β) : Arena β :=
  { a with regions := a.regions.map clear, end_ := if a.regions = [] then none else some 0 }

/-- `arena_rewind`. -/
def rewind (a : Arena β) (m : ArenaMark) : Option (Arena β) :=
  match m.region with
  | none => some a.reset
  | some addr => do
      let i ← a.regions.findIdx? fun r => r.addr = addr
      let r ← a.regions[i]?
      return { a with regions := a.regions.take i
        ++ { r with count := m.count } :: (a.regions.drop (i + 1)).map clear
                      end_ := some i }

/-- `arena_free`. -/
def free (a : Arena β) : Arena β := { a with regions := [], end_ := none }

/-- `arena_trim`; an arena without regions has no `end` to look behind. -/
def trim (a : Arena β) : Option (Arena β) := do
  let e ← a.end_
  return { a with regions := a.regions.take (e + 1) }

end Arena

/-! ### Programs that work with an arena

A program keeps the pointers to its blocks and its marks, each in the order in which it
got them.
-/

/-- What is done with an arena; blocks and marks are numbered as they come. -/
inductive ArenaOp (β : Type) where
  | alloc (size : Nat)
  | realloc (k oldsz newsz : Nat)
  | memdup (k size : Nat)
  | store (k i : Nat) (v : β)
  | snapshot
  | rewind (j : Nat)
  | reset
  | trim
  | free

/-- A program with its pointers and its marks, and how many pointers there were at each mark. -/
structure Client (β : Type) where
  arena : Arena β
  ptrs : List DataPtr
  marks : List (ArenaMark × Nat)

namespace Client

variable {β : Type}

/-- Before anything is done. -/
def empty (mem : Nat → Nat → β) : Client β := { arena := Arena.empty mem, ptrs := [], marks := [] }

/-- A pointer the arena has handed out comes in. -/
def push (c : Client β) (res : DataPtr × Arena β) : Client β :=
  { c with arena := res.2, ptrs := c.ptrs ++ [res.1] }

/-- One operation; `arena_realloc` hands out a new pointer only if it is asked for more. -/
def run (c : Client β) : ArenaOp β → Option (Client β)
  | .alloc size => do return c.push (← c.arena.alloc size)
  | .realloc k oldsz newsz => do
      let ptr ← c.ptrs[k]?
      let res ← c.arena.realloc ptr oldsz newsz
      if newsz ≤ oldsz then return { c with arena := res.2 } else return c.push res
  | .memdup k size => do
      let ptr ← c.ptrs[k]?
      return c.push (← c.arena.memdup ptr size)
  | .store k i v => do
      let ptr ← c.ptrs[k]?
      let arena ← c.arena.store ptr i v
      return { c with arena }
  | .snapshot => do
      let m ← c.arena.snapshot
      return { c with marks := c.marks ++ [(m, c.ptrs.length)] }
  | .rewind j => do
      let m ← c.marks[j]?
      let arena ← c.arena.rewind m.1
      return { arena, ptrs := c.ptrs.take m.2, marks := c.marks.take (j + 1) }
  | .reset => some { arena := c.arena.reset, ptrs := [], marks := [] }
  | .trim => do
      let arena ← c.arena.trim
      return { c with arena }
  | .free => some { arena := c.arena.free, ptrs := [], marks := [] }

/-- A sequence of operations. -/
def runAll (c : Client β) (ops : List (ArenaOp β)) : Option (Client β) := ops.foldlM run c

end Client

/-! ### What is expected of an arena

Blocks are lists of bytes, and no pointers occur: what is stored in one is in no other.
-/

/-- A block: its size in bytes, and the bytes that have been set. -/
structure Block (β : Type) where
  size : Nat
  bytes : Nat → Option β

/-- The blocks there are, and how many there were at each mark; `used` once memory was asked for. -/
structure Blocks (β : Type) where
  blocks : List (Block β)
  marks : List Nat
  used : Bool

namespace Blocks

variable {β : Type}

/-- No blocks. -/
def empty : Blocks β := { blocks := [], marks := [], used := false }

/-- The sizes for which no `size_t` in `arena_alloc` and `new_region` runs over. -/
abbrev Fits (size : Nat) : Prop := size + 31 < 2 ^ 64

/-- One more block of `size` bytes, the first `n` of them as in another block. -/
def push (b : Blocks β) (size n : Nat) (bytes : Nat → Option β) : Blocks β :=
  { b with blocks := b.blocks
    ++ [{ size, bytes := fun i => if i < n then bytes i else none }], used := true }

/--
One operation.  A program has to keep to its blocks, to marks it has not gone back behind, and to
sizes that fit; and it must have asked for memory before it trims.
-/
def run (b : Blocks β) : ArenaOp β → Option (Blocks β)
  | .alloc size => if Fits size then some (b.push size 0 fun _ => none) else none
  | .realloc k oldsz newsz => do
      let block ← b.blocks[k]?
      if newsz ≤ oldsz then some b
      else if oldsz ≤ block.size ∧ Fits newsz then some (b.push newsz oldsz block.bytes) else none
  | .memdup k size => do
      let block ← b.blocks[k]?
      if size ≤ block.size ∧ Fits size then some (b.push size size block.bytes) else none
  | .store k i v => do
      let block ← b.blocks[k]?
      if i < block.size then
        some { b with blocks := b.blocks.set k {
          block with bytes := Function.update block.bytes i (some v) } }
      else none
  | .snapshot => some { b with marks := b.marks ++ [b.blocks.length] }
  | .rewind j => do
      let n ← b.marks[j]?
      return { b with blocks := b.blocks.take n, marks := b.marks.take (j + 1) }
  | .reset => some { b with blocks := [], marks := [] }
  | .trim => if b.used then some b else none
  | .free => some empty

/-- A sequence of operations. -/
def runAll (b : Blocks β) (ops : List (ArenaOp β)) : Option (Blocks β) := ops.foldlM run b

end Blocks

/--
A program has the blocks it expects.  Each starts at a word, all its bytes are in memory, no two
blocks share one, and those that have been set read as they were.
-/
structure Client.Has {β : Type} (c : Client β) (b : Blocks β) : Prop where
  count : c.ptrs.length = b.blocks.length
  aligned : ∀ ptr ∈ c.ptrs, ptr.offset % wordSize = 0
  inMemory : ∀ (k : Nat) ptr block, c.ptrs[k]? = some ptr → b.blocks[k]? = some block →
    ∀ i < block.size, ∃ v, c.arena.load ptr i = some v
  reads : ∀ (k : Nat) ptr block, c.ptrs[k]? = some ptr → b.blocks[k]? = some block →
    ∀ i < block.size, ∀ v, block.bytes i = some v → c.arena.load ptr i = some v
  apart : ∀ (k k' : Nat) ptr ptr' block block', k ≠ k' → c.ptrs[k]? = some ptr →
    c.ptrs[k']? = some ptr' →
    b.blocks[k]? = some block → b.blocks[k']? = some block' → ptr.region = ptr'.region →
    ptr.offset + block.size ≤ ptr'.offset ∨ ptr'.offset + block'.size ≤ ptr.offset

end MyLang
