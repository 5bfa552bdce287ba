/-
The hash map of `hashmap.c` on the heap.

`HashMap.lean` has what a map contains, chain by chain.  Here a table holds addresses, the
nodes are cells of the heap that all maps share, and the functions read, write, allocate
and free them one at a time, as the source does.  A key is the text its pointer points to,
which nobody writes to.

The loops run as long as a chain can be; `none` is undefined behaviour, or a loop that has
run longer.

`malloc` and `calloc` give the memory they are asked for.  A node that was given back is
not allocated any more, so that a function that would follow an old pointer to it is
undefined; that none does is part of what is proved.
-/
import MyLang.HashMap
import MyLang.Lib.LinkedHeap

namespace MyLang

namespace Linked

open LinkedHeap

variable {α : Type}

/-- `HashMap`: a table of addresses; `size` is always `TABLE_SIZE`. -/
structure HashMap where
  table : Vector (Option Nat) tableSize

/-- `make_table_node`. -/
def makeTableNode (next : Option Nat) (data : α) (key : String) : HeapM (TableNode α) Nat :=
  malloc { val := { key, data }, next }

/-- `find`. -/
def find (key : String) : Nat → Option Nat → HeapM (TableNode α) (Option α)
  | 0, _ => failure
  | _ + 1, none => return none
  | n + 1, some curr => do
      let node ← deref (some curr)
      if node.val.key = key then
        return some node.val.data
      find key n node.next

/-- The loop of `insert`; `n` is the new node. -/
def insertLoop (n : Nat) (data : α) (key : String) :
    Nat → Option Nat → Option Nat → HeapM (TableNode α) Unit
  | 0, _, _ => failure
  | _ + 1, prev, none => do
      let node ← deref prev
      write prev { node with next := some n }
  | fuel + 1, _, some curr => do
      let node ← deref (some curr)
      if key = node.val.key then
        write (some curr) { node with val := { node.val with data } }
        free (some n)
      else
        insertLoop n data key fuel (some curr) node.next

/-- `insert`: what stands at `index_node` afterwards. -/
def insert (indexNode : Option Nat) (data : α) (key : String) : HeapM (TableNode α) (Option Nat) :=
  do
  let n ← makeTableNode none data key
  if indexNode = none then
    return some n
  insertLoop n data key (← cellBound) none indexNode
  return indexNode

/-- `hashmap_add`. -/
def hashmapAdd (map : HashMap) (data : α) (key : String) : HeapM (TableNode α) HashMap := do
  let index := bucketIndex key
  let indexNode ← insert (map.table.get index) data key
  return { map with table := map.table.set index indexNode index.isLt }

/-- `hashmap_get`. -/
def hashmapGet (map : HashMap) (key : String) : HeapM (TableNode α) (Option α) := do
  find key (← cellBound) (map.table.get (bucketIndex key))

/-- `hashmap_new`. -/
def hashmapNew : HashMap := { table := Vector.replicate tableSize none }

/-- The inner loop of `symtab_clone`. -/
def cloneChain : Nat → HashMap → Option Nat → HeapM (TableNode α) HashMap
  | 0, _, _ => failure
  | _ + 1, clone, none => return clone
  | n + 1, clone, some curr => do
      let node ← deref (some curr)
      let clone ← hashmapAdd clone node.val.data node.val.key
      let node ← deref (some curr)
      cloneChain n clone node.next

/-- A turn of the outer loop of `symtab_clone`. -/
def cloneBucket (clone : HashMap) (curr : Option Nat) : HeapM (TableNode α) HashMap := do
  cloneChain (← cellBound) clone curr

/-- `symtab_clone`. -/
def symtabClone (symtab : HashMap) : HeapM (TableNode α) HashMap :=
  symtab.table.toList.foldlM cloneBucket hashmapNew

/-- The inner loop of `hashmap_free`. -/
def freeChain : Nat → Option Nat → HeapM (TableNode α) Unit
  | 0, _ => failure
  | _ + 1, none => return ()
  | n + 1, some curr => do
      let tmp := (← deref (some curr)).next
      free (some curr)
      freeChain n tmp

/-- A turn of the outer loop of `hashmap_free`. -/
def freeBucket (curr : Option Nat) : HeapM (TableNode α) Unit := do
  freeChain (← cellBound) curr

/-- `hashmap_free`. -/
def hashmapFree (map : HashMap) : HeapM (TableNode α) Unit := forM map.table.toList freeBucket

end Linked

/-! ### What a map is for

What each of the maps should answer, told by the adds it has seen, and no table in it.
-/

/-- The data of the last add with a key. -/
def lastAdd {α : Type} (adds : List (α × String)) (key : String) : Option α :=
  (adds.reverse.find? fun add => add.2 = key).map Prod.fst

/--
What can be done with some maps; a map is named by its number, and to a number without one
nothing is done.
-/
inductive TableOp (α : Type) where
  | new
  | add (map : Nat) (data : α) (key : String)
  | clone (map : Nat)

namespace TableOp

open LinkedHeap Linked

variable {α : Type}

/-- One operation on the maps there are. -/
def run (maps : List Linked.HashMap) : TableOp α → HeapM (TableNode α) (List Linked.HashMap)
  | new => return maps ++ [Linked.hashmapNew]
  | add i data key =>
      match maps[i]? with
      | none => return maps
      | some map => do return maps.set i (← Linked.hashmapAdd map data key)
  | clone i =>
      match maps[i]? with
      | none => return maps
      | some map => do return maps ++ [← Linked.symtabClone map]

/--
What an operation adds to the adds each map has seen.  A clone has seen those of the
original.
-/
def record (histories : List (List (α × String))) : TableOp α → List (List (α × String))
  | new => histories ++ [[]]
  | add i data key => histories.modify i (· ++ [(data, key)])
  | clone i =>
      match histories[i]? with
      | none => histories
      | some adds => histories ++ [adds]

/-- A sequence of operations, on no maps to begin with. -/
def runAll (ops : List (TableOp α)) : HeapM (TableNode α) (List Linked.HashMap) := ops.foldlM run []

/-- The adds that each map has seen in a sequence of operations. -/
def histories (ops : List (TableOp α)) : List (List (α × String)) := ops.foldl record []

end TableOp

/-- Each key is in one node at most, and that in the bucket of its hash. -/
def KeysKept {α : Type} (heap : LinkedHeap.Heap (TableNode α)) (map : Linked.HashMap) : Prop :=
  ∀ b : Fin tableSize, ∃ l, LinkedHeap.Chain heap (map.table.get b) l ∧
    (l.map fun x => x.2.key).Nodup ∧ ∀ x ∈ l, bucketIndex x.2.key = b

end MyLang
