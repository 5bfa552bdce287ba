/-
The hash map of `hashmap.c`.

A table of `TABLE_SIZE` buckets, each a chain of nodes; a key lives in the bucket its
FNV-1a hash selects.  The index is the hash cut down to an `int` and masked with `size -
1`, which is a bit mask of 99 and therefore never reaches some buckets, but it is a
function of the key and below `TABLE_SIZE`, and nothing else matters.

A map carries what `insert` maintains: every node is in the bucket of its own key, and no
chain holds a key twice.  With that in the type, `hashmapGet` after `hashmapAdd` and
`hashmapGet` of a clone are unconditional equations.

The nodes of a chain are a list here, without addresses.  What the source does with
pointers to nodes is in `HashTable.lean`, and `Proofs/HashTable.lean` says that it comes
to the same.
-/
import Mathlib.Data.Vector.Basic
import Mathlib.Data.List.Nodup

namespace MyLang

/-- `FNV_OFFSET`. -/
def fnvOffset : BitVec 64 := 14695981039346656037#64

/-- `FNV_PRIME`. -/
def fnvPrime : BitVec 64 := 1099511628211#64

/-- `TABLE_SIZE`. -/
abbrev tableSize : Nat := 100

/-- `hash`: 64-bit FNV-1a over the characters of the key. -/
def hash (key : String) : BitVec 64 :=
  key.toList.foldl (fun h c => (h ^^^ BitVec.ofNat 64 (c.toNat % 256)) * fnvPrime) fnvOffset

/-- The bucket of a key: `h & (size - 1)` with the hash first cut down to an `int`. -/
def bucketIndex (key : String) : Fin tableSize :=
  ⟨(((hash key).setWidth 32).signExtend 64 &&& BitVec.ofNat 64 (tableSize - 1)).toNat, by
    rw [BitVec.toNat_and]
    exact Nat.lt_of_le_of_lt Nat.and_le_right (by decide)⟩

/-- `TableNode`; a chain is the list of its nodes. -/
structure TableNode (α : Type) where
  key : String
  data : α

variable {α : Type}

/-- `find`: the data of the first node with the key. -/
def find : List (TableNode α) → String → Option α
  | [], _ => none
  | node :: rest, key => if node.key = key then some node.data else find rest key

/-- `insert`: overwrite the node with the key, or add one at the end. -/
def insert : List (TableNode α) → α → String → List (TableNode α)
  | [], data, key => [⟨key, data⟩]
  | node :: rest, data, key =>
      if key = node.key then { node with data := data } :: rest
      else node :: insert rest data key

theorem find_insert (chain : List (TableNode α)) (data : α) (key key' : String) :
    find (insert chain data key) key' = if key' = key then some data else find chain key' := by
  induction chain with
  | nil => simp [insert, find, eq_comm]
  | cons node rest ih =>
      by_cases hk : key = node.key
      · subst hk
        by_cases hk' : key' = node.key
        · simp [insert, find, hk']
        · simp [insert, find, hk', Ne.symm hk']
      · by_cases hk' : node.key = key'
        · subst hk'
          simp [insert, find, hk, Ne.symm hk]
        · simp [insert, find, hk, hk', ih]

/-- The keys of a chain with one more node. -/
theorem mem_keys_insert {chain : List (TableNode α)} {data : α} {key k : String}
    (h : k ∈ (insert chain data key).map TableNode.key) :
    k = key ∨ k ∈ chain.map TableNode.key := by
  induction chain with
  | nil => simpa [insert] using h
  | cons node rest ih =>
      by_cases hk : key = node.key
      · rw [insert, if_pos hk] at h
        exact Or.inr (by simpa using h)
      · rw [insert, if_neg hk, List.map_cons, List.mem_cons] at h
        rcases h with h | h
        · exact Or.inr (by simp [h])
        · rcases ih h with h | h
          · exact Or.inl h
          · exact Or.inr (by simp [h])

/-- No key comes in twice. -/
theorem nodup_insert {chain : List (TableNode α)} (data : α) (key : String)
    (h : (chain.map TableNode.key).Nodup) :
    ((insert chain data key).map TableNode.key).Nodup := by
  induction chain with
  | nil => simp [insert]
  | cons node rest ih =>
      obtain ⟨hnot, hrest⟩ := List.nodup_cons.mp h
      by_cases hk : key = node.key
      · rw [insert, if_pos hk]
        exact List.nodup_cons.mpr ⟨hnot, hrest⟩
      · rw [insert, if_neg hk, List.map_cons, List.nodup_cons]
        refine ⟨fun hmem => ?_, ih hrest⟩
        rcases mem_keys_insert hmem with h | h
        · exact hk h.symm
        · exact hnot h

/-- `HashMap`, with the two facts every operation maintains. -/
structure HashMap (α : Type) where
  table : Vector (List (TableNode α)) tableSize
  /-- Every node is in the bucket of its key. -/
  placed : ∀ (i : Fin tableSize), ∀ node ∈ table[i], bucketIndex node.key = i
  /-- No bucket holds a key twice. -/
  nodup : ∀ (i : Fin tableSize), (table[i].map TableNode.key).Nodup

/-- `hashmap_new`. -/
def hashmapNew : HashMap α where
  table := Vector.replicate tableSize []
  placed := by intro i node h; simp at h
  nodup := by intro i; simp

/-- `hashmap_add`. -/
def hashmapAdd (map : HashMap α) (data : α) (key : String) : HashMap α where
  table := map.table.set (bucketIndex key) (insert map.table[bucketIndex key] data key)
  placed := by
    intro i node h
    simp only [Fin.getElem_fin, Vector.getElem_set] at h
    split at h
    · rename_i hi
      have hmem : node.key ∈ (insert map.table[bucketIndex key] data key).map TableNode.key :=
        List.mem_map_of_mem h
      rcases mem_keys_insert hmem with hk | hk
      · rw [hk]; exact Fin.ext hi
      · obtain ⟨node', hnode', hkey⟩ := List.mem_map.mp hk
        rw [← hkey, map.placed _ node' hnode']
        exact Fin.ext hi
    · exact map.placed i node (by simpa using h)
  nodup := by
    intro i
    simp only [Fin.getElem_fin, Vector.getElem_set]
    split
    · exact nodup_insert data key (map.nodup _)
    · exact map.nodup i

/-- `hashmap_get`: the data of the key, or `NULL`. -/
def hashmapGet (map : HashMap α) (key : String) : Option α :=
  find map.table[bucketIndex key] key

/-- `symtab_clone`: add every node of every bucket, in order, to a new map. -/
def symtabClone (symtab : HashMap α) : HashMap α :=
  symtab.table.toList.foldl
    (fun clone chain => chain.foldl (fun clone node => hashmapAdd clone node.data node.key) clone)
    hashmapNew

/-! ### The map is a map

An added key has its data, and the others have what they had.
-/

@[simp] theorem hashmapGet_new (key : String) : hashmapGet (hashmapNew : HashMap α) key = none := by
  simp [hashmapGet, hashmapNew, find]

theorem hashmapGet_add (map : HashMap α) (data : α) (key key' : String) :
    hashmapGet (hashmapAdd map data key) key'
      = if key' = key then some data else hashmapGet map key' := by
  simp only [hashmapGet, hashmapAdd, Fin.getElem_fin, Vector.getElem_set]
  by_cases hb : (bucketIndex key).val = (bucketIndex key').val
  · rw [if_pos hb, find_insert]
    have hbucket : bucketIndex key = bucketIndex key' := Fin.ext hb
    simp only [hbucket]
  · rw [if_neg hb, if_neg]
    rintro rfl
    exact hb rfl

/-! ### A clone answers every lookup the same

`symtab_clone` adds every node of the original to a new map; the order in a chain does not
matter.
-/

theorem find_eq_none {chain : List (TableNode α)} {key : String}
    (h : key ∉ chain.map TableNode.key) : find chain key = none := by
  induction chain with
  | nil => rfl
  | cons node rest ih =>
      simp only [List.map_cons, List.mem_cons, not_or] at h
      rw [find, if_neg (Ne.symm h.1), ih h.2]

/-- Adding the nodes of one chain puts the chain's answers in front of the map's. -/
private theorem get_addChain (chain : List (TableNode α)) :
    ∀ (map : HashMap α), (chain.map TableNode.key).Nodup → ∀ key,
      hashmapGet (chain.foldl (fun m node => hashmapAdd m node.data node.key) map) key
        = (find chain key).or (hashmapGet map key) := by
  induction chain with
  | nil => intro map _ key; simp [find]
  | cons node rest ih =>
      intro map hnd key
      obtain ⟨hnot, hrest⟩ := List.nodup_cons.mp hnd
      rw [List.foldl_cons, ih _ hrest, hashmapGet_add, find]
      by_cases hk : key = node.key
      · subst hk
        rw [find_eq_none hnot]
        simp
      · rw [if_neg hk, if_neg (Ne.symm hk)]

/-- Adding several chains: the last one that knows the key answers. -/
private theorem get_addChains (chains : List (List (TableNode α))) :
    ∀ (map : HashMap α), (∀ chain ∈ chains, (chain.map TableNode.key).Nodup) → ∀ key d,
      (hashmapGet map key = d ∨ ∃ chain ∈ chains, find chain key = d ∧ d ≠ none) →
      (hashmapGet map key = none ∨ hashmapGet map key = d) →
      (∀ chain ∈ chains, find chain key = none ∨ find chain key = d) →
      hashmapGet (chains.foldl (fun m chain =>
        chain.foldl (fun m node => hashmapAdd m node.data node.key) m) map) key = d := by
  induction chains with
  | nil =>
      intro map _ key d h _ _
      rcases h with h | ⟨chain, hmem, -⟩
      · exact h
      · simp at hmem
  | cons chain rest ih =>
      intro map hnd key d h hmap hall
      have hget := get_addChain chain map (hnd chain (by simp)) key
      refine ih _ (fun c hc => hnd c (by simp [hc])) key d ?_ ?_ (fun c hc => hall c (by simp [hc]))
      · rcases hall chain (by simp) with hn | hs
        · rcases h with h | ⟨c, hc, hf, hd⟩
          · exact Or.inl (by rw [hget, hn]; simpa using h)
          · rcases List.mem_cons.mp hc with rfl | hc
            · exact absurd (hf.symm.trans hn) hd
            · exact Or.inr ⟨c, hc, hf, hd⟩
        · cases d with
          | none =>
              rcases hmap with hm | hm <;> exact Or.inl (by rw [hget, hs]; simpa using hm)
          | some x => exact Or.inl (by rw [hget, hs]; rfl)
      · rcases hall chain (by simp) with hn | hs
        · rcases hmap with hm | hm
          · exact Or.inl (by rw [hget, hn, hm]; rfl)
          · exact Or.inr (by rw [hget, hn, hm]; rfl)
        · cases d with
          | none =>
              rcases hmap with hm | hm <;> exact Or.inl (by rw [hget, hs]; simpa using hm)
          | some x => exact Or.inr (by rw [hget, hs]; rfl)

@[simp] theorem hashmapGet_clone (map : HashMap α) (key : String) :
    hashmapGet (symtabClone map) key = hashmapGet map key := by
  have hbucket : ∀ chain ∈ map.table.toList, ∃ i : Fin tableSize, chain = map.table[i] := by
    intro chain hmem
    obtain ⟨i, hi, rfl⟩ := List.getElem_of_mem hmem
    exact ⟨⟨i, by simpa using hi⟩, by simp⟩
  refine get_addChains _ _ ?_ key _ ?_ ?_ ?_
  · intro chain hmem
    obtain ⟨i, rfl⟩ := hbucket chain hmem
    exact map.nodup i
  · cases hg : hashmapGet map key with
    | none => exact Or.inl (by simp)
    | some d =>
        refine Or.inr ⟨map.table[bucketIndex key], ?_, hg, by simp⟩
        exact Vector.mem_toList_iff.mpr (Vector.getElem_mem _)
  · exact Or.inl (by simp)
  · intro chain hmem
    obtain ⟨i, rfl⟩ := hbucket chain hmem
    by_cases hi : bucketIndex key = i
    · subst hi; exact Or.inr rfl
    · refine Or.inl (find_eq_none fun hk => hi ?_)
      obtain ⟨node, hnode, rfl⟩ := List.mem_map.mp hk
      exact map.placed i node hnode

end MyLang
