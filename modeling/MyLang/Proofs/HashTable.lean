/-
The hash map on the heap does what the map of chains does.

`Holds` ties a table of addresses to a map of chains, with each bucket of each map the
owner of its nodes.  A function that works on one map changes no cell of another, so the
others still hold what they held: that is `Keeps`, and with it a clone and its original go
their own ways.  What the map of chains answers is known, and so what is answered here.

`Lib/LinkedHeap.lean` is about lists in a heap, without a word about hash maps: a chain
from an address, the nodes that it owns, and what a change of one node does to the chains
of others.  The functions of `hashmap.c` are loops along such a chain.  `insert` ends at
the node with the key or behind the last one, and `Inserted` has both cases, so that
`insert_owned` can say what has become of all buckets at once.

A run is over a pool of maps, made, cloned, added to and given back in any order.  What
each map should answer is said by the adds it has seen, a clone having seen those of its
original.
-/
import Mathlib.Data.List.FinRange
import MyLang.HashTable

namespace MyLang

namespace Linked

open LinkedHeap

variable {α : Type} {heap : Heap (TableNode α)} {w : World (TableNode α) (Nat × Fin tableSize)}
  {p prev : Option Nat} {l l1 l2 : List (Nat × TableNode α)} {key : String} {data : α}
  {n a fuel : Nat}
  {b : TableNode α} {k : Nat × Fin tableSize} {id id' : Nat} {map : Linked.HashMap}
  {m : MyLang.HashMap α}

/-! ### `find` and `insert`

Both go along a chain until they find the key; `insert` takes the last node on the way.
-/

/-- `find` answers what is found in the list of the nodes. -/
theorem find_chain (h : Chain heap p l) (hn : l.length < n) :
    find key n p heap = some (MyLang.find (l.map Prod.snd) key, heap) := by
  induction l generalizing p n with
  | nil =>
      obtain ⟨n, rfl⟩ := Nat.exists_eq_succ_of_ne_zero (by omega : n ≠ 0)
      obtain rfl : p = none := h
      rfl
  | cons x l ih =>
      obtain ⟨n, rfl⟩ := Nat.exists_eq_succ_of_ne_zero (by omega : n ≠ 0)
      obtain ⟨rfl, next, hget, h⟩ := h
      rw [find, bind_run (deref_run hget), List.map_cons, MyLang.find]
      by_cases hk : x.2.key = key
      · rw [if_pos hk, if_pos hk]
        rfl
      · rw [if_neg hk, if_neg hk]
        rw [List.length_cons] at hn
        exact ih h (by omega)

/-- What `insert` makes of the nodes `l`, with a new node at `n`. -/
structure Inserted (heap heap' : Heap (TableNode α)) (l l' : List (Nat × TableNode α)) (data : α)
    (key : String) (n : Nat) : Prop where
  nodes : l'.map Prod.snd = MyLang.insert (l.map Prod.snd) data key
  addresses : ∀ x ∈ addrs l', x ∈ addrs l ∨ x = n
  get : ∀ x, x ∉ addrs l → x ≠ n → heap'.get x = heap.get x

/-- The node with the key gets the data, and the new node is given back. -/
theorem insertLoop_overwrite (prev : Option Nat) (fuel : Nat)
    (h : Chain heap p (l1 ++ (a, b) :: l2)) (hn : heap.get n = some ⟨⟨key, data⟩, none⟩)
    (hnot : n ∉ addrs (l1 ++ (a, b) :: l2)) (hk : key = b.key) :
    ∃ heap', insertLoop n data key (fuel + 1) prev (some a) heap = some ((), heap') ∧
      Chain heap' p (l1 ++ (a, { b with data }) :: l2) ∧
      Inserted heap heap' ((a, b) :: l2) ((a, { b with data }) :: l2) data key n ∧
        heap'.fresh = heap.fresh := by
  obtain ⟨-, next, hget, hrest⟩ := h.suffix
  have hnd := h.nodup
  simp only [addrs, List.map_append, List.map_cons, List.mem_append, List.mem_cons, not_or,
    List.nodup_append, List.nodup_cons] at hnot hnd
  obtain ⟨hn1, hna, hn2⟩ := hnot
  obtain ⟨-, ⟨ha2, -⟩, hdisj⟩ := hnd
  obtain ⟨heap1, hw, hget1, hfresh1⟩ := write_run hget ⟨{ b with data }, next⟩
  have hnget : heap1.get n = some ⟨⟨key, data⟩, none⟩ := by
    rw [hget1, Function.update_of_ne hna, hn]
  obtain ⟨heap2, hf, hget2, hfresh2⟩ := free_run hnget
  have hsame : ∀ x, x ≠ a → x ≠ n → heap2.get x = heap.get x := by
    intro x hxa hxn
    rw [hget2, Function.update_of_ne hxn, hget1, Function.update_of_ne hxa]
  refine ⟨heap2, ?_, ?_, ⟨?_, ?_, ?_⟩, hfresh2.trans hfresh1⟩
  · rw [insertLoop, bind_run (deref_run hget), if_pos hk, bind_run hw, hf]
  · refine h.write ?_ (fun x hx => ?_) (hrest.congr fun x hx => ?_)
    · rw [hget2, Function.update_of_ne (Ne.symm hna), hget1, Function.update_self]
    · exact hsame x (fun heq => hdisj x hx a (Or.inl rfl) heq) (fun heq => hn1 (heq ▸ hx))
    · exact hsame x (fun heq => ha2 (heq ▸ hx)) (fun heq => hn2 (heq ▸ hx))
  · simp [MyLang.insert, hk]
  · exact fun x hx => Or.inl hx
  · intro x hx hxn
    exact hsame x (fun heq => hx (by simp [heq])) hxn

/-- Behind the last node comes the new one. -/
theorem insertLoop_last (prev : Option Nat) (fuel : Nat) (h : Chain heap p (l1 ++ [(a, b)]))
    (hn : heap.get n = some ⟨⟨key, data⟩, none⟩) (hnot : n ∉ addrs (l1 ++ [(a, b)]))
    (hk : key ≠ b.key) :
    ∃ heap', insertLoop n data key (fuel + 2) prev (some a) heap = some ((), heap') ∧
      Chain heap' p (l1 ++ [(a, b), (n, ⟨key, data⟩)]) ∧
      Inserted heap heap' [(a, b)] [(a, b), (n, ⟨key, data⟩)] data key n ∧
        heap'.fresh = heap.fresh := by
  obtain ⟨-, next, hget, rfl⟩ := h.suffix
  have hnd := h.nodup
  simp only [addrs, List.map_append, List.map_cons, List.map_nil, List.mem_append, List.mem_cons,
    List.not_mem_nil, or_false, not_or, List.nodup_append] at hnot hnd
  obtain ⟨hn1, hna⟩ := hnot
  obtain ⟨heap1, hw, hget1, hfresh1⟩ := write_run hget ⟨b, some n⟩
  refine ⟨heap1, ?_, ?_, ⟨?_, ?_, ?_⟩, hfresh1⟩
  · rw [insertLoop, bind_run (deref_run hget), if_neg hk, insertLoop, bind_run (deref_run hget), hw]
  · refine h.write ?_ (fun x hx => ?_) ⟨rfl, none, ?_, rfl⟩
    · rw [hget1, Function.update_self]
    · rw [hget1, Function.update_of_ne (fun heq => hnd.2.2 x hx a rfl heq)]
    · rw [hget1, Function.update_of_ne hna, hn]
  · simp [MyLang.insert, hk]
  · intro x hx
    simpa using hx
  · intro x hx _
    rw [hget1, Function.update_of_ne (by simpa using hx)]

/-- The loop of `insert`, from a node of the chain on. -/
theorem insertLoop_chain (prev : Option Nat) (fuel : Nat) (h : Chain heap p (l1 ++ (a, b) :: l2))
    (hn : heap.get n = some ⟨⟨key, data⟩, none⟩) (hnot : n ∉ addrs (l1 ++ (a, b) :: l2))
    (hfuel : l2.length + 1 < fuel) :
    ∃ heap' l', insertLoop n data key fuel prev (some a) heap = some ((), heap') ∧
      Chain heap' p (l1 ++ l') ∧ Inserted heap heap' ((a, b) :: l2) l' data key n ∧
        heap'.fresh = heap.fresh := by
  -- on the nodes that are left of the chain
  induction l2 generalizing l1 a b prev fuel with
  | nil =>
      obtain ⟨fuel, rfl⟩ := Nat.exists_eq_add_of_le' (show 2 ≤ fuel by omega)
      by_cases hk : key = b.key
      · obtain ⟨heap', hrun, hc, hi, hf⟩ := insertLoop_overwrite prev (fuel + 1) h hn hnot hk
        exact ⟨heap', _, hrun, hc, hi, hf⟩
      · obtain ⟨heap', hrun, hc, hi, hf⟩ := insertLoop_last prev fuel h hn hnot hk
        exact ⟨heap', _, hrun, hc, hi, hf⟩
  | cons y l2 ih =>
      obtain ⟨fuel, rfl⟩ := Nat.exists_eq_add_of_le' (show 1 ≤ fuel by omega)
      by_cases hk : key = b.key
      · obtain ⟨heap', hrun, hc, hi, hf⟩ := insertLoop_overwrite prev fuel h hn hnot hk
        exact ⟨heap', _, hrun, hc, hi, hf⟩
      · obtain ⟨-, next, hget, hrest⟩ := h.suffix
        obtain ⟨rfl, -⟩ := hrest
        -- the loop goes on from the next node, with one more behind it
        have happ : l1 ++ (a, b) :: y :: l2 = (l1 ++ [(a, b)]) ++ (y.1, y.2) :: l2 := by simp
        rw [happ] at h hnot
        rw [List.length_cons] at hfuel
        obtain ⟨heap', l', hrun, hc, hi, hf⟩ := ih (some a) fuel h hnot (by omega)
        refine ⟨heap', (a, b) :: l', ?_, ?_, ⟨?_, ?_, ?_⟩, hf⟩
        · rw [insertLoop, bind_run (deref_run hget), if_neg hk, hrun]
        · simpa using hc
        · rw [List.map_cons, List.map_cons, MyLang.insert, if_neg hk, hi.nodes]
        · intro x hx
          rcases List.mem_cons.mp hx with rfl | hx
          · exact Or.inl List.mem_cons_self
          · exact (hi.addresses x hx).imp_left (List.mem_cons_of_mem _)
        · intro x hx hxn
          exact hi.get x (fun hmem => hx (List.mem_cons_of_mem _ hmem)) hxn

/-- `insert` on a bucket, which may be empty. -/
theorem insert_chain (h : Chain heap p l) (data : α) (key : String) :
    ∃ heap' p' l', insert p data key heap = some (p', heap') ∧ Chain heap' p' l' ∧
      Inserted heap heap' l l' data key heap.fresh ∧ heap'.fresh = heap.fresh + 1 := by
  have hmalloc : makeTableNode none data key heap = some (heap.alloc ⟨⟨key, data⟩, none⟩) := rfl
  obtain ⟨n, heap1, halloc, rfl, hget1, hfresh1⟩ :
    ∃ n heap1, heap.alloc ⟨⟨key, data⟩, none⟩ = (n, heap1) ∧
      n = heap.fresh ∧ heap1.get = Function.update heap.get heap.fresh (some ⟨⟨key, data⟩, none⟩) ∧
      heap1.fresh = heap.fresh + 1 := ⟨_, _, rfl, rfl, rfl, rfl⟩
  rw [halloc] at hmalloc
  have hn : heap1.get heap.fresh = some ⟨⟨key, data⟩, none⟩ := by rw [hget1, Function.update_self]
  have hsame : ∀ x, x ≠ heap.fresh → heap1.get x = heap.get x := by
    intro x hx
    rw [hget1, Function.update_of_ne hx]
  cases l with
  | nil =>
      obtain rfl : p = none := h
      refine ⟨heap1, some heap.fresh, [(heap.fresh, ⟨key, data⟩)], ?_, ⟨rfl, none, hn, rfl⟩,
        ⟨rfl, ?_, ?_⟩, hfresh1⟩
      · rw [insert, bind_run hmalloc, if_pos rfl]
        rfl
      · intro x hx
        exact Or.inr (by simpa using hx)
      · exact fun x _ hx => hsame x hx
  | cons x l =>
      have hnot : heap.fresh ∉ addrs (x :: l) := fun hmem => absurd (h.lt_fresh hmem) (by omega)
      have hlen := h.length_le
      have h1 : Chain heap1 p ([] ++ (x.1, x.2) :: l) := h.congr fun y hy => hsame y fun heq =>
        hnot (heq ▸ hy)
      obtain ⟨rfl, -⟩ := h
      obtain ⟨heap2, l', hrun, hc, hi, hf⟩ := insertLoop_chain none (heap1.fresh + 1) h1 hn hnot
        (by rw [List.length_cons] at hlen; omega)
      refine ⟨heap2, some x.1, l', ?_, hc, ⟨hi.nodes, hi.addresses, ?_⟩, hf.trans hfresh1⟩
      · rw [insert, bind_run hmalloc, if_neg (by simp), bind_run cellBound_run,
          bind_run hrun]
        rfl
      · intro y hy hyn
        rw [hi.get y hy hyn, hsame y hyn]

/-! ### One map among others

The nodes of the other maps are in none of the buckets of this one.
-/

private theorem get_eq {β : Type} {n : Nat} (v : Vector β n) (b : Fin n) : v.get b = v[b] := rfl

/-- The nodes of the table of the map `id`, bucket by bucket, are those of a map of chains. -/
def Holds (w : World (TableNode α) (Nat × Fin tableSize)) (id : Nat) (map : Linked.HashMap)
    (m : MyLang.HashMap α) : Prop :=
  ∀ b : Fin tableSize, ∃ l, Owned w (id, b) (map.table.get b) l ∧ l.map Prod.snd = m.table.get b

theorem Holds.keep {w' : World (TableNode α) (Nat × Fin tableSize)}
    {mine : Nat × Fin tableSize → Prop} (h : Holds w id map m) (hk : Keeps mine w w')
    (hid : ∀ b, ¬ mine (id, b)) : Holds w' id map m := by
  intro b
  obtain ⟨l, ho, hl⟩ := h b
  exact ⟨l, hk _ (hid b) _ _ ho, hl⟩

theorem holds_new : Holds w id hashmapNew (MyLang.hashmapNew : MyLang.HashMap α) := by
  intro b
  exact ⟨[], ⟨by simp [hashmapNew, get_eq, Chain], by simp⟩, by simp [MyLang.hashmapNew, get_eq]⟩

/-- `insert` changes nodes of its own map only. -/
theorem insert_owned (h : Owned w k p l) (data : α) (key : String) :
    ∃ (w' : World (TableNode α) (Nat × Fin tableSize)) (p' : Option Nat)
      (l' : List (Nat × TableNode α)),
      insert p data key w.heap = some (p', w'.heap) ∧ Owned w' k p' l' ∧
      l'.map Prod.snd = MyLang.insert (l.map Prod.snd) data key ∧ Keeps (· = k) w w' := by
  obtain ⟨heap', p', l', hrun, hc, hi, hf⟩ := insert_chain h.chain data key
  refine ⟨⟨heap', Function.update w.owner w.heap.fresh (some k)⟩, p', l', hrun,
    ⟨hc, fun a ha => ?_⟩, hi.nodes, ?_⟩
  · rcases hi.addresses a ha with ha | rfl
    · have hlt := h.chain.lt_fresh ha
      show Function.update w.owner w.heap.fresh (some k) a = some k
      rw [Function.update_of_ne (by omega)]
      exact h.owner a ha
    · exact Function.update_self ..
  · refine Keeps.of_get (fun a => ?_) fun a ha => Function.update_of_ne (by omega) ..
    by_cases hmem : a ∈ addrs l
    · exact Or.inr (Or.inl (h.owner a hmem))
    · by_cases hn : a = w.heap.fresh
      · exact Or.inr (Or.inr (by omega))
      · exact Or.inl (hi.get a hmem hn)

/-- **`hashmap_add` adds to its map, and to no other.** -/
theorem hashmapAdd_holds (h : Holds w id map m) (data : α) (key : String) :
    ∃ (w' : World (TableNode α) (Nat × Fin tableSize)) (map' : Linked.HashMap),
      hashmapAdd map data key w.heap = some (map', w'.heap) ∧
      Holds w' id map' (MyLang.hashmapAdd m data key) ∧ Keeps (·.1 = id) w w' := by
  obtain ⟨l, ho, hl⟩ := h (bucketIndex key)
  obtain ⟨w', p', l', hrun, ho', hl', hk⟩ := insert_owned ho data key
  refine ⟨w', { map with table := map.table.set (bucketIndex key) p' }, ?_, fun b => ?_,
    hk.mono fun k hk => by rw [hk]⟩
  · rw [hashmapAdd, bind_run hrun]
    rfl
  · by_cases hb : b = bucketIndex key
    · refine ⟨l', ?_, ?_⟩
      · simpa [hb, get_eq] using ho'
      · simpa [hb, MyLang.hashmapAdd, get_eq, hl] using hl'
    · obtain ⟨l2, ho2, hl2⟩ := h b
      have hne : (bucketIndex key).val ≠ b.val := fun heq => hb (Fin.ext heq.symm)
      refine ⟨l2, ?_, ?_⟩
      · simpa [get_eq, Vector.getElem_set, hne] using hk _
          (fun heq => hb (Prod.mk.inj heq).2) _ _ ho2
      · simpa [MyLang.hashmapAdd, get_eq, Vector.getElem_set, hne] using hl2

/-- **`hashmap_get` answers what the map of chains does.** -/
theorem hashmapGet_holds (h : Holds w id map m) (key : String) :
    hashmapGet map key w.heap = some (MyLang.hashmapGet m key, w.heap) := by
  obtain ⟨l, ho, hl⟩ := h (bucketIndex key)
  have hlen := ho.chain.length_le
  rw [hashmapGet, bind_run cellBound_run,
    find_chain ho.chain (by omega), hl]
  rfl

/-! ### Clones

A clone is made by adding the nodes of the original one by one, bucket by bucket.
-/

/-- What adding the nodes of a chain makes of a map. -/
def addChain (m : MyLang.HashMap α) (chain : List (TableNode α)) : MyLang.HashMap α :=
  chain.foldl (fun clone node => MyLang.hashmapAdd clone node.data node.key) m

/-- The nodes of a bucket are added to the clone one by one. -/
theorem cloneChain_holds (hid : k.1 ≠ id) (ho : Owned w k p l) (h : Holds w id map m)
    (hn : l.length < n) :
    ∃ (w' : World (TableNode α) (Nat × Fin tableSize)) (map' : Linked.HashMap),
      cloneChain n map p w.heap = some (map', w'.heap) ∧
      Holds w' id map' (addChain m (l.map Prod.snd)) ∧ Keeps (·.1 = id) w w' := by
  induction l generalizing w map m p n with
  | nil =>
      obtain ⟨n, rfl⟩ := Nat.exists_eq_add_of_le' (show 1 ≤ n by omega)
      obtain rfl : p = none := ho.chain
      exact ⟨w, map, rfl, h, Keeps.refl⟩
  | cons x l ih =>
      rw [List.length_cons] at hn
      obtain ⟨n, rfl⟩ := Nat.exists_eq_add_of_le' (show 1 ≤ n by omega)
      have hx := ho.chain
      obtain ⟨rfl, next, hget, -⟩ := hx
      obtain ⟨w1, map1, hadd, h1, hk1⟩ := hashmapAdd_holds h x.2.data x.2.key
      -- the nodes that are still to be added are where they were
      obtain ⟨⟨-, next1, hget1, hc1⟩, howner⟩ := hk1 k hid _ _ ho
      have hrest : Owned w1 k next1 l := ⟨hc1, fun a ha => howner a (List.mem_cons_of_mem _ ha)⟩
      obtain ⟨w2, map2, hrun, h2, hk2⟩ := ih (n := n) hrest h1 (by omega)
      refine ⟨w2, map2, ?_, h2, hk1.trans hk2⟩
      rw [cloneChain, bind_run (deref_run hget), bind_run hadd, bind_run (deref_run hget1), hrun]

/-- Some buckets of a map, one after another. -/
theorem cloneBuckets_holds {src : Linked.HashMap} {msrc : MyLang.HashMap α}
    (bs : List (Fin tableSize)) (hid : id' ≠ id) (hsrc : Holds w id' src msrc)
    (h : Holds w id map m) :
    ∃ (w' : World (TableNode α) (Nat × Fin tableSize)) (map' : Linked.HashMap),
      (bs.map src.table.get).foldlM cloneBucket map w.heap = some (map', w'.heap) ∧
      Holds w' id map' ((bs.map msrc.table.get).foldl addChain m) ∧ Keeps (·.1 = id) w w' := by
  induction bs generalizing w map m with
  | nil => exact ⟨w, map, rfl, h, Keeps.refl⟩
  | cons b bs ih =>
      obtain ⟨l, ho, hl⟩ := hsrc b
      have hlen := ho.chain.length_le
      obtain ⟨w1, map1, hrun1, h1, hk1⟩ :=
        cloneChain_holds (n := w.heap.fresh + 1) hid ho h (by omega)
      obtain ⟨w2, map2, hrun2, h2, hk2⟩ := ih (hsrc.keep hk1 fun _ => hid) h1
      refine ⟨w2, map2, ?_, ?_, hk1.trans hk2⟩
      · rw [List.map_cons, List.foldlM_cons, bind_run (y := map1), hrun2]
        rw [cloneBucket, bind_run cellBound_run, hrun1]
      · rw [List.map_cons, List.foldl_cons, ← hl]
        exact h2

theorem toList_eq {β : Type} {n : Nat} (v : Vector β n) :
    v.toList = (List.finRange n).map v.get := by
  refine List.ext_getElem (by simp) fun i h1 h2 => ?_
  simp [get_eq]

/-- **`symtab_clone` makes another map with the same answers, of new nodes.** -/
theorem symtabClone_holds (id : Nat) (hid : id' ≠ id) (h : Holds w id' map m) :
    ∃ (w' : World (TableNode α) (Nat × Fin tableSize)) (clone : Linked.HashMap),
      symtabClone map w.heap = some (clone, w'.heap) ∧ Holds w' id clone (MyLang.symtabClone m) ∧
      Keeps (·.1 = id) w w' := by
  obtain ⟨w', clone, hrun, hc, hk⟩ := cloneBuckets_holds (List.finRange tableSize) hid h holds_new
  refine ⟨w', clone, ?_, ?_, hk⟩
  · rw [symtabClone, toList_eq, hrun]
  · rw [← toList_eq] at hc
    exact hc

/-! ### Giving a map back

The nodes of a bucket are given back from the first on, each after its next one was read.
-/

/-- The nodes of a bucket are given back one by one. -/
theorem freeChain_owned (ho : Owned w k p l) (hn : l.length < n) :
    ∃ w' : World (TableNode α) (Nat × Fin tableSize), freeChain n p w.heap = some ((), w'.heap) ∧
      Keeps (· = k) w w' := by
  induction l generalizing w p n with
  | nil =>
      obtain ⟨n, rfl⟩ := Nat.exists_eq_add_of_le' (show 1 ≤ n by omega)
      obtain rfl : p = none := ho.chain
      exact ⟨w, rfl, Keeps.refl⟩
  | cons x l ih =>
      rw [List.length_cons] at hn
      obtain ⟨n, rfl⟩ := Nat.exists_eq_add_of_le' (show 1 ≤ n by omega)
      have hnd := List.nodup_cons.mp ho.chain.nodup
      obtain ⟨rfl, next, hget, hrest⟩ := ho.chain
      obtain ⟨heap1, hf, hget1, hfresh1⟩ := free_run hget
      let w1 : World (TableNode α) (Nat × Fin tableSize) := ⟨heap1, w.owner⟩
      have hk1 : Keeps (· = k) w w1 := by
        refine Keeps.of_get (fun a => ?_) fun _ _ => rfl
        by_cases ha : a = x.1
        · exact Or.inr (Or.inl (ha ▸ ho.owner x.1 List.mem_cons_self))
        · left
          show heap1.get a = _
          rw [hget1, Function.update_of_ne ha]
      have ho1 : Owned w1 k next l := by
        refine ⟨hrest.congr fun a ha => ?_, fun a ha => ho.owner a (List.mem_cons_of_mem _ ha)⟩
        show heap1.get a = _
        rw [hget1, Function.update_of_ne (show a ≠ x.1 from fun heq => hnd.1 (heq ▸ ha))]
      obtain ⟨w2, hrun, hk2⟩ := ih (n := n) ho1 (by omega)
      refine ⟨w2, ?_, hk1.trans hk2⟩
      rw [freeChain, bind_run (deref_run hget), bind_run hf, hrun]

/-- The buckets of a map are given back one by one. -/
theorem freeBuckets_keeps (id : Nat) (map : Linked.HashMap) (bs : List (Fin tableSize))
    (hnd : bs.Nodup) (h : ∀ b ∈ bs, ∃ l, Owned w (id, b) (map.table.get b) l) :
    ∃ w' : World (TableNode α) (Nat × Fin tableSize),
      forM (bs.map map.table.get) freeBucket w.heap = some ((), w'.heap) ∧
        Keeps (·.1 = id) w w' := by
  induction bs generalizing w with
  | nil => exact ⟨w, rfl, Keeps.refl⟩
  | cons b bs ih =>
      obtain ⟨hnot, hnd⟩ := List.nodup_cons.mp hnd
      obtain ⟨l, ho⟩ := h b List.mem_cons_self
      have hlen := ho.chain.length_le
      obtain ⟨w1, hrun1, hk1⟩ := freeChain_owned (n := w.heap.fresh + 1) ho (by omega)
      obtain ⟨w2, hrun2, hk2⟩ := ih (w := w1) hnd fun b' hb' => by
        obtain ⟨l', ho'⟩ := h b' (List.mem_cons_of_mem _ hb')
        exact ⟨l', hk1 _ (fun heq => hnot ((Prod.mk.inj heq).2 ▸ hb')) _ _ ho'⟩
      refine ⟨w2, ?_, (hk1.mono fun k hk => by rw [hk]).trans hk2⟩
      rw [List.map_cons, List.forM_cons, bind_run (y := ()), hrun2]
      rw [freeBucket, bind_run cellBound_run, hrun1]

/-- **`hashmap_free` gives back the nodes of its map, and no other.** -/
theorem hashmapFree_keeps (h : Holds w id map m) :
    ∃ w' : World (TableNode α) (Nat × Fin tableSize), hashmapFree map w.heap = some ((), w'.heap) ∧
      Keeps (·.1 = id) w w' := by
  obtain ⟨w', hrun, hk⟩ := freeBuckets_keeps (w := w) id map (List.finRange tableSize)
    (List.nodup_finRange _) fun b _ => by
      obtain ⟨l, ho, -⟩ := h b
      exact ⟨l, ho⟩
  exact ⟨w', by rw [hashmapFree, toList_eq, hrun], hk⟩

end Linked

/-! ### Runs

All maps there are lie in one heap, and each operation changes one of them.
-/

section Runs

open LinkedHeap

open Linked (Holds holds_new hashmapAdd_holds hashmapGet_holds symtabClone_holds)

variable {α : Type} {w : World (TableNode α) (Nat × Fin tableSize)} {id : Nat}
  {map : Linked.HashMap}
  {m : HashMap α} {maps : List Linked.HashMap} {histories : List (List (α × String))}
  {adds : List (α × String)}

theorem lastAdd_concat (adds : List (α × String)) (data : α) (key key' : String) :
    lastAdd (adds ++ [(data, key)]) key' = if key' = key then some data else lastAdd adds key' := by
  rw [lastAdd, lastAdd, List.reverse_append, List.reverse_singleton, List.singleton_append,
    List.find?_cons]
  by_cases hk : key' = key
  · simp [hk]
  · simp [hk, Ne.symm hk]

/-- A map answers by the adds it has seen. -/
def Answers (m : HashMap α) (adds : List (α × String)) : Prop :=
  ∀ key, hashmapGet m key = lastAdd adds key

theorem answers_new : Answers (hashmapNew : HashMap α) [] := fun key => hashmapGet_new key

theorem Answers.add (h : Answers m adds) (data : α) (key : String) :
    Answers (hashmapAdd m data key) (adds ++ [(data, key)]) := by
  intro key'
  rw [hashmapGet_add, lastAdd_concat, h key']

theorem Answers.clone (h : Answers m adds) : Answers (symtabClone m) adds := by
  intro key
  rw [hashmapGet_clone, h key]

/-- The maps there are answer by the adds they have seen. -/
structure PoolHolds (w : World (TableNode α) (Nat × Fin tableSize)) (maps : List Linked.HashMap)
    (histories : List (List (α × String))) : Prop where
  length : maps.length = histories.length
  holds : ∀ (i : Nat) map adds, maps[i]? = some map → histories[i]? = some adds →
    ∃ m : HashMap α, Holds w i map m ∧ Answers m adds

/-- One more map. -/
theorem PoolHolds.push {w' : World (TableNode α) (Nat × Fin tableSize)}
    (h : PoolHolds w maps histories) (hk : Keeps (·.1 = maps.length) w w')
    (hm : Holds w' maps.length map m) (ha : Answers m adds) :
    PoolHolds w' (maps ++ [map]) (histories ++ [adds]) := by
  refine ⟨by
    rw [List.length_append, List.length_append, h.length]; rfl, fun i map' adds' hi hi' => ?_⟩
  by_cases hlt : i < maps.length
  · rw [List.getElem?_append_left hlt] at hi
    rw [List.getElem?_append_left (h.length ▸ hlt)] at hi'
    obtain ⟨m', hm', ha'⟩ := h.holds i map' adds' hi hi'
    exact ⟨m', hm'.keep hk fun _ => by simp; omega, ha'⟩
  · have hle := (List.getElem?_eq_some_iff.mp hi).1
    rw [List.length_append, List.length_singleton] at hle
    obtain rfl : i = maps.length := by omega
    rw [List.getElem?_concat_length] at hi
    rw [h.length, List.getElem?_concat_length] at hi'
    obtain rfl := Option.some.inj hi
    obtain rfl := Option.some.inj hi'
    exact ⟨m, hm, ha⟩

/-- One map has changed. -/
theorem PoolHolds.set {w' : World (TableNode α) (Nat × Fin tableSize)} {i : Nat} {data : α}
    {key : String} (h : PoolHolds w maps histories) (hk : Keeps (·.1 = i) w w')
    (hm : Holds w' i map m) (ha : ∀ adds, histories[i]? = some adds →
      Answers m (adds ++ [(data, key)])) :
    PoolHolds w' (maps.set i map) (histories.modify i (· ++ [(data, key)])) := by
  refine ⟨by rw [List.length_set, List.length_modify, h.length], fun j map' adds' hj hj' => ?_⟩
  by_cases hij : i = j
  · subst hij
    rw [List.getElem?_modify_eq] at hj'
    obtain ⟨adds, hadds, rfl⟩ := Option.map_eq_some_iff.mp hj'
    have hlt : i < maps.length := by simpa using (List.getElem?_eq_some_iff.mp hj).1
    rw [List.getElem?_set_self hlt] at hj
    obtain rfl := Option.some.inj hj
    exact ⟨m, hm, ha adds hadds⟩
  · rw [List.getElem?_modify_ne _ _ hij] at hj'
    rw [List.getElem?_set_ne hij] at hj
    obtain ⟨m', hm', ha'⟩ := h.holds j map' adds' hj hj'
    exact ⟨m', hm'.keep hk fun _ => Ne.symm hij, ha'⟩

/-- **Every operation keeps the answers of all maps.** -/
theorem PoolHolds.run (h : PoolHolds w maps histories) (op : TableOp α) :
    ∃ (w' : World (TableNode α) (Nat × Fin tableSize)) (maps' : List Linked.HashMap),
      op.run maps w.heap = some (maps', w'.heap) ∧ PoolHolds w' maps' (op.record histories) := by
  have hsome : ∀ {i : Nat} {map}, maps[i]? = some map → ∃ adds, histories[i]? = some adds := by
    intro i map hi
    have hlt := (List.getElem?_eq_some_iff.mp hi).1
    exact ⟨_, List.getElem?_eq_getElem (h.length ▸ hlt)⟩
  have hnone : ∀ {i : Nat}, maps[i]? = none → histories[i]? = none := by
    intro i hi
    rw [List.getElem?_eq_none_iff] at hi ⊢
    rw [← h.length]
    exact hi
  cases op with
  | new => exact ⟨w, maps ++ [Linked.hashmapNew], rfl, h.push Keeps.refl holds_new answers_new⟩
  | add i data key =>
      rw [TableOp.run, TableOp.record]
      cases hi : maps[i]? with
      | none =>
          refine ⟨w, maps, rfl, ?_⟩
          rw [List.modify_eq_self (List.getElem?_eq_none_iff.mp (hnone hi))]
          exact h
      | some map =>
          obtain ⟨adds, hi'⟩ := hsome hi
          obtain ⟨m, hm, ha⟩ := h.holds i map adds hi hi'
          obtain ⟨w', map', hadd, hm', hk⟩ := hashmapAdd_holds hm data key
          refine ⟨w', maps.set i map', ?_, h.set hk hm' fun adds' hadds' => ?_⟩
          · dsimp only
            rw [bind_run hadd]
            rfl
          · obtain rfl := Option.some.inj (hi'.symm.trans hadds')
            exact ha.add data key
  | clone i =>
      rw [TableOp.run, TableOp.record]
      cases hi : maps[i]? with
      | none =>
          refine ⟨w, maps, rfl, ?_⟩
          rw [hnone hi]
          exact h
      | some map =>
          obtain ⟨adds, hi'⟩ := hsome hi
          obtain ⟨m, hm, ha⟩ := h.holds i map adds hi hi'
          have hlt := (List.getElem?_eq_some_iff.mp hi).1
          obtain ⟨w', clone, hclone, hm', hk⟩ := symtabClone_holds maps.length (by omega) hm
          refine ⟨w', maps ++ [clone], ?_, ?_⟩
          · dsimp only
            rw [bind_run hclone]
            rfl
          · rw [hi']
            exact h.push hk hm' ha.clone

theorem PoolHolds.runs (ops : List (TableOp α)) (h : PoolHolds w maps histories) :
    ∃ (w' : World (TableNode α) (Nat × Fin tableSize)) (maps' : List Linked.HashMap),
      ops.foldlM TableOp.run maps w.heap = some (maps', w'.heap) ∧
      PoolHolds w' maps' (ops.foldl TableOp.record histories) := by
  induction ops generalizing w maps histories with
  | nil => exact ⟨w, maps, rfl, h⟩
  | cons op ops ih =>
      obtain ⟨w1, maps1, hrun1, h1⟩ := h.run op
      obtain ⟨w2, maps2, hrun2, h2⟩ := ih h1
      exact ⟨w2, maps2, by rw [List.foldlM_cons, bind_run hrun1, hrun2], h2⟩

theorem keysKept_of_holds (h : Holds w id map m) : KeysKept w.heap map := by
  intro b
  obtain ⟨l, ho, hl⟩ := h b
  refine ⟨l, ho.chain, ?_, fun x hx => ?_⟩
  · have hnd := m.nodup b
    rw [← Linked.get_eq, ← hl, List.map_map] at hnd
    exact hnd
  · have hmem : x.2 ∈ m.table.get b := by
      rw [← hl]
      exact List.mem_map_of_mem hx
    exact m.placed b x.2 hmem

/--
**After every sequence of operations each map answers with the data of the last add of a key
that it has seen, its clones have their own answers, and each key is in one node at most,
in the bucket of its hash.**
-/
theorem hashmap_refines (ops : List (TableOp α)) :
    ∃ maps heap, TableOp.runAll ops Heap.empty = some (maps, heap) ∧
      maps.length = (TableOp.histories ops).length ∧
      ∀ (i : Nat) map adds, maps[i]? = some map → (TableOp.histories ops)[i]? = some adds →
        KeysKept heap map ∧ ∀ key, Linked.hashmapGet map key heap
          = some (lastAdd adds key, heap) := by
  have h0 : PoolHolds (α := α) ⟨Heap.empty, fun _ => none⟩ [] [] :=
    ⟨rfl, fun i map adds hi => by simp at hi⟩
  obtain ⟨w, maps, hrun, h⟩ := h0.runs ops
  refine ⟨maps, w.heap, hrun, h.length, fun i map adds hi hi' => ?_⟩
  obtain ⟨m, hm, ha⟩ := h.holds i map adds hi hi'
  refine ⟨keysKept_of_holds hm, fun key => ?_⟩
  rw [hashmapGet_holds hm, ha key]

end Runs

end MyLang
