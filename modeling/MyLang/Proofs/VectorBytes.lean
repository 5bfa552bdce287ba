/-
Vectors in one arena are separate lists.

A vector has two blocks of the arena, one for its `Vector` and one for its array.  An
operation writes to the blocks of one vector only, and a new array is a new block.  So
what is known of the others stays, and of the one the bytes are what the operation on the
list asks for.

Three layers carry the proof.  `Arena.Backs` says that the arena has some blocks behind
some pointers, and turns every access of `vector.c` into a change of one block; below it
the arena of `Proofs/ArenaClient.lean` is not looked into again.  `VectorAt` says what the
bytes of the two blocks of a vector are, and has one lemma for each assignment of the
code; between the assignments of `vector_push` the size in the field and the room in the
array differ, so it has a parameter for each.  `PoolIn` gives every block an owner, a
vector or nobody, and is what holds of all vectors together behind every operation.

That the copies of a growing array do not run over a `size_t` is not proved but asked of
the operations (`Blocks.Fits`): a request as large as that ends in `malloc`.
-/
import MyLang.VectorBytes
import MyLang.Proofs.ArenaClient
import MyLang.Lib.StateExcept

namespace MyLang

open Fragments

variable {α : Type} {a a' : Arena (Byte α)} {ptrs ptrs' : List DataPtr} {b b' : Blocks (Byte α)}
  {block : Block (Byte α)} {p q : DataPtr} {d : Datum α} {i k n : Nat}

/-! ### What an operation leaves alone

The frame condition of this module.  An operation is said to change blocks of a set `S` at
most: its vector's own, and all that come in while it runs.
-/

/-- The blocks outside of `S` stay as they are, and none goes. -/
structure Changes (S : Set Nat) (ptrs : List DataPtr) (b : Blocks (Byte α)) (ptrs' : List DataPtr)
    (b' : Blocks (Byte α)) : Prop where
  length : b.blocks.length ≤ b'.blocks.length
  ptrs : ∀ (k : Nat) p, ptrs[k]? = some p → ptrs'[k]? = some p
  blocks : ∀ (k : Nat) block, k ∉ S → b.blocks[k]? = some block → b'.blocks[k]? = some block

namespace Changes

variable {S : Set Nat} {ptrs'' : List DataPtr} {b'' : Blocks (Byte α)}

theorem refl : Changes S ptrs b ptrs b := ⟨le_rfl, fun _ _ h => h, fun _ _ _ h => h⟩

theorem trans (h : Changes S ptrs b ptrs' b') (h' : Changes S ptrs' b' ptrs'' b'') :
    Changes S ptrs b ptrs'' b'' :=
  ⟨h.length.trans h'.length, fun k p hp => h'.ptrs k p (h.ptrs k p hp),
    fun k block hk hb => h'.blocks k block hk (h.blocks k block hk hb)⟩

theorem mono {T : Set Nat} (h : Changes S ptrs b ptrs' b') (hST : S ⊆ T) :
    Changes T ptrs b ptrs' b' :=
  ⟨h.length, h.ptrs, fun k block hk => h.blocks k block fun hmem => hk (hST hmem)⟩

theorem set (hk : k ∈ S) (block : Block (Byte α)) :
    Changes S ptrs b ptrs { b with blocks := b.blocks.set k block } := by
  refine ⟨?_, fun _ _ h => h, fun k' block' hk' hb => ?_⟩
  · exact List.length_set.ge
  · have hne : k ≠ k' := fun heq => hk' (heq ▸ hk)
    show (b.blocks.set k block)[k']? = some block'
    rw [List.getElem?_set_ne hne]
    exact hb

theorem push {size : Nat} {bytes : Nat → Option (Byte α)} :
    Changes S ptrs b (ptrs ++ [p]) (b.push size n bytes) := by
  refine ⟨?_, fun k p hp => ?_, fun k block _ hb => ?_⟩
  · show b.blocks.length ≤ (b.blocks ++ _).length
    rw [List.length_append]
    exact Nat.le_add_right _ _
  · rw [List.getElem?_append_left (List.getElem?_eq_some_iff.mp hp).1]
    exact hp
  · show (b.blocks ++ _)[k]? = some block
    rw [List.getElem?_append_left (List.getElem?_eq_some_iff.mp hb).1]
    exact hb

end Changes

/-! ### Accesses

Reading and writing eight bytes go through the blocks one byte at a time, as the machine
does; a value is read back from a place only if all eight fragments of it stand there
(`Stored`).
-/

theorem orUndefined_bind_apply {γ δ : Type} {x : γ} {f : γ → Bytes α δ} :
    (orUndefined (some x) >>= f) a = f x a := rfl

/-- The arena has the blocks behind the pointers. -/
def Arena.Backs (a : Arena (Byte α)) (ptrs : List DataPtr) (b : Blocks (Byte α)) : Prop :=
  ∃ spots, Client.Inv { arena := a, ptrs, marks := [] } b spots []

/-- A block with a value put into its bytes. -/
def Block.put (block : Block (Byte α)) (i : Nat) (d : Datum α) : Block (Byte α) :=
  { block with bytes := Fragments.put wordSize block.bytes i d }

namespace Arena.Backs

theorem empty (mem : Nat → Nat → Byte α) : (Arena.empty mem).Backs [] Blocks.empty :=
  ⟨[], Client.Inv.init mem⟩

theorem length (h : a.Backs ptrs b) : ptrs.length = b.blocks.length := by
  obtain ⟨spots, hinv⟩ := h
  exact hinv.ptrs.trans hinv.blocks.symm

/-- A block that has come in is the last one. -/
private theorem last {size : Nat} {bytes : Nat → Option (Byte α)}
    (h : a.Backs (ptrs ++ [p]) (b.push size n bytes)) :
    (ptrs ++ [p])[b.blocks.length]? = some p ∧ (b.push size n bytes).blocks[b.blocks.length]? =
      some { size, bytes := fun i => if i < n then bytes i else none } := by
  refine ⟨?_, List.getElem?_concat_length⟩
  -- there are as many pointers as blocks, so both lists have their new element at the same
  -- place
  have hlen : ptrs.length + 1 = b.blocks.length + 1 := by
    have hlength := h.length
    rw [List.length_append] at hlength
    exact hlength.trans List.length_append
  rw [← Nat.succ.inj hlen]
  exact List.getElem?_concat_length

/-- A new block comes behind the ones there are. -/
theorem contextAlloc (h : a.Backs ptrs b) (size : Nat) (hfits : Blocks.Fits size) : ∃ p a' ptrs' b',
    MyLang.contextAlloc size a = .ok (p, a') ∧ a'.Backs ptrs' b' ∧ Changes ∅ ptrs b ptrs' b' ∧
      ptrs'[b.blocks.length]? = some p ∧ b'.blocks[b.blocks.length]?
        = some { size, bytes := fun _ => none } := by
  obtain ⟨spots, hinv⟩ := h
  obtain ⟨res, s, halloc, hinv'⟩ := hinv.alloc hfits fun _ => none
  have hback : res.2.Backs (ptrs ++ [res.1]) (b.push size 0 fun _ => none) := ⟨_, hinv'⟩
  refine ⟨res.1, res.2, _, _, ?_, hback, Changes.push, hback.last⟩
  simp only [MyLang.contextAlloc, StateExcept.get_bind_apply, halloc]
  rfl

/-- A new block has the first bytes of the old one. -/
theorem contextRealloc {oldsz newsz : Nat} (h : a.Backs ptrs b) (hk : b.blocks[k]? = some block)
    (hp : ptrs[k]? = some p) (hold : oldsz ≤ block.size) (hlt : oldsz < newsz)
    (hfits : Blocks.Fits newsz) : ∃ q a' ptrs' b',
    MyLang.contextRealloc p oldsz newsz a = .ok (q, a') ∧ a'.Backs ptrs' b' ∧
      Changes ∅ ptrs b ptrs' b' ∧ ptrs'[b.blocks.length]? = some q ∧ b'.blocks[b.blocks.length]? =
        some { size := newsz, bytes := fun i => if i < oldsz then block.bytes i else none } := by
  obtain ⟨spots, hinv⟩ := h
  obtain ⟨res, a', s, halloc, hcopy, hinv'⟩ := hinv.allocCopy hk hp hfits hold hlt.le
  have hback : a'.Backs (ptrs ++ [res.1]) (b.push newsz oldsz block.bytes) := ⟨_, hinv'⟩
  refine ⟨res.1, a', _, _, ?_, hback, Changes.push, hback.last⟩
  have hrealloc : a.realloc p oldsz newsz = some (res.1, a') := by
    rw [Arena.realloc, if_neg (by omega), halloc, Option.bind_eq_bind, Option.bind_some, hcopy]
    rfl
  simp only [MyLang.contextRealloc, StateExcept.get_bind_apply, hrealloc]
  rfl

/-- A byte of a block is written. -/
private theorem store {v : Byte α} (h : a.Backs ptrs b) (hk : b.blocks[k]? = some block)
    (hp : ptrs[k]? = some p) (hi : i < block.size) : ∃ a', a.store p i v = some a' ∧ a'.Backs ptrs
      { b with blocks := b.blocks.set k { block with bytes := Function.update block.bytes i (some v)
        } } := by
  obtain ⟨spots, hinv⟩ := h
  obtain ⟨s, p', -, hp', hplaced⟩ := hinv.get hk
  obtain rfl := Option.some.inj (hp'.symm.trans hp)
  refine ⟨_, hplaced.store_eq hinv.ok.regions hi v, spots, hinv.write hk hp (fun j v' hv' => ?_) hi⟩
  by_cases hj : j = i
  · rw [hj, Function.update_self] at hv'
    rw [if_pos hj]
    exact (Option.some.inj hv').symm
  · rw [Function.update_of_ne hj] at hv'
    rw [if_neg hj]
    exact hv'

theorem storeByte {v : Byte α} (h : a.Backs ptrs b) (hk : b.blocks[k]? = some block)
    (hp : ptrs[k]? = some p) (hi : i < block.size) : ∃ a', MyLang.storeByte p i v a = .ok ((), a') ∧
    a'.Backs ptrs
      { b with blocks := b.blocks.set k { block with bytes := Function.update block.bytes i (some v)
        } } := by
  obtain ⟨a', hstore, hback⟩ := h.store (v := v) hk hp hi
  refine ⟨a', ?_, hback⟩
  simp only [MyLang.storeByte, StateExcept.get_bind_apply, hstore]
  rfl

/-- The fragments are stored one after the other. -/
private theorem storeFrom {j : Nat} (hk : b.blocks[k]? = some block) (hp : ptrs[k]? = some p)
    (h : a.Backs ptrs
      { b with blocks := b.blocks.set k { block with bytes := Fragments.put j block.bytes i d } })
    (hi : i + (j + n) ≤ block.size) : ∃ a', a.storeFrom p i d j n = some a' ∧
      a'.Backs ptrs { b with blocks := b.blocks.set k {
        block with bytes := Fragments.put (j + n) block.bytes i d } } := by
  -- `j` fragments are stored already; the induction is on how many are still to come
  induction n generalizing a j with
  | zero => exact ⟨a, rfl, h⟩
  | succ n ih =>
      have hlt := (List.getElem?_eq_some_iff.mp hk).1
      obtain ⟨a1, hstore, hback⟩ := h.store (v := ⟨d, j⟩) (List.getElem?_set_self hlt) hp
        (show i + j < block.size by omega)
      rw [List.set_set, ← put_succ] at hback
      obtain ⟨a', hrun, hback'⟩ := ih hback (by omega)
      refine ⟨a', ?_, ?_⟩
      · rw [Arena.storeFrom, hstore, Option.bind_eq_bind, Option.bind_some]
        exact hrun
      · rw [show j + (n + 1) = j + 1 + n by omega]
        exact hback'

/-- Eight bytes of a block are written. -/
theorem writeDatum (h : a.Backs ptrs b) (hk : b.blocks[k]? = some block) (hp : ptrs[k]? = some p)
    (hi : i + wordSize ≤ block.size) : ∃ a', MyLang.writeDatum p i d a = .ok ((), a') ∧
      a'.Backs ptrs { b with blocks := b.blocks.set k (block.put i d) } := by
  have hstart : b.blocks.set k { block with bytes := Fragments.put 0 block.bytes i d }
      = b.blocks := by
    obtain ⟨hlt, rfl⟩ := List.getElem?_eq_some_iff.mp hk
    rw [put_zero]
    exact List.set_getElem_self hlt
  obtain ⟨a', hrun, hback⟩ := storeFrom (n := wordSize) (j := 0) hk hp
    (show a.Backs ptrs { b with blocks := _ } by
      rw [hstart]
      exact h) (by omega)
  rw [Nat.zero_add] at hback
  refine ⟨a', ?_, hback⟩
  simp only [MyLang.writeDatum, StateExcept.get_bind_apply, hrun]
  rfl

/-- The same when the block is one that has been written before. -/
theorem writeNext (h : a.Backs ptrs { b with blocks := b.blocks.set k block })
    (hk : k < b.blocks.length) (hp : ptrs[k]? = some p) (hi : i + wordSize ≤ block.size) :
    ∃ a', MyLang.writeDatum p i d a = .ok ((), a') ∧
      a'.Backs ptrs { b with blocks := b.blocks.set k (block.put i d) } := by
  obtain ⟨a', hrun, hback⟩ := h.writeDatum (d := d) (List.getElem?_set_self hk) hp hi
  rw [List.set_set] at hback
  exact ⟨a', hrun, hback⟩

variable [DecidableEq α]

/-- What a block holds is read. -/
theorem loadDatum (h : a.Backs ptrs b) (hk : b.blocks[k]? = some block) (hp : ptrs[k]? = some p)
    (hd : Stored wordSize block.bytes i d) (hi : i + wordSize ≤ block.size) :
    a.loadDatum p i = some d := by
  obtain ⟨spots, hinv⟩ := h
  obtain ⟨s, p', -, hp', hplaced⟩ := hinv.get hk
  obtain rfl := Option.some.inj (hp.symm.trans hp')
  -- every byte of the eight is what is left of the value there
  have hload : ∀ j < wordSize, a.load p (i + j) = some ⟨d, j⟩ := fun j hj => by
    have hread := hplaced.load_eq hinv.ok.regions (show i + j < block.size by omega)
    rw [hplaced.reads (i + j) (by omega) ⟨d, j⟩ (hd j hj)] at hread
    exact hread
  have hfirst := hload 0 (by decide)
  rw [Nat.add_zero] at hfirst
  rw [Arena.loadDatum, hfirst, Option.bind_eq_bind, Option.bind_some, if_pos]
  rw [List.all_eq_true]
  intro j hj
  exact decide_eq_true (hload j (List.mem_range.mp hj))

theorem readPtr (h : a.Backs ptrs b) (hk : b.blocks[k]? = some block) (hp : ptrs[k]? = some p)
    (hd : Stored wordSize block.bytes i (.ptr q)) (hi : i + wordSize ≤ block.size) :
    MyLang.readPtr p i a = .ok (q, a) := by
  have hload := h.loadDatum hk hp hd hi
  simp only [MyLang.readPtr, StateExcept.get_bind_apply, hload]
  rfl

theorem readNum (h : a.Backs ptrs b) (hk : b.blocks[k]? = some block) (hp : ptrs[k]? = some p)
    (hd : Stored wordSize block.bytes i (.num n)) (hi : i + wordSize ≤ block.size) :
    MyLang.readNum p i a = .ok (n, a) := by
  have hload := h.loadDatum hk hp hd hi
  simp only [MyLang.readNum, StateExcept.get_bind_apply, hload]
  rfl

theorem readElem {v : α} (h : a.Backs ptrs b) (hk : b.blocks[k]? = some block)
    (hp : ptrs[k]? = some p) (hd : Stored wordSize block.bytes i (.elem v))
    (hi : i + wordSize ≤ block.size) : MyLang.readElem p i a = .ok (v, a) := by
  have hload := h.loadDatum hk hp hd hi
  simp only [MyLang.readElem, StateExcept.get_bind_apply, hload]
  rfl

end Arena.Backs

/-! ### One vector

The operations of `vector.c` on one vector.  Each assignment of the code is one lemma, in
which the field it writes gets the new value and every other field of `VectorAt` is kept:
the three fields of a `Vector` lie eight bytes apart, and the cells of the array too.
-/

/--
The two blocks of a vector, both in `S`, and what is in them: `size` is what the field says, and
`cap` how many elements the array has room for.
-/
structure VectorAt (ptrs : List DataPtr) (b : Blocks (Byte α)) (S : Set Nat) (kv ka : Nat)
    (vector array : DataPtr) (V A : Block (Byte α)) (size cap : Nat) (l : List α) : Prop where
  ownVector : kv ∈ S
  ownArray : ka ∈ S
  vectorPtr : ptrs[kv]? = some vector
  arrayPtr : ptrs[ka]? = some array
  vectorBlock : b.blocks[kv]? = some V
  arrayBlock : b.blocks[ka]? = some A
  apart : kv ≠ ka
  vectorSize : V.size = vectorBytes
  arraySize : A.size = wordSize * cap
  holdsArray : Stored wordSize V.bytes arrayOffset (.ptr array)
  holdsSize : Stored wordSize V.bytes sizeOffset (.num size)
  holdsLength : Stored wordSize V.bytes lengthOffset (.num l.length)
  cells : ∀ (j : Nat) v, l[j]? = some v → Stored wordSize A.bytes (wordSize * j) (.elem v)
  room : l.length ≤ cap
  pos : 0 < cap
  fits : Blocks.Fits (wordSize * cap)

/-- A vector in two blocks of the arena that are in `S`. -/
def HasVector (ptrs : List DataPtr) (b : Blocks (Byte α)) (S : Set Nat) (vector : DataPtr)
    (l : List α) : Prop :=
  ∃ kv ka array V A size, VectorAt ptrs b S kv ka vector array V A size size l

namespace VectorAt

variable {S T : Set Nat} {kv ka : Nat} {vector array : DataPtr} {V A : Block (Byte α)}
  {size cap : Nat}
  {l l' : List α} {v : α}

/-- A vector none of whose blocks changes stays, whatever set its blocks are then said to be in. -/
theorem keeps (h : VectorAt ptrs b T kv ka vector array V A size cap l)
    (hc : Changes S ptrs b ptrs' b') {T' : Set Nat}
    (hT : ∀ i ∈ T, i < b.blocks.length → i ∉ S ∧ i ∈ T') :
    VectorAt ptrs' b' T' kv ka vector array V A size cap l := by
  obtain ⟨hkv, hkv'⟩ := hT kv h.ownVector (List.getElem?_eq_some_iff.mp h.vectorBlock).1
  obtain ⟨hka, hka'⟩ := hT ka h.ownArray (List.getElem?_eq_some_iff.mp h.arrayBlock).1
  exact { h with
    ownVector := hkv'
    ownArray := hka'
    vectorPtr := hc.ptrs _ _ h.vectorPtr
    arrayPtr := hc.ptrs _ _ h.arrayPtr
    vectorBlock := hc.blocks _ _ hkv h.vectorBlock
    arrayBlock := hc.blocks _ _ hka h.arrayBlock }

/-- A value put into the `Vector` beside another leaves that one. -/
private theorem stored_put {o o' : Nat} {d d' : Datum α} (h : Stored wordSize V.bytes o d)
    (hne : o + wordSize ≤ o' ∨ o' + wordSize ≤ o) : Stored wordSize (V.put o' d').bytes o d :=
  h.put hne

/-- The fields of `vector_new`. -/
private theorem fresh (hkv : kv ∈ S) (hka : ka ∈ S) (hp : ptrs[kv]? = some vector)
    (hpa : ptrs[ka]? = some array)
    (hV : b.blocks[kv]?
      = some (((V.put arrayOffset (.ptr array)).put sizeOffset (.num 10)).put lengthOffset
        (.num 0)))
    (hA : b.blocks[ka]? = some A) (hne : kv ≠ ka) (hsize : V.size = vectorBytes)
    (hbytes : A.size = wordSize * vectorInitSize) :
    VectorAt ptrs b S kv ka vector array
      (((V.put arrayOffset (.ptr array)).put sizeOffset (.num 10)).put lengthOffset
        (.num 0)) A 10 10 [] where
  ownVector := hkv
  ownArray := hka
  vectorPtr := hp
  arrayPtr := hpa
  vectorBlock := hV
  arrayBlock := hA
  apart := hne
  vectorSize := hsize
  arraySize := hbytes
  holdsArray := stored_put (stored_put Fragments.stored_put (Or.inl (by decide)))
    (Or.inl (by decide))
  holdsSize := stored_put Fragments.stored_put (Or.inl (by decide))
  holdsLength := Fragments.stored_put
  cells _ _ hw := nomatch hw
  room := Nat.zero_le _
  pos := by decide
  fits := by decide

/-- `vector->size = size'`. -/
theorem writeSize (h : VectorAt ptrs b S kv ka vector array V A size cap l) (ha : a.Backs ptrs b)
    (size' : Nat) :
    ∃ a' b' W, writeDatum vector sizeOffset (.num size') a = .ok ((), a') ∧ a'.Backs ptrs b' ∧
      Changes S ptrs b ptrs b' ∧ VectorAt ptrs b' S kv ka vector array W A size' cap l := by
  obtain ⟨a', hrun, hback⟩ := ha.writeDatum (i := sizeOffset)
      (d := .num size') h.vectorBlock h.vectorPtr (by
    rw [h.vectorSize]
    decide)
  refine ⟨a', _, V.put sizeOffset (.num size'), hrun, hback, Changes.set h.ownVector _, ?_⟩
  exact { h with
    vectorBlock := List.getElem?_set_self (List.getElem?_eq_some_iff.mp h.vectorBlock).1
    arrayBlock := (List.getElem?_set_ne h.apart).trans h.arrayBlock
    vectorSize := h.vectorSize
    holdsArray := stored_put h.holdsArray (Or.inl (by decide))
    holdsSize := Fragments.stored_put
    holdsLength := stored_put h.holdsLength (Or.inr (by decide)) }

/-- `vector->length += 1`, with the element there already. -/
theorem writeLength (h : VectorAt ptrs b S kv ka vector array V A size cap l) (ha : a.Backs ptrs b)
    (hcell : Stored wordSize A.bytes (wordSize * l.length) (.elem v)) (hroom : l.length < cap) :
    ∃ a' b' W, writeDatum vector lengthOffset (.num (l.length + 1)) a = .ok ((), a') ∧
      a'.Backs ptrs b' ∧
      Changes S ptrs b ptrs b' ∧ VectorAt ptrs b' S kv ka vector array W A size cap (l ++ [v]) := by
  have hlen : (l ++ [v]).length = l.length + 1 := List.length_append
  obtain ⟨a', hrun, hback⟩ := ha.writeDatum (i := lengthOffset)
      (d := .num (l.length + 1)) h.vectorBlock h.vectorPtr (by
    rw [h.vectorSize]
    decide)
  refine ⟨a', _, V.put lengthOffset (.num (l.length + 1)), hrun, hback, Changes.set h.ownVector _,
    ?_⟩
  refine { h with
    vectorBlock := List.getElem?_set_self (List.getElem?_eq_some_iff.mp h.vectorBlock).1
    arrayBlock := (List.getElem?_set_ne h.apart).trans h.arrayBlock
    vectorSize := h.vectorSize
    holdsArray := stored_put h.holdsArray (Or.inl (by decide))
    holdsSize := stored_put h.holdsSize (Or.inl (by decide))
    holdsLength := ?_
    cells := fun j w hw => ?_
    room := by omega }
  · rw [hlen]
    exact Fragments.stored_put
  · -- the elements there were, and the one that the new length takes in
    rcases Nat.lt_or_ge j l.length with hj | hj
    · rw [List.getElem?_append_left hj] at hw
      exact h.cells j w hw
    · obtain ⟨hlt, hget⟩ := List.getElem?_eq_some_iff.mp hw
      obtain rfl : j = l.length := by omega
      rw [List.getElem_concat_length rfl] at hget
      rw [← hget]
      exact hcell

/-- `vector->array[i] = v`. -/
theorem writeCell {i : Nat} (h : VectorAt ptrs b S kv ka vector array V A size cap l)
    (ha : a.Backs ptrs b) (v : α) (hi : i < cap) :
    ∃ a' b' B, writeDatum array (wordSize * i) (.elem v) a = .ok ((), a') ∧ a'.Backs ptrs b' ∧
      Changes S ptrs b ptrs b' ∧ Stored wordSize B.bytes (wordSize * i) (.elem v) ∧
      VectorAt ptrs b' S kv ka vector array V B size cap (l.set i v) := by
  obtain ⟨a', hrun, hback⟩ := ha.writeDatum (i := wordSize * i)
      (d := .elem v) h.arrayBlock h.arrayPtr (by
    rw [h.arraySize]
    exact Nat.mul_le_mul_left wordSize hi)
  refine ⟨a', _, A.put (wordSize * i) (.elem v), hrun, hback, Changes.set h.ownArray _,
    Fragments.stored_put, ?_⟩
  refine { h with
    vectorBlock := (List.getElem?_set_ne h.apart.symm).trans h.vectorBlock
    arrayBlock := List.getElem?_set_self (List.getElem?_eq_some_iff.mp h.arrayBlock).1
    arraySize := h.arraySize
    holdsLength := ?_
    cells := fun j w hw => ?_
    room := ?_ }
  · rw [List.length_set]
    exact h.holdsLength
  · by_cases hj : i = j
    · subst hj
      obtain ⟨hlt, hget⟩ := List.getElem?_eq_some_iff.mp hw
      rw [List.getElem_set_self] at hget
      rw [← hget]
      exact Fragments.stored_put
    · rw [List.getElem?_set_ne hj] at hw
      exact (h.cells j w hw).put_cell (Ne.symm hj)
  · rw [List.length_set]
    exact h.room

/-- `vector->array = q`, another block that holds the elements too. -/
theorem writeArray {ka' cap' : Nat} {B : Block (Byte α)}
    (h : VectorAt ptrs b S kv ka vector array V A size cap l) (ha : a.Backs ptrs b) (hown : ka' ∈ S)
    (hq : ptrs[ka']? = some q) (hB : b.blocks[ka']? = some B) (hne : kv ≠ ka')
    (hsize : B.size = wordSize * cap') (hcap : cap ≤ cap') (hfits : Blocks.Fits (wordSize * cap'))
    (hbytes : ∀ i < wordSize * cap, B.bytes i = A.bytes i) :
    ∃ a' b' W, writeDatum vector arrayOffset (.ptr q) a = .ok ((), a') ∧ a'.Backs ptrs b' ∧
      Changes S ptrs b ptrs b' ∧ VectorAt ptrs b' S kv ka' vector q W B size cap' l := by
  obtain ⟨a', hrun, hback⟩ := ha.writeDatum (i := arrayOffset)
      (d := .ptr q) h.vectorBlock h.vectorPtr (by
    rw [h.vectorSize]
    decide)
  refine ⟨a', _, V.put arrayOffset (.ptr q), hrun, hback, Changes.set h.ownVector _, ?_⟩
  have hroom := h.room
  have hpos := h.pos
  refine { h with
    ownArray := hown
    arrayPtr := hq
    vectorBlock := List.getElem?_set_self (List.getElem?_eq_some_iff.mp h.vectorBlock).1
    arrayBlock := (List.getElem?_set_ne hne).trans hB
    apart := hne
    vectorSize := h.vectorSize
    arraySize := hsize
    holdsArray := Fragments.stored_put
    holdsSize := stored_put h.holdsSize (Or.inr (by decide))
    holdsLength := stored_put h.holdsLength (Or.inr (by decide))
    cells := fun j w hw k hk => ?_
    room := by omega
    pos := by omega
    fits := hfits }
  have hj := (List.getElem?_eq_some_iff.mp hw).1
  -- an element that the old array had room for lies in the bytes that have been copied
  have hcell : wordSize * j + wordSize ≤ wordSize * cap :=
    Nat.mul_le_mul_left wordSize (show j + 1 ≤ cap by omega)
  rw [hbytes _ (by omega)]
  exact h.cells j w hw k hk

variable [DecidableEq α]

theorem readArray (h : VectorAt ptrs b S kv ka vector array V A size cap l) (ha : a.Backs ptrs b) :
    readPtr vector arrayOffset a = .ok (array, a) :=
  ha.readPtr h.vectorBlock h.vectorPtr h.holdsArray (by
    rw [h.vectorSize]
    decide)

theorem readSize (h : VectorAt ptrs b S kv ka vector array V A size cap l) (ha : a.Backs ptrs b) :
    readNum vector sizeOffset a = .ok (size, a) :=
  ha.readNum h.vectorBlock h.vectorPtr h.holdsSize (by
    rw [h.vectorSize]
    decide)

theorem readLength (h : VectorAt ptrs b S kv ka vector array V A size cap l) (ha : a.Backs ptrs b) :
    readNum vector lengthOffset a = .ok (l.length, a) :=
  ha.readNum h.vectorBlock h.vectorPtr h.holdsLength (by
    rw [h.vectorSize]
    decide)

/-- Nothing runs over when the size is doubled. -/
private theorem doubled {n : Nat} (hpos : 0 < n) (hfits : Blocks.Fits (wordSize * (n * 2))) :
    wordSize * n < wordSize * (n * 2) ∧ wrap (n * 2) = n * 2 ∧
      wrap (wordSize * (n * 2 / 2)) = wordSize * n ∧
      wrap (wordSize * (n * 2)) = wordSize * (n * 2) := by
  unfold wordSize wrap
  unfold Blocks.Fits wordSize at hfits
  omega

/-- The array is copied to a new block of twice the size. -/
private theorem double (h : VectorAt ptrs b S kv ka vector array V A size size l)
    (ha : a.Backs ptrs b) (hS : ∀ i, b.blocks.length ≤ i → i ∈ S)
    (hfits : Blocks.Fits (wordSize * (size * 2))) :
    ∃ a1 a2 a' ptrs' b' ka' q W B, writeDatum vector sizeOffset (.num (size * 2)) a = .ok ((), a1) ∧
      readPtr vector arrayOffset a1 = .ok (array, a1) ∧
      readNum vector sizeOffset a1 = .ok (size * 2, a1) ∧
      contextRealloc array (wordSize * size) (wordSize * (size * 2)) a1 = .ok (q, a2) ∧
      writeDatum vector arrayOffset (.ptr q) a2 = .ok ((), a') ∧ a'.Backs ptrs' b' ∧
      Changes S ptrs b ptrs' b' ∧
      VectorAt ptrs' b' S kv ka' vector q W B (size * 2) (size * 2) l := by
  have hpos := h.pos
  obtain ⟨hgrows, -⟩ := doubled hpos hfits
  obtain ⟨a1, b1, V1, hsize, hback1, hc1, h1⟩ := h.writeSize ha (size * 2)
  obtain ⟨q, a2, ptrs', b2, hrealloc, hback2, hc2, hq, hB⟩ :=
    hback1.contextRealloc h1.arrayBlock h1.arrayPtr h1.arraySize.ge hgrows hfits
  -- the copy has changed no block: its own is a new one, which `S` has as well
  have hin : ∀ i ∈ S, i < b1.blocks.length → i ∉ (∅ : Set Nat) ∧ i ∈ S :=
    fun i hi _ => ⟨Set.notMem_empty i, hi⟩
  have hne := (List.getElem?_eq_some_iff.mp h1.vectorBlock).1.ne
  obtain ⟨a', b', W, hwrite, hback', hc', h'⟩ :=
    (h1.keeps hc2 hin).writeArray hback2 (hS _ hc1.length) hq hB hne rfl
    (by omega) hfits fun i hi => if_pos hi
  exact ⟨a1, a2, a', ptrs', b', _, q, W, _, hsize, h1.readArray hback1, h1.readSize hback1,
    hrealloc, hwrite, hback', (hc1.trans (hc2.mono (Set.empty_subset S))).trans hc', h'⟩

/-- There is room for one more. -/
theorem grow (h : VectorAt ptrs b S kv ka vector array V A size size l) (ha : a.Backs ptrs b)
    (hS : ∀ i, b.blocks.length ≤ i → i ∈ S) (hfits : Blocks.Fits (2 * (wordSize * l.length))) :
    ∃ a' ptrs' b' ka' q W B cap', vectorGrowAt vector a = .ok ((), a') ∧ a'.Backs ptrs' b' ∧
      Changes S ptrs b ptrs' b' ∧ VectorAt ptrs' b' S kv ka' vector q W B cap' cap' l ∧
        l.length < cap' := by
  have hroom := h.room
  have hpos := h.pos
  unfold vectorGrowAt
  simp only [StateExcept.bind_of_ok (h.readLength ha), StateExcept.bind_of_ok (h.readSize ha)]
  by_cases hfull : l.length ≥ size
  · -- the array is full, and its size in bytes is doubled
    have hfits' : Blocks.Fits (wordSize * (size * 2)) := by
      obtain rfl : l.length = size := by omega
      rw [Nat.mul_comm l.length 2, Nat.mul_left_comm]
      exact hfits
    obtain ⟨-, hdouble, hhalf, hbytes⟩ := doubled hpos hfits'
    obtain ⟨a1, a2, a', ptrs', b', ka', q, W, B, hsize, harray, hnum, hrealloc, hwrite, hback', hc,
        h'⟩ :=
      h.double ha hS hfits'
    refine ⟨a', ptrs', b', ka', q, W, B, size * 2, ?_, hback', hc, h', by omega⟩
    rw [if_pos hfull, hdouble]
    simp only [StateExcept.bind_of_ok hsize, StateExcept.bind_of_ok harray,
      StateExcept.bind_of_ok hnum, hhalf, hbytes, StateExcept.bind_of_ok hrealloc]
    exact hwrite
  · -- there is room, so nothing happens
    refine ⟨a, ptrs, b, ka, array, V, A, size, ?_, ha, Changes.refl, h, by omega⟩
    rw [if_neg hfull]
    rfl

end VectorAt

namespace HasVector

variable {S T : Set Nat} {vector : DataPtr} {l : List α} {v : α}

/-- A vector none of whose blocks changes stays. -/
theorem keeps (h : HasVector ptrs b T vector l) (hc : Changes S ptrs b ptrs' b') {T' : Set Nat}
    (hT : ∀ i ∈ T, i < b.blocks.length → i ∉ S ∧ i ∈ T') : HasVector ptrs' b' T' vector l := by
  obtain ⟨kv, ka, array, V, A, size, h⟩ := h
  exact ⟨kv, ka, array, V, A, size, h.keeps hc hT⟩

/-- **`vector_new` makes an empty vector.** -/
theorem new (ha : a.Backs ptrs b) (hS : ∀ i, b.blocks.length ≤ i → i ∈ S) :
    ∃ vector a' ptrs' b', (vectorNewAt : Bytes α DataPtr) a = .ok (vector, a') ∧ a'.Backs ptrs' b' ∧
      Changes S ptrs b ptrs' b' ∧ HasVector ptrs' b' S vector [] := by
  obtain ⟨vector, a1, ptrs1, b1, halloc1, hback1, hc1, hp1, hk1⟩ :=
    ha.contextAlloc vectorBytes (by decide)
  obtain ⟨array, a2, ptrs2, b2, halloc2, hback2, hc2, hpa, hka⟩ :=
    hback1.contextAlloc (wordSize * vectorInitSize) (by decide)
  -- the array came in behind the `Vector`, which is still where it was
  have hp := hc2.ptrs _ _ hp1
  have hk := hc2.blocks _ _ (Set.notMem_empty _) hk1
  have hlt := (List.getElem?_eq_some_iff.mp hk).1
  have hne := (List.getElem?_eq_some_iff.mp hk1).1.ne
  have hown := hS _ (le_refl b.blocks.length)
  have hi : arrayOffset + wordSize ≤ vectorBytes ∧ sizeOffset + wordSize ≤ vectorBytes ∧
      lengthOffset + wordSize ≤ vectorBytes := by decide
  obtain ⟨a3, harray, hback3⟩ := hback2.writeDatum (d := .ptr array) hk hp hi.1
  obtain ⟨a4, hsize, hback4⟩ := hback3.writeNext (d := .num 10) hlt hp hi.2.1
  obtain ⟨a5, hlength, hback5⟩ := hback4.writeNext (d := .num 0) hlt hp hi.2.2
  refine ⟨vector, a5, ptrs2, _, ?_, hback5, ((hc1.trans hc2).mono (Set.empty_subset S)).trans
    (Changes.set hown _),
    _, _, array, _, _, 10, VectorAt.fresh hown (hS _ hc1.length) hp hpa (List.getElem?_set_self hlt)
      ((List.getElem?_set_ne hne).trans hka) hne rfl rfl⟩
  unfold vectorNewAt
  simp only [StateExcept.bind_of_ok halloc1, StateExcept.bind_of_ok halloc2,
    StateExcept.bind_of_ok harray, StateExcept.bind_of_ok hsize, StateExcept.bind_of_ok hlength]
  rfl

variable [DecidableEq α]

/-- **`vector_get` reads the elements of the list, and no further.** -/
theorem get (h : HasVector ptrs b S vector l) (ha : a.Backs ptrs b) (i : Nat) :
    vectorGetAt vector i a = match l[i]? with
      | some v => .ok (v, a)
      | none => .error (.outOfRange i) := by
  obtain ⟨kv, ka, array, V, A, size, h⟩ := h
  unfold vectorGetAt
  rw [StateExcept.bind_of_ok (h.readLength ha)]
  by_cases hi : i ≥ l.length
  · rw [if_pos hi, List.getElem?_eq_none hi]
    rfl
  · have hroom := h.room
    have hv := List.getElem?_eq_getElem (Nat.lt_of_not_ge hi)
    have helem := ha.readElem h.arrayBlock h.arrayPtr (h.cells i _ hv) (by
      rw [h.arraySize]
      exact Nat.mul_le_mul_left wordSize (show i + 1 ≤ size by omega))
    rw [if_neg hi, hv]
    show (readPtr vector arrayOffset >>= _) a = _
    rw [StateExcept.bind_of_ok (h.readArray ha)]
    exact helem

/-- **`vector_set` replaces an element.** -/
theorem set {i : Nat} (h : HasVector ptrs b S vector l) (ha : a.Backs ptrs b) (v : α)
    (hi : i < l.length) :
    ∃ a' b', vectorSetAt vector i v a = .ok ((), a') ∧ a'.Backs ptrs b' ∧ Changes S ptrs b ptrs b' ∧
      HasVector ptrs b' S vector (l.set i v) := by
  obtain ⟨kv, ka, array, V, A, size, h⟩ := h
  have hroom := h.room
  obtain ⟨a', b', B, hwrite, hback, hc, -, h'⟩ := h.writeCell ha v (i := i) (by omega)
  refine ⟨a', b', ?_, hback, hc, kv, ka, array, V, B, size, h'⟩
  unfold vectorSetAt
  rw [StateExcept.bind_of_ok (h.readLength ha), if_neg (Nat.not_le_of_lt hi)]
  show (readPtr vector arrayOffset >>= _) a = _
  rw [StateExcept.bind_of_ok (h.readArray ha)]
  exact hwrite

/-- The stop of `vector_set`. -/
theorem set_stop {i : Nat} (h : HasVector ptrs b S vector l) (ha : a.Backs ptrs b) (v : α)
    (hi : l.length ≤ i) : vectorSetAt vector i v a = .error (.outOfRange i) := by
  obtain ⟨kv, ka, array, V, A, size, h⟩ := h
  unfold vectorSetAt
  rw [StateExcept.bind_of_ok (h.readLength ha), if_pos hi]
  rfl

/-- **`vector_push` appends, also when the array grows.** -/
theorem push (h : HasVector ptrs b S vector l) (ha : a.Backs ptrs b) (v : α)
    (hS : ∀ i, b.blocks.length ≤ i → i ∈ S) (hfits : Blocks.Fits (2 * (wordSize * l.length))) :
    ∃ a' ptrs' b', vectorPushAt vector v a = .ok ((), a') ∧ a'.Backs ptrs' b' ∧
      Changes S ptrs b ptrs' b' ∧ HasVector ptrs' b' S vector (l ++ [v]) := by
  obtain ⟨kv, ka, array, V, A, size, h⟩ := h
  obtain ⟨a1, ptrs', b1, ka', q, W, B, cap, hgrow, hback1, hc1, h1, hcap⟩ := h.grow ha hS hfits
  obtain ⟨a2, b2, B', hcell, hback2, hc2, hheld, h2⟩ := h1.writeCell hback1 v hcap
  -- the cell behind the last element is written while the length does not count it yet
  rw [List.set_eq_of_length_le le_rfl] at h2
  obtain ⟨a', b', W', hlength, hback', hc', h'⟩ := h2.writeLength hback2 hheld hcap
  have hwrap : wrap (l.length + 1) = l.length + 1 := by
    have hfits' := h1.fits
    unfold Blocks.Fits wordSize at hfits'
    exact Nat.mod_eq_of_lt (by omega)
  refine ⟨a', ptrs', b', ?_, hback', (hc1.trans hc2).trans hc', kv, ka', q, W', B', cap, h'⟩
  unfold vectorPushAt
  simp only [StateExcept.bind_of_ok hgrow, StateExcept.bind_of_ok (h1.readArray hback1),
    StateExcept.bind_of_ok (h1.readLength hback1), StateExcept.bind_of_ok hcell,
    StateExcept.bind_of_ok (h2.readLength hback2), hwrap]
  exact hlength

end HasVector

/-! ### Several vectors

A block is the `k`th vector's or nobody's (`owner`), and the blocks of two owners are
apart because a block has one owner.  So an operation on the `k`th vector, which changes
blocks of the owner `k` and blocks that come in, leaves every other vector and the other
blocks as they are: `PoolIn.change` says so once for all operations.
-/

private theorem concat_of_ne {γ : Type} (xs : List γ) (x : γ) {i : Nat} (hi : i ≠ xs.length) :
    (xs ++ [x])[i]? = xs[i]? := by
  rcases Nat.lt_or_gt_of_ne hi with hlt | hgt
  · exact List.getElem?_append_left hlt
  · have hlen : (xs ++ [x]).length = xs.length + 1 := List.length_append
    rw [List.getElem?_eq_none (hlen.trans_le hgt), List.getElem?_eq_none hgt.le]

/-- Other blocks, all in `S`: their pointers and sizes. -/
def HasOthers (ptrs : List DataPtr) (b : Blocks (Byte α)) (S : Set Nat) (others : List DataPtr)
    (sizes : List Nat) : Prop :=
  ∀ (j : Nat) p size, others[j]? = some p → sizes[j]? = some size →
    ∃ k block, k ∈ S ∧ ptrs[k]? = some p ∧ b.blocks[k]? = some block ∧ block.size = size

namespace HasOthers

variable {S T : Set Nat} {others : List DataPtr} {sizes : List Nat}

theorem keeps (h : HasOthers ptrs b T others sizes) (hc : Changes S ptrs b ptrs' b') {T' : Set Nat}
    (hT : ∀ i ∈ T, i < b.blocks.length → i ∉ S ∧ i ∈ T') : HasOthers ptrs' b' T' others sizes := by
  intro j p size hp hsize
  obtain ⟨k, block, hk, hptr, hblock, hsize⟩ := h j p size hp hsize
  obtain ⟨hkS, hkT⟩ := hT k hk (List.getElem?_eq_some_iff.mp hblock).1
  exact ⟨k, block, hkT, hc.ptrs k p hptr, hc.blocks k block hkS hblock, hsize⟩

/-- A block is written, and has its size still. -/
theorem store {block' : Block (Byte α)} (h : HasOthers ptrs b S others sizes)
    (hk : b.blocks[k]? = some block) (hsize : block'.size = block.size) :
    HasOthers ptrs { b with blocks := b.blocks.set k block' } S others sizes := by
  intro j p size hp hsizes
  obtain ⟨k', block1, hmem, hptr, hblock, hsize'⟩ := h j p size hp hsizes
  by_cases hkk : k = k'
  · subst hkk
    obtain rfl := Option.some.inj (hk.symm.trans hblock)
    exact ⟨k, block', hmem, hptr, List.getElem?_set_self (List.getElem?_eq_some_iff.mp hk).1,
      hsize.trans hsize'⟩
  · exact ⟨k', block1, hmem, hptr, (List.getElem?_set_ne hkk).trans hblock, hsize'⟩

/-- One more. -/
theorem concat {size : Nat} (h : HasOthers ptrs b S others sizes)
    (hlen : others.length = sizes.length) (hk : k ∈ S) (hp : ptrs[k]? = some p)
    (hblock : b.blocks[k]? = some block) (hsize : block.size = size) :
    HasOthers ptrs b S (others ++ [p]) (sizes ++ [size]) := by
  intro j p' size' hp' hsize'
  by_cases hj : j = others.length
  · subst hj
    rw [List.getElem?_concat_length] at hp'
    rw [hlen, List.getElem?_concat_length] at hsize'
    obtain rfl := Option.some.inj hp'
    obtain rfl := Option.some.inj hsize'
    exact ⟨k, block, hk, hp, hblock, hsize⟩
  · rw [concat_of_ne others p hj] at hp'
    rw [concat_of_ne sizes size (hlen ▸ hj)] at hsize'
    exact h j p' size' hp' hsize'

end HasOthers

/-- Whose a block is: those that come in from `n` on are `o`'s. -/
def ownerFrom (owner : Nat → Option Nat) (n : Nat) (o : Option Nat) : Nat → Option Nat :=
  fun i => if i < n then owner i else o

/--
Vectors that stand for lists, and other blocks.  Each block is the `k`th vector's, or
nobody's.
-/
structure PoolIn (ptrs : List DataPtr) (b : Blocks (Byte α)) (owner : Nat → Option Nat)
    (pool : Pool) (view : PoolView α) : Prop where
  length : pool.vectors.length = view.lists.length
  count : pool.others.length = view.sizes.length
  vectors : ∀ (k : Nat) vector l, pool.vectors[k]? = some vector → view.lists[k]? = some l →
    HasVector ptrs b { i | owner i = some k } vector l
  others : HasOthers ptrs b { i | owner i = none } pool.others view.sizes

/-- The same in an arena. -/
def Pool.Holds (pool : Pool) (a : Arena (Byte α)) (view : PoolView α) : Prop :=
  ∃ ptrs b owner, a.Backs ptrs b ∧ PoolIn ptrs b owner pool view

section Owners

variable {pool : Pool} {view : PoolView α} {owner : Nat → Option Nat} {o o' : Option Nat}
  {vector : DataPtr}
  {l : List α} {vectors' : List DataPtr} {lists' : List (List α)}

/-- The blocks that come in are `o`'s. -/
private theorem mem_ownerFrom (owner : Nat → Option Nat) (n : Nat) (o : Option Nat) (i : Nat)
    (hi : n ≤ i) : i ∈ { i | ownerFrom owner n o i = o } :=
  if_neg (Nat.not_lt_of_le hi)

/-- What was another's stays another's. -/
private theorem apart_ownerFrom (hne : o' ≠ o) :
    ∀ i ∈ { i | owner i = o' }, i < n → i ∉ { i | ownerFrom owner n o i = o } ∧
      i ∈ { i | ownerFrom owner n o i = o' } := by
  intro i hi hlt
  have howner : ownerFrom owner n o i = o' := (if_pos hlt).trans hi
  exact ⟨fun hmem => hne (howner.symm.trans hmem), howner⟩

/-- A vector's own blocks are its own when others come in. -/
private theorem has_ownerFrom (h : HasVector ptrs b { i | owner i = o } vector l) :
    HasVector ptrs b { i | ownerFrom owner b.blocks.length o i = o } vector l :=
  h.keeps (S := ∅) Changes.refl fun i hi hlt => ⟨Set.notMem_empty i, (if_pos hlt).trans hi⟩

/-- One vector changes, or comes in, and everything else is as it was. -/
private theorem PoolIn.change (h : PoolIn ptrs b owner pool view)
    (hc : Changes { i | ownerFrom owner b.blocks.length (some k) i = some k } ptrs b ptrs' b')
    (hhas : HasVector ptrs' b' { i | ownerFrom owner b.blocks.length (some k) i = some k } vector l)
    (hvector : vectors'[k]? = some vector) (hlist : lists'[k]? = some l)
    (hlen : vectors'.length = lists'.length) (hrest : ∀ k', k' ≠ k →
      vectors'[k']? = pool.vectors[k']? ∧ lists'[k']? = view.lists[k']?) :
    PoolIn ptrs' b' (ownerFrom owner b.blocks.length (some k)) { pool with vectors := vectors' }
      { view with lists := lists' } where
  length := hlen
  count := h.count
  vectors := by
    intro k' vector' l' hv hl
    by_cases hk : k' = k
    · subst hk
      obtain rfl := Option.some.inj (hv.symm.trans hvector)
      obtain rfl := Option.some.inj (hl.symm.trans hlist)
      exact hhas
    · -- another vector: none of its blocks is the changed one's
      obtain ⟨hsame, hsame'⟩ := hrest k' hk
      exact (h.vectors k' vector' l' (hsame ▸ hv) (hsame' ▸ hl)).keeps hc
        (apart_ownerFrom fun heq => hk (Option.some.inj heq))
  others := h.others.keeps hc (apart_ownerFrom (Option.some_ne_none k).symm)

/-- A vector there is has been changed in its own blocks. -/
private theorem PoolIn.changed (h : PoolIn ptrs b owner pool view)
    (hc : Changes { i | ownerFrom owner b.blocks.length (some k) i = some k } ptrs b ptrs' b')
    (hhas : HasVector ptrs' b' { i | ownerFrom owner b.blocks.length (some k) i = some k } vector l)
    (hv : pool.vectors[k]? = some vector) :
    PoolIn ptrs' b' (ownerFrom owner b.blocks.length (some k)) pool
      { view with lists := view.lists.set k l } := by
  have hk : k < view.lists.length := h.length ▸ (List.getElem?_eq_some_iff.mp hv).1
  refine h.change hc hhas hv (List.getElem?_set_self hk) ?_ fun k' hk' => ⟨rfl, ?_⟩
  · rw [List.length_set]
    exact h.length
  · exact List.getElem?_set_ne (Ne.symm hk')

end Owners

namespace Pool.Holds

variable {pool : Pool} {view : PoolView α} {vector : DataPtr} {l : List α}

theorem empty (mem : Nat → Nat → Byte α) :
    Pool.Holds { vectors := [], others := [] } (Arena.empty mem) { lists := [], sizes := [] } :=
  ⟨[], Blocks.empty, fun _ => none, Arena.Backs.empty mem, rfl, rfl, fun _ _ _ h => (nomatch h),
    fun _ _ _ h => (nomatch h)⟩

theorem length (h : pool.Holds a view) : pool.vectors.length = view.lists.length := by
  obtain ⟨ptrs, b, owner, ha, hin⟩ := h
  exact hin.length

/-- There is a vector for each list. -/
theorem exists_vector (h : pool.Holds a view) (hl : view.lists[k]? = some l) :
    ∃ vector, pool.vectors[k]? = some vector := by
  have hk := (List.getElem?_eq_some_iff.mp hl).1
  exact ⟨_, List.getElem?_eq_getElem (h.length ▸ hk)⟩

theorem alloc (h : pool.Holds a view) {size : Nat} (hfits : Blocks.Fits size) :
    ∃ p a', contextAlloc size a = .ok (p, a') ∧
      Pool.Holds { pool with others := pool.others ++ [p] } a' { view with sizes := view.sizes
        ++ [size] } := by
  obtain ⟨ptrs, b, owner, ha, hin⟩ := h
  obtain ⟨p, a', ptrs', b', hrun, hback, hc, hp, hblock⟩ := ha.contextAlloc size hfits
  -- nothing is changed, and what comes in is nobody's
  have hkeep : ∀ o, ∀ i ∈ { i | owner i = o }, i < b.blocks.length →
      i ∉ (∅ : Set Nat) ∧ i ∈ { i | ownerFrom owner b.blocks.length none i = o } :=
    fun o i hi hlt => ⟨Set.notMem_empty i, (if_pos hlt).trans hi⟩
  refine ⟨p, a', hrun, ptrs', b', ownerFrom owner b.blocks.length none, hback, hin.length, ?_, ?_,
    ?_⟩
  · rw [List.length_append, List.length_append, hin.count]
    rfl
  · exact fun k vector l hv hl => (hin.vectors k vector l hv hl).keeps hc (hkeep (some k))
  · exact (hin.others.keeps hc (hkeep none)).concat hin.count
      (mem_ownerFrom owner _ none _ le_rfl) hp hblock rfl

/-- A write to another block leaves the vectors alone. -/
theorem store {i j size : Nat} (h : pool.Holds a view) (v : Byte α)
    (hsize : view.sizes[j]? = some size) (hi : i < size) :
    ∃ p a', pool.others[j]? = some p ∧ storeByte p i v a = .ok ((), a') ∧ pool.Holds a' view := by
  obtain ⟨ptrs, b, owner, ha, hin⟩ := h
  have hj : j < pool.others.length := hin.count ▸ (List.getElem?_eq_some_iff.mp hsize).1
  obtain ⟨k, block, hk, hp, hblock, hbsize⟩ :=
    hin.others j _ size (List.getElem?_eq_getElem hj) hsize
  obtain ⟨a', hrun, hback⟩ := ha.storeByte (v := v) hblock hp (hbsize ▸ hi)
  refine ⟨_, a', List.getElem?_eq_getElem hj, hrun, ptrs, _, owner, hback, hin.length, hin.count,
    ?_, ?_⟩
  · -- the block written is nobody's, so it is no vector's
    intro k' vector l hv hl
    refine (hin.vectors k' vector l hv hl).keeps (Changes.set hk _) fun i hi _ =>
      ⟨fun hmem => ?_, hi⟩
    exact Option.some_ne_none k' (hi.symm.trans hmem)
  · exact hin.others.store hblock rfl

theorem new (h : pool.Holds a view) : ∃ vector a', vectorNewAt a = .ok (vector, a') ∧
    Pool.Holds { pool with vectors := pool.vectors ++ [vector] } a' { view with lists := view.lists
      ++ [[]] } := by
  obtain ⟨ptrs, b, owner, ha, hin⟩ := h
  obtain ⟨vector, a', ptrs', b', hrun, hback, hc, hnew⟩ :=
    HasVector.new ha (mem_ownerFrom owner b.blocks.length (some pool.vectors.length))
  refine ⟨vector, a', hrun, ptrs', b', _, hback,
    hin.change hc hnew List.getElem?_concat_length ?_ ?_ fun k' hk' => ⟨?_, ?_⟩⟩
  · rw [hin.length]
    exact List.getElem?_concat_length
  · rw [List.length_append, List.length_append, hin.length]
    rfl
  · exact concat_of_ne pool.vectors vector hk'
  · exact concat_of_ne view.lists [] (hin.length ▸ hk')

variable [DecidableEq α]

theorem push (h : pool.Holds a view) (v : α) (hv : pool.vectors[k]? = some vector)
    (hl : view.lists[k]? = some l) (hfits : Blocks.Fits (2 * (wordSize * l.length))) :
    ∃ a', vectorPushAt vector v a = .ok ((), a') ∧
      pool.Holds a' { view with lists := view.lists.set k (l ++ [v]) } := by
  obtain ⟨ptrs, b, owner, ha, hin⟩ := h
  obtain ⟨a', ptrs', b', hrun, hback, hc, h'⟩ :=
    (has_ownerFrom (hin.vectors k vector l hv hl)).push ha v
    (mem_ownerFrom owner b.blocks.length (some k)) hfits
  exact ⟨a', hrun, ptrs', b', _, hback, hin.changed hc h' hv⟩

theorem set (h : pool.Holds a view) (v : α) (hv : pool.vectors[k]? = some vector)
    (hl : view.lists[k]? = some l) (hi : i < l.length) :
    ∃ a', vectorSetAt vector i v a = .ok ((), a') ∧
      pool.Holds a' { view with lists := view.lists.set k (l.set i v) } := by
  obtain ⟨ptrs, b, owner, ha, hin⟩ := h
  obtain ⟨a', b', hrun, hback, hc, h'⟩ := (has_ownerFrom (hin.vectors k vector l hv hl)).set ha v hi
  exact ⟨a', hrun, ptrs, b', _, hback, hin.changed hc h' hv⟩

theorem set_stop (h : pool.Holds a view) (v : α) (hv : pool.vectors[k]? = some vector)
    (hl : view.lists[k]? = some l) (hi : l.length ≤ i) :
    vectorSetAt vector i v a = .error (.outOfRange i) := by
  obtain ⟨ptrs, b, owner, ha, hin⟩ := h
  exact (hin.vectors k vector l hv hl).set_stop ha v hi

theorem get (h : pool.Holds a view) (hv : pool.vectors[k]? = some vector)
    (hl : view.lists[k]? = some l) (i : Nat) : vectorGetAt vector i a = match l[i]? with
      | some v => .ok (v, a)
      | none => .error (.outOfRange i) := by
  obtain ⟨ptrs, b, owner, ha, hin⟩ := h
  exact (hin.vectors k vector l hv hl).get ha i

end Pool.Holds

/-! ### Sequences of operations

The run on the arena is compared with the run on lists, one operation at a time.  Where
the operation on lists is `undefined`, nothing is said: a request that does not fit, or an
access to a block or a vector that there is not.
-/

namespace PoolOp

variable {pool : Pool} {view : PoolView α} [DecidableEq α]

/-- Every operation keeps the vectors what is expected of them. -/
theorem run_holds (h : pool.Holds a view) (op : PoolOp α) :
    match apply view op with
    | .ok view' => ∃ pool' a', run pool op a = .ok (pool', a') ∧ pool'.Holds a' view'
    | .error (.outOfRange i) => run pool op a = .error (.outOfRange i)
    | .error .undefined => True := by
  cases op with
  -- one case for each operation, each closed by the lemma of that name
  | alloc size =>
      simp only [apply]
      by_cases hfits : Blocks.Fits size
      · rw [if_pos hfits]
        obtain ⟨p, a', hrun, h'⟩ := h.alloc hfits
        refine ⟨_, a', ?_, h'⟩
        simp only [run, StateExcept.bind_of_ok hrun]
        rfl
      · rw [if_neg hfits]
        trivial
  | store j i v =>
      cases hsize : view.sizes[j]? with
      | none =>
          simp only [apply, hsize]
      | some size =>
          simp only [apply, hsize]
          by_cases hi : i < size
          · rw [if_pos hi]
            obtain ⟨p, a', hp, hrun, h'⟩ := h.store v hsize hi
            refine ⟨pool, a', ?_, h'⟩
            simp only [run, hp, orUndefined_bind_apply, StateExcept.bind_of_ok hrun]
            rfl
          · rw [if_neg hi]
            trivial
  | new =>
      obtain ⟨vector, a', hrun, h'⟩ := h.new
      refine ⟨_, a', ?_, h'⟩
      simp only [run, StateExcept.bind_of_ok hrun]
      rfl
  | push k ptr =>
      cases hl : view.lists[k]? with
      | none =>
          simp only [apply, hl]
      | some l =>
          simp only [apply, hl]
          by_cases hfits : Blocks.Fits (2 * (wordSize * l.length))
          · rw [if_pos hfits]
            obtain ⟨vector, hv⟩ := h.exists_vector hl
            obtain ⟨a', hrun, h'⟩ := h.push ptr hv hl hfits
            refine ⟨pool, a', ?_, h'⟩
            simp only [run, hv, orUndefined_bind_apply, StateExcept.bind_of_ok hrun]
            rfl
          · rw [if_neg hfits]
            trivial
  | set k index ptr =>
      cases hl : view.lists[k]? with
      | none =>
          simp only [apply, hl]
      | some l =>
          simp only [apply, hl]
          obtain ⟨vector, hv⟩ := h.exists_vector hl
          by_cases hi : index < l.length
          · rw [if_pos hi]
            obtain ⟨a', hrun, h'⟩ := h.set ptr hv hl hi
            refine ⟨pool, a', ?_, h'⟩
            simp only [run, hv, orUndefined_bind_apply, StateExcept.bind_of_ok hrun]
            rfl
          · rw [if_neg hi]
            have hstop := h.set_stop ptr hv hl (Nat.le_of_not_lt hi)
            simp only [run, hv, orUndefined_bind_apply]
            exact StateExcept.bind_eq_error.mpr (Or.inl hstop)

/-- A sequence of operations does. -/
theorem foldlM_holds (ops : List (PoolOp α)) (h : pool.Holds a view) :
    match ops.foldlM apply view with
    | .ok view' => ∃ pool' a', ops.foldlM run pool a = .ok (pool', a') ∧ pool'.Holds a' view'
    | .error (.outOfRange i) => ops.foldlM run pool a = .error (.outOfRange i)
    | .error .undefined => True := by
  -- on the operations: what holds behind the first is what the induction asks for
  induction ops generalizing a pool view with
  | nil => exact ⟨pool, a, rfl, h⟩
  | cons op ops ih =>
      rw [List.foldlM_cons, List.foldlM_cons]
      have hop := run_holds h op
      cases happ : apply view op with
      | ok view1 =>
          rw [happ] at hop
          obtain ⟨pool1, a1, hrun, h1⟩ := hop
          rw [StateExcept.bind_of_ok hrun]
          exact ih h1
      | error e =>
          cases e with
          | outOfRange i =>
              rw [happ] at hop
              exact StateExcept.bind_eq_error.mpr (Or.inl hop)
          | undefined => trivial

end PoolOp

/--
**In one arena each vector is the list it is used as, whatever else is given out and written
there.** `malloc` is taken to succeed whenever the arena needs another region.
-/
theorem vectors_in_arena [DecidableEq α] (mem : Nat → Nat → Byte α) (ops : List (PoolOp α)) :
    PoolOp.Refines mem ops := by
  have hops := PoolOp.foldlM_holds ops (Pool.Holds.empty mem)
  unfold PoolOp.Refines PoolOp.applyAll PoolOp.runAll
  cases happ : ops.foldlM PoolOp.apply ({ lists := [], sizes := [] } : PoolView α) with
  | ok view =>
      rw [happ] at hops
      obtain ⟨pool, a, hrun, h⟩ := hops
      exact ⟨pool, a, hrun, h.length, fun k vector l hv hl i => h.get hv hl i⟩
  | error e =>
      rw [happ] at hops
      cases e with
      | outOfRange i => exact hops
      | undefined => trivial

example : PoolOp.applyAll [.new, .alloc 100, .new, .push 1 'b', .store 0 99 ⟨.elem 'd', 0⟩,
      .push 0 'a', .set 1 0 'c'] = .ok { lists := [['a'], ['c']], sizes := [100] } := rfl

end MyLang
