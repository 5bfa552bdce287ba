/-
A program gets from an arena what it expects.

Every block has its spot in the arena, and the spots are stacked below the top.  A step
puts a spot on the stack, takes the stack back to a mark, or sets a byte inside of one
spot, which is in no other.  That every block reads as it should follows over the whole
run.

The blocks a program has are a list, and so are its marks; `Client.Inv` gives each of them
its place.  That is the whole of the invariant: two blocks are apart because their spots
are stacked, and a mark is good for going back because it is a former top, below which the
spots from before it lie, and above which those that came later.

Nothing here looks at regions one by one.  What an operation of the arena does to its top
and to the words below is taken from `Proofs/Arena.lean`, and each operation of a program
is one lemma over it: `push` for new words, `write` for a byte, `back` for a former top.
`arena_realloc` and `arena_memdup` are a new block and a loop of bytes that are set, so
they need nothing else.

`malloc` gives the memory that is asked for, here and in `Arena.lean`.
-/
import MyLang.Proofs.Arena

namespace MyLang

variable {β : Type} {a a' : Arena β} {c : Client β} {b : Blocks β} {ptr : DataPtr} {block : Block β}
  {p : ℕ ×ₗ ℕ} {k i : Nat}

/-- The words of a block: their region by its number, the first of them and how many. -/
structure Spot where
  index : Nat
  start : Nat
  words : Nat

/-- From where to where a spot is. -/
def Spot.span (s : Spot) : (ℕ ×ₗ ℕ) × (ℕ ×ₗ ℕ) :=
  (toLex (s.index, s.start), toLex (s.index, s.start + s.words))

variable {s s' : Spot} {spots : List Spot} {tops : List (ℕ ×ₗ ℕ)}

/-- An arena with one byte set. -/
def Arena.setByte (a : Arena β) (ptr : DataPtr) (i : Nat) (v : β) : Arena β :=
  { a with mem := Function.update a.mem ptr.region (Function.update (a.mem ptr.region)
    (ptr.offset + i) v) }

/-! ### A block at its spot

A pointer and a number of bytes are a block if the words of the spot are in use and hold
them.
-/

/-- The pointer is to the spot, the spot is in use and holds the block. -/
structure Placed (a : Arena β) (s : Spot) (ptr : DataPtr) (block : Block β) : Prop where
  region : ∃ r, a.regions[s.index]? = some r ∧
    ptr = { region := r.addr, offset := wordSize * s.start } ∧ s.start + s.words ≤ r.count
  size : block.size ≤ wordSize * s.words
  reads : ∀ i < block.size, ∀ v, block.bytes i = some v → a.mem ptr.region (ptr.offset + i) = v

namespace Placed

/-- The bytes of a block are in memory. -/
theorem inRoom (h : Placed a s ptr block) (hok : a.RegionsOK) (hi : i < block.size) :
    ∃ r, a.regions.find? (fun r => r.addr = ptr.region) = some r ∧ ptr.offset + i < r.room := by
  obtain ⟨r, hr, rfl, hcount⟩ := h.region
  refine ⟨r, (Arena.find_addr hok hr).1, ?_⟩
  have hmem := List.mem_of_getElem? hr
  have hcap := hok.count r hmem
  have hroom := hok.room r hmem
  have hsize := h.size
  simp only [wordSize] at *
  omega

theorem load_eq (h : Placed a s ptr block) (hok : a.RegionsOK) (hi : i < block.size) :
    a.load ptr i = some (a.mem ptr.region (ptr.offset + i)) := by
  obtain ⟨r, hr, hroom⟩ := h.inRoom hok hi
  rw [Arena.load, hr, Option.bind_eq_bind, Option.bind_some, if_pos hroom]

theorem store_eq (h : Placed a s ptr block) (hok : a.RegionsOK) (hi : i < block.size) (v : β) :
    a.store ptr i v = some (a.setByte ptr i v) := by
  obtain ⟨r, hr, hroom⟩ := h.inRoom hok hi
  rw [Arena.store, hr, Option.bind_eq_bind, Option.bind_some, if_pos hroom]
  rfl

/-- Blocks in one region are where their spots are. -/
theorem apart {ptr' : DataPtr} {block' : Block β} (h : Placed a s ptr block)
    (h' : Placed a s' ptr' block') (hok : a.RegionsOK) (hspan : s.span.2 ≤ s'.span.1)
    (hregion : ptr.region = ptr'.region) : ptr.offset + block.size ≤ ptr'.offset := by
  obtain ⟨r, hr, rfl, -⟩ := h.region
  obtain ⟨r', hr', rfl, -⟩ := h'.region
  have hindex := hok.addr_inj hr hr' hregion
  have hsize := h.size
  rcases (Prod.Lex.toLex_le_toLex ..).mp hspan with hlt | ⟨-, hle⟩
  · exact absurd hindex hlt.ne
  · show wordSize * s.start + block.size ≤ wordSize * s'.start
    simp only [wordSize] at *
    omega

/-- A block below what is kept stays where it is. -/
theorem keeps (h : Placed a s ptr block) (hkeeps : Arena.Keeps a a' p) (hmem : a'.mem = a.mem)
    (hspan : s.span.2 ≤ p) : Placed a' s ptr block := by
  obtain ⟨r, hr, hptr, hcount⟩ := h.region
  have hindex : s.index ≤ (ofLex p).1 := by
    rcases (Prod.Lex.le_iff ..).mp hspan with hlt | ⟨heq, -⟩
    · exact hlt.le
    · exact heq.le
  obtain ⟨r', hr', haddr, -, hkept⟩ := hkeeps _ r hr hindex
  refine ⟨⟨r', hr', by rw [haddr]; exact hptr, hkept _ hcount hspan⟩, h.size, fun i hi v hv => ?_⟩
  rw [hmem]
  exact h.reads i hi v hv

end Placed

/-- A mark below what is kept stays where it stands. -/
theorem Arena.MarkedAt.keeps {m : ArenaMark} {q : ℕ ×ₗ ℕ} (h : a.MarkedAt m q)
    (hkeeps : Arena.Keeps a a' p) (hle : q ≤ p) : a'.MarkedAt m q := by
  unfold MarkedAt at h ⊢
  rcases hregion : m.region with _ | addr
  · rw [hregion] at h
    exact h
  · rw [hregion] at h
    obtain ⟨i, r, hr, rfl, hcount, rfl⟩ := h
    have hi : i ≤ (ofLex p).1 := by
      rcases (Prod.Lex.le_iff ..).mp hle with hlt | ⟨heq, -⟩
      · exact hlt.le
      · exact heq.le
    obtain ⟨r', hr', haddr, hcap, -⟩ := hkeeps i r hr hi
    exact ⟨i, r', hr', haddr, by rw [hcap]; exact hcount, rfl⟩

/-! ### The invariant

The spots are in the order in which the blocks came in, and so are the marks among them.
-/

/-- Each block has its spot, each mark a former top, and both are stacked. -/
structure Client.Inv (c : Client β) (b : Blocks β) (spots : List Spot) (tops : List (ℕ ×ₗ ℕ)) :
    Prop where
  ok : c.arena.OK
  used : b.used = true → c.arena.end_ ≠ none
  stacked : Stacked (spots.map Spot.span) c.arena.top
  ptrs : c.ptrs.length = spots.length
  blocks : b.blocks.length = spots.length
  placed : ∀ (k : Nat) s ptr block, spots[k]? = some s → c.ptrs[k]? = some ptr →
    b.blocks[k]? = some block → Placed c.arena s ptr block
  marks : b.marks = c.marks.map Prod.snd
  marksTops : c.marks.length = tops.length
  former : Stacked (tops.map fun q => (q, q)) c.arena.top
  counts : Stacked (c.marks.map fun m => (m.2, m.2)) spots.length
  marked : ∀ (j : Nat) m q, c.marks[j]? = some m → tops[j]? = some q →
    c.arena.MarkedAt m.1 q ∧ ∀ s ∈ spots.take m.2, s.span.2 ≤ q

namespace Client.Inv

theorem init (mem : Nat → Nat → β) : Client.Inv (Client.empty mem) Blocks.empty [] [] := by
  refine ⟨⟨⟨?_, ?_, ?_, ?_⟩, Or.inl ⟨rfl, rfl⟩⟩, ?_, Stacked.nil, rfl, rfl, ?_, rfl, rfl,
    Stacked.nil, Stacked.nil, ?_⟩ <;> simp [Client.empty, Arena.empty, Blocks.empty]

/-- A block has its pointer and its spot. -/
theorem get (h : c.Inv b spots tops) (hk : b.blocks[k]? = some block) :
    ∃ s ptr, spots[k]? = some s ∧ c.ptrs[k]? = some ptr ∧ Placed c.arena s ptr block := by
  have hlt := (List.getElem?_eq_some_iff.mp hk).1
  rw [h.blocks] at hlt
  have hs := List.getElem?_eq_getElem hlt
  have hptr := List.getElem?_eq_getElem (h.ptrs ▸ hlt)
  exact ⟨_, _, hs, hptr, h.placed k _ _ _ hs hptr hk⟩

/-- Two blocks have no byte in common. -/
theorem apart {k' : Nat} {ptr' : DataPtr} {block' : Block β} (h : c.Inv b spots tops) (hne : k ≠ k')
    (hptr : c.ptrs[k]? = some ptr) (hptr' : c.ptrs[k']? = some ptr')
    (hk : b.blocks[k]? = some block) (hk' : b.blocks[k']? = some block')
    (hregion : ptr.region = ptr'.region) :
    ptr.offset + block.size ≤ ptr'.offset ∨ ptr'.offset + block'.size ≤ ptr.offset := by
  obtain ⟨s, q, hs, hq, hplaced⟩ := h.get hk
  obtain ⟨s', q', hs', hq', hplaced'⟩ := h.get hk'
  obtain rfl := Option.some.inj (hq.symm.trans hptr)
  obtain rfl := Option.some.inj (hq'.symm.trans hptr')
  have hspan : (spots.map Spot.span)[k]? = some s.span := by
    rw [List.getElem?_map, hs, Option.map_some]
  have hspan' : (spots.map Spot.span)[k']? = some s'.span := by
    rw [List.getElem?_map, hs', Option.map_some]
  rcases Nat.lt_or_gt_of_ne hne with hlt | hlt
  · exact Or.inl (hplaced.apart hplaced' h.ok.regions (h.stacked.apart hlt hspan hspan') hregion)
  · exact Or.inr (hplaced'.apart hplaced h.ok.regions
      (h.stacked.apart hlt hspan' hspan) hregion.symm)

/-- **The blocks of a program are what it expects.** -/
theorem has (h : c.Inv b spots tops) : c.Has b := by
  refine ⟨h.ptrs.trans h.blocks.symm, fun ptr hmem => ?_, fun k ptr block hptr hk i hi => ?_,
    fun k ptr block hptr hk i hi v hv => ?_,
      fun k k' ptr ptr' block block' hne hptr hptr' hk hk' hregion => ?_⟩
  · obtain ⟨k, hk⟩ := List.mem_iff_getElem?.mp hmem
    have hlt := (List.getElem?_eq_some_iff.mp hk).1
    rw [h.ptrs, ← h.blocks] at hlt
    obtain ⟨s, q, -, hq, hplaced⟩ := h.get (List.getElem?_eq_getElem hlt)
    obtain rfl := Option.some.inj (hq.symm.trans hk)
    obtain ⟨r, -, rfl, -⟩ := hplaced.region
    exact Nat.mul_mod_right _ _
  · obtain ⟨s, q, -, hq, hplaced⟩ := h.get hk
    obtain rfl := Option.some.inj (hq.symm.trans hptr)
    exact ⟨_, hplaced.load_eq h.ok.regions hi⟩
  · obtain ⟨s, q, -, hq, hplaced⟩ := h.get hk
    obtain rfl := Option.some.inj (hq.symm.trans hptr)
    rw [hplaced.load_eq h.ok.regions hi, hplaced.reads i hi v hv]
  · exact h.apart hne hptr hptr' hk hk' hregion

/-! ### Blocks come in

The new words lie above every spot there is, so no block and no mark is touched.
-/

/-- A mark keeps its count when blocks come in. -/
theorem count_le {j : Nat} {m : ArenaMark × Nat} (h : c.Inv b spots tops)
    (hm : c.marks[j]? = some m) : m.2 ≤ spots.length := by
  refine h.counts.below (m.2, m.2) (List.mem_map.mpr ⟨m, List.mem_of_getElem? hm, rfl⟩)

/-- **New words of the arena are a new block.** -/
theorem push {e start words size : Nat} {bytes : Nat → Option β} (h : c.Inv b spots tops)
    (halloc : Arena.Allocated c.arena a' ptr e start words) (hsize : size ≤ wordSize * words) :
    (c.push (ptr, a')).Inv (b.push size 0 bytes)
    (spots ++ [{ index := e, start, words }]) tops := by
  obtain ⟨r, hr, hptr, hcount⟩ := halloc.region
  have hkeeps := halloc.grows.keeps c.arena.top
  have htop : a'.top = toLex (e, start + words) := by
    rw [halloc.ends.top_eq, Arena.countAt_eq hr, hcount]
  have hspan : toLex (e, start) ≤ toLex (e, start + words) :=
    (Prod.Lex.toLex_le_toLex ..).mpr (Or.inr ⟨rfl, Nat.le_add_right _ _⟩)
  have hle : c.arena.top ≤ a'.top := htop ▸ halloc.start.trans hspan
  refine ⟨halloc.ok,
    fun _ => by
      simp [Client.push, halloc.ends.end_], ?_, ?_, ?_, fun k s' ptr' block' hs hq hk => ?_,
    h.marks, h.marksTops, h.former.mono hle, h.counts.mono ?_, fun j m q hm hq => ?_⟩
  · show Stacked _ a'.top
    rw [htop, List.map_append, List.map_singleton]
    exact h.stacked.push halloc.start hspan
  · simp [Client.push, h.ptrs]
  · simp [Blocks.push, h.blocks]
  · rcases Nat.lt_or_ge k spots.length with hlt | hge
    · rw [List.getElem?_append_left hlt] at hs
      rw [Client.push, List.getElem?_append_left (h.ptrs ▸ hlt)] at hq
      rw [Blocks.push, List.getElem?_append_left (h.blocks ▸ hlt)] at hk
      refine (h.placed k s' ptr' block' hs hq hk).keeps hkeeps halloc.mem (h.stacked.below _ ?_)
      exact List.mem_map_of_mem (List.mem_of_getElem? hs)
    · have hlen : k = spots.length := by
        have := (List.getElem?_eq_some_iff.mp hs).1
        rw [List.length_append, List.length_singleton] at this
        omega
      subst hlen
      rw [List.getElem?_append_right (le_refl _), Nat.sub_self] at hs
      rw [Client.push, List.getElem?_append_right h.ptrs.le, h.ptrs, Nat.sub_self] at hq
      rw [Blocks.push, List.getElem?_append_right h.blocks.le, h.blocks, Nat.sub_self] at hk
      obtain rfl := Option.some.inj hs
      obtain rfl := Option.some.inj hq
      obtain rfl := Option.some.inj hk
      exact ⟨⟨r, hr, hptr, hcount.le⟩, hsize, fun i _ v hv => by simp at hv⟩
  · rw [List.length_append]
    exact Nat.le_add_right _ _
  · obtain ⟨hmarked, hbelow⟩ := h.marked j m q hm hq
    have hqtop : q ≤ c.arena.top :=
      h.former.below (q, q) (List.mem_map.mpr ⟨q, List.mem_of_getElem? hq, rfl⟩)
    refine ⟨hmarked.keeps hkeeps hqtop, fun s' hs' => hbelow s' ?_⟩
    rw [List.take_append_of_le_length (h.count_le hm)] at hs'
    exact hs'

/-! ### Bytes are set

A byte that is set lies in one spot, and the spots are apart.
-/

/-- **A byte of a block is set.**  It is in no other block. -/
theorem write {bytes : Nat → Option β} {v : β} (h : c.Inv b spots tops)
    (hk : b.blocks[k]? = some block) (hptr : c.ptrs[k]? = some ptr)
    (hbytes : ∀ j v', bytes j = some v' → if j = i then v' = v else block.bytes j = some v')
    (hi : i < block.size) : Client.Inv { c with arena := c.arena.setByte ptr i v }
      { b with blocks := b.blocks.set k { block with bytes } } spots tops := by
  refine ⟨⟨⟨h.ok.regions.nodup, h.ok.regions.fresh, h.ok.regions.count, h.ok.regions.room⟩, ?_⟩,
    h.used, h.stacked,
    h.ptrs, ?_, fun k' s' ptr' block' hs hq hk' => ?_, h.marks, h.marksTops, h.former, h.counts,
      h.marked⟩
  · rcases h.ok.ends with hnone | ⟨e, he⟩
    · exact Or.inl hnone
    · exact Or.inr ⟨e, he.end_, he.lt, he.behind⟩
  · rw [List.length_set]
    exact h.blocks
  · by_cases hne : k = k'
    · subst hne
      obtain rfl := Option.some.inj (hq.symm.trans hptr)
      rw [List.getElem?_set_self (List.getElem?_eq_some_iff.mp hk).1] at hk'
      obtain rfl := Option.some.inj hk'
      have hplaced := h.placed k s' ptr' block hs hq hk
      refine ⟨hplaced.region, hplaced.size, fun j hj v' hv' => ?_⟩
      have := hbytes j v' hv'
      by_cases hji : j = i
      · rw [if_pos hji] at this
        rw [this, hji]
        simp [Arena.setByte]
      · rw [if_neg hji] at this
        rw [← hplaced.reads j hj v' this]
        simp [Arena.setByte, hji]
    · rw [List.getElem?_set_ne hne] at hk'
      have hplaced := h.placed k' s' ptr' block' hs hq hk'
      refine ⟨hplaced.region, hplaced.size, fun j hj v' hv' => ?_⟩
      rw [← hplaced.reads j hj v' hv']
      by_cases hregion : ptr.region = ptr'.region
      · have hoff : ptr'.offset + j ≠ ptr.offset + i := by
          rcases h.apart hne hptr hq hk hk' hregion with hle | hle <;> omega
        simp [Arena.setByte, hoff, hregion]
      · simp [Arena.setByte, Ne.symm hregion]

/-- The byte after the ones that have been copied. -/
private theorem copied_byte {n : Nat} {bytes : Nat → Option β} {v : β}
    (hv : ∀ v', bytes n = some v' → v' = v) (j : Nat) (v' : β)
    (h : (if j < n + 1 then bytes j else none) = some v') :
    if j = n then v' = v else (if j < n then bytes j else none) = some v' := by
  by_cases hj : j = n
  · subst hj
    rw [if_pos rfl]
    rw [if_pos (Nat.lt_succ_self _)] at h
    exact hv v' h
  · rw [if_neg hj]
    by_cases hlt : j < n
    · rw [if_pos hlt]
      rw [if_pos (by omega)] at h
      exact h
    · rw [if_neg (by omega)] at h
      cases h

/--
**The copy loop of `arena_realloc` and `arena_memdup` makes the new block begin like another
one.**
-/
theorem copy {n size : Nat} {src dest : DataPtr} (h : c.Inv (b.push size i block.bytes) spots tops)
    (hk : b.blocks[k]? = some block) (hsrc : c.ptrs[k]? = some src)
    (hdest : c.ptrs[b.blocks.length]? = some dest) (hold : i + n ≤ block.size)
    (hnew : i + n ≤ size) : ∃ a', Arena.copyFrom dest src i n c.arena = some a' ∧
      Client.Inv { c with arena := a' } (b.push size (i + n) block.bytes) spots tops := by
  induction n generalizing c i with
  | zero => exact ⟨c.arena, rfl, h⟩
  | succ n ih =>
      have hlt := (List.getElem?_eq_some_iff.mp hk).1
      have hk' : (b.push size i block.bytes).blocks[k]? = some block := by
        rw [Blocks.push, List.getElem?_append_left hlt]
        exact hk
      have hlast : (b.push size i block.bytes).blocks[b.blocks.length]? =
          some { size, bytes := fun j => if j < i then block.bytes j else none } := by
        rw [Blocks.push, List.getElem?_append_right (le_refl _), Nat.sub_self]
        rfl
      obtain ⟨s, q, -, hq, hplaced⟩ := h.get hk'
      obtain rfl := Option.some.inj (hq.symm.trans hsrc)
      obtain ⟨s', q', -, hq', hplaced'⟩ := h.get hlast
      obtain rfl := Option.some.inj (hq'.symm.trans hdest)
      have hload := hplaced.load_eq h.ok.regions (show i < block.size by omega)
      have hstore := hplaced'.store_eq h.ok.regions (show i < size by omega)
      have hwrite :=
        h.write hlast hdest (copied_byte fun v' hv' => (hplaced.reads i (by omega) v' hv').symm)
        (show i < size by omega)
      have hset : (b.push size i block.bytes).blocks.set b.blocks.length
          { size, bytes := fun j => if j < i + 1 then block.bytes j else none } =
          (b.push size (i + 1) block.bytes).blocks := by
        rw [Blocks.push, List.set_append_right _ _ (le_refl _), Nat.sub_self]
        rfl
      rw [hset] at hwrite
      obtain ⟨a', hcopy, hinv⟩ := ih (i := i + 1) hwrite hsrc hdest (by omega) (by omega)
      refine ⟨a', ?_, ?_⟩
      · rw [Arena.copyFrom, hload, Option.bind_eq_bind, Option.bind_some, hstore]
        exact hcopy
      · rw [show i + (n + 1) = i + 1 + n by omega]
        exact hinv

/-! ### The arena goes back

Going back to a former top takes away the spots above it, with their blocks and marks.
-/

/-- **Back at a former top there are the blocks and the marks from before it.** -/
theorem back {n m : Nat} (h : c.Inv b spots tops) (hback : Arena.BackTo c.arena a' p)
    (hspots : ∀ s ∈ spots.take n, s.span.2 ≤ p) (htops : ∀ q ∈ tops.take m, q ≤ p)
    (hcounts : ∀ x ∈ c.marks.take m, x.2 ≤ (spots.take n).length) :
    Client.Inv { arena := a', ptrs := c.ptrs.take n, marks := c.marks.take m }
      { b with blocks := b.blocks.take n, marks := b.marks.take m } (spots.take n)
      (tops.take m) := by
  refine ⟨hback.ok, fun hused => hback.used (h.used hused), ?_, ?_, ?_,
    fun k s' ptr' block' hs hq hk => ?_, ?_, ?_, ?_, ?_, fun j x q hm hq => ?_⟩
  · show Stacked _ a'.top
    rw [hback.top, List.map_take]
    refine h.stacked.take fun x hx => ?_
    rw [← List.map_take] at hx
    -- what lies below the mark is what was there when it was made
    obtain ⟨s', hs', rfl⟩ := List.mem_map.mp hx
    exact hspots s' hs'
  · rw [List.length_take, List.length_take, h.ptrs]
  · show (b.blocks.take n).length = _
    rw [List.length_take, List.length_take, h.blocks]
  · have hmem := List.mem_of_getElem? hs
    rw [List.getElem?_take] at hs hq hk
    split at hs
    · rename_i hlt
      rw [if_pos hlt] at hq hk
      exact (h.placed k s' ptr' block' hs hq hk).keeps hback.keeps hback.mem (hspots s' hmem)
    · cases hs
  · show b.marks.take m = _
    rw [h.marks, List.map_take]
  · rw [List.length_take, List.length_take, h.marksTops]
  · show Stacked _ a'.top
    rw [hback.top, List.map_take]
    refine h.former.take fun x hx => ?_
    rw [← List.map_take] at hx
    obtain ⟨q, hq, rfl⟩ := List.mem_map.mp hx
    exact htops q hq
  · rw [List.map_take]
    refine h.counts.take fun x hx => ?_
    rw [← List.map_take] at hx
    obtain ⟨y, hy, rfl⟩ := List.mem_map.mp hx
    exact hcounts y hy
  · have hmem := List.mem_of_getElem? hq
    rw [List.getElem?_take] at hm hq
    split at hm
    · rename_i hlt
      rw [if_pos hlt] at hq
      obtain ⟨hmarked, hbelow⟩ := h.marked j x q hm hq
      refine ⟨hmarked.keeps hback.keeps (htops q hmem), fun s' hs' => hbelow s' ?_⟩
      rw [List.take_take] at hs'
      exact List.take_subset_take_left spots (min_le_left _ _) hs'
    · cases hm

/-- Where the arena is, is a former top from now on. -/
theorem snapshot {m : ArenaMark} (h : c.Inv b spots tops) (hm : c.arena.MarkedAt m c.arena.top) :
    Client.Inv { c with marks := c.marks ++ [(m, c.ptrs.length)] }
      { b with marks := b.marks ++ [b.blocks.length] } spots (tops ++ [c.arena.top]) := by
  refine ⟨h.ok, h.used, h.stacked, h.ptrs, h.blocks, h.placed, ?_, ?_, ?_, ?_,
    fun j x q hx hq => ?_⟩
  · show b.marks ++ _ = _
    rw [h.marks, List.map_append, List.map_singleton, h.blocks, h.ptrs]
  · rw [List.length_append, List.length_append, h.marksTops]
    rfl
  · rw [List.map_append, List.map_singleton]
    exact h.former.push (le_refl _) (le_refl _)
  · rw [List.map_append, List.map_singleton, ← h.ptrs]
    exact (h.ptrs ▸ h.counts).push (le_refl _) (le_refl _)
  · rcases Nat.lt_or_ge j c.marks.length with hlt | hge
    · rw [List.getElem?_append_left hlt] at hx
      rw [List.getElem?_append_left (h.marksTops ▸ hlt)] at hq
      exact h.marked j x q hx hq
    · have hlen : j = c.marks.length := by
        have := (List.getElem?_eq_some_iff.mp hx).1
        rw [List.length_append, List.length_singleton] at this
        omega
      subst hlen
      rw [List.getElem?_append_right (le_refl _), Nat.sub_self] at hx
      rw [h.marksTops, List.getElem?_append_right (le_refl _), Nat.sub_self] at hq
      obtain rfl := Option.some.inj hx
      obtain rfl := Option.some.inj hq
      refine ⟨hm, fun s' hs' => h.stacked.below _ (List.mem_map_of_mem (List.mem_of_mem_take hs'))⟩

/-- Back at a mark there are the blocks that were there. -/
theorem rewind {j n : Nat} (h : c.Inv b spots tops) (hn : b.marks[j]? = some n) :
    ∃ x a', c.marks[j]? = some x ∧ x.2 = n ∧ c.arena.rewind x.1 = some a' ∧
      Client.Inv { arena := a', ptrs := c.ptrs.take n, marks := c.marks.take (j + 1) }
        { b with blocks := b.blocks.take n, marks := b.marks.take (j + 1) } (spots.take n)
        (tops.take (j + 1)) := by
  rw [h.marks, List.getElem?_map, Option.map_eq_some_iff] at hn
  obtain ⟨x, hx, rfl⟩ := hn
  have hlt := (List.getElem?_eq_some_iff.mp hx).1
  obtain ⟨p, hp⟩ : ∃ p, tops[j]? = some p := ⟨_, List.getElem?_eq_getElem (h.marksTops ▸ hlt)⟩
  obtain ⟨hmarked, hbelow⟩ := h.marked j x p hx hp
  obtain ⟨a', hrewind, hback⟩ := Arena.rewind_back h.ok hmarked
  refine ⟨x, a', hx, rfl, hrewind, h.back hback hbelow (fun q hq' => ?_) fun y hy => ?_⟩
  · -- the marks up to this one are of tops below it
    have hget : (tops.map fun q => (q, q))[j]? = some (p, p) := by
      rw [List.getElem?_map, hp, Option.map_some]
    refine (h.former.take_succ hget).below (q, q) ?_
    rw [← List.map_take]
    exact List.mem_map.mpr ⟨q, hq', rfl⟩
  · have hget : (c.marks.map fun m => (m.2, m.2))[j]? = some (x.2, x.2) := by
      rw [List.getElem?_map, hx, Option.map_some]
    rw [List.length_take_of_le (h.count_le hx)]
    refine (h.counts.take_succ hget).below (y.2, y.2) ?_
    rw [← List.map_take]
    exact List.mem_map.mpr ⟨y, hy, rfl⟩

/-- At the beginning there is nothing. -/
theorem reset (h : c.Inv b spots tops) :
    Client.Inv { arena := c.arena.reset, ptrs := [], marks := [] }
      { b with blocks := [], marks := [] } [] [] := by
  have := h.back (n := 0) (m := 0) (Arena.reset_back h.ok) (by simp) (by simp) (by simp)
  simpa only [List.take_zero] using this

/-- Behind `end` there is nothing a program has. -/
theorem trim (h : c.Inv b spots tops) (hback : Arena.BackTo c.arena a' c.arena.top) :
    Client.Inv { c with arena := a' } b spots tops := by
  have hspots : ∀ s ∈ spots.take spots.length, s.span.2 ≤ c.arena.top := fun s hs =>
    h.stacked.below _ (List.mem_map_of_mem (List.mem_of_mem_take hs))
  have htops : ∀ q ∈ tops.take tops.length, q ≤ c.arena.top := fun q hq =>
    h.former.below (q, q) (List.mem_map.mpr ⟨q, List.mem_of_mem_take hq, rfl⟩)
  have hcounts : ∀ x ∈ c.marks.take tops.length, x.2 ≤ (spots.take spots.length).length :=
    fun x hx => by
    rw [List.take_length]
    exact h.counts.below (x.2, x.2) (List.mem_map.mpr ⟨x, List.mem_of_mem_take hx, rfl⟩)
  have hinv := h.back hback hspots htops hcounts
  have hmarks : b.marks.length = tops.length := by rw [h.marks, List.length_map, h.marksTops]
  rw [List.take_length, List.take_length, List.take_of_length_le h.ptrs.le,
    List.take_of_length_le h.blocks.le,
    List.take_of_length_le h.marksTops.le, List.take_of_length_le hmarks.le] at hinv
  exact hinv

theorem free (c : Client β) :
    Client.Inv { arena := c.arena.free, ptrs := [], marks := [] } Blocks.empty [] [] := by
  refine ⟨(Arena.free_ok c.arena).1, ?_, Stacked.nil, rfl, rfl, ?_, rfl, rfl, Stacked.nil,
    Stacked.nil, ?_⟩ <;> simp [Blocks.empty]

/-! ### A run

Each operation of a program is one of the three ways to change the stack of spots.
-/

private theorem updated_byte {bytes : Nat → Option β} (v : β) (j : Nat) (v' : β)
    (h : Function.update bytes i (some v) j = some v') :
    if j = i then v' = v else bytes j = some v' := by
  by_cases hj : j = i
  · subst hj
    rw [Function.update_self] at h
    rw [if_pos rfl]
    exact (Option.some.inj h).symm
  · rw [Function.update_of_ne hj] at h
    rw [if_neg hj]
    exact h

/-- A new block with nothing in it. -/
theorem alloc {size : Nat} (h : c.Inv b spots tops) (hfits : Blocks.Fits size)
    (bytes : Nat → Option β) :
    ∃ res s, c.arena.alloc size = some res ∧ (c.push res).Inv (b.push size 0 bytes)
      (spots ++ [s]) tops := by
  obtain ⟨ptr, a', e, start, halloc, hallocated⟩ := Arena.alloc_ok h.ok hfits
  exact ⟨(ptr, a'), _, halloc, h.push hallocated (Arena.le_wordsOf hfits)⟩

/-- A new block that begins like another one. -/
theorem allocCopy {n size : Nat} {src : DataPtr} (h : c.Inv b spots tops)
    (hk : b.blocks[k]? = some block) (hsrc : c.ptrs[k]? = some src) (hfits : Blocks.Fits size)
    (hold : n ≤ block.size) (hnew : n ≤ size) :
    ∃ res a' s, c.arena.alloc size = some res ∧ Arena.copyFrom res.1 src 0 n res.2 = some a' ∧
      (c.push (res.1, a')).Inv (b.push size n block.bytes) (spots ++ [s]) tops := by
  obtain ⟨res, s, halloc, hinv⟩ := h.alloc hfits block.bytes
  have hlt := (List.getElem?_eq_some_iff.mp hsrc).1
  have hsrc' : (c.push res).ptrs[k]? = some src := by
    rw [Client.push, List.getElem?_append_left hlt]
    exact hsrc
  have hdest : (c.push res).ptrs[b.blocks.length]? = some res.1 := by
    rw [Client.push, h.blocks, ← h.ptrs, List.getElem?_append_right (le_refl _), Nat.sub_self]
    rfl
  obtain ⟨a', hcopy, hinv'⟩ := hinv.copy (n := n) hk hsrc' hdest (by omega) (by omega)
  rw [Nat.zero_add] at hinv'
  exact ⟨res, a', s, halloc, hcopy, hinv'⟩

/-- **What a program may do goes through, and it gets the blocks it expects.** -/
theorem step {b' : Blocks β} {op : ArenaOp β} (h : c.Inv b spots tops) (hrun : b.run op = some b') :
    ∃ c' spots' tops', c.run op = some c' ∧ c'.Inv b' spots' tops' := by
  -- one case for each operation
  cases op with
  | alloc size =>
      rw [Blocks.run] at hrun
      split at hrun
      · rename_i hfits
        obtain rfl := Option.some.inj hrun
        obtain ⟨res, s, halloc, hinv⟩ := h.alloc hfits _
        exact ⟨_, _, _, by rw [Client.run, halloc]; rfl, hinv⟩
      · cases hrun
  | realloc k oldsz newsz =>
      obtain ⟨block, hk, hrun⟩ := Option.bind_eq_some_iff.mp hrun
      obtain ⟨s, src, -, hsrc, -⟩ := h.get hk
      by_cases hle : newsz ≤ oldsz
      · rw [if_pos hle] at hrun
        obtain rfl := Option.some.inj hrun
        refine ⟨c, spots, tops, ?_, h⟩
        simp only [Client.run, Arena.realloc, hsrc, if_pos hle, Option.bind_eq_bind,
          Option.bind_some, Option.pure_def]
      · rw [if_neg hle] at hrun
        split at hrun
        · rename_i hold
          obtain rfl := Option.some.inj hrun
          obtain ⟨res, a', s', halloc, hcopy, hinv⟩ := h.allocCopy hk hsrc hold.2 hold.1 (by omega)
          refine ⟨_, _, _, ?_, hinv⟩
          simp only [Client.run, Arena.realloc, hsrc, if_neg hle, halloc, hcopy,
            Option.bind_eq_bind, Option.bind_some, Option.pure_def]
        · cases hrun
  | memdup k size =>
      obtain ⟨block, hk, hrun⟩ := Option.bind_eq_some_iff.mp hrun
      obtain ⟨s, src, -, hsrc, -⟩ := h.get hk
      split at hrun
      · rename_i hold
        obtain rfl := Option.some.inj hrun
        obtain ⟨res, a', s', halloc, hcopy, hinv⟩ := h.allocCopy hk hsrc hold.2 hold.1 (le_refl _)
        refine ⟨_, _, _, ?_, hinv⟩
        simp only [Client.run, Arena.memdup, hsrc, halloc, hcopy, Option.bind_eq_bind,
          Option.bind_some, Option.pure_def]
      · cases hrun
  | store k i v =>
      obtain ⟨block, hk, hrun⟩ := Option.bind_eq_some_iff.mp hrun
      obtain ⟨s, ptr, -, hptr, hplaced⟩ := h.get hk
      split at hrun
      · rename_i hi
        obtain rfl := Option.some.inj hrun
        refine ⟨_, spots, tops, ?_, h.write hk hptr (updated_byte v) hi⟩
        rw [Client.run, hptr, Option.bind_eq_bind, Option.bind_some,
          hplaced.store_eq h.ok.regions hi]
        rfl
      · cases hrun
  | snapshot =>
      obtain rfl := Option.some.inj hrun
      obtain ⟨m, hm, hmarked⟩ := Arena.snapshot_ok h.ok
      refine ⟨_, spots, tops ++ [c.arena.top], by rw [Client.run, hm]; rfl, h.snapshot hmarked⟩
  | rewind j =>
      obtain ⟨n, hn, hrun⟩ := Option.bind_eq_some_iff.mp hrun
      obtain rfl := Option.some.inj hrun
      obtain ⟨x, a', hx, rfl, hrewind, hinv⟩ := h.rewind hn
      refine ⟨_, _, _, ?_, hinv⟩
      simp only [Client.run, hx, hrewind, Option.bind_eq_bind, Option.bind_some, Option.pure_def]
  | reset =>
      obtain rfl := Option.some.inj hrun
      exact ⟨_, _, _, rfl, h.reset⟩
  | trim =>
      rw [Blocks.run] at hrun
      split at hrun
      · rename_i hused
        obtain rfl := Option.some.inj hrun
        obtain ⟨a', htrim, hback⟩ := Arena.trim_back h.ok (h.used hused)
        exact ⟨_, _, _, by rw [Client.run, htrim]; rfl, h.trim hback⟩
      · cases hrun
  | free =>
      obtain rfl := Option.some.inj hrun
      exact ⟨_, _, _, rfl, free c⟩

/-- A whole run. -/
theorem runAll {b' : Blocks β} {ops : List (ArenaOp β)} (h : c.Inv b spots tops)
    (hrun : b.runAll ops = some b') :
    ∃ c' spots' tops', c.runAll ops = some c' ∧ c'.Inv b' spots' tops' := by
  induction ops generalizing c b spots tops with
  | nil =>
      obtain rfl := Option.some.inj hrun
      exact ⟨c, spots, tops, rfl, h⟩
  | cons op ops ih =>
      rw [Blocks.runAll, List.foldlM_cons, Option.bind_eq_bind, Option.bind_eq_some_iff] at hrun
      obtain ⟨b1, hop, hrun⟩ := hrun
      obtain ⟨c1, spots1, tops1, hc1, hinv⟩ := h.step hop
      obtain ⟨c', spots', tops', hc', hinv'⟩ := ih hinv hrun
      refine ⟨c', spots', tops', ?_, hinv'⟩
      rw [Client.runAll, List.foldlM_cons, hc1]
      exact hc'

end Client.Inv

/--
**An arena is what a program expects of it.**  Whatever a program does that keeps to its
blocks, to marks it has not gone back behind and to sizes that fit, and that has asked for
memory before it trims, nothing fails, and it has its blocks: apart from each other, and with
what was stored in them.  `malloc` is taken to succeed whenever a region is made.
-/
theorem arena_refines (mem : Nat → Nat → β) (ops : List (ArenaOp β)) (b : Blocks β)
    (hrun : Blocks.empty.runAll ops = some b) :
    ∃ c, (Client.empty mem).runAll ops = some c ∧ c.Has b := by
  obtain ⟨c, spots, tops, hc, hinv⟩ := (Client.Inv.init mem).runAll hrun
  exact ⟨c, hc, hinv.has⟩

/-- A program that fills a region, goes back to a mark and copies a block. -/
def backAndCopy : List (ArenaOp Nat) :=
  [.alloc 10, .store 0 3 7, .snapshot, .alloc 70000, .realloc 0 10 20, .store 2 3 8, .rewind 0,
    .trim, .memdup 0 4]

theorem arena_refines_backAndCopy : ∃ b c, Blocks.empty.runAll backAndCopy = some b ∧
    b.blocks.map Block.size = [10, 4] ∧ (Client.empty fun _ _ => 0).runAll backAndCopy = some c ∧
      c.Has b := by
  obtain ⟨b, hb, hsizes⟩ : ∃ b, Blocks.empty.runAll backAndCopy = some b ∧
      b.blocks.map Block.size = [10, 4] :=
    ⟨_, rfl, rfl⟩
  obtain ⟨c, hc, hhas⟩ := arena_refines (fun _ _ => 0) backAndCopy b hb
  exact ⟨b, c, hb, hsizes, hc, hhas⟩

end MyLang
