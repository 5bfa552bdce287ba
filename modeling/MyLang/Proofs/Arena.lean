/-
The arena keeps what it has handed out.

Where the arena is can be said by a number of a region and a number of words in it, and in
this order it only goes up while it hands out.  So the blocks are stacked below the top,
the marks are former tops, and going back to one of them leaves the blocks that were
there.

`OK` is the invariant: the regions of the list are different ones, their counts are within
their capacities, and nothing of a region behind `end` is in use.  It is this last part
that makes a region that is still there after a rewind good for new words.

`arena_alloc` looks for a region with room from `end` on, and makes a new one if there is
none.  `extend_ok` says what both come to, a region that has room and behind which nothing
is in use, and `take_ok` takes the words from it.  Going back is one lemma as well,
`backTo_of_get`, for any region and any count that is not above what is in use there;
`arena_reset`, `arena_rewind` and `arena_trim` are three ways to choose them.
-/
import MyLang.Arena
import MyLang.Lib.Stacked
import Mathlib.Data.Prod.Lex

namespace MyLang

variable {β : Type} {a a' a1 : Arena β} {size sizeBytes e e' : Nat} {r : Region} {rs : List Region}

namespace Arena

/-! ### What holds of every arena

Tops are compared as pairs, first by the region.
-/

/-- The regions of an arena are different ones, and hold what they are said to. -/
structure RegionsOK (a : Arena β) : Prop where
  nodup : (a.regions.map Region.addr).Nodup
  fresh : ∀ r ∈ a.regions, r.addr < a.fresh
  count : ∀ r ∈ a.regions, r.count ≤ r.capacity
  room : ∀ r ∈ a.regions, wordSize * r.capacity ≤ r.room

/-- The arena is at a word of the region `e`, and nothing of the regions behind it is in use. -/
structure EndsAt (a : Arena β) (e : Nat) : Prop where
  end_ : a.end_ = some e
  lt : e < a.regions.length
  behind : ∀ (j : Nat) r, e < j → a.regions[j]? = some r → r.count = 0

/-- The invariant of an arena. -/
structure OK (a : Arena β) : Prop where
  regions : a.RegionsOK
  ends : (a.end_ = none ∧ a.regions = []) ∨ ∃ e, a.EndsAt e

/-- The words of the region `e` that are given out. -/
def countAt (a : Arena β) (e : Nat) : Nat := (a.regions[e]?.map Region.count).getD 0

/-- Where the arena is. -/
def top (a : Arena β) : ℕ ×ₗ ℕ :=
  match a.end_ with
  | none => toLex (0, 0)
  | some e => toLex (e, a.countAt e)

/-- There may be more regions, and more of each may be in use. -/
def Grows (a a' : Arena β) : Prop := ∀ (j : Nat) r, a.regions[j]? = some r →
  ∃ r', a'.regions[j]? = some r' ∧ r'.addr = r.addr ∧ r'.capacity = r.capacity ∧ r.count ≤ r'.count

theorem Grows.refl : Grows a a := fun _ r h => ⟨r, h, rfl, rfl, le_refl _⟩

theorem Grows.trans {a'' : Arena β} (h : Grows a a') (h' : Grows a' a'') : Grows a a'' := by
  intro j r hr
  obtain ⟨r', hr', haddr, hcap, hcount⟩ := h j r hr
  obtain ⟨r'', hr'', haddr', hcap', hcount'⟩ := h' j r' hr'
  exact ⟨r'', hr'', haddr'.trans haddr, hcap'.trans hcap, hcount.trans hcount'⟩

theorem EndsAt.top_eq (h : a.EndsAt e) : a.top = toLex (e, a.countAt e) := by
  rw [top, h.end_]

theorem countAt_eq (h : a.regions[e]? = some r) : a.countAt e = r.count := by
  rw [countAt, h, Option.map_some, Option.getD_some]

/-! ### A new region

A region has room for what it is made for, and for no less than the default.
-/

/-- With a new region at its end the list of regions is good. -/
theorem grow_ok (h : a.RegionsOK) {capacity : Nat}
    (hcap : regionHeader + wordSize * capacity < 2 ^ 64) : (a.grow capacity).RegionsOK := by
  have hmem : ∀ r, r ∈ (a.grow capacity).regions → r ∈ a.regions ∨
      r = newRegion a.fresh capacity := by
    intro r hr
    rcases List.mem_append.mp hr with hr | hr
    · exact Or.inl hr
    · exact Or.inr (List.mem_singleton.mp hr)
  refine ⟨?_, fun r hr => ?_, fun r hr => ?_, fun r hr => ?_⟩
  · rw [grow, List.map_append, List.map_singleton, List.nodup_append]
    refine ⟨h.nodup, by simp, fun x hx y hy => ?_⟩
    obtain ⟨r, hr, rfl⟩ := List.mem_map.mp hx
    rw [List.mem_singleton.mp hy]
    exact (h.fresh r hr).ne
  · rcases hmem r hr with hr | rfl
    · exact (h.fresh r hr).trans (Nat.lt_succ_self _)
    · exact Nat.lt_succ_self _
  · rcases hmem r hr with hr | rfl
    · exact h.count r hr
    · exact Nat.zero_le _
  · rcases hmem r hr with hr | rfl
    · exact h.room r hr
    · rw [newRegion, Nat.mod_eq_of_lt hcap, Nat.add_sub_cancel_left]

theorem grow_grows (a : Arena β) (capacity : Nat) : Grows a (a.grow capacity) := by
  intro j r hr
  refine ⟨r, ?_, rfl, rfl, le_refl _⟩
  rw [grow, List.getElem?_append_left (List.getElem?_eq_some_iff.mp hr).1]
  exact hr

theorem grow_get (a : Arena β) (capacity : Nat) :
    (a.grow capacity).regions[a.regions.length]? = some (newRegion a.fresh capacity) := by
  rw [grow, List.getElem?_append_right (le_refl _), Nat.sub_self]
  rfl

theorem capacityFor_fits (h : Blocks.Fits sizeBytes) :
    regionHeader + wordSize * capacityFor (wordsOf sizeBytes) < 2 ^ 64 := by
  unfold capacityFor wordsOf
  simp only [Blocks.Fits, regionHeader, wordSize, defaultCapacity] at *
  split <;> omega

theorem le_capacityFor (size : Nat) : size ≤ capacityFor size := by
  unfold capacityFor
  split <;> omega

/-- The words of a block hold its bytes. -/
theorem le_wordsOf (h : Blocks.Fits sizeBytes) : sizeBytes ≤ wordSize * wordsOf sizeBytes := by
  unfold wordsOf
  simp only [Blocks.Fits, wordSize] at *
  omega

/-! ### Allocation

Sizes are rounded up to words, so that a block begins at a word and no two share one.
-/

/-- The first region of an arena that has none. -/
theorem openFirst_ok (h : a.OK) (hfits : Blocks.Fits sizeBytes) :
    ∃ a1 e, a.openFirst (wordsOf sizeBytes) = some a1 ∧ a1.RegionsOK ∧ a1.EndsAt e ∧ Grows a a1 ∧
      a1.top = a.top ∧ a1.mem = a.mem := by
  rcases h.ends with ⟨hend, hnil⟩ | ⟨e, he⟩
  · let a1 : Arena β := { a.grow (capacityFor (wordsOf sizeBytes)) with end_ := some 0 }
    have hok := grow_ok h.regions (capacityFor_fits hfits)
    have hregions : a1.regions = [newRegion a.fresh (capacityFor (wordsOf sizeBytes))] := by
      show a.regions ++ _ = _
      rw [hnil, List.nil_append]
    have hends : a1.EndsAt 0 := by
      refine ⟨rfl, by rw [hregions]; exact Nat.one_pos, fun j r hj hr => ?_⟩
      have hlt := (List.getElem?_eq_some_iff.mp hr).1
      rw [hregions, List.length_singleton] at hlt
      omega
    refine ⟨a1, 0, ?_, ⟨hok.nodup, hok.fresh, hok.count, hok.room⟩, hends, grow_grows _ _, ?_, rfl⟩
    · rw [openFirst, hend]
      exact if_pos hnil
    · rw [hends.top_eq, countAt, hregions, top, hend]
      rfl
  · refine ⟨a, e, ?_, h.regions, he, Grows.refl, rfl, rfl⟩
    rw [openFirst, he.end_]

/-- Where `end` stops there is a region, and it is the last one or has room. -/
theorem advance_spec (size : Nat) (h : rs ≠ []) : ∃ r, rs[advance size rs]? = some r ∧
    (r.count + size > r.capacity → advance size rs + 1 = rs.length) := by
  induction rs with
  | nil => exact absurd rfl h
  | cons r rest ih =>
      cases rest with
      | nil => exact ⟨r, rfl, fun _ => rfl⟩
      | cons next rest =>
          rw [advance]
          by_cases hfull : r.count + size > r.capacity
          · rw [if_pos hfull]
            obtain ⟨r', hr', hlast⟩ := ih (by simp)
            refine ⟨r', ?_, fun h => ?_⟩
            · rw [List.getElem?_cons_succ]
              exact hr'
            · rw [hlast h, List.length_cons (a := r)]
          · rw [if_neg hfull]
            exact ⟨r, rfl, fun h => absurd h hfull⟩

/-- The region that takes the next words: it has room, and what is behind it is not in use. -/
structure Taking (a : Arena β) (e size : Nat) (p : ℕ ×ₗ ℕ) : Prop where
  regions : a.RegionsOK
  room : ∃ r, a.regions[e]? = some r ∧ r.count + size ≤ r.capacity ∧ p ≤ toLex (e, r.count)
  behind : ∀ (j : Nat) r, e < j → a.regions[j]? = some r → r.count = 0

/-- `end` goes on to a region with room. -/
theorem extend_ok (h : a.RegionsOK) (he : a.EndsAt e) (hfits : Blocks.Fits sizeBytes) :
    ∃ a' e', a.extend (e + advance (wordsOf sizeBytes) (a.regions.drop e))
      (wordsOf sizeBytes) = some (a', e') ∧
      a'.Taking e' (wordsOf sizeBytes) a.top ∧ Grows a a' ∧ a'.mem = a.mem := by
  have hlt := he.lt
  have hne : a.regions.drop e ≠ [] := by
    rw [Ne, List.drop_eq_nil_iff]
    omega
  obtain ⟨r, hr, hlast⟩ := advance_spec (wordsOf sizeBytes) hne
  rw [List.getElem?_drop] at hr
  rw [List.length_drop] at hlast
  generalize hd : advance (wordsOf sizeBytes) (a.regions.drop e) = d at hr hlast
  -- what `end` goes over is not before the top
  have htop : a.top ≤ toLex (e + d, r.count) := by
    rw [he.top_eq, Prod.Lex.toLex_le_toLex]
    rcases Nat.eq_zero_or_pos d with rfl | hpos
    · exact Or.inr ⟨rfl, (countAt_eq hr).le⟩
    · exact Or.inl (Nat.lt_add_of_pos_right hpos)
  unfold extend
  rw [hr, Option.bind_eq_bind, Option.bind_some]
  by_cases hfull : r.count + wordsOf sizeBytes > r.capacity
  · have hlen : e + d + 1 = a.regions.length := by
      have := hlast hfull
      omega
    rw [if_pos hfull, if_pos hlen]
    refine ⟨_, _, rfl, ⟨grow_ok h (capacityFor_fits hfits),
      ⟨newRegion a.fresh (capacityFor (wordsOf sizeBytes)), ?_, ?_, ?_⟩,
      fun j r hj hr => ?_⟩, grow_grows _ _, rfl⟩
    · rw [hlen]
      exact grow_get _ _
    · show 0 + _ ≤ _
      rw [Nat.zero_add]
      exact le_capacityFor _
    · refine htop.trans ?_
      rw [Prod.Lex.toLex_le_toLex]
      exact Or.inl (Nat.lt_succ_self _)
    · have hj' := (List.getElem?_eq_some_iff.mp hr).1
      rw [grow, List.length_append, List.length_singleton] at hj'
      omega
  · rw [if_neg hfull]
    exact ⟨_, _, rfl, ⟨h, ⟨r, hr, Nat.le_of_not_lt hfull, htop⟩,
      fun j r hj hr => he.behind j r (by omega) hr⟩, Grows.refl, rfl⟩

/-- What `arena_alloc` hands out: words from the former top on, up to the new one. -/
structure Allocated (a a' : Arena β) (ptr : DataPtr) (e start words : Nat) : Prop where
  ok : a'.OK
  ends : a'.EndsAt e
  region : ∃ r, a'.regions[e]? = some r ∧ ptr = { region := r.addr, offset := wordSize * start } ∧
    start + words = r.count
  start : a.top ≤ toLex (e, start)
  grows : Grows a a'
  mem : a'.mem = a.mem

/-- Some of the regions are left, with other counts. -/
theorem RegionsOK.of_sublist (h : a.RegionsOK)
    (haddr : (rs.map Region.addr).Sublist (a.regions.map Region.addr))
    (hcount : ∀ r ∈ rs, r.count ≤ r.capacity) (hroom : ∀ r ∈ rs, wordSize * r.capacity ≤ r.room)
    (end_ : Option Nat) : RegionsOK { a with regions := rs, end_ } := by
  refine ⟨h.nodup.sublist haddr, fun r hr => ?_, hcount, hroom⟩
  obtain ⟨r', hr', heq⟩ := List.mem_map.mp (haddr.subset (List.mem_map_of_mem hr))
  rw [← heq]
  exact h.fresh r' hr'

/-- Setting the count of a region leaves the addresses. -/
theorem map_addr_set (hr : rs[e]? = some r) (count : Nat) :
    (rs.set e { r with count }).map Region.addr = rs.map Region.addr := by
  refine List.ext_getElem? fun j => ?_
  rw [List.getElem?_map, List.getElem?_map, List.getElem?_set]
  by_cases hj : e = j
  · subst hj
    rw [if_pos rfl, if_pos (List.getElem?_eq_some_iff.mp hr).1, hr]
    rfl
  · rw [if_neg hj]

/-- The next words of a region. -/
theorem take_ok {words : Nat} {p : ℕ ×ₗ ℕ} (h : a.Taking e words p) :
    ∃ ptr a' start, a.take e words = some (ptr, a') ∧
    a'.OK ∧ a'.EndsAt e ∧ (∃ r, a'.regions[e]? = some r ∧
      ptr = { region := r.addr, offset := wordSize * start } ∧
      start + words = r.count) ∧ p ≤ toLex (e, start) ∧ Grows a a' ∧ a'.mem = a.mem := by
  obtain ⟨r, hr, hroom, hp⟩ := h.room
  have hlt := (List.getElem?_eq_some_iff.mp hr).1
  have hmem := List.mem_of_getElem? hr
  let rs := a.regions.set e { r with count := r.count + words }
  have hself : rs[e]? = some { r with count := r.count + words } := by
    rw [List.getElem?_set_self hlt]
  have hother : ∀ j, e ≠ j → rs[j]? = a.regions[j]? := fun j hj => List.getElem?_set_ne hj
  have hset : ∀ x ∈ rs, x ∈ a.regions ∨ x = { r with count := r.count + words } := fun x hx =>
    List.mem_or_eq_of_mem_set hx
  have hok : RegionsOK { a with regions := rs, end_ := some e } := by
    refine h.regions.of_sublist ?_ (fun x hx => ?_) (fun x hx => ?_) _
    · rw [map_addr_set hr]
    · rcases hset x hx with hx | rfl
      · exact h.regions.count x hx
      · exact hroom
    · rcases hset x hx with hx | rfl
      · exact h.regions.room x hx
      · exact h.regions.room r hmem
  have hends : EndsAt { a with regions := rs, end_ := some e } e := by
    refine ⟨rfl, by rw [List.length_set]; exact hlt, fun j x hj hx => h.behind j x hj ?_⟩
    rw [← hother j (by omega)]
    exact hx
  refine ⟨_, _, r.count, ?_, ⟨hok, Or.inr ⟨e, hends⟩⟩, hends, ⟨_, hself, rfl, rfl⟩, hp,
    fun j x hx => ?_, rfl⟩
  · rw [Arena.take, hr]
    rfl
  · by_cases hj : e = j
    · subst hj
      obtain rfl := Option.some.inj (hr.symm.trans hx)
      exact ⟨_, hself, rfl, rfl, Nat.le_add_right _ _⟩
    · exact ⟨x, (hother j hj).trans hx, rfl, rfl, le_refl _⟩

/-- **`arena_alloc` hands out new words.** -/
theorem alloc_ok (h : a.OK) (hfits : Blocks.Fits sizeBytes) : ∃ ptr a' e start,
    a.alloc sizeBytes = some (ptr, a') ∧ Allocated a a' ptr e start (wordsOf sizeBytes) := by
  obtain ⟨a1, e1, h1, hok1, hends1, hgrows1, htop1, hmem1⟩ := openFirst_ok h hfits
  obtain ⟨a2, e2, h2, htaking, hgrows2, hmem2⟩ := extend_ok hok1 hends1 hfits
  obtain ⟨ptr, a3, start, h3, hok3, hends3, hregion, hstart, hgrows3, hmem3⟩ := take_ok htaking
  refine ⟨ptr, a3, e2, start, ?_, hok3, hends3, hregion, htop1 ▸ hstart,
    (hgrows1.trans hgrows2).trans hgrows3, hmem3.trans (hmem2.trans hmem1)⟩
  simp only [alloc, h1, hends1.end_, h2, h3, Option.bind_eq_bind, Option.bind_some]

/-! ### Going back

Below the point the counts are as they were; behind it they are zero.
-/

/-- What is in use up to a point still is. -/
def Keeps (a a' : Arena β) (p : ℕ ×ₗ ℕ) : Prop :=
  ∀ (j : Nat) r, a.regions[j]? = some r → j ≤ (ofLex p).1 →
  ∃ r', a'.regions[j]? = some r' ∧ r'.addr = r.addr ∧ r'.capacity = r.capacity ∧
    ∀ w ≤ r.count, toLex (j, w) ≤ p → w ≤ r'.count

theorem Grows.keeps (h : Grows a a') (p : ℕ ×ₗ ℕ) : Keeps a a' p := by
  intro j r hr _
  obtain ⟨r', hr', haddr, hcap, hcount⟩ := h j r hr
  exact ⟨r', hr', haddr, hcap, fun w hw _ => hw.trans hcount⟩

/-- The arena is back at a point. -/
structure BackTo (a a' : Arena β) (p : ℕ ×ₗ ℕ) : Prop where
  ok : a'.OK
  top : a'.top = p
  keeps : Keeps a a' p
  mem : a'.mem = a.mem
  used : a.end_ ≠ none → a'.end_ ≠ none

/-- A region of the arena is `end` again, and nothing behind it is in use. -/
theorem backTo_of_get {i count : Nat} (h : a.RegionsOK) (hr : a.regions[i]? = some r)
    (hcount : count ≤ r.capacity) :
    BackTo a { a with regions := a.regions.take i
      ++ { r with count } :: (a.regions.drop (i + 1)).map clear
                      end_ := some i } (toLex (i, count)) := by
  obtain ⟨hlt, heq⟩ := List.getElem?_eq_some_iff.mp hr
  let rs := a.regions.take i ++ { r with count } :: (a.regions.drop (i + 1)).map clear
  have hlen : (a.regions.take i).length = i := List.length_take_of_le hlt.le
  have hself : rs[i]? = some { r with count } := by
    rw [List.getElem?_append_right (by omega), hlen, Nat.sub_self]
    rfl
  have hmap : rs.map Region.addr = a.regions.map Region.addr := by
    have hclear : ((a.regions.drop (i + 1)).map clear).map Region.addr
        = (a.regions.drop (i + 1)).map Region.addr := by
      rw [List.map_map]
      rfl
    rw [List.map_append, List.map_cons, hclear]
    conv_rhs => rw [← List.take_append_drop i a.regions, List.drop_eq_getElem_cons hlt,
      List.map_append, List.map_cons]
    rw [heq]
  have hmem : ∀ x ∈ rs, (x ∈ a.regions ∨ x = { r with count }) ∨ ∃ y ∈ a.regions, x = clear y := by
    intro x hx
    rcases List.mem_append.mp hx with hx | hx
    · exact Or.inl (Or.inl (List.mem_of_mem_take hx))
    · rcases List.mem_cons.mp hx with hx | hx
      · exact Or.inl (Or.inr hx)
      · obtain ⟨y, hy, rfl⟩ := List.mem_map.mp hx
        exact Or.inr ⟨y, List.mem_of_mem_drop hy, rfl⟩
  have hends : EndsAt { a with regions := rs, end_ := some i } i := by
    refine ⟨rfl, (List.getElem?_eq_some_iff.mp hself).1, fun j x hj hx => ?_⟩
    have hx : rs[j]? = some x := hx
    rw [List.getElem?_append_right (by omega), hlen, show j - i = j - i - 1
      + 1 by omega, List.getElem?_cons_succ, List.getElem?_map, Option.map_eq_some_iff] at hx
    obtain ⟨y, -, rfl⟩ := hx
    rfl
  have hok : RegionsOK { a with regions := rs, end_ := some i } := by
    refine h.of_sublist (hmap ▸ List.Sublist.refl _) (fun x hx => ?_) (fun x hx => ?_) _
    · rcases hmem x hx with (hx | rfl) | ⟨y, hy, rfl⟩
      · exact h.count x hx
      · exact hcount
      · exact Nat.zero_le _
    · rcases hmem x hx with (hx | rfl) | ⟨y, hy, rfl⟩
      · exact h.room x hx
      · exact h.room r (List.mem_of_getElem? hr)
      · exact h.room y hy
  refine ⟨⟨hok, Or.inr ⟨i, hends⟩⟩, ?_, fun j x hx hj => ?_, rfl, fun _ => by simp⟩
  · rw [hends.top_eq, countAt_eq (a := { a with regions := rs, end_ := some i }) hself]
  · rcases Nat.lt_or_ge j i with hji | hji
    · refine ⟨x, ?_, rfl, rfl, fun w hw _ => hw⟩
      show rs[j]? = _
      rw [List.getElem?_append_left (by omega), List.getElem?_take_of_lt hji]
      exact hx
    · obtain rfl : j = i := le_antisymm hj hji
      obtain rfl := Option.some.inj (hr.symm.trans hx)
      refine ⟨_, hself, rfl, rfl, fun w _ hw => ?_⟩
      rcases (Prod.Lex.toLex_le_toLex ..).mp hw with hlt | ⟨-, hle⟩
      · exact absurd hlt (lt_irrefl _)
      · exact hle

/-- Of two regions with one address there is only one. -/
theorem RegionsOK.addr_inj (h : a.RegionsOK) {i j : Nat} {r' : Region} (hr : a.regions[i]? = some r)
    (hr' : a.regions[j]? = some r') (haddr : r.addr = r'.addr) : i = j := by
  have hi : (a.regions.map Region.addr)[i]? = some r.addr := by
    rw [List.getElem?_map, hr, Option.map_some]
  have hj : (a.regions.map Region.addr)[j]? = some r'.addr := by
    rw [List.getElem?_map, hr', Option.map_some]
  have hlt := (List.getElem?_eq_some_iff.mp hi).1
  exact (List.getElem?_inj hlt h.nodup).mp (by rw [hi, hj, haddr])

/-- A region is found by its address. -/
theorem find_addr (h : a.RegionsOK) {i : Nat} (hr : a.regions[i]? = some r) :
    a.regions.find? (fun x => x.addr = r.addr) = some r ∧
      a.regions.findIdx? (fun x => x.addr = r.addr) = some i := by
  obtain ⟨hlt, rfl⟩ := List.getElem?_eq_some_iff.mp hr
  have hne : ∀ j (hj : j < i), ¬ (a.regions[j].addr = a.regions[i].addr) := by
    intro j hj heq
    have := h.addr_inj (List.getElem?_eq_getElem (hj.trans hlt)) hr heq
    omega
  constructor
  · rw [List.find?_eq_some_iff_getElem]
    exact ⟨by simp, i, hlt, rfl, fun j hj => by simpa using hne j hj⟩
  · rw [List.findIdx?_eq_some_iff_getElem]
    exact ⟨hlt, by simp, fun j hj => by simpa using hne j hj⟩

/-- `arena_reset`: at the beginning. -/
theorem reset_back (h : a.OK) : BackTo a a.reset (toLex (0, 0)) := by
  rcases hregions : a.regions with _ | ⟨r, rest⟩
  · have hend : a.end_ = none := by
      rcases h.ends with ⟨hend, -⟩ | ⟨e, he⟩
      · exact hend
      · have := he.lt
        rw [hregions] at this
        exact absurd this (Nat.not_lt_zero _)
    have hreset : a.reset = a := by
      rw [reset, hregions, if_pos rfl, ← hend, List.map_nil, ← hregions]
    rw [hreset]
    refine ⟨h, ?_, Grows.refl.keeps _, rfl, id⟩
    rw [top, hend]
  · have hreset : a.reset = { a with regions := a.regions.take 0
      ++ { r with count := 0 } :: (a.regions.drop 1).map clear
                                     end_ := some 0 } := by
      rw [reset, hregions, if_neg (List.cons_ne_nil _ _)]
      rfl
    rw [hreset]
    exact backTo_of_get h.regions (by rw [hregions]; rfl) (Nat.zero_le _)

/-- Where a mark stands. -/
def MarkedAt (a : Arena β) (m : ArenaMark) (p : ℕ ×ₗ ℕ) : Prop :=
  match m.region with
  | none => p = toLex (0, 0)
  | some addr => ∃ (i : Nat) (r : Region), a.regions[i]? = some r ∧ r.addr = addr ∧
        m.count ≤ r.capacity ∧
      p = toLex (i, m.count)

/-- `arena_snapshot` marks where the arena is. -/
theorem snapshot_ok (h : a.OK) : ∃ m, a.snapshot = some m ∧ a.MarkedAt m a.top := by
  rcases h.ends with ⟨hend, hnil⟩ | ⟨e, he⟩
  · refine ⟨{ region := none, count := 0 }, ?_, ?_⟩
    · rw [snapshot, hend]
      exact if_pos hnil
    · show a.top = _
      rw [top, hend]
  · obtain ⟨r, hr⟩ : ∃ r, a.regions[e]? = some r := ⟨_, List.getElem?_eq_getElem he.lt⟩
    refine ⟨{ region := some r.addr, count := r.count }, ?_, ?_⟩
    · rw [snapshot, he.end_]
      simp only [hr, Option.bind_eq_bind, Option.bind_some, Option.pure_def]
    · refine ⟨e, _, hr, rfl, h.regions.count _ (List.mem_of_getElem? hr), ?_⟩
      rw [he.top_eq, countAt_eq hr]

/-- **`arena_rewind` goes back to a mark.** -/
theorem rewind_back (h : a.OK) {m : ArenaMark} {p : ℕ ×ₗ ℕ} (hm : a.MarkedAt m p) :
    ∃ a', a.rewind m = some a' ∧ BackTo a a' p := by
  unfold MarkedAt at hm
  rcases hregion : m.region with _ | addr
  · rw [hregion] at hm
    subst hm
    exact ⟨a.reset, by rw [rewind, hregion], reset_back h⟩
  · rw [hregion] at hm
    obtain ⟨i, r, hr, rfl, hcount, rfl⟩ := hm
    refine ⟨_, ?_, backTo_of_get h.regions hr hcount⟩
    simp only [rewind, hregion, (find_addr h.regions hr).2, hr, Option.bind_eq_bind,
      Option.bind_some, Option.pure_def]

/-- `arena_trim` stays where the arena is. -/
theorem trim_back (h : a.OK) (hused : a.end_ ≠ none) :
    ∃ a', a.trim = some a' ∧ BackTo a a' a.top := by
  obtain ⟨e, he⟩ := h.ends.resolve_left fun hnone => hused hnone.1
  let a' : Arena β := { a with regions := a.regions.take (e + 1), end_ := some e }
  have hget : ∀ j ≤ e, a'.regions[j]? = a.regions[j]? :=
    fun j hj => List.getElem?_take_of_lt (Nat.lt_succ_of_le hj)
  have hends : a'.EndsAt e := by
    refine ⟨rfl, ?_, fun j r hj hr => ?_⟩
    · show e < (a.regions.take (e + 1)).length
      rw [List.length_take]
      exact lt_min (Nat.lt_succ_self _) he.lt
    · have hlt := (List.getElem?_eq_some_iff.mp hr).1
      rw [List.length_take] at hlt
      omega
  have hok : a'.RegionsOK := by
    refine h.regions.of_sublist ((List.take_sublist _ _).map _) (fun x hx => ?_) (fun x hx => ?_) _
    · exact h.regions.count x (List.mem_of_mem_take hx)
    · exact h.regions.room x (List.mem_of_mem_take hx)
  refine ⟨a', ?_, ⟨hok, Or.inr ⟨e, hends⟩⟩, ?_, fun j r hr hj => ?_, rfl, fun _ => by simp [a']⟩
  · rw [trim, he.end_]
    rfl
  · rw [hends.top_eq, he.top_eq, countAt, countAt, hget e (le_refl _)]
  · rw [he.top_eq] at hj
    exact ⟨r, (hget j hj).trans hr, rfl, rfl, fun w hw _ => hw⟩

/-- `arena_free`: nothing is left. -/
theorem free_ok (a : Arena β) : a.free.OK ∧ a.free.top = toLex (0, 0) :=
  ⟨⟨⟨by simp [free], by simp [free], by simp [free], by simp [free]⟩, Or.inl ⟨rfl, rfl⟩⟩, rfl⟩

end Arena

end MyLang
