/-
Linked cells on a heap.

An address is `none` for `NULL` or the number of a cell, and a cell holds a value and the
address of the next.  Looking into a cell that is not allocated, or not any more, is
undefined behaviour and stops with `none`.

`Chain` says which cells hang behind an address.  To know that a change of one chain leaves
all others alone, `World` keeps beside the heap who owns each cell: two chains of
different owners have no cell in common, whatever the addresses are.
-/
import Mathlib.Data.Finset.Card
import Mathlib.Logic.Function.Basic

namespace LinkedHeap

variable {β κ : Type}

/-! ### Cells

A cell that was given back is not allocated, and its address is not given out again.
-/

/-- A value and a link. -/
structure Cell (β : Type) where
  val : β
  next : Option Nat

/-- The cells that are allocated; `fresh` is the address of the next one. -/
structure Heap (β : Type) where
  get : Nat → Option (Cell β)
  fresh : Nat
  unused : ∀ a, fresh ≤ a → get a = none

namespace Heap

def empty : Heap β := ⟨fun _ => none, 0, fun _ _ => rfl⟩

/-- Allocate a cell. -/
def alloc (heap : Heap β) (c : Cell β) : Nat × Heap β :=
  (heap.fresh, {
    get := Function.update heap.get heap.fresh (some c)
    fresh := heap.fresh + 1
    unused := by
      intro a ha
      rw [Function.update_of_ne (by omega)]
      exact heap.unused a (by omega) })

/-- Put something in the place of a cell that is allocated. -/
def replace (heap : Heap β) (a : Nat) (c : Option (Cell β)) : Option (Heap β) :=
  if h : heap.get a = none then none
  else some {
    get := Function.update heap.get a c
    fresh := heap.fresh
    unused := by
      intro b hb
      have hne : b ≠ a := by
        rintro rfl
        exact h (heap.unused b hb)
      rw [Function.update_of_ne hne]
      exact heap.unused b hb }

variable {heap heap' : Heap β} {a b : Nat} {c : Cell β} {o : Option (Cell β)}

theorem lt_fresh (h : heap.get a = some c) : a < heap.fresh := by
  by_contra hlt
  rw [heap.unused a (by omega)] at h
  simp at h

theorem replace_of_get (h : heap.get a = some c) (o : Option (Cell β)) :
    ∃ heap', heap.replace a o = some heap' ∧ heap'.get = Function.update heap.get a o ∧
      heap'.fresh = heap.fresh := by
  have hne : ¬ heap.get a = none := by simp [h]
  exact ⟨_, dif_neg hne, rfl, rfl⟩

end Heap

/-- A computation on a heap, or undefined behaviour. -/
abbrev HeapM (β : Type) := StateT (Heap β) Option

/-- Look into a cell. -/
def deref (a : Option Nat) : HeapM β (Cell β) := fun heap => do
  let c ← heap.get (← a)
  return (c, heap)

/-- Write a cell. -/
def write (a : Option Nat) (c : Cell β) : HeapM β Unit := fun heap => do
  let heap ← heap.replace (← a) (some c)
  return ((), heap)

/-- Give a cell back. -/
def free (a : Option Nat) : HeapM β Unit := fun heap => do
  let heap ← heap.replace (← a) none
  return ((), heap)

/-- A new cell. -/
def malloc (c : Cell β) : HeapM β Nat := fun heap => some (heap.alloc c)

/-- More than the cells there can be in a chain. -/
def cellBound : HeapM β Nat := fun heap => some (heap.fresh + 1, heap)

section Runs

variable {γ δ : Type} {heap heap' : Heap β} {a : Nat} {c : Cell β}

/-- One computation after another. -/
theorem bind_run {x : HeapM β γ} {f : γ → HeapM β δ} {y : γ} (hx : x heap = some (y, heap')) :
    (x >>= f) heap = f y heap' := by
  show (x heap).bind (fun r => f r.1 r.2) = _
  rw [hx]
  rfl

theorem cellBound_run : cellBound heap = some (heap.fresh + 1, heap) := rfl

theorem deref_run (h : heap.get a = some c) : deref (some a) heap = some (c, heap) := by
  show (heap.get a).bind _ = _
  rw [h]
  rfl

theorem write_run (h : heap.get a = some c) (c' : Cell β) :
    ∃ heap', write (some a) c' heap = some ((), heap') ∧
      heap'.get = Function.update heap.get a (some c') ∧ heap'.fresh = heap.fresh := by
  obtain ⟨heap', hrep, hget, hfresh⟩ := Heap.replace_of_get h (some c')
  exact ⟨heap', congrArg (Option.bind · fun heap => some ((), heap)) hrep, hget, hfresh⟩

theorem free_run (h : heap.get a = some c) :
    ∃ heap', free (some a) heap = some ((), heap') ∧ heap'.get = Function.update heap.get a none ∧
      heap'.fresh = heap.fresh := by
  obtain ⟨heap', hrep, hget, hfresh⟩ := Heap.replace_of_get h none
  exact ⟨heap', congrArg (Option.bind · fun heap => some ((), heap)) hrep, hget, hfresh⟩

end Runs

/-! ### Chains

A chain is the list of its cells with their values; it comes to an end, so it is no
circle.
-/

/-- The cells behind an address, with their values. -/
def Chain (heap : Heap β) : Option Nat → List (Nat × β) → Prop
  | p, [] => p = none
  | p, (a, b) :: rest => p = some a ∧ ∃ next, heap.get a = some ⟨b, next⟩ ∧ Chain heap next rest

/-- The addresses of some cells. -/
abbrev addrs (l : List (Nat × β)) : List Nat := l.map Prod.fst

namespace Chain

variable {heap heap' : Heap β} {p : Option Nat} {l l' l1 l2 : List (Nat × β)} {a : Nat} {b b' : β}
  {next next' : Option Nat}

/-- An address has one chain behind it. -/
theorem unique (h : Chain heap p l) (h' : Chain heap p l') : l = l' := by
  induction l generalizing p l' with
  | nil =>
      cases l' with
      | nil => rfl
      | cons x rest =>
          obtain ⟨hp, -⟩ := h'
          rw [Chain, hp] at h
          simp at h
  | cons x l ih =>
      obtain ⟨rfl, next, hget, h⟩ := h
      cases l' with
      | nil => simp [Chain] at h'
      | cons y l' =>
          obtain ⟨hp, next', hget', h'⟩ := h'
          have haddr := Option.some.inj hp
          rw [haddr, hget'] at hget
          obtain ⟨hval, rfl⟩ := Cell.mk.inj (Option.some.inj hget)
          rw [ih h h', Prod.ext haddr hval.symm]

/-- What hangs behind a cell of a chain. -/
theorem suffix (h : Chain heap p (l1 ++ (a, b) :: l2)) : Chain heap (some a) ((a, b) :: l2) := by
  induction l1 generalizing p with
  | nil =>
      obtain ⟨rfl, h⟩ := h
      exact ⟨rfl, h⟩
  | cons x l1 ih =>
      obtain ⟨-, next, -, h⟩ := h
      exact ih h

/-- A chain comes to an end, so it meets no cell twice. -/
theorem nodup (h : Chain heap p l) : (addrs l).Nodup := by
  induction l generalizing p with
  | nil => exact List.nodup_nil
  | cons x l ih =>
      have hx := h
      obtain ⟨-, next, -, h⟩ := h
      refine List.nodup_cons.mpr ⟨fun hmem => ?_, ih h⟩
      obtain ⟨y, hy, heq⟩ := List.mem_map.mp hmem
      obtain ⟨l1, l2, rfl⟩ := List.append_of_mem hy
      obtain ⟨rfl, hx⟩ := hx
      have hy : Chain heap (some x.1) ((y.1, y.2) :: l2) := heq ▸ h.suffix
      have hlen := congrArg List.length (unique ⟨rfl, hx⟩ hy : x :: (l1 ++ y :: l2) = _)
      simp only [List.length_cons, List.length_append] at hlen
      omega

theorem get_of_mem (h : Chain heap p l) (hmem : (a, b) ∈ l) :
    ∃ next, heap.get a = some ⟨b, next⟩ := by
  obtain ⟨l1, l2, rfl⟩ := List.append_of_mem hmem
  obtain ⟨-, next, hget, -⟩ := h.suffix
  exact ⟨next, hget⟩

theorem lt_fresh (h : Chain heap p l) (hmem : a ∈ addrs l) : a < heap.fresh := by
  obtain ⟨x, hx, rfl⟩ := List.mem_map.mp hmem
  obtain ⟨next, hget⟩ := h.get_of_mem hx
  exact Heap.lt_fresh hget

/-- A chain has no more cells than have been allocated. -/
theorem length_le (h : Chain heap p l) : l.length ≤ heap.fresh := by
  have hsub : (addrs l).toFinset ⊆ Finset.range heap.fresh := by
    intro a ha
    exact Finset.mem_range.mpr (h.lt_fresh (List.mem_toFinset.mp ha))
  have hcard := Finset.card_le_card hsub
  rw [List.toFinset_card_of_nodup h.nodup, Finset.card_range, List.length_map] at hcard
  exact hcard

/-- A chain depends on its own cells only. -/
theorem congr (h : Chain heap p l) (hget : ∀ a ∈ addrs l, heap'.get a = heap.get a) :
    Chain heap' p l := by
  induction l generalizing p with
  | nil => exact h
  | cons x l ih =>
      obtain ⟨rfl, next, hx, h⟩ := h
      refine ⟨rfl, next, ?_, ih h fun a ha => hget a (List.mem_cons_of_mem _ ha)⟩
      rw [hget x.1 List.mem_cons_self, hx]

/-- Write a cell of a chain; from then on hangs behind it what hangs behind the new link. -/
theorem write (h : Chain heap p (l1 ++ (a, b) :: l2)) (hget : heap'.get a = some ⟨b', next'⟩)
    (hkeep : ∀ a' ∈ addrs l1, heap'.get a' = heap.get a') (hrest : Chain heap' next' l') :
    Chain heap' p (l1 ++ (a, b') :: l') := by
  induction l1 generalizing p with
  | nil =>
      obtain ⟨rfl, -⟩ := h
      exact ⟨rfl, next', hget, hrest⟩
  | cons x l1 ih =>
      obtain ⟨rfl, next, hx, h⟩ := h
      refine ⟨rfl, next, ?_, ih h fun a' ha => hkeep a' (List.mem_cons_of_mem _ ha)⟩
      rw [hkeep x.1 List.mem_cons_self, hx]

end Chain

/-! ### Owners

An operation on the chains of one owner changes cells of that owner only.  So what the
others own need not be looked at, and several chains are changed one after the other.
-/

/-- A heap, and who owns each cell. -/
structure World (β κ : Type) where
  heap : Heap β
  owner : Nat → Option κ

/-- A chain all of whose cells `k` owns. -/
structure Owned (w : World β κ) (k : κ) (p : Option Nat) (l : List (Nat × β)) : Prop where
  chain : Chain w.heap p l
  owner : ∀ a ∈ addrs l, w.owner a = some k

/-- The chains of others are what they were. -/
def Keeps (mine : κ → Prop) (w w' : World β κ) : Prop :=
  ∀ k, ¬ mine k → ∀ p l, Owned w k p l → Owned w' k p l

namespace Keeps

variable {mine mine' : κ → Prop} {w w' w'' : World β κ}

theorem refl : Keeps mine w w := fun _ _ _ _ h => h

theorem trans (h : Keeps mine w w') (h' : Keeps mine w' w'') : Keeps mine w w'' :=
  fun k hk p l ho => h' k hk p l (h k hk p l ho)

theorem mono (h : Keeps mine w w') (hm : ∀ k, mine k → mine' k) : Keeps mine' w w' :=
  fun k hk => h k fun hk' => hk (hm k hk')

/-- Only cells that `k` owns have changed, or such as were not allocated, which `k` may own now. -/
theorem of_get {k : κ} (hget : ∀ a, w'.heap.get a = w.heap.get a ∨ w.owner a = some k ∨
      w.heap.fresh ≤ a) (howner : ∀ a, a < w.heap.fresh → w'.owner a = w.owner a) : Keeps
      (· = k) w w' := by
  intro k' hk' p l ho
  refine ⟨ho.chain.congr fun a ha => ?_, fun a ha => ?_⟩
  · rcases hget a with h | h | h
    · exact h
    · exact absurd (Option.some.inj ((ho.owner a ha).symm.trans h)) hk'
    · exact absurd (ho.chain.lt_fresh ha) (by omega)
  · rw [howner a (ho.chain.lt_fresh ha)]
    exact ho.owner a ha

end Keeps

end LinkedHeap
