/-
Byte-addressed memory of a 32-bit machine, read and written a word at a time.

A word access touches four consecutive bytes, little end first, and addresses wrap at the
top of the address space.  Everything a proof about stack frames needs is that a store is
read back at its own address, and that it changes nothing at an address at least a word
away in either direction.  `Apart` is that distance condition, and it is stated on
differences so that it does not care where in the address space the two words lie.

Nothing is said of alignment: a word may lie at any address, and a machine that traps on
some of them does less.  Memory is a function, so every address has a byte, and what a
frame may use of it is up to those who use the frame.
-/
import Mathlib.Data.BitVec

namespace ByteMemory

/-- A machine word, and an address. -/
abbrev Word := BitVec 32

/-- The contents of every byte of the address space. -/
abbrev Mem := Word → BitVec 8

/-- The word whose lowest byte is at `a`. -/
def loadWord (m : Mem) (a : Word) : Word :=
  m (a + 3) ++ m (a + 2) ++ m (a + 1) ++ m a

/-- Overwrite the four bytes from `a` on. -/
def storeWord (m : Mem) (a v : Word) : Mem := fun x =>
  if (x - a).toNat < 4 then v.extractLsb' (8 * (x - a).toNat) 8 else m x

/-- Two word addresses whose bytes do not overlap. -/
def Apart (a b : Word) : Prop := 4 ≤ (a - b).toNat ∧ 4 ≤ (b - a).toNat

/-! ### Reading after writing

Byte by byte: one of the four bytes stored, or one of those that are left alone.
-/

theorem storeWord_far (m : Mem) (a v : Word) {x : Word} (h : 4 ≤ (x - a).toNat) :
    storeWord m a v x = m x := by
  unfold storeWord
  rw [if_neg (by omega)]

theorem storeWord_near (m : Mem) (a v : Word) {i : Nat} (h : i < 4) :
    storeWord m a v (a + BitVec.ofNat 32 i) = v.extractLsb' (8 * i) 8 := by
  have hdiff : (a + BitVec.ofNat 32 i - a).toNat = i := by
    rw [show a + BitVec.ofNat 32 i - a = BitVec.ofNat 32 i by
      rw [BitVec.add_comm, BitVec.add_sub_cancel]]
    simp only [BitVec.toNat_ofNat]
    omega
  unfold storeWord
  rw [hdiff, if_pos h]

/-- Four bytes put side by side are the word they were cut from. -/
private theorem extract_append (v : Word) :
    (v.extractLsb' (8 * 3) 8 ++ v.extractLsb' (8 * 2) 8 ++ v.extractLsb' (8 * 1) 8
      ++ v.extractLsb' (8 * 0) 8 : Word) = v := by
  apply BitVec.eq_of_getLsbD_eq
  intro i hi
  simp only [BitVec.getLsbD_append, BitVec.getLsbD_extractLsb']
  by_cases h0 : i < 8
  · simp [h0]
  by_cases h1 : i < 16
  · simp [h0, show i - 8 < 8 by omega, show 8 + (i - 8) = i by omega]
  by_cases h2 : i < 24
  · simp [h0, show ¬ i - 8 < 8 by omega, show i - 8 - 8 < 8 by omega,
      show 16 + (i - 8 - 8) = i by omega]
  · simp [h0, show ¬ i - 8 < 8 by omega, show ¬ i - 8 - 8 < 8 by omega,
      show i - 8 - 8 - 8 < 8 by omega, show 24 + (i - 8 - 8 - 8) = i by omega]

@[simp] theorem loadWord_storeWord_self (m : Mem) (a v : Word) :
    loadWord (storeWord m a v) a = v := by
  have h0 : storeWord m a v a = v.extractLsb' (8 * 0) 8 := by
    simpa using storeWord_near m a v (i := 0) (by omega)
  have h1 := storeWord_near m a v (i := 1) (by omega)
  have h2 := storeWord_near m a v (i := 2) (by omega)
  have h3 := storeWord_near m a v (i := 3) (by omega)
  unfold loadWord
  rw [show (1 : Word) = BitVec.ofNat 32 1 from rfl, show (2 : Word) = BitVec.ofNat 32 2 from rfl,
    show (3 : Word) = BitVec.ofNat 32 3 from rfl, h0, h1, h2, h3]
  exact extract_append v

/-- A byte inside the word at `b` is not inside the word at `a`. -/
private theorem far_of_apart {a b : Word} (h : Apart a b) {i : Nat} (hi : i < 4) :
    4 ≤ (b + BitVec.ofNat 32 i - a).toNat := by
  obtain ⟨hab, hba⟩ := h
  simp only [BitVec.toNat_sub, BitVec.toNat_add, BitVec.toNat_ofNat] at *
  have ha := a.isLt
  have hb := b.isLt
  omega

theorem loadWord_storeWord_apart (m : Mem) {a b : Word} (v : Word) (h : Apart a b) :
    loadWord (storeWord m a v) b = loadWord m b := by
  have h0 : storeWord m a v b = m b := by
    refine storeWord_far m a v ?_
    simpa using far_of_apart h (i := 0) (by omega)
  have h1 := storeWord_far m a v (far_of_apart h (i := 1) (by omega))
  have h2 := storeWord_far m a v (far_of_apart h (i := 2) (by omega))
  have h3 := storeWord_far m a v (far_of_apart h (i := 3) (by omega))
  unfold loadWord
  rw [show (1 : Word) = BitVec.ofNat 32 1 from rfl, show (2 : Word) = BitVec.ofNat 32 2 from rfl,
    show (3 : Word) = BitVec.ofNat 32 3 from rfl, h0, h1, h2, h3]

/-- Memories that agree on the four bytes of a word load the same word. -/
theorem loadWord_congr {m m' : Mem} {a : Word}
    (h : ∀ i < 4, m' (a + BitVec.ofNat 32 i) = m (a + BitVec.ofNat 32 i)) :
    loadWord m' a = loadWord m a := by
  have h0 : m' a = m a := by simpa using h 0 (by omega)
  unfold loadWord
  rw [show (1 : Word) = BitVec.ofNat 32 1 from rfl, show (2 : Word) = BitVec.ofNat 32 2 from rfl,
    show (3 : Word) = BitVec.ofNat 32 3 from rfl, h0, h 1 (by omega), h 2 (by omega),
    h 3 (by omega)]

/-! ### Slots below a frame pointer

Compiled code names a slot by how many bytes it lies below the frame pointer.
Slots of one frame are a word apart as soon as their offsets are, provided the
frame is smaller than the address space.
-/

/-- The address `off` bytes below `fp`. -/
def below (fp : Word) (off : Nat) : Word := fp - BitVec.ofNat 32 off

theorem add_ofInt_neg (fp : Word) (off : Nat) :
    fp + BitVec.ofInt 32 (-(off : Int)) = below fp off := by
  rw [below, BitVec.ofInt_neg, BitVec.ofInt_natCast, BitVec.sub_eq_add_neg]

theorem below_apart (fp : Word) {o p : Nat} (ho : o ≤ 2 ^ 32 - 4) (hp : p ≤ 2 ^ 32 - 4)
    (h : o + 4 ≤ p ∨ p + 4 ≤ o) : Apart (below fp o) (below fp p) := by
  have hfp := fp.isLt
  unfold Apart below
  simp only [BitVec.toNat_sub, BitVec.toNat_ofNat]
  omega

end ByteMemory
