import SystemsLabs.QuickSort.Code
import SystemsLabs.Library.Y86.Program

/-!
# The array and the stack of the Y86 programs

Cell `k` of the array stands at `address k`.  Stack and array lie away from each
other and from the code.
-/

namespace SystemsLabs.QuickSort

open Y86

/-- The parts of the memory; `low` is the lowest address of the stack. -/
structure Layout (code : Set Word) where
  base : Word
  cells : Nat
  low : Word
  room : Nat
  /-- The array ends at `2 ^ 63` or before. -/
  below : ∀ index < cells, base.toNat + 8 * index + 8 ≤ 2 ^ 63
  room_le : room ≤ 2 ^ 64
  code_array : Disjoint code (span base (8 * cells))
  code_stack : Disjoint code (span low room)
  array_stack : Disjoint (span base (8 * cells)) (span low room)

namespace Layout

variable {code : Set Word} (layout : Layout code)

def array : Set Word := span layout.base (8 * layout.cells)

/-- The part of the stack below a place. -/
def stack (used : Nat) : Set Word := span layout.low used

/-- The address `used` bytes above the lowest one. -/
def top (used : Nat) : Word := layout.low + BitVec.ofNat 64 used

def address (index : Int) : Word := layout.base + BitVec.ofInt 64 (8 * index)

/-- The memory holds the array. -/
def Holds (memory : Bytes) (longs : Longs) : Prop :=
  ∀ index : Int, 0 ≤ index → index < layout.cells →
    readWord memory (layout.address index) = longs.cell index

section Addresses

theorem cells_le : 8 * layout.cells ≤ 2 ^ 63 := by
  rcases Nat.eq_zero_or_pos layout.cells with none | some
  · omega
  · have last := layout.below (layout.cells - 1) (by omega)
    omega

theorem address_nat {index : Int} (low : 0 ≤ index) :
    layout.address index = layout.base + BitVec.ofNat 64 (8 * index.toNat) := by
  obtain ⟨number, rfl⟩ := Int.eq_ofNat_of_zero_le low
  rfl

theorem address_zero : layout.address 0 = layout.base :=
  BitVec.add_zero _

theorem address_add (index distance : Int) :
    layout.address (index + distance) =
      layout.address index + BitVec.ofInt 64 (8 * distance) := by
  rw [address, address, mul_add, BitVec.ofInt_add, add_assoc]

theorem address_succ (index : Int) :
    layout.address (index + 1) = layout.address index + 8 :=
  layout.address_add index 1

theorem address_sub (left right : Int) :
    layout.address left - layout.address right =
      BitVec.ofInt 64 (8 * (left - right)) := by
  have sum := layout.address_add right (left - right)
  rw [add_sub_cancel] at sum
  rw [sum, BitVec.add_comm, BitVec.add_sub_cancel]

variable {layout} {index other : Int}

theorem address_toInt (low : 0 ≤ index) (high : index < layout.cells) :
    (layout.address index).toInt = layout.base.toNat + 8 * index := by
  obtain ⟨number, rfl⟩ := Int.eq_ofNat_of_zero_le low
  have below := layout.below number (by omega)
  have value : (layout.address number).toNat =
      layout.base.toNat + 8 * number := by
    rw [address_nat layout low, BitVec.toNat_add, BitVec.toNat_ofNat]
    omega
  rw [BitVec.toInt_eq_toNat_of_lt (by omega), value]
  omega

theorem word_subset (low : 0 ≤ index) (high : index < layout.cells) :
    span (layout.address index) 8 ⊆ layout.array := by
  rw [address_nat layout low]
  exact span_subset layout.base (by omega)

theorem words_disjoint (low : 0 ≤ index) (high : index < layout.cells)
    (otherLow : 0 ≤ other) (otherHigh : other < layout.cells)
    (different : index ≠ other) :
    Disjoint (span (layout.address index) 8) (span (layout.address other) 8) := by
  have cells := layout.cells_le
  rw [address_nat layout low, address_nat layout otherLow]
  rcases lt_or_gt_of_ne different with before | behind
  · exact span_disjoint layout.base (by omega) (by omega)
  · exact (span_disjoint layout.base (by omega) (by omega)).symm

theorem words_apart (low : 0 ≤ index) (high : index < layout.cells)
    (otherLow : 0 ≤ other) (otherHigh : other < layout.cells) :
    Apart (layout.address index) (layout.address other) := by
  rcases eq_or_ne index other with rfl | different
  · exact .inl rfl
  · exact .inr (words_disjoint low high otherLow otherHigh different)

end Addresses

section Memory

variable {layout} {before after : Bytes} {longs : Longs} {left right : Int}

theorem Holds.swap (holds : layout.Holds before longs)
    (leftLow : 0 ≤ left) (leftHigh : left < layout.cells)
    (rightLow : 0 ≤ right) (rightHigh : right < layout.cells)
    (swapped : Swapped (layout.address left) (layout.address right) before
      after) :
    layout.Holds after (longs.swap left right) := by
  intro index low high
  have cell : (longs.swap left right).cell index =
      if index = right then longs.cell left
      else if index = left then longs.cell right else longs.cell index := by
    simp only [Longs.swap, Longs.read, Longs.write, Function.update_apply]
  rw [cell]
  split_ifs with isRight isLeft
  · rw [isRight, swapped.right_eq, holds left leftLow leftHigh]
  · rw [isLeft, swapped.left_eq, holds right rightLow rightHigh]
  · rw [swapped.same.readWord, holds index low high]
    rw [Set.disjoint_union_right]
    exact ⟨words_disjoint low high leftLow leftHigh isLeft,
      words_disjoint low high rightLow rightHigh isRight⟩

theorem stack_subset {used more : Nat} (le : used ≤ more) :
    layout.stack used ⊆ layout.stack more :=
  fun _ member => Nat.lt_of_lt_of_le member le

theorem Holds.stack (holds : layout.Holds before longs) {used : Nat}
    (inside : used ≤ layout.room)
    (same : SameOutside (layout.stack used) before after) :
    layout.Holds after longs := by
  intro index low high
  rw [same.readWord, holds index low high]
  exact (layout.array_stack.mono_left (word_subset low high)).mono_right
    (stack_subset inside)

end Memory

end Layout

end SystemsLabs.QuickSort
