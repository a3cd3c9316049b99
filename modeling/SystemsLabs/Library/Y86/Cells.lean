import SystemsLabs.Library.Y86.Program

/-!
# Arrays of words

An array of 64-bit words from an address on, and the words that it holds.
-/

namespace SystemsLabs.Y86

/-- The address of a cell of an array. -/
def cellAt (base : Word) (index : Nat) : Word :=
  base + BitVec.ofNat 64 (8 * index)

/-- The words of an array. -/
def words (memory : Bytes) (base : Word) (cells : Nat) : List Word :=
  (List.range cells).map fun index => readWord memory (cellAt base index)

/-- The memory holds the values of an array. -/
def HoldsCells (memory : Bytes) (base : Word) (cells : Nat)
    (array : Nat → Word) : Prop :=
  ∀ index < cells, readWord memory (cellAt base index) = array index

theorem toInt_ofNat {number : Nat} (small : number < 2 ^ 63) :
    (BitVec.ofNat 64 number).toInt = number := by
  have value : (BitVec.ofNat 64 number).toNat = number := by
    rw [BitVec.toNat_ofNat]
    omega
  rw [BitVec.toInt_eq_toNat_of_lt (by omega), value]

theorem ofNat_succ_sub_one (number : Nat) :
    BitVec.ofNat 64 (number + 1) - 1 = BitVec.ofNat 64 number := by
  rw [BitVec.ofNat_add]
  exact BitVec.add_sub_cancel _ _

/-- A region that misses an address is smaller than the address space. -/
theorem span_small {base place : Word} {count : Nat}
    (away : place ∉ span base count) : count < 2 ^ 64 := by
  by_contra large
  exact away ((place - base).isLt.trans_le (Nat.le_of_not_lt large))

theorem cellAt_zero (base : Word) : cellAt base 0 = base :=
  BitVec.add_zero base

theorem cellAt_succ (base : Word) (index : Nat) :
    cellAt base (index + 1) = cellAt base index + 8 := by
  rw [cellAt, cellAt, Nat.mul_succ, BitVec.ofNat_add, ← add_assoc]
  rfl

/-- The addresses of `count` cells from `first` on. -/
def cellPlaces (base : Word) (first count : Nat) : List Word :=
  (List.range' first count).map (cellAt base)

theorem cellPlaces_succ (base : Word) (first count : Nat) :
    cellPlaces base first (count + 1) =
      [cellAt base first] ++ cellPlaces base (first + 1) count :=
  rfl

theorem map_cellPlaces (memory : Bytes) (base : Word) (count : Nat) :
    (cellPlaces base 0 count).map (readWord memory) =
      words memory base count := by
  rw [cellPlaces, ← List.range_eq_range', List.map_map]
  rfl

section Cells

variable {base : Word} {cells first second : Nat}

theorem cell_subset (inside : first < cells) :
    span (cellAt base first) 8 ⊆ span base (8 * cells) :=
  span_subset base (by omega)

theorem cells_disjoint (small : 8 * cells ≤ 2 ^ 64) (inside : first < cells)
    (otherInside : second < cells) (different : first ≠ second) :
    Disjoint (span (cellAt base first) 8) (span (cellAt base second) 8) := by
  rcases Nat.lt_or_gt_of_ne different with before | behind
  · exact span_disjoint base (by omega) (by omega)
  · exact (span_disjoint base (by omega) (by omega)).symm

theorem HoldsCells.swap {before after : Bytes} {array : Nat → Word}
    (holds : HoldsCells before base cells array)
    (small : 8 * cells ≤ 2 ^ 64) (inside : first < cells)
    (otherInside : second < cells)
    (swapped : Swapped (cellAt base first) (cellAt base second) before after) :
    HoldsCells after base cells (array ∘ Equiv.swap first second) := by
  intro index here
  rw [Function.comp_apply, Equiv.swap_apply_def]
  split_ifs with isFirst isSecond
  · rw [isFirst, swapped.left_eq, holds second otherInside]
  · rw [isSecond, swapped.right_eq, holds first inside]
  · rw [swapped.same.readWord, holds index here]
    rw [Set.disjoint_union_right]
    exact ⟨cells_disjoint small here inside isFirst,
      cells_disjoint small here otherInside isSecond⟩

end Cells

theorem HoldsCells.words_eq {memory : Bytes} {base : Word} {cells : Nat}
    {array : Nat → Word} (holds : HoldsCells memory base cells array) :
    words memory base cells = (List.range cells).map array :=
  List.map_congr_left fun index member =>
    holds index (List.mem_range.mp member)

/-- The machine has come to a `halt`. -/
def Halted (machine : Machine) : Prop :=
  ∃ next, fetch machine.memory machine.pc = some (.halt, next)

theorem Program.Loaded.halted {program : Program} {machine : Machine}
    {place next : Word} (loaded : program.Loaded machine.memory)
    (here : machine.pc = place)
    (found : instructionAt place program.start program.code =
      some (.halt, next)) : Halted machine :=
  ⟨next, Placed.instructionAt loaded (here ▸ found)⟩

end SystemsLabs.Y86
