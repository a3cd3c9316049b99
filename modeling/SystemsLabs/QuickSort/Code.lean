import Mathlib.Data.Int.Notation
import Mathlib.Logic.Function.Basic

/-!
# The quicksort of `lab3/sort.c`

A pointer to `long` is the index of a cell.  Every read and write of a cell is
recorded.
-/

namespace SystemsLabs.QuickSort

structure Longs where
  cell : Int → BitVec 64
  /-- The cells read or written so far, the last one first. -/
  accessed : List Int

namespace Longs

def read (longs : Longs) (pointer : Int) : BitVec 64 × Longs :=
  (longs.cell pointer, { longs with accessed := pointer :: longs.accessed })

def write (longs : Longs) (pointer : Int) (value : BitVec 64) : Longs :=
  { cell := Function.update longs.cell pointer value
    accessed := pointer :: longs.accessed }

/-- `t = *left; *left = *right; *right = t`. -/
def swap (longs : Longs) (left right : Int) : Longs :=
  let (t, longs) := longs.read left
  let (value, longs) := longs.read right
  (longs.write left value).write right t

end Longs

/-- The `while` loop; the result is `i` and the memory behind the loop. -/
def partitionLoop (pivot : BitVec 64) (high i j : Int) (longs : Longs) :
    Int × Longs :=
  if j < high then
    let (value, longs) := longs.read j
    if value.sle pivot then
      partitionLoop pivot high (i + 1) (j + 1) (longs.swap j i)
    else
      partitionLoop pivot high i (j + 1) longs
  else (i, longs)
termination_by (high - j).toNat

section PartitionLoop

variable {pivot : BitVec 64} {high i j : Int} {longs : Longs}

theorem partitionLoop_small (more : j < high)
    (small : (longs.cell j).sle pivot = true) :
    partitionLoop pivot high i j longs =
      partitionLoop pivot high (i + 1) (j + 1)
        ((longs.read j).2.swap j i) := by
  rw [partitionLoop, if_pos more]
  simp only [Longs.read, small, if_true]

theorem partitionLoop_large (more : j < high)
    (large : (longs.cell j).sle pivot = false) :
    partitionLoop pivot high i j longs =
      partitionLoop pivot high i (j + 1) (longs.read j).2 := by
  rw [partitionLoop, if_pos more]
  simp only [Longs.read, large, Bool.false_eq_true, if_false]

theorem partitionLoop_done (done : ¬j < high) :
    partitionLoop pivot high i j longs = (i, longs) := by
  rw [partitionLoop, if_neg done]

/-- `i` stays between its first value and the end of the loop. -/
theorem partitionLoop_bounds (pivot : BitVec 64) (high i j : Int)
    (longs : Longs) (le : i ≤ j) (inside : j ≤ high) :
    i ≤ (partitionLoop pivot high i j longs).1 ∧
      (partitionLoop pivot high i j longs).1 ≤ high := by
  obtain ⟨rounds, distance⟩ := Int.le.dest inside
  induction rounds generalizing i j longs with
  | zero =>
      rw [partitionLoop_done (by omega)]
      exact ⟨Int.le_refl i, Int.le_trans le inside⟩
  | succ rounds ih =>
      have more : j < high := by omega
      cases small : (longs.cell j).sle pivot with
      | true =>
          rw [partitionLoop_small more small]
          have bounds := ih (i + 1) (j + 1) ((longs.read j).2.swap j i)
            (by omega) (by omega) (by omega)
          exact ⟨by omega, bounds.2⟩
      | false =>
          rw [partitionLoop_large more small]
          exact ih i (j + 1) (longs.read j).2 (by omega) (by omega) (by omega)

end PartitionLoop

def quickSort (A len : Int) (longs : Longs) : Longs :=
  if len ≤ 1 then longs
  else
    let high := A + len - 1
    let (pivot, start) := longs.read high
    let parts := partitionLoop pivot high A A start
    let i := parts.1
    let left := quickSort A (i - A) (parts.2.swap high i)
    quickSort (i + 1) (len - (i - A) - 1) left
termination_by len.toNat
decreasing_by
  all_goals
    have bounds := partitionLoop_bounds pivot (A + len - 1) A A start
      (Int.le_refl A) (by omega)
    omega

end SystemsLabs.QuickSort
