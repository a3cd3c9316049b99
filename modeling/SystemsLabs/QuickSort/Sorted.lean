import SystemsLabs.QuickSort.Code
import SystemsLabs.Library.CellLoops
import SystemsLabs.Library.Rearrangement
import Mathlib

/-!
# The quicksort sorts

Each call rearranges its own part of the array and accesses nothing else, and
the values in front of the final place of the pivot are at most the pivot, those
behind it greater.
-/

namespace SystemsLabs.QuickSort

open Rearrangement CellLoops

/-- What a piece of code that works on a part of the array may do. -/
structure Touches (region : Set Int) (before after : Longs) : Prop where
  rearranges : Rearranges region before.cell after.cell
  accessed : ∀ pointer ∈ after.accessed,
    pointer ∈ before.accessed ∨ pointer ∈ region

namespace Touches

variable {region larger : Set Int} {first second third : Longs}

theorem refl (region : Set Int) (longs : Longs) :
    Touches region longs longs :=
  ⟨.refl region longs.cell, fun _ => .inl⟩

theorem trans (earlier : Touches region first second)
    (later : Touches region second third) : Touches region first third := by
  refine ⟨earlier.rearranges.trans later.rearranges, ?_⟩
  intro pointer member
  rcases later.accessed pointer member with before | inside
  · exact earlier.accessed pointer before
  · exact .inr inside

theorem mono (touches : Touches region first second)
    (inside : region ⊆ larger) : Touches larger first second :=
  ⟨touches.rearranges.mono inside, fun pointer member =>
    (touches.accessed pointer member).imp id (@inside pointer)⟩

end Touches

theorem read_touches {region : Set Int} (longs : Longs) {pointer : Int}
    (inside : pointer ∈ region) : Touches region longs (longs.read pointer).2 := by
  refine ⟨.refl region longs.cell, ?_⟩
  intro other member
  rcases List.mem_cons.mp member with same | earlier
  · rw [same]
    exact .inr inside
  · exact .inl earlier

theorem swap_cell (longs : Longs) (left right : Int) :
    (longs.swap left right).cell = longs.cell ∘ Equiv.swap left right := by
  rw [Equiv.swap_comm]
  exact (Equiv.comp_swap_eq_update right left longs.cell).symm

theorem swap_touches {region : Set Int} (longs : Longs) {left right : Int}
    (leftInside : left ∈ region) (rightInside : right ∈ region) :
    Touches region longs (longs.swap left right) := by
  constructor
  · rw [swap_cell]
    exact .swap longs.cell leftInside rightInside
  · intro pointer member
    simp only [Longs.swap, Longs.read, Longs.write, List.mem_cons] at member
    rcases member with rfl | rfl | rfl | rfl | earlier
    · exact .inr rightInside
    · exact .inr leftInside
    · exact .inr rightInside
    · exact .inr leftInside
    · exact .inl earlier

/-- The invariant of the partition loop. -/
structure Partitioned (pivot : BitVec 64) (A i j : Int) (longs : Longs) :
    Prop where
  start_le : A ≤ i
  le : i ≤ j
  small : ∀ pointer ∈ Set.Ico A i,
    (longs.cell pointer).toInt ≤ pivot.toInt
  large : ∀ pointer ∈ Set.Ico i j,
    pivot.toInt < (longs.cell pointer).toInt

namespace Partitioned

variable {pivot : BitVec 64} {A i j : Int} {longs : Longs}

theorem step_small (partitioned : Partitioned pivot A i j longs)
    (small : (longs.cell j).toInt ≤ pivot.toInt) :
    Partitioned pivot A (i + 1) (j + 1) ((longs.read j).2.swap j i) := by
  obtain ⟨start, le, before, behind⟩ := partitioned
  refine ⟨by omega, by omega, ?_, ?_⟩
  · rintro pointer ⟨low, high⟩
    rw [swap_cell]
    change (longs.cell (Equiv.swap j i pointer)).toInt ≤ _
    by_cases last : pointer = i
    · rw [last, Equiv.swap_apply_right]
      exact small
    · rw [Equiv.swap_apply_of_ne_of_ne (by omega) last]
      exact before pointer ⟨low, by omega⟩
  · rintro pointer ⟨low, high⟩
    rw [swap_cell]
    change _ < (longs.cell (Equiv.swap j i pointer)).toInt
    by_cases last : pointer = j
    · rw [last, Equiv.swap_apply_left]
      exact behind i ⟨Int.le_refl i, by omega⟩
    · rw [Equiv.swap_apply_of_ne_of_ne last (by omega)]
      exact behind pointer ⟨by omega, by omega⟩

theorem step_large (partitioned : Partitioned pivot A i j longs)
    (large : pivot.toInt < (longs.cell j).toInt) :
    Partitioned pivot A i (j + 1) (longs.read j).2 := by
  obtain ⟨start, le, before, behind⟩ := partitioned
  refine ⟨start, by omega, before, ?_⟩
  rintro pointer ⟨low, high⟩
  by_cases last : pointer = j
  · rw [last]
    exact large
  · exact behind pointer ⟨low, by omega⟩

theorem loop (partitioned : Partitioned pivot A i j longs) {high : Int}
    (inside : j ≤ high) :
    Partitioned pivot A (partitionLoop pivot high i j longs).1 high
        (partitionLoop pivot high i j longs).2 ∧
      Touches (Set.Ico A high) longs
        (partitionLoop pivot high i j longs).2 := by
  obtain ⟨rounds, distance⟩ := Int.le.dest inside
  induction rounds generalizing i j longs with
  | zero =>
      have done : j = high := by omega
      subst done
      rw [partitionLoop_done (lt_irrefl j)]
      exact ⟨partitioned, .refl _ longs⟩
  | succ rounds ih =>
      have more : j < high := by omega
      have start := partitioned.start_le
      have le := partitioned.le
      have readInside : Touches (Set.Ico A high) longs (longs.read j).2 :=
        read_touches longs ⟨by omega, more⟩
      cases small : (longs.cell j).sle pivot with
      | true =>
          rw [partitionLoop_small more small]
          obtain ⟨result, touches⟩ := ih
            (partitioned.step_small (BitVec.sle_iff_toInt_le.mp small))
            (by omega) (by omega)
          refine ⟨result, (readInside.trans ?_).trans touches⟩
          exact swap_touches _ ⟨by omega, more⟩ ⟨start, by omega⟩
      | false =>
          have large : pivot.toInt < (longs.cell j).toInt := by
            apply Int.not_le.mp
            intro le
            rw [BitVec.sle_iff_toInt_le.mpr le] at small
            cases small
          rw [partitionLoop_large more small]
          obtain ⟨result, touches⟩ :=
            ih (partitioned.step_large large) (by omega) (by omega)
          exact ⟨result, readInside.trans touches⟩

end Partitioned

/-- What a call does before the calls for the two parts. -/
structure Divided (A len i : Int) (before after : Longs) : Prop where
  start_le : A ≤ i
  inside : i < A + len
  touches : Touches (Set.Ico A (A + len)) before after
  small : ∀ pointer ∈ Set.Ico A i,
    (after.cell pointer).toInt ≤ (after.cell i).toInt
  large : ∀ pointer ∈ Set.Ioo i (A + len),
    (after.cell i).toInt < (after.cell pointer).toInt

/-- The state of a call when the loop has ended and the pivot is in place. -/
def divide (A len : Int) (longs : Longs) : Int × Longs :=
  let high := A + len - 1
  let (pivot, start) := longs.read high
  let parts := partitionLoop pivot high A A start
  (parts.1, parts.2.swap high parts.1)

theorem quickSort_base {A len : Int} (base : len ≤ 1) (longs : Longs) :
    quickSort A len longs = longs := by
  rw [quickSort, if_pos base]

theorem quickSort_divide {A len : Int} (more : ¬len ≤ 1) (longs : Longs) :
    quickSort A len longs =
      quickSort ((divide A len longs).1 + 1)
        (len - ((divide A len longs).1 - A) - 1)
        (quickSort A ((divide A len longs).1 - A) (divide A len longs).2) := by
  rw [quickSort, if_neg more]
  rfl

/-- The pivot is swapped with the first value that is greater. -/
theorem Partitioned.divided {A len i : Int} {before longs : Longs}
    {pivot : BitVec 64}
    (partitioned : Partitioned pivot A i (A + len - 1) longs)
    (touches : Touches (Set.Ico A (A + len)) before longs)
    (last : longs.cell (A + len - 1) = pivot) :
    Divided A len i before (longs.swap (A + len - 1) i) := by
  obtain ⟨start, le, small, large⟩ := partitioned
  have moved : ∀ pointer, (longs.swap (A + len - 1) i).cell pointer =
      longs.cell (Equiv.swap (A + len - 1) i pointer) := by
    intro pointer
    rw [swap_cell, Function.comp_apply]
  have here : (longs.swap (A + len - 1) i).cell i = pivot := by
    rw [moved, Equiv.swap_apply_right, last]
  refine ⟨start, by omega, touches.trans ?_, ?_, ?_⟩
  · exact swap_touches longs ⟨by omega, by omega⟩ ⟨start, by omega⟩
  · rintro pointer ⟨low, high⟩
    rw [here, moved, Equiv.swap_apply_of_ne_of_ne (by omega) (by omega)]
    exact small pointer ⟨low, high⟩
  · rintro pointer ⟨low, high⟩
    rw [here, moved]
    by_cases isLast : pointer = A + len - 1
    · rw [isLast, Equiv.swap_apply_left]
      exact large i ⟨Int.le_refl i, by omega⟩
    · rw [Equiv.swap_apply_of_ne_of_ne isLast (by omega)]
      exact large pointer ⟨by omega, by omega⟩

theorem divide_divided {A len : Int} (more : ¬len ≤ 1) (longs : Longs) :
    Divided A len (divide A len longs).1 longs (divide A len longs).2 := by
  have last : A + len - 1 ∈ Set.Ico A (A + len) := ⟨by omega, by omega⟩
  have initial : Partitioned (longs.cell (A + len - 1)) A A A
      (longs.read (A + len - 1)).2 := by
    refine ⟨Int.le_refl A, Int.le_refl A, ?_, ?_⟩
    · intro pointer inside
      exact (lt_irrefl A (inside.1.trans_lt inside.2)).elim
    · intro pointer inside
      exact (lt_irrefl A (inside.1.trans_lt inside.2)).elim
  have reaches : A ≤ A + len - 1 := by omega
  obtain ⟨partitioned, touches⟩ := initial.loop reaches
  apply partitioned.divided
  · apply (read_touches longs last).trans
    apply touches.mono
    exact Set.Ico_subset_Ico_right (by omega)
  · exact touches.rearranges.outside fun inside => lt_irrefl _ inside.2

/-- Neighbouring parts of a sorted whole. -/
def SortedOn (longs : Longs) (first last : Int) : Prop :=
  ∀ left ∈ Set.Ico first last, ∀ right ∈ Set.Ico first last, left ≤ right →
    (longs.cell left).toInt ≤ (longs.cell right).toInt

theorem Divided.join {A len i : Int} {before middle left right : Longs}
    (divided : Divided A len i before middle)
    (leftTouches : Touches (Set.Ico A i) middle left)
    (leftSorted : SortedOn left A i)
    (rightTouches : Touches (Set.Ico (i + 1) (A + len)) left right)
    (rightSorted : SortedOn right (i + 1) (A + len)) :
    SortedOn right A (A + len) := by
  obtain ⟨start, inside, _, small, large⟩ := divided
  have leftKept : ∀ pointer, pointer ≤ i →
      right.cell pointer = left.cell pointer := by
    intro pointer before
    apply rightTouches.rearranges.outside
    rintro ⟨low, _⟩
    omega
  have rightKept : ∀ pointer, i ≤ pointer →
      left.cell pointer = middle.cell pointer := by
    intro pointer behind
    apply leftTouches.rearranges.outside
    rintro ⟨_, high⟩
    omega
  have pivot : right.cell i = middle.cell i :=
    (leftKept i (Int.le_refl i)).trans (rightKept i (Int.le_refl i))
  have before : ∀ pointer ∈ Set.Ico A i,
      (right.cell pointer).toInt ≤ (right.cell i).toInt := by
    intro pointer member
    obtain ⟨origin, place, same⟩ := leftTouches.rearranges.exists_place member
    rw [pivot, leftKept pointer member.2.le, same]
    exact small origin place
  have behind : ∀ pointer ∈ Set.Ico (i + 1) (A + len),
      (right.cell i).toInt ≤ (right.cell pointer).toInt := by
    intro pointer member
    obtain ⟨origin, ⟨low, high⟩, same⟩ :=
      rightTouches.rearranges.exists_place member
    rw [pivot, same, rightKept origin (by omega)]
    exact (large origin ⟨by omega, high⟩).le
  rintro first ⟨firstLow, firstHigh⟩ second ⟨secondLow, secondHigh⟩ order
  rcases lt_trichotomy first i with firstLeft | rfl | firstRight
  · rcases lt_trichotomy second i with secondLeft | rfl | secondRight
    · rw [leftKept first firstLeft.le, leftKept second secondLeft.le]
      exact leftSorted first ⟨firstLow, firstLeft⟩ second
        ⟨secondLow, secondLeft⟩ order
    · exact before first ⟨firstLow, firstLeft⟩
    · exact (before first ⟨firstLow, firstLeft⟩).trans
        (behind second ⟨secondRight, secondHigh⟩)
  · rcases order.eq_or_lt with rfl | secondRight
    · exact Int.le_refl _
    · exact behind second ⟨secondRight, secondHigh⟩
  · exact rightSorted first ⟨firstRight, firstHigh⟩ second
      ⟨by omega, secondHigh⟩ order

theorem quickSort_touches_sorts (A len : Int) (longs : Longs) :
    Touches (Set.Ico A (A + len)) longs (quickSort A len longs) ∧
      SortedOn (quickSort A len longs) A (A + len) := by
  induction size : len.toNat using Nat.strongRecOn
    generalizing A len longs with
  | ind size ih =>
      by_cases base : len ≤ 1
      · rw [quickSort_base base]
        refine ⟨.refl _ longs, ?_⟩
        rintro left ⟨leftLow, leftHigh⟩ right ⟨rightLow, rightHigh⟩ _
        have same : left = right := by omega
        rw [same]
      · have divided := @divide_divided A len base longs
        rw [quickSort_divide base]
        generalize (divide A len longs).1 = i,
          (divide A len longs).2 = middle at divided ⊢
        have start := divided.start_le
        have inside := divided.inside
        have leftEnd : A + (i - A) = i := by omega
        have rightEnd : i + 1 + (len - (i - A) - 1) = A + len := by omega
        obtain ⟨leftTouches, leftSorted⟩ :=
          ih (i - A).toNat (by omega) A (i - A) middle rfl
        obtain ⟨rightTouches, rightSorted⟩ :=
          ih (len - (i - A) - 1).toNat (by omega) (i + 1)
            (len - (i - A) - 1) (quickSort A (i - A) middle) rfl
        rw [leftEnd] at leftTouches leftSorted
        rw [rightEnd] at rightTouches rightSorted
        constructor
        · apply divided.touches.trans
          apply (leftTouches.mono _).trans (rightTouches.mono _)
          · exact Set.Ico_subset_Ico_right inside.le
          · exact Set.Ico_subset_Ico_left (by omega)
        · exact divided.join leftTouches leftSorted rightTouches rightSorted

/-- The content of part of the array. -/
def content (longs : Longs) (A len : Int) : List (BitVec 64) :=
  (interval A (A + len)).map longs.cell

theorem increasing_interval (first last : Int) :
    (interval first last).Pairwise (· < ·) := by
  apply List.pairwise_map.mpr
  apply List.pairwise_lt_range.imp
  intro left right order
  omega

/-- `quickSort` ends for every array and length, accesses its part of the array
only, changes nothing else, and leaves a sorted permutation of the content. -/
theorem quickSort_sorts (cell : Int → BitVec 64) (A len : Int) :
    (∀ pointer ∈ (quickSort A len { cell := cell, accessed := [] }).accessed,
        A ≤ pointer ∧ pointer < A + len) ∧
      (∀ pointer, pointer < A ∨ A + len ≤ pointer →
        (quickSort A len { cell := cell, accessed := [] }).cell pointer =
          cell pointer) ∧
      (content (quickSort A len { cell := cell, accessed := [] }) A len).Perm
        (content { cell := cell, accessed := [] } A len) ∧
      (content (quickSort A len { cell := cell, accessed := [] }) A
        len).Pairwise fun left right => left.toInt ≤ right.toInt := by
  obtain ⟨touches, sorted⟩ :=
    quickSort_touches_sorts A len { cell := cell, accessed := [] }
  refine ⟨?_, ?_, ?_, ?_⟩
  · intro pointer member
    rcases touches.accessed pointer member with before | inside
    · cases before
    · exact inside
  · intro pointer outside
    apply touches.rearranges.outside
    rintro ⟨low, high⟩
    omega
  · apply touches.rearranges.perm (nodup_interval A (A + len))
    intro pointer
    exact mem_interval
  · apply List.pairwise_map.mpr
    apply (increasing_interval A (A + len)).imp_of_mem
    intro left right leftInside rightInside order
    exact sorted left (mem_interval.mp leftInside) right
      (mem_interval.mp rightInside) order.le

end SystemsLabs.QuickSort
