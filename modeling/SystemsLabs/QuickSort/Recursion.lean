import SystemsLabs.QuickSort.Sorted

/-!
# The recursion of the quicksort

How deep the calls nest, and the arrays for which no call finds more than one
value greater than its pivot.
-/

namespace SystemsLabs.QuickSort

/-- The number of nested calls, this one included. -/
def depth (A len : Int) (longs : Longs) : Nat :=
  if len ≤ 1 then 1
  else
    let parts := divide A len longs
    let left := quickSort A (parts.1 - A) parts.2
    1 + max (depth A (parts.1 - A) parts.2)
      (depth (parts.1 + 1) (len - (parts.1 - A) - 1) left)
termination_by len.toNat
decreasing_by
  all_goals
    have divided := @divide_divided A len ‹¬len ≤ 1› longs
    have start := divided.start_le
    have inside := divided.inside
    omega

theorem depth_base {A len : Int} (base : len ≤ 1) (longs : Longs) :
    depth A len longs = 1 := by
  rw [depth, if_pos base]

theorem depth_divide {A len : Int} (more : ¬len ≤ 1) (longs : Longs) :
    depth A len longs =
      1 + max (depth A ((divide A len longs).1 - A) (divide A len longs).2)
        (depth ((divide A len longs).1 + 1)
          (len - ((divide A len longs).1 - A) - 1)
          (quickSort A ((divide A len longs).1 - A) (divide A len longs).2)) := by
  rw [depth, if_neg more]

theorem depth_pos (A len : Int) (longs : Longs) : 0 < depth A len longs := by
  by_cases base : len ≤ 1
  · rw [depth_base base]
    decide
  · rw [depth_divide base]
    exact Nat.add_pos_left Nat.one_pos _

theorem depth_le (A len : Int) (longs : Longs) :
    depth A len longs ≤ max 1 len.toNat := by
  induction size : len.toNat using Nat.strongRecOn
    generalizing A len longs with
  | ind size ih =>
      by_cases base : len ≤ 1
      · rw [depth_base base]
        exact Nat.le_max_left _ _
      · have divided := @divide_divided A len base longs
        have start := divided.start_le
        have inside := divided.inside
        have left := ih ((divide A len longs).1 - A).toNat (by omega) A
          ((divide A len longs).1 - A) (divide A len longs).2 rfl
        have right := ih (len - ((divide A len longs).1 - A) - 1).toNat
          (by omega) ((divide A len longs).1 + 1)
          (len - ((divide A len longs).1 - A) - 1)
          (quickSort A ((divide A len longs).1 - A) (divide A len longs).2) rfl
        rw [depth_divide base]
        omega

/-- In every call the part behind the pivot has at most one value. -/
inductive RightsSmall : Int → Int → Longs → Prop where
  | base {A len : Int} {longs : Longs} (base : len ≤ 1) :
      RightsSmall A len longs
  | divide {A len : Int} {longs : Longs} (more : ¬len ≤ 1)
      (small : len - ((divide A len longs).1 - A) - 1 ≤ 1)
      (left : RightsSmall A ((divide A len longs).1 - A)
        (divide A len longs).2) :
      RightsSmall A len longs

end SystemsLabs.QuickSort
