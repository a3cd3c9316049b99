import SystemsLabs.QuickSort.Recursion

/-!
# The worst case of the quicksort

The pivot is the last value, so a sorted array is the slowest: each call finds
every value in front of the pivot small and swaps it with itself.
-/

namespace SystemsLabs.QuickSort

/-- The number of reads and writes of a sorted array of `n` values. -/
def worst (n : Nat) : Nat := 5 * (n * (n + 1) / 2 - 1)

theorem triangle_succ (n : Nat) :
    (n + 1) * (n + 1 + 1) / 2 = n * (n + 1) / 2 + (n + 1) := by
  have twice : (n + 1) * (n + 1 + 1) = n * (n + 1) + (n + 1) * 2 := by ring
  rw [twice, Nat.add_mul_div_right _ _ (by decide)]

theorem triangle_add (left right : Nat) :
    (left + right + 1) * (left + right + 1 + 1) / 2 =
      left * (left + 1) / 2 + right * (right + 1) / 2 +
        (left + 1) * (right + 1) := by
  induction right with
  | zero =>
      rw [Nat.add_zero, triangle_succ]
      simp
  | succ right ih =>
      have shifted : left + (right + 1) + 1 = left + right + 1 + 1 := by omega
      rw [shifted, triangle_succ (left + right + 1), ih, triangle_succ right]
      ring

theorem worst_divide {left right : Nat} (more : 0 < left + right) :
    left + right + 1 + 4 * left + 4 + worst left + worst right ≤
        worst (left + right + 1) ∧
      (left + right + 1 + 4 * left + 4 + worst left + worst right =
        worst (left + right + 1) ↔ right = 0) := by
  have whole := triangle_add left right
  have product : (left + 1) * (right + 1) = left * right + left + right + 1 := by
    ring
  rw [product] at whole
  simp only [worst, whole]
  cases right with
  | zero =>
      obtain ⟨before, rfl⟩ := Nat.exists_eq_succ_of_ne_zero
        (Nat.pos_iff_ne_zero.mp more)
      have leftTriangle := triangle_succ before
      simp only [Nat.succ_eq_add_one, Nat.mul_zero, Nat.zero_mul,
        Nat.zero_div, Nat.add_zero, leftTriangle, iff_true]
      omega
  | succ right =>
      have positive := triangle_succ right
      generalize left * (left + 1) / 2 = leftTriangle
      generalize left * (right + 1) = crossing
      omega

section PartitionLoop

variable {pivot : BitVec 64} {high : Int}

theorem read_accessed (longs : Longs) (pointer : Int) :
    (longs.read pointer).2.accessed.length = longs.accessed.length + 1 := rfl

theorem swap_accessed (longs : Longs) (left right : Int) :
    (longs.swap left right).accessed.length = longs.accessed.length + 4 := rfl

theorem swap_self (longs : Longs) (pointer : Int) :
    (longs.swap pointer pointer).cell = longs.cell := by
  rw [swap_cell, Equiv.swap_self]
  rfl

theorem partitionLoop_accessed (i j : Int) (longs : Longs)
    (inside : j ≤ high) :
    ((partitionLoop pivot high i j longs).2.accessed.length : Int) =
      longs.accessed.length + (high - j) +
        4 * ((partitionLoop pivot high i j longs).1 - i) := by
  obtain ⟨rounds, distance⟩ := Int.le.dest inside
  induction rounds generalizing i j longs with
  | zero =>
      rw [partitionLoop_done (by omega)]
      dsimp only
      omega
  | succ rounds ih =>
      have more : j < high := by omega
      cases small : (longs.cell j).sle pivot with
      | true =>
          rw [partitionLoop_small more small,
            ih (i + 1) (j + 1) ((longs.read j).2.swap j i) (by omega)
              (by omega), swap_accessed, read_accessed]
          omega
      | false =>
          rw [partitionLoop_large more small,
            ih i (j + 1) (longs.read j).2 (by omega) (by omega), read_accessed]
          omega

/-- A value that is greater than the pivot keeps `i` behind for ever. -/
theorem partitionLoop_behind (i j : Int) (longs : Longs)
    (inside : j ≤ high) :
    (partitionLoop pivot high i j longs).1 + j ≤ high + i := by
  obtain ⟨rounds, distance⟩ := Int.le.dest inside
  induction rounds generalizing i j longs with
  | zero =>
      rw [partitionLoop_done (by omega)]
      dsimp only
      omega
  | succ rounds ih =>
      have more : j < high := by omega
      cases small : (longs.cell j).sle pivot with
      | true =>
          have behind := ih (i + 1) (j + 1) ((longs.read j).2.swap j i)
            (by omega) (by omega)
          rw [partitionLoop_small more small]
          omega
      | false =>
          have behind := ih i (j + 1) (longs.read j).2 (by omega) (by omega)
          rw [partitionLoop_large more small]
          omega

/-- `i` follows `j` to the end exactly when no value is greater, and then
nothing moves. -/
theorem partitionLoop_full (j : Int) (longs : Longs) (inside : j ≤ high) :
    ((partitionLoop pivot high j j longs).1 = high ↔
        ∀ pointer ∈ Set.Ico j high, (longs.cell pointer).sle pivot = true) ∧
      ((partitionLoop pivot high j j longs).1 = high →
        (partitionLoop pivot high j j longs).2.cell = longs.cell) := by
  obtain ⟨rounds, distance⟩ := Int.le.dest inside
  induction rounds generalizing j longs with
  | zero =>
      rw [partitionLoop_done (by omega)]
      refine ⟨⟨fun _ pointer member => ?_, fun _ => by dsimp only; omega⟩,
        fun _ => rfl⟩
      have low := member.1
      have before := member.2
      omega
  | succ rounds ih =>
      have more : j < high := by omega
      cases small : (longs.cell j).sle pivot with
      | true =>
          have unmoved : ((longs.read j).2.swap j j).cell = longs.cell :=
            swap_self (longs.read j).2 j
          obtain ⟨full, still⟩ := ih (j + 1)
            ((longs.read j).2.swap j j) (by omega) (by omega)
          rw [unmoved] at full still
          rw [partitionLoop_small more small]
          refine ⟨full.trans ⟨?_, ?_⟩, still⟩
          · intro smalls pointer member
            by_cases first : pointer = j
            · rw [first]
              exact small
            · have low := member.1
              exact smalls pointer ⟨by omega, member.2⟩
          · intro smalls pointer member
            have low := member.1
            exact smalls pointer ⟨by omega, member.2⟩
      | false =>
          have behind := @partitionLoop_behind pivot high j (j + 1)
            (longs.read j).2 (by omega)
          rw [partitionLoop_large more small]
          refine ⟨⟨fun full => by omega, fun smalls => ?_⟩,
            fun full => by omega⟩
          rw [smalls j ⟨Int.le_refl j, more⟩] at small
          cases small

end PartitionLoop

section Call

variable (A : Int) {len : Int}

theorem divide_accessed (more : ¬len ≤ 1) (longs : Longs) :
    ((divide A len longs).2.accessed.length : Int) =
      longs.accessed.length + len + 4 * ((divide A len longs).1 - A) + 4 := by
  have loop := @partitionLoop_accessed (longs.cell (A + len - 1))
    (A + len - 1) A A (longs.read (A + len - 1)).2 (by omega)
  rw [read_accessed] at loop
  change (((partitionLoop (longs.cell (A + len - 1)) (A + len - 1) A A
      (longs.read (A + len - 1)).2).2.swap (A + len - 1)
        (partitionLoop (longs.cell (A + len - 1)) (A + len - 1) A A
          (longs.read (A + len - 1)).2).1).accessed.length : Int) =
    longs.accessed.length + len +
      4 * ((partitionLoop (longs.cell (A + len - 1)) (A + len - 1) A A
        (longs.read (A + len - 1)).2).1 - A) + 4
  rw [swap_accessed]
  omega

/-- The right part is empty exactly when the last value is a greatest one, and
then nothing moves. -/
theorem divide_full (more : ¬len ≤ 1) (longs : Longs) :
    ((divide A len longs).1 = A + len - 1 ↔
        ∀ pointer ∈ Set.Ico A (A + len - 1),
          (longs.cell pointer).toInt ≤ (longs.cell (A + len - 1)).toInt) ∧
      ((divide A len longs).1 = A + len - 1 →
        (divide A len longs).2.cell = longs.cell) := by
  obtain ⟨full, still⟩ := @partitionLoop_full (longs.cell (A + len - 1))
    (A + len - 1) A (longs.read (A + len - 1)).2 (by omega)
  simp only [BitVec.sle_iff_toInt_le] at full
  refine ⟨full, ?_⟩
  intro reached
  have here : (partitionLoop (longs.cell (A + len - 1)) (A + len - 1) A A
      (longs.read (A + len - 1)).2).1 = A + len - 1 := reached
  change ((partitionLoop (longs.cell (A + len - 1)) (A + len - 1) A A
    (longs.read (A + len - 1)).2).2.swap (A + len - 1)
      (partitionLoop (longs.cell (A + len - 1)) (A + len - 1) A A
        (longs.read (A + len - 1)).2).1).cell = longs.cell
  rw [here, swap_self]
  exact still here

end Call

theorem sortedOn_short {A len : Int} (base : len ≤ 1) (longs : Longs) :
    SortedOn longs A (A + len) := by
  rintro left ⟨leftLow, leftHigh⟩ right ⟨rightLow, rightHigh⟩ _
  have same : left = right := by omega
  rw [same]

theorem sortedOn_last {A high : Int} (longs : Longs) :
    SortedOn longs A (high + 1) ↔
      (∀ pointer ∈ Set.Ico A high,
        (longs.cell pointer).toInt ≤ (longs.cell high).toInt) ∧
      SortedOn longs A high := by
  constructor
  · intro sorted
    refine ⟨?_, ?_⟩
    · rintro pointer ⟨low, before⟩
      exact sorted pointer ⟨low, by omega⟩ high ⟨by omega, by omega⟩ before.le
    · rintro left ⟨leftLow, leftHigh⟩ right ⟨rightLow, rightHigh⟩
      exact sorted left ⟨leftLow, by omega⟩ right ⟨rightLow, by omega⟩
  · rintro ⟨greatest, sorted⟩ left ⟨leftLow, leftHigh⟩ right
      ⟨rightLow, rightHigh⟩ order
    by_cases last : right = high
    · rw [last]
      by_cases both : left = high
      · rw [both]
      · exact greatest left ⟨leftLow, by omega⟩
    · exact sorted left ⟨leftLow, by omega⟩ right ⟨rightLow, by omega⟩ order

theorem sortedOn_congr {longs other : Longs} {first last : Int}
    (same : longs.cell = other.cell) :
    SortedOn longs first last ↔ SortedOn other first last := by
  unfold SortedOn
  rw [same]

/-- The reads and writes of a call are at most those of a sorted array of its
length, and they are as many only when the array is sorted. -/
theorem quickSort_accessed (A len : Int) (longs : Longs) :
    (quickSort A len longs).accessed.length ≤
        longs.accessed.length + worst len.toNat ∧
      ((quickSort A len longs).accessed.length =
          longs.accessed.length + worst len.toNat ↔
        SortedOn longs A (A + len)) := by
  induction size : len.toNat using Nat.strongRecOn
    generalizing A len longs with
  | ind count ih =>
      by_cases base : len ≤ 1
      · have none : worst count = 0 := by
          have few : count = 0 ∨ count = 1 := by omega
          rcases few with rfl | rfl <;> rfl
        rw [quickSort_base base, none]
        exact ⟨Nat.le_refl _, iff_of_true rfl (sortedOn_short base longs)⟩
      · have divided := @divide_divided A len base longs
        have accessed := divide_accessed A base longs
        obtain ⟨full, still⟩ := divide_full A base longs
        rw [quickSort_divide base]
        generalize (divide A len longs).1 = i,
          (divide A len longs).2 = middle at divided accessed full still ⊢
        have start := divided.start_le
        have inside := divided.inside
        obtain ⟨leftLe, leftIff⟩ :=
          ih (i - A).toNat (by omega) A (i - A) middle rfl
        obtain ⟨rightLe, -⟩ :=
          ih (len - (i - A) - 1).toNat (by omega) (i + 1)
            (len - (i - A) - 1) (quickSort A (i - A) middle) rfl
        have parts : count = (i - A).toNat + (len - (i - A) - 1).toNat + 1 := by
          omega
        obtain ⟨bound, attained⟩ := @worst_divide (i - A).toNat
          (len - (i - A) - 1).toNat (by omega)
        rw [← parts] at bound attained
        refine ⟨by omega, ?_⟩
        have whole : A + len = A + len - 1 + 1 := by omega
        have part : A + (i - A) = i := by omega
        rw [whole, sortedOn_last]
        rw [part] at leftIff
        constructor
        · intro slowest
          have reached : i = A + len - 1 := by
            have empty := attained.mp (by omega)
            omega
          refine ⟨full.mp reached, ?_⟩
          rw [← sortedOn_congr (still reached), ← reached]
          exact leftIff.mp (by omega)
        · rintro ⟨greatest, sorted⟩
          have reached := full.mpr greatest
          rw [← sortedOn_congr (still reached), ← reached] at sorted
          have leftSlowest := leftIff.mpr sorted
          have slowest := attained.mpr (by omega)
          rw [quickSort_base (by omega)]
          rw [quickSort_base (by omega)] at rightLe
          have none : worst (len - (i - A) - 1).toNat = 0 := by
            have zero : (len - (i - A) - 1).toNat = 0 := by omega
            rw [zero]
            rfl
          omega

/-- A sorted array nests the calls as deep as they can, and stays as it is. -/
theorem sorted_depth (A len : Int) (longs : Longs)
    (sorted : SortedOn longs A (A + len)) :
    depth A len longs = max 1 len.toNat ∧
      (quickSort A len longs).cell = longs.cell := by
  induction size : len.toNat using Nat.strongRecOn
    generalizing A len longs with
  | ind count ih =>
      by_cases base : len ≤ 1
      · rw [depth_base base, quickSort_base base]
        exact ⟨by omega, rfl⟩
      · obtain ⟨full, still⟩ := divide_full A base longs
        have whole : A + len = A + len - 1 + 1 := by omega
        rw [whole, sortedOn_last] at sorted
        have reached := full.mpr sorted.1
        have unmoved := still reached
        rw [depth_divide base, quickSort_divide base]
        rw [← reached, ← sortedOn_congr unmoved] at sorted
        generalize (divide A len longs).1 = i,
          (divide A len longs).2 = middle at reached unmoved sorted ⊢
        have part : A + (i - A) = i := by omega
        obtain ⟨leftDepth, leftCell⟩ := ih (i - A).toNat (by omega) A (i - A)
          middle (part.symm ▸ sorted.2) rfl
        rw [depth_base (by omega : len - (i - A) - 1 ≤ 1), leftDepth,
          quickSort_base (by omega : len - (i - A) - 1 ≤ 1), leftCell, unmoved]
        exact ⟨by omega, rfl⟩

/-- The worst case: a call accesses memory at most `worst len` times and nests
at most `len` calls; the first bound is met by the sorted arrays and by no
others, and on them the second is met as well, although nothing moves. -/
theorem quickSort_worst (cell : Int → BitVec 64) (A len : Int) :
    (quickSort A len ⟨cell, []⟩).accessed.length ≤ worst len.toNat ∧
      depth A len ⟨cell, []⟩ ≤ max 1 len.toNat ∧
      ((quickSort A len ⟨cell, []⟩).accessed.length = worst len.toNat ↔
        SortedOn ⟨cell, []⟩ A (A + len)) ∧
      (SortedOn ⟨cell, []⟩ A (A + len) →
        depth A len ⟨cell, []⟩ = max 1 len.toNat ∧
          (quickSort A len ⟨cell, []⟩).cell = cell) := by
  obtain ⟨bound, attained⟩ := quickSort_accessed A len ⟨cell, []⟩
  simp only [List.length_nil, Nat.zero_add] at bound attained
  exact ⟨bound, depth_le A len ⟨cell, []⟩, attained,
    sorted_depth A len ⟨cell, []⟩⟩

end SystemsLabs.QuickSort
