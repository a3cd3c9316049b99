import SystemsLabs.Library.Paging
import Mathlib.Data.Nat.ModEq
import Mathlib.Data.Int.CardIntervalMod

/-!
# Walks over a matrix in blocks

The blocks that are used by a walk over an array, and by a walk over the columns
of a matrix whose rows take `stride` blocks each, in a store that keeps a few
blocks for every residue of the block number.  Along the array each block is
loaded once.  Down the columns it depends on how many rows meet in one class:
`crowd`.

Traces are written newest first, like the histories of `Paging`.
-/

namespace SystemsLabs.MatrixTrace

open MoveToFront Paging

/-- The blocks of the first `count` elements of an array. -/
def arrayTrace (blockOf : Nat → Nat) (count : Nat) : List Nat :=
  ((List.range count).map blockOf).reverse

theorem arrayTrace_succ (blockOf : Nat → Nat) (count : Nat) :
    arrayTrace blockOf (count + 1) = blockOf count :: arrayTrace blockOf count := by
  rw [arrayTrace, List.range_succ, List.map_append, List.reverse_append]
  rfl

theorem mem_arrayTrace {blockOf : Nat → Nat} {count block : Nat} :
    block ∈ arrayTrace blockOf count ↔
      ∃ place, place < count ∧ blockOf place = block := by
  simp [arrayTrace]

/-- Along an array every block is loaded once, in any store. -/
theorem classMisses_arrayTrace {κ : Type*} [DecidableEq κ] {ways : Nat}
    (positive : 0 < ways) (classOf : Nat → κ) {blockOf : Nat → Nat}
    (rises : ∀ place, blockOf place ≤ blockOf (place + 1))
    (slowly : ∀ place, blockOf (place + 1) ≤ blockOf place + 1)
    (count : Nat) :
    classMisses ways classOf (arrayTrace blockOf (count + 1)) =
      blockOf count - blockOf 0 + 1 := by
  have monotone : Monotone blockOf := monotone_nat_of_le_succ rises
  induction count with
  | zero =>
      have stored := @not_stored_of_new _ _ _ _ ways classOf [] (blockOf 0)
        List.not_mem_nil
      rw [arrayTrace_succ, classMisses]
      change classMisses ways classOf [] +
        (if Stored ways classOf [] (blockOf 0) then 0 else 1) = _
      rw [if_neg stored, classMisses, Nat.sub_self]
  | succ count ih =>
      have first := monotone (Nat.zero_le count)
      rw [arrayTrace_succ, classMisses, ih]
      rcases Nat.lt_or_eq_of_le (rises count) with new | same
      · have unused : blockOf (count + 1) ∉
            arrayTrace blockOf (count + 1) := by
          intro member
          obtain ⟨place, before, equal⟩ := mem_arrayTrace.mp member
          have earlier := monotone (Nat.le_of_lt_succ before)
          omega
        have next := slowly count
        rw [if_neg (not_stored_of_new unused)]
        omega
      · have kept : Stored ways classOf (arrayTrace blockOf (count + 1))
            (blockOf (count + 1)) := by
          rw [arrayTrace_succ, ← same]
          have front := @stored_iff _ _ _ _ ways classOf (blockOf count) []
            (arrayTrace blockOf count) List.not_mem_nil
          exact front.mpr positive
        rw [if_pos kept]
        omega

/-- The rows that meet in the class of a row. -/
def crowd (rows stride sets row : Nat) : Nat :=
  ((Finset.range rows).filter fun other =>
    other * stride ≡ row * stride [MOD sets]).card

section Crowd

variable {rows stride sets row : Nat}

/-- Rows meet when their numbers agree modulo `sets / gcd sets stride`. -/
theorem crowd_eq (positive : 0 < sets) :
    crowd rows stride sets row =
      Nat.count (· ≡ row [MOD sets / sets.gcd stride]) rows := by
  rw [crowd, Nat.count_eq_card_filter_range]
  congr 1
  apply Finset.filter_congr
  intro other _
  constructor
  · exact fun meets => meets.cancel_right_div_gcd positive
  · intro meets
    have scaled := Nat.ModEq.mul_right' stride meets
    have divides : sets ∣ sets / sets.gcd stride * stride := by
      have split := Nat.div_mul_cancel (Nat.gcd_dvd_left sets stride)
      conv_lhs => rw [← split]
      exact Nat.mul_dvd_mul_left _ (Nat.gcd_dvd_right sets stride)
    exact scaled.of_dvd divides

theorem period_pos (positive : 0 < sets) : 0 < sets / sets.gcd stride :=
  Nat.div_pos (Nat.gcd_le_left stride positive)
    (Nat.gcd_pos_of_pos_left stride positive)

theorem lt_crowd {ways : Nat} (positive : 0 < sets)
    (many : (ways + 1) * (sets / sets.gcd stride) ≤ rows) :
    ways < crowd rows stride sets row := by
  have period := @period_pos stride sets positive
  have whole := (Nat.le_div_iff_mul_le period).mpr many
  rw [crowd_eq positive, Nat.count_modEq_card _ period]
  omega

theorem crowd_le {ways : Nat} (positive : 0 < sets)
    (few : rows ≤ ways * (sets / sets.gcd stride)) :
    crowd rows stride sets row ≤ ways := by
  have period := @period_pos stride sets positive
  rw [crowd_eq positive, Nat.count_modEq_card _ period]
  generalize sets / sets.gcd stride = size at *
  have split := Nat.div_add_mod rows size
  split
  · by_contra more
    have full : ways * size ≤ size * (rows / size) := by
      rw [Nat.mul_comm]
      exact Nat.mul_le_mul_left size (by omega)
    omega
  · by_contra more
    have full : (ways + 1) * size ≤ size * (rows / size) := by
      rw [Nat.mul_comm]
      exact Nat.mul_le_mul_left size (by omega)
    rw [Nat.add_mul] at full
    omega

end Crowd

/-- The blocks of a column, and those of the first columns one after the other.
`column` is the block of each element of the first row. -/
def columnTrace (stride : Nat) (column : Nat → Nat) (index rows : Nat) :
    List Nat :=
  arrayTrace (fun row => row * stride + column index) rows

def columnsTrace (rows stride : Nat) (column : Nat → Nat) : Nat → List Nat
  | 0 => []
  | index + 1 =>
      columnTrace stride column index rows ++ columnsTrace rows stride column index

/-- Each row starts a block, and its elements follow each other. -/
structure Blocked (stride : Nat) (column : Nat → Nat) (cols : Nat) : Prop where
  rises : ∀ index, column index ≤ column (index + 1)
  inside : ∀ index, index < cols → column index < column 0 + stride

namespace Blocked

variable {rows stride sets cols : Nat} {column : Nat → Nat}

theorem monotone (blocked : Blocked stride column cols) : Monotone column :=
  monotone_nat_of_le_succ blocked.rises

theorem stride_pos (blocked : Blocked stride column cols)
    (nonempty : 0 < cols) : 0 < stride := by
  have first := blocked.inside 0 nonempty
  omega

theorem block_inj (blocked : Blocked stride column cols)
    {row other index place : Nat} (inside : index < cols)
    (placeInside : place < cols)
    (same : row * stride + column index = other * stride + column place) :
    row = other ∧ column index = column place := by
  have positive := blocked.stride_pos (Nat.zero_lt_of_lt inside)
  have low := blocked.monotone (Nat.zero_le index)
  have placeLow := blocked.monotone (Nat.zero_le place)
  have high := blocked.inside index inside
  have placeHigh := blocked.inside place placeInside
  have shifted : (column index - column 0) + stride * row =
      (column place - column 0) + stride * other := by
    rw [Nat.mul_comm stride row, Nat.mul_comm stride other]
    omega
  have rowSame : row = other := by
    have quotient := congrArg (· / stride) shifted
    simp only [Nat.add_mul_div_left _ _ positive] at quotient
    rw [Nat.div_eq_of_lt (by omega), Nat.div_eq_of_lt (by omega)] at quotient
    omega
  subst rowSame
  exact ⟨rfl, by omega⟩

end Blocked

theorem mem_columnTrace {stride index rows block : Nat}
    {column : Nat → Nat} :
    block ∈ columnTrace stride column index rows ↔
      ∃ row, row < rows ∧ row * stride + column index = block :=
  mem_arrayTrace

theorem mem_columnsTrace {rows stride count block : Nat}
    {column : Nat → Nat} :
    block ∈ columnsTrace rows stride column count ↔
      ∃ index row, index < count ∧ row < rows ∧
        row * stride + column index = block := by
  induction count with
  | zero => simp [columnsTrace]
  | succ count ih =>
      rw [columnsTrace, List.mem_append, mem_columnTrace, ih]
      constructor
      · rintro (⟨row, inside, same⟩ | ⟨index, row, before, inside, same⟩)
        · exact ⟨count, row, Nat.lt_succ_self count, inside, same⟩
        · exact ⟨index, row, Nat.lt_succ_of_lt before, inside, same⟩
      · rintro ⟨index, row, before, inside, same⟩
        rcases Nat.lt_succ_iff_lt_or_eq.mp before with earlier | rfl
        · exact .inr ⟨index, row, earlier, inside, same⟩
        · exact .inl ⟨row, inside, same⟩

theorem columnTrace_split {stride index row rows : Nat} {column : Nat → Nat}
    (inside : row < rows) :
    ∃ later, columnTrace stride column index rows =
        later ++ (row * stride + column index) ::
          columnTrace stride column index row ∧
      ∀ block, block ∈ later ↔ ∃ other, row < other ∧ other < rows ∧
        other * stride + column index = block := by
  induction rows with
  | zero => cases inside
  | succ rows ih =>
      rw [columnTrace, arrayTrace_succ]
      rcases Nat.lt_succ_iff_lt_or_eq.mp inside with earlier | rfl
      · obtain ⟨later, split, members⟩ := ih earlier
        rw [columnTrace] at split
        refine ⟨(rows * stride + column index) :: later, ?_, ?_⟩
        · rw [split, List.cons_append]
        · intro block
          rw [List.mem_cons, members]
          constructor
          · rintro (rfl | ⟨other, behind, before, same⟩)
            · exact ⟨rows, earlier, Nat.lt_succ_self rows, rfl⟩
            · exact ⟨other, behind, Nat.lt_succ_of_lt before, same⟩
          · rintro ⟨other, behind, before, same⟩
            rcases Nat.lt_succ_iff_lt_or_eq.mp before with within | rfl
            · exact .inr ⟨other, behind, within, same⟩
            · exact .inl same.symm
      · refine ⟨[], rfl, ?_⟩
        intro block
        constructor
        · intro member
          cases member
        · rintro ⟨other, behind, before, _⟩
          omega

section Columns

variable {ways rows stride sets cols : Nat} {column : Nat → Nat}

theorem card_others {newer : List Nat} {row shift : Nat}
    (positive : 0 < stride) (inside : row < rows)
    (members : ∀ block, block ∈ newer ↔ ∃ other, other ≠ row ∧
      other < rows ∧ other * stride + shift = block) :
    (newer.filter fun block =>
        block % sets = (row * stride + shift) % sets).toFinset.card + 1 =
      crowd rows stride sets row := by
  have others : (newer.filter fun block =>
      block % sets = (row * stride + shift) % sets).toFinset =
        (((Finset.range rows).filter fun other =>
          other * stride ≡ row * stride [MOD sets]).erase row).image
            fun other => other * stride + shift := by
    ext block
    simp only [List.mem_toFinset, List.mem_filter, members, decide_eq_true_eq,
      Finset.mem_image, Finset.mem_erase, Finset.mem_filter, Finset.mem_range]
    constructor
    · rintro ⟨⟨other, different, before, rfl⟩, meets⟩
      exact ⟨other, ⟨different, before,
        Nat.ModEq.add_right_cancel' shift meets⟩, rfl⟩
    · rintro ⟨other, ⟨different, before, meets⟩, rfl⟩
      exact ⟨⟨other, different, before, rfl⟩, meets.add_right shift⟩
  have injective : Function.Injective fun other => other * stride + shift := by
    intro left right same
    exact Nat.eq_of_mul_eq_mul_right positive (Nat.add_right_cancel same)
  have here : row ∈ (Finset.range rows).filter fun other =>
      other * stride ≡ row * stride [MOD sets] :=
    Finset.mem_filter.mpr ⟨Finset.mem_range.mpr inside, Nat.ModEq.refl _⟩
  rw [others, Finset.card_image_of_injective _ injective, crowd,
    Finset.card_erase_add_one here]

/-- Down a column a block is still stored if the column before used it too and
its class is not crowded. -/
theorem stored_column_iff (blocked : Blocked stride column cols)
    {row index : Nat} (inside : row < rows) (within : index < cols) :
    Stored ways (· % sets)
        (columnTrace stride column index row ++
          columnsTrace rows stride column index)
        (row * stride + column index) ↔
      0 < index ∧ column (index - 1) = column index ∧
        crowd rows stride sets row ≤ ways := by
  have positive := blocked.stride_pos (Nat.zero_lt_of_lt within)
  have notAbove : row * stride + column index ∉
      columnTrace stride column index row := by
    intro member
    obtain ⟨other, before, same⟩ := mem_columnTrace.mp member
    have equal := (blocked.block_inj within within same).1
    omega
  cases index with
  | zero =>
      apply iff_of_false
      · apply not_stored_of_new
        rw [columnsTrace, List.append_nil]
        exact notAbove
      · exact fun both => Nat.lt_irrefl 0 both.1
  | succ index =>
      have before : index < cols := Nat.lt_of_succ_lt within
      rw [Nat.add_sub_cancel]
      by_cases same : column index = column (index + 1)
      · obtain ⟨later, split, members⟩ :=
          @columnTrace_split stride index row rows column inside
        rw [same] at split
        simp only [same] at members
        have newerMembers : ∀ block,
            block ∈ columnTrace stride column (index + 1) row ++ later ↔
              ∃ other, other ≠ row ∧ other < rows ∧
                other * stride + column (index + 1) = block := by
          intro block
          rw [List.mem_append, mem_columnTrace, members]
          constructor
          · rintro (⟨other, above, rfl⟩ | ⟨other, below, last, rfl⟩)
            · exact ⟨other, above.ne, above.trans inside, rfl⟩
            · exact ⟨other, below.ne', last, rfl⟩
          · rintro ⟨other, different, last, rfl⟩
            rcases Nat.lt_or_gt_of_ne different with above | below
            · exact .inl ⟨other, above, rfl⟩
            · exact .inr ⟨other, below, last, rfl⟩
        have unused : row * stride + column (index + 1) ∉
            columnTrace stride column (index + 1) row ++ later := by
          intro member
          obtain ⟨other, different, _, equal⟩ := (newerMembers _).mp member
          exact different (blocked.block_inj within within equal).1
        have whole : columnTrace stride column (index + 1) row ++
            columnsTrace rows stride column (index + 1) =
              (columnTrace stride column (index + 1) row ++ later) ++
                (row * stride + column (index + 1)) ::
                  (columnTrace stride column index row ++
                    columnsTrace rows stride column index) := by
          rw [columnsTrace, split]
          simp only [List.append_assoc, List.cons_append]
        have others := @card_others rows stride sets _ row
          (column (index + 1)) positive inside newerMembers
        rw [whole, stored_iff unused]
        constructor
        · intro few
          exact ⟨Nat.succ_pos index, same, by omega⟩
        · rintro ⟨_, _, few⟩
          omega
      · apply iff_of_false
        · apply not_stored_of_new
          intro member
          rcases List.mem_append.mp member with above | earlier
          · exact notAbove above
          · obtain ⟨place, other, early, _, equal⟩ :=
              mem_columnsTrace.mp earlier
            have columns := (blocked.block_inj within
              (Nat.lt_of_lt_of_le early within.le) equal.symm).2
            have low := blocked.monotone (Nat.le_of_lt_succ early)
            have high := blocked.rises index
            omega
        · exact fun both => same both.2.1

/-- How often the walk down the first columns loads a block. -/
def columnLoads (ways rows stride sets : Nat) (column : Nat → Nat)
    (count : Nat) : Nat :=
  ∑ index ∈ Finset.range count, ∑ row ∈ Finset.range rows,
    if 0 < index ∧ column (index - 1) = column index ∧
      crowd rows stride sets row ≤ ways then 0 else 1

theorem classMisses_columnsTrace (blocked : Blocked stride column cols) :
    classMisses ways (· % sets) (columnsTrace rows stride column cols) =
      columnLoads ways rows stride sets column cols := by
  have partOfColumn : ∀ count, count < cols → ∀ part, part ≤ rows →
      classMisses ways (· % sets) (columnTrace stride column count part ++
          columnsTrace rows stride column count) =
        (∑ row ∈ Finset.range part,
          if 0 < count ∧ column (count - 1) = column count ∧
            crowd rows stride sets row ≤ ways then 0 else 1) +
          classMisses ways (· % sets)
            (columnsTrace rows stride column count) := by
    intro count within part
    induction part with
    | zero =>
        intro _
        rw [Finset.sum_range_zero, Nat.zero_add]
        rfl
    | succ part ih =>
        intro inside
        have stored := @stored_column_iff ways rows stride sets cols column
          blocked part count inside within
        rw [columnTrace, arrayTrace_succ, ← columnTrace, List.cons_append,
          classMisses, ih (Nat.le_of_succ_le inside), Finset.sum_range_succ]
        simp only [stored]
        omega
  have wholeColumns : ∀ count, count ≤ cols →
      classMisses ways (· % sets) (columnsTrace rows stride column count) =
        columnLoads ways rows stride sets column count := by
    intro count
    induction count with
    | zero => exact fun _ => rfl
    | succ count ih =>
        intro within
        rw [columnsTrace, partOfColumn count within rows (Nat.le_refl rows),
          ih (Nat.le_of_succ_le within), columnLoads, columnLoads,
          Finset.sum_range_succ, Nat.add_comm]
  exact wholeColumns cols (Nat.le_refl cols)

/-- When every class is crowded, every access loads a block. -/
theorem columnLoads_crowded
    (crowded : ∀ row, row < rows → ways < crowd rows stride sets row)
    (count : Nat) :
    columnLoads ways rows stride sets column count = rows * count := by
  have each : ∀ index ∈ Finset.range count,
      (∑ row ∈ Finset.range rows,
        if 0 < index ∧ column (index - 1) = column index ∧
          crowd rows stride sets row ≤ ways then 0 else 1) = rows := by
    intro index _
    have ones : ∀ row ∈ Finset.range rows,
        (if 0 < index ∧ column (index - 1) = column index ∧
          crowd rows stride sets row ≤ ways then 0 else 1) = 1 := by
      intro row member
      have many := crowded row (Finset.mem_range.mp member)
      rw [if_neg]
      rintro ⟨_, _, few⟩
      omega
    rw [Finset.sum_const_nat ones, Finset.card_range, Nat.mul_one]
  rw [columnLoads, Finset.sum_const_nat each, Finset.card_range, Nat.mul_comm]

theorem columnLoads_sparse (rises : ∀ index, column index ≤ column (index + 1))
    (slowly : ∀ index, column (index + 1) ≤ column index + 1)
    (sparse : ∀ row, row < rows → crowd rows stride sets row ≤ ways)
    (count : Nat) :
    columnLoads ways rows stride sets column (count + 1) =
      rows * (column count - column 0 + 1) := by
  have each : ∀ index,
      (∑ row ∈ Finset.range rows,
        if 0 < index ∧ column (index - 1) = column index ∧
          crowd rows stride sets row ≤ ways then 0 else 1) =
        rows * (if 0 < index ∧ column (index - 1) = column index then 0
          else 1) := by
    intro index
    have same : ∀ row ∈ Finset.range rows,
        (if 0 < index ∧ column (index - 1) = column index ∧
          crowd rows stride sets row ≤ ways then 0 else 1) =
        if 0 < index ∧ column (index - 1) = column index then 0 else 1 := by
      intro row member
      have few := sparse row (Finset.mem_range.mp member)
      simp only [few, and_true]
    rw [Finset.sum_const_nat same, Finset.card_range]
  have monotone : Monotone column := monotone_nat_of_le_succ rises
  induction count with
  | zero => simp [columnLoads, each]
  | succ count ih =>
      have low := monotone (Nat.zero_le count)
      rw [columnLoads, Finset.sum_range_succ, ← columnLoads, ih, each,
        Nat.add_sub_cancel, ← Nat.mul_add]
      congr 1
      rcases Nat.lt_or_eq_of_le (rises count) with new | same
      · have next := slowly count
        rw [if_neg (fun both => new.ne both.2)]
        omega
      · rw [if_pos ⟨Nat.succ_pos count, same⟩]
        omega

end Columns

/-- The corners of a square of two rows and two columns. -/
def corners : List (Nat × Nat) := [(0, 0), (1, 0), (0, 1), (1, 1)]

/-- The blocks of a square, its corners visited in the given order. -/
def squareTrace (order : List (Nat × Nat)) (stride : Nat)
    (column : Nat → Nat) (index row : Nat) : List Nat :=
  (order.map fun corner =>
    (row + corner.1) * stride + column (index + corner.2)).reverse

/-- The squares of two columns, from the first row on. -/
def squareColumn (order : List (Nat × Nat)) (stride : Nat)
    (column : Nat → Nat) (index : Nat) : Nat → List Nat
  | 0 => []
  | pairs + 1 =>
      squareTrace order stride column index (2 * pairs) ++
        squareColumn order stride column index pairs

def squaresTrace (order : List (Nat × Nat)) (stride : Nat)
    (column : Nat → Nat) (rowPairs : Nat) : Nat → List Nat
  | 0 => []
  | pairs + 1 =>
      squareColumn order stride column (2 * pairs) rowPairs ++
        squaresTrace order stride column rowPairs pairs

section Squares

variable {order : List (Nat × Nat)} {stride sets : Nat} {column : Nat → Nat}

theorem filter_squareTrace (permuted : order.Perm corners) {index row : Nat}
    (paired : column (index + 1) = column index) (apart : ¬sets ∣ stride)
    (here : Nat) :
    (squareTrace order stride column index row).filter
        (fun block => block % sets = here) =
      doubled ([(row + 1) * stride + column index,
        row * stride + column index].filter fun block =>
          block % sets = here) := by
  let block : Nat → Nat := fun side => (row + side) * stride + column index
  let chosen : Nat → Bool := fun side => decide (block side % sets = here)
  have blocks : order.map (fun corner =>
      (row + corner.1) * stride + column (index + corner.2)) =
        (order.map Prod.fst).map block := by
    rw [List.map_map]
    apply List.map_congr_left
    intro corner member
    have known := permuted.mem_iff.mp member
    simp only [corners, List.mem_cons, List.not_mem_nil, or_false] at known
    rcases known with rfl | rfl | rfl | rfl
    · rfl
    · rfl
    · exact congrArg (_ + ·) paired
    · exact congrArg (_ + ·) paired
  have sides : ((order.map Prod.fst).filter chosen).Perm
      ([0, 1, 0, 1].filter chosen) :=
    (permuted.map Prod.fst).filter chosen
  have different : ¬(chosen 0 = true ∧ chosen 1 = true) := by
    rintro ⟨upper, lower⟩
    have meets : (row + 1) * stride + column index ≡
        row * stride + column index [MOD sets] :=
      (of_decide_eq_true lower).trans (of_decide_eq_true upper).symm
    rw [Nat.succ_mul, Nat.add_right_comm] at meets
    have zero := (Nat.ModEq.add_left_cancel' _
      (meets.trans (Nat.ModEq.refl (_ + 0))))
    exact apart ((Nat.modEq_zero_iff_dvd).mp zero)
  have traced : (squareTrace order stride column index row).filter
      (fun block => decide (block % sets = here)) =
        (((order.map Prod.fst).filter chosen).map block).reverse := by
    rw [squareTrace, blocks, List.filter_reverse, List.filter_map]
    rfl
  have first : decide ((row * stride + column index) % sets = here) =
      chosen 0 := rfl
  have second : decide (((row + 1) * stride + column index) % sets = here) =
      chosen 1 := rfl
  rw [traced]
  simp only [List.filter_cons, List.filter_nil, first, second]
  cases upper : chosen 0 with
  | false =>
      cases lower : chosen 1 with
      | false =>
          simp only [List.filter_cons, List.filter_nil, upper, lower] at sides
          rw [sides.eq_nil]
          rfl
      | true =>
          simp only [List.filter_cons, List.filter_nil, upper, lower] at sides
          have only := List.perm_replicate.mp
            (show List.Perm _ (List.replicate 2 1) from sides)
          rw [only]
          rfl
  | true =>
      cases lower : chosen 1 with
      | false =>
          simp only [List.filter_cons, List.filter_nil, upper, lower] at sides
          have only := List.perm_replicate.mp
            (show List.Perm _ (List.replicate 2 0) from sides)
          rw [only]
          simp [block]
      | true => exact (different ⟨upper, lower⟩).elim

theorem filter_squaresTrace (permuted : order.Perm corners)
    (paired : ∀ index, column (2 * index + 1) = column (2 * index))
    (apart : ¬sets ∣ stride) (rowPairs colPairs here : Nat) :
    (squaresTrace order stride column rowPairs colPairs).filter
        (fun block => block % sets = here) =
      doubled ((columnsTrace (2 * rowPairs) stride
        (fun index => column (2 * index)) colPairs).filter fun block =>
          block % sets = here) := by
  have inColumn : ∀ index pairs,
      (squareColumn order stride column (2 * index) pairs).filter
          (fun block => decide (block % sets = here)) =
        doubled ((columnTrace stride (fun index => column (2 * index)) index
          (2 * pairs)).filter fun block => block % sets = here) := by
    intro index pairs
    induction pairs with
    | zero => rfl
    | succ pairs ih =>
        have step : columnTrace stride (fun index => column (2 * index)) index
            (2 * (pairs + 1)) =
              [(2 * pairs + 1) * stride + column (2 * index),
                2 * pairs * stride + column (2 * index)] ++
                columnTrace stride (fun index => column (2 * index)) index
                  (2 * pairs) := by
          rw [Nat.mul_succ, columnTrace, arrayTrace_succ, arrayTrace_succ]
          rfl
        rw [squareColumn, step, List.filter_append, List.filter_append,
          doubled_append, ih,
          filter_squareTrace permuted (paired index) apart]
  induction colPairs with
  | zero => rfl
  | succ pairs ih =>
      rw [squaresTrace, columnsTrace, List.filter_append, List.filter_append,
        doubled_append, ih, inColumn]

/-- Visiting the squares costs what a walk down half of the columns costs. -/
theorem classMisses_squaresTrace {ways : Nat} (positive : 0 < ways)
    (nonempty : 0 < sets) (permuted : order.Perm corners)
    (paired : ∀ index, column (2 * index + 1) = column (2 * index))
    (apart : ¬sets ∣ stride) (rowPairs colPairs : Nat) :
    classMisses ways (· % sets)
        (squaresTrace order stride column rowPairs colPairs) =
      classMisses ways (· % sets) (columnsTrace (2 * rowPairs) stride
        (fun index => column (2 * index)) colPairs) := by
  have inRange : ∀ block : Nat, block % sets ∈ Finset.range sets :=
    fun block => Finset.mem_range.mpr (Nat.mod_lt block nonempty)
  rw [classMisses_eq_sum fun block _ => inRange block,
    classMisses_eq_sum fun block _ => inRange block]
  apply Finset.sum_congr rfl
  intro here _
  rw [filter_squaresTrace permuted paired apart, misses_doubled positive]

end Squares

end SystemsLabs.MatrixTrace
