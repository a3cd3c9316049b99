import Mathlib.Algebra.BigOperators.Group.Finset.Basic
import Mathlib.Data.List.ProdSigma

/-!
# Loops over the cells of a rectangle

Two nested counting loops whose body changes one cell at a time.  When the new
value of a cell depends on no other cell that changes, the order of the loops
does not matter: `LocalStep.visit` gives the value of every cell afterwards, and
`LocalStep.total` what a sum over the visited cells has become.
-/

namespace SystemsLabs.CellLoops

/-- The values of `index` in `for (index = first; index < last; index++)`. -/
def interval (first last : Int) : List Int :=
  (List.range (last - first).toNat).map fun rounds : Nat => first + (rounds : Int)

def loop {σ : Type*} (first last : Int) (body : Int → σ → σ) (state : σ) : σ :=
  (interval first last).foldl (fun state index => body index state) state

/-- One step for every cell of a list. -/
def visit {σ κ : Type*} (cells : List κ) (step : κ → σ → σ) (state : σ) : σ :=
  cells.foldl (fun state cell => step cell state) state

@[simp] theorem mem_interval {first last index : Int} :
    index ∈ interval first last ↔ first ≤ index ∧ index < last := by
  simp only [interval, List.mem_map, List.mem_range]
  constructor
  · rintro ⟨rounds, inside, rfl⟩
    omega
  · rintro ⟨low, high⟩
    exact ⟨(index - first).toNat, by omega, by omega⟩

theorem interval_empty {first last : Int} (le : last ≤ first) :
    interval first last = [] := by
  rw [interval, Int.toNat_of_nonpos (Int.sub_nonpos_of_le le)]
  rfl

theorem interval_snoc {first last : Int} (le : first ≤ last) :
    interval first (last + 1) = interval first last ++ [last] := by
  have rounds : (last + 1 - first).toNat = (last - first).toNat + 1 := by omega
  have behind : first + ((last - first).toNat : Int) = last := by omega
  rw [interval, rounds, List.range_succ, List.map_append, List.map_singleton,
    behind, interval]

theorem interval_cons {first last : Int} (lt : first < last) :
    interval first last = first :: interval (first + 1) last := by
  have rounds : (last - first).toNat = (last - (first + 1)).toNat + 1 := by omega
  rw [interval, rounds, List.range_succ_eq_map, List.map_cons, List.map_map,
    interval]
  congr 1
  · exact Int.add_zero first
  · apply List.map_congr_left
    intro index _
    simp only [Function.comp_apply]
    omega

theorem loop_snoc {σ : Type*} {first last : Int} (le : first ≤ last)
    (body : Int → σ → σ) (state : σ) :
    loop first (last + 1) body state = body last (loop first last body state) := by
  rw [loop, interval_snoc le, List.foldl_append]
  rfl

theorem visit_fixed {σ κ : Type*} {cells : List κ} {step : κ → σ → σ}
    {state : σ} (fixed : ∀ cell ∈ cells, step cell state = state) :
    visit cells step state = state := by
  induction cells with
  | nil => rfl
  | cons first cells ih =>
      change visit cells step (step first state) = state
      rw [fixed first List.mem_cons_self]
      exact ih fun cell later => fixed cell (List.mem_cons_of_mem _ later)

theorem nodup_interval (first last : Int) : (interval first last).Nodup := by
  apply List.Nodup.map _ List.nodup_range
  intro left right same
  exact Int.ofNat.inj (Int.add_left_cancel same)

/-- A list of cells without repetition, as a set. -/
structure Sweeps {κ : Type*} (cells : List κ) (region : Finset κ) : Prop where
  nodup : cells.Nodup
  mem_iff : ∀ cell, cell ∈ cells ↔ cell ∈ region

section Orders

variable {σ : Type*} (step : Int × Int → σ → σ) (state : σ)
  (firstRow lastRow firstCol lastCol : Int)

def rowByRow : List (Int × Int) :=
  interval firstRow lastRow ×ˢ interval firstCol lastCol

def columnByColumn : List (Int × Int) :=
  (rowByRow firstCol lastCol firstRow lastRow).map Prod.swap

/-- The cells of a rectangle. -/
def rectangle : Finset (Int × Int) :=
  (rowByRow firstRow lastRow firstCol lastCol).toFinset

variable {firstRow lastRow firstCol lastCol} in
@[simp] theorem mem_rectangle {cell : Int × Int} :
    cell ∈ rectangle firstRow lastRow firstCol lastCol ↔
      (firstRow ≤ cell.1 ∧ cell.1 < lastRow) ∧
        firstCol ≤ cell.2 ∧ cell.2 < lastCol := by
  obtain ⟨row, col⟩ := cell
  rw [rectangle, List.mem_toFinset]
  exact List.mem_product.trans (and_congr mem_interval mem_interval)

theorem loop_rows :
    loop firstRow lastRow (fun row =>
        loop firstCol lastCol fun col => step (row, col)) state =
      visit (rowByRow firstRow lastRow firstCol lastCol) step state := by
  have product : rowByRow firstRow lastRow firstCol lastCol =
      (interval firstRow lastRow).flatMap fun row =>
        (interval firstCol lastCol).map (Prod.mk row) := rfl
  rw [visit, product, List.foldl_flatMap]
  simp only [List.foldl_map]
  rfl

theorem loop_columns :
    loop firstCol lastCol (fun col =>
        loop firstRow lastRow fun row => step (row, col)) state =
      visit (columnByColumn firstRow lastRow firstCol lastCol) step state := by
  rw [visit, columnByColumn, List.foldl_map]
  exact loop_rows (fun cell => step cell.swap) state firstCol lastCol
    firstRow lastRow

theorem rowByRow_sweeps :
    Sweeps (rowByRow firstRow lastRow firstCol lastCol)
      (rectangle firstRow lastRow firstCol lastCol) := by
  constructor
  · exact (nodup_interval _ _).product (nodup_interval _ _)
  · intro cell
    exact List.mem_toFinset.symm

theorem columnByColumn_sweeps :
    Sweeps (columnByColumn firstRow lastRow firstCol lastCol)
      (rectangle firstRow lastRow firstCol lastCol) := by
  constructor
  · exact (rowByRow_sweeps firstCol lastCol firstRow lastRow).nodup.map
      Prod.swap_injective
  · rintro ⟨row, col⟩
    simp [columnByColumn, rowByRow, List.mem_product, and_comm]

end Orders

theorem interval_natCast (count : Nat) :
    interval 0 count = (List.range count).map fun index : Nat => (index : Int) := by
  rw [interval, Int.sub_zero, Int.toNat_natCast]
  simp only [Int.zero_add]

theorem length_rowByRow (rows cols : Nat) :
    (rowByRow 0 rows 0 cols).length = rows * cols := by
  rw [rowByRow, List.length_product, interval_natCast, interval_natCast,
    List.length_map, List.length_map, List.length_range, List.length_range]

theorem rowByRow_succ (rows cols : Nat) :
    rowByRow 0 (rows + 1 : Nat) 0 cols =
      rowByRow 0 rows 0 cols ++ (interval 0 cols).map (Prod.mk (rows : Int)) := by
  have snoc : interval 0 (rows + 1 : Nat) = interval 0 rows ++ [(rows : Int)] :=
    interval_snoc (Int.natCast_nonneg rows)
  rw [rowByRow, snoc]
  change ((interval 0 rows ++ [(rows : Int)]).flatMap fun row =>
    (interval 0 cols).map (Prod.mk row)) = _
  rw [List.flatMap_append, List.flatMap_singleton]
  rfl

theorem cell_number_lt {rows cols row col : Nat} (rowInside : row < rows)
    (colInside : col < cols) : row * cols + col < rows * cols :=
  calc
    row * cols + col < row * cols + cols := Nat.add_lt_add_left colInside _
    _ = (row + 1) * cols := (Nat.succ_mul row cols).symm
    _ ≤ rows * cols := Nat.mul_le_mul_right cols rowInside

theorem rowByRow_getElem? {rows cols row col : Nat} (rowInside : row < rows)
    (colInside : col < cols) :
    (rowByRow 0 rows 0 cols)[row * cols + col]? =
      some ((row : Int), (col : Int)) := by
  induction rows with
  | zero => exact (Nat.not_lt_zero row rowInside).elim
  | succ rows ih =>
      rw [rowByRow_succ]
      rcases Nat.lt_succ_iff_lt_or_eq.mp rowInside with earlier | rfl
      · have within : row * cols + col < (rowByRow 0 rows 0 cols).length := by
          rw [length_rowByRow]
          exact cell_number_lt earlier colInside
        rw [List.getElem?_append_left within]
        exact ih earlier
      · have behind : (rowByRow 0 row 0 cols).length ≤ row * cols + col := by
          rw [length_rowByRow]
          exact Nat.le_add_right _ _
        rw [List.getElem?_append_right behind, length_rowByRow,
          Nat.add_sub_cancel_left, interval_natCast, List.map_map,
          List.getElem?_map, List.getElem?_range colInside]
        rfl

/-- Every step of a region changes the view of its own cell only, as long as
`keeps` holds of the state. -/
structure LocalStep {σ κ α : Type*} (region : Finset κ) (keeps : σ → Prop)
    (view : σ → κ → α) (step : κ → σ → σ) (change : κ → α → α) : Prop where
  kept : ∀ {state : σ} {cell : κ}, cell ∈ region →
    keeps state → keeps (step cell state)
  here : ∀ {state : σ} {cell : κ}, cell ∈ region →
    keeps state → view (step cell state) cell = change cell (view state cell)
  elsewhere : ∀ {state : σ} {cell other : κ}, cell ∈ region →
    keeps state → other ≠ cell →
      view (step cell state) other = view state other

namespace LocalStep

variable {σ κ α β : Type*} [DecidableEq κ] [AddCommMonoid β]
  {region : Finset κ} {keeps : σ → Prop} {view : σ → κ → α}
  {step : κ → σ → σ} {change : κ → α → α}

theorem visit_list (locally : LocalStep region keeps view step change)
    (total : σ → β) (worth : α → β)
    (counts : ∀ {state : σ} {cell : κ}, cell ∈ region → keeps state →
      total (step cell state) = total state + worth (view (step cell state) cell))
    {cells : List κ} (nodup : cells.Nodup)
    (inside : ∀ cell ∈ cells, cell ∈ region) {state : σ}
    (initial : keeps state) :
    keeps (visit cells step state) ∧
      (∀ cell, view (visit cells step state) cell =
        if cell ∈ cells then change cell (view state cell)
        else view state cell) ∧
      total (visit cells step state) = total state +
        (cells.map fun cell => worth (change cell (view state cell))).sum := by
  induction cells generalizing state with
  | nil =>
      refine ⟨initial, fun cell => ?_, ?_⟩
      · rw [if_neg List.not_mem_nil]
        rfl
      · rw [List.map_nil, List.sum_nil, add_zero]
        rfl
  | cons first cells ih =>
      obtain ⟨fresh, nodup⟩ := List.nodup_cons.mp nodup
      have member := inside first List.mem_cons_self
      obtain ⟨kept, viewed, counted⟩ := ih nodup
        (fun cell later => inside cell (List.mem_cons_of_mem _ later))
        (locally.kept member initial)
      refine ⟨kept, fun cell => ?_, ?_⟩
      · change view (visit cells step (step first state)) cell = _
        rw [viewed cell]
        by_cases same : cell = first
        · subst same
          rw [if_neg fresh, if_pos List.mem_cons_self,
            locally.here member initial]
        · rw [locally.elsewhere member initial same]
          simp only [List.mem_cons, same, false_or]
      · change total (visit cells step (step first state)) = _
        have others : (cells.map fun cell =>
            worth (change cell (view (step first state) cell))) =
              cells.map fun cell => worth (change cell (view state cell)) := by
          apply List.map_congr_left
          intro cell later
          rw [locally.elsewhere member initial]
          intro same
          exact fresh (same ▸ later)
        rw [counted, counts member initial, locally.here member initial,
          others, List.map_cons, List.sum_cons, add_assoc]

variable {cells : List κ} {state : σ}

/-- Every cell of the region is changed once. -/
theorem visit (locally : LocalStep region keeps view step change)
    (sweeps : Sweeps cells region) (initial : keeps state) :
    keeps (visit cells step state) ∧
      ∀ cell, view (visit cells step state) cell =
        if cell ∈ region then change cell (view state cell)
        else view state cell := by
  obtain ⟨kept, viewed, _⟩ := locally.visit_list (fun _ => (0 : Nat))
    (fun _ => 0) (fun _ _ => rfl) sweeps.nodup
    (fun cell => (sweeps.mem_iff cell).mp) initial
  exact ⟨kept, fun cell => by simp only [viewed, sweeps.mem_iff]⟩

/-- A total that every step increases by the worth of the new value. -/
theorem total (locally : LocalStep region keeps view step change)
    (sweeps : Sweeps cells region) (initial : keeps state)
    (total : σ → β) (worth : α → β)
    (counts : ∀ {state : σ} {cell : κ}, cell ∈ region → keeps state →
      total (step cell state) =
        total state + worth (view (step cell state) cell)) :
    total (CellLoops.visit cells step state) = total state +
      ∑ cell ∈ region, worth (change cell (view state cell)) := by
  obtain ⟨_, _, counted⟩ := locally.visit_list total worth counts
    sweeps.nodup (fun cell => (sweeps.mem_iff cell).mp) initial
  have region_eq : cells.toFinset = region := by
    ext cell
    rw [List.mem_toFinset, sweeps.mem_iff]
  rw [counted, ← region_eq, List.sum_toFinset _ sweeps.nodup]

end LocalStep

end SystemsLabs.CellLoops
