import SystemsLabs.Mask.Code
import Mathlib.Algebra.Order.BigOperators.Group.List
import Mathlib.Data.BitVec

/-!
# The masks agree

`Gathers` says which neighbours the passes of `baseMask` and `mask1` have added
to every cell, and `Collects` the same for the branches of `mask2` at one cell.
The three functions add the same nine contributions in different orders.
-/

namespace SystemsLabs.Mask

open CellLoops

/-- The cells of an image of `rows` rows and `cols` columns. -/
def cells (rows cols : Int) : Finset (Int × Int) :=
  rectangle 0 rows 0 cols

theorem mem_cells {rows cols : Int} {cell : Int × Int} :
    cell ∈ cells rows cols ↔
      (0 ≤ cell.1 ∧ cell.1 < rows) ∧ 0 ≤ cell.2 ∧ cell.2 < cols := by
  simp [cells]

/-- A cell and its neighbours, as distances from the cell. -/
def offsets : List (Int × Int) :=
  [(0, 0), (-1, -1), (-1, 0), (-1, 1), (0, -1), (0, 1), (1, -1), (1, 0),
    (1, 1)]

def offsetWeight (offset : Int × Int) : Int :=
  if offset = (0, 0) then 4
  else if offset.1 = 0 ∨ offset.2 = 0 then 2
  else 1

/-- The sum of the weighted values of the neighbours inside the image. -/
def weightedSum (image : Image) (rows cols : Int) (cell : Int × Int) : Int :=
  (offsets.map fun offset =>
    if cell + offset ∈ cells rows cols then
      offsetWeight offset * (image (cell + offset)).toInt
    else 0).sum

/-- The sum of the weights of the neighbours inside the image. -/
def weightSum (rows cols : Int) (cell : Int × Int) : Int :=
  (offsets.map fun offset =>
    if cell + offset ∈ cells rows cols then offsetWeight offset else 0).sum

/-- What a neighbour adds to the value and to the weight of a cell. -/
def contribution (image : Image) (rows cols : Int) (cell offset : Int × Int) :
    BitVec 64 × BitVec 64 :=
  if cell + offset ∈ cells rows cols then
    (BitVec.ofInt 64 (offsetWeight offset) * image (cell + offset),
      BitVec.ofInt 64 (offsetWeight offset))
  else 0

def gathered (image : Image) (rows cols : Int) (done : List (Int × Int))
    (cell : Int × Int) : BitVec 64 × BitVec 64 :=
  (done.map (contribution image rows cols cell)).sum

section Gathered

variable {image : Image} {rows cols : Int} {done : List (Int × Int)}
  {cell offset : Int × Int}

theorem gathered_concat :
    gathered image rows cols (done ++ [offset]) cell =
      gathered image rows cols done cell +
        contribution image rows cols cell offset := by
  simp [gathered]

theorem gathered_centre (inside : cell ∈ cells rows cols) :
    gathered image rows cols [(0, 0)] cell =
      (4 * image cell, 4) := by
  have same : cell + (0, 0) = cell := add_zero cell
  rw [gathered, List.map_singleton, List.sum_singleton, contribution, same,
    if_pos inside]
  rfl

theorem gathered_perm {others : List (Int × Int)} (perm : done.Perm others) :
    gathered image rows cols done cell =
      gathered image rows cols others cell :=
  (perm.map _).sum_eq

/-- The passes compute the two sums modulo `2 ^ 64`. -/
theorem gathered_offsets :
    gathered image rows cols offsets cell =
      (BitVec.ofInt 64 (weightedSum image rows cols cell),
        BitVec.ofInt 64 (weightSum rows cols cell)) := by
  rw [gathered, weightedSum, weightSum]
  induction offsets with
  | nil => rfl
  | cons offset rest ih =>
      rw [List.map_cons, List.sum_cons, ih, List.map_cons, List.sum_cons,
        List.map_cons, List.sum_cons, BitVec.ofInt_add, BitVec.ofInt_add,
        contribution]
      split
      · rw [BitVec.ofInt_mul, BitVec.ofInt_toInt]
        rfl
      · rfl

/-- The new value of a cell, from its neighbours in some order. -/
def quotient (image : Image) (rows cols : Int) (done : List (Int × Int))
    (cell : Int × Int) : BitVec 64 :=
  (gathered image rows cols done cell).1.sdiv
    (gathered image rows cols done cell).2

end Gathered

/-- The rows of the cells that have a neighbour `shift` rows below, and the
same for columns. -/
structure Shift (size shift first last : Int) (move : Int → Int) : Prop where
  move_eq : ∀ index, move index = index + shift
  first_eq : first = max 0 (-shift)
  last_eq : last = min size (size - shift)

namespace Shift

theorem before (size : Int) : Shift size (-1) 1 size (fun index => index - 1) :=
  ⟨fun _ => rfl, rfl, by omega⟩

theorem same (size : Int) : Shift size 0 0 size id :=
  ⟨fun index => (Int.add_zero index).symm, rfl, by omega⟩

theorem after (size : Int) :
    Shift size 1 0 (size - 1) (fun index => index + 1) :=
  ⟨fun _ => rfl, rfl, by omega⟩

end Shift

/-- The state of `baseMask` or `mask1` after the passes for some neighbours. -/
structure Gathers (oldImage newImage : Image) (rows cols : Int)
    (done : List (Int × Int)) (images : Images Image) : Prop where
  old : images.oldImage = oldImage
  check : images.check = 0
  inside : ∀ cell ∈ cells rows cols,
    (images.newImage cell, images.weight cell) =
      gathered oldImage rows cols done cell
  outside : ∀ cell ∉ cells rows cols, images.newImage cell = newImage cell

/-- The state after the last pass, for any neighbours that were added. -/
structure Divides (oldImage newImage : Image) (rows cols : Int)
    (done : List (Int × Int)) {ω : Type} (images : Images ω) : Prop where
  old : images.oldImage = oldImage
  inside : ∀ cell ∈ cells rows cols,
    images.newImage cell = quotient oldImage rows cols done cell
  outside : ∀ cell ∉ cells rows cols, images.newImage cell = newImage cell
  check : images.check = ∑ cell ∈ cells rows cols, images.newImage cell

/-- The value and the weight of a cell. -/
def Images.pixel (images : Images Image) (cell : Int × Int) :
    BitVec 64 × BitVec 64 :=
  (images.newImage cell, images.weight cell)

namespace Gathers

variable {oldImage newImage : Image} {rows cols : Int}
  {done : List (Int × Int)} {images : Images Image}
  {visited : List (Int × Int)}

theorem setCell_local (region : Finset (Int × Int)) :
    LocalStep region
      (fun images => images.oldImage = oldImage ∧ images.check = 0)
      Images.pixel Images.setCell
      (fun cell _ => (weightCentre * oldImage cell, weightCentre)) := by
  constructor
  · intro images cell _ keeps
    exact keeps
  · rintro images cell _ ⟨rfl, _⟩
    simp [Images.pixel, Images.setCell]
  · intro images cell other _ _ different
    simp [Images.pixel, Images.setCell, different]

theorem start (sweeps : Sweeps visited (cells rows cols))
    (old : images.oldImage = oldImage) (new : images.newImage = newImage)
    (check : images.check = 0) :
    Gathers oldImage newImage rows cols [(0, 0)]
      (visit visited Images.setCell images) := by
  obtain ⟨⟨keptOld, keptCheck⟩, pixels⟩ :=
    (setCell_local (cells rows cols)).visit sweeps ⟨old, check⟩
  refine ⟨keptOld, keptCheck, ?_, ?_⟩
  · intro cell inside
    have pixel := pixels cell
    rw [if_pos inside] at pixel
    exact pixel.trans (gathered_centre inside).symm
  · intro cell outside
    have pixel := pixels cell
    rw [if_neg outside] at pixel
    rw [← new]
    exact congrArg Prod.fst pixel

theorem addCell_local (region : Finset (Int × Int)) (weight : BitVec 64)
    (neighbour : Int × Int → Int × Int) :
    LocalStep region
      (fun images => images.oldImage = oldImage ∧ images.check = 0)
      Images.pixel (fun cell => Images.addCell weight cell (neighbour cell))
      (fun cell pixel =>
        pixel + (weight * oldImage (neighbour cell), weight)) := by
  constructor
  · intro images cell _ keeps
    exact keeps
  · rintro images cell _ ⟨rfl, _⟩
    simp [Images.pixel, Images.addCell]
  · intro images cell other _ _ different
    simp [Images.pixel, Images.addCell, different]

theorem add (gathers : Gathers oldImage newImage rows cols done images)
    {region : Finset (Int × Int)} (sweeps : Sweeps visited region)
    {neighbour : Int × Int → Int × Int} {offset : Int × Int}
    (shift : ∀ cell, neighbour cell = cell + offset) {weight : BitVec 64}
    (weighs : weight = BitVec.ofInt 64 (offsetWeight offset))
    (bounds : ∀ cell, cell ∈ region ↔
      cell ∈ cells rows cols ∧ cell + offset ∈ cells rows cols) :
    Gathers oldImage newImage rows cols (done ++ [offset])
      (visit visited (fun cell =>
        Images.addCell weight cell (neighbour cell)) images) := by
  obtain ⟨⟨keptOld, keptCheck⟩, pixels⟩ :=
    (addCell_local region weight neighbour).visit sweeps
      ⟨gathers.old, gathers.check⟩
  refine ⟨keptOld, keptCheck, ?_, ?_⟩
  · intro cell inside
    refine (pixels cell).trans ?_
    rw [gathered_concat, ← gathers.inside cell inside, contribution]
    by_cases neighbourInside : cell + offset ∈ cells rows cols
    · rw [if_pos ((bounds cell).mpr ⟨inside, neighbourInside⟩),
        if_pos neighbourInside, shift, weighs]
      rfl
    · have skipped : cell ∉ region :=
        fun member => neighbourInside ((bounds cell).mp member).2
      rw [if_neg skipped, if_neg neighbourInside, add_zero]
      rfl
  · intro cell outside
    have skipped : cell ∉ region :=
      fun member => outside ((bounds cell).mp member).1
    have pixel := pixels cell
    rw [if_neg skipped] at pixel
    rw [← gathers.outside cell outside]
    exact congrArg Prod.fst pixel

theorem divideCell_local (region : Finset (Int × Int)) :
    LocalStep region (fun images => images.oldImage = oldImage)
      Images.pixel Images.divideCell
      (fun _ pixel => (pixel.1.sdiv pixel.2, pixel.2)) := by
  constructor
  · intro images cell _ keeps
    exact keeps
  · intro images cell _ _
    simp [Images.pixel, Images.divideCell]
  · intro images cell other _ _ different
    simp [Images.pixel, Images.divideCell, different]

theorem divide (gathers : Gathers oldImage newImage rows cols done images)
    (sweeps : Sweeps visited (cells rows cols)) :
    Divides oldImage newImage rows cols done
      (visit visited Images.divideCell images) := by
  have locally := @divideCell_local oldImage (cells rows cols)
  obtain ⟨kept, pixels⟩ := locally.visit sweeps gathers.old
  have total := locally.total sweeps gathers.old Images.check Prod.fst
    (fun {images cell} _ _ => by simp [Images.pixel, Images.divideCell])
  have value : ∀ cell ∈ cells rows cols,
      (visit visited Images.divideCell images).newImage cell =
        (images.pixel cell).1.sdiv (images.pixel cell).2 := by
    intro cell inside
    have pixel := pixels cell
    rw [if_pos inside] at pixel
    exact congrArg Prod.fst pixel
  refine ⟨kept, ?_, ?_, ?_⟩
  · intro cell inside
    rw [value cell inside, quotient, ← gathers.inside cell inside]
    rfl
  · intro cell outside
    have pixel := pixels cell
    rw [if_neg outside] at pixel
    rw [← gathers.outside cell outside]
    exact congrArg Prod.fst pixel
  · rw [total, gathers.check, zero_add]
    exact Finset.sum_congr rfl fun cell inside => (value cell inside).symm

section Shifted

variable {firstRow lastRow firstCol lastCol down right : Int}
  {row col : Int → Int} {weight : BitVec 64}
  (gathers : Gathers oldImage newImage rows cols done images)
  (vertical : Shift rows down firstRow lastRow row)
  (horizontal : Shift cols right firstCol lastCol col)
  (weighs : weight = BitVec.ofInt 64 (offsetWeight (down, right)))
include gathers vertical horizontal weighs

theorem addRectangle
    (sweeps : Sweeps visited
      (rectangle firstRow lastRow firstCol lastCol)) :
    Gathers oldImage newImage rows cols (done ++ [(down, right)])
      (visit visited (fun cell =>
        Images.addCell weight cell (row cell.1, col cell.2)) images) := by
  apply gathers.add sweeps _ weighs
  · rintro ⟨r, c⟩
    have rowBounds := vertical.first_eq
    have rowEnds := vertical.last_eq
    have colBounds := horizontal.first_eq
    have colEnds := horizontal.last_eq
    simp only [mem_rectangle, mem_cells, Prod.mk_add_mk]
    omega
  · intro cell
    exact Prod.ext (vertical.move_eq cell.1) (horizontal.move_eq cell.2)

theorem addRows :
    Gathers oldImage newImage rows cols (done ++ [(down, right)])
      (loop firstRow lastRow (fun i => loop firstCol lastCol fun j =>
        Images.addCell weight (i, j) (row i, col j)) images) := by
  rw [loop_rows (fun cell =>
    Images.addCell weight cell (row cell.1, col cell.2))]
  exact gathers.addRectangle vertical horizontal weighs
    (rowByRow_sweeps _ _ _ _)

theorem addColumns :
    Gathers oldImage newImage rows cols (done ++ [(down, right)])
      (loop firstCol lastCol (fun i => loop firstRow lastRow fun j =>
        Images.addCell weight (j, i) (row j, col i)) images) := by
  rw [loop_columns (fun cell =>
    Images.addCell weight cell (row cell.1, col cell.2))]
  exact gathers.addRectangle vertical horizontal weighs
    (columnByColumn_sweeps _ _ _ _)

end Shifted

end Gathers

section Passes

variable (oldImage newImage : Image) (rows cols : Int)

theorem baseMask_divides :
    Divides oldImage newImage rows cols offsets
      (baseMask oldImage newImage rows cols) := by
  have centre : Gathers oldImage newImage rows cols [(0, 0)]
      (loop 0 cols (fun i => loop 0 rows fun j => Images.setCell (j, i))
        { oldImage := oldImage, newImage := newImage, weight := fun _ => 0,
          check := 0 }) := by
    rw [loop_columns Images.setCell]
    exact Gathers.start (columnByColumn_sweeps 0 rows 0 cols) rfl rfl rfl
  have topLeft := centre.addColumns (.before rows) (.before cols) rfl
  have above := topLeft.addColumns (.before rows) (.same cols) rfl
  have topRight := above.addColumns (.before rows) (.after cols) rfl
  have left := topRight.addColumns (.same rows) (.before cols) rfl
  have right := left.addColumns (.same rows) (.after cols) rfl
  have bottomLeft := right.addColumns (.after rows) (.before cols) rfl
  have below := bottomLeft.addColumns (.after rows) (.same cols) rfl
  have bottomRight := below.addColumns (.after rows) (.after cols) rfl
  have divided := bottomRight.divide (columnByColumn_sweeps 0 rows 0 cols)
  rw [← loop_columns Images.divideCell] at divided
  exact divided

theorem mask1_divides (weight : Image) :
    Divides oldImage newImage rows cols offsets
      (mask1 weight oldImage newImage rows cols) := by
  have centre : Gathers oldImage newImage rows cols [(0, 0)]
      (loop 0 rows (fun i => loop 0 cols fun j => Images.setCell (i, j))
        { oldImage := oldImage, newImage := newImage, weight := weight,
          check := 0 }) := by
    rw [loop_rows Images.setCell]
    exact Gathers.start (rowByRow_sweeps 0 rows 0 cols) rfl rfl rfl
  have topLeft := centre.addRows (.before rows) (.before cols) rfl
  have above := topLeft.addRows (.before rows) (.same cols) rfl
  have topRight := above.addRows (.before rows) (.after cols) rfl
  have left := topRight.addRows (.same rows) (.before cols) rfl
  have right := left.addRows (.same rows) (.after cols) rfl
  have bottomLeft := right.addRows (.after rows) (.before cols) rfl
  have below := bottomLeft.addRows (.after rows) (.same cols) rfl
  have bottomRight := below.addRows (.after rows) (.after cols) rfl
  have divided := bottomRight.divide (rowByRow_sweeps 0 rows 0 cols)
  rw [← loop_rows Images.divideCell] at divided
  exact divided

end Passes

/-- The state of `mask2` inside the body of its loops. -/
structure Collects (oldImage : Image) (rows cols : Int)
    (before : Images (BitVec 64)) (cell : Int × Int)
    (done : List (Int × Int)) (images : Images (BitVec 64)) : Prop where
  old : images.oldImage = oldImage
  check : images.check = before.check
  pixel : (images.newImage cell, images.weight) =
    gathered oldImage rows cols done cell
  others : ∀ other ≠ cell, images.newImage other = before.newImage other

namespace Collects

variable {oldImage : Image} {rows cols i j : Int}
  {before images : Images (BitVec 64)} {done : List (Int × Int)}

theorem start (inside : (i, j) ∈ cells rows cols)
    (old : before.oldImage = oldImage) :
    Collects oldImage rows cols before (i, j) [(0, 0)]
      { before with
        newImage := Function.update before.newImage (i, j)
          (4 * before.oldImage (i, j))
        weight := 4 } := by
  refine ⟨old, rfl, ?_, ?_⟩
  · rw [gathered_centre inside, ← old]
    exact congrArg (fun value => (value, (4 : BitVec 64)))
      (Function.update_self _ _ _)
  · intro other different
    exact Function.update_of_ne different _ _

theorem add
    (collects : Collects oldImage rows cols before (i, j) done images)
    (down right row col : Int) {weight : BitVec 64}
    {condition : Prop} [Decidable condition]
    (rowShift : row = i + down) (colShift : col = j + right)
    (weighs : weight = BitVec.ofInt 64 (offsetWeight (down, right)))
    (bounds : condition ↔
      (0 ≤ i + down ∧ i + down < rows) ∧ 0 ≤ j + right ∧ j + right < cols) :
    Collects oldImage rows cols before (i, j) (done ++ [(down, right)])
      (if condition then images.addFused weight (i, j) (row, col)
        else images) := by
  have member : (i, j) + (down, right) ∈ cells rows cols ↔ condition :=
    mem_cells.trans bounds.symm
  by_cases holds : condition
  · rw [if_pos holds]
    refine ⟨collects.old, collects.check, ?_, ?_⟩
    · rw [gathered_concat, ← collects.pixel, contribution,
        if_pos (member.mpr holds)]
      simp only [Images.addFused, Function.update_self, collects.old,
        rowShift, colShift, weighs]
      rfl
    · intro other different
      rw [← collects.others other different]
      exact Function.update_of_ne different _ _
  · rw [if_neg holds]
    refine ⟨collects.old, collects.check, ?_, collects.others⟩
    rw [gathered_concat, ← collects.pixel, contribution,
      if_neg (mt member.mp holds), add_zero]

theorem always {condition : Prop} [Decidable condition]
    (collects : Collects oldImage rows cols before (i, j) done images)
    (other : Images (BitVec 64)) (holds : condition) :
    Collects oldImage rows cols before (i, j) done
      (if condition then images else other) := by
  rw [if_pos holds]
  exact collects

end Collects

/-- The order in which `mask2` adds the neighbours. -/
def fusedOffsets : List (Int × Int) :=
  [(0, 0), (0, -1), (0, 1), (-1, 0), (1, 0), (-1, -1), (-1, 1), (1, -1),
    (1, 1)]

section Fused

variable {oldImage : Image} {rows cols : Int}

theorem mask2Gather_collects {i j : Int} (inside : (i, j) ∈ cells rows cols)
    {images : Images (BitVec 64)} (old : images.oldImage = oldImage) :
    Collects oldImage rows cols images (i, j) fusedOffsets
      (mask2Gather rows cols i j images) := by
  have bounds := mem_cells.mp inside
  dsimp only at bounds
  have centre := Collects.start inside old
  have left := centre.add 0 (-1) i (j - 1) (by omega) (by omega) rfl
    (show j ≥ 1 ∧ j < cols ↔ _ by omega)
  have right := left.add 0 1 i (j + 1) (by omega) (by omega) rfl
    (show j ≥ 0 ∧ j < cols - 1 ↔ _ by omega)
  have above := right.add (-1) 0 (i - 1) j (by omega) (by omega) rfl
    (show i ≥ 1 ∧ i < rows ↔ _ by omega)
  have below := above.add 1 0 (i + 1) j (by omega) (by omega) rfl
    (show i ≥ 0 ∧ i < rows - 1 ↔ _ by omega)
  have sides := below.always images
    (show (i ≥ 0 ∧ i < rows) ∧ (j ≥ 0 ∧ j < cols) from bounds)
  have topLeft := sides.add (-1) (-1) (i - 1) (j - 1) (by omega) (by omega)
    rfl (show (i ≥ 1 ∧ i < rows) ∧ (j ≥ 1 ∧ j < cols) ↔ _ by omega)
  have topRight := topLeft.add (-1) 1 (i - 1) (j + 1) (by omega) (by omega)
    rfl (show (i ≥ 1 ∧ i < rows) ∧ (j ≥ 0 ∧ j < cols - 1) ↔ _ by omega)
  have bottomLeft := topRight.add 1 (-1) (i + 1) (j - 1) (by omega)
    (by omega) rfl
    (show (i ≥ 0 ∧ i < rows - 1) ∧ (j ≥ 1 ∧ j < cols) ↔ _ by omega)
  exact bottomLeft.add 1 1 (i + 1) (j + 1) (by omega) (by omega) rfl
    (show (i ≥ 0 ∧ i < rows - 1) ∧ (j ≥ 0 ∧ j < cols - 1) ↔ _ by omega)

theorem mask2Cell_eq {i j : Int} (inside : (i, j) ∈ cells rows cols)
    {images : Images (BitVec 64)} (old : images.oldImage = oldImage) :
    ∃ weight, mask2Cell rows cols i j images =
      { oldImage := oldImage
        newImage := Function.update images.newImage (i, j)
          (quotient oldImage rows cols fusedOffsets (i, j))
        weight := weight
        check := images.check +
          quotient oldImage rows cols fusedOffsets (i, j) } := by
  have collects := mask2Gather_collects inside old
  have value : ((mask2Gather rows cols i j images).newImage (i, j)).sdiv
      (mask2Gather rows cols i j images).weight =
        quotient oldImage rows cols fusedOffsets (i, j) := by
    rw [quotient, ← collects.pixel]
  have others : ∀ result : BitVec 64,
      Function.update (mask2Gather rows cols i j images).newImage (i, j)
        result = Function.update images.newImage (i, j) result := by
    intro result
    funext other
    by_cases same : other = (i, j)
    · rw [same, Function.update_self, Function.update_self]
    · rw [Function.update_of_ne same, Function.update_of_ne same,
        collects.others other same]
  refine ⟨(mask2Gather rows cols i j images).weight, ?_⟩
  rw [mask2Cell, if_pos (mem_cells.mp inside)]
  simp only [value, others, collects.old, collects.check]

theorem mask2Cell_local :
    LocalStep (cells rows cols) (fun images => images.oldImage = oldImage)
      Images.newImage (fun cell => mask2Cell rows cols cell.1 cell.2)
      (fun cell _ => quotient oldImage rows cols fusedOffsets cell) := by
  constructor
  · intro images cell inside old
    obtain ⟨weight, result⟩ := mask2Cell_eq inside old
    rw [result]
  · intro images cell inside old
    obtain ⟨weight, result⟩ := mask2Cell_eq inside old
    rw [result]
    exact Function.update_self _ _ _
  · intro images cell other inside old different
    obtain ⟨weight, result⟩ := mask2Cell_eq inside old
    rw [result]
    exact Function.update_of_ne different _ _

theorem mask2_divides (oldImage newImage : Image) (rows cols : Int) :
    Divides oldImage newImage rows cols fusedOffsets
      (mask2 oldImage newImage rows cols) := by
  have locally := @mask2Cell_local oldImage rows cols
  have sweeps := rowByRow_sweeps 0 rows 0 cols
  let images : Images (BitVec 64) :=
    { oldImage := oldImage, newImage := newImage, weight := 0, check := 0 }
  have initial : images.oldImage = oldImage := rfl
  obtain ⟨kept, values⟩ := locally.visit sweeps initial
  have total := locally.total sweeps initial Images.check id
    (fun {images cell} inside old => by
      obtain ⟨weight, result⟩ := mask2Cell_eq inside old
      rw [result]
      exact congrArg (images.check + ·) (Function.update_self cell
        (quotient oldImage rows cols fusedOffsets cell) images.newImage).symm)
  have result : mask2 oldImage newImage rows cols =
      visit (rowByRow 0 rows 0 cols)
        (fun cell => mask2Cell rows cols cell.1 cell.2) images :=
    loop_rows (fun cell => mask2Cell rows cols cell.1 cell.2) images 0 rows 0
      cols
  rw [result]
  refine ⟨kept, ?_, ?_, ?_⟩
  · intro cell inside
    exact (values cell).trans (if_pos inside)
  · intro cell outside
    exact (values cell).trans (if_neg outside)
  · rw [total]
    refine (zero_add _).trans (Finset.sum_congr rfl fun cell inside => ?_)
    exact ((values cell).trans (if_pos inside)).symm

end Fused

theorem Divides.perm {oldImage newImage : Image} {rows cols : Int}
    {done others : List (Int × Int)} {ω : Type} {images : Images ω}
    (divides : Divides oldImage newImage rows cols done images)
    (perm : done.Perm others) :
    Divides oldImage newImage rows cols others images := by
  refine ⟨divides.old, ?_, divides.outside, divides.check⟩
  intro cell inside
  rw [divides.inside cell inside, quotient, quotient, gathered_perm perm]

/-- The new image and the sum are determined. -/
theorem Divides.unique {oldImage newImage : Image} {rows cols : Int}
    {done : List (Int × Int)} {ω ω' : Type} {images : Images ω}
    {others : Images ω'}
    (divides : Divides oldImage newImage rows cols done images)
    (othersDivide : Divides oldImage newImage rows cols done others) :
    images.newImage = others.newImage ∧ images.check = others.check := by
  have same : images.newImage = others.newImage := by
    funext cell
    by_cases inside : cell ∈ cells rows cols
    · rw [divides.inside cell inside, othersDivide.inside cell inside]
    · rw [divides.outside cell inside, othersDivide.outside cell inside]
  rw [divides.check, othersDivide.check, same]
  exact ⟨rfl, rfl⟩

/-- A value of type `long`. -/
def FitsLong (value : Int) : Prop := -2 ^ 63 ≤ value ∧ value < 2 ^ 63

instance (value : Int) : Decidable (FitsLong value) :=
  inferInstanceAs (Decidable (_ ∧ _))

/-- The new value of a cell as an exact integer. -/
def maskValue (image : Image) (rows cols : Int) (cell : Int × Int) : Int :=
  (weightedSum image rows cols cell).tdiv (weightSum rows cols cell)

/-- The values of an image are small enough for the sums of the masks. -/
structure SmallValues (image : Image) (rows cols : Int) : Prop where
  sums : ∀ cell ∈ cells rows cols, FitsLong (weightedSum image rows cols cell)
  total : FitsLong (∑ cell ∈ cells rows cols, maskValue image rows cols cell)

/-- What every version of the mask computes. -/
structure Masks (oldImage newImage : Image) (rows cols : Int) {ω : Type}
    (images : Images ω) : Prop where
  old : images.oldImage = oldImage
  inside : ∀ cell ∈ cells rows cols,
    (images.newImage cell).toInt = maskValue oldImage rows cols cell
  outside : ∀ cell ∉ cells rows cols, images.newImage cell = newImage cell
  check : images.check.toInt =
    ∑ cell ∈ cells rows cols, (images.newImage cell).toInt

theorem toInt_ofInt_of_fitsLong {value : Int} (fits : FitsLong value) :
    (BitVec.ofInt 64 value).toInt = value := by
  obtain ⟨low, high⟩ := fits
  rw [BitVec.toInt_ofInt]
  exact Int.bmod_eq_of_le (by omega) (by omega)

theorem weightSum_bounds {rows cols : Int} {cell : Int × Int}
    (inside : cell ∈ cells rows cols) :
    4 ≤ weightSum rows cols cell ∧ weightSum rows cols cell ≤ 16 := by
  have bounds : ∀ (condition : Prop) [Decidable condition] (weight : Int),
      0 ≤ weight → 0 ≤ (if condition then weight else 0) ∧
        (if condition then weight else 0) ≤ weight := by
    intro condition _ weight positive
    split
    · exact ⟨positive, Int.le_refl weight⟩
    · exact ⟨Int.le_refl 0, positive⟩
  have centre : cell + (0, 0) = cell := add_zero cell
  have others : ∀ offset ∈ offsets, 0 ≤ offsetWeight offset := by decide
  have term := fun offset member =>
    bounds (cell + offset ∈ cells rows cols) _ (others offset member)
  have sums : (4 : Int) = 4 + ((offsets.drop 1).map fun _ => 0).sum ∧
      4 + ((offsets.drop 1).map offsetWeight).sum = 16 := by decide
  have split : weightSum rows cols cell = 4 + ((offsets.drop 1).map
      fun offset => if cell + offset ∈ cells rows cols then
        offsetWeight offset else 0).sum := by
    rw [weightSum, offsets, List.map_cons, List.sum_cons, centre,
      if_pos inside]
    rfl
  rw [split]
  constructor
  · calc (4 : Int) = _ := sums.1
      _ ≤ _ := Int.add_le_add_left (List.sum_le_sum fun offset member =>
        (term offset (List.mem_of_mem_drop member)).1) 4
  · calc _ ≤ 4 + ((offsets.drop 1).map offsetWeight).sum :=
        Int.add_le_add_left (List.sum_le_sum fun offset member =>
          (term offset (List.mem_of_mem_drop member)).2) 4
      _ = 16 := sums.2

/-- Conversion to `long` preserves sums. -/
def ofIntHom : Int →+ BitVec 64 where
  toFun := BitVec.ofInt 64
  map_zero' := rfl
  map_add' := BitVec.ofInt_add

namespace Divides

variable {oldImage newImage : Image} {rows cols : Int} {ω : Type}
  {images : Images ω}

theorem value (small : SmallValues oldImage rows cols)
    (divides : Divides oldImage newImage rows cols offsets images)
    {cell : Int × Int} (inside : cell ∈ cells rows cols) :
    (images.newImage cell).toInt = maskValue oldImage rows cols cell := by
  obtain ⟨low, high⟩ := weightSum_bounds inside
  have weight : (BitVec.ofInt 64 (weightSum rows cols cell)).toInt =
      weightSum rows cols cell :=
    toInt_ofInt_of_fitsLong ⟨by omega, by omega⟩
  have proper : BitVec.ofInt 64 (weightSum rows cols cell) ≠ -1#64 := by
    intro same
    rw [same] at weight
    have negative : (-1#64 : BitVec 64).toInt = -1 := rfl
    omega
  rw [divides.inside cell inside, quotient, gathered_offsets,
    BitVec.toInt_sdiv_of_ne_or_ne _ _ (.inr proper), weight,
    toInt_ofInt_of_fitsLong (small.sums cell inside), maskValue]

theorem masks (small : SmallValues oldImage rows cols)
    (divides : Divides oldImage newImage rows cols offsets images) :
    Masks oldImage newImage rows cols images := by
  refine ⟨divides.old, fun cell => divides.value small, divides.outside, ?_⟩
  have values : ∑ cell ∈ cells rows cols, (images.newImage cell).toInt =
      ∑ cell ∈ cells rows cols, maskValue oldImage rows cols cell :=
    Finset.sum_congr rfl fun cell => divides.value small
  have check : images.check = ofIntHom
      (∑ cell ∈ cells rows cols, (images.newImage cell).toInt) := by
    rw [divides.check, map_sum]
    exact Finset.sum_congr rfl fun cell _ => BitVec.ofInt_toInt.symm
  rw [check, values]
  exact toInt_ofInt_of_fitsLong small.total

end Divides

/-- The three versions of the mask leave the same new image, return the same
check, and compute the weighted mean of every cell and its neighbours. -/
theorem masks_agree (weight oldImage newImage : Image) (rows cols : Int)
    (small : SmallValues oldImage rows cols) :
    Masks oldImage newImage rows cols (baseMask oldImage newImage rows cols) ∧
      (mask1 weight oldImage newImage rows cols).oldImage = oldImage ∧
      (mask1 weight oldImage newImage rows cols).newImage =
        (baseMask oldImage newImage rows cols).newImage ∧
      (mask1 weight oldImage newImage rows cols).check =
        (baseMask oldImage newImage rows cols).check ∧
      (mask2 oldImage newImage rows cols).oldImage = oldImage ∧
      (mask2 oldImage newImage rows cols).newImage =
        (baseMask oldImage newImage rows cols).newImage ∧
      (mask2 oldImage newImage rows cols).check =
        (baseMask oldImage newImage rows cols).check := by
  have base := baseMask_divides oldImage newImage rows cols
  have first := mask1_divides oldImage newImage rows cols weight
  have reordered : fusedOffsets.Perm offsets := by decide
  have second := (mask2_divides oldImage newImage rows cols).perm reordered
  obtain ⟨firstImage, firstCheck⟩ := first.unique base
  obtain ⟨secondImage, secondCheck⟩ := second.unique base
  exact ⟨base.masks small, first.old, firstImage, firstCheck, second.old,
    secondImage, secondCheck⟩

/-- Two rows and three columns. -/
def smallImage : Image := fun cell =>
  BitVec.ofInt 64 (7 * cell.1 - 5 * cell.2)

theorem smallImage_masks :
    SmallValues smallImage 2 3 ∧
      Masks smallImage (fun _ => 9) 2 3
        (baseMask smallImage (fun _ => 9) 2 3) := by
  have small : SmallValues smallImage 2 3 := ⟨by decide, by decide⟩
  exact ⟨small, (masks_agree (fun _ => 1) smallImage (fun _ => 9) 2 3
    small).1⟩

end SystemsLabs.Mask
