import SystemsLabs.Mask.Agree

/-!
# Symmetries of an image

A symmetry takes the neighbours of a cell to the neighbours of another cell
with the same weights, so a mask commutes with it.
-/

namespace SystemsLabs.Mask

inductive Symmetry where
  | reverseRows
  | reverseCols
  | transpose
deriving DecidableEq, Repr

namespace Symmetry

/-- The number of rows of the new image. -/
def rows : Symmetry → Int → Int → Int
  | reverseRows, rows, _ => rows
  | reverseCols, rows, _ => rows
  | transpose, _, cols => cols

/-- The number of columns of the new image. -/
def cols : Symmetry → Int → Int → Int
  | reverseRows, _, cols => cols
  | reverseCols, _, cols => cols
  | transpose, rows, _ => rows

/-- The cell of an image of `rows` rows and `cols` columns that moves to a cell
of the new image. -/
def source (symmetry : Symmetry) (rows cols : Int) (cell : Int × Int) :
    Int × Int :=
  match symmetry with
  | reverseRows => (rows - 1 - cell.1, cell.2)
  | reverseCols => (cell.1, cols - 1 - cell.2)
  | transpose => cell.swap

def apply (symmetry : Symmetry) (rows cols : Int) (image : Image) : Image :=
  fun cell => image (symmetry.source rows cols cell)

/-- The distance between the sources of two cells. -/
def turn (symmetry : Symmetry) (offset : Int × Int) : Int × Int :=
  match symmetry with
  | reverseRows => (-offset.1, offset.2)
  | reverseCols => (offset.1, -offset.2)
  | transpose => offset.swap

variable (symmetry : Symmetry) (rows cols : Int) (cell offset : Int × Int)

theorem source_source :
    symmetry.source rows cols (symmetry.source (symmetry.rows rows cols)
      (symmetry.cols rows cols) cell) = cell := by
  cases symmetry <;> simp [source, Symmetry.rows, Symmetry.cols]

theorem source_injective :
    Function.Injective (symmetry.source rows cols) := by
  intro first second same
  cases symmetry <;> simp_all [source, Prod.ext_iff]

theorem source_add :
    symmetry.source rows cols (cell + offset) =
      symmetry.source rows cols cell + symmetry.turn offset := by
  cases symmetry with
  | reverseRows => exact Prod.ext (Int.sub_sub _ _ _).symm rfl
  | reverseCols => exact Prod.ext rfl (Int.sub_sub _ _ _).symm
  | transpose => rfl

theorem source_mem :
    symmetry.source rows cols cell ∈ cells rows cols ↔
      cell ∈ cells (symmetry.rows rows cols) (symmetry.cols rows cols) := by
  rw [mem_cells, mem_cells]
  cases symmetry with
  | reverseRows => simp only [source, Symmetry.rows, Symmetry.cols]; omega
  | reverseCols => simp only [source, Symmetry.rows, Symmetry.cols]; omega
  | transpose => exact and_comm

theorem turn_perm : (offsets.map symmetry.turn).Perm offsets := by
  cases symmetry <;> decide

theorem offsetWeight_turn {offset : Int × Int} (listed : offset ∈ offsets) :
    offsetWeight (symmetry.turn offset) = offsetWeight offset := by
  revert offset
  cases symmetry <;> decide

variable (image : Image)

theorem contribution_source {offset : Int × Int} (listed : offset ∈ offsets) :
    contribution (symmetry.apply rows cols image) (symmetry.rows rows cols)
        (symmetry.cols rows cols) cell offset =
      contribution image rows cols (symmetry.source rows cols cell)
        (symmetry.turn offset) := by
  rw [contribution, contribution, ← source_add, offsetWeight_turn _ listed,
    apply]
  simp only [source_mem]

theorem gathered_source :
    gathered (symmetry.apply rows cols image) (symmetry.rows rows cols)
        (symmetry.cols rows cols) offsets cell =
      gathered image rows cols offsets (symmetry.source rows cols cell) := by
  refine Eq.trans ?_ (gathered_perm symmetry.turn_perm)
  rw [gathered, gathered, List.map_map]
  congr 1
  apply List.map_congr_left
  intro offset listed
  exact contribution_source symmetry rows cols cell image listed

end Symmetry

theorem Divides.symmetric {symmetry : Symmetry} {rows cols : Int}
    {oldImage newImage otherImage : Image} {ω ω' : Type} {images : Images ω}
    {others : Images ω'}
    (divides : Divides oldImage newImage rows cols offsets images)
    (othersDivide : Divides (symmetry.apply rows cols oldImage) otherImage
      (symmetry.rows rows cols) (symmetry.cols rows cols) offsets others) :
    (∀ cell ∈ cells (symmetry.rows rows cols) (symmetry.cols rows cols),
      others.newImage cell =
        symmetry.apply rows cols images.newImage cell) ∧
      others.check = images.check := by
  have values : ∀ cell ∈ cells (symmetry.rows rows cols)
      (symmetry.cols rows cols), others.newImage cell =
        symmetry.apply rows cols images.newImage cell := by
    intro cell inside
    have source := (symmetry.source_mem rows cols cell).mpr inside
    rw [othersDivide.inside cell inside, quotient, symmetry.gathered_source,
      Symmetry.apply, divides.inside _ source, quotient]
  refine ⟨values, ?_⟩
  rw [othersDivide.check, divides.check]
  refine Finset.sum_bij (fun cell _ => symmetry.source rows cols cell)
    ?_ ?_ ?_ values
  · intro cell inside
    exact (symmetry.source_mem rows cols cell).mpr inside
  · intro first _ second _ same
    exact symmetry.source_injective rows cols same
  · intro cell inside
    have same := symmetry.source_source rows cols cell
    refine ⟨_, ?_, same⟩
    rw [← symmetry.source_mem, same]
    exact inside

/-- The mask of a reversed or transposed image is the reversed or transposed
mask, and the check is the same.  Cells outside the image are not written. -/
theorem mask2_symmetric (symmetry : Symmetry)
    (oldImage newImage otherImage : Image) (rows cols : Int) :
    (∀ cell ∈ cells (symmetry.rows rows cols) (symmetry.cols rows cols),
      (mask2 (symmetry.apply rows cols oldImage) otherImage
        (symmetry.rows rows cols) (symmetry.cols rows cols)).newImage cell =
          symmetry.apply rows cols
            (mask2 oldImage newImage rows cols).newImage cell) ∧
      (mask2 (symmetry.apply rows cols oldImage) otherImage
        (symmetry.rows rows cols) (symmetry.cols rows cols)).check =
          (mask2 oldImage newImage rows cols).check := by
  have reordered : fusedOffsets.Perm offsets := by decide
  have divides := mask2_divides oldImage newImage rows cols
  have othersDivide := mask2_divides (symmetry.apply rows cols oldImage)
    otherImage (symmetry.rows rows cols) (symmetry.cols rows cols)
  exact (divides.perm reordered).symmetric (othersDivide.perm reordered)

end SystemsLabs.Mask
