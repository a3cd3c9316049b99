import SystemsLabs.Library.CellLoops

/-!
# The masks of `lab6/timemask.c` and `lab6/mask.c`

`baseMask`, `mask1` and `mask2`.  An image is read at a pair of a row and a
column; the array behind it has `N` rows and columns, and no loop leaves the
part of `rows` rows and `cols` columns.  A `long` is 64 bits wide and wraps.
-/

namespace SystemsLabs.Mask

open CellLoops

abbrev Image := Int × Int → BitVec 64

def weightCentre : BitVec 64 := 4

def weightSide : BitVec 64 := 2

def weightCorner : BitVec 64 := 1

/-- What the functions read and write.  `weight` is an image in `baseMask` and
`mask1` and a `long` in `mask2`. -/
structure Images (ω : Type) where
  oldImage : Image
  newImage : Image
  weight : ω
  check : BitVec 64

namespace Images

def setCell (cell : Int × Int) (images : Images Image) : Images Image :=
  { images with
    newImage := Function.update images.newImage cell
      (weightCentre * images.oldImage cell)
    weight := Function.update images.weight cell weightCentre }

def addCell (weight : BitVec 64) (cell neighbour : Int × Int)
    (images : Images Image) : Images Image :=
  { images with
    newImage := Function.update images.newImage cell
      (images.newImage cell + weight * images.oldImage neighbour)
    weight := Function.update images.weight cell
      (images.weight cell + weight) }

/-- The weight is never zero when this is called. -/
def divideCell (cell : Int × Int) (images : Images Image) : Images Image :=
  let value := (images.newImage cell).sdiv (images.weight cell)
  { images with
    newImage := Function.update images.newImage cell value
    check := images.check + value }

end Images

/-- `calloc` has cleared the weights. -/
def baseMask (oldImage newImage : Image) (rows cols : Int) : Images Image :=
  let images : Images Image :=
    { oldImage := oldImage
      newImage := newImage
      weight := fun _ => 0
      check := 0 }
  let images := loop 0 cols (fun i =>
    loop 0 rows fun j => Images.setCell (j, i)) images
  let images := loop 1 cols (fun i =>
    let col := i - 1
    loop 1 rows fun j =>
      let row := j - 1
      Images.addCell weightCorner (j, i) (row, col)) images
  let images := loop 0 cols (fun i =>
    loop 1 rows fun j =>
      let row := j - 1
      Images.addCell weightSide (j, i) (row, i)) images
  let images := loop 0 (cols - 1) (fun i =>
    let col := i + 1
    loop 1 rows fun j =>
      let row := j - 1
      Images.addCell weightCorner (j, i) (row, col)) images
  let images := loop 1 cols (fun i =>
    let col := i - 1
    loop 0 rows fun j => Images.addCell weightSide (j, i) (j, col)) images
  let images := loop 0 (cols - 1) (fun i =>
    let col := i + 1
    loop 0 rows fun j => Images.addCell weightSide (j, i) (j, col)) images
  let images := loop 1 cols (fun i =>
    let col := i - 1
    loop 0 (rows - 1) fun j =>
      let row := j + 1
      Images.addCell weightCorner (j, i) (row, col)) images
  let images := loop 0 cols (fun i =>
    loop 0 (rows - 1) fun j =>
      let row := j + 1
      Images.addCell weightSide (j, i) (row, i)) images
  let images := loop 0 (cols - 1) (fun i =>
    let col := i + 1
    loop 0 (rows - 1) fun j =>
      let row := j + 1
      Images.addCell weightCorner (j, i) (row, col)) images
  loop 0 cols (fun i => loop 0 rows fun j => Images.divideCell (j, i)) images

/-- `weight` is what the memory from `malloc` holds. -/
def mask1 (weight oldImage newImage : Image) (rows cols : Int) :
    Images Image :=
  let images : Images Image :=
    { oldImage := oldImage
      newImage := newImage
      weight := weight
      check := 0 }
  let images := loop 0 rows (fun i =>
    loop 0 cols fun j => Images.setCell (i, j)) images
  let images := loop 1 rows (fun i =>
    loop 1 cols fun j =>
      Images.addCell weightCorner (i, j) (i - 1, j - 1)) images
  let images := loop 1 rows (fun i =>
    loop 0 cols fun j => Images.addCell weightSide (i, j) (i - 1, j)) images
  let images := loop 1 rows (fun i =>
    loop 0 (cols - 1) fun j =>
      Images.addCell weightCorner (i, j) (i - 1, j + 1)) images
  let images := loop 0 rows (fun i =>
    loop 1 cols fun j => Images.addCell weightSide (i, j) (i, j - 1)) images
  let images := loop 0 rows (fun i =>
    loop 0 (cols - 1) fun j =>
      Images.addCell weightSide (i, j) (i, j + 1)) images
  let images := loop 0 (rows - 1) (fun i =>
    loop 1 cols fun j =>
      Images.addCell weightCorner (i, j) (i + 1, j - 1)) images
  let images := loop 0 (rows - 1) (fun i =>
    loop 0 cols fun j => Images.addCell weightSide (i, j) (i + 1, j)) images
  let images := loop 0 (rows - 1) (fun i =>
    loop 0 (cols - 1) fun j =>
      Images.addCell weightCorner (i, j) (i + 1, j + 1)) images
  loop 0 rows (fun i => loop 0 cols fun j => Images.divideCell (i, j)) images

namespace Images

/-- The two statements of a branch of `mask2`. -/
def addFused (weight : BitVec 64) (cell neighbour : Int × Int)
    (images : Images (BitVec 64)) : Images (BitVec 64) :=
  { images with
    newImage := Function.update images.newImage cell
      (images.newImage cell + weight * images.oldImage neighbour)
    weight := images.weight + weight }

end Images

/-- The body of the loops of `mask2`, up to the division. -/
def mask2Gather (rows cols i j : Int) (images : Images (BitVec 64)) :
    Images (BitVec 64) :=
  let images :=
    if (i ≥ 0 ∧ i < rows) ∧ (j ≥ 0 ∧ j < cols) then
      let images :=
        { images with
          newImage := Function.update images.newImage (i, j)
            (4 * images.oldImage (i, j))
          weight := 4 }
      let images :=
        if j ≥ 1 ∧ j < cols then images.addFused 2 (i, j) (i, j - 1)
        else images
      let images :=
        if j ≥ 0 ∧ j < cols - 1 then images.addFused 2 (i, j) (i, j + 1)
        else images
      let images :=
        if i ≥ 1 ∧ i < rows then images.addFused 2 (i, j) (i - 1, j)
        else images
      if i ≥ 0 ∧ i < rows - 1 then images.addFused 2 (i, j) (i + 1, j)
      else images
    else images
  let images :=
    if (i ≥ 1 ∧ i < rows) ∧ (j ≥ 1 ∧ j < cols) then
      images.addFused 1 (i, j) (i - 1, j - 1)
    else images
  let images :=
    if (i ≥ 1 ∧ i < rows) ∧ (j ≥ 0 ∧ j < cols - 1) then
      images.addFused 1 (i, j) (i - 1, j + 1)
    else images
  let images :=
    if (i ≥ 0 ∧ i < rows - 1) ∧ (j ≥ 1 ∧ j < cols) then
      images.addFused 1 (i, j) (i + 1, j - 1)
    else images
  if (i ≥ 0 ∧ i < rows - 1) ∧ (j ≥ 0 ∧ j < cols - 1) then
    images.addFused 1 (i, j) (i + 1, j + 1)
  else images

def mask2Cell (rows cols i j : Int) (images : Images (BitVec 64)) :
    Images (BitVec 64) :=
  let images := mask2Gather rows cols i j images
  if (i ≥ 0 ∧ i < rows) ∧ (j ≥ 0 ∧ j < cols) then
    let value := (images.newImage (i, j)).sdiv images.weight
    { images with
      newImage := Function.update images.newImage (i, j) value
      check := images.check + value }
  else images

def mask2 (oldImage newImage : Image) (rows cols : Int) :
    Images (BitVec 64) :=
  let images : Images (BitVec 64) :=
    { oldImage := oldImage
      newImage := newImage
      weight := 0
      check := 0 }
  loop 0 rows (fun i => loop 0 cols fun j => mask2Cell rows cols i j) images

end SystemsLabs.Mask
