import SystemsLabs.Mask.Agree

/-!
# The masks as lists of operations

Every assignment of the masks is an operation on one cell.  The lists here are
the assignments that `baseMask`, `mask1` and `mask2` make, in their order, so
that a statement about every intermediate value is one about every prefix of a
list.  In each of them the operations on a cell are the same: it is set, the
neighbours inside the image are added, and it is divided.
-/

namespace SystemsLabs.Mask

open CellLoops

inductive Operation where
  | set (cell : Int × Int)
  | add (weight : BitVec 64) (cell neighbour : Int × Int)
  | divide (cell : Int × Int)

/-- Where the weight of a cell is kept. -/
structure Weights (ω : Type) where
  read : ω → Int × Int → BitVec 64
  write : ω → Int × Int → BitVec 64 → ω

/-- One weight for every cell, in `baseMask` and `mask1`. -/
def perCell : Weights Image where
  read weight := weight
  write := Function.update

/-- The one variable of `mask2`. -/
def shared : Weights (BitVec 64) where
  read weight _ := weight
  write _ _ value := value

namespace Operation

variable {ω : Type}

def cell : Operation → Int × Int
  | set cell => cell
  | add _ cell _ => cell
  | divide cell => cell

def isDivide : Operation → Bool
  | set _ => false
  | add _ _ _ => false
  | divide _ => true

def execute (weights : Weights ω) (images : Images ω) :
    Operation → Images ω
  | set cell =>
      { images with
        newImage := Function.update images.newImage cell
          (weightCentre * images.oldImage cell)
        weight := weights.write images.weight cell weightCentre }
  | add weight cell neighbour =>
      { images with
        newImage := Function.update images.newImage cell
          (images.newImage cell + weight * images.oldImage neighbour)
        weight := weights.write images.weight cell
          (weights.read images.weight cell + weight) }
  | divide cell =>
      let value :=
        (images.newImage cell).sdiv (weights.read images.weight cell)
      { images with
        newImage := Function.update images.newImage cell value
        check := images.check + value }

/-- No result of the operation overflows, and a divisor is a possible sum of
weights. -/
def Safe (weights : Weights ω) (images : Images ω) : Operation → Prop
  | set cell => FitsLong (weightCentre.toInt * (images.oldImage cell).toInt)
  | add weight cell neighbour =>
      FitsLong (weight.toInt * (images.oldImage neighbour).toInt) ∧
      FitsLong ((images.newImage cell).toInt +
        weight.toInt * (images.oldImage neighbour).toInt) ∧
      FitsLong ((weights.read images.weight cell).toInt + weight.toInt)
  | divide cell =>
      (4 ≤ (weights.read images.weight cell).toInt ∧
        (weights.read images.weight cell).toInt ≤ 16) ∧
      FitsLong (images.check.toInt + ((images.newImage cell).sdiv
        (weights.read images.weight cell)).toInt)

end Operation

open Operation

section Runs

variable {ω : Type} (weights : Weights ω)

def run (operations : List Operation) (images : Images ω) : Images ω :=
  operations.foldl (execute weights) images

/-- Every operation is safe in the state in which it is executed. -/
def SafeRun : List Operation → Images ω → Prop
  | [], _ => True
  | operation :: rest, images =>
      operation.Safe weights images ∧
        SafeRun rest (operation.execute weights images)

theorem run_append (first second : List Operation) (images : Images ω) :
    run weights (first ++ second) images =
      run weights second (run weights first images) :=
  List.foldl_append

theorem safeRun_append {first second : List Operation} :
    ∀ {images : Images ω}, SafeRun weights (first ++ second) images ↔
      SafeRun weights first images ∧
        SafeRun weights second (run weights first images) := by
  induction first with
  | nil =>
      intro images
      exact (iff_of_eq (true_and _)).symm
  | cons operation rest ih =>
      intro images
      exact (and_congr_right fun _ => ih).trans and_assoc.symm

end Runs

/-- The neighbours in the order of the passes of `baseMask` and `mask1`. -/
def neighbours : List (Int × Int) := offsets.tail

/-- The addition of a neighbour. -/
def addOffset (offset cell : Int × Int) : Operation :=
  .add (BitVec.ofInt 64 (offsetWeight offset)) cell (cell + offset)

/-- A way to go through the cells of a rectangle. -/
abbrev Order := Int → Int → Int → Int → List (Int × Int)

/-- The additions of one neighbour, for all cells that have it. -/
def pass (order : Order) (rows cols : Int) (offset : Int × Int) :
    List Operation :=
  (order (max 0 (-offset.1)) (min rows (rows - offset.1))
    (max 0 (-offset.2)) (min cols (cols - offset.2))).map (addOffset offset)

/-- The operations of `baseMask` and `mask1`. -/
def passes (order : Order) (rows cols : Int) : List Operation :=
  (order 0 rows 0 cols).map .set ++
    (neighbours.flatMap (pass order rows cols) ++
      (order 0 rows 0 cols).map .divide)

/-- The operations of `mask2` on a cell. -/
def cellOperations (order : List (Int × Int)) (rows cols : Int)
    (cell : Int × Int) : List Operation :=
  .set cell :: ((order.filter fun offset =>
    cell + offset ∈ cells rows cols).map fun offset => addOffset offset cell) ++
      [.divide cell]

/-- The operations of `mask2`. -/
def fusedOperations (rows cols : Int) : List Operation :=
  (rowByRow 0 rows 0 cols).flatMap (cellOperations fusedOffsets.tail rows cols)

theorem run_map {ω : Type} (weights : Weights ω) (visited : List (Int × Int))
    (operation : Int × Int → Operation) (images : Images ω) :
    run weights (visited.map operation) images =
      visit visited (fun cell images => (operation cell).execute weights images)
        images :=
  List.foldl_map

section Passes

variable {rows cols down right firstRow lastRow firstCol lastCol : Int}
  {row col : Int → Int} {weight : BitVec 64} (images : Images Image)

theorem run_pass (order : Order)
    (vertical : Shift rows down firstRow lastRow row)
    (horizontal : Shift cols right firstCol lastCol col)
    (weighs : weight = BitVec.ofInt 64 (offsetWeight (down, right))) :
    visit (order firstRow lastRow firstCol lastCol) (fun cell =>
        Images.addCell weight cell (row cell.1, col cell.2)) images =
      run perCell (pass order rows cols (down, right)) images := by
  have same : (fun cell : Int × Int =>
      Images.addCell weight cell (row cell.1, col cell.2)) = fun cell images =>
        (addOffset (down, right) cell).execute perCell images := by
    funext cell images
    rw [vertical.move_eq, horizontal.move_eq, weighs]
    rfl
  rw [pass, run_map, same, vertical.first_eq, vertical.last_eq,
    horizontal.first_eq, horizontal.last_eq]

theorem run_rows (vertical : Shift rows down firstRow lastRow row)
    (horizontal : Shift cols right firstCol lastCol col)
    (weighs : weight = BitVec.ofInt 64 (offsetWeight (down, right))) :
    loop firstRow lastRow (fun i => loop firstCol lastCol fun j =>
        Images.addCell weight (i, j) (row i, col j)) images =
      run perCell (pass rowByRow rows cols (down, right)) images := by
  rw [loop_rows (fun cell =>
    Images.addCell weight cell (row cell.1, col cell.2))]
  exact run_pass images rowByRow vertical horizontal weighs

theorem run_columns (vertical : Shift rows down firstRow lastRow row)
    (horizontal : Shift cols right firstCol lastCol col)
    (weighs : weight = BitVec.ofInt 64 (offsetWeight (down, right))) :
    loop firstCol lastCol (fun i => loop firstRow lastRow fun j =>
        Images.addCell weight (j, i) (row j, col i)) images =
      run perCell (pass columnByColumn rows cols (down, right)) images := by
  rw [loop_columns (fun cell =>
    Images.addCell weight cell (row cell.1, col cell.2))]
  exact run_pass images columnByColumn vertical horizontal weighs

end Passes

section Equations

variable (oldImage newImage : Image) (rows cols : Int)

theorem mask1_run (weight : Image) :
    mask1 weight oldImage newImage rows cols =
      run perCell (passes rowByRow rows cols)
        { oldImage := oldImage, newImage := newImage, weight := weight,
          check := 0 } := by
  simp only [passes, run_append, neighbours, offsets, List.tail_cons,
    List.flatMap_cons, List.flatMap_nil, List.append_nil, run_map]
  rw [← run_rows _ (.before rows) (.before cols) rfl,
    ← run_rows _ (.before rows) (.same cols) rfl,
    ← run_rows _ (.before rows) (.after cols) rfl,
    ← run_rows _ (.same rows) (.before cols) rfl,
    ← run_rows _ (.same rows) (.after cols) rfl,
    ← run_rows _ (.after rows) (.before cols) rfl,
    ← run_rows _ (.after rows) (.same cols) rfl,
    ← run_rows _ (.after rows) (.after cols) rfl]
  refine (loop_rows Images.divideCell _ 0 rows 0 cols).trans ?_
  rw [loop_rows Images.setCell]
  rfl

theorem baseMask_run :
    baseMask oldImage newImage rows cols =
      run perCell (passes columnByColumn rows cols)
        { oldImage := oldImage, newImage := newImage, weight := fun _ => 0,
          check := 0 } := by
  simp only [passes, run_append, neighbours, offsets, List.tail_cons,
    List.flatMap_cons, List.flatMap_nil, List.append_nil, run_map]
  rw [← run_columns _ (.before rows) (.before cols) rfl,
    ← run_columns _ (.before rows) (.same cols) rfl,
    ← run_columns _ (.before rows) (.after cols) rfl,
    ← run_columns _ (.same rows) (.before cols) rfl,
    ← run_columns _ (.same rows) (.after cols) rfl,
    ← run_columns _ (.after rows) (.before cols) rfl,
    ← run_columns _ (.after rows) (.same cols) rfl,
    ← run_columns _ (.after rows) (.after cols) rfl]
  refine (loop_columns Images.divideCell _ 0 rows 0 cols).trans ?_
  rw [loop_columns Images.setCell]
  rfl

end Equations

section Fused

variable {rows cols : Int}

/-- The operations of the members of a list that satisfy a condition, as
branches. -/
theorem run_filter {ω : Type} (weights : Weights ω) (order : List (Int × Int))
    (condition : Int × Int → Bool) (operation : Int × Int → Operation) :
    ∀ images : Images ω,
      run weights ((order.filter condition).map operation) images =
        order.foldl (fun images offset =>
          if condition offset then (operation offset).execute weights images
          else images) images := by
  induction order with
  | nil =>
      intro images
      rfl
  | cons offset order ih =>
      intro images
      by_cases holds : condition offset
      · rw [List.filter_cons_of_pos holds, List.foldl_cons, if_pos holds]
        exact ih _
      · rw [List.filter_cons_of_neg holds, List.foldl_cons, if_neg holds]
        exact ih images

theorem fused_branch {i j : Int} (down right row col : Int)
    {weight : BitVec 64} {condition : Prop} [Decidable condition]
    (rowShift : row = i + down) (colShift : col = j + right)
    (weighs : weight = BitVec.ofInt 64 (offsetWeight (down, right)))
    (bounds : condition ↔
      (0 ≤ i + down ∧ i + down < rows) ∧ 0 ≤ j + right ∧ j + right < cols)
    (images : Images (BitVec 64)) :
    (if decide ((i, j) + (down, right) ∈ cells rows cols) = true then
        (addOffset (down, right) (i, j)).execute shared images
      else images) =
      if condition then images.addFused weight (i, j) (row, col)
      else images := by
  have member : decide ((i, j) + (down, right) ∈ cells rows cols) = true ↔
      condition := decide_eq_true_iff.trans (mem_cells.trans bounds.symm)
  refine if_congr member ?_ rfl
  rw [rowShift, colShift, weighs]
  rfl

theorem mask2Cell_run {i j : Int} (inside : (i, j) ∈ cells rows cols)
    (images : Images (BitVec 64)) :
    mask2Cell rows cols i j images =
      run shared (cellOperations fusedOffsets.tail rows cols (i, j))
        images := by
  have bounds := mem_cells.mp inside
  dsimp only at bounds
  rw [cellOperations, List.cons_append, run, List.foldl_cons]
  change _ = run shared (_ ++ _) _
  rw [run_append, run_filter]
  simp only [fusedOffsets, List.tail_cons, List.foldl_cons, List.foldl_nil]
  rw [fused_branch 0 (-1) i (j - 1) (by omega) (by omega) rfl
      (show j ≥ 1 ∧ j < cols ↔ _ by omega),
    fused_branch 0 1 i (j + 1) (by omega) (by omega) rfl
      (show j ≥ 0 ∧ j < cols - 1 ↔ _ by omega),
    fused_branch (-1) 0 (i - 1) j (by omega) (by omega) rfl
      (show i ≥ 1 ∧ i < rows ↔ _ by omega),
    fused_branch 1 0 (i + 1) j (by omega) (by omega) rfl
      (show i ≥ 0 ∧ i < rows - 1 ↔ _ by omega),
    fused_branch (-1) (-1) (i - 1) (j - 1) (by omega) (by omega) rfl
      (show (i ≥ 1 ∧ i < rows) ∧ (j ≥ 1 ∧ j < cols) ↔ _ by omega),
    fused_branch (-1) 1 (i - 1) (j + 1) (by omega) (by omega) rfl
      (show (i ≥ 1 ∧ i < rows) ∧ (j ≥ 0 ∧ j < cols - 1) ↔ _ by omega),
    fused_branch 1 (-1) (i + 1) (j - 1) (by omega) (by omega) rfl
      (show (i ≥ 0 ∧ i < rows - 1) ∧ (j ≥ 1 ∧ j < cols) ↔ _ by omega),
    fused_branch 1 1 (i + 1) (j + 1) (by omega) (by omega) rfl
      (show (i ≥ 0 ∧ i < rows - 1) ∧ (j ≥ 0 ∧ j < cols - 1) ↔ _ by omega)]
  have always : (i ≥ 0 ∧ i < rows) ∧ (j ≥ 0 ∧ j < cols) := bounds
  rw [mask2Cell, mask2Gather, if_pos always, if_pos always]
  rfl

theorem visit_mask2Cell_run {visited : List (Int × Int)}
    (inside : ∀ cell ∈ visited, cell ∈ cells rows cols) :
    ∀ images : Images (BitVec 64),
      visit visited (fun cell => mask2Cell rows cols cell.1 cell.2) images =
        run shared (visited.flatMap
          (cellOperations fusedOffsets.tail rows cols)) images := by
  induction visited with
  | nil =>
      intro images
      rfl
  | cons cell visited ih =>
      intro images
      have first := mask2Cell_run (inside cell List.mem_cons_self) images
      rw [List.flatMap_cons, run_append, ← first]
      exact ih (fun later member =>
        inside later (List.mem_cons_of_mem _ member)) _

theorem mask2_run (oldImage newImage : Image) :
    mask2 oldImage newImage rows cols =
      run shared (fusedOperations rows cols)
        { oldImage := oldImage, newImage := newImage, weight := 0,
          check := 0 } := by
  have sweeps := rowByRow_sweeps 0 rows 0 cols
  refine (loop_rows (fun cell => mask2Cell rows cols cell.1 cell.2) _ 0 rows
    0 cols).trans ?_
  exact visit_mask2Cell_run (fun cell => (sweeps.mem_iff cell).mp) _

end Fused

/-- The operations on one cell. -/
def onCell (cell : Int × Int) (operations : List Operation) : List Operation :=
  operations.filter fun operation => operation.cell = cell

/-- Every cell is set, gets its neighbours in some order, and is divided, with
the operations on other cells in between. -/
structure Schedule (order : List (Int × Int)) (rows cols : Int)
    (operations : List Operation) : Prop where
  inside : ∀ operation ∈ operations, operation.cell ∈ cells rows cols
  each : ∀ cell ∈ cells rows cols,
    onCell cell operations = cellOperations order rows cols cell

section Schedules

variable {rows cols : Int}

theorem onCell_append (cell : Int × Int) (first second : List Operation) :
    onCell cell (first ++ second) = onCell cell first ++ onCell cell second :=
  List.filter_append _ _

theorem onCell_flatMap {visited : List (Int × Int)} (nodup : visited.Nodup)
    {lists : Int × Int → List Operation}
    (on : ∀ cell, ∀ operation ∈ lists cell, operation.cell = cell)
    (cell : Int × Int) :
    onCell cell (visited.flatMap lists) =
      if cell ∈ visited then lists cell else [] := by
  induction visited with
  | nil => rfl
  | cons first visited ih =>
      obtain ⟨fresh, nodup⟩ := List.nodup_cons.mp nodup
      rw [List.flatMap_cons, onCell_append, ih nodup]
      by_cases same : cell = first
      · subst same
        have all : onCell cell (lists cell) = lists cell :=
          List.filter_eq_self.mpr fun operation member =>
            decide_eq_true (on cell operation member)
        rw [all, if_neg fresh, if_pos List.mem_cons_self, List.append_nil]
      · have none : onCell cell (lists first) = [] := by
          apply List.filter_eq_nil_iff.mpr
          intro operation member found
          rw [on first operation member] at found
          exact same (of_decide_eq_true found).symm
        rw [none, List.nil_append]
        simp only [List.mem_cons, same, false_or]

theorem onCell_map {visited : List (Int × Int)} (nodup : visited.Nodup)
    {operation : Int × Int → Operation}
    (on : ∀ cell, (operation cell).cell = cell) (cell : Int × Int) :
    onCell cell (visited.map operation) =
      if cell ∈ visited then [operation cell] else [] := by
  rw [List.map_eq_flatMap]
  apply onCell_flatMap nodup
  intro other found member
  rw [List.mem_singleton.mp member, on]

theorem cellOperations_cell (order : List (Int × Int)) (cell : Int × Int) :
    ∀ operation ∈ cellOperations order rows cols cell,
      operation.cell = cell := by
  intro operation member
  rcases List.mem_append.mp member with front | last
  · rcases List.mem_cons.mp front with rfl | added
    · rfl
    · obtain ⟨offset, _, rfl⟩ := List.mem_map.mp added
      rfl
  · rw [List.mem_singleton.mp last]
    rfl

theorem fusedOperations_schedule :
    Schedule fusedOffsets.tail rows cols (fusedOperations rows cols) := by
  have sweeps := rowByRow_sweeps 0 rows 0 cols
  constructor
  · intro operation member
    obtain ⟨cell, visited, found⟩ := List.mem_flatMap.mp member
    rw [cellOperations_cell _ cell operation found]
    exact (sweeps.mem_iff cell).mp visited
  · intro cell inside
    rw [fusedOperations, onCell_flatMap sweeps.nodup
      (cellOperations_cell fusedOffsets.tail),
      if_pos ((sweeps.mem_iff cell).mpr inside)]

theorem mem_pass {order : Order}
    (sweeps : ∀ firstRow lastRow firstCol lastCol : Int,
      Sweeps (order firstRow lastRow firstCol lastCol)
        (rectangle firstRow lastRow firstCol lastCol))
    {cell offset : Int × Int} :
    cell ∈ order (max 0 (-offset.1)) (min rows (rows - offset.1))
        (max 0 (-offset.2)) (min cols (cols - offset.2)) ↔
      cell ∈ cells rows cols ∧ cell + offset ∈ cells rows cols := by
  rw [(sweeps _ _ _ _).mem_iff, mem_rectangle, mem_cells, mem_cells,
    Prod.fst_add, Prod.snd_add]
  omega

theorem flatMap_branch {α β : Type*} (members : List α) (condition : α → Prop)
    [DecidablePred condition] (operation : α → β) :
    (members.flatMap fun member =>
        if condition member then [operation member] else []) =
      (members.filter fun member => condition member).map operation := by
  induction members with
  | nil => rfl
  | cons member members ih =>
      rw [List.flatMap_cons, ih]
      by_cases holds : condition member <;> simp [holds]

theorem passes_schedule {order : Order}
    (sweeps : ∀ firstRow lastRow firstCol lastCol : Int,
      Sweeps (order firstRow lastRow firstCol lastCol)
        (rectangle firstRow lastRow firstCol lastCol)) :
    Schedule neighbours rows cols (passes order rows cols) := by
  have whole := sweeps 0 rows 0 cols
  constructor
  · intro operation member
    rcases List.mem_append.mp member with set | member
    · obtain ⟨cell, visited, rfl⟩ := List.mem_map.mp set
      exact (whole.mem_iff cell).mp visited
    · rcases List.mem_append.mp member with added | divided
      · obtain ⟨offset, _, added⟩ := List.mem_flatMap.mp added
        obtain ⟨cell, visited, rfl⟩ := List.mem_map.mp added
        exact ((mem_pass sweeps).mp visited).1
      · obtain ⟨cell, visited, rfl⟩ := List.mem_map.mp divided
        exact (whole.mem_iff cell).mp visited
  · intro cell inside
    have visited := (whole.mem_iff cell).mpr inside
    have adds : onCell cell (neighbours.flatMap (pass order rows cols)) =
        (neighbours.filter fun offset => cell + offset ∈ cells rows cols).map
          fun offset => addOffset offset cell := by
      rw [onCell, List.filter_flatMap, ← flatMap_branch]
      refine List.flatMap_congr fun offset _ => ?_
      refine (onCell_map (sweeps _ _ _ _).nodup (fun _ => rfl) cell).trans ?_
      simp only [mem_pass sweeps, inside, true_and]
    rw [passes, onCell_append, onCell_append, adds,
      onCell_map whole.nodup (fun _ => rfl),
      onCell_map whole.nodup (fun _ => rfl), if_pos visited, if_pos visited]
    rfl

end Schedules

end SystemsLabs.Mask
