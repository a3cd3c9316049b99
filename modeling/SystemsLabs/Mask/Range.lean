import SystemsLabs.Mask.Operations
import Mathlib.Algebra.BigOperators.Group.Finset.Piecewise
import Mathlib.Algebra.Order.BigOperators.Group.Finset

/-!
# The range of the masks

When the pixels of an image lie between two bounds, so do all weighted means of
them.  `SafeFold` follows the value and the weight of one cell through the
operations on it; `safeRun_of_folds` puts the cells together again, for any
order in which the operations on different cells are executed.
-/

namespace SystemsLabs.Mask

open CellLoops

/-- The number of rows and columns of the arrays. -/
def N : Int := 2 * 1024

/-- Every pixel of an image lies between two bounds. -/
def PixelsIn (lo hi : Int) (image : Image) (rows cols : Int) : Prop :=
  ∀ cell ∈ cells rows cols,
    lo ≤ (image cell).toInt ∧ (image cell).toInt ≤ hi

namespace Operation

/-- What an operation does to the value and the weight of its cell. -/
def effect (image : Image) (pixel : BitVec 64 × BitVec 64) :
    Operation → BitVec 64 × BitVec 64
  | set cell => (weightCentre * image cell, weightCentre)
  | add weight _ neighbour => pixel + (weight * image neighbour, weight)
  | divide _ => (pixel.1.sdiv pixel.2, pixel.2)

/-- The part of `Safe` that depends on the cell, with bounds for a quotient. -/
def SafePixel (lo hi : Int) (image : Image)
    (pixel : BitVec 64 × BitVec 64) : Operation → Prop
  | set cell => FitsLong (weightCentre.toInt * (image cell).toInt)
  | add weight _ neighbour =>
      FitsLong (weight.toInt * (image neighbour).toInt) ∧
      FitsLong (pixel.1.toInt + weight.toInt * (image neighbour).toInt) ∧
      FitsLong (pixel.2.toInt + weight.toInt)
  | divide _ =>
      (4 ≤ pixel.2.toInt ∧ pixel.2.toInt ≤ 16) ∧
      lo ≤ (pixel.1.sdiv pixel.2).toInt ∧ (pixel.1.sdiv pixel.2).toInt ≤ hi

theorem execute_old {ω : Type} (weights : Weights ω) (images : Images ω)
    (operation : Operation) :
    (operation.execute weights images).oldImage = images.oldImage := by
  cases operation <;> rfl

theorem execute_pixel (images : Images Image) (operation : Operation)
    (cell : Int × Int) :
    (operation.execute perCell images).pixel cell =
      if cell = operation.cell then
        operation.effect images.oldImage (images.pixel cell)
      else images.pixel cell := by
  by_cases same : cell = operation.cell
  · rw [if_pos same, same]
    cases operation <;>
      simp [execute, effect, Images.pixel, perCell, Operation.cell]
  · rw [if_neg same]
    cases operation <;> simp only [Operation.cell] at same <;>
      simp [execute, Images.pixel, perCell, same]

end Operation

open Operation

/-- The operations of one cell are safe one after the other. -/
def SafeFold (lo hi : Int) (image : Image) :
    List Operation → BitVec 64 × BitVec 64 → Prop
  | [], _ => True
  | operation :: rest, pixel =>
      operation.SafePixel lo hi image pixel ∧
        SafeFold lo hi image rest (operation.effect image pixel)

section Bounds

variable {lo hi rows cols : Int} {image : Image} {cell : Int × Int}

theorem fitsLong_of_bounds {value : Int} (low : -2 ^ 32 ≤ value)
    (high : value ≤ 2 ^ 32) : FitsLong value :=
  ⟨by omega, by omega⟩

/-- The range of a sum of pixels whose weights add up to at most 16. -/
theorem weighted_bounds (low : -1 ≤ lo) (high : hi ≤ 65535)
    {value weight : Int} (atLeast : lo * weight ≤ value)
    (atMost : value ≤ hi * weight) (positive : 0 ≤ weight)
    (small : weight ≤ 16) : -16 ≤ value ∧ value ≤ 2 ^ 20 := by
  have below := Int.mul_le_mul_of_nonneg_right low positive
  have above := Int.mul_le_mul_of_nonneg_right high positive
  omega

/-- Division that truncates keeps the bounds, also of a negative sum. -/
theorem tdiv_bounds {value weight : Int} (positive : 0 < weight)
    (atLeast : lo * weight ≤ value) (atMost : value ≤ hi * weight) :
    lo ≤ value.tdiv weight ∧ value.tdiv weight ≤ hi := by
  have nonzero := Int.ne_of_gt positive
  have least := Int.tdiv_le_tdiv positive atLeast
  have most := Int.tdiv_le_tdiv positive atMost
  rw [Int.mul_tdiv_cancel _ nonzero] at least most
  exact ⟨least, most⟩

theorem toInt_sdiv {value weight : Int} (fits : FitsLong value)
    (positive : 0 < weight) (small : weight ≤ 16) :
    ((BitVec.ofInt 64 value).sdiv (BitVec.ofInt 64 weight)).toInt =
      value.tdiv weight := by
  have exact : (BitVec.ofInt 64 weight).toInt = weight :=
    toInt_ofInt_of_fitsLong (fitsLong_of_bounds (by omega) (by omega))
  have proper : BitVec.ofInt 64 weight ≠ -1#64 := by
    intro same
    rw [same] at exact
    have negative : (-1#64 : BitVec 64).toInt = -1 := rfl
    omega
  rw [BitVec.toInt_sdiv_of_ne_or_ne _ _ (.inr proper), exact,
    toInt_ofInt_of_fitsLong fits]

/-- The additions to a cell and its division, from a weighted sum of pixels
that has been formed so far. -/
theorem safeFold_adds (low : -1 ≤ lo) (high : hi ≤ 65535)
    (pixels : PixelsIn lo hi image rows cols) {todo : List (Int × Int)}
    (inside : ∀ offset ∈ todo, cell + offset ∈ cells rows cols)
    (listed : ∀ offset ∈ todo, 0 ≤ offsetWeight offset) :
    ∀ {value weight : Int}, lo * weight ≤ value → value ≤ hi * weight →
      4 ≤ weight → weight + (todo.map offsetWeight).sum ≤ 16 →
      SafeFold lo hi image
        (todo.map (fun offset => addOffset offset cell) ++ [.divide cell])
        (BitVec.ofInt 64 value, BitVec.ofInt 64 weight) := by
  induction todo with
  | nil =>
      intro value weight atLeast atMost large total
      rw [List.map_nil, List.sum_nil, Int.add_zero] at total
      have sizes := weighted_bounds low high atLeast atMost (by omega) total
      have fits : FitsLong value :=
        fitsLong_of_bounds (by omega) (by omega)
      have exact : (BitVec.ofInt 64 weight).toInt = weight :=
        toInt_ofInt_of_fitsLong (fitsLong_of_bounds (by omega) (by omega))
      refine ⟨⟨?_, ?_⟩, trivial⟩
      · rw [exact]
        exact ⟨large, total⟩
      · rw [toInt_sdiv fits (by omega) total]
        exact tdiv_bounds (by omega) atLeast atMost
  | cons offset todo ih =>
      intro value weight atLeast atMost large total
      obtain ⟨pixelLow, pixelHigh⟩ :=
        pixels _ (inside offset List.mem_cons_self)
      have positive := listed offset List.mem_cons_self
      have rest : 0 ≤ (todo.map offsetWeight).sum :=
        List.sum_nonneg fun weight member => by
          obtain ⟨other, later, rfl⟩ := List.mem_map.mp member
          exact listed other (List.mem_cons_of_mem _ later)
      rw [List.map_cons, List.sum_cons] at total
      have below := Int.mul_le_mul_of_nonneg_left pixelLow positive
      have above := Int.mul_le_mul_of_nonneg_left pixelHigh positive
      have nextLow : lo * (weight + offsetWeight offset) ≤
          value + offsetWeight offset * (image (cell + offset)).toInt := by
        rw [Int.mul_add, Int.mul_comm lo (offsetWeight offset)]
        omega
      have nextHigh : value + offsetWeight offset *
          (image (cell + offset)).toInt ≤
            hi * (weight + offsetWeight offset) := by
        rw [Int.mul_add, Int.mul_comm hi (offsetWeight offset)]
        omega
      have sizes := weighted_bounds low high atLeast atMost (by omega)
        (by omega)
      have nextSizes := weighted_bounds low high nextLow nextHigh (by omega)
        (by omega)
      have exact : (BitVec.ofInt 64 (offsetWeight offset)).toInt =
          offsetWeight offset :=
        toInt_ofInt_of_fitsLong (fitsLong_of_bounds (by omega) (by omega))
      have exactWeight : (BitVec.ofInt 64 weight).toInt = weight :=
        toInt_ofInt_of_fitsLong (fitsLong_of_bounds (by omega) (by omega))
      have exactValue : (BitVec.ofInt 64 value).toInt = value :=
        toInt_ofInt_of_fitsLong (fitsLong_of_bounds (by omega) (by omega))
      have added : (addOffset offset cell).effect image
          (BitVec.ofInt 64 value, BitVec.ofInt 64 weight) =
            (BitVec.ofInt 64 (value + offsetWeight offset *
              (image (cell + offset)).toInt),
              BitVec.ofInt 64 (weight + offsetWeight offset)) := by
        rw [BitVec.ofInt_add, BitVec.ofInt_mul, BitVec.ofInt_toInt,
          BitVec.ofInt_add]
        rfl
      refine ⟨⟨?_, ?_, ?_⟩, ?_⟩
      · rw [exact]
        exact fitsLong_of_bounds (by omega) (by omega)
      · rw [exact, exactValue]
        exact fitsLong_of_bounds (by omega) (by omega)
      · rw [exact, exactWeight]
        exact fitsLong_of_bounds (by omega) (by omega)
      · rw [added]
        exact ih (fun other later => inside other (List.mem_cons_of_mem _ later))
          (fun other later => listed other (List.mem_cons_of_mem _ later))
          nextLow nextHigh (by omega) (by omega)

theorem safeFold_cell (low : -1 ≤ lo) (high : hi ≤ 65535)
    (pixels : PixelsIn lo hi image rows cols)
    (inside : cell ∈ cells rows cols) {order : List (Int × Int)}
    (perm : order.Perm neighbours) (pixel : BitVec 64 × BitVec 64) :
    SafeFold lo hi image (cellOperations order rows cols cell) pixel := by
  obtain ⟨pixelLow, pixelHigh⟩ := pixels cell inside
  have weights : ∀ offset ∈ order, 0 ≤ offsetWeight offset := by
    intro offset member
    have all : ∀ offset ∈ neighbours, 0 ≤ offsetWeight offset := by decide
    exact all offset (perm.subset member)
  have total : (order.map offsetWeight).sum = 12 :=
    (perm.map offsetWeight).sum_eq.trans (by decide)
  have some := ((order.filter_sublist
    (p := fun offset => cell + offset ∈ cells rows cols)).map
      offsetWeight).sum_le_sum fun weight member => by
        obtain ⟨offset, listed, rfl⟩ := List.mem_map.mp member
        exact weights offset listed
  have start : (.set cell : Operation).effect image pixel =
      (BitVec.ofInt 64 (4 * (image cell).toInt), BitVec.ofInt 64 4) := by
    rw [BitVec.ofInt_mul, BitVec.ofInt_toInt]
    rfl
  have four : weightCentre.toInt = 4 := rfl
  refine ⟨?_, ?_⟩
  · change FitsLong (weightCentre.toInt * (image cell).toInt)
    rw [four]
    exact fitsLong_of_bounds (by omega) (by omega)
  · rw [start]
    apply safeFold_adds low high pixels
    · intro offset member
      exact of_decide_eq_true (List.mem_filter.mp member).2
    · intro offset member
      exact weights offset (List.mem_filter.mp member).1
    · omega
    · omega
    · omega
    · omega

theorem weightedSum_bounds (pixels : PixelsIn lo hi image rows cols) :
    lo * weightSum rows cols cell ≤ weightedSum image rows cols cell ∧
      weightedSum image rows cols cell ≤ hi * weightSum rows cols cell := by
  have positive : ∀ offset ∈ offsets, 0 ≤ offsetWeight offset := by decide
  rw [weightSum, weightedSum]
  revert positive
  induction offsets with
  | nil =>
      intro _
      exact ⟨le_of_eq (Int.mul_zero lo), le_of_eq (Int.mul_zero hi).symm⟩
  | cons offset rest ih =>
      intro positive
      obtain ⟨least, most⟩ := ih fun other later =>
        positive other (List.mem_cons_of_mem _ later)
      have sign := positive offset List.mem_cons_self
      simp only [List.map_cons, List.sum_cons, Int.mul_add]
      by_cases inside : cell + offset ∈ cells rows cols
      · obtain ⟨pixelLow, pixelHigh⟩ := pixels _ inside
        have below := Int.mul_le_mul_of_nonneg_left pixelLow sign
        have above := Int.mul_le_mul_of_nonneg_left pixelHigh sign
        rw [if_pos inside, if_pos inside, Int.mul_comm lo (offsetWeight _),
          Int.mul_comm hi (offsetWeight _)]
        omega
      · rw [if_neg inside, if_neg inside]
        omega

theorem maskValue_bounds (pixels : PixelsIn lo hi image rows cols)
    (inside : cell ∈ cells rows cols) :
    lo ≤ maskValue image rows cols cell ∧
      maskValue image rows cols cell ≤ hi := by
  obtain ⟨least, most⟩ := @weightedSum_bounds lo hi rows cols image cell pixels
  obtain ⟨large, _⟩ := weightSum_bounds inside
  exact tdiv_bounds (by omega) least most

end Bounds

section Runs

variable {lo hi rows cols total : Int} {image : Image}

theorem toInt_add_of_fitsLong {first second : BitVec 64}
    (fits : FitsLong (first.toInt + second.toInt)) :
    (first + second).toInt = first.toInt + second.toInt := by
  obtain ⟨below, above⟩ := fits
  rw [BitVec.toInt_add]
  exact Int.bmod_eq_of_le (by omega) (by omega)

theorem check_fits (low : -1 ≤ lo) (high : hi ≤ 65535) {count check value : Int}
    (some : 0 ≤ count) (few : count ≤ 2 ^ 22) (atLeast : lo * count ≤ check)
    (atMost : check ≤ hi * count) (valueLow : lo ≤ value)
    (valueHigh : value ≤ hi) : FitsLong (check + value) := by
  have below := Int.mul_le_mul_of_nonneg_right low some
  have above := Int.mul_le_mul_of_nonneg_right high some
  constructor <;> omega

/-- A run is safe when the operations on each cell are, whatever their order.
`total` bounds the number of divisions, of which those that are left are in
the list. -/
theorem safeRun_of_folds (low : -1 ≤ lo) (high : hi ≤ 65535)
    (few : total ≤ 2 ^ 22) {operations : List Operation} :
    ∀ {images : Images Image}, images.oldImage = image →
      (∀ cell, SafeFold lo hi image (onCell cell operations)
        (images.pixel cell)) →
      lo * (total - operations.countP isDivide) ≤ images.check.toInt →
      images.check.toInt ≤ hi * (total - operations.countP isDivide) →
      (operations.countP isDivide : Int) ≤ total →
      SafeRun perCell operations images := by
  induction operations with
  | nil =>
      intro images _ _ _ _ _
      exact trivial
  | cons operation rest ih =>
      intro images old folds atLeast atMost left
      have here := folds operation.cell
      have first : onCell operation.cell (operation :: rest) =
          operation :: onCell operation.cell rest :=
        List.filter_cons_of_pos (decide_eq_true rfl)
      rw [first] at here
      obtain ⟨safe, later⟩ := here
      have laterFolds : ∀ cell, SafeFold lo hi image (onCell cell rest)
          ((operation.execute perCell images).pixel cell) := by
        intro cell
        rw [execute_pixel, old]
        by_cases same : cell = operation.cell
        · rw [if_pos same, same]
          exact later
        · have skipped : onCell cell (operation :: rest) = onCell cell rest :=
            List.filter_cons_of_neg (by simpa using Ne.symm same)
          rw [if_neg same, ← skipped]
          exact folds cell
      have next := ih ((execute_old perCell images operation).trans old)
        laterFolds
      cases operation with
      | set cell =>
          subst old
          exact ⟨safe, next atLeast atMost left⟩
      | add weight cell neighbour =>
          subst old
          exact ⟨safe, next atLeast atMost left⟩
      | divide cell =>
          obtain ⟨divisor, valueLow, valueHigh⟩ := safe
          rw [List.countP_cons_of_pos rfl] at atLeast atMost left
          push_cast at atLeast atMost left
          have fits := check_fits low high (by omega) (by omega) atLeast
            atMost valueLow valueHigh
          have sum : ((divide cell).execute perCell images).check.toInt =
              images.check.toInt + ((images.pixel (divide cell).cell).1.sdiv
                (images.pixel (divide cell).cell).2).toInt :=
            toInt_add_of_fitsLong fits
          have counts : total - (rest.countP isDivide : Int) =
              total - (rest.countP isDivide + 1) + 1 := by omega
          rw [sum, counts, Int.mul_add, Int.mul_add, Int.mul_one,
            Int.mul_one] at next
          exact ⟨⟨divisor, fits⟩,
            next (by omega) (by omega) (by omega)⟩

/-- The number of elements, added up over the classes that they belong to. -/
theorem countP_eq_sum {α κ : Type*} [DecidableEq κ] (holds : α → Bool)
    (place : α → κ) {classes : Finset κ} {members : List α}
    (inside : ∀ member ∈ members, place member ∈ classes) :
    members.countP holds = ∑ key ∈ classes,
      (members.filter fun member => place member = key).countP holds := by
  induction members with
  | nil => exact (Finset.sum_const_zero).symm
  | cons member members ih =>
      have first := inside member List.mem_cons_self
      have step : ∀ key, ((member :: members).filter fun other =>
          place other = key).countP holds =
            (members.filter fun other => place other = key).countP holds +
              if place member = key then
                if holds member then 1 else 0 else 0 := by
        intro key
        by_cases same : place member = key <;>
          simp [List.countP_cons, same]
      simp only [step]
      rw [Finset.sum_add_distrib, Finset.sum_ite_eq, if_pos first,
        ← ih fun other later => inside other (List.mem_cons_of_mem _ later),
        List.countP_cons]

theorem cells_card (someRows : 0 ≤ rows) (someCols : 0 ≤ cols) :
    ((cells rows cols).card : Int) = rows * cols := by
  have sweeps := rowByRow_sweeps 0 rows 0 cols
  rw [cells, rectangle, List.toFinset_card_of_nodup sweeps.nodup, rowByRow,
    List.length_product, interval, interval, List.length_map, List.length_map,
    List.length_range, List.length_range, Nat.cast_mul, Int.sub_zero,
    Int.sub_zero, Int.toNat_of_nonneg someRows, Int.toNat_of_nonneg someCols]

theorem Schedule.divisions {order : List (Int × Int)}
    {operations : List Operation}
    (schedule : Schedule order rows cols operations) :
    operations.countP isDivide = (cells rows cols).card := by
  rw [countP_eq_sum isDivide Operation.cell schedule.inside,
    Finset.card_eq_sum_ones]
  refine Finset.sum_congr rfl fun cell inside => ?_
  have adds : ∀ members : List (Int × Int), (members.map fun offset =>
      addOffset offset cell).countP isDivide = 0 := by
    intro members
    apply List.countP_eq_zero.mpr
    intro operation member
    obtain ⟨offset, _, rfl⟩ := List.mem_map.mp member
    exact Bool.false_ne_true
  have each := congrArg (List.countP isDivide) (schedule.each cell inside)
  rw [cellOperations, List.countP_append, List.countP_cons, adds] at each
  exact each

/-- Any schedule of the operations is safe for small pixels. -/
theorem Schedule.safe (low : -1 ≤ lo) (high : hi ≤ 65535)
    (few : rows * cols ≤ 2 ^ 22) (someRows : 0 ≤ rows) (someCols : 0 ≤ cols)
    (pixels : PixelsIn lo hi image rows cols) {order : List (Int × Int)}
    (perm : order.Perm neighbours) {operations : List Operation}
    (schedule : Schedule order rows cols operations) {images : Images Image}
    (old : images.oldImage = image) (check : images.check = 0) :
    SafeRun perCell operations images := by
  have count := cells_card someRows someCols
  rw [← schedule.divisions] at count
  refine safeRun_of_folds low high few old ?_ ?_ ?_ (le_of_eq count)
  · intro cell
    by_cases inside : cell ∈ cells rows cols
    · rw [schedule.each cell inside]
      exact safeFold_cell low high pixels inside perm _
    · have none : onCell cell operations = [] := by
        apply List.filter_eq_nil_iff.mpr
        intro operation member found
        have same := of_decide_eq_true found
        exact inside (same ▸ schedule.inside operation member)
      rw [none]
      exact trivial
  · rw [count, Int.sub_self, Int.mul_zero, check]
    exact Int.le_refl 0
  · rw [count, Int.sub_self, Int.mul_zero, check]
    exact Int.le_refl 0

end Runs

/-- The images of two runs, apart from the weights. -/
structure SameImages (left : Images (BitVec 64)) (right : Images Image) :
    Prop where
  old : left.oldImage = right.oldImage
  new : left.newImage = right.newImage
  check : left.check = right.check

/-- The variable of `mask2` has the weight of the cell. -/
structure SameWeight (cell : Int × Int) (left : Images (BitVec 64))
    (right : Images Image) : Prop extends SameImages left right where
  weight : left.weight = right.weight cell

section Shared

variable {rows cols : Int} {cell : Int × Int} {left : Images (BitVec 64)}
  {right : Images Image}

theorem SameImages.set (same : SameImages left right) (cell : Int × Int) :
    SameWeight cell ((set cell).execute shared left)
      ((set cell).execute perCell right) := by
  refine ⟨⟨same.old, ?_, same.check⟩, ?_⟩
  · simp only [Operation.execute, same.old, same.new]
  · exact (Function.update_self cell weightCentre right.weight).symm

theorem SameWeight.execute (same : SameWeight cell left right)
    {operation : Operation} (here : operation.cell = cell) :
    SameWeight cell (operation.execute shared left)
      (operation.execute perCell right) := by
  cases operation with
  | set other =>
      cases here
      exact same.toSameImages.set _
  | add weight other neighbour =>
      cases here
      refine ⟨⟨same.old, ?_, same.check⟩, ?_⟩
      · simp only [Operation.execute, same.old, same.new]
      · simp [Operation.execute, shared, perCell, same.weight,
          Operation.cell]
  | divide other =>
      cases here
      have weight := same.weight
      refine ⟨⟨same.old, ?_, ?_⟩, weight⟩
      · simp [Operation.execute, shared, perCell, same.new, weight,
          Operation.cell]
      · simp [Operation.execute, shared, perCell, same.new, same.check,
          weight, Operation.cell]

theorem SameWeight.safe (same : SameWeight cell left right)
    {operation : Operation} (here : operation.cell = cell)
    (safe : operation.Safe perCell right) : operation.Safe shared left := by
  subst here
  have weight : shared.read left.weight operation.cell =
      perCell.read right.weight operation.cell := same.weight
  cases operation <;> simp only [Operation.cell] at weight <;>
    simpa only [Operation.Safe, same.old, same.new, same.check, weight]
      using safe

theorem SameWeight.run {operations : List Operation} :
    ∀ {left : Images (BitVec 64)} {right : Images Image},
      SameWeight cell left right →
      (∀ operation ∈ operations, operation.cell = cell) →
      SafeRun perCell operations right →
      SafeRun shared operations left ∧
        SameWeight cell (run shared operations left)
          (run perCell operations right) := by
  induction operations with
  | nil =>
      intro left right same _ _
      exact ⟨trivial, same⟩
  | cons operation rest ih =>
      intro left right same on safe
      have here := on operation List.mem_cons_self
      obtain ⟨later, final⟩ := ih (same.execute here)
        (fun other member => on other (List.mem_cons_of_mem _ member)) safe.2
      exact ⟨⟨same.safe here safe.1, later⟩, final⟩

/-- Cell after cell, the variable is set before it is used. -/
theorem SameImages.run {order visited : List (Int × Int)} :
    ∀ {left : Images (BitVec 64)} {right : Images Image},
      SameImages left right →
      SafeRun perCell
        (visited.flatMap (cellOperations order rows cols)) right →
      SafeRun shared
        (visited.flatMap (cellOperations order rows cols)) left := by
  induction visited with
  | nil =>
      intro left right _ _
      exact trivial
  | cons cell visited ih =>
      intro left right same safe
      rw [List.flatMap_cons, safeRun_append] at safe ⊢
      obtain ⟨first, rest⟩ := safe
      have on := @cellOperations_cell rows cols order cell
      rw [cellOperations, List.cons_append] at first rest on ⊢
      obtain ⟨set, others⟩ := first
      obtain ⟨safe, final⟩ := (same.set cell).run
        (fun operation member => on operation (List.mem_cons_of_mem _ member))
        others
      refine ⟨⟨?_, safe⟩, ih final.toSameImages rest⟩
      simpa only [Operation.Safe, same.old] using set

end Shared

section Bounded

variable {lo hi rows cols : Int} {image : Image}

theorem maskTotal_bounds (someRows : 0 ≤ rows) (someCols : 0 ≤ cols)
    (pixels : PixelsIn lo hi image rows cols) :
    lo * rows * cols ≤ ∑ cell ∈ cells rows cols, maskValue image rows cols cell ∧
      ∑ cell ∈ cells rows cols, maskValue image rows cols cell ≤
        hi * rows * cols := by
  have count := cells_card someRows someCols
  have least := Finset.card_nsmul_le_sum (cells rows cols) _ lo
    fun cell inside => (maskValue_bounds pixels inside).1
  have most := Finset.sum_le_card_nsmul (cells rows cols) _ hi
    fun cell inside => (maskValue_bounds pixels inside).2
  rw [nsmul_eq_mul, count, Int.mul_comm, ← Int.mul_assoc] at least most
  exact ⟨least, most⟩

theorem PixelsIn.small (low : -1 ≤ lo) (high : hi ≤ 65535)
    (few : rows * cols ≤ 2 ^ 22) (someRows : 0 ≤ rows) (someCols : 0 ≤ cols)
    (pixels : PixelsIn lo hi image rows cols) :
    SmallValues image rows cols := by
  constructor
  · intro cell inside
    obtain ⟨large, small⟩ := weightSum_bounds inside
    obtain ⟨least, most⟩ := @weightedSum_bounds lo hi rows cols image cell pixels
    have sizes := weighted_bounds low high least most (by omega) small
    exact fitsLong_of_bounds (by omega) (by omega)
  · obtain ⟨least, most⟩ := maskTotal_bounds someRows someCols pixels
    rw [Int.mul_assoc] at least most
    have some := Int.mul_nonneg someRows someCols
    have below := Int.mul_le_mul_of_nonneg_right low some
    have above := Int.mul_le_mul_of_nonneg_right high some
    constructor <;> omega

end Bounded

/-- What a version of the mask does within the range of the pixels.
`operations` are its assignments. -/
structure StaysInRange (lo hi rows cols : Int) {ω : Type} (weights : Weights ω)
    (operations : List Operation) (start final : Images ω) : Prop where
  computes : run weights operations start = final
  safe : SafeRun weights operations start
  pixels : PixelsIn lo hi final.newImage rows cols
  check : lo * rows * cols ≤ final.check.toInt ∧
    final.check.toInt ≤ hi * rows * cols
  constant : lo = hi → ∀ cell ∈ cells rows cols,
    final.newImage cell = start.oldImage cell

theorem Masks.staysInRange {lo hi rows cols : Int} {newImage : Image}
    {ω : Type} {weights : Weights ω} {operations : List Operation}
    {start final : Images ω} (someRows : 0 ≤ rows) (someCols : 0 ≤ cols)
    (pixels : PixelsIn lo hi start.oldImage rows cols)
    (masks : Masks start.oldImage newImage rows cols final)
    (computes : final = run weights operations start)
    (safe : SafeRun weights operations start) :
    StaysInRange lo hi rows cols weights operations start final := by
  have values : PixelsIn lo hi final.newImage rows cols := by
    intro cell inside
    rw [masks.inside cell inside]
    exact maskValue_bounds pixels inside
  refine ⟨computes.symm, safe, values, ?_, ?_⟩
  · rw [masks.check, Finset.sum_congr rfl masks.inside]
    exact maskTotal_bounds someRows someCols pixels
  · intro same cell inside
    have old := pixels cell inside
    have new := values cell inside
    exact BitVec.eq_of_toInt_eq (by omega)

/-- The three masks keep the range of the pixels, with every intermediate value
inside a `long` and every divisor between 4 and 16. -/
theorem masks_stay_in_range {lo hi rows cols : Int} (low : -1 ≤ lo)
    (_ordered : lo ≤ hi) (high : hi ≤ 65535) (someRows : 0 ≤ rows)
    (fewRows : rows ≤ N) (someCols : 0 ≤ cols) (fewCols : cols ≤ N)
    (weight oldImage newImage : Image)
    (pixels : PixelsIn lo hi oldImage rows cols) :
    StaysInRange lo hi rows cols perCell (passes columnByColumn rows cols)
        { oldImage := oldImage, newImage := newImage, weight := fun _ => 0,
          check := 0 }
        (baseMask oldImage newImage rows cols) ∧
      StaysInRange lo hi rows cols perCell (passes rowByRow rows cols)
        { oldImage := oldImage, newImage := newImage, weight := weight,
          check := 0 }
        (mask1 weight oldImage newImage rows cols) ∧
      StaysInRange lo hi rows cols shared (fusedOperations rows cols)
        { oldImage := oldImage, newImage := newImage, weight := 0,
          check := 0 }
        (mask2 oldImage newImage rows cols) := by
  have few : rows * cols ≤ 2 ^ 22 :=
    (Int.mul_le_mul fewRows fewCols someCols (by decide)).trans (by decide)
  have small := pixels.small low high few someRows someCols
  have safe : ∀ {order : List (Int × Int)} {operations : List Operation},
      order.Perm neighbours → Schedule order rows cols operations →
      ∀ weight : Image, SafeRun perCell operations
        { oldImage := oldImage, newImage := newImage, weight := weight,
          check := 0 } :=
    fun perm schedule weight =>
      schedule.safe low high few someRows someCols pixels perm rfl rfl
  have reordered : fusedOffsets.Perm offsets := by decide
  have fused := safe (by decide) fusedOperations_schedule fun _ => 0
  refine ⟨?_, ?_, ?_⟩
  · exact ((baseMask_divides oldImage newImage rows cols).masks
      small).staysInRange someRows someCols pixels
        (baseMask_run oldImage newImage rows cols)
        (safe (.refl _) (passes_schedule columnByColumn_sweeps) _)
  · exact ((mask1_divides oldImage newImage rows cols weight).masks
      small).staysInRange someRows someCols pixels
        (mask1_run oldImage newImage rows cols weight)
        (safe (.refl _) (passes_schedule rowByRow_sweeps) _)
  · exact (((mask2_divides oldImage newImage rows cols).perm
      reordered).masks small).staysInRange someRows someCols pixels
        (mask2_run oldImage newImage)
        (SameImages.run ⟨rfl, rfl, rfl⟩ fused)

/-- Pixels from -1 to 16 in two rows and three columns. -/
def rampImage : Image := fun cell =>
  BitVec.ofInt 64 (7 * cell.1 + 5 * cell.2 - 1)

theorem rampImage_in_range :
    PixelsIn (-1) 16 rampImage 2 3 ∧
      StaysInRange (-1) 16 2 3 shared (fusedOperations 2 3)
        { oldImage := rampImage, newImage := fun _ => 9, weight := 0,
          check := 0 }
        (mask2 rampImage (fun _ => 9) 2 3) := by
  have pixels : PixelsIn (-1) 16 rampImage 2 3 := by unfold PixelsIn; decide
  exact ⟨pixels, (masks_stay_in_range (by decide) (by decide) (by decide)
    (by decide) (by decide) (by decide) (by decide) (fun _ => 0) rampImage
    (fun _ => 9) pixels).2.2⟩

end SystemsLabs.Mask
