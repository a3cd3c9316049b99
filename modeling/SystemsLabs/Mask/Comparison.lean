import SystemsLabs.Mask.Range

/-!
# The masks of two images

The new value of a cell depends on the cell and its neighbours only, rises with
them, and moves by no more than the farthest of them.  The weighted mean is
rounded towards zero, and `tdiv_le_add` says that this keeps distances.
-/

namespace SystemsLabs.Mask

open CellLoops

/-- A pixel of an image is at most `distance` above that of another one. -/
def Below (distance : Int) (image other : Image) (cell : Int × Int) : Prop :=
  (image cell).toInt ≤ (other cell).toInt + distance

instance (distance : Int) (image other : Image) (cell : Int × Int) :
    Decidable (Below distance image other cell) :=
  inferInstanceAs (Decidable (_ ≤ _))

/-- The cells that the new value of a cell depends on. -/
def neighbourhood (rows cols : Int) (cell : Int × Int) : List (Int × Int) :=
  (offsets.map fun offset => cell + offset).filter fun neighbour =>
    neighbour ∈ cells rows cols

theorem mem_neighbourhood {rows cols : Int} {cell neighbour : Int × Int} :
    neighbour ∈ neighbourhood rows cols cell ↔
      (∃ offset ∈ offsets, cell + offset = neighbour) ∧
        neighbour ∈ cells rows cols := by
  rw [neighbourhood, List.mem_filter, List.mem_map, decide_eq_true_iff]

/-- Division that is rounded towards zero keeps distances. -/
theorem tdiv_le_add {value other weight distance : Int} (positive : 0 < weight)
    (nonneg : 0 ≤ distance) (le : value ≤ other + distance * weight) :
    value.tdiv weight ≤ other.tdiv weight + distance := by
  have nonzero := Int.ne_of_gt positive
  have moved : (other + distance * weight) / weight =
      other / weight + distance := Int.add_mul_ediv_right other distance nonzero
  have forward := Int.mul_nonneg nonneg (Int.le_of_lt positive)
  have sign : weight.sign = 1 := Int.sign_eq_one_of_pos positive
  have multiple : weight ∣ distance * weight := ⟨distance, Int.mul_comm _ _⟩
  calc
    value.tdiv weight ≤ (other + distance * weight).tdiv weight :=
      Int.tdiv_le_tdiv positive le
    _ ≤ other.tdiv weight + distance := by
      rw [Int.tdiv_eq_ediv, Int.tdiv_eq_ediv, moved, sign]
      by_cases rounded : 0 ≤ other ∨ weight ∣ other
      · -- then the sum is rounded down too, or divided exactly
        have same : 0 ≤ other + distance * weight ∨
            weight ∣ other + distance * weight :=
          rounded.imp (fun positive => by omega) fun exactly =>
            Int.dvd_add exactly multiple
        rw [if_pos rounded, if_pos same]
        omega
      · rw [if_neg rounded]
        split <;> omega

section Sums

variable {first second : Image} {rows cols distance : Int} {cell : Int × Int}

theorem weightedSum_below
    (near : ∀ neighbour ∈ neighbourhood rows cols cell,
      Below distance first second neighbour) :
    weightedSum first rows cols cell ≤
      weightedSum second rows cols cell +
        distance * weightSum rows cols cell := by
  have positive : ∀ offset ∈ offsets, 0 ≤ offsetWeight offset := by decide
  have near : ∀ offset ∈ offsets, cell + offset ∈ cells rows cols →
      Below distance first second (cell + offset) :=
    fun offset member inside =>
      near _ (mem_neighbourhood.mpr ⟨⟨offset, member, rfl⟩, inside⟩)
  rw [weightSum, weightedSum, weightedSum]
  revert positive near
  induction offsets with
  | nil =>
      intro _ _
      simp only [List.map_nil, List.sum_nil]
      omega
  | cons offset rest ih =>
      intro positive near
      have later := ih
        (fun other member => positive other (List.mem_cons_of_mem _ member))
        fun other member => near other (List.mem_cons_of_mem _ member)
      have sign := positive offset List.mem_cons_self
      simp only [List.map_cons, List.sum_cons, Int.mul_add]
      by_cases inside : cell + offset ∈ cells rows cols
      · have here : (first (cell + offset)).toInt ≤
            (second (cell + offset)).toInt + distance :=
          near offset List.mem_cons_self inside
        have scaled := Int.mul_le_mul_of_nonneg_left here sign
        rw [Int.mul_add, Int.mul_comm _ distance] at scaled
        rw [if_pos inside, if_pos inside, if_pos inside]
        omega
      · rw [if_neg inside, if_neg inside, if_neg inside]
        omega

theorem maskValue_below (nonneg : 0 ≤ distance)
    (inside : cell ∈ cells rows cols)
    (near : ∀ neighbour ∈ neighbourhood rows cols cell,
      Below distance first second neighbour) :
    maskValue first rows cols cell ≤
      maskValue second rows cols cell + distance := by
  obtain ⟨large, _⟩ := weightSum_bounds inside
  exact tdiv_le_add (by omega) nonneg (weightedSum_below near)

theorem Masks.below {ω : Type} {newImage otherImage : Image}
    {images others : Images ω} (masks : Masks first newImage rows cols images)
    (othersMask : Masks second otherImage rows cols others)
    (nonneg : 0 ≤ distance) (inside : cell ∈ cells rows cols)
    (near : ∀ neighbour ∈ neighbourhood rows cols cell,
      Below distance first second neighbour) :
    Below distance images.newImage others.newImage cell := by
  rw [Below, masks.inside cell inside, othersMask.inside cell inside]
  exact maskValue_below nonneg inside near

end Sums

/-- Whatever the arrays for the results hold, a version of the mask moves no
pixel farther than the pixels around it. -/
theorem masks_nonexpansive {first second : Image} {rows cols distance : Int}
    (smallFirst : SmallValues first rows cols)
    (smallSecond : SmallValues second rows cols) (nonneg : 0 ≤ distance)
    (weight otherWeight newImage otherImage : Image) {cell : Int × Int}
    (inside : cell ∈ cells rows cols)
    (near : ∀ neighbour ∈ neighbourhood rows cols cell,
      Below distance first second neighbour) :
    Below distance (baseMask first newImage rows cols).newImage
        (baseMask second otherImage rows cols).newImage cell ∧
      Below distance (mask1 weight first newImage rows cols).newImage
        (mask1 otherWeight second otherImage rows cols).newImage cell ∧
      Below distance (mask2 first newImage rows cols).newImage
        (mask2 second otherImage rows cols).newImage cell := by
  have reordered : fusedOffsets.Perm offsets := by decide
  refine ⟨?_, ?_, ?_⟩
  · exact ((baseMask_divides first newImage rows cols).masks smallFirst).below
      ((baseMask_divides second otherImage rows cols).masks smallSecond)
      nonneg inside near
  · exact ((mask1_divides first newImage rows cols weight).masks
      smallFirst).below
      ((mask1_divides second otherImage rows cols otherWeight).masks
        smallSecond) nonneg inside near
  · exact (((mask2_divides first newImage rows cols).perm reordered).masks
      smallFirst).below
      (((mask2_divides second otherImage rows cols).perm reordered).masks
        smallSecond) nonneg inside near

theorem rampImage_nonexpansive :
    Below 9 (baseMask rampImage (fun _ => 9) 2 3).newImage
      (baseMask smallImage (fun _ => 9) 2 3).newImage (0, 0) := by
  have smallRamp : SmallValues rampImage 2 3 := ⟨by decide, by decide⟩
  have small : SmallValues smallImage 2 3 := ⟨by decide, by decide⟩
  have near : ∀ neighbour ∈ neighbourhood 2 3 (0, 0),
      Below 9 rampImage smallImage neighbour := by decide
  exact (masks_nonexpansive smallRamp small (by decide) (fun _ => 0)
    (fun _ => 0) (fun _ => 9) (fun _ => 9) (by decide) near).1

end SystemsLabs.Mask
