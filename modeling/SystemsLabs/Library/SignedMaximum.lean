import Mathlib.Data.BitVec

/-!
# The signed maximum of a list

`larger` is what a loop does that keeps the larger of two values; over a list it
finds a maximum of the values and of the one it starts with.
-/

namespace SystemsLabs.SignedMaximum

variable {width : Nat}

/-- The value that is kept; the old one when they are equal. -/
def larger (best value : BitVec width) : BitVec width :=
  if value.toInt ≤ best.toInt then best else value

def IsMaximum (value : BitVec width) (values : List (BitVec width)) : Prop :=
  value ∈ values ∧ ∀ other ∈ values, other.toInt ≤ value.toInt

variable {best value other : BitVec width} {values : List (BitVec width)}

theorem larger_of_le (le : value.toInt ≤ best.toInt) :
    larger best value = best :=
  if_pos le

theorem larger_of_lt (lt : best.toInt < value.toInt) :
    larger best value = value :=
  if_neg (Int.not_le.mpr lt)

theorem larger_mem (best value : BitVec width) :
    larger best value = best ∨ larger best value = value := by
  unfold larger
  split
  · exact .inl rfl
  · exact .inr rfl

theorem le_larger (best value : BitVec width) :
    best.toInt ≤ (larger best value).toInt ∧
      value.toInt ≤ (larger best value).toInt := by
  rcases Int.lt_or_le best.toInt value.toInt with lt | le
  · rw [larger_of_lt lt]
    exact ⟨Int.le_of_lt lt, Int.le_refl _⟩
  · rw [larger_of_le le]
    exact ⟨Int.le_refl _, le⟩

theorem foldl_larger (best : BitVec width) (values : List (BitVec width)) :
    IsMaximum (values.foldl larger best) (best :: values) := by
  induction values generalizing best with
  | nil =>
      refine ⟨List.mem_singleton_self best, ?_⟩
      intro other member
      rw [List.mem_singleton.mp member]
      exact Int.le_refl _
  | cons value values ih =>
      obtain ⟨member, bound⟩ := ih (larger best value)
      have kept := bound _ List.mem_cons_self
      obtain ⟨bestLe, valueLe⟩ := le_larger best value
      rw [List.foldl_cons]
      constructor
      · rcases List.mem_cons.mp member with same | later
        · rcases larger_mem best value with keeps | takes
          · rw [same, keeps]
            exact List.mem_cons_self
          · rw [same, takes]
            exact List.mem_cons_of_mem _ List.mem_cons_self
        · exact List.mem_cons_of_mem _ (List.mem_cons_of_mem _ later)
      · intro other listed
        rcases List.mem_cons.mp listed with rfl | rest
        · exact bestLe.trans kept
        · rcases List.mem_cons.mp rest with rfl | later
          · exact valueLe.trans kept
          · exact bound other (List.mem_cons_of_mem _ later)

theorem IsMaximum.unique (maximum : IsMaximum value values)
    (otherMaximum : IsMaximum other values) : value = other := by
  apply BitVec.eq_of_toInt_eq
  exact Int.le_antisymm (otherMaximum.2 value maximum.1)
    (maximum.2 other otherMaximum.1)

/-- The smallest number does not matter in front of other values. -/
theorem IsMaximum.drop_intMin
    (maximum : IsMaximum value (BitVec.intMin width :: values))
    (some : values ≠ []) : IsMaximum value values := by
  obtain ⟨member, bound⟩ := maximum
  refine ⟨?_, fun other listed =>
    bound other (List.mem_cons_of_mem _ listed)⟩
  rcases List.mem_cons.mp member with rfl | listed
  · obtain ⟨first, rest, rfl⟩ := List.exists_cons_of_ne_nil some
    have below := bound first (List.mem_cons_of_mem _ List.mem_cons_self)
    have above : (BitVec.intMin width).toInt ≤ first.toInt :=
      BitVec.toInt_intMin_le first
    rw [BitVec.eq_of_toInt_eq (Int.le_antisymm above below)]
    exact List.mem_cons_self
  · exact listed

theorem IsMaximum.reverse (maximum : IsMaximum value values.reverse) :
    IsMaximum value values :=
  ⟨List.mem_reverse.mp maximum.1, fun other listed =>
    maximum.2 other (List.mem_reverse.mpr listed)⟩

end SystemsLabs.SignedMaximum
