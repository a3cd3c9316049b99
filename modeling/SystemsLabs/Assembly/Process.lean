import Mathlib.Algebra.Order.BigOperators.Group.Finset
import Mathlib.Data.Finset.Card
import Mathlib.Tactic.Ring
import Mathlib.Logic.Function.Iterate

/-!
# The exact Collatz process

Steps on natural numbers.  A run to 1 through numbers of 64 bits is shorter than
`2 ^ 63`: its odd values are different and below a third of `2 ^ 64`, and every
odd value makes up for fewer than two even ones.
-/

namespace SystemsLabs.Assembly

def collatzNext (value : Nat) : Nat :=
  if value % 2 = 0 then value / 2 else 3 * value + 1

/-- The process reaches 1 for the first time after `steps` steps, through
numbers of 64 bits. -/
structure ReachesOne (start steps : Nat) : Prop where
  last : collatzNext^[steps] start = 1
  earlier : ∀ step < steps, collatzNext^[step] start ≠ 1
  fits : ∀ step ≤ steps, collatzNext^[step] start < 2 ^ 64

namespace ReachesOne

variable {start steps : Nat}

theorem tail (reaches : ReachesOne start (steps + 1)) :
    start ≠ 1 ∧ ReachesOne (collatzNext start) steps := by
  refine ⟨reaches.earlier 0 (Nat.succ_pos _), ?_, ?_, ?_⟩
  · exact reaches.last
  · intro step before
    exact reaches.earlier (step + 1) (Nat.succ_lt_succ before)
  · intro step atMost
    exact reaches.fits (step + 1) (Nat.succ_le_succ atMost)

theorem positive (reaches : ReachesOne start steps) {step : Nat}
    (atMost : step ≤ steps) : 0 < collatzNext^[step] start := by
  have zero : collatzNext^[steps - step] 0 = 0 :=
    Function.iterate_fixed rfl _
  rw [Nat.pos_iff_ne_zero]
  intro same
  have last := reaches.last
  rw [← Nat.sub_add_cancel atMost, Function.iterate_add_apply, same, zero]
    at last
  exact Nat.zero_ne_one last

theorem injective (reaches : ReachesOne start steps) {first second : Nat}
    (order : first < second) (atMost : second ≤ steps) :
    collatzNext^[first] start ≠ collatzNext^[second] start := by
  intro same
  apply reaches.earlier (steps - second + first) (by omega)
  rw [Function.iterate_add_apply, same, ← Function.iterate_add_apply,
    Nat.sub_add_cancel atMost]
  exact reaches.last

/-- The steps taken from an odd value, among the first. -/
def oddSteps (start steps : Nat) : Finset Nat :=
  (Finset.range steps).filter fun step => collatzNext^[step] start % 2 = 1

theorem oddSteps_succ_even (even : collatzNext^[steps] start % 2 = 0) :
    oddSteps start (steps + 1) = oddSteps start steps := by
  have notOdd : ¬collatzNext^[steps] start % 2 = 1 := by omega
  rw [oddSteps, Finset.range_add_one, Finset.filter_insert, if_neg notOdd,
    oddSteps]

theorem oddSteps_succ_odd (odd : collatzNext^[steps] start % 2 = 1) :
    (oddSteps start (steps + 1)).card = (oddSteps start steps).card + 1 := by
  rw [oddSteps, Finset.range_add_one, Finset.filter_insert, if_pos odd,
    Finset.card_insert_of_notMem, oddSteps]
  intro member
  exact Finset.notMem_range_self (Finset.mem_of_mem_filter _ member)

/-- Odd values are different and below a third of `2 ^ 64`. -/
theorem oddSteps_card (reaches : ReachesOne start steps) :
    (oddSteps start steps).card ≤ 2 ^ 64 / 6 + 1 := by
  have maps : ∀ step ∈ oddSteps start steps,
      collatzNext^[step] start / 2 ∈ Finset.range (2 ^ 64 / 6 + 1) := by
    intro step member
    obtain ⟨inside, odd⟩ := Finset.mem_filter.mp member
    have next := reaches.fits (step + 1) (Finset.mem_range.mp inside)
    rw [Function.iterate_succ_apply', collatzNext, if_neg (by omega)] at next
    rw [Finset.mem_range]
    omega
  have distinct : Set.InjOn (fun step => collatzNext^[step] start / 2)
      (oddSteps start steps) := by
    intro first firstMember second secondMember same
    obtain ⟨firstInside, firstOdd⟩ := Finset.mem_filter.mp firstMember
    obtain ⟨secondInside, secondOdd⟩ := Finset.mem_filter.mp secondMember
    have equal : collatzNext^[first] start = collatzNext^[second] start := by
      dsimp only at same
      omega
    rcases Nat.lt_trichotomy first second with before | here | behind
    · exact (reaches.injective before
        (Nat.le_of_lt (Finset.mem_range.mp secondInside)) equal).elim
    · exact here
    · exact (reaches.injective behind
        (Nat.le_of_lt (Finset.mem_range.mp firstInside)) equal.symm).elim
  have bound := Finset.card_le_card_of_injOn _ maps distinct
  rwa [Finset.card_range] at bound

/-- An odd step multiplies by at most `10 / 3`, whose fourth power is below
`2 ^ 7`. -/
theorem odd_growth {value : Nat} (large : 3 ≤ value) :
    (3 * value + 1) ^ 4 ≤ 2 ^ 7 * value ^ 4 := by
  have linear : 3 * (3 * value + 1) ≤ 10 * value := by omega
  have powers := Nat.pow_le_pow_left linear 4
  rw [Nat.mul_pow, Nat.mul_pow 10] at powers
  have fourth := Nat.zero_le (value ^ 4)
  omega

/-- Every step halves the value, up to a factor for the odd ones. -/
theorem growth (reaches : ReachesOne start steps) {step : Nat}
    (atMost : step ≤ steps) :
    (collatzNext^[step] start) ^ 4 * 2 ^ (4 * step) ≤
      start ^ 4 * 2 ^ (11 * (oddSteps start step).card) := by
  induction step with
  | zero => exact Nat.le_refl _
  | succ step ih =>
      have before := ih (Nat.le_of_succ_le atMost)
      have positive := reaches.positive (Nat.le_of_succ_le atMost)
      have notOne := reaches.earlier step atMost
      rw [Function.iterate_succ_apply', collatzNext]
      generalize same : collatzNext^[step] start = value at *
      rcases Nat.mod_two_eq_zero_or_one value with even | odd
      · have halves : value = 2 * (value / 2) := by omega
        rw [if_pos even, oddSteps_succ_even (same ▸ even)]
        calc
          _ = (2 * (value / 2)) ^ 4 * 2 ^ (4 * step) := by ring
          _ = value ^ 4 * 2 ^ (4 * step) := by rw [← halves]
          _ ≤ _ := before
      · rw [if_neg (by omega), oddSteps_succ_odd (same ▸ odd)]
        have grown := odd_growth (show 3 ≤ value by omega)
        calc
          _ = (3 * value + 1) ^ 4 * (2 ^ 4 * 2 ^ (4 * step)) := by ring
          _ ≤ 2 ^ 7 * value ^ 4 * (2 ^ 4 * 2 ^ (4 * step)) :=
            Nat.mul_le_mul_right _ grown
          _ = 2 ^ 11 * (value ^ 4 * 2 ^ (4 * step)) := by ring
          _ ≤ 2 ^ 11 * (start ^ 4 * 2 ^ (11 * (oddSteps start step).card)) :=
            Nat.mul_le_mul_left _ before
          _ = _ := by ring

/-- The number of steps fits into a `long`. -/
theorem steps_lt (reaches : ReachesOne start steps)
    (small : start < 2 ^ 63) : steps < 2 ^ 63 := by
  have bound := reaches.growth (Nat.le_refl steps)
  have odds := reaches.oddSteps_card
  rw [reaches.last, Nat.one_pow, Nat.one_mul] at bound
  have first : start ^ 4 ≤ (2 ^ 63) ^ 4 :=
    Nat.pow_le_pow_left (Nat.le_of_lt small) 4
  have exponents : 2 ^ (4 * steps) ≤
      2 ^ (252 + 11 * (oddSteps start steps).card) := by
    rw [Nat.pow_add]
    exact bound.trans (Nat.mul_le_mul_right _ first)
  have linear := (Nat.pow_le_pow_iff_right (by decide)).mp exponents
  omega

end ReachesOne

end SystemsLabs.Assembly
