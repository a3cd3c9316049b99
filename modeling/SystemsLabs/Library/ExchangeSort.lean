import SystemsLabs.Library.Rearrangement
import Mathlib.Order.Interval.Set.Basic
import Mathlib.Order.Lattice

/-!
# Exchange sort

A pass compares the cell at `place` with the `count` cells from `first` on and
exchanges the two when the later one is smaller.  After the pass that starts
right behind `place` the cell holds a least value of the rest; one pass for every
place sorts the array.  Cells are compared by a key.
-/

namespace SystemsLabs.ExchangeSort

open Rearrangement

variable {α κ : Type*} [LinearOrder κ] (key : α → κ)

def exchange (place other : Nat) (array : Nat → α) : Nat → α :=
  if key (array other) < key (array place) then
    array ∘ Equiv.swap place other
  else array

def pass (place : Nat) : Nat → Nat → (Nat → α) → Nat → α
  | _, 0, array => array
  | first, count + 1, array =>
      pass place (first + 1) count (exchange key place first array)

def sortFrom : Nat → Nat → (Nat → α) → Nat → α
  | _, 0, array => array
  | place, count + 1, array =>
      sortFrom (place + 1) count (pass key place (place + 1) count array)

variable {key}

section Exchange

variable {place other index : Nat} {array : Nat → α} {region : Set Nat}

theorem exchange_rearranges (here : place ∈ region) (there : other ∈ region) :
    Rearranges region array (exchange key place other array) := by
  unfold exchange
  split
  · exact .swap array here there
  · exact .refl region array

theorem exchange_place_le :
    key (exchange key place other array place) ≤ key (array place) ∧
      key (exchange key place other array place) ≤
        key (exchange key place other array other) := by
  unfold exchange
  split
  · rename_i smaller
    rw [Function.comp_apply, Equiv.swap_apply_left, Function.comp_apply,
      Equiv.swap_apply_right]
    exact ⟨le_of_lt smaller, le_of_lt smaller⟩
  · rename_i large
    exact ⟨le_refl _, le_of_not_gt large⟩

theorem exchange_other (notPlace : index ≠ place) (notOther : index ≠ other) :
    exchange key place other array index = array index := by
  unfold exchange
  split
  · rw [Function.comp_apply, Equiv.swap_apply_of_ne_of_ne notPlace notOther]
  · rfl

end Exchange

section Pass

variable {place first count index : Nat} {array : Nat → α}

theorem pass_rearranges {region : Set Nat} (here : place ∈ region)
    (there : ∀ index, first ≤ index → index < first + count →
      index ∈ region) :
    Rearranges region array (pass key place first count array) := by
  induction count generalizing first array with
  | zero => exact .refl region array
  | succ count ih =>
      have exchanged : Rearranges region array
          (exchange key place first array) :=
        exchange_rearranges here (there first (Nat.le_refl _) (by omega))
      apply exchanged.trans
      apply ih
      intro index low high
      exact there index (by omega) (by omega)

theorem pass_before (notPlace : index ≠ place) (before : index < first) :
    pass key place first count array index = array index := by
  induction count generalizing first array with
  | zero => rfl
  | succ count ih =>
      rw [pass, ih (Nat.lt_succ_of_lt before)]
      exact exchange_other notPlace (Nat.ne_of_lt before)

theorem pass_place_le :
    key (pass key place first count array place) ≤ key (array place) := by
  induction count generalizing first array with
  | zero => exact le_refl _
  | succ count ih => exact ih.trans exchange_place_le.1

/-- A pass leaves a least value of the cells it has seen. -/
theorem pass_least (behind : place < first) (low : first ≤ index)
    (high : index < first + count) :
    key (pass key place first count array place) ≤
      key (pass key place first count array index) := by
  induction count generalizing first array with
  | zero => omega
  | succ count ih =>
      rcases Nat.eq_or_lt_of_le low with rfl | later
      · rw [pass, pass_before (Nat.ne_of_gt behind) (Nat.lt_succ_self _)]
        exact pass_place_le.trans exchange_place_le.2
      · exact ih (Nat.lt_succ_of_lt behind) later (by omega)

end Pass

/-- No cell in front of `place` is larger than a cell behind it. -/
def SortedUpTo (key : α → κ) (place length : Nat) (array : Nat → α) : Prop :=
  ∀ left right, left < right → left < place → right < length →
    key (array left) ≤ key (array right)

section Sorting

variable {place count : Nat} {array : Nat → α}

theorem SortedUpTo.pass
    (sorted : SortedUpTo key place (place + (count + 1)) array) :
    SortedUpTo key (place + 1) (place + (count + 1))
      (pass key place (place + 1) count array) := by
  intro left right order front inside
  rcases Nat.lt_succ_iff_lt_or_eq.mp front with before | rfl
  · rw [pass_before (Nat.ne_of_lt before) (Nat.lt_succ_of_lt before)]
    by_cases early : right < place
    · rw [pass_before (Nat.ne_of_lt early) (Nat.lt_succ_of_lt early)]
      exact sorted left right order before inside
    · have rearranges : Rearranges
          (Set.Ico place (place + (count + 1))) array
          (ExchangeSort.pass key place (place + 1) count array) := by
        apply pass_rearranges
        · exact ⟨Nat.le_refl _, by omega⟩
        · intro index low high
          exact ⟨by omega, by omega⟩
      obtain ⟨origin, ⟨low, high⟩, same⟩ :=
        rearranges.exists_place ⟨Nat.le_of_not_lt early, inside⟩
      rw [same]
      exact sorted left origin (Nat.lt_of_lt_of_le before low) before high
  · exact pass_least (Nat.lt_succ_self _) order (by omega)

theorem sortFrom_rearranges {region : Set Nat}
    (inside : ∀ index, place ≤ index → index < place + count →
      index ∈ region) :
    Rearranges region array (sortFrom key place count array) := by
  induction count generalizing place array with
  | zero => exact .refl region array
  | succ count ih =>
      have passed : Rearranges region array
          (pass key place (place + 1) count array) := by
        apply pass_rearranges
        · exact inside place (Nat.le_refl _) (by omega)
        · intro index low high
          exact inside index (by omega) (by omega)
      apply passed.trans
      apply ih
      intro index low high
      exact inside index (by omega) (by omega)

theorem sortFrom_sorted
    (sorted : SortedUpTo key place (place + count) array) :
    SortedUpTo key (place + count) (place + count)
      (sortFrom key place count array) := by
  induction count generalizing place array with
  | zero => exact sorted
  | succ count ih =>
      have next := sorted.pass
      have shift : place + (count + 1) = place + 1 + count := by omega
      rw [shift] at next ⊢
      exact ih next

theorem sort_sorted (length : Nat) (array : Nat → α) :
    SortedUpTo key length length (sortFrom key 0 length array) := by
  have start : SortedUpTo key 0 (0 + length) array :=
    fun _ _ _ front => (Nat.not_lt_zero _ front).elim
  have sorted := sortFrom_sorted start
  rw [Nat.zero_add] at sorted
  exact sorted

end Sorting

end SystemsLabs.ExchangeSort
