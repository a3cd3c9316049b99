import Mathlib.Data.List.Nodup
import Mathlib.Data.List.Perm.Basic
import Mathlib.Logic.Equiv.Basic
import Mathlib.Data.Set.Basic

/-!
# Rearranging part of an array

An array is a function of its indices.  `Rearranges region` relates two arrays
of which the second holds the values of the first in another order, where only
values inside `region` have moved.
-/

namespace SystemsLabs.Rearrangement

variable {ι α : Type*}

def Rearranges (region : Set ι) (before after : ι → α) : Prop :=
  ∃ places : Equiv.Perm ι, (∀ place ∉ region, places place = place) ∧
    after = before ∘ places

namespace Rearranges

variable {region larger : Set ι} {first second third : ι → α}

theorem refl (region : Set ι) (array : ι → α) :
    Rearranges region array array :=
  ⟨Equiv.refl ι, fun _ _ => rfl, rfl⟩

theorem trans (earlier : Rearranges region first second)
    (later : Rearranges region second third) :
    Rearranges region first third := by
  obtain ⟨places, fixed, rfl⟩ := earlier
  obtain ⟨others, othersFixed, rfl⟩ := later
  refine ⟨others.trans places, ?_, rfl⟩
  intro place outside
  rw [Equiv.trans_apply, othersFixed place outside, fixed place outside]

theorem mono (rearranges : Rearranges region first second)
    (inside : region ⊆ larger) : Rearranges larger first second := by
  obtain ⟨places, fixed, rfl⟩ := rearranges
  exact ⟨places, fun place outside => fixed place (mt (@inside place) outside),
    rfl⟩

theorem swap [DecidableEq ι] (array : ι → α) {left right : ι}
    (leftInside : left ∈ region) (rightInside : right ∈ region) :
    Rearranges region array (array ∘ Equiv.swap left right) := by
  refine ⟨Equiv.swap left right, ?_, rfl⟩
  intro place outside
  apply Equiv.swap_apply_of_ne_of_ne
  · rintro rfl
    exact outside leftInside
  · rintro rfl
    exact outside rightInside

theorem outside (rearranges : Rearranges region first second) {place : ι}
    (away : place ∉ region) : second place = first place := by
  obtain ⟨places, fixed, rfl⟩ := rearranges
  rw [Function.comp_apply, fixed place away]

theorem exists_place (rearranges : Rearranges region first second) {place : ι}
    (inside : place ∈ region) :
    ∃ origin ∈ region, second place = first origin := by
  obtain ⟨places, fixed, rfl⟩ := rearranges
  refine ⟨places place, ?_, rfl⟩
  by_contra away
  have same := places.injective (fixed (places place) away)
  rw [same] at away
  exact away inside

/-- The values at a list of places of the region are permuted. -/
theorem perm (rearranges : Rearranges region first second) {places : List ι}
    (nodup : places.Nodup) (all : ∀ place, place ∈ places ↔ place ∈ region) :
    (places.map second).Perm (places.map first) := by
  obtain ⟨moves, fixed, rfl⟩ := rearranges
  have stays : ∀ place, moves place ∈ region ↔ place ∈ region := by
    intro place
    constructor
    · intro inside
      by_contra away
      rw [fixed place away] at inside
      exact away inside
    · intro inside
      by_contra away
      have same := moves.injective (fixed (moves place) away)
      rw [same] at away
      exact away inside
  rw [← List.map_map]
  apply List.Perm.map
  have moved : (places.map moves).Nodup :=
    (List.nodup_map_iff moves.injective).mpr nodup
  apply (List.perm_ext_iff_of_nodup moved nodup).mpr
  intro place
  rw [List.mem_map, all]
  constructor
  · rintro ⟨origin, member, rfl⟩
    exact (stays origin).mpr ((all origin).mp member)
  · intro inside
    refine ⟨moves.symm place, ?_, moves.apply_symm_apply place⟩
    rw [all, ← stays, moves.apply_symm_apply]
    exact inside

end Rearranges

end SystemsLabs.Rearrangement
