import Mathlib.Data.Finset.Card
import Mathlib.Data.Nat.Find
import Mathlib.Logic.Function.Iterate

/-!
# The first visit of an orbit

The orbit of a point under a function, up to its first visit of a target.  No
point occurs twice before it, which bounds the time over a finite type.
-/

namespace SystemsLabs.Orbit

variable {α : Type*} {next : α → α} {start target : α} {steps : Nat}

/-- The target is visited for the first time after `steps` steps. -/
structure FirstVisit (next : α → α) (start target : α) (steps : Nat) : Prop where
  last : next^[steps] start = target
  earlier : ∀ step < steps, next^[step] start ≠ target

theorem exists_firstVisit (visits : ∃ steps, next^[steps] start = target) :
    ∃ steps, FirstVisit next start target steps := by
  classical
  exact ⟨Nat.find visits, Nat.find_spec visits,
    fun step before => Nat.find_min visits before⟩

namespace FirstVisit

theorem tail (visit : FirstVisit next start target (steps + 1)) :
    start ≠ target ∧ FirstVisit next (next start) target steps :=
  ⟨visit.earlier 0 (Nat.succ_pos _), visit.last,
    fun step before => visit.earlier (step + 1) (Nat.succ_lt_succ before)⟩

theorem injective (visit : FirstVisit next start target steps)
    {first second : Nat} (order : first < second) (atMost : second ≤ steps) :
    next^[first] start ≠ next^[second] start := by
  intro same
  apply visit.earlier (steps - second + first) (by omega)
  rw [Function.iterate_add_apply, same, ← Function.iterate_add_apply,
    Nat.sub_add_cancel atMost]
  exact visit.last

theorem steps_lt (visit : FirstVisit next start target steps) {code : α → Nat}
    (distinct : Function.Injective code) {bound : Nat}
    (bounded : ∀ point, code point < bound) : steps < bound := by
  have maps : ∀ step ∈ Finset.range (steps + 1),
      code (next^[step] start) ∈ Finset.range bound :=
    fun step _ => Finset.mem_range.mpr (bounded _)
  have points : Set.InjOn (fun step => code (next^[step] start))
      (Finset.range (steps + 1)) := by
    intro first firstInside second secondInside same
    rw [Finset.coe_range, Set.mem_Iio] at firstInside secondInside
    have equal := distinct same
    rcases Nat.lt_trichotomy first second with before | here | behind
    · exact (visit.injective before (by omega) equal).elim
    · exact here
    · exact (visit.injective behind (by omega) equal.symm).elim
  have few := Finset.card_le_card_of_injOn _ maps points
  rwa [Finset.card_range, Finset.card_range] at few

end FirstVisit

end SystemsLabs.Orbit
