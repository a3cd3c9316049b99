import Mathlib.Algebra.Group.Int.Defs
import Mathlib.Algebra.Group.Nat.Defs
import Mathlib.Data.Int.Basic

/-!
# Machine integers

Conversions to the integer types of C.  Unsigned values are naturals, signed
ones integers; the lemmas say when a conversion changes nothing.
-/

namespace SystemsLabs

/-- Conversion to `int`. -/
def toInt (value : Int) : Int := value.bmod (2 ^ 32)

/-- Conversion to `intptr_t`. -/
def toIntptr (value : Int) : Int := value.bmod (2 ^ 64)

/-- Reduction to `uint32_t`. -/
def toUint32 (value : Int) : Nat := (value % 2 ^ 32).toNat

/-- Reduction to `uint64_t`. -/
def toUint64 (value : Int) : Nat := (value % 2 ^ 64).toNat

theorem toInt_lt (value : Int) : toInt value < 2 ^ 31 :=
  Int.bmod_lt (by decide)

theorem toInt_of_bounds {value : Int} (low : -2 ^ 31 ≤ value)
    (high : value < 2 ^ 31) : toInt value = value := by
  unfold toInt
  rw [Int.bmod_eq_of_le] <;> omega

theorem toInt_of_nat {value : Int} (number : Nat) (same : value = number)
    (small : number < 2 ^ 31) : toInt value = number := by
  rw [same]
  apply toInt_of_bounds <;> omega

theorem toInt_positive (number : Nat) (small : number < 2 ^ 32)
    (positive : 0 < toInt number) : 0 < number ∧ number < 2 ^ 31 := by
  rw [toInt, Int.bmod] at positive
  split at positive <;> omega

theorem toUint32_natCast (number : Nat) :
    toUint32 number = number % 2 ^ 32 := by
  rw [toUint32]
  omega

theorem toInt_emod (value : Int) : toInt value % 2 ^ 32 = value % 2 ^ 32 :=
  Int.bmod_emod

theorem toUint32_toInt (value : Int) :
    toUint32 (toInt value) = toUint32 value := by
  rw [toUint32, toInt_emod, toUint32]

theorem toUint32_of_nat {value : Int} (number : Nat) (same : value = number)
    (small : number < 2 ^ 32) : toUint32 value = number := by
  rw [toUint32, same]
  omega

theorem toUint64_of_nat {value : Int} (number : Nat) (same : value = number)
    (small : number < 2 ^ 64) : toUint64 value = number := by
  rw [toUint64, same]
  omega

end SystemsLabs
