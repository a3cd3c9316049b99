import Mathlib.Tactic.Ring
import Mathlib.Data.Nat.Bitwise

/-!
# Byte-addressed memory

Memory is a function from addresses to bytes.  Multi-byte values are stored
with the least significant byte first; the width is a parameter, so one pair
of lemmas covers 16-, 32- and 64-bit accesses.
-/

namespace SystemsLabs

abbrev Memory := Nat → UInt8

namespace Memory

/-- The `width` bytes at `address` as a natural number, little-endian. -/
def load (memory : Memory) (address : Nat) : Nat → Nat
  | 0 => 0
  | width + 1 => (memory address).toNat + 256 * load memory (address + 1) width

/-- Replace the `width` bytes at `address` by the low bytes of `value`. -/
def store (memory : Memory) (address width value : Nat) : Memory :=
  fun position =>
    if address ≤ position ∧ position < address + width then
      UInt8.ofNat (value / 256 ^ (position - address))
    else
      memory position

/-- Replace one byte. -/
def write (memory : Memory) (address : Nat) (byte : UInt8) : Memory :=
  fun position => if position = address then byte else memory position

/-- Replace `count` bytes at `address` by those of `source` at `position`. -/
def copy (memory : Memory) (address : Nat) (source : Memory)
    (position count : Nat) : Memory :=
  fun place =>
    if address ≤ place ∧ place < address + count then
      source (position + (place - address))
    else
      memory place

/-- Two memories hold the same bytes outside `[low, high)`. -/
def SameOutside (low high : Nat) (before after : Memory) : Prop :=
  ∀ position, position < low ∨ high ≤ position →
    after position = before position

theorem copy_inside (memory source : Memory) (address position : Nat)
    {index count : Nat} (inside : index < count) :
    memory.copy address source position count (address + index) =
      source (position + index) := by
  have place : address ≤ address + index ∧ address + index < address + count :=
    ⟨Nat.le_add_right _ _, Nat.add_lt_add_left inside _⟩
  rw [copy, if_pos place, Nat.add_sub_cancel_left]

theorem copy_outside (memory source : Memory) {address position count : Nat}
    {place : Nat} (outside : place < address ∨ address + count ≤ place) :
    memory.copy address source position count place = memory place :=
  if_neg (by omega)

theorem copy_nothing (memory source : Memory) (address position : Nat) :
    memory.copy address source position 0 = memory := by
  funext place
  exact copy_outside memory source (by omega)

theorem load_copy {memory other : Memory} {address place width : Nat}
    (same : ∀ index, index < width →
      other (place + index) = memory (address + index)) :
    other.load place width = memory.load address width := by
  induction width generalizing address place with
  | zero => rfl
  | succ width ih =>
      have head : other place = memory address := same 0 (Nat.succ_pos _)
      have tail : other.load (place + 1) width =
          memory.load (address + 1) width := by
        apply ih
        intro index inside
        rw [Nat.add_assoc, Nat.add_assoc]
        exact same (1 + index) (by omega)
      simp only [load, head, tail]

theorem load_congr {memory other : Memory} {address width : Nat}
    (same : ∀ position, address ≤ position → position < address + width →
      other position = memory position) :
    other.load address width = memory.load address width := by
  apply load_copy
  intro index inside
  exact same _ (Nat.le_add_right _ _) (Nat.add_lt_add_left inside _)

theorem load_lt (memory : Memory) (address width : Nat) :
    memory.load address width < 256 ^ width := by
  induction width generalizing address with
  | zero => simp [load]
  | succ width ih =>
      have byte : (memory address).toNat < 256 := (memory address).toNat_lt
      have rest := ih (address + 1)
      simp only [load, Nat.pow_succ]
      omega

theorem load_store_same (memory : Memory) (address width value : Nat) :
    (memory.store address width value).load address width =
      value % 256 ^ width := by
  induction width generalizing memory address value with
  | zero => simp [load, Nat.mod_one]
  | succ width ih =>
      have head : memory.store address (width + 1) value address =
          UInt8.ofNat value := by
        simp [store]
      have tail : (memory.store address (width + 1) value).load
          (address + 1) width = (value / 256) % 256 ^ width := by
        rw [← ih memory (address + 1) (value / 256)]
        apply load_congr
        intro position lower upper
        have inside : address ≤ position ∧ position < address + (width + 1) := by
          omega
        have shift : position - address = position - (address + 1) + 1 := by
          omega
        simp only [store, inside, lower, upper, and_self, if_true, shift]
        rw [Nat.pow_succ, Nat.mul_comm, Nat.div_div_eq_div_mul]
      have byte : (UInt8.ofNat value).toNat = value % 256 := by simp
      rw [load, head, tail, byte, Nat.pow_succ, Nat.mul_comm (256 ^ width),
        Nat.mod_mul]

theorem store_sameOutside (memory : Memory) (address width value : Nat) :
    SameOutside address (address + width) memory
      (memory.store address width value) := by
  intro position outside
  have notInside : ¬(address ≤ position ∧ position < address + width) := by
    omega
  simp [store, notInside]

theorem write_sameOutside (memory : Memory) (address : Nat) (byte : UInt8) :
    SameOutside address (address + 1) memory (memory.write address byte) := by
  intro position outside
  have different : position ≠ address := by omega
  simp [write, different]

theorem load_store_disjoint (memory : Memory)
    {address width value other count : Nat}
    (disjoint : other + count ≤ address ∨ address + width ≤ other) :
    (memory.store address width value).load other count =
      memory.load other count := by
  apply load_congr
  intro position lower upper
  exact store_sameOutside memory address width value position (by omega)

namespace SameOutside

theorem refl (low high : Nat) (memory : Memory) :
    SameOutside low high memory memory :=
  fun _ _ => rfl

theorem trans {low high : Nat} {first second third : Memory}
    (earlier : SameOutside low high first second)
    (later : SameOutside low high second third) :
    SameOutside low high first third :=
  fun position outside =>
    (later position outside).trans (earlier position outside)

theorem mono {low high lower higher : Nat} {before after : Memory}
    (same : SameOutside low high before after)
    (left : lower ≤ low) (right : high ≤ higher) :
    SameOutside lower higher before after :=
  fun position outside => same position (by omega)

theorem load {low high : Nat} {before after : Memory}
    (same : SameOutside low high before after) {address width : Nat}
    (disjoint : address + width ≤ low ∨ high ≤ address) :
    after.load address width = before.load address width :=
  load_congr fun position _ _ => same position (by omega)

end SameOutside

end Memory

end SystemsLabs
