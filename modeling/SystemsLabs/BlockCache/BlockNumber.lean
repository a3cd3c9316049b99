import SystemsLabs.BlockCache.Recency
import Mathlib.Data.Nat.ModEq

/-!
# Sets and tags as functions of the block

The set and the tag of an address are those of its block, and within 4 GiB no
two blocks have both in common.  A session then misses as often as a walk over
the block numbers.
-/

namespace SystemsLabs.BlockCache

open Paging Transition

/-- Numbers in a window as wide as the modulus are told apart by it. -/
theorem eq_of_residues {first width left right : Nat}
    (leftLow : first ≤ left) (leftHigh : left < first + width)
    (rightLow : first ≤ right) (rightHigh : right < first + width)
    (same : left % width = right % width) : left = right := by
  obtain ⟨leftRest, rfl⟩ := Nat.exists_eq_add_of_le leftLow
  obtain ⟨rightRest, rfl⟩ := Nat.exists_eq_add_of_le rightLow
  have rests : leftRest ≡ rightRest [MOD width] :=
    Nat.ModEq.add_left_cancel' first same
  rw [rests.eq_of_lt_of_lt (Nat.lt_of_add_lt_add_left leftHigh)
    (Nat.lt_of_add_lt_add_left rightHigh)]

namespace Geometry

variable {cache : Cache} {blockBits indexBits : Nat}

theorem readIndex_eq (geometry : Geometry cache blockBits indexBits)
    (narrow : cache.tagShift < 32) (address : Address) :
    readIndex cache address =
      address.toNat / 2 ^ blockBits % 2 ^ indexBits := by
  have shift := geometry.tagShift
  have small := geometry.indexBits_lt
  have bounded : readIndex cache address < 2 ^ indexBits := by
    rw [readIndex, geometry.cacheIndexMask, BitVec.toNat_setWidth,
      BitVec.toNat_and, toNat_ones _ (by omega),
      Nat.and_two_pow_sub_one_eq_mod]
    exact lt_of_le_of_lt (Nat.mod_le _ _)
      (Nat.mod_lt _ (Nat.two_pow_pos indexBits))
  apply Nat.eq_of_testBit_eq
  intro place
  rw [Nat.testBit_mod_two_pow, Nat.testBit_div_two_pow]
  by_cases inside : place < indexBits
  · rw [geometry.getLsbD_readIndex address inside (by omega),
      decide_eq_true inside, Bool.true_and, Nat.add_comm]
    rfl
  · have beyond := Nat.pow_le_pow_right Nat.zero_lt_two
      (Nat.le_of_not_lt inside)
    rw [decide_eq_false inside, Bool.false_and]
    exact Nat.testBit_lt_two_pow (lt_of_lt_of_le bounded beyond)

theorem readTag_eq_iff (narrow : cache.tagShift < 32)
    {left right : Address} :
    readTag cache left = readTag cache right ↔
      left.toNat % 2 ^ 32 / 2 ^ cache.tagShift =
        right.toNat % 2 ^ 32 / 2 ^ cache.tagShift := by
  have bitOf : ∀ (address : Address) (place : Nat),
      (address.toNat % 2 ^ 32 / 2 ^ cache.tagShift).testBit place =
        (decide (cache.tagShift + place < 32) &&
          address.getLsbD (cache.tagShift + place)) := by
    intro address place
    rw [Nat.testBit_div_two_pow, Nat.testBit_mod_two_pow, Nat.add_comm]
    rfl
  constructor
  · intro same
    apply Nat.eq_of_testBit_eq
    intro place
    rw [bitOf, bitOf]
    by_cases low : cache.tagShift + place < 32
    · rw [← getLsbD_readTag left low, ← getLsbD_readTag right low, same]
    · rw [decide_eq_false low, Bool.false_and, Bool.false_and]
  · intro same
    have bits : ∀ place, cache.tagShift + place < 32 →
        left.getLsbD (cache.tagShift + place) =
          right.getLsbD (cache.tagShift + place) := by
      intro place low
      have bit := congrArg (fun value => value.testBit place) same
      simpa only [bitOf, decide_eq_true low, Bool.true_and] using bit
    have shift : cache.tagShift % 32 = cache.tagShift :=
      Nat.mod_eq_of_lt narrow
    have top : left[31] = right[31] := by
      have last := bits (31 - cache.tagShift) (by omega)
      have place : cache.tagShift + (31 - cache.tagShift) = 31 := by omega
      rw [place] at last
      exact last
    rw [readTag, readTag, shift]
    congr 1
    apply BitVec.eq_of_getLsbD_eq
    intro place inside
    rw [BitVec.getLsbD_sshiftRight, BitVec.getLsbD_sshiftRight]
    by_cases low : cache.tagShift + place < 32
    · simp [low, bits place low]
    · simp [low, BitVec.msb_eq_getLsbD_last, top]

/-- The blocks that the cache cannot tell from each other are `2 ^ 32` bytes
apart. -/
theorem readKey_eq_iff (geometry : Geometry cache blockBits indexBits)
    (narrow : cache.tagShift < 32) {left right : Address} :
    readKey cache left = readKey cache right ↔
      left.toNat / 2 ^ blockBits % 2 ^ (32 - blockBits) =
        right.toNat / 2 ^ blockBits % 2 ^ (32 - blockBits) := by
  have shift := geometry.tagShift
  obtain ⟨rest, total⟩ : ∃ rest, 32 - blockBits = indexBits + rest :=
    ⟨32 - blockBits - indexBits, by omega⟩
  have whole : 2 ^ 32 = 2 ^ blockBits * 2 ^ (32 - blockBits) := by
    rw [← Nat.pow_add]
    congr 1
    omega
  have low : ∀ number : Nat, number % 2 ^ (32 - blockBits) % 2 ^ indexBits =
      number % 2 ^ indexBits := by
    intro number
    rw [total]
    exact Nat.mod_mod_of_dvd number (Nat.pow_dvd_pow 2 (Nat.le_add_right _ _))
  have high : ∀ number : Nat, number % 2 ^ 32 / 2 ^ cache.tagShift =
      number / 2 ^ blockBits % 2 ^ (32 - blockBits) / 2 ^ indexBits := by
    intro number
    rw [whole, shift, Nat.pow_add, ← Nat.div_div_eq_div_mul,
      Nat.mod_mul_right_div_self]
  rw [readKey, readKey, Prod.mk.injEq, geometry.readIndex_eq narrow,
    geometry.readIndex_eq narrow, readTag_eq_iff narrow, high, high]
  constructor
  · rintro ⟨sameLow, sameHigh⟩
    rw [← low, ← low (right.toNat / 2 ^ blockBits)] at sameLow
    rw [← Nat.div_add_mod (left.toNat / 2 ^ blockBits % 2 ^ (32 - blockBits))
      (2 ^ indexBits), sameLow, sameHigh, Nat.div_add_mod]
  · intro same
    rw [same]
    refine ⟨?_, rfl⟩
    rw [← low, ← low (right.toNat / 2 ^ blockBits), same]

theorem idealMisses_eq (geometry : Geometry cache blockBits indexBits)
    (narrow : cache.tagShift < 32) {history : List Address} {ways first : Nat}
    (region : ∀ address ∈ history,
      first ≤ address.toNat / 2 ^ blockBits ∧
        address.toNat / 2 ^ blockBits < first + 2 ^ (32 - blockBits)) :
    idealMisses ways cache history =
      classMisses ways (· % 2 ^ indexBits)
        (history.map fun address => address.toNat / 2 ^ blockBits) := by
  have shift := geometry.tagShift
  let keyOf : Nat → Nat × BitVec 64 := fun block =>
    readKey cache (BitVec.ofNat 64 (2 ^ blockBits * block))
  have wide : 2 ^ 64 = 2 ^ blockBits * 2 ^ (64 - blockBits) := by
    rw [← Nat.pow_add]
    congr 1
    omega
  have number : ∀ block : Nat,
      (BitVec.ofNat 64 (2 ^ blockBits * block)).toNat / 2 ^ blockBits =
        block % 2 ^ (64 - blockBits) := by
    intro block
    rw [BitVec.toNat_ofNat, wide, Nat.mod_mul_right_div_self,
      Nat.mul_div_cancel_left _ (Nat.two_pow_pos blockBits)]
  have within : ∀ address : Address,
      address.toNat / 2 ^ blockBits < 2 ^ (64 - blockBits) := by
    intro address
    rw [Nat.div_lt_iff_lt_mul (Nat.two_pow_pos blockBits), Nat.mul_comm, ← wide]
    exact address.isLt
  have named : history.map (readKey cache) =
      (history.map fun address => address.toNat / 2 ^ blockBits).map
        keyOf := by
    rw [List.map_map]
    apply List.map_congr_left
    intro address _
    apply (geometry.readKey_eq_iff narrow).mpr
    rw [number, Nat.mod_eq_of_lt (within address)]
  have classes : (fun block => (keyOf block).1) =
      fun block : Nat => block % 2 ^ indexBits := by
    funext block
    change readIndex cache _ = _
    rw [geometry.readIndex_eq narrow, number]
    exact Nat.mod_mod_of_dvd _ (Nat.pow_dvd_pow 2 (by omega))
  rw [idealMisses, named, classMisses_map, classes]
  intro left leftMember right rightMember same
  obtain ⟨leftAddress, leftRead, rfl⟩ := List.mem_map.mp leftMember
  obtain ⟨rightAddress, rightRead, rfl⟩ := List.mem_map.mp rightMember
  have residues := (geometry.readKey_eq_iff narrow).mp same
  rw [number, number, Nat.mod_eq_of_lt (within leftAddress),
    Nat.mod_eq_of_lt (within rightAddress)] at residues
  obtain ⟨leftLow, leftHigh⟩ := region leftAddress leftRead
  obtain ⟨rightLow, rightHigh⟩ := region rightAddress rightRead
  exact eq_of_residues leftLow leftHigh rightLow rightHigh residues

end Geometry

end SystemsLabs.BlockCache
