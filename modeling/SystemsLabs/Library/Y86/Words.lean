import Mathlib

/-!
# Words in a 64-bit address space

Memory is a function from 64-bit addresses to bytes, so an access that runs over
the last address continues at the first.  `span start count` are the `count`
addresses from `start` on.
-/

namespace SystemsLabs.Y86

abbrev Word := BitVec 64

abbrev Bytes := Word → BitVec 8

/-- Eight bytes, the least significant one first. -/
def joinBytes (byte : Nat → BitVec 8) : Word :=
  byte 7 ++ byte 6 ++ byte 5 ++ byte 4 ++ byte 3 ++ byte 2 ++ byte 1 ++ byte 0

def readWord (bytes : Bytes) (address : Word) : Word :=
  joinBytes fun index => bytes (address + BitVec.ofNat 64 index)

def writeWord (bytes : Bytes) (address value : Word) : Bytes :=
  fun place =>
    if (place - address).toNat < 8 then
      value.extractLsb' (8 * (place - address).toNat) 8
    else bytes place

def span (start : Word) (count : Nat) : Set Word :=
  {place | (place - start).toNat < count}

/-- Only bytes of the region differ. -/
def SameOutside (region : Set Word) (before after : Bytes) : Prop :=
  ∀ place ∉ region, after place = before place

section Span

theorem toNat_offset (start : Word) {offset : Nat} (small : offset < 2 ^ 64) :
    (start + BitVec.ofNat 64 offset - start).toNat = offset := by
  rw [BitVec.add_comm, BitVec.add_sub_cancel, BitVec.toNat_ofNat,
    Nat.mod_eq_of_lt small]

theorem offset_mem_span (start : Word) {offset count : Nat}
    (inside : offset < count) :
    start + BitVec.ofNat 64 offset ∈ span start count := by
  change (start + BitVec.ofNat 64 offset - start).toNat < count
  rw [BitVec.add_comm, BitVec.add_sub_cancel, BitVec.toNat_ofNat]
  exact (Nat.mod_le _ _).trans_lt inside

theorem toNat_sub_part (start : Word) {offset count : Nat} {place : Word}
    (member : place ∈ span (start + BitVec.ofNat 64 offset) count)
    (small : offset + count ≤ 2 ^ 64) :
    (place - start).toNat =
      offset + (place - (start + BitVec.ofNat 64 offset)).toNat := by
  have split : place - start =
      BitVec.ofNat 64 offset + (place - (start + BitVec.ofNat 64 offset)) := by
    ring
  have low : (place - (start + BitVec.ofNat 64 offset)).toNat < count := member
  rw [split, BitVec.toNat_add, BitVec.toNat_ofNat,
    Nat.mod_eq_of_lt (show offset < 2 ^ 64 by omega), Nat.mod_eq_of_lt]
  omega

theorem span_subset (start : Word) {offset count whole : Nat}
    (inside : offset + count ≤ whole) :
    span (start + BitVec.ofNat 64 offset) count ⊆ span start whole := by
  intro place member
  change (place - start).toNat < whole
  rcases Nat.lt_or_ge (2 ^ 64) (offset + count) with large | small
  · exact (place - start).isLt.trans (large.trans_le inside)
  · have low : (place - (start + BitVec.ofNat 64 offset)).toNat < count := member
    rw [toNat_sub_part start member small]
    omega

theorem span_disjoint (start : Word) {first count second other : Nat}
    (order : first + count ≤ second) (small : second + other ≤ 2 ^ 64) :
    Disjoint (span (start + BitVec.ofNat 64 first) count)
      (span (start + BitVec.ofNat 64 second) other) := by
  apply Set.disjoint_left.mpr
  intro place left right
  have low : (place - (start + BitVec.ofNat 64 first)).toNat < count := left
  have leftPlace := toNat_sub_part start left (by omega)
  have rightPlace := toNat_sub_part start right small
  omega

theorem word_disjoint_below (address : Word) {distance : Nat}
    (least : 8 ≤ distance) (most : distance + 8 ≤ 2 ^ 64) :
    Disjoint (span address 8)
      (span (address - BitVec.ofNat 64 distance) 8) := by
  have zero : 0 + 8 ≤ distance := by omega
  have apart := span_disjoint (address - BitVec.ofNat 64 distance) zero most
  rw [BitVec.sub_add_cancel, BitVec.add_zero] at apart
  exact apart.symm

end Span

section Words

variable {before after bytes : Bytes} {region larger : Set Word}
  {address other place : Word}

theorem joinBytes_congr {byte same : Nat → BitVec 8}
    (equal : ∀ index < 8, byte index = same index) :
    joinBytes byte = joinBytes same := by
  unfold joinBytes
  rw [equal 0 (by decide), equal 1 (by decide), equal 2 (by decide),
    equal 3 (by decide), equal 4 (by decide), equal 5 (by decide),
    equal 6 (by decide), equal 7 (by decide)]

theorem joinBytes_extract (value : Word) :
    joinBytes (fun index => value.extractLsb' (8 * index) 8) = value := by
  apply BitVec.eq_of_getLsbD_eq
  intro index inside
  simp only [joinBytes, BitVec.getLsbD_append, BitVec.getLsbD_extractLsb']
  split_ifs <;> simp <;> grind

theorem writeWord_offset (bytes : Bytes) (address value : Word) {index : Nat}
    (inside : index < 8) :
    writeWord bytes address value (address + BitVec.ofNat 64 index) =
      value.extractLsb' (8 * index) 8 := by
  have offset : (address + BitVec.ofNat 64 index - address).toNat = index :=
    toNat_offset address (by omega)
  rw [writeWord, offset, if_pos inside]

theorem readWord_writeWord (bytes : Bytes) (address value : Word) :
    readWord (writeWord bytes address value) address = value := by
  have written : readWord (writeWord bytes address value) address =
      joinBytes fun index => value.extractLsb' (8 * index) 8 := by
    apply joinBytes_congr
    intro index inside
    exact writeWord_offset bytes address value inside
  rw [written, joinBytes_extract]

namespace SameOutside

theorem refl (region : Set Word) (bytes : Bytes) :
    SameOutside region bytes bytes :=
  fun _ _ => rfl

theorem trans {first second third : Bytes}
    (earlier : SameOutside region first second)
    (later : SameOutside region second third) :
    SameOutside region first third :=
  fun place outside => (later place outside).trans (earlier place outside)

theorem mono (same : SameOutside region before after)
    (inside : region ⊆ larger) : SameOutside larger before after :=
  fun place outside => same place (mt (@inside place) outside)

theorem readWord (same : SameOutside region before after)
    (away : Disjoint (span address 8) region) :
    readWord after address = readWord before address := by
  apply joinBytes_congr
  intro index inside
  apply same
  apply Set.disjoint_left.mp away
  exact offset_mem_span address inside

end SameOutside

theorem writeWord_sameOutside (bytes : Bytes) (address value : Word) :
    SameOutside (span address 8) bytes (writeWord bytes address value) :=
  fun _ outside => if_neg outside

theorem readWord_writeWord_away (bytes : Bytes) (value : Word)
    (away : Disjoint (span other 8) (span address 8)) :
    readWord (writeWord bytes address value) other = readWord bytes other :=
  (writeWord_sameOutside bytes address value).readWord away

/-- The words at two addresses are one word or do not overlap. -/
def Apart (left right : Word) : Prop :=
  left = right ∨ Disjoint (span left 8) (span right 8)

theorem Apart.symm {left right : Word} (apart : Apart left right) :
    Apart right left :=
  apart.imp Eq.symm fun disjoint => disjoint.symm

/-- Two words have changed places. -/
structure Swapped (left right : Word) (before after : Bytes) : Prop where
  left_eq : readWord after left = readWord before right
  right_eq : readWord after right = readWord before left
  same : SameOutside (span left 8 ∪ span right 8) before after

theorem Swapped.symm {left right : Word}
    (swapped : Swapped left right before after) :
    Swapped right left before after :=
  ⟨swapped.right_eq, swapped.left_eq, Set.union_comm _ _ ▸ swapped.same⟩

/-- The value of the right word is stored first. -/
theorem swapped_writes (bytes : Bytes) {left right : Word}
    (apart : Apart left right) :
    Swapped left right bytes
      (writeWord (writeWord bytes left (readWord bytes right)) right
        (readWord bytes left)) := by
  refine ⟨?_, readWord_writeWord _ _ _, ?_⟩
  · rcases apart with rfl | away
    · exact readWord_writeWord _ _ _
    · rw [readWord_writeWord_away _ _ away, readWord_writeWord]
  · apply ((writeWord_sameOutside _ left _).mono _).trans
      ((writeWord_sameOutside _ right _).mono _)
    · exact Set.subset_union_left
    · exact Set.subset_union_right

end Words

end SystemsLabs.Y86
