import SystemsLabs.ImplicitHeap.Code
import SystemsLabs.ImplicitHeap.Layout
import Mathlib.Data.Nat.Bitwise

/-!
# Boundary tags

What the accessors of `implicit.c` return on a block whose header and footer
words both encode it, and what `setBlockHeader` writes.
-/

namespace SystemsLabs.ImplicitHeap

open Tiling

/-- Header and footer of the block at `address` both encode `block`. -/
structure Tagged (memory : Memory) (address : Nat) (block : Block) : Prop where
  header : memory.load address 4 = block.header
  footer : memory.load (address + block.size - 4) 4 = block.header

theorem offset_add (pointer distance : Nat)
    (room : pointer + distance < 2 ^ 64) :
    offset pointer distance = pointer + distance := by
  unfold offset
  omega

theorem offset_sub (pointer distance : Nat)
    (room : distance ≤ pointer) (small : pointer < 2 ^ 64) :
    offset pointer (-distance) = pointer - distance := by
  unfold offset
  omega

theorem toBlockSize_of_lt {value : Nat} (small : value < 2 ^ 32) :
    toBlockSize value = value :=
  Nat.mod_eq_of_lt small

theorem mask_and (word : Nat) (small : word < 2 ^ 64) :
    (2 ^ 64 - headerSize) &&& word = word / 4 * 4 := by
  have mask : 2 ^ 64 - headerSize = (2 ^ 62 - 1) <<< 2 := by decide
  have cut : word / 4 * 4 = (word >>> 2) <<< 2 := by
    rw [Nat.shiftRight_eq_div_pow, Nat.shiftLeft_eq]
  rw [mask, cut]
  apply Nat.eq_of_testBit_eq
  intro bit
  simp only [Nat.testBit_and, Nat.testBit_shiftLeft, Nat.testBit_shiftRight,
    Nat.testBit_two_pow_sub_one]
  by_cases low : 2 ≤ bit
  · have split : 2 + (bit - 2) = bit := by omega
    rw [split]
    by_cases high : bit < 64
    · have inMask : bit - 2 < 62 := by omega
      simp [inMask]
    · have zero : word.testBit bit = false :=
        Nat.testBit_eq_false_of_lt
          (Nat.lt_of_lt_of_le small (Nat.pow_le_pow_right (by omega) (by omega)))
      simp [zero]
  · simp [low]

theorem or_inUse {size inUse : Nat} (aligned : size % 8 = 0)
    (bit : inUse < 2) : size ||| inUse = size + inUse := by
  have split : size = 2 ^ 3 * (size / 8) := by omega
  rw [split, ← Nat.two_pow_add_eq_or_of_lt (by omega)]

namespace Block

theorem header_of_isFree {block : Block} (free : block.IsFree) :
    block.header = block.size := by
  simp [header, free]

theorem header_of_used {block : Block} (used : ¬block.IsFree) :
    block.header = block.size + 1 := by
  simp [header, used]

end Block

/-- What the two accessors read in a word that encodes a size and a use. -/
theorem accessors_of_word {memory : Memory} {address size inUse : Nat}
    (word : memory.load address 4 = size + inUse) (aligned : size % 8 = 0)
    (bit : inUse < 2) (small : size < 2 ^ 32) :
    blockIsInUse memory address = inUse ∧
      getBlockSize memory address = size := by
  constructor
  · rw [blockIsInUse, word, Nat.one_and_eq_mod_two]
    omega
  · rw [getBlockSize, word, mask_and _ (by omega), toBlockSize_of_lt (by omega)]
    omega

section Accessors

variable {memory : Memory} {address : Nat} {block : Block}
  (word : memory.load address 4 = block.header)

include word

theorem blockIsInUse_of_header :
    blockIsInUse memory address = if block.IsFree then 0 else 1 := by
  have aligned := block.aligned
  rw [blockIsInUse, word, Nat.one_and_eq_mod_two, Block.header]
  split <;> omega

theorem getBlockSize_of_header (small : block.size < 2 ^ 31) :
    getBlockSize memory address = block.size := by
  have bit : (if block.IsFree then 0 else 1) < 2 := by
    split <;> omega
  exact (accessors_of_word word block.aligned bit (by omega)).2

theorem getNextBlock_of_header (small : block.size < 2 ^ 31)
    (room : address + block.size < 2 ^ 64) :
    getNextBlock memory address = address + block.size := by
  rw [getNextBlock, getBlockSize_of_header word small, offset_add _ _ room]

end Accessors

/-- The footer of the block in front is what `getPreviousBlock` reads. -/
theorem getPreviousBlock_of_tagged {memory : Memory} {address : Nat}
    {block : Block} (tagged : Tagged memory address block)
    (small : block.size < 2 ^ 31) (room : address + block.size < 2 ^ 64) :
    getPreviousBlock memory (address + block.size) = address := by
  have large := block.large
  have footerAddress : offset (address + block.size) (-headerSize) =
      address + block.size - 4 :=
    offset_sub _ headerSize (by simp only [headerSize]; omega) room
  rw [getPreviousBlock, footerAddress,
    getBlockSize_of_header tagged.footer small, offset_sub _ _ (by omega) room]
  omega

/-- Both tags are written inside the block, and nothing else is. -/
theorem setBlockHeader_spec (memory : Memory) {address size inUse : Nat}
    (aligned : size % 8 = 0) (large : 8 ≤ size) (small : size < 2 ^ 32)
    (room : address + size < 2 ^ 64) (bit : inUse < 2) :
    (setBlockHeader memory address size inUse).load address 4 =
        size + inUse ∧
      (setBlockHeader memory address size inUse).load
        (address + size - 4) 4 = size + inUse ∧
      Memory.SameOutside address (address + size) memory
        (setBlockHeader memory address size inUse) := by
  have value := or_inUse aligned bit
  have fits : (size + inUse) % 256 ^ 4 = size + inUse := by omega
  let first := memory.store address 4 (size + inUse)
  have stored : first.load address 4 = size + inUse := by
    rw [Memory.load_store_same, fits]
  have payloadSize : getPayloadSize first address = size - 8 := by
    rw [getPayloadSize, (accessors_of_word stored aligned bit small).2]
    simp only [toBlockSize, headerSize]
    omega
  have footer : offset (getPayload address) (getPayloadSize first address) =
      address + size - 4 := by
    have payload : getPayload address = address + 4 :=
      offset_add _ headerSize (by simp only [headerSize]; omega)
    rw [payload, payloadSize, offset_add _ _ (by omega)]
    omega
  have result : setBlockHeader memory address size inUse =
      first.store (address + size - 4) 4 (size + inUse) := by
    rw [← footer]
    simp only [setBlockHeader, value, first]
  rw [result]
  refine ⟨?_, ?_, ?_⟩
  · rw [Memory.load_store_disjoint _ (by omega), stored]
  · rw [Memory.load_store_same, fits]
  · have headerSame : Memory.SameOutside address (address + size) memory
        first :=
      (Memory.store_sameOutside memory address 4 _).mono (Nat.le_refl _)
        (by omega)
    have footerSame : Memory.SameOutside address (address + size) first
        (first.store (address + size - 4) 4 (size + inUse)) :=
      (Memory.store_sameOutside first _ 4 _).mono (by omega) (by omega)
    exact headerSame.trans footerSame

theorem setBlockHeader_sameOutside (memory : Memory) (address : Nat)
    (block : Block) {inUse : Nat} (small : block.size < 2 ^ 31)
    (room : address + block.size < 2 ^ 64) (bit : inUse < 2) :
    Memory.SameOutside address (address + block.size) memory
      (setBlockHeader memory address block.size inUse) :=
  (setBlockHeader_spec memory block.aligned block.large (by omega) room bit).2.2

theorem setBlockHeader_tagged (memory : Memory) (address : Nat)
    (block : Block) {inUse : Nat} (small : block.size < 2 ^ 31)
    (room : address + block.size < 2 ^ 64)
    (encodes : block.size + inUse = block.header) (bit : inUse < 2) :
    Tagged (setBlockHeader memory address block.size inUse) address block := by
  obtain ⟨header, footer, _⟩ :=
    setBlockHeader_spec memory block.aligned block.large (by omega) room bit
  exact ⟨header.trans encodes, footer.trans encodes⟩

theorem Tagged.frame {before after : Memory} {low high address : Nat}
    {block : Block} (tagged : Tagged before address block)
    (same : Memory.SameOutside low high before after)
    (apart : address + block.size ≤ low ∨ high ≤ address) :
    Tagged after address block := by
  have large := block.large
  constructor
  · rw [same.load (by omega), tagged.header]
  · rw [same.load (by omega), tagged.footer]

theorem Tagged.frame_payload {before after : Memory} {low high address : Nat}
    {block : Block} (tagged : Tagged before address block)
    (same : Memory.SameOutside low high before after)
    (left : address + 4 ≤ low) (right : high + 4 ≤ address + block.size) :
    Tagged after address block := by
  constructor
  · rw [same.load (by omega), tagged.header]
  · rw [same.load (by omega), tagged.footer]

/-- The tags of a list of blocks laid end to end. -/
def TaggedAll (memory : Memory) (address : Nat) (blocks : List Block) : Prop :=
  ∀ placedBlock ∈ placed Block.size address blocks,
    Tagged memory placedBlock.1 placedBlock.2

namespace TaggedAll

theorem nil (memory : Memory) (address : Nat) :
    TaggedAll memory address [] := by
  simp [TaggedAll]

theorem cons_iff {memory : Memory} {address : Nat} {block : Block}
    {rest : List Block} :
    TaggedAll memory address (block :: rest) ↔
      Tagged memory address block ∧
        TaggedAll memory (address + block.size) rest := by
  simp [TaggedAll]

theorem append_iff {memory : Memory} {address : Nat}
    {front back : List Block} :
    TaggedAll memory address (front ++ back) ↔
      TaggedAll memory address front ∧
        TaggedAll memory (address + span Block.size front) back := by
  simp only [TaggedAll, placed_append, List.mem_append]
  constructor
  · intro all
    exact ⟨fun entry member => all entry (.inl member),
      fun entry member => all entry (.inr member)⟩
  · rintro ⟨front, back⟩ entry (member | member)
    · exact front entry member
    · exact back entry member

theorem frame {before after : Memory} {low high address : Nat}
    {blocks : List Block} (tagged : TaggedAll before address blocks)
    (same : Memory.SameOutside low high before after)
    (apart : address + span Block.size blocks ≤ low ∨ high ≤ address) :
    TaggedAll after address blocks := by
  intro entry member
  have room := bounds member
  exact (tagged entry member).frame same (by omega)

theorem frame_payload {before after : Memory} {low high address : Nat}
    {blocks : List Block} (tagged : TaggedAll before address blocks)
    (same : Memory.SameOutside low high before after) {position : Nat}
    {block : Block}
    (member : (position, block) ∈ placed Block.size address blocks)
    (left : position + 4 ≤ low) (right : high + 4 ≤ position + block.size) :
    TaggedAll after address blocks := by
  intro entry entryMember
  rcases eq_or_apart entryMember member with ⟨here, itself⟩ | before | behind
  · have kept := tagged entry entryMember
    rw [here, itself] at kept ⊢
    exact kept.frame_payload same left right
  · exact (tagged entry entryMember).frame same (.inl (by omega))
  · exact (tagged entry entryMember).frame same (.inr (by omega))

theorem replace {before after : Memory} {address : Nat}
    {front back : List Block} (middle newMiddle : List Block)
    (tagged : TaggedAll before address (front ++ (middle ++ back)))
    (same : Memory.SameOutside (address + span Block.size front)
      (address + span Block.size front + span Block.size middle) before after)
    (newTagged : TaggedAll after (address + span Block.size front) newMiddle)
    (width : span Block.size newMiddle = span Block.size middle) :
    TaggedAll after address (front ++ (newMiddle ++ back)) := by
  obtain ⟨frontTagged, rest⟩ := append_iff.mp tagged
  obtain ⟨_, backTagged⟩ := append_iff.mp rest
  apply append_iff.mpr
  refine ⟨frontTagged.frame same (by omega), ?_⟩
  apply append_iff.mpr
  refine ⟨newTagged, ?_⟩
  rw [width]
  exact backTagged.frame same (by omega)

end TaggedAll

end SystemsLabs.ImplicitHeap
