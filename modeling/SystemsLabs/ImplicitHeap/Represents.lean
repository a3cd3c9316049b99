import SystemsLabs.ImplicitHeap.Tags

/-!
# Memory that represents a layout

`Tiles heap memory blocks` says that the words of the heap area encode
`blocks`; `Represents` adds that no two neighbours are both free.  The
specification of each operation is stated on the block it acts on, with the
blocks in front of and behind it.
-/

namespace SystemsLabs.ImplicitHeap

open Tiling

structure Tiles (heap : Heap) (memory : Memory) (blocks : List Block) :
    Prop where
  size : heap.size = span Block.size blocks
  small : span Block.size blocks < 2 ^ 31
  room : heap.start + span Block.size blocks < 2 ^ 64
  aligned : heap.start % 8 = 4
  tagged : TaggedAll memory heap.start blocks

structure Represents (heap : Heap) (memory : Memory) (blocks : List Block) :
    Prop extends Tiles heap memory blocks where
  settled : Settled blocks

/-- The start addresses of the blocks. -/
def starts (heap : Heap) (blocks : List Block) : List Nat :=
  addresses Block.size heap.start blocks

namespace Tiles

variable {heap : Heap} {memory : Memory} {front back blocks : List Block}
  {block : Block}

theorem within_iff (tiles : Tiles heap memory blocks) (address : Nat) :
    isWithinHeapRange heap address = true ↔
      heap.start ≤ address ∧
        address < heap.start + span Block.size blocks := by
  rw [isWithinHeapRange, tiles.size, offset_add _ _ tiles.room]
  simp

theorem within_block (tiles : Tiles heap memory (front ++ block :: back)) :
    isWithinHeapRange heap (heap.start + span Block.size front) = true := by
  have positive := block.size_pos
  rw [tiles.within_iff]
  simp only [span_append, span_cons]
  omega

theorem not_within_end (tiles : Tiles heap memory blocks) :
    isWithinHeapRange heap (heap.start + span Block.size blocks) = false := by
  rw [Bool.eq_false_iff, ne_eq, tiles.within_iff]
  omega

theorem block_bounds (tiles : Tiles heap memory (front ++ block :: back)) :
    block.size < 2 ^ 31 ∧
      heap.start + span Block.size front + block.size < 2 ^ 64 := by
  have small := tiles.small
  have room := tiles.room
  simp only [span_append, span_cons] at small room
  omega

theorem tagged_block (tiles : Tiles heap memory (front ++ block :: back)) :
    Tagged memory (heap.start + span Block.size front) block :=
  (TaggedAll.cons_iff.mp (TaggedAll.append_iff.mp tiles.tagged).2).1

theorem inUse_block (tiles : Tiles heap memory (front ++ block :: back)) :
    blockIsInUse memory (heap.start + span Block.size front) =
      if block.IsFree then 0 else 1 :=
  blockIsInUse_of_header tiles.tagged_block.header

theorem size_block (tiles : Tiles heap memory (front ++ block :: back)) :
    getBlockSize memory (heap.start + span Block.size front) = block.size :=
  getBlockSize_of_header tiles.tagged_block.header tiles.block_bounds.1

theorem next_block (tiles : Tiles heap memory (front ++ block :: back)) :
    getNextBlock memory (heap.start + span Block.size front) =
      heap.start + span Block.size front + block.size :=
  getNextBlock_of_header tiles.tagged_block.header tiles.block_bounds.1
    tiles.block_bounds.2

theorem withMemory {newMemory : Memory}
    (tiles : Tiles heap memory blocks)
    (tagged : TaggedAll newMemory heap.start blocks) :
    Tiles heap newMemory blocks :=
  ⟨tiles.size, tiles.small, tiles.room, tiles.aligned, tagged⟩

theorem shift (tiles : Tiles heap memory (front ++ block :: back)) :
    Tiles heap memory ((front ++ [block]) ++ back) := by
  simpa using tiles

theorem payload_block (tiles : Tiles heap memory (front ++ block :: back)) :
    getBlockStart (heap.start + span Block.size front + 4) =
      heap.start + span Block.size front := by
  have room := tiles.block_bounds.2
  have large := block.large
  have start := offset_sub (heap.start + span Block.size front + 4)
    headerSize (by simp only [headerSize]; omega) (by omega)
  rw [getBlockStart, start]
  simp only [headerSize]
  omega

/-- Rewriting the tags of a stretch of blocks without moving its ends. -/
theorem replace (middle newMiddle : List Block) {newMemory : Memory}
    (tiles : Tiles heap memory (front ++ (middle ++ back)))
    (same : Memory.SameOutside (heap.start + span Block.size front)
      (heap.start + span Block.size front + span Block.size middle)
      memory newMemory)
    (newTagged : TaggedAll newMemory (heap.start + span Block.size front)
      newMiddle)
    (width : span Block.size newMiddle = span Block.size middle) :
    Tiles heap newMemory (front ++ (newMiddle ++ back)) := by
  have total : span Block.size (front ++ (newMiddle ++ back)) =
      span Block.size (front ++ (middle ++ back)) := by
    simp [width]
  constructor
  · rw [tiles.size, total]
  · rw [total]
    exact tiles.small
  · rw [total]
    exact tiles.room
  · exact tiles.aligned
  · exact tiles.tagged.replace middle newMiddle same newTagged width

theorem setBlockHeader (newBlock : Block) {inUse : Nat}
    (tiles : Tiles heap memory (front ++ block :: back))
    (sameSize : newBlock.size = block.size)
    (encodes : newBlock.size + inUse = newBlock.header) (bit : inUse < 2) :
    Tiles heap
        (setBlockHeader memory (heap.start + span Block.size front)
          block.size inUse)
        (front ++ newBlock :: back) ∧
      Memory.SameOutside (heap.start + span Block.size front)
        (heap.start + span Block.size front + block.size) memory
        (setBlockHeader memory (heap.start + span Block.size front)
          block.size inUse) := by
  obtain ⟨small, room⟩ := tiles.block_bounds
  rw [← sameSize] at small room
  have same := setBlockHeader_sameOutside memory _ _ small room bit
  have tagged := setBlockHeader_tagged memory _ _ small room encodes bit
  rw [sameSize] at same tagged
  refine ⟨?_, same⟩
  have rewritten := Tiles.replace [block] [newBlock] tiles
    (by simpa using same)
    (TaggedAll.cons_iff.mpr ⟨tagged, TaggedAll.nil _ _⟩)
    (by simp [sameSize])
  simpa using rewritten

end Tiles

theorem coalesce_outside {heap : Heap} {memory : Memory} {address : Nat}
    (outside : isWithinHeapRange heap address = false) :
    coalesce heap memory address = (heap, memory) := by
  simp [coalesce, outside]

theorem coalesce_skip {heap : Heap} {memory : Memory}
    {front back : List Block} {block : Block}
    (tiles : Tiles heap memory (front ++ block :: back))
    (blocked : ∀ next ∈ back.head?, ¬block.IsFree ∨ ¬next.IsFree) :
    coalesce heap memory (heap.start + span Block.size front) =
      (heap, memory) := by
  cases back with
  | nil =>
      have outside := tiles.not_within_end
      simp only [span_append, span_cons, span_nil, Nat.add_zero] at outside
      rw [coalesce, tiles.next_block, Nat.add_assoc, outside]
      simp
  | cons next rest =>
      have shifted := tiles.shift
      have nextInUse := shifted.inUse_block
      simp only [span_append, span_cons, span_nil, Nat.add_zero,
        ← Nat.add_assoc] at nextInUse
      rw [coalesce, tiles.next_block, tiles.inUse_block, nextInUse]
      rcases blocked next (by simp) with used | used
      · simp [used]
      · simp [used]

/-- The cursor after a merge at `address` whose result ends at `stop`. -/
def mergedCursor (searchAlg : SearchAlg) (cursor address stop : Nat) : Nat :=
  if cursor = stop ∧ searchAlg = .nextFit then address else cursor

theorem coalesce_of_free {heap : Heap} {memory : Memory} {address : Nat}
    (within : isWithinHeapRange heap address = true)
    (nextWithin :
      isWithinHeapRange heap (getNextBlock memory address) = true)
    (free : blockIsInUse memory address = 0)
    (nextFree : blockIsInUse memory (getNextBlock memory address) = 0) :
    coalesce heap memory address =
      ({ heap with
        next := mergedCursor heap.searchAlg heap.next address
          (getNextBlock (setBlockHeader memory address
            (toBlockSize (getBlockSize memory address +
              getBlockSize memory (getNextBlock memory address))) 0)
            address) },
      setBlockHeader memory address
        (toBlockSize (getBlockSize memory address +
          getBlockSize memory (getNextBlock memory address))) 0) := by
  rw [coalesce, within, nextWithin, free, nextFree]
  simp only [Bool.not_true, Bool.or_self, Bool.false_eq_true, if_false,
    ne_eq, not_true, or_self, mergedCursor]
  split <;> rfl

/-- Two free neighbours become one block; the cursor moves only when it was
already behind both of them. -/
theorem coalesce_merge {heap : Heap} {memory : Memory}
    {front back : List Block} {block next : Block}
    (tiles : Tiles heap memory (front ++ block :: next :: back))
    (free : block.IsFree) (nextFree : next.IsFree) :
    ∃ newMemory,
      coalesce heap memory (heap.start + span Block.size front) =
        ({ heap with
          next := mergedCursor heap.searchAlg heap.next
            (heap.start + span Block.size front)
            (heap.start + span Block.size front + (block.join next).size) },
        newMemory) ∧
      Tiles heap newMemory (front ++ block.join next :: back) ∧
      Memory.SameOutside (heap.start + span Block.size front)
        (heap.start + span Block.size front + (block.join next).size)
        memory newMemory := by
  have shifted := tiles.shift
  have nextWithin := shifted.within_block
  have nextInUse := shifted.inUse_block
  have nextSize := shifted.size_block
  simp only [span_append, span_cons, span_nil, Nat.add_zero,
    ← Nat.add_assoc] at nextWithin nextInUse nextSize
  have small := tiles.small
  have room := tiles.room
  simp only [span_append, span_cons] at small room
  have joinedSmall : (block.join next).size < 2 ^ 31 := by
    rw [Block.join_size]
    omega
  have joinedRoom : heap.start + span Block.size front +
      (block.join next).size < 2 ^ 64 := by
    rw [Block.join_size]
    omega
  have encodes : (block.join next).size + 0 = (block.join next).header := by
    rw [Block.header_of_isFree (Block.join_isFree _ _), Nat.add_zero]
  have same := setBlockHeader_sameOutside memory _ _ joinedSmall joinedRoom
    (show 0 < 2 by omega)
  have tagged := setBlockHeader_tagged memory _ _ joinedSmall joinedRoom encodes
    (by omega)
  refine ⟨_, ?_, ?_, same⟩
  · rw [← getNextBlock_of_header tagged.header joinedSmall joinedRoom]
    rw [coalesce_of_free tiles.within_block
      (by rw [tiles.next_block]; exact nextWithin)
      (by rw [tiles.inUse_block, if_pos free])
      (by rw [tiles.next_block, nextInUse, if_pos nextFree]),
      tiles.next_block, tiles.size_block, nextSize,
      toBlockSize_of_lt (by omega), Block.join_size]
  · exact Tiles.replace [block, next] [block.join next] tiles
      (by simpa using same)
      (TaggedAll.cons_iff.mpr ⟨tagged, TaggedAll.nil _ _⟩) (by simp)

end SystemsLabs.ImplicitHeap
