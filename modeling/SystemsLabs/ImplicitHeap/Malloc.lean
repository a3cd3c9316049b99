import SystemsLabs.ImplicitHeap.Represents

/-!
# Allocation refines carving

The search loops return the block that a search of the layout finds, and
`prepareBlockForUse` replaces it by the blocks that `Block.carve` gives.  The
three `malloc` functions therefore either find no block that fits and change
nothing, or serve the request from one free block.
-/

namespace SystemsLabs.ImplicitHeap

open Tiling

/-- A block from which the request can be served. -/
def Block.Fits (request : Request) (block : Block) : Prop :=
  block.IsFree ∧ request.needed ≤ block.size

instance (request : Request) (block : Block) :
    Decidable (block.Fits request) :=
  inferInstanceAs (Decidable (_ ∧ _))

theorem getSizeToAllocate_request (request : Request) :
    getSizeToAllocate request.bytes = some request.needed := by
  have small := request.small
  rw [getSizeToAllocate, if_pos request.aligned, toBlockSize_of_lt]
  · rfl
  · simp only [headerSize]
    omega

section Search

variable {heap : Heap} {memory : Memory} {request : Request}

theorem blockFits_spec {front back : List Block} {block : Block}
    (tiles : Tiles heap memory (front ++ block :: back)) :
    blockFits memory request.bytes (heap.start + span Block.size front) =
      some (decide (block.Fits request)) := by
  rw [blockFits, tiles.inUse_block, tiles.size_block,
    getSizeToAllocate_request]
  by_cases free : block.IsFree
  · simp [free, Block.Fits]
  · simp [free, Block.Fits]

/-- The first block, with its address, that satisfies the test. -/
def firstFit (request : Request) (blocks : List (Nat × Block)) :
    Option (Nat × Block) :=
  blocks.find? fun entry => entry.2.Fits request

/-- A search loop that returns has found the first fitting block from
`current` on, and it returns when the fuel exceeds the number of blocks. -/
theorem searchLoop_spec (request : Request) (back : List Block) :
    ∀ (fuel : Nat) (front : List Block),
      Tiles heap memory (front ++ back) →
      let found := (firstFit request (placed Block.size
        (heap.start + span Block.size front) back)).map Prod.fst
      let result := searchLoop heap memory request.bytes fuel
        (heap.start + span Block.size front)
      (result = none ∧ fuel ≤ back.length) ∨ result = some found := by
  induction back with
  | nil =>
      intro fuel front tiles
      cases fuel with
      | zero => exact .inl ⟨rfl, Nat.zero_le _⟩
      | succ fuel =>
          right
          rw [List.append_nil] at tiles
          simp [searchLoop, tiles.not_within_end, firstFit]
  | cons block rest ih =>
      intro fuel front tiles
      cases fuel with
      | zero => exact .inl ⟨rfl, Nat.zero_le _⟩
      | succ fuel =>
          by_cases fits : block.Fits request
          · right
            simp [searchLoop, tiles.within_block, blockFits_spec tiles, fits,
              firstFit]
          · have onward := ih fuel (front ++ [block]) tiles.shift
            have step : searchLoop heap memory request.bytes (fuel + 1)
                (heap.start + span Block.size front) =
                searchLoop heap memory request.bytes fuel
                  (heap.start + span Block.size (front ++ [block])) := by
              simp [searchLoop, tiles.within_block, blockFits_spec tiles,
                fits, tiles.next_block, Nat.add_assoc]
            have skip : firstFit request (placed Block.size
                (heap.start + span Block.size front) (block :: rest)) =
                firstFit request (placed Block.size
                  (heap.start + span Block.size (front ++ [block])) rest) := by
              simp [firstFit, fits, Nat.add_assoc]
            simp only [step, skip]
            rcases onward with ⟨stuck, short⟩ | found
            · exact .inl ⟨stuck, by simp only [List.length_cons]; omega⟩
            · exact .inr found

/-- The last block of least size among those that satisfy the test, with the
difference of the best block so far as accumulator. -/
def bestFit (request : Request) :
    List (Nat × Block) → Int → Option Nat → Option Nat
  | [], _, best => best
  | entry :: rest, smallest, best =>
      if entry.2.Fits request ∧
          (entry.2.size : Int) - request.needed ≤ smallest then
        bestFit request rest ((entry.2.size : Int) - request.needed)
          (some entry.1)
      else bestFit request rest smallest best

theorem bestFitLoop_round {front back : List Block} {block : Block}
    (tiles : Tiles heap memory (front ++ block :: back)) (fuel : Nat)
    (smallest : Int) (best : Option Nat) :
    bestFitLoop heap memory request.bytes (fuel + 1)
        (heap.start + span Block.size front) smallest best =
      if block.Fits request ∧
          (block.size : Int) - request.needed ≤ smallest then
        bestFitLoop heap memory request.bytes fuel
          (heap.start + span Block.size (front ++ [block]))
          ((block.size : Int) - request.needed)
          (some (heap.start + span Block.size front))
      else
        bestFitLoop heap memory request.bytes fuel
          (heap.start + span Block.size (front ++ [block])) smallest best := by
  have next : heap.start + span Block.size (front ++ [block]) =
      heap.start + span Block.size front + block.size := by
    simp [Nat.add_assoc]
  rw [next, bestFitLoop, tiles.within_block, if_pos rfl,
    blockFits_spec tiles, tiles.next_block, tiles.size_block,
    getSizeToAllocate_request]
  by_cases fits : block.Fits request
  · have small := tiles.block_bounds.1
    have room := fits.2
    have wrapped : toBlockSize (block.size + 2 ^ 32 - request.needed) =
        block.size - request.needed := by
      unfold toBlockSize
      omega
    have difference : toInt (toBlockSize
        (block.size + 2 ^ 32 - request.needed)) =
        (block.size : Int) - request.needed := by
      rw [wrapped, toInt_of_bounds (by omega) (by omega)]
      omega
    simp only [Option.bind_eq_bind, Option.bind_some, fits, decide_true,
      if_true, difference, true_and]
  · simp only [Option.bind_eq_bind, Option.bind_some, fits, decide_false,
      Bool.false_eq_true, if_false, false_and]

theorem bestFitLoop_spec (request : Request) (back : List Block) :
    ∀ (fuel : Nat) (front : List Block) (smallest : Int) (best : Option Nat),
      Tiles heap memory (front ++ back) →
      let found := bestFit request (placed Block.size
        (heap.start + span Block.size front) back) smallest best
      let result := bestFitLoop heap memory request.bytes fuel
        (heap.start + span Block.size front) smallest best
      (result = none ∧ fuel ≤ back.length) ∨ result = some found := by
  induction back with
  | nil =>
      intro fuel front smallest best tiles
      cases fuel with
      | zero => exact .inl ⟨rfl, Nat.zero_le _⟩
      | succ fuel =>
          right
          rw [List.append_nil] at tiles
          simp [bestFitLoop, tiles.not_within_end, bestFit]
  | cons block rest ih =>
      intro fuel front smallest best tiles
      cases fuel with
      | zero => exact .inl ⟨rfl, Nat.zero_le _⟩
      | succ fuel =>
          have next : heap.start + span Block.size front + block.size =
              heap.start + span Block.size (front ++ [block]) := by
            simp [Nat.add_assoc]
          simp only [bestFitLoop_round tiles, placed_cons, bestFit, next]
          by_cases better : block.Fits request ∧
              (block.size : Int) - request.needed ≤ smallest
          · simp only [if_pos better]
            rcases ih fuel (front ++ [block])
              ((block.size : Int) - request.needed)
              (some (heap.start + span Block.size front)) tiles.shift
              with ⟨stuck, short⟩ | found
            · exact .inl ⟨stuck, Nat.succ_le_succ short⟩
            · exact .inr found
          · simp only [if_neg better]
            rcases ih fuel (front ++ [block]) smallest best tiles.shift
              with ⟨stuck, short⟩ | found
            · exact .inl ⟨stuck, Nat.succ_le_succ short⟩
            · exact .inr found

end Search

section Prepare

variable {heap : Heap} {memory : Memory} {front back : List Block}
  {block : Block}

/-- The code splits a block exactly when the layout does: neither the sum nor
the product wraps when the request fits. -/
theorem splits_iff (request : Request) (fits : request.needed ≤ block.size)
    (small : block.size < 2 ^ 31) :
    (toBlockSize (request.needed + maxUnusedBytes) < block.size ∨
      toBlockSize (request.needed * 2) < block.size) ↔
      block.Splits request := by
  have sum : toBlockSize (request.needed + maxUnusedBytes) =
      request.needed + 128 :=
    toBlockSize_of_lt (by simp only [maxUnusedBytes]; omega)
  have product : toBlockSize (request.needed * 2) = request.needed * 2 :=
    toBlockSize_of_lt (by omega)
  rw [sum, product, Block.Splits]

/-- Splitting writes the tags of the rest first and of the used block last. -/
theorem split_spec (tiles : Tiles heap memory (front ++ block :: back))
    (request : Request) (splits : block.Splits request) :
    let address := heap.start + span Block.size front
    let newMemory := setBlockHeader
      (setBlockHeader memory (address + request.needed)
        (block.size - request.needed) 0)
      address request.needed 1
    Tiles heap newMemory
        (front ++ ([Block.exact request, block.rest request splits] ++ back)) ∧
      Memory.SameOutside address (address + block.size) memory newMemory := by
  intro address newMemory
  obtain ⟨small, room⟩ := tiles.block_bounds
  have cut := splits.lt
  let used := Block.exact request
  let rest := block.rest request splits
  have usedSize : used.size = request.needed := rfl
  have restSize : rest.size = block.size - request.needed := rfl
  have restRoom : address + request.needed + rest.size < 2 ^ 64 := by
    omega
  have restSame := setBlockHeader_sameOutside memory
    (address + request.needed) rest (by omega) restRoom Nat.zero_lt_two
  have restFree : rest.IsFree := Block.vacant_isFree _ _ _
  have restTagged := setBlockHeader_tagged memory
    (address + request.needed) rest (by omega) restRoom
    (by rw [Block.header_of_isFree restFree, Nat.add_zero])
    Nat.zero_lt_two
  rw [restSize] at restSame restTagged
  let middle := setBlockHeader memory (address + request.needed)
    (block.size - request.needed) 0
  have usedSame := setBlockHeader_sameOutside middle address used
    (by omega) (by omega) Nat.one_lt_two
  have usedTagged := setBlockHeader_tagged middle address used
    (by omega) (by omega)
    (by rw [Block.header_of_used (by simp [Block.isFree_iff, used, Block.exact])])
    Nat.one_lt_two
  rw [usedSize] at usedSame usedTagged
  have restKept : Tagged newMemory (address + request.needed) rest :=
    restTagged.frame usedSame (by omega)
  have same : Memory.SameOutside address (address + block.size) memory
      newMemory :=
    (restSame.mono (by omega) (by omega)).trans
      (usedSame.mono (by omega) (by omega))
  refine ⟨?_, same⟩
  apply Tiles.replace [block] [used, rest] tiles
  · simpa using same
  · apply TaggedAll.cons_iff.mpr
    refine ⟨usedTagged, ?_⟩
    apply TaggedAll.cons_iff.mpr
    exact ⟨restKept, TaggedAll.nil _ _⟩
  · simp only [span_cons, span_nil, usedSize, restSize]
    omega

/-- `prepareBlockForUse` refines `Block.carve`. -/
theorem prepareBlockForUse_spec
    (tiles : Tiles heap memory (front ++ block :: back)) (request : Request)
    (fits : request.needed ≤ block.size) :
    ∃ newMemory,
      prepareBlockForUse memory (heap.start + span Block.size front)
          request.bytes =
        some (heap.start + span Block.size front + 4, newMemory) ∧
      Tiles heap newMemory (front ++ (block.carve request fits ++ back)) ∧
      Memory.SameOutside (heap.start + span Block.size front)
        (heap.start + span Block.size front + block.size) memory
        newMemory := by
  obtain ⟨small, room⟩ := tiles.block_bounds
  have large := block.large
  have payload : offset (heap.start + span Block.size front) headerSize =
      heap.start + span Block.size front + 4 :=
    offset_add _ headerSize (by simp only [headerSize]; omega)
  have decision := splits_iff request fits small
  rw [prepareBlockForUse, getSizeToAllocate_request, tiles.size_block]
  by_cases splits : block.Splits request
  · obtain ⟨newTiles, same⟩ := split_spec tiles request splits
    have cut := splits.lt
    have wrapped : toBlockSize (block.size + 2 ^ 32 - request.needed) =
        block.size - request.needed := by
      unfold toBlockSize
      omega
    have position : offset (heap.start + span Block.size front)
        request.needed = heap.start + span Block.size front + request.needed :=
      offset_add _ _ (by omega)
    refine ⟨_, ?_, ?_, same⟩
    · simp only [Option.bind_eq_bind, Option.bind_some,
        if_pos (decision.mpr splits), wrapped, position, payload]
      rfl
    · rw [Block.carve, dif_pos splits]
      exact newTiles
  · have encodes : (block.grant request fits).size + 1 =
        (block.grant request fits).header := by
      rw [Block.header_of_used (by simp [Block.isFree_iff, Block.grant])]
    obtain ⟨newTiles, same⟩ := Tiles.setBlockHeader
      (block.grant request fits) tiles rfl encodes Nat.one_lt_two
    refine ⟨_, ?_, ?_, same⟩
    · simp only [Option.bind_eq_bind, Option.bind_some,
        if_neg (mt decision.mp splits), payload]
      rfl
    · rw [Block.carve, dif_neg splits]
      exact newTiles

end Prepare

/-- What a call of `heap_malloc` does to a represented heap: it refuses a
request that no free block can hold, or it serves the request from one free
block. -/
inductive Allocates (heap : Heap) (memory : Memory) (blocks : List Block)
    (request : Request) : MallocResult → Prop where
  | refused :
      (∀ block ∈ blocks, ¬block.Fits request) →
      Allocates heap memory blocks request (none, heap, memory)
  | served {front back : List Block} {block : Block} {newMemory : Memory}
      {cursor : Nat} (fits : request.needed ≤ block.size) :
      blocks = front ++ block :: back →
      block.IsFree →
      Represents heap newMemory
        (front ++ (block.carve request fits ++ back)) →
      Memory.SameOutside (heap.start + span Block.size front)
        (heap.start + span Block.size front + block.size)
        memory newMemory →
      (cursor = if heap.searchAlg = .nextFit then
        heap.start + span Block.size front else heap.next) →
      Allocates heap memory blocks request
        (some (heap.start + span Block.size front + 4),
          { heap with next := cursor }, newMemory)

section Serve

variable {heap : Heap} {memory : Memory} {blocks : List Block}
  {request : Request}

theorem firstFit_some {candidates : List (Nat × Block)} {entry : Nat × Block}
    (found : firstFit request candidates = some entry) :
    entry ∈ candidates ∧ entry.2.Fits request :=
  ⟨List.mem_of_find?_eq_some found,
    by simpa using List.find?_some found⟩

theorem firstFit_none {candidates : List (Nat × Block)}
    (nothing : firstFit request candidates = none) :
    ∀ entry ∈ candidates, ¬entry.2.Fits request := by
  simpa [firstFit] using nothing

theorem bestFit_some {candidates : List (Nat × Block)} {smallest : Int}
    {best : Option Nat} {address : Nat}
    (found : bestFit request candidates smallest best = some address) :
    best = some address ∨
      ∃ block, (address, block) ∈ candidates ∧ block.Fits request := by
  induction candidates generalizing smallest best with
  | nil => exact .inl found
  | cons entry rest ih =>
      by_cases better : entry.2.Fits request ∧
          (entry.2.size : Int) - request.needed ≤ smallest
      · rw [bestFit, if_pos better] at found
        rcases ih found with here | ⟨block, member, fits⟩
        · cases here
          exact .inr ⟨entry.2, List.mem_cons_self, better.1⟩
        · exact .inr ⟨block, List.mem_cons_of_mem _ member, fits⟩
      · rw [bestFit, if_neg better] at found
        rcases ih found with here | ⟨block, member, fits⟩
        · exact .inl here
        · exact .inr ⟨block, List.mem_cons_of_mem _ member, fits⟩

theorem bestFit_isSome {candidates : List (Nat × Block)} {smallest : Int}
    {address : Nat} :
    bestFit request candidates smallest (some address) ≠ none := by
  induction candidates generalizing smallest address with
  | nil => simp [bestFit]
  | cons entry rest ih =>
      rw [bestFit]
      split
      · exact ih
      · exact ih

theorem bestFit_none {candidates : List (Nat × Block)} {smallest : Int}
    {best : Option Nat}
    (nothing : bestFit request candidates smallest best = none) :
    ∀ entry ∈ candidates, entry.2.Fits request →
      smallest < (entry.2.size : Int) - request.needed := by
  induction candidates generalizing best with
  | nil => simp
  | cons entry rest ih =>
      by_cases better : entry.2.Fits request ∧
          (entry.2.size : Int) - request.needed ≤ smallest
      · rw [bestFit, if_pos better] at nothing
        exact (bestFit_isSome nothing).elim
      · rw [bestFit, if_neg better] at nothing
        intro other member fits
        rcases List.mem_cons.mp member with rfl | later
        · have worse := (not_and.mp better) fits
          omega
        · exact ih nothing other later fits

theorem none_fits_of_placed {address : Nat}
    (nothing : ∀ entry ∈ placed Block.size address blocks,
      ¬entry.2.Fits request) :
    ∀ block ∈ blocks, ¬block.Fits request := by
  intro block member
  obtain ⟨position, placedMember⟩ := exists_placed address member
  exact nothing _ placedMember

theorem serve (represents : Represents heap memory blocks) {address : Nat}
    {block : Block}
    (member : (address, block) ∈ placed Block.size heap.start blocks)
    (fits : block.Fits request) (cursor : Nat)
    (moved : cursor = if heap.searchAlg = .nextFit then address
      else heap.next) :
    ∃ newMemory,
      prepareBlockForUse memory address request.bytes =
        some (address + 4, newMemory) ∧
      getBlockStart (address + 4) = address ∧
      Allocates heap memory blocks request
        (some (address + 4), { heap with next := cursor }, newMemory) := by
  obtain ⟨front, back, rfl, rfl⟩ := exists_split member
  have tiles := represents.toTiles
  obtain ⟨newMemory, result, newTiles, same⟩ :=
    prepareBlockForUse_spec tiles request fits.2
  refine ⟨newMemory, result, tiles.payload_block, ?_⟩
  exact .served fits.2 rfl fits.1
    ⟨newTiles, settled_carve represents.settled fits.1 request fits.2⟩
    same moved

end Serve

section Functions

variable {heap : Heap} {memory : Memory} {blocks : List Block}

/-- A function that runs out of fuel was given no more than there are blocks;
otherwise it allocates. -/
def Refines (heap : Heap) (memory : Memory) (blocks : List Block)
    (request : Request) (fuel : Nat) (result : Option MallocResult) : Prop :=
  (result = none ∧ fuel ≤ blocks.length) ∨
    ∃ outcome, result = some outcome ∧
      Allocates heap memory blocks request outcome

theorem mallocFirstFit_refines (represents : Represents heap memory blocks)
    (policy : heap.searchAlg = .firstFit) (request : Request) (fuel : Nat) :
    Refines heap memory blocks request fuel
      (mallocFirstFit fuel heap memory request.bytes) := by
  have search := searchLoop_spec request blocks fuel [] represents.toTiles
  simp only [span_nil, Nat.add_zero] at search
  rcases search with ⟨stuck, short⟩ | returned
  · exact .inl ⟨by rw [mallocFirstFit, stuck]; rfl, short⟩
  · cases found : firstFit request
        (placed Block.size heap.start blocks) with
    | none =>
        rw [found] at returned
        refine .inr ⟨(none, heap, memory), ?_, .refused ?_⟩
        · rw [mallocFirstFit, returned]
          rfl
        · exact none_fits_of_placed (firstFit_none found)
    | some entry =>
        rw [found] at returned
        obtain ⟨member, fits⟩ := firstFit_some found
        obtain ⟨newMemory, prepared, _, allocates⟩ :=
          serve represents member fits heap.next (by simp [policy])
        refine .inr ⟨_, ?_, allocates⟩
        rw [mallocFirstFit, returned]
        simp only [Option.map_some, Option.bind_eq_bind, Option.bind_some,
          prepared]
        rfl

theorem mallocBestFit_refines (represents : Represents heap memory blocks)
    (policy : heap.searchAlg = .bestFit) (request : Request) (fuel : Nat) :
    Refines heap memory blocks request fuel
      (mallocBestFit fuel heap memory request.bytes) := by
  have tiles := represents.toTiles
  have small := tiles.small
  have whole : toInt heap.size = span Block.size blocks := by
    rw [tiles.size]
    exact toInt_of_bounds (by omega) (by omega)
  have search := bestFitLoop_spec request blocks fuel []
    (toInt heap.size) none represents.toTiles
  simp only [span_nil, Nat.add_zero] at search
  rcases search with ⟨stuck, short⟩ | returned
  · exact .inl ⟨by rw [mallocBestFit, stuck]; rfl, short⟩
  · cases found : bestFit request (placed Block.size heap.start blocks)
        (toInt heap.size) none with
    | none =>
        rw [found] at returned
        refine .inr ⟨(none, heap, memory), ?_, .refused ?_⟩
        · rw [mallocBestFit, returned]
          rfl
        · -- no difference exceeds the size of the heap
          apply none_fits_of_placed
          intro entry member fits
          have large := bestFit_none found entry member fits
          have room := bounds member
          rw [whole] at large
          omega
    | some address =>
        rw [found] at returned
        rcases bestFit_some found with impossible | ⟨block, member, fits⟩
        · cases impossible
        · obtain ⟨newMemory, prepared, _, allocates⟩ :=
            serve represents member fits heap.next (by simp [policy])
          refine .inr ⟨_, ?_, allocates⟩
          rw [mallocBestFit, returned]
          simp only [Option.bind_eq_bind, Option.bind_some, prepared]
          rfl

theorem mallocNextFit_refines (represents : Represents heap memory blocks)
    (policy : heap.searchAlg = .nextFit)
    (cursor : heap.next ∈ starts heap blocks) (request : Request)
    (fuel : Nat) :
    Refines heap memory blocks request fuel
      (mallocNextFit fuel heap memory request.bytes) := by
  -- both searches, the second one only when the first one finds nothing
  obtain ⟨block, member⟩ := mem_addresses.mp cursor
  obtain ⟨front, back, split, place⟩ := exists_split member
  have finish : ∀ entry ∈ placed Block.size heap.start blocks,
      entry.2.Fits request →
      ∃ newMemory,
        prepareBlockForUse memory entry.1 request.bytes =
          some (entry.1 + 4, newMemory) ∧
        Allocates heap memory blocks request
          (some (entry.1 + 4),
            { heap with next := getBlockStart (entry.1 + 4) }, newMemory) := by
    intro entry member fits
    obtain ⟨newMemory, prepared, home, allocates⟩ :=
      serve represents member fits entry.1 (by simp [policy])
    refine ⟨newMemory, prepared, ?_⟩
    rw [home]
    exact allocates
  have fromCursor := searchLoop_spec request (block :: back) fuel front
    (by rw [← split]; exact represents.toTiles)
  rw [← place] at fromCursor
  rcases fromCursor with ⟨stuck, short⟩ | returned
  · refine .inl ⟨by rw [mallocNextFit, stuck]; rfl, ?_⟩
    rw [split, List.length_append]
    omega
  · cases found : firstFit request
        (placed Block.size heap.next (block :: back)) with
    | some entry =>
        rw [found] at returned
        obtain ⟨inBack, fits⟩ := firstFit_some found
        have inBlocks : entry ∈ placed Block.size heap.start blocks := by
          rw [split, placed_append, ← place]
          exact List.mem_append_right _ inBack
        obtain ⟨newMemory, prepared, allocates⟩ := finish entry inBlocks fits
        refine .inr ⟨_, ?_, allocates⟩
        rw [mallocNextFit, returned]
        simp only [Option.map_some, Option.bind_eq_bind, Option.bind_some,
          prepared]
        rfl
    | none =>
        rw [found] at returned
        have fromStart := searchLoop_spec request blocks fuel []
          represents.toTiles
        simp only [span_nil, Nat.add_zero] at fromStart
        rcases fromStart with ⟨stuck, short⟩ | again
        · refine .inl ⟨?_, short⟩
          rw [mallocNextFit, returned]
          simp only [Option.map_none, Option.bind_eq_bind, Option.bind_some,
            stuck]
          rfl
        · cases foundAgain : firstFit request
              (placed Block.size heap.start blocks) with
          | none =>
              rw [foundAgain] at again
              refine .inr ⟨(none, heap, memory), ?_, .refused ?_⟩
              · rw [mallocNextFit, returned]
                simp only [Option.map_none, Option.bind_eq_bind,
                  Option.bind_some, again]
                rfl
              · exact none_fits_of_placed (firstFit_none foundAgain)
          | some entry =>
              rw [foundAgain] at again
              obtain ⟨inBlocks, fits⟩ := firstFit_some foundAgain
              obtain ⟨newMemory, prepared, allocates⟩ :=
                finish entry inBlocks fits
              refine .inr ⟨_, ?_, allocates⟩
              rw [mallocNextFit, returned]
              simp only [Option.map_none, Option.map_some, Option.bind_eq_bind,
                Option.bind_some, again, prepared]
              rfl

/-- The three search strategies refine the same abstract operation. -/
theorem heapMalloc_refines (represents : Represents heap memory blocks)
    (cursor : heap.searchAlg = .nextFit → heap.next ∈ starts heap blocks)
    (request : Request) (fuel : Nat) :
    Refines heap memory blocks request fuel
      (heapMalloc fuel heap memory request.bytes) := by
  cases policy : heap.searchAlg with
  | firstFit =>
      simpa only [heapMalloc, policy] using
        mallocFirstFit_refines represents policy request fuel
  | nextFit =>
      simpa only [heapMalloc, policy] using
        mallocNextFit_refines represents policy (cursor policy) request fuel
  | bestFit =>
      simpa only [heapMalloc, policy] using
        mallocBestFit_refines represents policy request fuel

end Functions

end SystemsLabs.ImplicitHeap
