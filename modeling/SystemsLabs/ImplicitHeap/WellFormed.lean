import SystemsLabs.ImplicitHeap.Create

/-!
# Well-formed heaps

The representation invariant in the words of the code: what a walk over the
heap by `getNextBlock` meets.  It holds after every step of every session on a
first-fit or best-fit heap.
-/

namespace SystemsLabs.ImplicitHeap

open Tiling Transition

/-- The blocks met from an address on, up to `stop`. -/
inductive Walk (memory : Memory) : Nat → List Nat → Nat → Prop where
  | done (address : Nat) : Walk memory address [] address
  | block {address stop : Nat} {rest : List Nat} :
      Walk memory (getNextBlock memory address) rest stop →
      Walk memory address (address :: rest) stop

structure WellFormed (session : Session) (visited : List Nat) : Prop where
  walk : Walk session.memory session.heap.start visited
    (offset session.heap.start session.heap.size)
  within : ∀ block ∈ visited, isWithinHeapRange session.heap block = true
  sizes : ∀ block ∈ visited,
    getBlockSize session.memory block % 8 = 0 ∧
      8 ≤ getBlockSize session.memory block
  tags : ∀ block ∈ visited,
    session.memory.load (offset (getPayload block)
        (getPayloadSize session.memory block)) 4 =
      session.memory.load block 4
  used : ∀ payload,
    (∃ block ∈ visited, blockIsInUse session.memory block = 1 ∧
      getPayload block = payload) ↔ ∃ size, (payload, size) ∈ session.live
  apart : visited.IsChain fun left right =>
    blockIsInUse session.memory left = 1 ∨
      blockIsInUse session.memory right = 1

theorem walk_of_tiles {heap : Heap} {memory : Memory} (back : List Block) :
    ∀ front : List Block, Tiles heap memory (front ++ back) →
      Walk memory (heap.start + span Block.size front)
        (addresses Block.size (heap.start + span Block.size front) back)
        (heap.start + span Block.size (front ++ back)) := by
  induction back with
  | nil =>
      intro front _
      rw [List.append_nil]
      exact .done _
  | cons block rest ih =>
      intro front tiles
      have onward := ih (front ++ [block]) tiles.shift
      rw [addresses_cons]
      apply Walk.block
      rw [tiles.next_block]
      simpa [Nat.add_assoc] using onward

theorem chain_of_settled {heap : Heap} {memory : Memory} (back : List Block) :
    ∀ front : List Block, Tiles heap memory (front ++ back) → Settled back →
      (addresses Block.size (heap.start + span Block.size front)
        back).IsChain fun left right =>
          blockIsInUse memory left = 1 ∨ blockIsInUse memory right = 1 := by
  induction back with
  | nil =>
      intro front _ _
      exact List.isChain_nil
  | cons block rest ih =>
      intro front tiles settled
      cases rest with
      | nil => exact List.isChain_singleton _
      | cons next rest =>
          have onward := ih (front ++ [block]) tiles.shift settled.tail
          have nextInUse := tiles.shift.inUse_block
          simp only [span_append, span_cons, span_nil, Nat.add_zero,
            ← Nat.add_assoc] at onward nextInUse
          apply List.isChain_cons_cons.mpr
          refine ⟨?_, onward⟩
          rw [tiles.inUse_block, nextInUse]
          rcases (settled_cons.mp settled).1 with used | used
          · exact .inl (if_neg used)
          · exact .inr (if_neg used)

namespace Tiles

variable {heap : Heap} {memory : Memory} {front back : List Block}
  {block : Block}

theorem getPayload_block
    (tiles : Tiles heap memory (front ++ block :: back)) :
    getPayload (heap.start + span Block.size front) =
      heap.start + span Block.size front + 4 := by
  have room := tiles.block_bounds.2
  have large := block.large
  exact offset_add _ headerSize (by simp only [headerSize]; omega)

theorem footer_block (tiles : Tiles heap memory (front ++ block :: back)) :
    memory.load (offset (getPayload (heap.start + span Block.size front))
        (getPayloadSize memory (heap.start + span Block.size front))) 4 =
      memory.load (heap.start + span Block.size front) 4 := by
  obtain ⟨small, room⟩ := tiles.block_bounds
  have large := block.large
  have payloadSize : getPayloadSize memory
      (heap.start + span Block.size front) = block.size - 8 := by
    rw [getPayloadSize, tiles.size_block]
    simp only [toBlockSize, headerSize]
    omega
  have footer : offset (getPayload (heap.start + span Block.size front))
      ((block.size - 8 : Nat) : Int) =
      heap.start + span Block.size front + block.size - 4 := by
    rw [tiles.getPayload_block, offset_add _ _ (by omega)]
    omega
  rw [payloadSize, footer, tiles.tagged_block.footer,
    tiles.tagged_block.header]

end Tiles

theorem Consistent.wellFormed {session : Session} {blocks : List Block}
    (consistent : Consistent session blocks) :
    WellFormed session (starts session.heap blocks) := by
  have tiles := consistent.represents.toTiles
  constructor
  · have walk := walk_of_tiles blocks [] tiles
    rw [tiles.size, offset_add _ _ tiles.room]
    simpa [starts] using walk
  · intro address member
    obtain ⟨block, placedMember⟩ := mem_addresses.mp member
    obtain ⟨front, back, split, rfl⟩ := exists_split placedMember
    subst split
    exact tiles.within_block
  · intro address member
    obtain ⟨block, placedMember⟩ := mem_addresses.mp member
    obtain ⟨front, back, split, rfl⟩ := exists_split placedMember
    subst split
    rw [tiles.size_block]
    exact ⟨block.aligned, block.large⟩
  · intro address member
    obtain ⟨block, placedMember⟩ := mem_addresses.mp member
    obtain ⟨front, back, split, rfl⟩ := exists_split placedMember
    subst split
    exact tiles.footer_block
  · intro payload
    constructor
    · rintro ⟨address, member, inUse, place⟩
      obtain ⟨block, placedMember⟩ := mem_addresses.mp member
      obtain ⟨front, back, split, rfl⟩ := exists_split placedMember
      subst split
      rw [tiles.inUse_block] at inUse
      rw [tiles.getPayload_block] at place
      cases granted : block.request with
      | none => simp [Block.isFree_iff.mpr granted] at inUse
      | some size =>
          exact ⟨size, (consistent.live_iff payload size).mpr
            ⟨_, place.symm, block, placedMember, granted⟩⟩
    · rintro ⟨size, live⟩
      obtain ⟨address, block, placedMember, place, granted, _⟩ :=
        consistent.block_of_live live
      refine ⟨address, mem_addresses.mpr ⟨block, placedMember⟩, ?_, ?_⟩
      · obtain ⟨front, back, split, rfl⟩ := exists_split placedMember
        subst split
        rw [tiles.inUse_block, if_neg]
        simp [Block.isFree_iff, granted]
      · obtain ⟨front, back, split, rfl⟩ := exists_split placedMember
        subst split
        rw [tiles.getPayload_block, place]
  · have chain := chain_of_settled blocks [] tiles consistent.represents.settled
    simpa [starts] using chain

/-- A request returns when the fuel exceeds the number of blocks. -/
theorem Consistent.malloc_returns {session : Session} {blocks : List Block}
    (consistent : Consistent session blocks) (request : Request) {fuel : Nat}
    (enough : blocks.length < fuel) :
    (heapMalloc fuel session.heap session.memory request.bytes).isSome := by
  rcases heapMalloc_refines consistent.represents consistent.cursor request
    fuel with ⟨_, short⟩ | ⟨outcome, result, _⟩
  · omega
  · rw [result]
    rfl

/-- Every session on a first-fit or best-fit heap keeps the heap well formed,
and every request returns. -/
theorem session_wellFormed {base : Nat} {size : Int}
    {searchAlg : SearchAlg} {initial memory : Memory} {heap : Heap}
    (created : Created base size searchAlg initial heap memory)
    (policy : searchAlg ≠ .nextFit) {actions : List Action}
    {session : Session}
    (run : Run Step { heap := heap, memory := memory, live := [] } actions
      session) :
    (∃ visited, WellFormed session visited) ∧
      ∀ request : Request, ∃ enough, ∀ fuel, enough ≤ fuel →
        (heapMalloc fuel session.heap session.memory request.bytes).isSome := by
  obtain ⟨blocks, consistent⟩ := created.sound policy run
  refine ⟨⟨_, consistent.wellFormed⟩, ?_⟩
  intro request
  refine ⟨blocks.length + 1, ?_⟩
  intro fuel enough
  exact consistent.malloc_returns request enough

theorem smallSession_wellFormed :
    ∃ session,
      Run Step (smallSession .bestFit fun _ => 255)
        [.malloc 8, .malloc 16, .free 4136] session ∧
      session.live = [(4152, 16)] ∧ ∃ visited, WellFormed session visited := by
  have returned : (replay (Session.perform 4)
      (smallSession .bestFit fun _ => 255)
      [.malloc 8, .malloc 16, .free 4136]).map Session.live =
        some [(4152, 16)] := by
    decide +kernel
  obtain ⟨session, replayed, live⟩ := Option.map_eq_some_iff.mp returned
  have run := Run.of_replay step_of_perform replayed
  have created := smallHeap_created .bestFit fun _ => 255
  exact ⟨session, run, live,
    (session_wellFormed created SearchAlg.noConfusion run).1⟩

end SystemsLabs.ImplicitHeap
