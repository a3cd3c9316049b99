import SystemsLabs.ImplicitHeap.WellFormed

/-!
# Freeing undoes allocating

The list of blocks that a walk over the heap shows is the same before a
request and after the payload it returned has been freed: the piece that was
cut off and the rest behind it are merged again, and nothing else is, since the
neighbours of a free block are in use.
-/

namespace SystemsLabs.ImplicitHeap

open Tiling Transition

/-- The blocks from an address on, as the loop of `heap_print` meets them:
address, size and use. -/
def blocksFrom (heap : Heap) (memory : Memory) :
    Nat → Nat → Option (List (Nat × Nat × Bool))
  | 0, _ => none
  | fuel + 1, current => do
      if isWithinHeapRange heap current then
        let rest ← blocksFrom heap memory fuel (getNextBlock memory current)
        return (current, getBlockSize memory current,
          blockIsInUse memory current ≠ 0) :: rest
      else
        return []

def blockList (fuel : Nat) (heap : Heap) (memory : Memory) :
    Option (List (Nat × Nat × Bool)) :=
  blocksFrom heap memory fuel heap.start

/-- The same list, read off a layout. -/
def rows (address : Nat) (blocks : List Block) : List (Nat × Nat × Bool) :=
  (placed Block.size address blocks).map fun entry =>
    (entry.1, entry.2.size, !entry.2.IsFree)

theorem blocksFrom_of_tiles {heap : Heap} {memory : Memory}
    (back : List Block) :
    ∀ (fuel : Nat) (front : List Block),
      Tiles heap memory (front ++ back) → back.length < fuel →
      blocksFrom heap memory fuel (heap.start + span Block.size front) =
        some (rows (heap.start + span Block.size front) back) := by
  induction back with
  | nil =>
      intro fuel front tiles enough
      obtain ⟨rounds, rfl⟩ := Nat.exists_eq_add_of_lt enough
      rw [List.append_nil] at tiles
      simp [blocksFrom, tiles.not_within_end, rows]
  | cons block rest ih =>
      intro fuel front tiles enough
      obtain ⟨rounds, rfl⟩ := Nat.exists_eq_add_of_lt enough
      have onward := ih (rest.length + 1 + rounds) (front ++ [block])
        tiles.shift (by omega)
      have next : heap.start + span Block.size (front ++ [block]) =
          heap.start + span Block.size front + block.size := by
        simp [Nat.add_assoc]
      rw [next] at onward
      rw [List.length_cons, blocksFrom, if_pos tiles.within_block,
        tiles.next_block, tiles.size_block, tiles.inUse_block, onward]
      by_cases free : block.IsFree
      · simp [rows, free]
      · simp [rows, free]

theorem Tiles.blockList {heap : Heap} {memory : Memory} {blocks : List Block}
    (tiles : Tiles heap memory blocks) {fuel : Nat}
    (enough : blocks.length < fuel) :
    blockList fuel heap memory = some (rows heap.start blocks) :=
  blocksFrom_of_tiles blocks fuel [] tiles enough

namespace Block

theorem release_grant {block : Block} (free : block.IsFree)
    (request : Request) (fits : request.needed ≤ block.size) :
    (block.grant request fits).release = block :=
  Block.ext rfl (isFree_iff.mp free).symm

theorem join_exact_rest {block : Block} (free : block.IsFree)
    (request : Request) (splits : block.Splits request) :
    (exact request).release.join (block.rest request splits) = block := by
  apply Block.ext
  · have room := splits.lt
    have cut : (exact request).release.size = request.needed := rfl
    have left : (block.rest request splits).size =
        block.size - request.needed := rfl
    rw [join_size, cut, left]
    omega
  · exact (isFree_iff.mp free).symm

end Block

/-- Releasing the block that was carved out restores the layout. -/
theorem compact_release_carve {front back tail : List Block} {block : Block}
    (settled : Settled (front ++ block :: back)) (free : block.IsFree)
    {request : Request} {fits : request.needed ≤ block.size}
    (carved : block.carve request fits =
      block.granted request fits :: tail) :
    compact (front ++ (block.granted request fits).release :: (tail ++ back)) =
      front ++ block :: back := by
  have backSettled := (settled_append.mp settled).2.1
  have restored : compact ((block.granted request fits).release ::
      (tail ++ back)) = compact (block :: back) := by
    by_cases splits : block.Splits request
    · have granted : block.granted request fits = Block.exact request :=
        if_pos splits
      have behind : tail = [block.rest request splits] := by
        rw [Block.carve, dif_pos splits, granted] at carved
        exact (List.cons.inj carved).2.symm
      have restBack := compact_of_settled
        (backSettled.replace_free free (block.rest request splits))
      have restFree : (block.rest request splits).IsFree :=
        Block.vacant_isFree _ _ _
      rw [granted, behind, compact, List.singleton_append, restBack, absorb,
        if_pos ⟨Block.release_isFree _, restFree⟩,
        Block.join_exact_rest free, compact_of_settled backSettled]
    · have granted : block.granted request fits = block.grant request fits :=
        if_neg splits
      have behind : tail = [] := by
        rw [Block.carve, dif_neg splits, granted] at carved
        exact (List.cons.inj carved).2.symm
      rw [granted, behind, Block.release_grant free, List.nil_append]
  rw [compact_append, restored, ← compact_append, compact_of_settled settled]

/-- Freeing the payload of a served request gives the layout back. -/
theorem Represents.undo {heap newHeap : Heap} {memory newMemory : Memory}
    {blocks : List Block} {request : Request} {payload : Nat}
    (represents : Represents heap memory blocks)
    (allocates : Allocates heap memory blocks request
      (some payload, newHeap, newMemory)) :
    ∃ cursor finalMemory,
      heapFree newHeap newMemory payload =
        ({ heap with next := cursor }, finalMemory) ∧
      Represents heap finalMemory blocks := by
  cases allocates with
  | @served front back block _ cursor fits split free newRepresents _ _ =>
      subst split
      obtain ⟨tail, carved⟩ := block.carve_head request fits
      rw [carved, List.cons_append] at newRepresents
      have moved : Represents { heap with next := cursor } newMemory
          (front ++ block.granted request fits :: (tail ++ back)) :=
        ⟨newRepresents.toTiles.withCursor cursor, newRepresents.settled⟩
      obtain ⟨finalMemory, _, _, freed, finalRepresents, _⟩ :=
        heapFree_spec moved
      rw [compact_release_carve represents.settled free carved]
        at finalRepresents
      exact ⟨_, finalMemory, freed,
        finalRepresents.toTiles.withCursor heap.next, finalRepresents.settled⟩

/-- In every session on a first-fit or best-fit heap, freeing the payload that
a request has just returned restores the list of blocks. -/
theorem heapFree_undoes_heapMalloc {base : Nat} {size : Int}
    {searchAlg : SearchAlg} {initial memory : Memory} {heap : Heap}
    (created : Created base size searchAlg initial heap memory)
    (policy : searchAlg ≠ .nextFit) {actions : List Action}
    {session : Session}
    (run : Run Step { heap := heap, memory := memory, live := [] } actions
      session)
    (request : Request) {fuel payload : Nat} {newHeap : Heap}
    {newMemory : Memory}
    (allocated : heapMalloc fuel session.heap session.memory request.bytes =
      some (some payload, newHeap, newMemory)) :
    ∃ blocks enough, ∀ rounds, enough ≤ rounds →
      blockList rounds session.heap session.memory = some blocks ∧
      blockList rounds (heapFree newHeap newMemory payload).1
        (heapFree newHeap newMemory payload).2 = some blocks := by
  obtain ⟨layout, consistent⟩ := created.sound policy run
  have represents := consistent.represents
  rcases heapMalloc_refines represents consistent.cursor request fuel with
    ⟨stuck, _⟩ | ⟨outcome, returned, allocates⟩
  · rw [allocated] at stuck
    cases stuck
  · rw [allocated] at returned
    cases returned
    obtain ⟨cursor, finalMemory, freed, restored⟩ := represents.undo allocates
    refine ⟨rows session.heap.start layout, layout.length + 1, ?_⟩
    intro rounds enough
    have final := restored.toTiles.withCursor cursor
    rw [freed]
    exact ⟨represents.toTiles.blockList enough, final.blockList enough⟩

/-- The first of two payloads has been freed and is requested again. -/
theorem smallSession_undo :
    ∃ session newHeap newMemory,
      Run Step (smallSession .bestFit fun _ => 255)
        [.malloc 8, .malloc 16, .free 4136] session ∧
      heapMalloc 4 session.heap session.memory 8 =
        some (some 4136, newHeap, newMemory) ∧
      ∃ blocks enough, ∀ rounds, enough ≤ rounds →
        blockList rounds session.heap session.memory = some blocks ∧
        blockList rounds (heapFree newHeap newMemory 4136).1
          (heapFree newHeap newMemory 4136).2 = some blocks := by
  have returned : (replay (Session.perform 4)
      (smallSession .bestFit fun _ => 255)
      [.malloc 8, .malloc 16, .free 4136]).map (fun session =>
        (heapMalloc 4 session.heap session.memory 8).map Prod.fst) =
          some (some (some 4136)) := by
    decide +kernel
  obtain ⟨session, replayed, served⟩ := Option.map_eq_some_iff.mp returned
  obtain ⟨⟨payload, newHeap, newMemory⟩, allocated, same⟩ :=
    Option.map_eq_some_iff.mp served
  cases same
  have run := Run.of_replay step_of_perform replayed
  have created := smallHeap_created .bestFit fun _ => 255
  exact ⟨session, newHeap, newMemory, run, allocated,
    heapFree_undoes_heapMalloc created SearchAlg.noConfusion run
      ⟨8, by decide, by decide⟩ allocated⟩

end SystemsLabs.ImplicitHeap
