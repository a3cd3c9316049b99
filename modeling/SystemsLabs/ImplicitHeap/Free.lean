import SystemsLabs.ImplicitHeap.Represents

/-!
# Freeing refines compaction

`heapFree` on a settled layout marks the block free and merges it with its
free neighbours.  At the front of the heap the word in front of the area is
read as a footer; whatever it contains, nothing is merged through it.
-/

namespace SystemsLabs.ImplicitHeap

open Tiling

/-- The cursor after `coalesce` on a block followed by `blocks`. -/
def absorbCursor (searchAlg : SearchAlg) (cursor address : Nat)
    (block : Block) : List Block → Nat
  | [] => cursor
  | next :: _ =>
      if block.IsFree ∧ next.IsFree then
        mergedCursor searchAlg cursor address
          (address + (block.join next).size)
      else cursor

/-- The cursor after the two calls of `coalesce` that free a block. -/
def releaseCursor (heap : Heap) (front : List Block) (block : Block)
    (back : List Block) : Nat :=
  let address := heap.start + span Block.size front
  let middle :=
    absorbCursor heap.searchAlg heap.next address block.release back
  match front.getLast? with
  | none => middle
  | some previous =>
      absorbCursor heap.searchAlg middle (address - previous.size) previous
        (absorb block.release back)

theorem Tiles.withCursor {heap : Heap} {memory : Memory}
    {blocks : List Block} (tiles : Tiles heap memory blocks) (cursor : Nat) :
    Tiles { heap with next := cursor } memory blocks :=
  ⟨tiles.size, tiles.small, tiles.room, tiles.aligned, tiles.tagged⟩

/-- `coalesce` refines `absorb`. -/
theorem coalesce_spec {heap : Heap} {memory : Memory}
    {front back : List Block} {block : Block}
    (tiles : Tiles heap memory (front ++ block :: back)) :
    ∃ newMemory,
      coalesce heap memory (heap.start + span Block.size front) =
        ({ heap with
          next := absorbCursor heap.searchAlg heap.next
            (heap.start + span Block.size front) block back }, newMemory) ∧
      Tiles heap newMemory (front ++ absorb block back) ∧
      Memory.SameOutside (heap.start + span Block.size front)
        (heap.start + span Block.size front + (absorbHead block back).size)
        memory newMemory := by
  cases back with
  | nil =>
      refine ⟨memory, ?_, tiles, Memory.SameOutside.refl _ _ _⟩
      exact coalesce_skip tiles (by simp)
  | cons next rest =>
      by_cases both : block.IsFree ∧ next.IsFree
      · obtain ⟨newMemory, result, newTiles, same⟩ :=
          coalesce_merge tiles both.1 both.2
        refine ⟨newMemory, ?_, ?_, ?_⟩
        · rw [result, absorbCursor, if_pos both]
        · rw [absorb, if_pos both]
          exact newTiles
        · rw [absorbHead, if_pos both]
          exact same
      · refine ⟨memory, ?_, ?_, Memory.SameOutside.refl _ _ _⟩
        · rw [absorbCursor, if_neg both]
          exact coalesce_skip tiles (by simpa using not_and_or.mp both)
        · rw [absorb, if_neg both]
          exact tiles

/-- The word in front of the heap area never names a block of the heap other
than the first one, and the first one has been merged already. -/
theorem coalesce_beforeFirst {heap : Heap} {memory : Memory}
    {block : Block} {rest : List Block}
    (tiles : Tiles heap memory (block :: rest))
    (settled : Settled (block :: rest)) :
    coalesce heap memory (getPreviousBlock memory heap.start) =
      (heap, memory) := by
  have small := tiles.small
  have room := tiles.room
  have startAligned := tiles.aligned
  let distance := getBlockSize memory (offset heap.start (-headerSize))
  have distanceSmall : distance < 2 ^ 32 := Nat.mod_lt _ (by omega)
  by_cases zero : distance = 0
  · have first : getPreviousBlock memory heap.start =
        heap.start + span Block.size [] := by
      change offset heap.start (-(distance : Int)) = _
      rw [zero, offset_sub _ _ (by omega) (by omega)]
      simp
    rw [first]
    have blocked : ∀ next ∈ rest.head?, ¬block.IsFree ∨ ¬next.IsFree := by
      cases rest with
      | nil => simp
      | cons next rest => simpa using (settled_cons.mp settled).1
    exact @coalesce_skip heap memory [] rest block tiles blocked
  · apply coalesce_outside
    rw [Bool.eq_false_iff, ne_eq, tiles.within_iff]
    change ¬(heap.start ≤ offset heap.start (-(distance : Int)) ∧
      offset heap.start (-(distance : Int)) < _)
    unfold offset
    omega

theorem apart_of_free (address : Nat) (front rest : List Block)
    {head : Block} (free : head.IsFree) :
    ∀ entry ∈ placed Block.size address (front ++ head :: rest),
      ¬entry.2.IsFree →
        entry.1 + entry.2.size ≤ address + span Block.size front ∨
          address + span Block.size front + head.size ≤ entry.1 := by
  intro entry member used
  have headMember : (address + span Block.size front, head) ∈
      placed Block.size address (front ++ head :: rest) := by
    simp
  rcases eq_or_apart member headMember with ⟨_, same⟩ | apart
  · rw [same] at used
    exact (used free).elim
  · exact apart

theorem heapFree_behind {heap : Heap} {memory : Memory}
    {front back : List Block} {block : Block}
    (tiles : Tiles heap memory (front ++ block :: back)) :
    let address := heap.start + span Block.size front
    let freed := { heap with
      next := absorbCursor heap.searchAlg heap.next address block.release
        back }
    let head := absorbHead block.release back
    ∃ middle rest, absorb block.release back = head :: rest ∧
      heapFree heap memory (address + 4) =
        coalesce freed middle (getPreviousBlock middle address) ∧
      Tiles freed middle (front ++ head :: rest) ∧
      Memory.SameOutside address (address + head.size) memory middle := by
  intro address freed head
  have encodes : block.release.size + 0 = block.release.header := by
    rw [Block.header_of_isFree (Block.release_isFree _), Nat.add_zero]
  obtain ⟨marked, markedSame⟩ :=
    Tiles.setBlockHeader block.release tiles rfl encodes Nat.zero_lt_two
  obtain ⟨middle, middleResult, middleTiles, middleSame⟩ :=
    coalesce_spec marked
  obtain ⟨rest, absorbed⟩ := absorb_eq_cons block.release back
  have large := size_le_absorbHead block.release back
  rw [Block.release_size] at large
  refine ⟨middle, rest, absorbed, ?_, ?_, ?_⟩
  · rw [heapFree, tiles.payload_block, tiles.size_block]
    simp only [middleResult, address, freed]
  · rw [absorbed] at middleTiles
    exact middleTiles.withCursor _
  · have wider : address + block.size ≤ address + head.size :=
      Nat.add_le_add_left large _
    exact (markedSame.mono (Nat.le_refl _) wider).trans middleSame

/-- Merging a free block with the block in front of it: `middle` differs from
`memory` in the free block only. -/
theorem coalesce_front {heap : Heap} {memory middle : Memory}
    {init rest : List Block} {previous head : Block}
    (tiles : Tiles heap middle (init ++ previous :: head :: rest))
    (headFree : head.IsFree)
    (same : Memory.SameOutside
      (heap.start + span Block.size init + previous.size)
      (heap.start + span Block.size init + previous.size + head.size)
      memory middle) :
    ∃ final low high,
      coalesce heap middle (heap.start + span Block.size init) =
        ({ heap with
          next := absorbCursor heap.searchAlg heap.next
            (heap.start + span Block.size init) previous (head :: rest) },
          final) ∧
      Tiles heap final (init ++ absorb previous (head :: rest)) ∧
      Memory.SameOutside low high memory final ∧
      heap.start ≤ low ∧
      high ≤ heap.start +
        span Block.size (init ++ previous :: head :: rest) ∧
      ∀ entry ∈ placed Block.size heap.start
          (init ++ absorb previous (head :: rest)),
        ¬entry.2.IsFree →
          entry.1 + entry.2.size ≤ low ∨ high ≤ entry.1 := by
  by_cases previousFree : previous.IsFree
  · obtain ⟨final, result, finalTiles, finalSame⟩ := coalesce_spec tiles
    obtain ⟨tail, absorbed⟩ := absorb_eq_cons previous (head :: rest)
    have total := span_absorb previous (head :: rest)
    rw [absorbed] at total
    have grows : previous.size + head.size ≤
        (absorbHead previous (head :: rest)).size := by
      rw [absorbHead_join previousFree headFree, Block.join_size]
    refine ⟨final, heap.start + span Block.size init,
      heap.start + span Block.size init +
        (absorbHead previous (head :: rest)).size, result, finalTiles,
      (same.mono (by omega) (by omega)).trans finalSame,
      Nat.le_add_right _ _, ?_, ?_⟩
    · simp only [span_cons, span_append] at total ⊢
      omega
    · rw [absorbed]
      exact apart_of_free heap.start init tail
        (absorbHead_isFree previousFree _)
  · have skipped := coalesce_skip tiles fun next _ => .inl previousFree
    have unmoved : absorbCursor heap.searchAlg heap.next
        (heap.start + span Block.size init) previous (head :: rest) =
          heap.next := by
      simp [absorbCursor, previousFree]
    rw [unmoved, absorb_of_used previousFree]
    refine ⟨middle, _, _, skipped, tiles, same, ?_, ?_, ?_⟩
    · omega
    · simp only [span_cons, span_append]
      omega
    · have apart := apart_of_free heap.start (init ++ [previous]) rest
        headFree
      simpa [Nat.add_assoc] using apart

/-- `heapFree` refines marking a block free and compacting; the bytes that
change belong to a block that is free afterwards. -/
theorem heapFree_spec {heap : Heap} {memory : Memory}
    {front back : List Block} {block : Block}
    (represents : Represents heap memory (front ++ block :: back)) :
    ∃ newMemory low high,
      heapFree heap memory (heap.start + span Block.size front + 4) =
        ({ heap with next := releaseCursor heap front block back },
          newMemory) ∧
      Represents heap newMemory (compact (front ++ block.release :: back)) ∧
      Memory.SameOutside low high memory newMemory ∧
      heap.start ≤ low ∧
      high ≤ heap.start + span Block.size (front ++ block :: back) ∧
      ∀ entry ∈ placed Block.size heap.start
          (compact (front ++ block.release :: back)),
        ¬entry.2.IsFree →
          entry.1 + entry.2.size ≤ low ∨ high ≤ entry.1 := by
  obtain ⟨middle, rest, absorbed, result, tiles, same⟩ :=
    heapFree_behind represents.toTiles
  have headFree := absorbHead_isFree (Block.release_isFree block) back
  have total : span Block.size (front ++ absorb block.release back) =
      span Block.size (front ++ block :: back) := by
    simp
  rw [absorbed] at total
  rcases List.eq_nil_or_concat front with first | ⟨init, previous, split⟩
  · -- the first block of the heap: the word in front of it is arbitrary
    subst front
    have whole : compact ([] ++ block.release :: back) =
        absorbHead block.release back :: rest := by
      rw [compact_release represents.settled, List.foldr_nil, absorbed]
    have settled : Settled (absorbHead block.release back :: rest) := by
      rw [← whole]
      exact settled_compact _
    refine ⟨middle, heap.start,
      heap.start + (absorbHead block.release back).size, ?_, ?_, same,
      Nat.le_refl _, ?_, ?_⟩
    · rw [result]
      exact coalesce_beforeFirst tiles settled
    · rw [whole]
      exact ⟨tiles.withCursor heap.next, settled⟩
    · rw [← total]
      simp only [List.nil_append, span_cons]
      omega
    · rw [whole]
      exact apart_of_free heap.start [] rest headFree
  · -- a block in front: merging it with the result so far
    rw [List.concat_eq_append] at split
    subst split
    have whole : compact ((init ++ [previous]) ++ block.release :: back) =
        init ++ absorb previous (absorb block.release back) :=
      compact_release_concat represents.settled
    have settled : Settled (init ++ absorb previous
        (absorb block.release back)) := by
      rw [← whole]
      exact settled_compact _
    have position : heap.start + span Block.size (init ++ [previous]) =
        heap.start + span Block.size init + previous.size := by
      simp [Nat.add_assoc]
    simp only [List.append_assoc, List.singleton_append] at tiles
    have bounds := tiles.block_bounds
    have previousAddress : getPreviousBlock middle
        (heap.start + span Block.size (init ++ [previous])) =
          heap.start + span Block.size init := by
      rw [position]
      exact getPreviousBlock_of_tagged tiles.tagged_block bounds.1 bounds.2
    rw [position] at same
    obtain ⟨final, low, high, merged, finalTiles, changed, lower, upper,
      apart⟩ := coalesce_front tiles headFree same
    rw [whole, absorbed]
    rw [absorbed] at settled
    refine ⟨final, low, high, ?_, ⟨finalTiles.withCursor heap.next, settled⟩,
      changed, lower, ?_, apart⟩
    · rw [result, previousAddress, merged]
      have distance : heap.start + span Block.size (init ++ [previous]) -
          previous.size = heap.start + span Block.size init := by
        rw [position, Nat.add_sub_cancel]
      simp only [releaseCursor, List.getLast?_concat, distance, absorbed]
    · rw [← total]
      simpa using upper

end SystemsLabs.ImplicitHeap
