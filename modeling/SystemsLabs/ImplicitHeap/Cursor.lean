import SystemsLabs.ImplicitHeap.Free

/-!
# The next-fit cursor across a free

`coalesce` is meant to move the cursor when it absorbs the block under it, but
it compares the cursor with the block behind the merged one.  `LosesCursor`
collects the situations in which freeing a block leaves the cursor inside the
merged block, and `releaseCursor_mem_iff` shows that there are no others.
-/

namespace SystemsLabs.ImplicitHeap

open Tiling

/-- Freeing absorbs the block under the cursor, or moves the cursor to the
freed block and then absorbs that one. -/
def LosesCursor (heap : Heap) (memory : Memory) (payload : Nat) : Prop :=
  let start := getBlockStart payload
  let next := getNextBlock memory start
  let nextFree :=
    isWithinHeapRange heap next = true ∧ blockIsInUse memory next = 0
  let previousFree :=
    start ≠ heap.start ∧
      blockIsInUse memory (getPreviousBlock memory start) = 0
  (nextFree ∧ heap.next = next) ∨
    (previousFree ∧ (heap.next = start ∨
      (nextFree ∧ heap.next = getNextBlock memory next)))

instance (heap : Heap) (memory : Memory) (payload : Nat) :
    Decidable (LosesCursor heap memory payload) :=
  inferInstanceAs (Decidable (_ ∨ _))

section Layout

variable {heap : Heap} {memory : Memory} {front back : List Block}
  {block : Block}

theorem nextFree_iff (tiles : Tiles heap memory (front ++ block :: back)) :
    (isWithinHeapRange heap
        (heap.start + span Block.size front + block.size) = true ∧
      blockIsInUse memory
        (heap.start + span Block.size front + block.size) = 0) ↔
      ∃ next ∈ back.head?, next.IsFree := by
  cases back with
  | nil =>
      have outside := tiles.not_within_end
      simp only [span_append, span_cons, span_nil, Nat.add_zero,
        ← Nat.add_assoc] at outside
      simp [outside]
  | cons next rest =>
      have shifted := tiles.shift
      have within := shifted.within_block
      have inUse := shifted.inUse_block
      simp only [span_append, span_cons, span_nil, Nat.add_zero,
        ← Nat.add_assoc] at within inUse
      rw [within, inUse]
      by_cases free : next.IsFree
      · simp [free]
      · simp [free]

theorem previousFree_iff
    (tiles : Tiles heap memory (front ++ block :: back)) :
    (heap.start + span Block.size front ≠ heap.start ∧
      blockIsInUse memory (getPreviousBlock memory
        (heap.start + span Block.size front)) = 0) ↔
      ∃ previous ∈ front.getLast?, previous.IsFree := by
  rcases List.eq_nil_or_concat front with first | ⟨init, previous, split⟩
  · subst front
    simp
  · rw [List.concat_eq_append] at split
    subst split
    have previousTiles : Tiles heap memory
        (init ++ previous :: (block :: back)) := by
      simpa using tiles
    have previousBounds := previousTiles.block_bounds
    have positive := previous.size_pos
    have position : heap.start + span Block.size (init ++ [previous]) =
        heap.start + span Block.size init + previous.size := by
      simp [Nat.add_assoc]
    have moved : heap.start + span Block.size init + previous.size ≠
        heap.start := by
      omega
    rw [position, getPreviousBlock_of_tagged previousTiles.tagged_block
      previousBounds.1 previousBounds.2, previousTiles.inUse_block]
    by_cases free : previous.IsFree
    · simp [free, moved]
    · simp [free]

theorem losesCursor_iff
    (tiles : Tiles heap memory (front ++ block :: back)) :
    LosesCursor heap memory (heap.start + span Block.size front + 4) ↔
      (∃ next ∈ back.head?, next.IsFree ∧
        heap.next = heap.start + span Block.size front + block.size) ∨
      (∃ previous ∈ front.getLast?, previous.IsFree ∧
        (heap.next = heap.start + span Block.size front ∨
          ∃ next ∈ back.head?, next.IsFree ∧
            heap.next = heap.start + span Block.size front + block.size +
              next.size)) := by
  have nextStop : ∀ next ∈ back.head?,
      getNextBlock memory
          (heap.start + span Block.size front + block.size) =
        heap.start + span Block.size front + block.size + next.size := by
    intro next member
    cases back with
    | nil => cases member
    | cons head rest =>
        cases member
        have stop := tiles.shift.next_block
        simpa only [span_append, span_cons, span_nil, Nat.add_zero,
          ← Nat.add_assoc] using stop
  simp only [LosesCursor, tiles.payload_block, tiles.next_block,
    nextFree_iff tiles, previousFree_iff tiles]
  constructor
  · rintro (⟨⟨next, member, free⟩, atNext⟩ |
      ⟨⟨previous, member, free⟩, atStart | ⟨⟨next, nextMember, nextFree⟩,
        behind⟩⟩)
    · exact .inl ⟨next, member, free, atNext⟩
    · exact .inr ⟨previous, member, free, .inl atStart⟩
    · rw [nextStop next nextMember] at behind
      exact .inr ⟨previous, member, free,
        .inr ⟨next, nextMember, nextFree, behind⟩⟩
  · rintro (⟨next, member, free, atNext⟩ |
      ⟨previous, member, free, atStart | ⟨next, nextMember, nextFree,
        behind⟩⟩)
    · exact .inl ⟨⟨next, member, free⟩, atNext⟩
    · exact .inr ⟨⟨previous, member, free⟩, .inl atStart⟩
    · rw [← nextStop next nextMember] at behind
      exact .inr ⟨⟨previous, member, free⟩,
        .inr ⟨⟨next, nextMember, nextFree⟩, behind⟩⟩

end Layout

section Addresses

variable {start cursor : Nat} {front back : List Block} {block : Block}

/-- One `coalesce` keeps the cursor on a block start unless it absorbs the
block under it. -/
theorem absorbCursor_mem_iff
    (member : cursor ∈ addresses Block.size start (front ++ block :: back)) :
    absorbCursor .nextFit cursor (start + span Block.size front) block back ∈
        addresses Block.size start (front ++ absorb block back) ↔
      ¬∃ next ∈ back.head?, block.IsFree ∧ next.IsFree ∧
        cursor = start + span Block.size front + block.size := by
  cases back with
  | nil => simpa [absorbCursor, absorb] using member
  | cons next rest =>
      by_cases both : block.IsFree ∧ next.IsFree
      · have positive := block.size_pos
        have nextPositive := next.size_pos
        rw [absorb, absorbCursor, if_pos both, if_pos both, mergedCursor]
        simp only [addresses_append, addresses_cons, List.mem_append,
          List.mem_cons, Block.join_size, ← Nat.add_assoc] at member ⊢
        simp only [List.head?_cons, Option.mem_some_iff, both, true_and,
          exists_eq_left', and_true]
        by_cases behind : cursor = start + span Block.size front +
            block.size + next.size
        · rw [if_pos behind]
          constructor
          · intro _ absorbed
            omega
          · intro _
            exact .inr (.inl rfl)
        · rw [if_neg behind]
          constructor
          · rintro (inFront | atBlock | inRest) absorbed
            · have room := addresses_bounds Block.size_pos inFront
              omega
            · omega
            · have room := addresses_bounds Block.size_pos inRest
              omega
          · intro kept
            rcases member with inFront | atBlock | atNext | inRest
            · exact .inl inFront
            · exact .inr (.inl atBlock)
            · exact (kept atNext).elim
            · exact .inr (.inr inRest)
      · rw [absorb, absorbCursor, if_neg both, if_neg both]
        constructor
        · rintro _ ⟨other, same, blockFree, otherFree, _⟩
          cases same
          exact both ⟨blockFree, otherFree⟩
        · intro _
          exact member

/-- A cursor inside a block stays inside a block. -/
theorem absorbCursor_lost
    (lost : cursor ∉ addresses Block.size start (front ++ block :: back))
    (inside : cursor < start + span Block.size (front ++ block :: back)) :
    absorbCursor .nextFit cursor (start + span Block.size front) block back ∉
      addresses Block.size start (front ++ absorb block back) := by
  cases back with
  | nil => simpa [absorbCursor, absorb] using lost
  | cons next rest =>
      by_cases both : block.IsFree ∧ next.IsFree
      · rw [absorb, absorbCursor, if_pos both, if_pos both, mergedCursor]
        simp only [addresses_append, addresses_cons, List.mem_append,
          List.mem_cons, Block.join_size, ← Nat.add_assoc, span_append,
          span_cons, not_or] at lost inside ⊢
        have notBehind : cursor ≠ start + span Block.size front +
            block.size + next.size := by
          intro behind
          cases rest with
          | nil =>
              simp only [span_nil] at inside
              omega
          | cons third rest => exact lost.2.2.2 (by simp [behind])
        rw [if_neg (by simp [notBehind])]
        exact ⟨lost.1, lost.2.1, lost.2.2.2⟩
      · rw [absorb, absorbCursor, if_neg both, if_neg both]
        exact lost

theorem absorbCursor_eq_or (searchAlg : SearchAlg) (address : Nat)
    (blocks : List Block) :
    absorbCursor searchAlg cursor address block blocks = cursor ∨
      absorbCursor searchAlg cursor address block blocks = address := by
  cases blocks with
  | nil => exact .inl rfl
  | cons next rest =>
      simp only [absorbCursor, mergedCursor]
      split
      · split
        · exact .inr rfl
        · exact .inl rfl
      · exact .inl rfl

theorem absorbCursor_release_eq_iff :
    absorbCursor .nextFit cursor start block.release back = start ↔
      cursor = start ∨ ∃ next ∈ back.head?, next.IsFree ∧
        cursor = start + block.size + next.size := by
  cases back with
  | nil => simp [absorbCursor]
  | cons next rest =>
      by_cases free : next.IsFree
      · by_cases behind : cursor = start + (block.size + next.size)
        · simp [absorbCursor, mergedCursor, free, behind, Nat.add_assoc]
        · simp [absorbCursor, mergedCursor, free, behind, Nat.add_assoc]
      · simp [absorbCursor, free]

end Addresses

/-- After a free the cursor is at the start of a block if and only if the
situation was not one of those that lose it. -/
theorem releaseCursor_mem_iff {heap : Heap} {memory : Memory}
    {front back : List Block} {block : Block}
    (represents : Represents heap memory (front ++ block :: back))
    (policy : heap.searchAlg = .nextFit)
    (cursor : heap.next ∈ starts heap (front ++ block :: back)) :
    releaseCursor heap front block back ∈
        starts heap (compact (front ++ block.release :: back)) ↔
      ¬LosesCursor heap memory
        (heap.start + span Block.size front + 4) := by
  rw [losesCursor_iff represents.toTiles, not_or]
  have marked : heap.next ∈ addresses Block.size heap.start
      (front ++ block.release :: back) := by
    simpa [starts] using cursor
  have firstMerge := absorbCursor_mem_iff marked
  have firstKeeps : (¬∃ next ∈ back.head?, block.release.IsFree ∧
      next.IsFree ∧ heap.next = heap.start + span Block.size front +
        block.release.size) ↔
      ¬∃ next ∈ back.head?, next.IsFree ∧
        heap.next = heap.start + span Block.size front + block.size := by
    simp
  rw [firstKeeps] at firstMerge
  rcases List.eq_nil_or_concat front with first | ⟨init, previous, split⟩
  · subst front
    rw [compact_release represents.settled]
    simp only [releaseCursor, policy, List.getLast?_nil, starts] at firstMerge ⊢
    simpa using firstMerge
  · rw [List.concat_eq_append] at split
    subst split
    rw [compact_release_concat represents.settled]
    have position : heap.start + span Block.size (init ++ [previous]) =
        heap.start + span Block.size init + previous.size := by
      simp [Nat.add_assoc]
    have distance : heap.start + span Block.size init + previous.size -
        previous.size = heap.start + span Block.size init := by
      omega
    obtain ⟨rest, absorbed⟩ := absorb_eq_cons block.release back
    have headFree := absorbHead_isFree (Block.release_isFree block) back
    have total := span_absorb block.release back
    have positive := block.release.size_pos
    have inside := addresses_bounds Block.size_pos marked
    rw [List.append_assoc, List.singleton_append] at firstMerge
    rw [position] at firstMerge ⊢
    simp only [releaseCursor, policy, List.getLast?_concat, position,
      distance, starts, Option.mem_some_iff, exists_eq_left']
    by_cases kept : ∃ next ∈ back.head?, next.IsFree ∧
        heap.next = heap.start + span Block.size init + previous.size +
          block.size
    · have lost := absorbCursor_lost (mt firstMerge.mp (not_not_intro kept))
        (by
          rcases absorbCursor_eq_or .nextFit
            (heap.start + span Block.size init + previous.size) back
            with same | moved
          · rw [same]
            simp only [span_append, span_cons, span_nil] at inside total ⊢
            omega
          · rw [moved]
            simp only [span_append, span_cons, span_nil] at inside total ⊢
            omega)
      exact iff_of_false lost fun both => both.1 kept
    · have secondMerge := absorbCursor_mem_iff (firstMerge.mpr kept)
      rw [secondMerge, absorbed]
      simp only [List.head?_cons, Option.mem_some_iff, exists_eq_left',
        headFree, true_and, absorbCursor_release_eq_iff]
      exact ⟨fun second => ⟨kept, second⟩, fun both => both.2⟩

end SystemsLabs.ImplicitHeap
