import SystemsLabs.ImplicitHeap.Search

/-!
# Rounding a request

`getSizeToAllocate` should round any request up to a multiple of 8 with room
for both tags.  It returns nothing for a size that is not a multiple of 8, and
for the largest multiple the sum wraps to 0, which every free block satisfies.
For all other sizes the three strategies hand out enough room, on every heap.
-/

namespace SystemsLabs.ImplicitHeap

open Tiling

/-- The size to allocate is the request with both tags, rounded up. -/
def RoundedUp (userSize : Nat) : Prop :=
  ∃ size, getSizeToAllocate userSize = some size ∧ size % 8 = 0 ∧
    userSize + 8 ≤ size ∧ size ≤ userSize + 15

/-- No heap serves the request, and none is changed by it. -/
def Refused (userSize : Nat) : Prop :=
  ∀ heap memory visited, Covered heap memory visited →
    ∃ enough, ∀ fuel, enough ≤ fuel →
      heapMalloc fuel heap memory userSize = some (none, heap, memory)

/-- A payload of a used block of the heap, with `userSize` bytes between the
header and the footer. -/
structure Holds (heap : Heap) (memory : Memory) (payload userSize : Nat) :
    Prop where
  start : getBlockStart payload + 4 = payload
  inUse : blockIsInUse memory (getBlockStart payload) = 1
  payloadSize : userSize + 8 ≤ getBlockSize memory (getBlockStart payload)
  footer : memory.load (getBlockStart payload +
      getBlockSize memory (getBlockStart payload) - 4) 4 =
    memory.load (getBlockStart payload) 4
  low : heap.start ≤ getBlockStart payload
  high : getBlockStart payload +
    getBlockSize memory (getBlockStart payload) ≤ heap.start + heap.size

/-- Every heap answers the request, with enough room or with `NULL`; when no
free block has room for it, with `NULL` and without a change. -/
def Safe (userSize : Nat) : Prop :=
  ∀ heap memory visited, Covered heap memory visited →
    ∃ enough, ∀ fuel, enough ≤ fuel →
      ∃ result newHeap newMemory,
        heapMalloc fuel heap memory userSize =
          some (result, newHeap, newMemory) ∧
        (∀ payload, result = some payload →
          Holds heap newMemory payload userSize) ∧
        ((∀ block ∈ visited, blockIsInUse memory block = 0 →
            getBlockSize memory block < userSize + 8) →
          result = none ∧ newHeap = heap ∧ newMemory = memory)

/-- The sizes that are rounded without a wrap. -/
def Roundable (userSize : Nat) : Prop :=
  userSize % 8 = 0 ∧ userSize ≠ 2 ^ 32 - 8

instance (userSize : Nat) : Decidable (Roundable userSize) :=
  inferInstanceAs (Decidable (_ ∧ _))

theorem holds_setBlockHeader (heap : Heap) (memory : Memory)
    {block size userSize : Nat} (aligned : size % 8 = 0)
    (small : size < 2 ^ 32) (room : block + size < 2 ^ 64)
    (fits : userSize + 8 ≤ size) (low : heap.start ≤ block)
    (high : block + size ≤ heap.start + heap.size) :
    Holds heap (setBlockHeader memory block size 1)
      (offset block headerSize) userSize := by
  have payload : offset block headerSize = block + 4 :=
    offset_add _ headerSize (by simp only [headerSize]; omega)
  have home : getBlockStart (block + 4) = block := by
    rw [getBlockStart,
      offset_sub _ headerSize (by simp only [headerSize]; omega) (by omega)]
    simp only [headerSize]
    omega
  obtain ⟨header, footer, _⟩ := setBlockHeader_spec memory aligned
    (show 8 ≤ size by omega) small room Nat.one_lt_two
  obtain ⟨inUse, blockSize⟩ :=
    accessors_of_word header aligned Nat.one_lt_two small
  rw [payload]
  constructor
  · rw [home]
  · rw [home, inUse]
  · rw [home, blockSize]
    exact fits
  · rw [home, blockSize, footer, header]
  · rw [home]
    exact low
  · rw [home, blockSize]
    exact high

/-- What `prepareBlockForUse` hands out holds the request, whether it splits
the block or not and whether the split test wraps or not. -/
theorem holds_prepareBlockForUse {heap : Heap} {memory newMemory : Memory}
    {visited : List Nat} (covered : Covered heap memory visited)
    {block payload : Nat} (met : block ∈ visited) {request : Request}
    (fits : FitsAt memory request block)
    (prepared : prepareBlockForUse memory block request.bytes =
      some (payload, newMemory)) :
    Holds heap newMemory payload request.bytes := by
  have room := covered.block_room met
  have aligned := (covered.sizes block met).1
  obtain ⟨low, high⟩ := covered.inside block met
  have enough := fits.2
  have small : getBlockSize memory block < 2 ^ 32 := Nat.mod_lt _ (by omega)
  have requestAligned := request.aligned
  have needed : request.needed = request.bytes + 8 := rfl
  rw [prepareBlockForUse, getSizeToAllocate_request] at prepared
  simp only [Option.bind_eq_bind, Option.bind_some] at prepared
  split at prepared
  · cases prepared
    exact holds_setBlockHeader heap _ (by omega) (by omega) (by omega)
      (by omega) low (by omega)
  · cases prepared
    exact holds_setBlockHeader heap _ aligned small room (by omega) low high

/-- A size that is rounded without a wrap is a request. -/
def Roundable.request {userSize : Nat} (roundable : Roundable userSize)
    (small : userSize < 2 ^ 32) : Request :=
  { bytes := userSize
    aligned := roundable.1
    small := by
      obtain ⟨aligned, different⟩ := roundable
      omega }

theorem Request.roundedUp (request : Request) : RoundedUp request.bytes := by
  have aligned := request.aligned
  refine ⟨request.needed, getSizeToAllocate_request request, ?_, ?_, ?_⟩
  · simp only [Request.needed]
    omega
  · exact Nat.le_refl _
  · simp only [Request.needed]
    omega

theorem Request.safe (request : Request) : Safe request.bytes := by
  intro heap memory visited covered
  refine ⟨visited.length + 1, ?_⟩
  intro fuel enough
  obtain ⟨outcome, returned, answers⟩ :=
    covered.heapMalloc_answers request enough
  cases answers with
  | refused =>
      refine ⟨none, heap, memory, returned, ?_, fun _ => ⟨rfl, rfl, rfl⟩⟩
      intro payload impossible
      cases impossible
  | served met fits prepared =>
      refine ⟨_, _, _, returned, ?_, ?_⟩
      · intro payload same
        cases same
        exact holds_prepareBlockForUse covered met fits prepared
      · intro nothingFits
        have tooSmall := nothingFits _ met fits.1
        have large := fits.2
        simp only [Request.needed] at large
        omega

section Slips

/-- A new heap of one free block of 64 bytes. -/
abbrev freshMemory : Memory := smallMemory .firstFit fun _ => 0

theorem fresh_covered :
    ∃ visited, Covered (smallHeap .firstFit) freshMemory visited := by
  have covered := (smallHeap_created .firstFit fun _ => 0).consistent.covered
  dsimp only at covered
  exact ⟨_, covered⟩

theorem fresh_block :
    isWithinHeapRange (smallHeap .firstFit) 4132 = true ∧
      blockIsInUse freshMemory 4132 = 0 := by
  decide +kernel

/-- The fit test of the first free block uses a size that is not returned. -/
theorem heapMalloc_unaligned {userSize : Nat} (unaligned : userSize % 8 ≠ 0)
    (fuel : Nat) :
    heapMalloc fuel (smallHeap .firstFit) freshMemory userSize = none := by
  have nothing : getSizeToAllocate userSize = none := if_neg unaligned
  have test : blockFits freshMemory userSize 4132 = none := by
    rw [blockFits, if_pos fresh_block.2, nothing]
    rfl
  change mallocFirstFit fuel _ freshMemory userSize = none
  cases fuel with
  | zero => rfl
  | succ rounds =>
      have search : searchLoop (smallHeap .firstFit) freshMemory userSize
          (rounds + 1) 4132 = none := by
        rw [searchLoop, if_pos fresh_block.1, test]
        rfl
      change (searchLoop (smallHeap .firstFit) freshMemory userSize
        (rounds + 1) 4132).bind _ = none
      rw [search]
      rfl

theorem getSizeToAllocate_wrapped : getSizeToAllocate (2 ^ 32 - 8) = some 0 := by
  decide

/-- A size to allocate of 0 fits the block of 64 bytes. -/
theorem heapMalloc_wrapped {userSize : Nat}
    (wrapped : getSizeToAllocate userSize = some 0) (rounds : Nat) :
    ∃ newMemory,
      heapMalloc (rounds + 1) (smallHeap .firstFit) freshMemory userSize =
        some (some 4136, smallHeap .firstFit, newMemory) := by
  have test : blockFits freshMemory userSize 4132 = some true := by
    rw [blockFits, if_pos fresh_block.2, wrapped]
    simp
  have search : searchLoop (smallHeap .firstFit) freshMemory userSize
      (rounds + 1) 4132 = some (some 4132) := by
    rw [searchLoop, if_pos fresh_block.1, test]
    rfl
  have prepared : ∃ newMemory,
      prepareBlockForUse freshMemory 4132 userSize =
        some (4136, newMemory) := by
    rw [prepareBlockForUse, wrapped]
    simp only [Option.bind_eq_bind, Option.bind_some]
    split
    · exact ⟨_, rfl⟩
    · exact ⟨_, rfl⟩
  obtain ⟨newMemory, served⟩ := prepared
  refine ⟨newMemory, ?_⟩
  change (searchLoop (smallHeap .firstFit) freshMemory userSize
    (rounds + 1) 4132).bind _ = _
  rw [search]
  simp only [Option.bind_some, served]
  rfl

theorem not_safe_of_unaligned {userSize : Nat} (unaligned : userSize % 8 ≠ 0) :
    ¬Safe userSize := by
  intro safe
  obtain ⟨visited, covered⟩ := fresh_covered
  obtain ⟨enough, answered⟩ := safe _ _ _ covered
  obtain ⟨result, newHeap, newMemory, returned, _⟩ :=
    answered enough (Nat.le_refl _)
  rw [heapMalloc_unaligned unaligned] at returned
  cases returned

theorem not_safe_wrapped : ¬Safe (2 ^ 32 - 8) := by
  intro safe
  obtain ⟨visited, covered⟩ := fresh_covered
  obtain ⟨enough, answered⟩ := safe _ _ _ covered
  obtain ⟨result, newHeap, newMemory, returned, _, unchanged⟩ :=
    answered (enough + 1) (Nat.le_succ _)
  obtain ⟨stored, served⟩ := heapMalloc_wrapped getSizeToAllocate_wrapped
    enough
  rw [served] at returned
  cases returned
  have refused := unchanged (by
    intro block _ _
    have small : getBlockSize freshMemory block < 2 ^ 32 :=
      Nat.mod_lt _ (by omega)
    omega)
  cases refused.1

end Slips

/-- A request is rounded up, or refused, and answered safely on every heap
exactly when its size is a multiple of 8 whose sum with the tags does not
wrap. -/
theorem rounding_correct_iff {userSize : Nat} (small : userSize < 2 ^ 32) :
    ((RoundedUp userSize ∨ Refused userSize) ∧ Safe userSize) ↔
      Roundable userSize := by
  constructor
  · rintro ⟨_, safe⟩
    constructor
    · by_contra unaligned
      exact not_safe_of_unaligned unaligned safe
    · intro wrapped
      rw [wrapped] at safe
      exact not_safe_wrapped safe
  · intro roundable
    let request := roundable.request small
    exact ⟨.inl request.roundedUp, request.safe⟩

/-- 24 bytes are answered safely. -/
theorem rounding_correct_small :
    24 < 2 ^ 32 ∧ (RoundedUp 24 ∨ Refused 24) ∧ Safe 24 :=
  ⟨by decide, (rounding_correct_iff (by decide)).mpr (by decide)⟩

/-- 5 bytes are not answered, and 4294967288 bytes are taken from a block of
64. -/
theorem rounding_slips :
    ¬(∀ userSize, userSize < 2 ^ 32 →
      (RoundedUp userSize ∨ Refused userSize) ∧ Safe userSize) ∧
      (getSizeToAllocate 5 = none ∧ ¬Safe 5) ∧
      getSizeToAllocate (2 ^ 32 - 8) = some 0 ∧ ¬Safe (2 ^ 32 - 8) := by
  refine ⟨?_, ⟨by decide, not_safe_of_unaligned (by decide)⟩, by decide,
    not_safe_wrapped⟩
  intro correct
  exact not_safe_wrapped (correct (2 ^ 32 - 8) (by decide)).2

end SystemsLabs.ImplicitHeap
