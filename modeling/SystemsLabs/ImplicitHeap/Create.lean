import SystemsLabs.ImplicitHeap.Invariant

/-!
# A new heap

`heapCreate` trims the area that `sbrk` returned so that payloads are aligned
and the size is a multiple of 8, and makes it one free block.
-/

namespace SystemsLabs.ImplicitHeap

open Tiling Transition

/-- `sbrk(size)` returned `base`: the end of the area is an address. -/
structure SbrkArea (base : Nat) (size : Int) : Prop where
  intptr : -2 ^ 63 ≤ size ∧ size < 2 ^ 63
  address : base < 2 ^ 64
  ends : base + size < 2 ^ 64

theorem toIntptr_eq (value : Int) :
    ∃ turns, toIntptr value = value + 2 ^ 64 * turns ∧
      -2 ^ 63 ≤ toIntptr value ∧ toIntptr value < 2 ^ 63 := by
  refine ⟨-(value.bdiv (2 ^ 64)), ?_, ?_, ?_⟩
  · have whole := Int.bmod_add_bdiv value (2 ^ 64)
    unfold toIntptr
    omega
  · exact Int.le_bmod (by decide)
  · exact Int.bmod_lt (by decide)

theorem alignmentDelta_eq (heapStart : Nat) :
    alignmentDelta heapStart = (12 - heapStart % 8 : Int) % 8 := by
  have small : toInt (payloadAlign - headerSize - (heapStart % payloadAlign)) =
      4 - (heapStart % 8 : Int) := by
    simp only [payloadAlign, headerSize]
    apply toInt_of_bounds <;> omega
  rw [alignmentDelta, small]
  simp only [payloadAlign]
  split <;> omega

theorem offset_sizeofHeap (base : Nat) :
    offset base sizeofHeap = (base + 32) % 2 ^ 64 := by
  unfold offset sizeofHeap
  omega

theorem paddedSize_eq (base : Nat) (size : Int) :
    ∃ padded turns : Int,
      trimArea base size =
        (offset (offset base sizeofHeap)
            (alignmentDelta (offset base sizeofHeap)),
          toIntptr (padded -
            ((padded - 2 * headerSize) % 2 ^ 64) % payloadAlign)) ∧
      padded = size - sizeofHeap -
        alignmentDelta (offset base sizeofHeap) + 2 ^ 64 * turns ∧
      -2 ^ 63 ≤ padded ∧ padded < 2 ^ 63 := by
  obtain ⟨firstTurns, first, firstBounds⟩ := toIntptr_eq (size - sizeofHeap)
  have delta := alignmentDelta_eq (offset base sizeofHeap)
  by_cases positive : 0 < alignmentDelta (offset base sizeofHeap)
  · obtain ⟨secondTurns, second, secondBounds⟩ := toIntptr_eq
      (toIntptr (size - sizeofHeap) - alignmentDelta (offset base sizeofHeap))
    refine ⟨_, firstTurns + secondTurns, ?_, ?_, secondBounds⟩
    · simp only [trimArea, if_pos positive]
    · omega
  · have zero : alignmentDelta (offset base sizeofHeap) = 0 := by omega
    have unmoved : offset (offset base sizeofHeap) 0 =
        offset base sizeofHeap := by
      unfold offset
      omega
    refine ⟨_, firstTurns, ?_, ?_, firstBounds⟩
    · simp only [trimArea, if_neg positive]
      rw [zero, unmoved]
    · omega

/-- The adjustments do not wrap when the resulting size is not negative and
fits into a header. -/
theorem trimArea_spec {base : Nat} {size : Int} (area : SbrkArea base size)
    (large : 8 ≤ (trimArea base size).2)
    (small : (trimArea base size).2 < 2 ^ 32) :
    (trimArea base size).1 % 8 = 4 ∧ (trimArea base size).2 % 8 = 0 ∧
      base + sizeofHeap ≤ (trimArea base size).1 ∧
      (trimArea base size).1 + (trimArea base size).2 ≤ base + size := by
  obtain ⟨intptr, address, ends⟩ := area
  obtain ⟨padded, turns, result, paddedEq, paddedBounds⟩ :=
    paddedSize_eq base size
  have delta := alignmentDelta_eq (offset base sizeofHeap)
  obtain ⟨lastTurns, last, lastBounds⟩ := toIntptr_eq
    (padded - ((padded - 2 * headerSize) % 2 ^ 64) % payloadAlign)
  have header := offset_sizeofHeap base
  have prefixSize : sizeofHeap = 32 := rfl
  have word : headerSize = 4 := rfl
  have granule : payloadAlign = 8 := rfl
  rw [result] at large small ⊢
  rw [word, granule] at last large small ⊢
  rw [prefixSize] at paddedEq delta header ⊢
  generalize alignmentDelta (offset base (32 : Nat)) = shift at *
  generalize offset base (32 : Nat) = first at *
  generalize toIntptr (padded - ((padded - 2 * (4 : Nat)) % 2 ^ 64) %
    (8 : Nat)) = final at *
  unfold offset
  omega

/-- A heap as `heapCreate` returns it, with room for one block and smaller
than 2 GiB. -/
structure Created (base : Nat) (size : Int) (searchAlg : SearchAlg)
    (initial : Memory) (heap : Heap) (memory : Memory) : Prop where
  area : SbrkArea base size
  returned : heapCreate (some base) initial size searchAlg =
    some (heap, memory)
  large : 8 ≤ heap.size
  small : heap.size < 2 ^ 31

namespace Created

variable {base : Nat} {size : Int} {searchAlg : SearchAlg}
  {initial memory : Memory} {heap : Heap}

theorem fields (created : Created base size searchAlg initial heap memory) :
    heap = { searchAlg := searchAlg, size := (trimArea base size).2,
             next := (trimArea base size).1,
             start := (trimArea base size).1 } ∧
      memory = setBlockHeader (storeHeap initial base heap) heap.start
        (heap.size % 2 ^ 32).toNat 0 := by
  have returned := created.returned
  rw [heapCreate] at returned
  cases returned
  exact ⟨rfl, rfl⟩

theorem geometry (created : Created base size searchAlg initial heap memory) :
    heap.start % 8 = 4 ∧ heap.size % 8 = 0 ∧
      base + sizeofHeap ≤ heap.start ∧
      heap.start + heap.size ≤ base + size := by
  have large := created.large
  have small := created.small
  obtain ⟨sameHeap, _⟩ := created.fields
  rw [sameHeap] at large small ⊢
  exact trimArea_spec created.area large (Int.lt_trans small (by decide))

/-- The one free block of a new heap. -/
def block (created : Created base size searchAlg initial heap memory) :
    Block :=
  Block.vacant heap.size.toNat
    (by
      have aligned := created.geometry.2.1
      have large := created.large
      omega)
    (by
      have large := created.large
      omega)

theorem consistent
    (created : Created base size searchAlg initial heap memory) :
    Consistent { heap := heap, memory := memory, live := [] }
      [created.block] := by
  have large := created.large
  have small := created.small
  have ends := created.area.ends
  obtain ⟨startAligned, _, _, inside⟩ := created.geometry
  obtain ⟨sameHeap, sameMemory⟩ := created.fields
  have cast : (heap.size % 2 ^ 32).toNat = created.block.size := by
    simp only [block, Block.vacant_size]
    omega
  have size : (created.block.size : Int) = heap.size := by
    simp only [block, Block.vacant_size]
    omega
  have free : created.block.IsFree := Block.vacant_isFree _ _ _
  have tagged : Tagged memory heap.start created.block := by
    have written := setBlockHeader_tagged (storeHeap initial base heap)
      heap.start created.block (by omega) (by omega)
      (by rw [Block.header_of_isFree free, Nat.add_zero]) Nat.zero_lt_two
    rw [← cast, ← sameMemory] at written
    exact written
  constructor
  · refine ⟨⟨?_, ?_, ?_, startAligned, ?_⟩, List.isChain_singleton _⟩
    · simpa using size.symm
    · simp only [span_cons, span_nil, Nat.add_zero]
      omega
    · simp only [span_cons, span_nil, Nat.add_zero]
      omega
    · exact TaggedAll.cons_iff.mpr ⟨tagged, TaggedAll.nil _ _⟩
  · intro payload other
    simp [granted_cons, Block.isFree_iff.mp free]
  · exact List.nodup_nil
  · intro _
    have atStart : heap.next = heap.start := by rw [sameHeap]
    change heap.next ∈ addresses Block.size heap.start [created.block]
    simp [atStart]

theorem initialSound
    (created : Created base size searchAlg initial heap memory) :
    Session.Sound { heap := heap, memory := memory, live := [] } :=
  ⟨_, created.consistent⟩

theorem noCursor (created : Created base size searchAlg initial heap memory)
    (policy : searchAlg ≠ .nextFit) : heap.searchAlg ≠ .nextFit := by
  rw [created.fields.1]
  exact policy

/-- Every session on a first-fit or best-fit heap is explained by a layout. -/
theorem sound (created : Created base size searchAlg initial heap memory)
    (policy : searchAlg ≠ .nextFit) {actions : List Action}
    {session : Session}
    (run : Run Step { heap := heap, memory := memory, live := [] } actions
      session) : session.Sound := by
  have first := created.initialSound
  exact run_sound (run_safe run first (created.noCursor policy)) first

end Created

/-- The heap made from 100 bytes at address 4096. -/
def smallHeap (searchAlg : SearchAlg) : Heap :=
  { searchAlg := searchAlg, size := 64, next := 4132, start := 4132 }

def smallMemory (searchAlg : SearchAlg) (initial : Memory) : Memory :=
  setBlockHeader (storeHeap initial 4096 (smallHeap searchAlg)) 4132 64 0

theorem smallHeap_created (searchAlg : SearchAlg) (initial : Memory) :
    Created 4096 100 searchAlg initial (smallHeap searchAlg)
      (smallMemory searchAlg initial) := by
  have area : trimArea 4096 100 = (4132, 64) := by decide
  constructor
  · exact ⟨by decide, by decide, by decide⟩
  · simp [heapCreate, area, smallHeap, smallMemory]
  · simp [smallHeap]
  · simp [smallHeap]

abbrev smallSession (searchAlg : SearchAlg) (initial : Memory) : Session :=
  { heap := smallHeap searchAlg, memory := smallMemory searchAlg initial
    live := [] }

end SystemsLabs.ImplicitHeap
