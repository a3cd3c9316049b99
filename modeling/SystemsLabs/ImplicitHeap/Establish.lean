import SystemsLabs.ImplicitHeap.Create

/-!
# Heaps of every requested size

`heapCreate` does not check the size it is asked for.  Too small a request
leaves a heap whose size is zero or negative, and from 4 GiB on the header of
the one free block cannot hold the size of the heap.
-/

namespace SystemsLabs.ImplicitHeap

/-- A new heap inside the area from `base` on, one free block with equal
tags. -/
structure Establishes (base : Nat) (size : Int) (initial : Memory)
    (heap : Heap) (memory : Memory) : Prop where
  payloadAligned : (heap.start + 4) % 8 = 0
  positive : 0 < heap.size
  aligned : heap.size % 8 = 0
  low : base + sizeofHeap ≤ heap.start
  high : heap.start + heap.size ≤ base + size
  free : blockIsInUse memory heap.start = 0
  header : (getBlockSize memory heap.start : Int) = heap.size
  footerFree : blockIsInUse memory (heap.start + heap.size - 4).toNat = 0
  footer : (getBlockSize memory (heap.start + heap.size - 4).toNat : Int) =
    heap.size
  confined : Memory.SameOutside base (base + size).toNat initial memory

/-- What a call of `heap_create` should do, for every result of `sbrk`. -/
def CreatesWell (sbrk : Option Nat) (size : Int) (searchAlg : SearchAlg)
    (initial : Memory) : Prop :=
  heapCreate sbrk initial size searchAlg = none ∨
    ∃ base heap memory, sbrk = some base ∧
      heapCreate sbrk initial size searchAlg = some (heap, memory) ∧
      Establishes base size initial heap memory

/-- Room for the heap structure, the padding and one block, and no more than a
header can encode. -/
def Encodable (base : Nat) (size : Int) : Prop :=
  40 + (12 - base % 8 : Int) % 8 ≤ size ∧
    size < 2 ^ 32 + 32 + (12 - base % 8 : Int) % 8

instance (base : Nat) (size : Int) : Decidable (Encodable base size) :=
  inferInstanceAs (Decidable (_ ∧ _))

/-- The size of the heap is that of a block exactly when the request is
encodable. -/
theorem trimArea_size_iff {base : Nat} {size : Int}
    (area : SbrkArea base size) :
    (8 ≤ (trimArea base size).2 ∧ (trimArea base size).2 < 2 ^ 32) ↔
      Encodable base size := by
  obtain ⟨intptr, address, ends⟩ := area
  obtain ⟨padded, turns, result, paddedEq, paddedBounds⟩ :=
    paddedSize_eq base size
  have delta := alignmentDelta_eq (offset base sizeofHeap)
  obtain ⟨lastTurns, last, lastBounds⟩ := toIntptr_eq
    (padded - ((padded - 2 * headerSize) % 2 ^ 64) % payloadAlign)
  have header := offset_sizeofHeap base
  have prefixSize : sizeofHeap = 32 := rfl
  have word : headerSize = 4 := rfl
  have granule : payloadAlign = 8 := rfl
  have shift : alignmentDelta (offset base sizeofHeap) =
      (12 - base % 8 : Int) % 8 := by
    omega
  have rounded : (trimArea base size).2 = padded - padded % 8 := by
    simp only [result]
    rw [word, granule] at last lastBounds ⊢
    omega
  rw [shift, prefixSize] at paddedEq
  rw [rounded]
  unfold Encodable
  omega

theorem heapCreate_eq (base : Nat) (size : Int) (searchAlg : SearchAlg)
    (initial : Memory) :
    ∃ heap, heap.start = (trimArea base size).1 ∧
      heap.size = (trimArea base size).2 ∧
      heapCreate (some base) initial size searchAlg =
        some (heap, setBlockHeader (storeHeap initial base heap) heap.start
          (heap.size % 2 ^ 32).toNat 0) :=
  ⟨_, rfl, rfl, rfl⟩

theorem storeHeap_sameOutside (memory : Memory) (base : Nat) (heap : Heap) :
    Memory.SameOutside base (base + sizeofHeap) memory
      (storeHeap memory base heap) := by
  have field : ∀ (before : Memory) (place width value : Nat),
      place + width ≤ sizeofHeap →
      Memory.SameOutside base (base + sizeofHeap) before
        (before.store (base + place) width value) := by
    intro before place width value inside
    exact (Memory.store_sameOutside before (base + place) width value).mono
      (Nat.le_add_right _ _) (by omega)
  exact (((field _ 8 8 _ (by decide)).trans
    (field _ 24 8 _ (by decide))).trans
    (field _ 0 4 _ (by decide))).trans (field _ 16 8 _ (by decide))

theorem establishes_of_encodable {base : Nat} {size : Int}
    (area : SbrkArea base size) (encodable : Encodable base size)
    (searchAlg : SearchAlg) (initial : Memory) :
    CreatesWell (some base) size searchAlg initial := by
  obtain ⟨large, small⟩ := (trimArea_size_iff area).mpr encodable
  obtain ⟨startAligned, sizeAligned, low, high⟩ :=
    trimArea_spec area large small
  obtain ⟨heap, start, total, created⟩ :=
    heapCreate_eq base size searchAlg initial
  have ends := area.ends
  rw [← total] at large small sizeAligned high
  rw [← start] at startAligned low high
  have cut : ((heap.size % 2 ^ 32).toNat : Int) = heap.size := by omega
  generalize (heap.size % 2 ^ 32).toNat = blockSize at cut created
  have last : (heap.start + heap.size - 4).toNat =
      heap.start + blockSize - 4 := by
    omega
  obtain ⟨header, footer, same⟩ :=
    @setBlockHeader_spec (storeHeap initial base heap) heap.start blockSize 0
      (by omega) (by omega) (by omega) (by omega) Nat.zero_lt_two
  obtain ⟨free, holds⟩ :=
    accessors_of_word header (by omega) Nat.zero_lt_two (by omega)
  obtain ⟨footerFree, footerHolds⟩ :=
    accessors_of_word footer (by omega) Nat.zero_lt_two (by omega)
  refine .inr ⟨base, heap, _, rfl, created, ?_⟩
  constructor
  · omega
  · omega
  · exact sizeAligned
  · exact low
  · exact high
  · exact free
  · rw [holds, cut]
  · rw [last]
    exact footerFree
  · rw [last, footerHolds, cut]
  · have prefixInside : base + sizeofHeap ≤ (base + size).toNat := by
      omega
    exact ((storeHeap_sameOutside initial base heap).mono (Nat.le_refl _)
      prefixInside).trans (same.mono (by omega) (by omega))

theorem getBlockSize_lt (memory : Memory) (block : Nat) :
    getBlockSize memory block < 2 ^ 32 :=
  Nat.mod_lt _ (by decide)

theorem encodable_of_establishes {base : Nat} {size : Int}
    (area : SbrkArea base size) {searchAlg : SearchAlg} {initial : Memory}
    (creates : CreatesWell (some base) size searchAlg initial) :
    Encodable base size := by
  obtain ⟨heap, start, total, created⟩ :=
    heapCreate_eq base size searchAlg initial
  rcases creates with failed | ⟨_, other, memory, _, returned, establishes⟩
  · rw [created] at failed
    cases failed
  · rw [created] at returned
    cases returned
    have positive := establishes.positive
    have aligned := establishes.aligned
    have header := establishes.header
    have small := getBlockSize_lt (setBlockHeader
      (storeHeap initial base heap) heap.start (heap.size % 2 ^ 32).toNat 0)
      heap.start
    apply (trimArea_size_iff area).mp
    rw [← total]
    omega

/-- `heap_create` establishes the invariant of the heap exactly for encodable
sizes. -/
theorem heapCreate_establishes_iff (sbrk : Option Nat) (size : Int)
    (searchAlg : SearchAlg) (initial : Memory)
    (area : ∀ base, sbrk = some base → SbrkArea base size) :
    CreatesWell sbrk size searchAlg initial ↔
      ∀ base, sbrk = some base → Encodable base size := by
  cases sbrk with
  | none =>
      constructor
      · intro _ base returned
        cases returned
      · intro _
        exact .inl rfl
  | some base =>
      have inside := area base rfl
      constructor
      · rintro creates other returned
        cases returned
        exact encodable_of_establishes inside creates
      · intro encodable
        exact establishes_of_encodable inside (encodable base rfl) searchAlg
          initial

theorem sbrkArea_low {size : Int} (low : -2 ^ 63 ≤ size)
    (high : size < 2 ^ 40) : ∀ base, some 4096 = some base →
      SbrkArea base size := by
  intro base returned
  cases returned
  exact ⟨⟨low, by omega⟩, by decide, by omega⟩

theorem heapCreate_establishes_small :
    CreatesWell (some 4096) 100 .firstFit (fun _ => 255) ↔
      ∀ base, some 4096 = some base → Encodable base 100 :=
  heapCreate_establishes_iff (some 4096) 100 .firstFit (fun _ => 255)
    (sbrkArea_low (by decide) (by decide))

/-- A request for 8 bytes gives a heap of size -32, and one for 64 bytes more
than 4 GiB a block whose header does not hold the size of the heap. -/
theorem heapCreate_slips :
    ¬CreatesWell (some 4096) 8 .firstFit (fun _ => 0) ∧
      ¬CreatesWell (some 4096) (2 ^ 32 + 64) .firstFit (fun _ => 0) := by
  constructor
  · intro creates
    exact absurd (encodable_of_establishes
      (sbrkArea_low (by decide) (by decide) 4096 rfl) creates) (by decide)
  · intro creates
    exact absurd (encodable_of_establishes
      (sbrkArea_low (by decide) (by decide) 4096 rfl) creates) (by decide)

end SystemsLabs.ImplicitHeap
