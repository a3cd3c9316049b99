import SystemsLabs.ImplicitHeap.Search
import SystemsLabs.ImplicitHeap.Splitting

/-!
# Taking a block of a tiled heap

A heap known by its sizes only: the blocks met on a walk tile the heap area.
Serving a request from a free block leaves such a heap, with the used block and
what is left of the free one in its place.
-/

namespace SystemsLabs.ImplicitHeap

/-- The blocks met on a walk tile a heap area of less than 2 GiB, and the
cursor is at the start of one of them. -/
structure Tiled (heap : Heap) (memory : Memory) (visited : List Nat) :
    Prop where
  small : heap.size < 2 ^ 31
  room : heap.start + heap.size < 2 ^ 64
  walk : Walk memory heap.start visited (offset heap.start heap.size)
  inside : ∀ block ∈ visited, heap.start ≤ block ∧
    block + getBlockSize memory block ≤ heap.start + heap.size
  sizes : ∀ block ∈ visited,
    getBlockSize memory block % 8 = 0 ∧ 8 ≤ getBlockSize memory block
  cursor : heap.next ∈ visited

/-- The layout of a session tiles its heap when the cursor is at a block. -/
theorem Consistent.tiled {session : Session} {blocks : List Block}
    (consistent : Consistent session blocks)
    (cursor : session.heap.next ∈ starts session.heap blocks) :
    Tiled session.heap session.memory (starts session.heap blocks) := by
  have covered := consistent.covered
  have total := consistent.represents.size
  have small := consistent.represents.small
  exact ⟨by omega, covered.room, covered.walk, covered.inside, covered.sizes,
    cursor⟩

/-- The used block in front and, unless it is the whole block, what is left. -/
def takenFrom (block size used : Nat) : List Nat :=
  if used = size then [block] else [block, block + used]

/-- A request served from a free block: a block in use that is large enough
stands in its place, with a free block for the rest of it.  No byte outside is
written, so the headers of the other blocks stay, and all of them tile the heap
that the call leaves. -/
structure ServedFrom (memory : Memory) (visited : List Nat)
    (request : Request) (block : Nat) (after : Heap) (newMemory : Memory) :
    Prop where
  used : BoundsWaste newMemory block (getBlockSize memory block)
    request.needed (getBlockSize newMemory block)
  kept : Memory.SameOutside block (block + getBlockSize memory block) memory
    newMemory
  others : ∀ other ∈ visited, other ≠ block →
    newMemory.load other 4 = memory.load other 4
  tiled : ∃ front back, visited = front ++ block :: back ∧
    Tiled after newMemory
      (front ++ (takenFrom block (getBlockSize memory block)
        (getBlockSize newMemory block) ++ back))

namespace Walk

variable {memory newMemory : Memory} {current middle stop : Nat}
  {front back : List Nat}

/-- The blocks of a walk that does not leave the address space lie between its
ends, one behind the other. -/
theorem inside {visited : List Nat} (walk : Walk memory current visited stop)
    (room : ∀ block ∈ visited,
      block + getBlockSize memory block < 2 ^ 64) :
    current ≤ stop ∧ ∀ block ∈ visited,
      current ≤ block ∧ block + getBlockSize memory block ≤ stop := by
  induction walk with
  | done => exact ⟨Nat.le_refl _, by simp⟩
  | @block address stop rest onward ih =>
      obtain ⟨high, within⟩ :=
        ih fun block met => room block (List.mem_cons_of_mem _ met)
      have next : getNextBlock memory address =
          address + getBlockSize memory address :=
        offset_add _ _ (room address List.mem_cons_self)
      rw [next] at high within
      refine ⟨Nat.le_trans (Nat.le_add_right _ _) high, ?_⟩
      intro block met
      rcases List.mem_cons.mp met with rfl | behind
      · exact ⟨Nat.le_refl _, high⟩
      · obtain ⟨low, end_le⟩ := within block behind
        exact ⟨Nat.le_trans (Nat.le_add_right _ _) low, end_le⟩

theorem ascending {visited : List Nat}
    (walk : Walk memory current visited stop)
    (room : ∀ block ∈ visited, block + getBlockSize memory block < 2 ^ 64)
    (large : ∀ block ∈ visited, 0 < getBlockSize memory block) :
    visited.Pairwise fun left right => left < right := by
  induction walk with
  | done => exact .nil
  | @block address stop rest onward ih =>
      have later : ∀ block ∈ rest,
          block + getBlockSize memory block < 2 ^ 64 :=
        fun block met => room block (List.mem_cons_of_mem _ met)
      have next : getNextBlock memory address =
          address + getBlockSize memory address :=
        offset_add _ _ (room address List.mem_cons_self)
      refine List.pairwise_cons.mpr ⟨?_, ih later
        fun block met => large block (List.mem_cons_of_mem _ met)⟩
      intro block met
      have low := ((onward.inside later).2 block met).1
      have positive := large address List.mem_cons_self
      omega

theorem join (first : Walk memory current front middle)
    (second : Walk memory middle back stop) :
    Walk memory current (front ++ back) stop := by
  induction first with
  | done => exact second
  | block onward ih => exact .block (ih second)

theorem split {block : Nat} :
    ∀ {front : List Nat} {current : Nat},
      Walk memory current (front ++ block :: back) stop →
      Walk memory current front block ∧
        Walk memory (getNextBlock memory block) back stop := by
  intro front
  induction front with
  | nil =>
      intro current walk
      cases walk with
      | block onward => exact ⟨.done _, onward⟩
  | cons head rest ih =>
      intro current walk
      cases walk with
      | block onward =>
          obtain ⟨before, behind⟩ := ih onward
          exact ⟨.block before, behind⟩

/-- A walk that meets the same sizes meets the same blocks. -/
theorem sameSizes {visited : List Nat}
    (walk : Walk memory current visited stop)
    (same : ∀ block ∈ visited,
      getBlockSize newMemory block = getBlockSize memory block) :
    Walk newMemory current visited stop := by
  induction walk with
  | done address => exact .done address
  | @block address stop rest onward ih =>
      have next : getNextBlock newMemory address =
          getNextBlock memory address := by
        rw [getNextBlock, same address List.mem_cons_self, getNextBlock]
      apply Walk.block
      rw [next]
      exact ih fun block met => same block (List.mem_cons_of_mem _ met)

end Walk

namespace Tiled

variable {heap : Heap} {memory : Memory} {visited : List Nat}

theorem within (tiled : Tiled heap memory visited) :
    ∀ block ∈ visited, isWithinHeapRange heap block = true :=
  fun block met => within_of_inside tiled.room (tiled.inside block met)
    (tiled.sizes block met).2

theorem block_small (tiled : Tiled heap memory visited) :
    ∀ block ∈ visited, getBlockSize memory block ≤ heap.size := by
  intro block met
  have within := tiled.inside block met
  omega

theorem block_room (tiled : Tiled heap memory visited) :
    ∀ block ∈ visited, block + getBlockSize memory block < 2 ^ 64 := by
  intro block met
  have area := tiled.room
  have within := tiled.inside block met
  omega

theorem ascending (tiled : Tiled heap memory visited) :
    visited.Pairwise fun left right => left < right := by
  apply tiled.walk.ascending tiled.block_room
  intro block met
  have large := (tiled.sizes block met).2
  omega

theorem freeBlock (tiled : Tiled heap memory visited) {request : Request}
    {block : Nat} (met : block ∈ visited)
    (fits : FitsAt memory request block) :
    FreeBlock memory block (getBlockSize memory block) := by
  have small := tiled.small
  have bounded := tiled.block_small block met
  have sizes := tiled.sizes block met
  exact ⟨fits.1, rfl, sizes.1, sizes.2, by omega, tiled.block_room block met⟩

theorem apart {front back : List Nat} {block : Nat}
    (tiled : Tiled heap memory (front ++ block :: back)) :
    (∀ other ∈ front, other + getBlockSize memory other ≤ block) ∧
      ∀ other ∈ back, block + getBlockSize memory block ≤ other := by
  obtain ⟨before, behind⟩ := tiled.walk.split
  have room := tiled.block_room
  have next : getNextBlock memory block =
      block + getBlockSize memory block :=
    offset_add _ _ (room block (by simp))
  rw [next] at behind
  constructor
  · intro other met
    exact ((before.inside fun spot here => room spot (by simp [here])).2 other
      met).2
  · intro other met
    exact ((behind.inside fun spot here => room spot (by simp [here])).2 other
      met).1

theorem others_kept {front back : List Nat} {block : Nat}
    (tiled : Tiled heap memory (front ++ block :: back))
    {newMemory : Memory}
    (kept : Memory.SameOutside block (block + getBlockSize memory block)
      memory newMemory) :
    ∀ other ∈ front ++ back, newMemory.load other 4 = memory.load other 4 := by
  obtain ⟨before, behind⟩ := tiled.apart
  intro other met
  apply kept.load
  rcases List.mem_append.mp met with early | late
  · have large := (tiled.sizes other (by simp [early])).2
    have low := before other early
    omega
  · exact .inr (behind other late)

theorem walk_taken {newMemory : Memory} {block size needed used : Nat}
    (room : block + size < 2 ^ 64)
    (waste : BoundsWaste newMemory block size needed used) :
    Walk newMemory block (takenFrom block size used) (block + size) := by
  have inside := waste.inside
  have next : getNextBlock newMemory block = block + used := by
    rw [getNextBlock, waste.holds]
    exact offset_add _ _ (by omega)
  rw [takenFrom]
  split
  case isTrue whole =>
    apply Walk.block
    rw [next, whole]
    exact .done _
  case isFalse parts =>
    obtain ⟨_, _, restSize, _⟩ := waste.rest.resolve_left parts
    have last : getNextBlock newMemory (block + used) = block + size := by
      rw [getNextBlock, restSize, offset_add _ _ (by omega)]
      omega
    apply Walk.block
    rw [next]
    apply Walk.block
    rw [last]
    exact .done _

theorem bounds_taken {newMemory : Memory} {block size needed used : Nat}
    (waste : BoundsWaste newMemory block size needed used)
    (aligned : size % 8 = 0 ∧ used % 8 = 0) (large : 8 ≤ used) :
    ∀ part ∈ takenFrom block size used,
      (block ≤ part ∧ part + getBlockSize newMemory part ≤ block + size) ∧
      getBlockSize newMemory part % 8 = 0 ∧
      8 ≤ getBlockSize newMemory part := by
  have inside := waste.inside
  have holds := waste.holds
  intro part member
  rw [takenFrom] at member
  split at member
  case isTrue whole =>
    obtain rfl := List.mem_singleton.mp member
    omega
  case isFalse parts =>
    obtain ⟨room, _, restSize, _⟩ := waste.rest.resolve_left parts
    rcases List.mem_cons.mp member with rfl | rest
    · omega
    · obtain rfl := List.mem_singleton.mp rest
      omega

/-- The heap with one of its blocks taken is tiled again. -/
theorem retile {front back : List Nat} {block needed used next : Nat}
    (tiled : Tiled heap memory (front ++ block :: back))
    {newMemory : Memory}
    (waste : BoundsWaste newMemory block (getBlockSize memory block) needed
      used)
    (aligned : used % 8 = 0) (large : 8 ≤ used)
    (kept : Memory.SameOutside block (block + getBlockSize memory block)
      memory newMemory)
    (cursor : next ∈ front ++ block :: back) :
    Tiled { heap with next := next } newMemory
      (front ++ (takenFrom block (getBlockSize memory block) used ++
        back)) := by
  have met : block ∈ front ++ block :: back := by simp
  have within := tiled.inside block met
  have parts := bounds_taken waste ⟨(tiled.sizes block met).1, aligned⟩ large
  have others : ∀ other ∈ front ++ back,
      getBlockSize newMemory other = getBlockSize memory other := by
    intro other member
    rw [getBlockSize, tiled.others_kept kept other member, getBlockSize]
  have old : ∀ other ∈ front ++ back, other ∈ front ++ block :: back := by
    intro other member
    rcases List.mem_append.mp member with early | late
    · exact List.mem_append_left _ early
    · exact List.mem_append_right _ (List.mem_cons_of_mem _ late)
  have pieces : ∀ part ∈ front ++ (takenFrom block
      (getBlockSize memory block) used ++ back),
      (part ∈ front ++ back) ∨
        part ∈ takenFrom block (getBlockSize memory block) used := by
    intro part member
    simp only [List.mem_append] at member ⊢
    tauto
  obtain ⟨before, behind⟩ := tiled.walk.split
  have step : getNextBlock memory block =
      block + getBlockSize memory block :=
    offset_add _ _ (tiled.block_room block met)
  rw [step] at behind
  refine ⟨tiled.small, tiled.room, ?_, ?_, ?_, ?_⟩
  · exact (before.sameSizes fun other early =>
        others other (List.mem_append_left _ early)).join
      ((walk_taken (tiled.block_room block met) waste).join
        (behind.sameSizes fun other late =>
          others other (List.mem_append_right _ late)))
  · intro part member
    rcases pieces part member with other | taken
    · rw [others part other]
      exact tiled.inside part (old part other)
    · have bounds := (parts part taken).1
      dsimp only
      omega
  · intro part member
    rcases pieces part member with other | taken
    · rw [others part other]
      exact tiled.sizes part (old part other)
    · exact (parts part taken).2
  · rcases List.mem_append.mp cursor with early | late
    · exact List.mem_append_left _ early
    · rcases List.mem_cons.mp late with rfl | later
      · apply List.mem_append_right
        apply List.mem_append_left
        rw [takenFrom]
        split
        · exact List.mem_cons_self
        · exact List.mem_cons_self
      · exact List.mem_append_right _ (List.mem_append_right _ later)

/-- A request for which a block fits is served from it. -/
theorem serves (tiled : Tiled heap memory visited) (request : Request)
    {block next : Nat} (met : block ∈ visited)
    (fits : FitsAt memory request block) (cursor : next ∈ visited) :
    ∃ newMemory,
      prepareBlockForUse memory block request.bytes =
        some (block + 4, newMemory) ∧
      ServedFrom memory visited request block { heap with next := next }
        newMemory := by
  have small := tiled.small
  have bounded := tiled.block_small block met
  have sizes := tiled.sizes block met
  have bytes := request.aligned
  have needed : request.needed = request.bytes + 8 := rfl
  obtain ⟨newMemory, used, ⟨prepared, waste, kept⟩, which⟩ :=
    replaces_of_fits request (tiled.freeBlock met fits) fits.2
      (.inr (by omega))
  have holds := waste.holds
  obtain ⟨front, back, rfl⟩ := List.append_of_mem met
  have tiledAgain := tiled.retile waste (by omega) (by omega) kept cursor
  subst holds
  refine ⟨newMemory, prepared, waste, kept, ?_, front, back, rfl, tiledAgain⟩
  intro other member different
  apply tiled.others_kept kept
  simp only [List.mem_append, List.mem_cons] at member ⊢
  tauto

theorem getBlockStart_block (tiled : Tiled heap memory visited)
    {block : Nat} (met : block ∈ visited) :
    getBlockStart (block + 4) = block := by
  have room := tiled.block_room block met
  have large := (tiled.sizes block met).2
  exact offset_sub (block + 4) headerSize (by simp only [headerSize]; omega)
    (by omega)

end Tiled

end SystemsLabs.ImplicitHeap
