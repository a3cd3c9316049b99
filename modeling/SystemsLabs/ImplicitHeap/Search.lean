import SystemsLabs.ImplicitHeap.WellFormed

/-!
# Searching a heap of any size

A heap known only by the walk over it: the blocks met there cover the heap
area, whose size is not bounded by the range of `int`.  Every strategy then
returns, and what it hands out is prepared from a free block that is large
enough.
-/

namespace SystemsLabs.ImplicitHeap

open Tiling

/-- The blocks met on a walk over the heap cover the heap area; the cursor of
a next-fit heap is at one of them. -/
structure Covered (heap : Heap) (memory : Memory) (visited : List Nat) :
    Prop where
  room : heap.start + heap.size < 2 ^ 64
  walk : Walk memory heap.start visited (offset heap.start heap.size)
  inside : ∀ block ∈ visited, heap.start ≤ block ∧
    block + getBlockSize memory block ≤ heap.start + heap.size
  sizes : ∀ block ∈ visited,
    getBlockSize memory block % 8 = 0 ∧ 8 ≤ getBlockSize memory block
  tags : ∀ block ∈ visited,
    memory.load (offset (getPayload block) (getPayloadSize memory block)) 4 =
      memory.load block 4
  cursor : heap.searchAlg = .nextFit → heap.next ∈ visited

/-- Every session that some layout explains is covered by its blocks. -/
theorem Consistent.covered {session : Session} {blocks : List Block}
    (consistent : Consistent session blocks) :
    Covered session.heap session.memory (starts session.heap blocks) := by
  have tiles := consistent.represents.toTiles
  have wellFormed := consistent.wellFormed
  have room := tiles.room
  have total := tiles.size
  refine ⟨by omega, wellFormed.walk, ?_, wellFormed.sizes, wellFormed.tags,
    consistent.cursor⟩
  intro address member
  obtain ⟨block, placedMember⟩ := mem_addresses.mp member
  have within := bounds placedMember
  obtain ⟨front, back, split, rfl⟩ := exists_split placedMember
  subst split
  rw [tiles.size_block]
  omega

/-- A walk can be entered at every block it meets; the rest of it meets no
others. -/
theorem Walk.enter {memory : Memory} {start stop block : Nat}
    {visited : List Nat} (walk : Walk memory start visited stop)
    (met : block ∈ visited) :
    ∃ front back, visited = front ++ block :: back ∧
      Walk memory block (block :: back) stop ∧
      (∀ other ∈ block :: back, other ∈ visited) ∧
      (block :: back).length ≤ visited.length := by
  induction walk with
  | done => cases met
  | @block address stop rest onward ih =>
      rcases List.mem_cons.mp met with rfl | later
      · exact ⟨[], rest, rfl, .block onward, fun _ member => member,
          Nat.le_refl _⟩
      · obtain ⟨front, back, split, entered, behind, shorter⟩ := ih later
        refine ⟨address :: front, back, by rw [split]; rfl, entered, ?_, ?_⟩
        · intro other member
          exact List.mem_cons_of_mem address (behind other member)
        · exact Nat.le_succ_of_le shorter

theorem within_of_inside {heap : Heap} {memory : Memory} {block : Nat}
    (room : heap.start + heap.size < 2 ^ 64)
    (inside : heap.start ≤ block ∧
      block + getBlockSize memory block ≤ heap.start + heap.size)
    (large : 8 ≤ getBlockSize memory block) :
    isWithinHeapRange heap block = true := by
  have stop : offset heap.start heap.size = (heap.start + heap.size).toNat := by
    unfold offset
    omega
  rw [isWithinHeapRange, stop]
  simp only [Bool.and_eq_true, decide_eq_true_eq]
  omega

namespace Covered

variable {heap : Heap} {memory : Memory} {visited : List Nat} {block : Nat}

theorem within (covered : Covered heap memory visited)
    (met : block ∈ visited) : isWithinHeapRange heap block = true :=
  within_of_inside covered.room (covered.inside block met)
    (covered.sizes block met).2

theorem not_within_stop :
    isWithinHeapRange heap (offset heap.start heap.size) = false := by
  simp [isWithinHeapRange]

theorem block_room (covered : Covered heap memory visited)
    (met : block ∈ visited) :
    block + getBlockSize memory block < 2 ^ 64 := by
  have room := covered.room
  have high := (covered.inside block met).2
  omega

end Covered

/-- The block at an address is free and large enough for the request. -/
def FitsAt (memory : Memory) (request : Request) (block : Nat) : Prop :=
  blockIsInUse memory block = 0 ∧
    request.needed ≤ getBlockSize memory block

instance (memory : Memory) (request : Request) (block : Nat) :
    Decidable (FitsAt memory request block) :=
  inferInstanceAs (Decidable (_ ∧ _))

section Loops

variable {heap : Heap} {memory : Memory} (request : Request)

theorem blockFits_fitsAt (block : Nat) :
    blockFits memory request.bytes block =
      some (decide (FitsAt memory request block)) := by
  rw [blockFits, getSizeToAllocate_request]
  by_cases free : blockIsInUse memory block = 0
  · simp [free, FitsAt]
  · simp [free, FitsAt]

/-- With enough rounds a search loop finds the first block of the walk that
fits. -/
theorem searchLoop_walk {current stop : Nat} {visited : List Nat}
    (walk : Walk memory current visited stop)
    (inside : ∀ block ∈ visited, isWithinHeapRange heap block = true)
    (outside : isWithinHeapRange heap stop = false) {fuel : Nat}
    (enough : visited.length < fuel) :
    searchLoop heap memory request.bytes fuel current =
      some (visited.find? fun block => FitsAt memory request block) := by
  induction walk generalizing fuel with
  | done address =>
      obtain ⟨rounds, rfl⟩ := Nat.exists_eq_add_of_lt enough
      simp [searchLoop, outside]
  | @block address stop rest onward ih =>
      obtain ⟨rounds, rfl⟩ := Nat.exists_eq_add_of_lt enough
      have here := inside address List.mem_cons_self
      by_cases fits : FitsAt memory request address
      · simp [searchLoop, here, blockFits_fitsAt request, fits]
      · have later := ih (fun block met =>
          inside block (List.mem_cons_of_mem _ met)) outside
          (show rest.length < rest.length + 1 + rounds by omega)
        simp [searchLoop, here, blockFits_fitsAt request, fits, later]

/-- What a best-fit search may return: the best block so far, or a block of
the walk that fits. -/
def PickedFrom (memory : Memory) (best : Option Nat) (visited : List Nat)
    (found : Option Nat) : Prop :=
  found = best ∨
    ∃ block ∈ visited, FitsAt memory request block ∧ found = some block

theorem PickedFrom.skip {address : Nat} {rest : List Nat}
    {best found : Option Nat}
    (picked : PickedFrom request memory best rest found) :
    PickedFrom request memory best (address :: rest) found := by
  rcases picked with kept | ⟨block, met, good⟩
  · exact .inl kept
  · exact .inr ⟨block, List.mem_cons_of_mem _ met, good⟩

theorem PickedFrom.take {address : Nat} {rest : List Nat}
    {best found : Option Nat}
    (picked : PickedFrom request memory (some address) rest found)
    (fits : FitsAt memory request address) :
    PickedFrom request memory best (address :: rest) found := by
  rcases picked with here | ⟨block, met, good⟩
  · exact .inr ⟨address, List.mem_cons_self, fits, here⟩
  · exact .inr ⟨block, List.mem_cons_of_mem _ met, good⟩

theorem bestFitLoop_walk {current stop : Nat} {visited : List Nat}
    (walk : Walk memory current visited stop)
    (inside : ∀ block ∈ visited, isWithinHeapRange heap block = true)
    (outside : isWithinHeapRange heap stop = false) {fuel : Nat}
    (enough : visited.length < fuel) (smallest : Int) (best : Option Nat) :
    ∃ found,
      bestFitLoop heap memory request.bytes fuel current smallest best =
        some found ∧ PickedFrom request memory best visited found := by
  induction walk generalizing fuel smallest best with
  | done address =>
      obtain ⟨rounds, rfl⟩ := Nat.exists_eq_add_of_lt enough
      exact ⟨best, by simp [bestFitLoop, outside], .inl rfl⟩
  | @block address stop rest onward ih =>
      obtain ⟨rounds, rfl⟩ := Nat.exists_eq_add_of_lt enough
      have here := inside address List.mem_cons_self
      have later := ih (fun block met =>
        inside block (List.mem_cons_of_mem _ met)) outside
        (show rest.length < rest.length + 1 + rounds by omega)
      rw [List.length_cons, bestFitLoop, if_pos here, blockFits_fitsAt request,
        getSizeToAllocate_request]
      simp only [Option.bind_eq_bind, Option.bind_some]
      split
      · rename_i fits
        split
        · obtain ⟨found, returned, picked⟩ := later _ (some address)
          exact ⟨found, returned, picked.take request (of_decide_eq_true fits)⟩
        · obtain ⟨found, returned, picked⟩ := later smallest best
          exact ⟨found, returned, picked.skip request⟩
      · obtain ⟨found, returned, picked⟩ := later smallest best
        exact ⟨found, returned, picked.skip request⟩

end Loops

/-- What a call of `heap_malloc` on a covered heap may do: it changes nothing,
or it prepares a block that fits. -/
inductive Answers (heap : Heap) (memory : Memory) (visited : List Nat)
    (request : Request) : MallocResult → Prop where
  | refused : Answers heap memory visited request (none, heap, memory)
  | served {block cursor payload : Nat} {newMemory : Memory} :
      block ∈ visited →
      FitsAt memory request block →
      prepareBlockForUse memory block request.bytes =
        some (payload, newMemory) →
      Answers heap memory visited request
        (some payload, { heap with next := cursor }, newMemory)

theorem prepareBlockForUse_payload (memory : Memory) (block : Nat)
    (request : Request) :
    ∃ newMemory, prepareBlockForUse memory block request.bytes =
      some (getPayload block, newMemory) := by
  rw [prepareBlockForUse, getSizeToAllocate_request]
  simp only [Option.bind_eq_bind, Option.bind_some]
  split
  · exact ⟨_, rfl⟩
  · exact ⟨_, rfl⟩

theorem prepareBlockForUse_serves {heap : Heap} {memory : Memory}
    {visited : List Nat} {block : Nat} {request : Request}
    (met : block ∈ visited) (fits : FitsAt memory request block) :
    ∃ payload newMemory,
      prepareBlockForUse memory block request.bytes =
        some (payload, newMemory) ∧
      ∀ cursor, Answers heap memory visited request
        (some payload, { heap with next := cursor }, newMemory) := by
  obtain ⟨newMemory, prepared⟩ :=
    prepareBlockForUse_payload memory block request
  exact ⟨getPayload block, newMemory, prepared,
    fun _ => .served met fits prepared⟩

theorem mem_of_find? {memory : Memory} {request : Request}
    {visited : List Nat} {block : Nat}
    (found : (visited.find? fun block => FitsAt memory request block) =
      some block) :
    block ∈ visited ∧ FitsAt memory request block :=
  ⟨List.mem_of_find?_eq_some found, by simpa using List.find?_some found⟩

namespace Covered

variable {heap : Heap} {memory : Memory} {visited : List Nat}

theorem mallocFirstFit_answers (covered : Covered heap memory visited)
    (request : Request) {fuel : Nat} (enough : visited.length < fuel) :
    ∃ outcome, mallocFirstFit fuel heap memory request.bytes = some outcome ∧
      Answers heap memory visited request outcome := by
  have search := searchLoop_walk request covered.walk
    (fun block met => covered.within met) not_within_stop enough
  rw [mallocFirstFit, search]
  cases found : visited.find? fun block => FitsAt memory request block with
  | none => exact ⟨_, rfl, .refused⟩
  | some block =>
      obtain ⟨met, fits⟩ := mem_of_find? found
      obtain ⟨payload, newMemory, prepared, answers⟩ :=
        prepareBlockForUse_serves met fits
      simp only [Option.bind_eq_bind, Option.bind_some, prepared]
      exact ⟨_, rfl, answers _⟩

theorem mallocBestFit_answers (covered : Covered heap memory visited)
    (request : Request) {fuel : Nat} (enough : visited.length < fuel) :
    ∃ outcome, mallocBestFit fuel heap memory request.bytes = some outcome ∧
      Answers heap memory visited request outcome := by
  obtain ⟨found, returned, picked⟩ := bestFitLoop_walk request covered.walk
    (fun block met => covered.within met) not_within_stop enough
    (toInt heap.size) none
  rw [mallocBestFit, returned]
  rcases picked with rfl | ⟨block, met, fits, rfl⟩
  · exact ⟨_, rfl, .refused⟩
  · obtain ⟨payload, newMemory, prepared, answers⟩ :=
      prepareBlockForUse_serves met fits
    simp only [Option.bind_eq_bind, Option.bind_some, prepared]
    exact ⟨_, rfl, answers _⟩

theorem mallocNextFit_answers (covered : Covered heap memory visited)
    (cursor : heap.next ∈ visited) (request : Request) {fuel : Nat}
    (enough : visited.length < fuel) :
    ∃ outcome, mallocNextFit fuel heap memory request.bytes = some outcome ∧
      Answers heap memory visited request outcome := by
  obtain ⟨front, back, split, entered, behind, shorter⟩ :=
    covered.walk.enter cursor
  have fromCursor := searchLoop_walk request entered
    (fun block met => covered.within (behind block met)) not_within_stop
    (Nat.lt_of_le_of_lt shorter enough)
  have fromStart := searchLoop_walk request covered.walk
    (fun block met => covered.within met) not_within_stop enough
  rw [mallocNextFit, fromCursor]
  cases found : (heap.next :: back).find? fun block =>
      FitsAt memory request block with
  | some block =>
      obtain ⟨met, fits⟩ := mem_of_find? found
      obtain ⟨payload, newMemory, prepared, answers⟩ :=
        prepareBlockForUse_serves (behind block met) fits
      simp only [Option.bind_eq_bind, Option.bind_some, prepared]
      exact ⟨_, rfl, answers _⟩
  | none =>
      simp only [Option.bind_eq_bind, Option.bind_some, fromStart]
      cases again : visited.find? fun block => FitsAt memory request block with
      | none => exact ⟨_, rfl, .refused⟩
      | some block =>
          obtain ⟨met, fits⟩ := mem_of_find? again
          obtain ⟨payload, newMemory, prepared, answers⟩ :=
            prepareBlockForUse_serves met fits
          simp only [Option.bind_some, prepared]
          exact ⟨_, rfl, answers _⟩

/-- The three strategies on a heap of any size. -/
theorem heapMalloc_answers (covered : Covered heap memory visited)
    (request : Request) {fuel : Nat} (enough : visited.length < fuel) :
    ∃ outcome, heapMalloc fuel heap memory request.bytes = some outcome ∧
      Answers heap memory visited request outcome := by
  cases policy : heap.searchAlg with
  | firstFit =>
      simpa only [heapMalloc, policy] using
        covered.mallocFirstFit_answers request enough
  | nextFit =>
      simpa only [heapMalloc, policy] using
        covered.mallocNextFit_answers (covered.cursor policy) request enough
  | bestFit =>
      simpa only [heapMalloc, policy] using
        covered.mallocBestFit_answers request enough

end Covered

end SystemsLabs.ImplicitHeap
