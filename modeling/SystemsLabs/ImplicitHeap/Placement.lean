import SystemsLabs.ImplicitHeap.Tiled

/-!
# Which block a request is served from

The three search functions on one heap whose blocks tile the heap area.  Each
of them finds a block exactly when some free block is large enough; first fit
takes the one with the lowest address, next fit the first one met cyclically
from the cursor, and best fit one that no other fitting block is smaller than.
The block is then used, and the heap is tiled by it, what is left of it and the
other blocks, which are as they were.
-/

namespace SystemsLabs.ImplicitHeap

/-- A free block that fits and lies below all others that do. -/
def LowestFit (memory : Memory) (visited : List Nat) (request : Request)
    (block : Nat) : Prop :=
  block ∈ visited ∧ FitsAt memory request block ∧
    ∀ other ∈ visited, FitsAt memory request other → block ≤ other

/-- The first free block that fits on a tour that begins at the cursor and
wraps around once at the end of the heap. -/
def CyclicFit (heap : Heap) (memory : Memory) (visited : List Nat)
    (request : Request) (block : Nat) : Prop :=
  ∃ front back, visited = front ++ heap.next :: back ∧
    ((heap.next :: back) ++ front).find?
      (fun candidate => FitsAt memory request candidate) = some block

/-- A free block that fits, of minimal size. -/
def SmallestFit (memory : Memory) (visited : List Nat) (request : Request)
    (block : Nat) : Prop :=
  block ∈ visited ∧ FitsAt memory request block ∧
    ∀ other ∈ visited, FitsAt memory request other →
      getBlockSize memory block ≤ getBlockSize memory other

/-- The outcome of a call under a policy: `NULL` and no change when no free
block fits, else the payload of a block that the policy allows, from which the
request is served. -/
structure Places (heap : Heap) (memory : Memory) (visited : List Nat)
    (request : Request) (policy : Nat → Prop) (after : Nat → Heap)
    (outcome : MallocResult) : Prop where
  null_iff : outcome.1 = none ↔
    ∀ block ∈ visited, ¬FitsAt memory request block
  unchanged : outcome.1 = none → outcome.2 = (heap, memory)
  placed : outcome.1 ≠ none → ∃ block newMemory, policy block ∧
    outcome = (some (block + 4), after block, newMemory) ∧
    ServedFrom memory visited request block (after block) newMemory

theorem places_refused {heap : Heap} {memory : Memory} {visited : List Nat}
    {request : Request} {policy : Nat → Prop} {after : Nat → Heap}
    (none_fits : ∀ block ∈ visited, ¬FitsAt memory request block) :
    Places heap memory visited request policy after (none, heap, memory) :=
  ⟨⟨fun _ => none_fits, fun _ => rfl⟩, fun _ => rfl,
    fun served => (served rfl).elim⟩

theorem places_served {heap : Heap} {memory newMemory : Memory}
    {visited : List Nat} {request : Request} {policy : Nat → Prop}
    {after : Nat → Heap} {block : Nat} (met : block ∈ visited)
    (fits : FitsAt memory request block) (allowed : policy block)
    (served :
      ServedFrom memory visited request block (after block) newMemory) :
    Places heap memory visited request policy after
      (some (block + 4), after block, newMemory) := by
  constructor
  · constructor
    · intro refused
      cases refused
    · intro none_fits
      exact (none_fits block met fits).elim
  · intro refused
    cases refused
  · intro _
    exact ⟨block, newMemory, allowed, rfl, served⟩

theorem lowestFit_of_find? {memory : Memory} {visited : List Nat}
    {request : Request} {block : Nat}
    (ordered : visited.Pairwise fun left right => left < right)
    (found : (visited.find? fun candidate =>
      FitsAt memory request candidate) = some block) :
    LowestFit memory visited request block := by
  obtain ⟨met, fits⟩ := mem_of_find? found
  refine ⟨met, fits, ?_⟩
  intro other otherMet otherFits
  obtain ⟨_, front, back, rfl, skipped⟩ := List.find?_eq_some_iff_append.mp found
  rcases List.mem_append.mp otherMet with before | behind
  · have refused := skipped other before
    simp [otherFits] at refused
  · rcases List.mem_cons.mp behind with rfl | after
    · exact Nat.le_refl _
    · have tail := (List.pairwise_append.mp ordered).2.1
      exact Nat.le_of_lt ((List.pairwise_cons.mp tail).1 other after)

theorem none_fits_of_find? {memory : Memory} {visited : List Nat}
    {request : Request}
    (found : (visited.find? fun candidate =>
      FitsAt memory request candidate) = none) :
    ∀ block ∈ visited, ¬FitsAt memory request block := by
  simpa using found

/-- What the best-fit loop returns: the best block so far when no fitting block
of the walk comes as close, else a smallest one of them. -/
def ClosestFrom (memory : Memory) (visited : List Nat) (request : Request)
    (smallest : Int) (best found : Option Nat) : Prop :=
  (found = best ∧ ∀ block ∈ visited, FitsAt memory request block →
    smallest < (getBlockSize memory block : Int) - request.needed) ∨
  ∃ block, found = some block ∧ SmallestFit memory visited request block ∧
    (getBlockSize memory block : Int) - request.needed ≤ smallest

namespace ClosestFrom

variable {memory : Memory} {request : Request} {address : Nat}
  {rest : List Nat} {smallest : Int} {best found : Option Nat}

theorem skip (closest : ClosestFrom memory rest request smallest best found)
    (farther : FitsAt memory request address →
      smallest < (getBlockSize memory address : Int) - request.needed) :
    ClosestFrom memory (address :: rest) request smallest best found := by
  rcases closest with ⟨kept, others⟩ | ⟨block, here, ⟨met, fits, least⟩, close⟩
  · refine .inl ⟨kept, ?_⟩
    intro block met
    rcases List.mem_cons.mp met with rfl | later
    · exact farther
    · exact others block later
  · refine .inr ⟨block, here, ⟨List.mem_cons_of_mem _ met, fits, ?_⟩, close⟩
    intro other otherMet otherFits
    rcases List.mem_cons.mp otherMet with rfl | later
    · have far := farther otherFits
      omega
    · exact least other later otherFits

theorem take
    (closest : ClosestFrom memory rest request
      ((getBlockSize memory address : Int) - request.needed) (some address)
      found)
    (fits : FitsAt memory request address)
    (close : (getBlockSize memory address : Int) - request.needed ≤
      smallest) :
    ClosestFrom memory (address :: rest) request smallest best found := by
  rcases closest with ⟨rfl, others⟩ |
    ⟨block, here, ⟨met, blockFits, least⟩, closer⟩
  · refine .inr ⟨address, rfl, ⟨List.mem_cons_self, fits, ?_⟩, close⟩
    intro other otherMet otherFits
    rcases List.mem_cons.mp otherMet with rfl | later
    · exact Nat.le_refl _
    · have far := others other later otherFits
      omega
  · refine .inr ⟨block, here, ⟨List.mem_cons_of_mem _ met, blockFits, ?_⟩,
      by omega⟩
    intro other otherMet otherFits
    rcases List.mem_cons.mp otherMet with rfl | later
    · omega
    · exact least other later otherFits

end ClosestFrom

/-- The difference that the best-fit loop computes in `int` is exact for sizes
below 2 GiB. -/
theorem difference_exact {memory : Memory} {request : Request} {block : Nat}
    (small : getBlockSize memory block < 2 ^ 31)
    (fits : FitsAt memory request block) :
    toInt (toBlockSize (getBlockSize memory block + 2 ^ 32 -
      request.needed)) =
        (getBlockSize memory block : Int) - request.needed := by
  have enough := fits.2
  have cut : toBlockSize (getBlockSize memory block + 2 ^ 32 -
      request.needed) = getBlockSize memory block - request.needed := by
    unfold toBlockSize
    omega
  rw [cut, toInt_of_bounds (by omega) (by omega)]
  omega

theorem bestFitLoop_closest {heap : Heap} {memory : Memory}
    (request : Request) {current stop : Nat} {visited : List Nat}
    (walk : Walk memory current visited stop)
    (within : ∀ block ∈ visited, isWithinHeapRange heap block = true)
    (outside : isWithinHeapRange heap stop = false)
    (small : ∀ block ∈ visited, getBlockSize memory block < 2 ^ 31)
    {fuel : Nat} (enough : visited.length < fuel) (smallest : Int)
    (best : Option Nat) :
    ∃ found,
      bestFitLoop heap memory request.bytes fuel current smallest best =
        some found ∧
      ClosestFrom memory visited request smallest best found := by
  induction walk generalizing fuel smallest best with
  | done address =>
      obtain ⟨rounds, rfl⟩ := Nat.exists_eq_add_of_lt enough
      exact ⟨best, by simp [bestFitLoop, outside], .inl ⟨rfl, by simp⟩⟩
  | @block address stop rest onward ih =>
      obtain ⟨rounds, rfl⟩ := Nat.exists_eq_add_of_lt enough
      have here := within address List.mem_cons_self
      have onwards := ih
        (fun block met => within block (List.mem_cons_of_mem _ met)) outside
        (fun block met => small block (List.mem_cons_of_mem _ met))
        (show rest.length < rest.length + 1 + rounds by omega)
      rw [List.length_cons, bestFitLoop, if_pos here, blockFits_fitsAt request,
        getSizeToAllocate_request]
      simp only [Option.bind_eq_bind, Option.bind_some]
      by_cases fits : FitsAt memory request address
      · rw [if_pos (decide_eq_true fits),
          difference_exact (small address List.mem_cons_self) fits]
        by_cases close : (getBlockSize memory address : Int) -
            request.needed ≤ smallest
        · obtain ⟨found, returned, closest⟩ := onwards _ (some address)
          rw [if_pos close]
          exact ⟨found, returned, closest.take fits close⟩
        · obtain ⟨found, returned, closest⟩ := onwards smallest best
          rw [if_neg close]
          exact ⟨found, returned,
            closest.skip fun _ => Int.not_le.mp close⟩
      · obtain ⟨found, returned, closest⟩ := onwards smallest best
        rw [if_neg (by simpa using fits)]
        exact ⟨found, returned, closest.skip fun good => (fits good).elim⟩

namespace Tiled

variable {heap : Heap} {memory : Memory} {visited : List Nat}

theorem mallocFirstFit_places (tiled : Tiled heap memory visited)
    (request : Request) {fuel : Nat} (enough : visited.length < fuel) :
    ∃ outcome, mallocFirstFit fuel heap memory request.bytes = some outcome ∧
      Places heap memory visited request
        (LowestFit memory visited request) (fun _ => heap) outcome := by
  have search := searchLoop_walk request tiled.walk tiled.within
    Covered.not_within_stop enough
  rw [mallocFirstFit, search]
  cases found : visited.find? fun block => FitsAt memory request block with
  | none => exact ⟨_, rfl, places_refused (none_fits_of_find? found)⟩
  | some block =>
      obtain ⟨met, fits⟩ := mem_of_find? found
      have lowest := lowestFit_of_find? tiled.ascending found
      obtain ⟨newMemory, prepared, served⟩ :=
        tiled.serves request met fits tiled.cursor
      simp only [Option.bind_eq_bind, Option.bind_some, prepared]
      exact ⟨_, rfl, places_served met fits lowest served⟩

theorem mallocBestFit_places (tiled : Tiled heap memory visited)
    (request : Request) {fuel : Nat} (enough : visited.length < fuel) :
    ∃ outcome, mallocBestFit fuel heap memory request.bytes = some outcome ∧
      Places heap memory visited request
        (SmallestFit memory visited request) (fun _ => heap) outcome := by
  have area := tiled.small
  have cursorSize := tiled.block_small heap.next tiled.cursor
  have whole : toInt heap.size = heap.size :=
    toInt_of_bounds (by omega) (by omega)
  have small : ∀ block ∈ visited, getBlockSize memory block < 2 ^ 31 := by
    intro block met
    have bounded := tiled.block_small block met
    omega
  obtain ⟨found, returned, closest⟩ := bestFitLoop_closest request tiled.walk
    tiled.within Covered.not_within_stop small enough (toInt heap.size) none
  rw [mallocBestFit, returned]
  rcases closest with ⟨rfl, farther⟩ | ⟨block, rfl, smallest, _⟩
  · refine ⟨_, rfl, places_refused ?_⟩
    intro block met fits
    have far := farther block met fits
    have bounded := tiled.block_small block met
    omega
  · obtain ⟨newMemory, prepared, served⟩ :=
      tiled.serves request smallest.1 smallest.2.1 tiled.cursor
    simp only [Option.bind_eq_bind, Option.bind_some, prepared]
    exact ⟨_, rfl, places_served smallest.1 smallest.2.1 smallest served⟩

theorem mallocNextFit_places (tiled : Tiled heap memory visited)
    (request : Request) {fuel : Nat} (enough : visited.length < fuel) :
    ∃ outcome, mallocNextFit fuel heap memory request.bytes = some outcome ∧
      Places heap memory visited request
        (CyclicFit heap memory visited request)
        (fun block => { heap with next := block }) outcome := by
  obtain ⟨front, back, split, entered, behind, shorter⟩ :=
    tiled.walk.enter tiled.cursor
  have fromCursor := searchLoop_walk request entered
    (fun block met => tiled.within block (behind block met))
    Covered.not_within_stop (Nat.lt_of_le_of_lt shorter enough)
  have fromStart := searchLoop_walk request tiled.walk tiled.within
    Covered.not_within_stop enough
  rw [mallocNextFit, fromCursor]
  cases found : (heap.next :: back).find? fun block =>
      FitsAt memory request block with
  | some block =>
      obtain ⟨met, fits⟩ := mem_of_find? found
      have first : CyclicFit heap memory visited request block :=
        ⟨front, back, split, by rw [List.find?_append, found]; rfl⟩
      obtain ⟨newMemory, prepared, served⟩ :=
        tiled.serves request (behind block met) fits (behind block met)
      simp only [Option.bind_eq_bind, Option.bind_some, prepared,
        tiled.getBlockStart_block (behind block met)]
      exact ⟨_, rfl, places_served (behind block met) fits first served⟩
  | none =>
      -- the second pass meets the blocks behind the cursor again
      have wrapped : (visited.find? fun block =>
          FitsAt memory request block) =
            front.find? fun block => FitsAt memory request block := by
        rw [split, List.find?_append, found, Option.or_none]
      simp only [Option.bind_eq_bind, Option.bind_some, fromStart]
      cases again : visited.find? fun block => FitsAt memory request block with
      | none => exact ⟨_, rfl, places_refused (none_fits_of_find? again)⟩
      | some block =>
          obtain ⟨met, fits⟩ := mem_of_find? again
          have first : CyclicFit heap memory visited request block := by
            refine ⟨front, back, split, ?_⟩
            rw [List.find?_append, found, ← wrapped, again]
            rfl
          obtain ⟨newMemory, prepared, served⟩ :=
            tiled.serves request met fits met
          simp only [Option.bind_some, prepared,
            tiled.getBlockStart_block met]
          exact ⟨_, rfl, places_served met fits first served⟩

end Tiled

/-- The three placement policies on every heap whose blocks tile its area. -/
theorem malloc_placement {heap : Heap} {memory : Memory} {visited : List Nat}
    (tiled : Tiled heap memory visited) (request : Request) :
    ∃ enough, ∀ fuel, enough ≤ fuel →
      ∃ first next best,
        mallocFirstFit fuel heap memory request.bytes = some first ∧
        mallocNextFit fuel heap memory request.bytes = some next ∧
        mallocBestFit fuel heap memory request.bytes = some best ∧
        Places heap memory visited request
          (LowestFit memory visited request) (fun _ => heap) first ∧
        Places heap memory visited request
          (CyclicFit heap memory visited request)
          (fun block => { heap with next := block }) next ∧
        Places heap memory visited request
          (SmallestFit memory visited request) (fun _ => heap) best := by
  refine ⟨visited.length + 1, ?_⟩
  intro fuel enough
  obtain ⟨first, firstReturned, firstPlaces⟩ :=
    tiled.mallocFirstFit_places request enough
  obtain ⟨next, nextReturned, nextPlaces⟩ :=
    tiled.mallocNextFit_places request enough
  obtain ⟨best, bestReturned, bestPlaces⟩ :=
    tiled.mallocBestFit_places request enough
  exact ⟨first, next, best, firstReturned, nextReturned, bestReturned,
    firstPlaces, nextPlaces, bestPlaces⟩

/-- Free blocks of 64, 48 and 32 bytes between used ones; the cursor is behind
the first of them. -/
def fragmentedHeap : Heap :=
  { searchAlg := .nextFit, size := 192, next := 4164, start := 4100 }

def fragmentedBlocks : List Nat := [4100, 4164, 4188, 4236, 4260]

def fragmentedMemory : Memory :=
  [(4100, 64, 0), (4164, 24, 1), (4188, 48, 0), (4236, 24, 1),
    (4260, 32, 0)].foldl
      (fun memory (block, size, inUse) =>
        setBlockHeader memory block size inUse)
      fun _ => 0

theorem fragmentedHeap_tiled :
    Tiled fragmentedHeap fragmentedMemory fragmentedBlocks := by
  have sizes : fragmentedBlocks.map (getBlockSize fragmentedMemory) =
      [64, 24, 48, 24, 32] := by decide +kernel
  have nexts : fragmentedBlocks.map (getNextBlock fragmentedMemory) =
      [4164, 4188, 4236, 4260, 4292] := by decide +kernel
  simp only [fragmentedBlocks, List.map_cons, List.map_nil, List.cons.injEq,
    and_true] at sizes nexts
  obtain ⟨firstNext, secondNext, thirdNext, fourthNext, lastNext⟩ := nexts
  have walk : Walk fragmentedMemory 4100 fragmentedBlocks 4292 := by
    apply Walk.block
    rw [firstNext]
    apply Walk.block
    rw [secondNext]
    apply Walk.block
    rw [thirdNext]
    apply Walk.block
    rw [fourthNext]
    apply Walk.block
    rw [lastNext]
    exact .done _
  constructor
  · decide
  · decide
  · exact walk
  · simp [fragmentedBlocks, fragmentedHeap, sizes]
  · simp [fragmentedBlocks, sizes]
  · decide

/-- A request for 16 bytes: first fit splits the block of 64 bytes, next fit
takes the one of 48, which is the first one behind the cursor, and best fit the
one of 32. -/
theorem fragmentedHeap_placement :
    (∃ enough, ∀ fuel, enough ≤ fuel →
      ∃ first next best,
        mallocFirstFit fuel fragmentedHeap fragmentedMemory 16 =
          some first ∧
        mallocNextFit fuel fragmentedHeap fragmentedMemory 16 = some next ∧
        mallocBestFit fuel fragmentedHeap fragmentedMemory 16 = some best ∧
        Places fragmentedHeap fragmentedMemory fragmentedBlocks
          ⟨16, by decide, by decide⟩
          (LowestFit fragmentedMemory fragmentedBlocks
            ⟨16, by decide, by decide⟩)
          (fun _ => fragmentedHeap) first ∧
        Places fragmentedHeap fragmentedMemory fragmentedBlocks
          ⟨16, by decide, by decide⟩
          (CyclicFit fragmentedHeap fragmentedMemory fragmentedBlocks
            ⟨16, by decide, by decide⟩)
          (fun block => { fragmentedHeap with next := block }) next ∧
        Places fragmentedHeap fragmentedMemory fragmentedBlocks
          ⟨16, by decide, by decide⟩
          (SmallestFit fragmentedMemory fragmentedBlocks
            ⟨16, by decide, by decide⟩)
          (fun _ => fragmentedHeap) best) ∧
      (mallocFirstFit 6 fragmentedHeap fragmentedMemory 16).map Prod.fst =
        some (some 4104) ∧
      (mallocNextFit 6 fragmentedHeap fragmentedMemory 16).map Prod.fst =
        some (some 4192) ∧
      (mallocBestFit 6 fragmentedHeap fragmentedMemory 16).map Prod.fst =
        some (some 4264) := by
  refine ⟨?_, by decide +kernel, by decide +kernel, by decide +kernel⟩
  exact malloc_placement fragmentedHeap_tiled ⟨16, by decide, by decide⟩

end SystemsLabs.ImplicitHeap
