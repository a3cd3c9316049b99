import SystemsLabs.Library.ByteMemory
import SystemsLabs.Library.MachineInt

/-!
# The implicit free-list allocator of `lab5/implicit.c`

Every function of the allocator on a byte-addressed memory.  Pointers are
64-bit addresses, `block_size_t` values are naturals below `2 ^ 32`, and
`intptr_t` and `int` values are integers.  `struct heap` is a record; its
image at the base of the area obtained from `sbrk` is written once, by
`heapCreate`, and never read back.

A loop takes the number of rounds it may run and returns `none` when they do
not suffice.  `none` also stands for the value of a function that ends without
a `return` statement (`getSizeToAllocate` on an unaligned request).
-/

namespace SystemsLabs.ImplicitHeap

inductive SearchAlg where
  | firstFit
  | nextFit
  | bestFit
  deriving DecidableEq, Repr

/-- `HEAP_FIRSTFIT`, `HEAP_NEXTFIT`, `HEAP_BESTFIT` in this order. -/
def SearchAlg.code : SearchAlg → Nat
  | .firstFit => 0
  | .nextFit => 1
  | .bestFit => 2

structure Heap where
  searchAlg : SearchAlg
  size : Int
  next : Nat
  start : Nat
  deriving DecidableEq

def headerSize : Nat := 4

def payloadAlign : Nat := 8

def maxUnusedBytes : Nat := 128

def sizeofHeap : Nat := 32

/-- Pointer arithmetic on 64-bit addresses. -/
def offset (pointer : Nat) (distance : Int) : Nat :=
  ((pointer + distance) % 2 ^ 64).toNat

/-- Reduction to `block_size_t`. -/
def toBlockSize (value : Nat) : Nat := value % 2 ^ 32

def blockIsInUse (memory : Memory) (blockStart : Nat) : Nat :=
  1 &&& memory.load blockStart 4

/-- `-HEADER_SIZE` is a `size_t`; the result is cut to `block_size_t`. -/
def getBlockSize (memory : Memory) (blockStart : Nat) : Nat :=
  toBlockSize ((2 ^ 64 - headerSize) &&& memory.load blockStart 4)

def getPayloadSize (memory : Memory) (blockStart : Nat) : Nat :=
  toBlockSize (getBlockSize memory blockStart + 2 ^ 64 - headerSize * 2)

def getBlockStart (payload : Nat) : Nat := offset payload (-headerSize)

def getPayload (blockStart : Nat) : Nat := offset blockStart headerSize

def setBlockHeader (memory : Memory) (blockStart blockSize inUse : Nat) :
    Memory :=
  let headerValue := blockSize ||| inUse
  let memory := memory.store blockStart 4 headerValue
  memory.store
    (offset (getPayload blockStart) (getPayloadSize memory blockStart))
    4 headerValue

def getNextBlock (memory : Memory) (blockStart : Nat) : Nat :=
  offset blockStart (getBlockSize memory blockStart)

def getPreviousBlock (memory : Memory) (blockStart : Nat) : Nat :=
  offset blockStart
    (-(getBlockSize memory (offset blockStart (-headerSize)) : Int))

def isWithinHeapRange (heap : Heap) (address : Nat) : Bool :=
  heap.start ≤ address && address < offset heap.start heap.size

def coalesce (heap : Heap) (memory : Memory) (firstBlockStart : Nat) :
    Heap × Memory :=
  if !isWithinHeapRange heap firstBlockStart ||
      !isWithinHeapRange heap (getNextBlock memory firstBlockStart) then
    (heap, memory)
  else if blockIsInUse memory firstBlockStart ≠ 0 ∨
      blockIsInUse memory (getNextBlock memory firstBlockStart) ≠ 0 then
    (heap, memory)
  else
    let merged := setBlockHeader memory firstBlockStart
      (toBlockSize (getBlockSize memory firstBlockStart +
        getBlockSize memory (getNextBlock memory firstBlockStart))) 0
    -- the comparison reads the header that was just rewritten
    if heap.next = getNextBlock merged firstBlockStart ∧
        heap.searchAlg = .nextFit then
      ({ heap with next := firstBlockStart }, merged)
    else
      (heap, merged)

/-- No `return` statement is reached for a size that is not a multiple of 8. -/
def getSizeToAllocate (userSize : Nat) : Option Nat :=
  if userSize % 8 = 0 then some (toBlockSize (userSize + 2 * headerSize))
  else none

def prepareBlockForUse (memory : Memory) (blockStart realSize : Nat) :
    Option (Nat × Memory) := do
  let needed ← getSizeToAllocate realSize
  if toBlockSize (needed + maxUnusedBytes) < getBlockSize memory blockStart ∨
      toBlockSize (needed * 2) < getBlockSize memory blockStart then
    let memory := setBlockHeader memory (offset blockStart needed)
      (toBlockSize (getBlockSize memory blockStart + 2 ^ 32 - needed)) 0
    let memory := setBlockHeader memory blockStart needed 1
    return (offset blockStart headerSize, memory)
  else
    let memory :=
      setBlockHeader memory blockStart (getBlockSize memory blockStart) 1
    return (offset blockStart headerSize, memory)

/-- The image of `struct heap` in memory: four fields, the first one padded. -/
def storeHeap (memory : Memory) (base : Nat) (heap : Heap) : Memory :=
  let memory := memory.store (base + 8) 8 (heap.size % 2 ^ 64).toNat
  let memory := memory.store (base + 24) 8 heap.start
  let memory := memory.store base 4 heap.searchAlg.code
  memory.store (base + 16) 8 heap.next

/-- The distance to the first address that leaves room for a header in front
of an aligned payload. -/
def alignmentDelta (heapStart : Nat) : Int :=
  let delta := toInt (payloadAlign - headerSize - (heapStart % payloadAlign))
  if delta < 0 then delta + payloadAlign else delta

/-- `heap_start` and `size` after the adjustments of `heap_create`. -/
def trimArea (base : Nat) (size : Int) : Nat × Int :=
  let heapStart := offset base sizeofHeap
  let size := toIntptr (size - sizeofHeap)
  let delta := alignmentDelta heapStart
  let heapStart := if 0 < delta then offset heapStart delta else heapStart
  let size := if 0 < delta then toIntptr (size - delta) else size
  -- the subtraction and the remainder are those of `size_t`
  (heapStart,
    toIntptr (size - ((size - 2 * headerSize) % 2 ^ 64) % payloadAlign))

/-- `sbrk` is the result of the call `sbrk(size)`, `none` for `(void *) -1`. -/
def heapCreate (sbrk : Option Nat) (memory : Memory) (size : Int)
    (searchAlg : SearchAlg) : Option (Heap × Memory) := do
  let base ← sbrk
  let area := trimArea base size
  let heap : Heap :=
    { searchAlg := searchAlg, size := area.2, next := area.1,
      start := area.1 }
  let memory := storeHeap memory base heap
  return (heap, setBlockHeader memory heap.start (area.2 % 2 ^ 32).toNat 0)

/-- The `while` loop of `heap_find_avg_free_block_size`: `size` and
`num_of_block`. -/
def averageLoop (heap : Heap) (memory : Memory) :
    Nat → Nat → Int → Int → Option (Int × Int)
  | 0, _, _, _ => none
  | fuel + 1, current, size, numOfBlock =>
      if isWithinHeapRange heap current then
        if blockIsInUse memory current = 0 then
          averageLoop heap memory fuel (getNextBlock memory current)
            (toInt (size + getBlockSize memory current))
            (toInt (numOfBlock + 1))
        else
          averageLoop heap memory fuel (getNextBlock memory current) size
            numOfBlock
      else
        some (size, numOfBlock)

/-- A call returns, or it traps when it divides by zero. -/
inductive Quotient where
  | traps
  | returns (average : Nat)
  deriving DecidableEq

def heapFindAvgFreeBlockSize (fuel : Nat) (heap : Heap) (memory : Memory) :
    Option Quotient := do
  let (size, numOfBlock) ← averageLoop heap memory fuel heap.start 0 0
  return if numOfBlock = 0 then .traps
    else .returns (toUint32 (size.tdiv numOfBlock))

def heapFree (heap : Heap) (memory : Memory) (payload : Nat) :
    Heap × Memory :=
  let start := getBlockStart payload
  let memory := setBlockHeader memory start (getBlockSize memory start) 0
  let (heap, memory) := coalesce heap memory start
  coalesce heap memory (getPreviousBlock memory start)

/-- The test that the three search loops make on a block. -/
def blockFits (memory : Memory) (userSize current : Nat) : Option Bool := do
  if blockIsInUse memory current = 0 then
    let needed ← getSizeToAllocate userSize
    return needed ≤ getBlockSize memory current
  else
    return false

/-- The `while` loop of `malloc_first_fit` and the two of `malloc_next_fit`:
the first block from `current` on that passes the test. -/
def searchLoop (heap : Heap) (memory : Memory) (userSize : Nat) :
    Nat → Nat → Option (Option Nat)
  | 0, _ => none
  | fuel + 1, current => do
      if isWithinHeapRange heap current then
        if ← blockFits memory userSize current then
          return some current
        else
          searchLoop heap memory userSize fuel (getNextBlock memory current)
      else
        return none

/-- The result of a `malloc` function: the payload or `NULL`, and the state. -/
abbrev MallocResult := Option Nat × Heap × Memory

def mallocFirstFit (fuel : Nat) (heap : Heap) (memory : Memory)
    (userSize : Nat) : Option MallocResult := do
  match ← searchLoop heap memory userSize fuel heap.start with
  | some current =>
      let (result, memory) ← prepareBlockForUse memory current userSize
      return (some result, heap, memory)
  | none => return (none, heap, memory)

/-- The `while` loop of `malloc_best_fit`, with `smallest_difference` and
`best_block` (a local pointer initialised to `NULL`) as accumulators. -/
def bestFitLoop (heap : Heap) (memory : Memory) (userSize : Nat) :
    Nat → Nat → Int → Option Nat → Option (Option Nat)
  | 0, _, _, _ => none
  | fuel + 1, current, smallestDifference, bestBlock => do
      if isWithinHeapRange heap current then
        if ← blockFits memory userSize current then
          let needed ← getSizeToAllocate userSize
          let thisDifference := toInt (toBlockSize
            (getBlockSize memory current + 2 ^ 32 - needed))
          if thisDifference ≤ smallestDifference then
            bestFitLoop heap memory userSize fuel
              (getNextBlock memory current) thisDifference (some current)
          else
            bestFitLoop heap memory userSize fuel
              (getNextBlock memory current) smallestDifference bestBlock
        else
          bestFitLoop heap memory userSize fuel
            (getNextBlock memory current) smallestDifference bestBlock
      else
        return bestBlock

def mallocBestFit (fuel : Nat) (heap : Heap) (memory : Memory)
    (userSize : Nat) : Option MallocResult := do
  match ← bestFitLoop heap memory userSize fuel heap.start
      (toInt heap.size) none with
  | some bestBlock =>
      let (result, memory) ← prepareBlockForUse memory bestBlock userSize
      return (some result, heap, memory)
  | none => return (none, heap, memory)

def mallocNextFit (fuel : Nat) (heap : Heap) (memory : Memory)
    (userSize : Nat) : Option MallocResult := do
  let found ← searchLoop heap memory userSize fuel heap.next
  let found ← match found with
    | some current => some (some current)
    | none => searchLoop heap memory userSize fuel heap.start
  match found with
  | some current =>
      let (result, memory) ← prepareBlockForUse memory current userSize
      return (some result, { heap with next := getBlockStart result }, memory)
  | none => return (none, heap, memory)

def heapMalloc (fuel : Nat) (heap : Heap) (memory : Memory) (size : Nat) :
    Option MallocResult :=
  match heap.searchAlg with
  | .firstFit => mallocFirstFit fuel heap memory size
  | .nextFit => mallocNextFit fuel heap memory size
  | .bestFit => mallocBestFit fuel heap memory size

end SystemsLabs.ImplicitHeap
