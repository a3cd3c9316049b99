import SystemsLabs.Library.ByteMemory
import SystemsLabs.Library.MachineInt

/-!
# The set-associative cache of `lab6/cache.c`

`cacheNew` and `cacheRead` with everything they call.  The lines of a set are
named by their positions in the area allocated for them, so `cacheLines` is a
list of such positions and `line` is the content of the area, which holds
arbitrary tags and data before the lines are filled.

`none` stands for undefined behaviour: a division by zero, a loop counter of
type `int` that overflows, an array access out of bounds.  The count of a shift
is taken modulo the width of the shifted value.
-/

namespace SystemsLabs.BlockCache

abbrev Address := BitVec 64

structure CacheLine where
  isValid : Bool
  tag : BitVec 64
  data : Memory

structure CacheSet where
  cacheLines : List Nat
  line : Nat → CacheLine

structure Cache where
  numSets : Nat
  associativity : Nat
  blockSize : Nat
  blockOffsetMask : BitVec 64
  cacheIndexMask : BitVec 64
  cacheIndexShift : Nat
  tagShift : Nat
  policies : BitVec 32
  sets : List CacheSet
  accessCount : Nat
  missCount : Nat

/-- The set whose area holds `area` when it is allocated. -/
def cacheSetInit (associativity : Nat) (area : Nat → CacheLine) : CacheSet :=
  { cacheLines := List.range associativity
    line := fun position => { area position with isValid := false } }

/-- The `while` loop of `get_shift_and_mask`, with the number of rounds it may
run. -/
def shiftAndMaskLoop : Nat → Int → Nat → BitVec 64 →
    Option (Nat × BitVec 64)
  | 0, _, _, _ => none
  | fuel + 1, value, shift, mask =>
      if 1 < value then
        shiftAndMaskLoop fuel (value / 2) (shift + 1) ((mask <<< 1) ||| 1)
      else
        some (shift, mask)

/-- An `int` is halved to 1 in fewer than 32 rounds. -/
def getShiftAndMask (value : Int) (initShift : Nat) :
    Option (Nat × BitVec 64) :=
  shiftAndMaskLoop 32 value initShift 0

/-- `areas` is the memory allocated for the lines of every set. -/
def cacheNew (areas : Nat → Nat → CacheLine) (numBlocks blockSize : Nat)
    (associativity : Nat) (policies : BitVec 32) : Option Cache :=
  let numSets : Nat := numBlocks / associativity % 2 ^ 32
  if associativity = 0 ∨ 2 ^ 31 ≤ associativity ∨ 2 ^ 31 ≤ numSets then none
  else do
    let (cacheIndexShift, blockOffsetMask) ←
      getShiftAndMask (toInt blockSize) 0
    let (tagShift, cacheIndexMask) ←
      getShiftAndMask (toInt numSets) cacheIndexShift
    return {
      numSets := numSets
      associativity := associativity
      blockSize := blockSize
      blockOffsetMask := blockOffsetMask
      cacheIndexMask := cacheIndexMask
      cacheIndexShift := cacheIndexShift
      tagShift := tagShift
      policies := policies
      sets := (List.range numSets).map fun set =>
        cacheSetInit associativity (areas set)
      accessCount := 0
      missCount := 0 }

def cacheLineCheckValidityAndTag (line : CacheLine) (tag : BitVec 64) : Bool :=
  if line.tag = tag then line.isValid else false

/-- The eight bytes at an offset, as a `long`. -/
def cacheLineRetrieveData (line : CacheLine) (offset : Nat) : BitVec 64 :=
  BitVec.ofNat 64 (line.data.load offset 8)

/-- The `for` loop of `cache_line_make_mru`: the lines in front of a position
move one place back. -/
def shiftLines (cacheLines : List Nat) : Nat → List Nat
  | 0 => cacheLines
  | place + 1 =>
      shiftLines (cacheLines.set (place + 1) (cacheLines.getD place 0)) place

def cacheLineMakeMru (set : CacheSet) (lineIndex : Nat) :
    Option (Nat × CacheSet) := do
  let line ← set.cacheLines[lineIndex]?
  let shifted := shiftLines set.cacheLines lineIndex
  return (line, { set with cacheLines := shifted.set 0 line })

/-- The result is the line that matches, or `none` for `NULL`. -/
def cacheSetFindMatchingLine (cache : Cache) (set : CacheSet)
    (tag : BitVec 64) : Option (Option Nat × CacheSet) := do
  let matching := (set.cacheLines.take cache.associativity).findIdx?
    fun line => (set.line line).tag = tag
  match matching with
  | some lineIndex =>
      let (line, set) ← cacheLineMakeMru set lineIndex
      return (some line, set)
  | none => return (none, set)

def findAvailableCacheLine (cache : Cache) (set : CacheSet) :
    Option (Nat × CacheSet) :=
  cacheLineMakeMru set (cache.associativity - 1)

/-- `memcpy(destination, source, size)` into the data of a line. -/
def copyBlock (destination : Memory) (memory : Memory) (source size : Nat) :
    Memory :=
  fun position =>
    if position < size then memory (source + position)
    else destination position

def cacheSetAdd (memory : Memory) (cache : Cache) (set : CacheSet)
    (address : Address) (tag : BitVec 64) : Option (Nat × CacheSet) := do
  let (line, set) ← findAvailableCacheLine cache set
  let filled : CacheLine :=
    { isValid := true
      tag := tag
      data := copyBlock (set.line line).data memory
        (address &&& ~~~cache.blockOffsetMask).toNat cache.blockSize }
  return (line, { set with line := Function.update set.line line filled })

/-- `tag` is an `int`; it is converted for every function it is passed to. -/
def readTag (cache : Cache) (address : Address) : BitVec 64 :=
  ((address.setWidth 32).sshiftRight (cache.tagShift % 32)).signExtend 64

def readIndex (cache : Cache) (address : Address) : Nat :=
  ((((address.setWidth 32).sshiftRight
    (cache.cacheIndexShift % 32)).signExtend 64 &&&
      cache.cacheIndexMask).setWidth 32).toNat

def readOffset (cache : Cache) (address : Address) : Nat :=
  ((((address.setWidth 32).signExtend 64 &&&
    cache.blockOffsetMask).setWidth 32).signExtend 64).toNat

def cacheRead (memory : Memory) (cache : Cache) (address : Address) :
    Option (BitVec 64 × Cache) := do
  let tag := readTag cache address
  let index := readIndex cache address
  let offset := readOffset cache address
  let set ← cache.sets[index]?
  let accessCount := (cache.accessCount + 1) % 2 ^ 32
  let (found, set) ← cacheSetFindMatchingLine cache set tag
  match found.filter fun line =>
      cacheLineCheckValidityAndTag (set.line line) tag with
  | some line =>
      return (cacheLineRetrieveData (set.line line) offset,
        { cache with
          sets := cache.sets.set index set
          accessCount := accessCount })
  | none =>
      let (line, set) ← cacheSetAdd memory cache set address tag
      return (cacheLineRetrieveData (set.line line) offset,
        { cache with
          sets := cache.sets.set index set
          accessCount := accessCount
          missCount := (cache.missCount + 1) % 2 ^ 32 })

end SystemsLabs.BlockCache
