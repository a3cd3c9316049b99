import SystemsLabs.BlockCache.Transparent

/-!
# Accesses in bounds

Neither the size of a block nor the number of sets has to be a power of two:
the masks cover the largest power below each, so that the sets and bytes above
it are never selected.  Reading does not change the masks, so every read of a
session finds its set, and what a miss copies has the long where it is read.
-/

namespace SystemsLabs.BlockCache

open Transition

/-- What `cacheSetAdd` puts into the line that it returns: the block from its
first address on, with the long of the address at the offset that is read. -/
def FillsBlock (cache : Cache) (address : Address) : Prop :=
  ∀ (memory : Memory) (set : CacheSet) (tag : BitVec 64) (line : Nat)
    (newSet : CacheSet),
    cacheSetAdd memory cache set address tag = some (line, newSet) →
      (∀ byte < cache.blockSize, (newSet.line line).data byte =
        memory (blockStart cache address + byte)) ∧
      (newSet.line line).data.load (readOffset cache address) 8 =
        memory.load address.toNat 8

/-- `cacheRead` comes back.  It reads and changes the set at the index, and
returns the long at the offset of the line that is in front then. -/
def SelectsSet (cache : Cache) (address : Address) : Prop :=
  ∀ memory, ∃ set newSet evicted line rest,
    cache.sets[readIndex cache address]? = some set ∧
    cacheRead memory cache address =
      some (cacheLineRetrieveData line (readOffset cache address),
        cache.afterRead address newSet evicted) ∧
    newSet.lines = line :: rest ∧
    ReadsSet memory cache address set newSet evicted

/-- A read of a long stays inside the sets, the line and the block; `index` and
`offset` are variables of type `int`. -/
structure InBounds (cache : Cache) (address : Address) : Prop where
  index_nonneg : 0 ≤ toInt (readIndex cache address)
  index_lt : toInt (readIndex cache address) < cache.numSets
  offset_nonneg : 0 ≤ toInt (readOffset cache address)
  offset_room : toInt (readOffset cache address) + 8 ≤ cache.blockSize
  place : blockStart cache address + toInt (readOffset cache address) =
    address.toNat
  fills : FillsBlock cache address
  selects : SelectsSet cache address

/-- A cache is made unless a loop counter overflows. -/
theorem cacheNew_returns (areas : Nat → Nat → CacheLine)
    {numBlocks associativity : Nat} (blockSize : Nat) (policies : BitVec 32)
    (positive : 0 < associativity) (small : associativity < 2 ^ 31)
    (few : numBlocks / associativity < 2 ^ 31) :
    ∃ cache, cacheNew areas numBlocks blockSize associativity policies =
      some cache := by
  obtain ⟨blockBits, blockResult, _⟩ := getShiftAndMask_spec blockSize 0
  obtain ⟨indexBits, indexResult, _⟩ :=
    getShiftAndMask_spec (numBlocks / associativity % 2 ^ 32) (0 + blockBits)
  have sets := lt_of_le_of_lt (Nat.mod_le _ (2 ^ 32)) few
  have allowed := not_or.mpr ⟨Nat.ne_of_gt positive,
    not_or.mpr ⟨Nat.not_le.mpr small, Nat.not_le.mpr sets⟩⟩
  unfold cacheNew
  rw [if_neg allowed]
  exact ⟨_, Option.bind_eq_some_iff.mpr ⟨_, blockResult,
    Option.bind_eq_some_iff.mpr ⟨_, indexResult, rfl⟩⟩⟩

namespace Geometry

variable {cache : Cache} {blockBits indexBits : Nat}

/-- Blocks of at least eight bytes have at least three bits of offset, and the
offsets stay inside them. -/
theorem block_bounds (geometry : Geometry cache blockBits indexBits)
    (wide : 8 ≤ cache.blockSize) (narrow : cache.blockSize < 2 ^ 31) :
    3 ≤ blockBits ∧ 2 ^ blockBits ≤ cache.blockSize := by
  have room := geometry.block_room
  have digits := geometry.block_digits
  rw [toInt_of_nat _ rfl narrow] at room digits
  have large : 2 ^ 3 < 2 ^ (blockBits + 1) := by
    have cast : cache.blockSize < 2 ^ (blockBits + 1) := by
      exact_mod_cast digits
    omega
  have bits := (Nat.pow_lt_pow_iff_right (by decide)).mp large
  refine ⟨Nat.le_of_lt_succ bits, ?_⟩
  rcases room with zero | room
  · omega
  · exact_mod_cast room

/-- The line that is filled holds the block. -/
theorem fillsBlock (geometry : Geometry cache blockBits indexBits)
    {address : Address}
    (room : readOffset cache address + 8 ≤ cache.blockSize) :
    FillsBlock cache address := by
  intro memory set tag line newSet added
  obtain ⟨⟨found, middle⟩, _, filled⟩ := Option.bind_eq_some_iff.mp added
  obtain ⟨rfl, rfl⟩ := Prod.mk.inj (Option.some.inj filled)
  have bytes : ∀ byte < cache.blockSize,
      copyBlock (middle.line found).data memory (blockStart cache address)
        cache.blockSize byte = memory (blockStart cache address + byte) :=
    fun byte inside => if_pos inside
  dsimp only
  rw [Function.update_self]
  refine ⟨bytes, ?_⟩
  rw [← geometry.blockStart_add address]
  apply Memory.load_copy
  intro byte inside
  have below := Nat.lt_of_lt_of_le (Nat.add_lt_add_left inside _) room
  rw [Nat.add_assoc]
  exact bytes _ below

theorem selectsSet (geometry : Geometry cache blockBits indexBits)
    (intact : Intact cache) (sets : cache.sets.length = cache.numSets)
    (positive : 0 < cache.numSets) (address : Address) :
    SelectsSet cache address := by
  have index := geometry.readIndex_lt address positive
  have here := List.getElem?_eq_getElem (show readIndex cache address <
    cache.sets.length by rw [sets]; exact index)
  intro memory
  obtain ⟨newSet, evicted, line, rest, returned, lines, reads⟩ :=
    cacheRead_spec memory here (intact.installed _ _ here) intact.positive
  exact ⟨_, newSet, evicted, line, rest, here, returned, lines, reads⟩

theorem inBounds (geometry : Geometry cache blockBits indexBits)
    (intact : Intact cache) (sets : cache.sets.length = cache.numSets)
    (positive : 0 < cache.numSets) (few : cache.numSets < 2 ^ 31)
    (wide : 8 ≤ cache.blockSize) (narrow : cache.blockSize < 2 ^ 31)
    {address : Address} (aligned : address.toNat % 8 = 0) :
    InBounds cache address := by
  have index := geometry.readIndex_lt address positive
  obtain ⟨large, room⟩ := geometry.block_bounds wide narrow
  have offset := geometry.offset_room large room aligned
  have start := geometry.blockStart_add address
  have sameIndex := toInt_of_nat _ rfl (Nat.lt_trans index few)
  have small : readOffset cache address < 2 ^ 31 := by omega
  have sameOffset := toInt_of_nat _ rfl small
  refine ⟨?_, ?_, ?_, ?_, ?_, geometry.fillsBlock offset,
    geometry.selectsSet intact sets positive address⟩
  · rw [sameIndex]
    exact Int.natCast_nonneg _
  · rw [sameIndex]
    exact_mod_cast index
  · rw [sameOffset]
    exact Int.natCast_nonneg _
  · rw [sameOffset]
    exact_mod_cast offset
  · rw [sameOffset, blockStart]
    exact_mod_cast start

end Geometry

/-- In every session of a cache with at least one line a set and one set, and
with blocks of at least eight bytes, the next read of an aligned address stays
in bounds. -/
theorem reads_in_bounds (areas : Nat → Nat → CacheLine)
    {numBlocks blockSize associativity : Nat} (policies : BitVec 32)
    (positive : 1 ≤ associativity) (enough : associativity ≤ numBlocks)
    (few : numBlocks / associativity < 2 ^ 31) (wide : 8 ≤ blockSize)
    (narrow : blockSize < 2 ^ 31) :
    (associativity < 2 ^ 31 → ∃ cache,
      cacheNew areas numBlocks blockSize associativity policies =
        some cache) ∧
    ∀ cache, cacheNew areas numBlocks blockSize associativity policies =
        some cache → cache.tagShift < 32 →
      ∀ calls session, Run Step { cache := cache, history := [] } calls
          session →
        ∀ address : Address, address.toNat % 8 = 0 →
          InBounds session.cache address := by
  constructor
  · intro small
    exact cacheNew_returns areas blockSize policies positive small few
  · intro cache returned _ calls session run address aligned
    obtain ⟨_, _, numSets, size, sets, blockBits, indexBits, geometry⟩ :=
      cacheNew_spec returned
    have initial := Intact.created returned
    obtain ⟨later, _, _, length, config⟩ := run_config run initial
    have some : 0 < numBlocks / associativity := Nat.div_pos enough positive
    have whole : session.cache.numSets = numBlocks / associativity := by
      rw [config, numSets, Nat.mod_eq_of_lt (by omega)]
    have width : session.cache.blockSize = blockSize := by
      rw [config, size]
    have count : session.cache.sets.length = session.cache.numSets := by
      rw [config, length, sets, List.length_map, List.length_range]
    apply (geometry.run run initial).inBounds (initial.run run) count _ _ _ _
      aligned
    · rw [whole]
      exact some
    · rw [whole]
      exact few
    · rw [width]
      exact wide
    · rw [width]
      exact narrow

/-- Three sets of two blocks of twelve bytes. -/
def unevenCache : Cache :=
  { numSets := 3
    associativity := 2
    blockSize := 12
    blockOffsetMask := 7
    cacheIndexMask := 1
    cacheIndexShift := 3
    tagShift := 4
    policies := 0
    sets := (List.range 3).map fun set => cacheSetInit 2 (smallAreas set)
    accessCount := 0
    missCount := 0 }

theorem unevenCache_new : cacheNew smallAreas 7 12 2 0 = some unevenCache :=
  rfl

/-- An address with bit 31 set, after a read of another one. -/
theorem reads_in_bounds_uneven :
    ∃ session,
      Run Step { cache := unevenCache, history := [] } [readOnes 8] session ∧
        InBounds session.cache 0xFFFFFFF8 := by
  obtain ⟨_, bounds⟩ := reads_in_bounds smallAreas 0
    (show 1 ≤ 2 by decide) (show 2 ≤ 7 by decide) (by decide)
    (show 8 ≤ 12 by decide) (by decide)
  have returned : (replay Session.perform
      { cache := unevenCache, history := [] } [readOnes 8]).isSome := by
    decide +kernel
  obtain ⟨session, replayed⟩ := Option.isSome_iff_exists.mp returned
  have run := Run.of_replay step_of_perform replayed
  exact ⟨session, run,
    bounds unevenCache unevenCache_new (by decide) _ _ run _ (by decide)⟩

end SystemsLabs.BlockCache
