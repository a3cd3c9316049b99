import SystemsLabs.BlockCache.Code

/-!
# The geometry of a new cache

The shifts and masks that `cacheNew` computes, and the parts of an address that
`cacheRead` takes with them.
-/

namespace SystemsLabs.BlockCache

/-- A mask of the given number of low bits. -/
def ones (count : Nat) : BitVec 64 := BitVec.ofNat 64 (2 ^ count - 1)

theorem getLsbD_ones (count index : Nat) :
    (ones count).getLsbD index =
      (decide (index < 64) && decide (index < count)) := by
  rw [ones, BitVec.getLsbD_ofNat, Nat.testBit_two_pow_sub_one]

theorem ones_succ (count : Nat) :
    (ones count <<< 1) ||| 1 = ones (count + 1) := by
  apply BitVec.eq_of_getLsbD_eq
  intro index small
  rw [BitVec.getLsbD_or, BitVec.getLsbD_shiftLeft, getLsbD_ones, getLsbD_ones]
  cases index with
  | zero => simp
  | succ index =>
      have inside : index < 64 := Nat.lt_of_succ_lt small
      simp [small, inside]

theorem shiftAndMaskLoop_spec (fuel : Nat) :
    ∀ (value : Int) (shift width : Nat), value < 2 ^ fuel →
      ∃ count, shiftAndMaskLoop (fuel + 1) value shift (ones width) =
          some (shift + count, ones (width + count)) ∧
        count ≤ fuel ∧ (count = 0 ∨ 2 ^ count ≤ value) ∧
        value < 2 ^ (count + 1) := by
  induction fuel with
  | zero =>
      intro value shift width small
      have done : ¬1 < value := by omega
      refine ⟨0, ?_, Nat.le_refl 0, .inl rfl, by omega⟩
      rw [shiftAndMaskLoop, if_neg done]
      rfl
  | succ fuel ih =>
      intro value shift width small
      rw [shiftAndMaskLoop]
      by_cases more : 1 < value
      · have half : value / 2 < 2 ^ fuel := by omega
        obtain ⟨count, result, bound, low, high⟩ :=
          ih (value / 2) (shift + 1) (width + 1) half
        rw [if_pos more, ones_succ, result]
        refine ⟨count + 1, ?_, Nat.succ_le_succ bound, .inr ?_, ?_⟩
        · rw [Nat.add_assoc, Nat.add_assoc, Nat.add_comm 1 count]
        · rcases low with rfl | low
          · omega
          · rw [Int.pow_succ]
            omega
        · rw [Int.pow_succ]
          omega
      · rw [if_neg more]
        refine ⟨0, rfl, Nat.zero_le _, .inl rfl, by omega⟩

/-- The value is cut to its leading binary digit. -/
theorem getShiftAndMask_spec (value : Nat) (initShift : Nat) :
    ∃ count, getShiftAndMask (toInt value) initShift =
        some (initShift + count, ones count) ∧
      count < 31 ∧ (count = 0 ∨ 2 ^ count ≤ toInt value) ∧
      toInt value < 2 ^ (count + 1) := by
  have bound := toInt_lt value
  obtain ⟨count, result, _, low, high⟩ :=
    shiftAndMaskLoop_spec 31 (toInt value) initShift 0 bound
  rw [Nat.zero_add] at result
  refine ⟨count, result, ?_, low, high⟩
  rcases low with zero | low
  · omega
  · have power : (2 : Int) ^ count < 2 ^ 31 := lt_of_le_of_lt low bound
    by_contra large
    have huge := Nat.pow_le_pow_right Nat.zero_lt_two (Nat.le_of_not_lt large)
    have cast : (2 : Int) ^ 31 ≤ 2 ^ count := by exact_mod_cast huge
    omega

/-- The shifts and masks of a cache, given by the numbers of address bits that
select a byte of a block and a set. -/
structure Geometry (cache : Cache) (blockBits indexBits : Nat) : Prop where
  blockOffsetMask : cache.blockOffsetMask = ones blockBits
  cacheIndexMask : cache.cacheIndexMask = ones indexBits
  cacheIndexShift : cache.cacheIndexShift = blockBits
  tagShift : cache.tagShift = blockBits + indexBits
  blockBits_lt : blockBits < 31
  indexBits_lt : indexBits < 31
  block_room : blockBits = 0 ∨ 2 ^ blockBits ≤ toInt cache.blockSize
  block_digits : toInt cache.blockSize < 2 ^ (blockBits + 1)
  index_room : indexBits = 0 ∨ 2 ^ indexBits ≤ cache.numSets
  index_digits : cache.numSets < 2 ^ (indexBits + 1)

theorem cacheNew_spec {areas : Nat → Nat → CacheLine}
    {numBlocks blockSize associativity : Nat} {policies : BitVec 32}
    {cache : Cache}
    (returned :
      cacheNew areas numBlocks blockSize associativity policies = some cache) :
    0 < associativity ∧ cache.associativity = associativity ∧
      cache.numSets = numBlocks / associativity % 2 ^ 32 ∧
      cache.blockSize = blockSize ∧
      cache.sets = (List.range cache.numSets).map
        (fun set => cacheSetInit associativity (areas set)) ∧
      ∃ blockBits indexBits, Geometry cache blockBits indexBits := by
  obtain ⟨blockBits, blockResult, blockSmall, blockRoom, blockDigits⟩ :=
    getShiftAndMask_spec blockSize 0
  obtain ⟨indexBits, indexResult, indexSmall, indexRoom, indexDigits⟩ :=
    getShiftAndMask_spec (numBlocks / associativity % 2 ^ 32) blockBits
  rw [Nat.zero_add] at blockResult
  simp only [cacheNew] at returned
  split at returned
  · cases returned
  · rename_i allowed
    obtain ⟨positive, _, small⟩ := not_or.mp allowed |>.imp id not_or.mp
    obtain ⟨⟨_, _⟩, first, onward⟩ := Option.bind_eq_some_iff.mp returned
    rw [blockResult] at first
    cases first
    obtain ⟨⟨_, _⟩, second, last⟩ := Option.bind_eq_some_iff.mp onward
    rw [indexResult] at second
    cases second
    cases last
    rw [toInt_of_nat _ rfl (Nat.lt_of_not_le small)] at indexRoom indexDigits
    refine ⟨Nat.pos_of_ne_zero positive, rfl, rfl, rfl, rfl, blockBits,
      indexBits, ?_⟩
    exact ⟨rfl, rfl, rfl, rfl, blockSmall, indexSmall, blockRoom,
      blockDigits, by exact_mod_cast indexRoom,
      by exact_mod_cast indexDigits⟩

theorem cacheNew_set {areas : Nat → Nat → CacheLine}
    {numBlocks blockSize associativity : Nat} {policies : BitVec 32}
    {cache : Cache}
    (returned :
      cacheNew areas numBlocks blockSize associativity policies = some cache)
    {index : Nat} {set : CacheSet} (place : cache.sets[index]? = some set) :
    set = cacheSetInit associativity (areas index) := by
  obtain ⟨_, _, _, _, sets, _⟩ := cacheNew_spec returned
  rw [sets, List.getElem?_map] at place
  obtain ⟨position, inside, rfl⟩ := Option.map_eq_some_iff.mp place
  obtain ⟨_, same⟩ := List.getElem?_eq_some_iff.mp inside
  rw [List.getElem_range] at same
  rw [same]

theorem toNat_ones (count : Nat) (small : count ≤ 64) :
    (ones count).toNat = 2 ^ count - 1 := by
  have bound := Nat.pow_le_pow_right Nat.zero_lt_two small
  have positive := Nat.two_pow_pos count
  rw [ones, BitVec.toNat_ofNat, Nat.mod_eq_of_lt (by omega)]

theorem and_not_ones (address : Address) (count : Nat) :
    (address &&& ~~~ones count).toNat =
      2 ^ count * (address.toNat / 2 ^ count) := by
  have bits : address &&& ~~~ones count =
      BitVec.ofNat 64 (2 ^ count * (address.toNat / 2 ^ count)) := by
    apply BitVec.eq_of_getLsbD_eq
    intro index small
    rw [BitVec.getLsbD_and, BitVec.getLsbD_not, getLsbD_ones,
      BitVec.getLsbD_ofNat, Nat.testBit_two_pow_mul]
    by_cases below : index < count
    · simp [small, below]
    · simp [small, Nat.testBit_div_two_pow, below, BitVec.getLsbD,
        Nat.le_of_not_lt below]
  have bound := Nat.mul_div_le address.toNat (2 ^ count)
  rw [bits, BitVec.toNat_ofNat, Nat.mod_eq_of_lt]
  exact lt_of_le_of_lt bound address.isLt

namespace Geometry

variable {cache : Cache} {blockBits indexBits : Nat}

theorem readOffset_eq (geometry : Geometry cache blockBits indexBits)
    (address : Address) :
    readOffset cache address = address.toNat % 2 ^ blockBits := by
  have small := geometry.blockBits_lt
  have bits : ((((address.setWidth 32).signExtend 64 &&&
      ones blockBits).setWidth 32).signExtend 64) =
        address &&& ones blockBits := by
    apply BitVec.eq_of_getLsbD_eq
    intro index inside
    simp only [BitVec.getLsbD_signExtend, BitVec.getLsbD_setWidth,
      BitVec.getLsbD_and, getLsbD_ones, BitVec.msb_eq_getLsbD_last]
    by_cases low : index < blockBits
    · have half : index < 32 := by omega
      simp [low, half, inside]
    · have top : ¬31 < blockBits := by omega
      simp [low, top]
  rw [readOffset, geometry.blockOffsetMask, bits, BitVec.toNat_and,
    toNat_ones _ (by omega), Nat.and_two_pow_sub_one_eq_mod]

theorem blockStart_add (geometry : Geometry cache blockBits indexBits)
    (address : Address) :
    (address &&& ~~~cache.blockOffsetMask).toNat + readOffset cache address =
      address.toNat := by
  rw [geometry.readOffset_eq, geometry.blockOffsetMask, and_not_ones,
    Nat.div_add_mod]

theorem readIndex_lt (geometry : Geometry cache blockBits indexBits)
    (address : Address) (positive : 0 < cache.numSets) :
    readIndex cache address < cache.numSets := by
  have small := geometry.indexBits_lt
  have width : 0 < 2 ^ indexBits := Nat.two_pow_pos indexBits
  have room : 2 ^ indexBits ≤ cache.numSets := by
    rcases geometry.index_room with zero | room
    · rw [zero]
      exact positive
    · exact room
  rw [readIndex, geometry.cacheIndexMask, BitVec.toNat_setWidth,
    BitVec.toNat_and, toNat_ones _ (by omega), Nat.and_two_pow_sub_one_eq_mod]
  calc
    _ ≤ _ % 2 ^ indexBits := Nat.mod_le _ _
    _ < 2 ^ indexBits := Nat.mod_lt _ width
    _ ≤ cache.numSets := room

/-- For blocks of `2 ^ power` bytes the offset takes `power` bits of an
address; it takes none when the size does not fit into an `int`. -/
theorem blockBits_eq (geometry : Geometry cache blockBits indexBits)
    {power : Nat} (size : cache.blockSize = 2 ^ power) :
    blockBits = 0 ∨ blockBits = power := by
  have digits := geometry.block_digits
  rcases geometry.block_room with zero | room
  · exact .inl zero
  · rw [size] at room digits
    have positive : (0 : Int) < 2 ^ blockBits := by
      exact_mod_cast Nat.two_pow_pos blockBits
    by_cases small : power < 31
    · have bound : 2 ^ power < 2 ^ 31 :=
        Nat.pow_lt_pow_right (by decide) small
      rw [toInt_of_nat _ rfl bound] at room digits
      have low : 2 ^ blockBits ≤ 2 ^ power := by exact_mod_cast room
      have high : 2 ^ power < 2 ^ (blockBits + 1) := by exact_mod_cast digits
      have atMost := (Nat.pow_le_pow_iff_right (by decide)).mp low
      have below := (Nat.pow_lt_pow_iff_right (by decide)).mp high
      exact .inr (by omega)
    · obtain ⟨rest, rfl⟩ := Nat.exists_eq_add_of_le (Nat.le_of_not_lt small)
      rw [Nat.pow_add] at room
      have multiple : toInt (2 ^ 31 * 2 ^ rest : Nat) ≤ 0 := by
        unfold toInt Int.bmod
        cases rest with
        | zero => decide
        | succ rest =>
            rw [Nat.pow_succ]
            push_cast
            omega
      omega

theorem offset_room (geometry : Geometry cache blockBits indexBits)
    (large : 3 ≤ blockBits) (room : 2 ^ blockBits ≤ cache.blockSize)
    {address : Address} (aligned : address.toNat % 8 = 0) :
    readOffset cache address + 8 ≤ cache.blockSize := by
  obtain ⟨rest, rfl⟩ := Nat.exists_eq_add_of_le large
  rw [geometry.readOffset_eq]
  have width := Nat.mod_lt address.toNat (Nat.two_pow_pos (3 + rest))
  rw [Nat.pow_add] at width room ⊢
  have multiple : address.toNat % (2 ^ 3 * 2 ^ rest) % 2 ^ 3 = 0 := by
    rw [Nat.mod_mul_right_mod]
    exact aligned
  omega

theorem offset_fits (geometry : Geometry cache blockBits indexBits)
    {power : Nat} (large : 3 ≤ power) (size : cache.blockSize = 2 ^ power)
    {address : Address} (aligned : address.toNat % 8 = 0) :
    readOffset cache address + 8 ≤ cache.blockSize := by
  rcases geometry.blockBits_eq size with zero | same
  · have eight : 2 ^ 3 ≤ 2 ^ power := Nat.pow_le_pow_right (by decide) large
    rw [geometry.readOffset_eq, size, zero, Nat.pow_zero, Nat.mod_one]
    omega
  · exact geometry.offset_room (same ▸ large) (by rw [same, size]) aligned

end Geometry

/-- The first address of a block. -/
def blockStart (cache : Cache) (address : Address) : Nat :=
  (address &&& ~~~cache.blockOffsetMask).toNat

/-- Bit `place` of an address above the offset decides between two sets. -/
theorem Geometry.getLsbD_readIndex {cache : Cache} {blockBits indexBits : Nat}
    (geometry : Geometry cache blockBits indexBits) (address : Address)
    {place : Nat} (inside : place < indexBits)
    (low : blockBits + place < 32) :
    (readIndex cache address).testBit place =
      address.getLsbD (blockBits + place) := by
  have small := geometry.blockBits_lt
  have narrow := geometry.indexBits_lt
  have shift : blockBits % 32 = blockBits := Nat.mod_eq_of_lt (by omega)
  have left : place < 32 := by omega
  have wide : place < 64 := by omega
  have bits : (readIndex cache address).testBit place =
      ((((address.setWidth 32).sshiftRight blockBits).signExtend 64 &&&
        ones indexBits).setWidth 32).getLsbD place := by
    rw [readIndex, geometry.cacheIndexShift, shift, geometry.cacheIndexMask]
    rfl
  rw [bits]
  simp only [BitVec.getLsbD_setWidth, BitVec.getLsbD_and, getLsbD_ones,
    BitVec.getLsbD_signExtend, BitVec.getLsbD_sshiftRight]
  simp [inside, low, left, wide]

theorem getLsbD_readTag {cache : Cache} (address : Address) {place : Nat}
    (low : cache.tagShift + place < 32) :
    (readTag cache address).getLsbD place =
      address.getLsbD (cache.tagShift + place) := by
  have shift : cache.tagShift % 32 = cache.tagShift :=
    Nat.mod_eq_of_lt (by omega)
  have left : place < 32 := by omega
  have wide : place < 64 := by omega
  rw [readTag, shift]
  simp only [BitVec.getLsbD_setWidth, BitVec.getLsbD_signExtend,
    BitVec.getLsbD_sshiftRight]
  simp [low, left, wide]

/-- Two addresses with one index and tag are in the same block if and only if
they agree above their low 32 bits. -/
theorem blockStart_eq_iff {cache : Cache} {blockBits indexBits : Nat}
    (geometry : Geometry cache blockBits indexBits)
    (narrow : cache.tagShift < 32) {left right : Address}
    (sameIndex : readIndex cache left = readIndex cache right)
    (sameTag : readTag cache left = readTag cache right) :
    blockStart cache left = blockStart cache right ↔
      left >>> 32 = right >>> 32 := by
  have small := geometry.blockBits_lt
  have shift := geometry.tagShift
  constructor
  · intro same
    have masked := BitVec.eq_of_toNat_eq same
    apply BitVec.eq_of_getLsbD_eq
    intro place inside
    have bit := congrArg (fun bits => bits.getLsbD (32 + place)) masked
    have above : ¬32 + place < blockBits := by omega
    simp only [geometry.blockOffsetMask, BitVec.getLsbD_and,
      BitVec.getLsbD_not, getLsbD_ones, above] at bit
    rw [BitVec.getLsbD_ushiftRight, BitVec.getLsbD_ushiftRight]
    by_cases wide : 32 + place < 64
    · simpa [wide] using bit
    · rw [BitVec.getLsbD_of_ge _ _ (Nat.le_of_not_lt wide),
        BitVec.getLsbD_of_ge _ _ (Nat.le_of_not_lt wide)]
  · intro upper
    have equal : ∀ place, blockBits ≤ place → place < 64 →
        left.getLsbD place = right.getLsbD place := by
      intro place above inside
      by_cases inIndex : place < cache.tagShift
      · have index := congrArg (fun value => value.testBit (place - blockBits))
          sameIndex
        have sum : blockBits + (place - blockBits) = place := by omega
        simpa only [geometry.getLsbD_readIndex _
          (show place - blockBits < indexBits by omega)
          (show blockBits + (place - blockBits) < 32 by omega), sum]
          using index
      · by_cases inTag : place < 32
        · have tag := congrArg
            (fun bits => bits.getLsbD (place - cache.tagShift)) sameTag
          have sum : cache.tagShift + (place - cache.tagShift) = place := by
            omega
          simpa only [getLsbD_readTag _
            (show cache.tagShift + (place - cache.tagShift) < 32 by omega),
            sum] using tag
        · have bit := congrArg (fun bits => bits.getLsbD (place - 32)) upper
          have sum : 32 + (place - 32) = place := by omega
          simpa only [BitVec.getLsbD_ushiftRight, sum] using bit
    have masked : left &&& ~~~cache.blockOffsetMask =
        right &&& ~~~cache.blockOffsetMask := by
      apply BitVec.eq_of_getLsbD_eq
      intro place inside
      rw [geometry.blockOffsetMask]
      simp only [BitVec.getLsbD_and, BitVec.getLsbD_not, getLsbD_ones]
      by_cases above : blockBits ≤ place
      · rw [equal place above inside]
      · simp [inside, Nat.lt_of_not_le above]
    rw [blockStart, blockStart, masked]

end SystemsLabs.BlockCache
