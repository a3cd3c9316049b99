import SystemsLabs.ImplicitHeap.Malloc

/-!
# Splitting a block of any 32-bit size

The two comparisons that decide whether a block is split are made on
`block_size_t` values.  Whatever wraps, the used block is large enough and
wastes no more than half of itself or 128 bytes.  A block of 2 GiB or more that
fits exactly is split as well: an empty block is written behind it.
-/

namespace SystemsLabs.ImplicitHeap

/-- A free block in memory, of any size that a header can hold. -/
structure FreeBlock (memory : Memory) (block size : Nat) : Prop where
  free : blockIsInUse memory block = 0
  holds : getBlockSize memory block = size
  aligned : size % 8 = 0
  large : 8 ≤ size
  small : size ≤ 2 ^ 32 - 8
  room : block + size < 2 ^ 64

/-- The used block in front, of size `used`, and what is left of a block of
`size` bytes from which `needed` bytes were requested. -/
structure BoundsWaste (memory : Memory) (block size needed used : Nat) :
    Prop where
  inUse : blockIsInUse memory block = 1
  holds : getBlockSize memory block = used
  enough : needed ≤ used
  inside : used ≤ size
  twice : used ≤ 2 * needed
  unused : used ≤ needed + 128
  rest : used = size ∨
    8 ≤ size - used ∧
    blockIsInUse memory (block + used) = 0 ∧
    getBlockSize memory (block + used) = size - used ∧
    memory.load (block + size - 4) 4 = memory.load (block + used) 4

/-- The outcome of `prepareBlockForUse` on a free block. -/
def Prepares (memory : Memory) (block size : Nat) (request : Request)
    (newMemory : Memory) : Prop :=
  prepareBlockForUse memory block request.bytes =
      some (block + 4, newMemory) ∧
    ∃ used, BoundsWaste newMemory block size request.needed used

/-- The free block is replaced by the used block and a proper rest: no block
is written behind them. -/
def SplitsWell (memory : Memory) (block size : Nat) (request : Request) :
    Prop :=
  ∃ newMemory, Prepares memory block size request newMemory ∧
    Memory.SameOutside block (block + size) memory newMemory

/-- The used block and a proper rest replace the free block. -/
def Replaces (memory : Memory) (block size : Nat) (request : Request)
    (newMemory : Memory) (used : Nat) : Prop :=
  prepareBlockForUse memory block request.bytes =
      some (block + 4, newMemory) ∧
    BoundsWaste newMemory block size request.needed used ∧
    Memory.SameOutside block (block + size) memory newMemory

section Prepare

variable {memory : Memory} {block size : Nat} (request : Request)

/-- The branch that splits. -/
def Halves (needed size : Nat) : Prop :=
  toBlockSize (needed + maxUnusedBytes) < size ∨
    toBlockSize (needed * 2) < size

instance (needed size : Nat) : Decidable (Halves needed size) :=
  inferInstanceAs (Decidable (_ ∨ _))

theorem prepareBlockForUse_eq (free : FreeBlock memory block size) :
    prepareBlockForUse memory block request.bytes =
      some (block + 4, if Halves request.needed size then
        setBlockHeader
          (setBlockHeader memory (offset block request.needed)
            (toBlockSize (size + 2 ^ 32 - request.needed)) 0)
          block request.needed 1
        else setBlockHeader memory block size 1) := by
  have room := free.room
  have large := free.large
  have payload : offset block headerSize = block + 4 :=
    offset_add block headerSize (by simp only [headerSize]; omega)
  rw [prepareBlockForUse, getSizeToAllocate_request, free.holds]
  simp only [Option.bind_eq_bind, Option.bind_some, payload]
  by_cases halves : Halves request.needed size
  · rw [if_pos halves]
    exact if_pos halves
  · rw [if_neg halves]
    exact if_neg halves

/-- A block that is kept whole is at most twice as large as needed: a sum or a
product that wraps is smaller than the exact one. -/
theorem bounds_of_not_halves {needed : Nat} (whole : ¬Halves needed size) :
    size ≤ 2 * needed ∧ size ≤ needed + 128 := by
  simp only [Halves, toBlockSize, maxUnusedBytes] at whole
  omega

theorem halves_exact_iff (large : 8 ≤ size) (small : size ≤ 2 ^ 32 - 8) :
    Halves size size ↔ 2 ^ 31 ≤ size := by
  simp only [Halves, toBlockSize, maxUnusedBytes]
  omega

theorem prepares_whole (free : FreeBlock memory block size)
    (fits : request.needed ≤ size) (whole : ¬Halves request.needed size) :
    ∃ newMemory, Replaces memory block size request newMemory size := by
  have prepared := prepareBlockForUse_eq request free
  rw [if_neg whole] at prepared
  obtain ⟨twice, unused⟩ := bounds_of_not_halves whole
  have small : size < 2 ^ 32 := Nat.lt_of_le_of_lt free.small (by decide)
  obtain ⟨header, _, same⟩ := setBlockHeader_spec memory free.aligned
    free.large small free.room Nat.one_lt_two
  obtain ⟨inUse, holds⟩ :=
    accessors_of_word header free.aligned Nat.one_lt_two small
  exact ⟨_, prepared,
    ⟨inUse, holds, fits, Nat.le_refl _, twice, unused, .inl rfl⟩, same⟩

theorem prepares_split (free : FreeBlock memory block size)
    (room : request.needed < size) (halves : Halves request.needed size) :
    ∃ newMemory,
      Replaces memory block size request newMemory request.needed := by
  have prepared := prepareBlockForUse_eq request free
  rw [if_pos halves] at prepared
  have aligned := free.aligned
  have small := free.small
  have high := free.room
  have requestAligned := request.aligned
  have needed : request.needed = request.bytes + 8 := rfl
  have rest : toBlockSize (size + 2 ^ 32 - request.needed) =
      size - request.needed := by
    unfold toBlockSize
    omega
  have behind : offset block request.needed = block + request.needed :=
    offset_add _ _ (by omega)
  rw [rest, behind] at prepared
  obtain ⟨restHeader, restFooter, restSame⟩ :=
    @setBlockHeader_spec memory (block + request.needed)
      (size - request.needed) 0 (by omega) (by omega) (by omega) (by omega)
      Nat.zero_lt_two
  obtain ⟨header, _, same⟩ :=
    @setBlockHeader_spec (setBlockHeader memory (block + request.needed)
      (size - request.needed) 0) block request.needed 1 (by omega) (by omega)
      (by omega) (by omega) Nat.one_lt_two
  have last : block + request.needed + (size - request.needed) - 4 =
      block + size - 4 := by
    omega
  rw [last] at restFooter
  have keptHeader := (same.load (by omega)).trans restHeader
  have keptFooter := (same.load (by omega)).trans restFooter
  obtain ⟨inUse, holds⟩ :=
    accessors_of_word header (by omega) Nat.one_lt_two (by omega)
  obtain ⟨restFree, restHolds⟩ :=
    accessors_of_word keptHeader (by omega) Nat.zero_lt_two (by omega)
  refine ⟨_, prepared, ⟨inUse, holds, Nat.le_refl _, Nat.le_of_lt room,
    by omega, by omega, .inr ⟨by omega, restFree, restHolds,
    keptFooter.trans keptHeader.symm⟩⟩, ?_⟩
  exact (restSame.mono (by omega) (by omega)).trans
    (same.mono (by omega) (by omega))

theorem setBlockHeader_zero (memory : Memory) (place : Nat) {index : Nat}
    (inside : index < 4) :
    setBlockHeader memory place 0 0 (place + index) = 0 := by
  have zero : ∀ distance, UInt8.ofNat (0 / 256 ^ distance) = 0 := by
    intro distance
    rw [Nat.zero_div]
    rfl
  have header : memory.store place 4 0 (place + index) = 0 := by
    rw [Memory.store, if_pos (by omega)]
    exact zero _
  change (memory.store place 4 0).store _ 4 0 (place + index) = 0
  rw [Memory.store]
  split
  · exact zero _
  · exact header

theorem prepares_exact (free : FreeBlock memory block request.needed)
    (halves : Halves request.needed request.needed) :
    ∃ newMemory,
      Prepares memory block request.needed request newMemory ∧
        newMemory.load (block + request.needed) 4 = 0 := by
  have prepared := prepareBlockForUse_eq request free
  rw [if_pos halves] at prepared
  have small : request.needed < 2 ^ 32 :=
    Nat.lt_of_le_of_lt free.small (by decide)
  have empty : toBlockSize (request.needed + 2 ^ 32 - request.needed) = 0 := by
    unfold toBlockSize
    omega
  have behind : offset block request.needed = block + request.needed :=
    offset_add _ _ free.room
  rw [empty, behind] at prepared
  obtain ⟨header, _, same⟩ := setBlockHeader_spec
    (setBlockHeader memory (block + request.needed) 0 0) free.aligned
    free.large small free.room Nat.one_lt_two
  obtain ⟨inUse, holds⟩ :=
    accessors_of_word header free.aligned Nat.one_lt_two small
  refine ⟨_, ⟨prepared, request.needed, ⟨inUse, holds, Nat.le_refl _,
    Nat.le_refl _, by omega, Nat.le_add_right _ _, .inl rfl⟩⟩, ?_⟩
  have zeros : (setBlockHeader memory (block + request.needed) 0 0).load
      (block + request.needed) 4 = Memory.load (fun _ => 0) 0 4 := by
    apply Memory.load_copy
    intro index inside
    exact setBlockHeader_zero memory _ inside
  rw [same.load (.inr (Nat.le_refl _)), zeros]
  rfl

/-- A block that is larger than needed or below 2 GiB is replaced by a block
of the size that is needed and the rest, or used whole. -/
theorem replaces_of_fits (free : FreeBlock memory block size)
    (fits : request.needed ≤ size)
    (condition : request.needed < size ∨ size < 2 ^ 31) :
    ∃ newMemory used, Replaces memory block size request newMemory used ∧
      (used = request.needed ∨ used = size) := by
  by_cases halves : Halves request.needed size
  · by_cases less : request.needed < size
    · obtain ⟨newMemory, replaces⟩ := prepares_split request free less halves
      exact ⟨newMemory, request.needed, replaces, .inl rfl⟩
    · have same : request.needed = size := by omega
      rw [same] at halves
      have huge := (halves_exact_iff free.large free.small).mp halves
      omega
  · obtain ⟨newMemory, replaces⟩ := prepares_whole request free fits halves
    exact ⟨newMemory, size, replaces, .inr rfl⟩

theorem splitsWell_of_fits (free : FreeBlock memory block size)
    (fits : request.needed ≤ size)
    (condition : request.needed < size ∨ size < 2 ^ 31) :
    SplitsWell memory block size request := by
  obtain ⟨newMemory, used, ⟨prepared, waste, same⟩, _⟩ :=
    replaces_of_fits request free fits condition
  exact ⟨newMemory, ⟨prepared, used, waste⟩, same⟩

theorem prepares_of_fits (free : FreeBlock memory block size)
    (fits : request.needed ≤ size) :
    ∃ newMemory, Prepares memory block size request newMemory := by
  by_cases condition : request.needed < size ∨ size < 2 ^ 31
  · obtain ⟨newMemory, prepares, _⟩ :=
      splitsWell_of_fits request free fits condition
    exact ⟨newMemory, prepares⟩
  · have same : request.needed = size := by omega
    subst same
    have halves := (halves_exact_iff free.large free.small).mpr (by omega)
    obtain ⟨newMemory, prepares, _⟩ := prepares_exact request free halves
    exact ⟨newMemory, prepares⟩

end Prepare

/-- A memory with one free block; every other byte is 255. -/
def loneBlock (block size : Nat) : Memory :=
  Memory.store (fun _ => 255) block 4 size

theorem loneBlock_free {block size : Nat} (aligned : size % 8 = 0)
    (large : 8 ≤ size) (small : size ≤ 2 ^ 32 - 8)
    (room : block + size < 2 ^ 64) :
    FreeBlock (loneBlock block size) block size := by
  have fits : size % 256 ^ 4 = size := Nat.mod_eq_of_lt (by omega)
  have word : (loneBlock block size).load block 4 = size + 0 := by
    rw [loneBlock, Memory.load_store_same, fits, Nat.add_zero]
  obtain ⟨free, holds⟩ :=
    accessors_of_word word aligned Nat.zero_lt_two (by omega)
  exact ⟨free, holds, aligned, large, small, room⟩

/-- From 2 GiB on, a block that fits exactly is not replaced well: a block of
size 0 is written behind it. -/
theorem exact_degenerate {block size : Nat} {request : Request}
    (exactly : request.needed = size) (huge : 2 ^ 31 ≤ size)
    (small : size ≤ 2 ^ 32 - 8) (room : block + size < 2 ^ 64) :
    FreeBlock (loneBlock block size) block size ∧
      ¬SplitsWell (loneBlock block size) block size request ∧
      ∃ newMemory,
        prepareBlockForUse (loneBlock block size) block request.bytes =
          some (block + 4, newMemory) ∧
        getBlockSize newMemory (block + size) = 0 := by
  subst exactly
  have aligned : request.needed % 8 = 0 := by
    have bytes := request.aligned
    simp only [Request.needed]
    omega
  have free := @loneBlock_free block request.needed aligned (by omega) small
    room
  obtain ⟨newMemory, ⟨prepared, _⟩, zero⟩ := prepares_exact request free
    ((halves_exact_iff (by omega) small).mpr huge)
  refine ⟨free, ?_, newMemory, prepared, ?_⟩
  · rintro ⟨otherMemory, ⟨otherPrepared, _⟩, same⟩
    rw [prepared] at otherPrepared
    cases otherPrepared
    have kept : newMemory.load (block + request.needed) 4 =
        (loneBlock block request.needed).load (block + request.needed) 4 :=
      same.load (.inr (Nat.le_refl _))
    have before : (loneBlock block request.needed).load
        (block + request.needed) 4 =
          Memory.load (fun _ => 255) (block + request.needed) 4 :=
      (Memory.store_sameOutside _ block 4 _).load (by omega)
    rw [zero, before] at kept
    exact absurd kept (by simp [Memory.load])
  · rw [getBlockSize, zero]
    rfl

/-- The waste of `prepareBlockForUse` is bounded for every size, and it writes
no degenerate block exactly when a block of 2 GiB or more is not requested
whole. -/
theorem prepareBlockForUse_splitsWell_iff {block size : Nat}
    (request : Request) (aligned : size % 8 = 0) (large : 8 ≤ size)
    (small : size ≤ 2 ^ 32 - 8) (room : block + size < 2 ^ 64)
    (fits : request.needed ≤ size) :
    (∀ memory, FreeBlock memory block size →
      ∃ newMemory, Prepares memory block size request newMemory) ∧
    ((∀ memory, FreeBlock memory block size →
      SplitsWell memory block size request) ↔
        request.needed < size ∨ size < 2 ^ 31) := by
  constructor
  · intro memory free
    exact prepares_of_fits request free fits
  · constructor
    · intro always
      by_contra fails
      have same : request.needed = size := by omega
      subst same
      obtain ⟨free, notWell, _⟩ :=
        @exact_degenerate block _ request rfl (by omega) small room
      exact notWell (always _ free)
    · intro condition memory free
      exact splitsWell_of_fits request free fits condition

theorem prepareBlockForUse_splitsWell_small :
    (∀ memory, FreeBlock memory 4100 64 →
      ∃ newMemory,
        Prepares memory 4100 64 ⟨16, by decide, by decide⟩ newMemory) ∧
    ((∀ memory, FreeBlock memory 4100 64 →
      SplitsWell memory 4100 64 ⟨16, by decide, by decide⟩) ↔
        24 < 64 ∨ 64 < 2 ^ 31) :=
  prepareBlockForUse_splitsWell_iff ⟨16, by decide, by decide⟩ (by decide)
    (by decide) (by decide) (by decide) (by decide)

/-- A free block of 2 GiB that is requested whole: a block of size 0 is
written behind it. -/
theorem prepareBlockForUse_degenerate :
    FreeBlock (loneBlock 4100 (2 ^ 31)) 4100 (2 ^ 31) ∧
      ¬SplitsWell (loneBlock 4100 (2 ^ 31)) 4100 (2 ^ 31)
        ⟨2 ^ 31 - 8, by decide, by decide⟩ ∧
      ∃ newMemory,
        prepareBlockForUse (loneBlock 4100 (2 ^ 31)) 4100 (2 ^ 31 - 8) =
          some (4104, newMemory) ∧
        getBlockSize newMemory (4100 + 2 ^ 31) = 0 :=
  exact_degenerate (by decide) (by decide) (by decide) (by decide)

end SystemsLabs.ImplicitHeap
