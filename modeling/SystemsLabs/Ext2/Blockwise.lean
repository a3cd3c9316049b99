import SystemsLabs.Ext2.StatSize

/-!
# Files that are read block by block

A request that goes over the end of a block is not served as it should, also
when the next block of the file is somewhere else.  A program that never asks
for more than the rest of a block gets the file, wherever its blocks are, as
long as their numbers are in the inode or in the first blocks of indirect
numbers.
-/

namespace SystemsLabs.Ext2

section Stored

variable (volume : Volume) (inode : Memory)

/-- The block is not a hole, and all of it is on the image, below 4 GiB. -/
structure Placed (block : Nat) : Prop where
  positive : 0 < block
  inside : volume.blockSize * block + volume.blockSize ≤ volume.image.size
  low : volume.blockSize * block + volume.blockSize ≤ 2 ^ 32

/-- All blocks on the way down a tree are placed, the last one too. -/
def PlacedRoute (block : Nat) : List Nat → Prop
  | [] => Placed volume block
  | index :: rest =>
      Placed volume block ∧
        ∃ next, blockEntry volume block index = some next ∧
          PlacedRoute next rest

/-- The number of blocks that the direct numbers, the indirect block and the
first of the doubly indirect blocks have numbers for. -/
def nearBlocks : Nat := 12 + 2 * (volume.blockSize / 4)

/-- The file is on the image, near the beginning of the block map.  A block is
smaller than 2 GiB; where the file goes on behind the single indirect block, the
end of the doubly indirect region is an `int`, as it is for blocks of up to
128 KiB. -/
structure Stored : Prop where
  blockSize_lt : volume.blockSize < 2 ^ 31
  bounds : inodeFileSize volume inode ≤
      (12 + volume.blockSize / 4) * volume.blockSize ∨
    12 + volume.blockSize / 4 + (volume.blockSize / 4) ^ 2 < 2 ^ 31
  near : inodeFileSize volume inode ≤ nearBlocks volume * volume.blockSize
  placed : ∀ place < inodeFileSize volume inode, ∃ route,
    blockRoute volume inode (place / volume.blockSize) = some route ∧
      PlacedRoute volume route.1 route.2

/-- The byte of the file by the format of the disk. -/
def storedByte (place : Nat) : Option UInt8 :=
  (blockMap volume inode (place / volume.blockSize)).map fun block =>
    if block = 0 then 0
    else
      volume.image.byte (volume.blockSize * block + place % volume.blockSize)

end Stored

section Routes

variable {volume : Volume} {inode : Memory}

theorem Placed.entrySound {block index : Nat} (placed : Placed volume block)
    (inside : index < volume.blockSize / 4) :
    EntrySound volume block index := by
  have positive := placed.positive
  have whole := placed.inside
  have low := placed.low
  rw [EntrySound, if_neg (by omega)]
  exact ⟨by omega, .inl (by omega)⟩

theorem PlacedRoute.descends {indices : List Nat} {root : Nat}
    (placed : PlacedRoute volume root indices)
    (inside : ∀ index ∈ indices, index < volume.blockSize / 4) :
    RouteSound volume root indices ∧
      ∃ block, descend volume root indices = some block ∧
        Placed volume block := by
  induction indices generalizing root with
  | nil => exact ⟨trivial, root, rfl, placed⟩
  | cons index rest ih =>
      obtain ⟨here, next, found, onward⟩ := placed
      obtain ⟨sound, block, descends, last⟩ :=
        ih onward fun other member => inside other (.tail _ member)
      refine ⟨⟨here.entrySound (inside index (.head _)), ?_⟩, block, ?_, last⟩
      · rw [found]
        exact sound
      · simp [descend, found, descends]

theorem blockRoute_inside {blockIdx : Nat} {route : Nat × List Nat}
    (found : blockRoute volume inode blockIdx = some route) :
    ∀ index ∈ route.2, index < volume.blockSize / 4 := by
  rw [blockRoute] at found
  generalize volume.blockSize / 4 = n at found ⊢
  dsimp only at found
  split at found
  · cases found
    simp
  split at found
  · cases found
    simpa
  split at found
  case isTrue small =>
    cases found
    have square : n ^ 2 = n * n := Nat.pow_two n
    have positive : 0 < n := Nat.pos_of_ne_zero fun zero => by
      simp [zero] at small
    simp only [List.forall_mem_cons, List.not_mem_nil, false_implies,
      implies_true, and_true]
    exact ⟨Nat.div_lt_of_lt_mul (square ▸ small), Nat.mod_lt _ positive⟩
  split at found
  case isTrue small =>
    cases found
    have cube : n ^ 3 = n ^ 2 * n := Nat.pow_succ n 2
    have positive : 0 < n := Nat.pos_of_ne_zero fun zero => by
      simp [zero] at small
    simp only [List.forall_mem_cons, List.not_mem_nil, false_implies,
      implies_true, and_true]
    exact ⟨Nat.div_lt_of_lt_mul (cube ▸ small), Nat.mod_lt _ positive,
      Nat.mod_lt _ positive⟩
  · cases found

theorem Stored.mapSound (stored : Stored volume inode) {place : Nat}
    (inside : place < inodeFileSize volume inode) :
    MapSound volume inode (place / volume.blockSize) ∧
      ∃ block, blockMap volume inode (place / volume.blockSize) =
          some block ∧ Placed volume block := by
  obtain ⟨route, found, placed⟩ := stored.placed place inside
  obtain ⟨sound, block, descends, last⟩ :=
    placed.descends (blockRoute_inside found)
  have before : ∀ blocks, inodeFileSize volume inode ≤
      blocks * volume.blockSize → place / volume.blockSize < blocks := by
    intro blocks enough
    rw [Nat.mul_comm] at enough
    exact Nat.div_lt_of_lt_mul (inside.trans_le enough)
  have near := before _ stored.near
  unfold nearBlocks at near
  have square : volume.blockSize / 4 ≤ (volume.blockSize / 4) ^ 2 :=
    Nat.le_self_pow (by decide) _
  refine ⟨⟨.inl near, ⟨fun behind => ?_, fun behind => ?_⟩, ?_⟩, block, ?_,
    last⟩
  · rcases stored.bounds with short | fits
    · have single := before _ short
      omega
    · exact fits
  · omega
  · intro other same
    cases found.symm.trans same
    exact sound
  · rw [blockMap, found]
    exact descends

/-- The block map is what the code takes it for. -/
theorem Stored.fileBlock (stored : Stored volume inode) {place : Nat}
    (inside : place < inodeFileSize volume inode) (uninit : Nat → Memory) :
    ∃ block, blockMap volume inode (place / volume.blockSize) = some block ∧
      Placed volume block ∧ fileBlock volume uninit inode place = block := by
  obtain ⟨sound, block, found, placed⟩ := stored.mapSound inside
  refine ⟨block, found, placed, ?_⟩
  have number := (mapCorrect_of_sound sound uninit).1
  rw [found] at number
  exact number

theorem Stored.fileByte (stored : Stored volume inode) {place : Nat}
    (inside : place < inodeFileSize volume inode) (uninit : Nat → Memory) :
    storedByte volume inode place =
      some (fileByte volume uninit inode place) := by
  obtain ⟨block, found, placed, number⟩ := stored.fileBlock inside uninit
  rw [storedByte, found, Option.map_some, Ext2.fileByte]
  simp only [number]

end Routes

section Requests

variable {volume : Volume} {inode : Memory} {offset size : Nat}

theorem Stored.laid (stored : Stored volume inode)
    (inBlock : size ≤ volume.blockSize - offset % volume.blockSize)
    (uninit : Nat → Memory) :
    Laid volume uninit inode offset (contentSize volume inode offset size) := by
  have bound : contentSize volume inode offset size ≤ size :=
    Nat.min_le_left _ _
  have rest : contentSize volume inode offset size ≤
      inodeFileSize volume inode - offset := Nat.min_le_right _ _
  have small := stored.blockSize_lt
  rcases Nat.eq_zero_or_pos (contentSize volume inode offset size) with
    nothing | positive
  · rw [nothing]
    exact .done offset
  · obtain ⟨block, _, placed, number⟩ :=
      stored.fileBlock (show offset < _ by omega) uninit
    have place := placed.inside
    have below : offset % volume.blockSize < volume.blockSize :=
      Nat.mod_lt _ volume.blockSize_pos
    exact laid_of_block number (Nat.pos_iff_ne_zero.mp placed.positive)
      positive (by omega) (by omega) placed.low (by omega) (.inl rfl) (.done _)

theorem Stored.size_lt (stored : Stored volume inode) :
    inodeFileSize volume inode < 2 ^ 63 := by
  have near := stored.near
  have small := stored.blockSize_lt
  have few : nearBlocks volume ≤ 2 ^ 31 := by
    unfold nearBlocks
    omega
  have product := Nat.mul_le_mul few (Nat.le_of_lt small)
  omega

theorem Stored.reads (stored : Stored volume inode)
    (inside : offset ≤ inodeFileSize volume inode)
    (inBlock : size ≤ volume.blockSize - offset % volume.blockSize)
    (uninit : Nat → Memory) (memory : Memory) (buffer : Nat) :
    ∃ fuel final,
      readFileContent fuel volume uninit inode offset size memory buffer =
          some ((contentSize volume inode offset size : Int), final) ∧
        (∀ index < contentSize volume inode offset size,
          storedByte volume inode (offset + index) =
            some (final (buffer + index))) ∧
        memory.SameOutside buffer
          (buffer + contentSize volume inode offset size) final := by
  have bound : contentSize volume inode offset size ≤ size :=
    Nat.min_le_left _ _
  have rest : contentSize volume inode offset size ≤
      inodeFileSize volume inode - offset := Nat.min_le_right _ _
  have small := stored.blockSize_lt
  have sizeSmall := stored.size_lt
  obtain ⟨fuel, final, run, bytes, same⟩ :=
    @contentLoop_laid volume uninit inode offset _ buffer _ _
      (stored.laid inBlock uninit) 0 memory rfl (Nat.zero_add _) (by omega)
      (by omega)
  refine ⟨fuel, final, ?_, ?_, same⟩
  · rw [readFileContent_eq fuel memory buffer inside (by omega)]
    exact run
  · intro index within
    rw [stored.fileByte (by omega) uninit, ← bytes index within]
    rfl

end Requests

/-- Requests one after the other, each behind what the last one returned, have
read up to an offset and filled the buffer up to there. -/
inductive ReadsTo (volume : Volume) (inode : Memory) (buffer : Nat)
    (memory : Memory) : Nat → Memory → Prop
  | start : ReadsTo volume inode buffer memory 0 memory
  | read {offset size fuel : Nat} {count : Int} {middle final : Memory}
      (before : ReadsTo volume inode buffer memory offset middle)
      (inBlock : size ≤ volume.blockSize - offset % volume.blockSize)
      (uninit : Nat → Memory)
      (reads : readFileContent fuel volume uninit inode offset size middle
        (buffer + offset) = some (count, final)) :
      ReadsTo volume inode buffer memory (offset + count.toNat) final

section Reassembled

variable {volume : Volume} {inode memory final : Memory} {buffer offset : Nat}

/-- What the buffer holds when the file is read up to `offset`. -/
structure HoldsFile (volume : Volume) (inode : Memory) (buffer : Nat)
    (memory : Memory) (offset : Nat) (final : Memory) : Prop where
  inside : offset ≤ inodeFileSize volume inode
  bytes : ∀ place < offset,
    storedByte volume inode place = some (final (buffer + place))
  same : memory.SameOutside buffer (buffer + offset) final

theorem ReadsTo.holdsFile (stored : Stored volume inode)
    (reads : ReadsTo volume inode buffer memory offset final) :
    HoldsFile volume inode buffer memory offset final := by
  induction reads with
  | start => exact ⟨Nat.zero_le _, nofun, Memory.SameOutside.refl _ _ _⟩
  | @read offset size fuel count middle final before inBlock uninit reads ih =>
      obtain ⟨inside, bytes, same⟩ := ih
      obtain ⟨other, last, run, fresh, kept⟩ :=
        stored.reads inside inBlock uninit middle (buffer + offset)
      have rest : contentSize volume inode offset size ≤
        inodeFileSize volume inode - offset := Nat.min_le_right _ _
      rw [readFileContent] at reads run
      obtain ⟨rfl, rfl⟩ := Prod.mk.inj (contentLoop_unique reads run)
      rw [Int.toNat_natCast]
      refine ⟨by omega, ?_, ?_⟩
      · intro place early
        rcases Nat.lt_or_ge place offset with old | new
        · rw [bytes place old, kept _ (.inl (by omega))]
        · obtain ⟨index, rfl⟩ := Nat.exists_eq_add_of_le new
          rw [fresh index (by omega), Nat.add_assoc]
      · intro position outside
        rw [kept position (by omega), same position (by omega)]

/-- A file that is read block by block arrives as it is stored, whatever the
order of its blocks on the image: each request returns what is left of it, up
to the end of the file, and what has been read is the beginning of the file. -/
theorem blockwise_reads (stored : Stored volume inode)
    (reads : ReadsTo volume inode buffer memory offset final) :
    HoldsFile volume inode buffer memory offset final ∧
      ∀ uninit size,
        size ≤ volume.blockSize - offset % volume.blockSize →
        ∃ fuel last,
          readFileContent fuel volume uninit inode offset size final
              (buffer + offset) =
            some (((min size (inodeFileSize volume inode - offset) : Nat) : Int),
              last) := by
  have holds := reads.holdsFile stored
  refine ⟨holds, ?_⟩
  intro uninit size inBlock
  obtain ⟨fuel, last, run, _⟩ :=
    stored.reads holds.inside inBlock uninit final (buffer + offset)
  exact ⟨fuel, last, run⟩

end Reassembled

/-- A file whose blocks do not follow each other, which one request for all of
it does not get right. -/
theorem twoBlocks_stored : Stored treeVolume (twoBlocks 3 5) := by
  refine ⟨by decide, .inr (by decide), ?_, ?_⟩
  · rw [twoBlocks_size]
    decide
  · intro place inside
    rw [twoBlocks_size] at inside
    have size : treeVolume.blockSize = 1024 := rfl
    rw [size]
    have direct : place / 1024 < 12 := by omega
    refine ⟨(iBlock (twoBlocks 3 5) (place / 1024), []), if_pos direct, ?_⟩
    have which : place / 1024 = 0 ∨ place / 1024 = 1 := by omega
    rcases which with first | second
    · rw [first]
      exact ⟨by decide, by decide, by decide⟩
    · rw [second]
      exact ⟨by decide, by decide, by decide⟩

theorem twoBlocks_reads (memory : Memory) :
    ∃ final, ReadsTo treeVolume (twoBlocks 3 5) 0 memory 2048 final := by
  obtain ⟨fuel, middle, first, _⟩ := twoBlocks_stored.reads (Nat.zero_le _)
    (show 1024 ≤ 1024 - 0 % 1024 by decide) (fun _ _ => 0) memory 0
  have half : contentSize treeVolume (twoBlocks 3 5) 0 1024 = 1024 := by
    rw [contentSize, twoBlocks_size]
    rfl
  rw [half] at first
  have one : ReadsTo treeVolume (twoBlocks 3 5) 0 memory 1024 middle :=
    .read .start (show 1024 ≤ 1024 - 0 % 1024 by decide) _ first
  obtain ⟨other, final, second, _⟩ := twoBlocks_stored.reads
    (show 1024 ≤ _ by rw [twoBlocks_size]; decide)
    (show 1024 ≤ 1024 - 1024 % 1024 by decide) (fun _ _ => 0) middle 1024
  have rest : contentSize treeVolume (twoBlocks 3 5) 1024 1024 = 1024 := by
    rw [contentSize, twoBlocks_size]
    rfl
  rw [rest] at second
  exact ⟨final,
    .read one (show 1024 ≤ 1024 - 1024 % 1024 by decide) _ second⟩

theorem twoBlocks_blockwise :
    ∃ final, HoldsFile treeVolume (twoBlocks 3 5) 0 (fun _ => 0) 2048 final := by
  obtain ⟨final, reads⟩ := twoBlocks_reads fun _ => 0
  exact ⟨final, (blockwise_reads twoBlocks_stored reads).1⟩

end SystemsLabs.Ext2
