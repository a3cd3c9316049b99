import SystemsLabs.Ext2.BlockMap

/-!
# The content of a file

A read is not cut at the end of a block: what is behind the first byte on the
image is taken for the rest of the file.  `Laid` says for which files this is
right, and `contentLoop` returns their content and that of no others.
-/

namespace SystemsLabs.Ext2

section Bytes

variable (volume : Volume) (uninit : Nat → Memory) (inode : Memory)

/-- The number of the block with byte `place` of a file. -/
def fileBlock (place : Nat) : Nat :=
  (getInodeBlockNo volume uninit inode (place / volume.blockSize)).1

/-- The byte at `place` of a file; holes are full of zeros. -/
def fileByte (place : Nat) : UInt8 :=
  let block := fileBlock volume uninit inode place
  if block = 0 then 0
  else
    volume.image.byte
      (volume.blockSize * block + place % volume.blockSize)

/-- The 32-bit position that is read for byte `place` of a file. -/
def filePosition (place : Nat) : Nat :=
  (volume.blockSize * fileBlock volume uninit inode place +
    place % volume.blockSize) % 2 ^ 32

/-- All bytes from `offset` on are in a hole or in the image. -/
def Readable (offset size : Nat) : Prop :=
  ∀ place, offset ≤ place → place < offset + size →
    fileBlock volume uninit inode place ≠ invalidBlockNumber ∧
      (fileBlock volume uninit inode place = 0 ∨
        volume.blockSize * fileBlock volume uninit inode place +
          place % volume.blockSize < volume.image.size)

/-- From `place` on, `size` bytes of a file follow each other on the image: in
one run, or in several ones that end with the image. -/
inductive Laid : Nat → Nat → Prop
  | done (place : Nat) : Laid place 0
  | run (place count rest : Nat) (positive : 0 < count)
      (short : count < 2 ^ 31)
      (inside : filePosition volume uninit inode place + count ≤
        volume.image.size)
      (same : ∀ index < count,
        volume.image.byte (filePosition volume uninit inode place + index) =
          fileByte volume uninit inode (place + index))
      (last : rest = 0 ∨
        filePosition volume uninit inode place + count = volume.image.size)
      (onward : Laid (place + count) rest) :
      Laid place (count + rest)

theorem readFileBlock_eq (place maxSize : Nat) (memory : Memory)
    (buffer : Nat) :
    readFileBlock volume uninit inode place maxSize memory buffer =
      let count := min (maxSize % 2 ^ 32)
        (volume.image.size - filePosition volume uninit inode place)
      ((count : Int), memory.copy buffer volume.image.byte
        (filePosition volume uninit inode place) count) := by
  have size : toUint32 (maxSize : Int) = maxSize % 2 ^ 32 := by
    rw [toUint32]
    omega
  rw [readFileBlock, size]
  rfl

end Bytes

section Loop

variable {volume : Volume} {uninit : Nat → Memory} {inode : Memory}
  {offset maxSize buffer : Nat}

/-- A positive result is a `uint32_t` not below the size. -/
theorem contentLoop_result {fuel readSoFar : Nat} {memory final : Memory}
    {result : Int} (small : readSoFar < 2 ^ 32)
    (run : contentLoop volume uninit inode offset maxSize buffer fuel
      readSoFar memory = some (result, final)) :
    result ≤ 0 ∨ (maxSize ≤ result ∧ result < 2 ^ 32) := by
  induction fuel generalizing readSoFar memory with
  | zero => cases run
  | succ fuel ih =>
      rw [contentLoop] at run
      by_cases more : readSoFar < maxSize
      · rw [if_pos more] at run
        simp only [readFileBlock_eq] at run
        by_cases stop : toInt (min ((maxSize - readSoFar) % 2 ^ 32)
            (volume.image.size - filePosition volume uninit inode
              (toUint64 (offset + readSoFar))) : Nat) ≤ 0
        · rw [if_pos stop] at run
          obtain ⟨rfl, _⟩ := Prod.mk.inj (Option.some.inj run)
          exact .inl stop
        · rw [if_neg stop] at run
          refine ih ?_ run
          rw [toUint32]
          omega
      · rw [if_neg more] at run
        obtain ⟨rfl, _⟩ := Prod.mk.inj (Option.some.inj run)
        exact .inr ⟨by omega, by omega⟩

/-- One round.  The request is cut to 32 bits. -/
theorem contentLoop_request {readSoFar rest : Nat} (fuel : Nat)
    (memory : Memory) (request : (maxSize - readSoFar) % 2 ^ 32 = rest)
    (more : readSoFar < maxSize) (fits : offset + readSoFar < 2 ^ 64) :
    contentLoop volume uninit inode offset maxSize buffer (fuel + 1)
        readSoFar memory =
      let position := filePosition volume uninit inode (offset + readSoFar)
      let count := min rest (volume.image.size - position)
      let memory := memory.copy (buffer + readSoFar) volume.image.byte
        position count
      if toInt count ≤ 0 then some (toInt count, memory)
      else
        contentLoop volume uninit inode offset maxSize buffer fuel
          (toUint32 (readSoFar + toInt count)) memory := by
  have place : toUint64 ((offset : Int) + readSoFar) = offset + readSoFar :=
    toUint64_of_nat _ (by omega) fits
  rw [contentLoop, if_pos more]
  simp only [readFileBlock_eq, place, request]

theorem contentLoop_more {readSoFar rest count : Nat} (fuel : Nat)
    (memory : Memory) (total : readSoFar + (count + rest) = maxSize)
    (small : maxSize < 2 ^ 32) (fits : offset + maxSize < 2 ^ 64)
    (positive : 0 < count) (short : count < 2 ^ 31)
    (read : min (count + rest) (volume.image.size -
      filePosition volume uninit inode (offset + readSoFar)) = count) :
    contentLoop volume uninit inode offset maxSize buffer (fuel + 1)
        readSoFar memory =
      contentLoop volume uninit inode offset maxSize buffer fuel
        (readSoFar + count) (memory.copy (buffer + readSoFar)
          volume.image.byte
          (filePosition volume uninit inode (offset + readSoFar)) count) := by
  have result : toInt count = count := toInt_of_nat _ rfl short
  have sum : toUint32 ((readSoFar : Int) + count) = readSoFar + count :=
    toUint32_of_nat _ (by omega) (by omega)
  have request : (maxSize - readSoFar) % 2 ^ 32 = count + rest := by omega
  rw [contentLoop_request fuel memory request (by omega) (by omega)]
  simp only [read, result, sum]
  rw [if_neg (by omega)]

theorem contentLoop_laid {place rest : Nat}
    (laid : Laid volume uninit inode place rest) :
    ∀ readSoFar memory, place = offset + readSoFar →
      readSoFar + rest = maxSize → maxSize < 2 ^ 32 →
      offset + maxSize < 2 ^ 64 →
      ∃ fuel final,
        contentLoop volume uninit inode offset maxSize buffer fuel readSoFar
            memory = some ((maxSize : Int), final) ∧
          (∀ index < rest, final (buffer + readSoFar + index) =
            fileByte volume uninit inode (place + index)) ∧
          memory.SameOutside (buffer + readSoFar) (buffer + maxSize)
            final := by
  induction laid with
  | done place =>
      intro readSoFar memory _ total _ _
      refine ⟨1, memory, ?_, ?_, Memory.SameOutside.refl _ _ _⟩
      · rw [Nat.add_zero] at total
        rw [contentLoop, if_neg (by omega), total]
      · intro index impossible
        exact absurd impossible (Nat.not_lt_zero _)
  | run place count rest positive short inside same last onward ih =>
      intro readSoFar memory start total small fits
      subst start
      have read : min (count + rest) (volume.image.size -
          filePosition volume uninit inode (offset + readSoFar)) = count := by
        omega
      obtain ⟨fuel, final, result, bytes, frame⟩ :=
        ih (readSoFar + count) (memory.copy (buffer + readSoFar)
          volume.image.byte
          (filePosition volume uninit inode (offset + readSoFar)) count)
          (Nat.add_assoc _ _ _) (by omega) small fits
      refine ⟨fuel + 1, final, ?_, ?_, ?_⟩
      · rw [contentLoop_more fuel memory total small fits positive short
          read]
        exact result
      · intro index within
        rcases Nat.lt_or_ge index count with early | late
        · rw [frame _ (.inl (by omega)), Memory.copy_inside _ _ _ _ early,
            same index early]
        · obtain ⟨later, rfl⟩ := Nat.exists_eq_add_of_le late
          have byte := bytes later (by omega)
          rw [← Nat.add_assoc, Nat.add_assoc _ count later] at byte
          rw [byte, Nat.add_assoc _ count later]
      · intro position outside
        rw [frame position (by omega),
          Memory.copy_outside _ _ (by omega)]

/-- A round ends the loop with a failed read or goes on behind a run. -/
theorem contentLoop_cases {fuel readSoFar rest : Nat}
    {memory final : Memory} {result : Int}
    (total : readSoFar + rest = maxSize) (more : 0 < rest)
    (small : maxSize < 2 ^ 32) (fits : offset + maxSize < 2 ^ 64)
    (run : contentLoop volume uninit inode offset maxSize buffer fuel
      readSoFar memory = some (result, final)) :
    ∃ fuel' count,
      min rest (volume.image.size -
          filePosition volume uninit inode (offset + readSoFar)) = count ∧
        ((result ≤ 0 ∧ final = memory.copy (buffer + readSoFar)
            volume.image.byte
            (filePosition volume uninit inode (offset + readSoFar)) count) ∨
          (0 < count ∧ count < 2 ^ 31 ∧ fuel = fuel' + 1 ∧
            contentLoop volume uninit inode offset maxSize buffer fuel'
              (readSoFar + count) (memory.copy (buffer + readSoFar)
                volume.image.byte
                (filePosition volume uninit inode (offset + readSoFar))
                count) = some (result, final))) := by
  cases fuel with
  | zero => cases run
  | succ fuel =>
      refine ⟨fuel, _, rfl, ?_⟩
      have request : (maxSize - readSoFar) % 2 ^ 32 = rest := by omega
      have round := run
      rw [contentLoop_request fuel memory request (by omega) (by omega)]
        at round
      simp only at round
      generalize read : min rest (volume.image.size -
        filePosition volume uninit inode (offset + readSoFar)) = count at *
      by_cases stop : toInt count ≤ 0
      · rw [if_pos stop] at round
        obtain ⟨rfl, rfl⟩ := Prod.mk.inj (Option.some.inj round)
        exact .inl ⟨stop, rfl⟩
      · rw [if_neg stop] at round
        obtain ⟨positive, short⟩ :=
          toInt_positive count (by omega) (by omega)
        have value : toInt count = count := toInt_of_nat _ rfl short
        have sum : toUint32 ((readSoFar : Int) + count) = readSoFar + count :=
          toUint32_of_nat _ (by omega) (by omega)
        rw [value, sum] at round
        exact .inr ⟨positive, short, rfl, round⟩

theorem contentLoop_sameOutside {fuel readSoFar : Nat} (rest : Nat)
    {memory final : Memory} {result : Int}
    (total : readSoFar + rest = maxSize) (small : maxSize < 2 ^ 32)
    (fits : offset + maxSize < 2 ^ 64)
    (run : contentLoop volume uninit inode offset maxSize buffer fuel
      readSoFar memory = some (result, final)) :
    memory.SameOutside (buffer + readSoFar) (buffer + maxSize) final := by
  induction fuel generalizing readSoFar rest memory with
  | zero => cases run
  | succ fuel ih =>
      rcases Nat.eq_zero_or_pos rest with rfl | more
      · rw [contentLoop, if_neg (by omega)] at run
        obtain ⟨_, rfl⟩ := Prod.mk.inj (Option.some.inj run)
        exact Memory.SameOutside.refl _ _ _
      · obtain ⟨fuel', count, read, stopped | ⟨_, _, same, onward⟩⟩ :=
          contentLoop_cases total more small fits run
        · intro position outside
          rw [stopped.2, Memory.copy_outside _ _ (by omega)]
        · obtain rfl : fuel = fuel' := Nat.succ.inj same
          intro position outside
          have later := ih (rest - count) (by omega) onward
          rw [later position (by omega),
            Memory.copy_outside _ _ (by omega)]

theorem laid_of_contentLoop {fuel readSoFar rest : Nat}
    {memory final : Memory}
    (total : readSoFar + rest = maxSize) (small : maxSize < 2 ^ 32)
    (fits : offset + maxSize < 2 ^ 64)
    (run : contentLoop volume uninit inode offset maxSize buffer fuel
      readSoFar memory = some ((maxSize : Int), final))
    (bytes : ∀ index < rest, final (buffer + readSoFar + index) =
      fileByte volume uninit inode (offset + readSoFar + index)) :
    Laid volume uninit inode (offset + readSoFar) rest := by
  induction fuel generalizing readSoFar rest memory with
  | zero => cases run
  | succ fuel ih =>
      rcases Nat.eq_zero_or_pos rest with rfl | more
      · exact .done _
      · obtain ⟨fuel', count, read, stopped | ⟨positive, short, same, onward⟩⟩
          := contentLoop_cases total more small fits run
        · omega
        · obtain rfl : fuel = fuel' := Nat.succ.inj same
          obtain ⟨later, rfl⟩ :=
            Nat.exists_eq_add_of_le (show count ≤ rest by omega)
          have frame := contentLoop_sameOutside later (by omega) small fits
            onward
          refine .run _ count later positive short (by omega) ?_ (by omega) ?_
          · intro index within
            rw [← bytes index (by omega), frame _ (.inl (by omega)),
              Memory.copy_inside _ _ _ _ within]
          · rw [Nat.add_assoc]
            apply @ih (readSoFar + count) later _ (by omega) onward
            intro index within
            have byte := bytes (count + index) (by omega)
            rw [← Nat.add_assoc, ← Nat.add_assoc] at byte
            rw [← Nat.add_assoc, ← Nat.add_assoc]
            exact byte

end Loop

theorem inodeFileSize_lt (volume : Volume) (inode : Memory) :
    inodeFileSize volume inode < 2 ^ 64 := by
  have low : iSize inode < 2 ^ 32 := inode.load_lt 4 4
  have high : iDirAcl inode < 2 ^ 32 := inode.load_lt 108 4
  have shifted : iDirAcl inode <<< 32 < 2 ^ 64 := by
    rw [Nat.shiftLeft_eq]
    omega
  rw [inodeFileSize]
  split
  · exact Nat.or_lt_two_pow shifted (by omega)
  · omega

section Correct

variable (volume : Volume) (uninit : Nat → Memory) (inode : Memory)
  (offset maxSize : Nat)

/-- The number of bytes between `offset` and the end of the file, `maxSize` at
most. -/
def contentSize : Nat := min maxSize (inodeFileSize volume inode - offset)

/-- What `readFileContent` makes of the size it is asked for. -/
def clippedSize : Nat :=
  if inodeFileSize volume inode < toUint64 (offset + maxSize) then
    toUint64 (inodeFileSize volume inode - offset)
  else maxSize

/-- What `readFileContent` is for. -/
def ContentCorrect : Prop :=
  ∀ memory buffer, ∃ fuel final,
    readFileContent fuel volume uninit inode offset maxSize memory buffer =
        some ((contentSize volume inode offset maxSize : Int), final) ∧
      ∀ index < contentSize volume inode offset maxSize,
        final (buffer + index) =
          fileByte volume uninit inode (offset + index)

/-- `readFileBlock` stays in the block of the offset. -/
def BlockLimited : Prop :=
  ∀ memory buffer,
    (readFileBlock volume uninit inode offset maxSize memory buffer).1 ≤
      (volume.blockSize - offset % volume.blockSize : Nat)

def FileCorrect : Prop :=
  (Readable volume uninit inode offset
      (contentSize volume inode offset maxSize) →
    ContentCorrect volume uninit inode offset maxSize) ∧
  BlockLimited volume uninit inode offset maxSize

/-- The offset is in the file, and what is to be read lies in runs. -/
def ContentSound : Prop :=
  offset ≤ inodeFileSize volume inode ∧ offset + maxSize < 2 ^ 64 ∧
    contentSize volume inode offset maxSize < 2 ^ 32 ∧
    Laid volume uninit inode offset
      (contentSize volume inode offset maxSize)

/-- The request ends with the block, or the image does. -/
def BlockSound : Prop :=
  maxSize % 2 ^ 32 ≤ volume.blockSize - offset % volume.blockSize ∨
    volume.image.size ≤ filePosition volume uninit inode offset +
      (volume.blockSize - offset % volume.blockSize)

variable {volume uninit inode offset maxSize}

theorem blockLimited_iff :
    BlockLimited volume uninit inode offset maxSize ↔
      BlockSound volume uninit inode offset maxSize := by
  simp only [BlockLimited, readFileBlock_eq, BlockSound]
  constructor
  · intro limited
    have count := limited (fun _ => 0) 0
    omega
  · intro sound _ _
    omega

theorem clippedSize_inside (inside : offset ≤ inodeFileSize volume inode)
    (fits : offset + maxSize < 2 ^ 64) :
    clippedSize volume inode offset maxSize =
      contentSize volume inode offset maxSize := by
  have sum : toUint64 ((offset : Int) + maxSize) = offset + maxSize :=
    toUint64_of_nat _ (by omega) fits
  rw [clippedSize, sum, contentSize]
  split
  case isTrue clip =>
    rw [toUint64_of_nat (inodeFileSize volume inode - offset) (by omega)
      (by omega)]
    omega
  case isFalse whole =>
    omega

/-- The size is clipped when the offset is in the file and nothing wraps. -/
theorem readFileContent_eq (fuel : Nat) (memory : Memory) (buffer : Nat)
    (inside : offset ≤ inodeFileSize volume inode)
    (fits : offset + maxSize < 2 ^ 64) :
    readFileContent fuel volume uninit inode offset maxSize memory buffer =
      contentLoop volume uninit inode offset
        (contentSize volume inode offset maxSize) buffer fuel 0 memory := by
  rw [← clippedSize_inside inside fits]
  rfl

theorem contentCorrect_of_sound
    (sound : ContentSound volume uninit inode offset maxSize) :
    ContentCorrect volume uninit inode offset maxSize := by
  obtain ⟨inside, fits, small, laid⟩ := sound
  intro memory buffer
  have bound : contentSize volume inode offset maxSize ≤ maxSize :=
    Nat.min_le_left _ _
  obtain ⟨fuel, final, run, bytes, _⟩ :=
    @contentLoop_laid volume uninit inode offset _ buffer _ _ laid 0 memory
      rfl (Nat.zero_add _) small (by omega)
  refine ⟨fuel, final, ?_, ?_⟩
  · rw [readFileContent_eq fuel memory buffer inside fits]
    exact run
  · intro index within
    exact bytes index within

theorem contentSound_of_correct (inside : offset < inodeFileSize volume inode)
    (wide : maxSize < 2 ^ 64)
    (correct : ContentCorrect volume uninit inode offset maxSize) :
    ContentSound volume uninit inode offset maxSize := by
  obtain ⟨fuel, final, run, bytes⟩ := correct (fun _ => 0) 0
  have fileSize := inodeFileSize_lt volume inode
  have bound : contentSize volume inode offset maxSize ≤ maxSize :=
    Nat.min_le_left _ _
  by_cases fits : offset + maxSize < 2 ^ 64
  · rw [readFileContent_eq fuel _ 0 inside.le fits] at run
    have small : contentSize volume inode offset maxSize < 2 ^ 32 := by
      rcases contentLoop_result (by decide) run with nothing | ⟨_, short⟩
      · omega
      · omega
    refine ⟨inside.le, fits, small, ?_⟩
    apply laid_of_contentLoop (Nat.zero_add _) small (by omega) run
    intro index within
    exact bytes index within
  · -- the sum wraps, and the size is not clipped
    have sum : toUint64 ((offset : Int) + maxSize) =
        offset + maxSize - 2 ^ 64 := by
      rw [toUint64]
      omega
    rw [readFileContent, sum] at run
    rw [if_neg (by omega)] at run
    have less : contentSize volume inode offset maxSize =
        inodeFileSize volume inode - offset := by
      rw [contentSize]
      omega
    rcases contentLoop_result (by decide) run with nothing | ⟨enough, _⟩
    · omega
    · omega

/-- Sound reads are right.  Of the reads in front of the end of the file no
others are, and `readFileBlock` stays in its block for no others at all. -/
theorem fileContent_correct (wide : maxSize < 2 ^ 64) :
    (ContentSound volume uninit inode offset maxSize ∧
        BlockSound volume uninit inode offset maxSize →
      FileCorrect volume uninit inode offset maxSize) ∧
    (Readable volume uninit inode offset
        (contentSize volume inode offset maxSize) →
      FileCorrect volume uninit inode offset maxSize →
      BlockSound volume uninit inode offset maxSize ∧
        (offset < inodeFileSize volume inode →
          ContentSound volume uninit inode offset maxSize)) := by
  constructor
  · rintro ⟨sound, short⟩
    exact ⟨fun _ => contentCorrect_of_sound sound, blockLimited_iff.mpr short⟩
  · rintro readable ⟨correct, limited⟩
    refine ⟨blockLimited_iff.mp limited, ?_⟩
    intro inside
    exact contentSound_of_correct inside wide (correct readable)

end Correct

section Runs

variable {volume : Volume} {uninit : Nat → Memory} {inode : Memory}
  {place count rest block : Nat}

/-- Bytes of one block below 4 GiB that is not a hole follow each other. -/
theorem laid_of_block
    (found : fileBlock volume uninit inode place = block)
    (some : block ≠ 0) (positive : 0 < count) (short : count < 2 ^ 31)
    (inBlock : place % volume.blockSize + count ≤ volume.blockSize)
    (low : volume.blockSize * block + volume.blockSize ≤ 2 ^ 32)
    (inside : volume.blockSize * block + place % volume.blockSize + count ≤
      volume.image.size)
    (last : rest = 0 ∨
      volume.blockSize * block + place % volume.blockSize + count =
        volume.image.size)
    (onward : Laid volume uninit inode (place + count) rest) :
    Laid volume uninit inode place (count + rest) := by
  have position : filePosition volume uninit inode place =
      volume.blockSize * block + place % volume.blockSize := by
    rw [filePosition, found]
    exact Nat.mod_eq_of_lt (by omega)
  refine .run place count rest positive short (by rwa [position]) ?_
    (by rwa [position]) onward
  intro index within
  have behind : place + index = volume.blockSize *
      (place / volume.blockSize) + (place % volume.blockSize + index) := by
    rw [← Nat.add_assoc, Nat.div_add_mod]
  have small : place % volume.blockSize + index < volume.blockSize := by omega
  have quotient : (place + index) / volume.blockSize =
      place / volume.blockSize := by
    rw [behind, Nat.mul_add_div (Nat.zero_lt_of_lt small),
      Nat.div_eq_of_lt small, Nat.add_zero]
  have remainder : (place + index) % volume.blockSize =
      place % volume.blockSize + index := by
    rw [behind, Nat.mul_add_mod, Nat.mod_eq_of_lt small]
  have same : fileBlock volume uninit inode (place + index) = block := by
    rw [fileBlock, quotient]
    exact found
  rw [fileByte]
  simp only [same, if_neg some, remainder, position, Nat.add_assoc]

theorem laid_first {size : Nat} (laid : Laid volume uninit inode place size)
    (more : 0 < size) :
    ∃ count rest, count + rest = size ∧
      (∀ index < count,
        volume.image.byte (filePosition volume uninit inode place + index) =
          fileByte volume uninit inode (place + index)) ∧
      (rest = 0 ∨
        filePosition volume uninit inode place + count =
          volume.image.size) := by
  cases laid with
  | done => exact absurd more (Nat.lt_irrefl 0)
  | run _ count rest _ _ _ same last _ => exact ⟨count, rest, rfl, same, last⟩

end Runs

/-- A file of 2 KiB in two blocks. -/
def twoBlocks (first second : UInt8) : Memory := fun index =>
  if index = 5 then 8
  else if index = 40 then first
  else if index = 44 then second
  else 0

section TwoBlocks

variable (first second : UInt8) (uninit : Nat → Memory)

theorem twoBlocks_size :
    inodeFileSize treeVolume (twoBlocks first second) = 2048 := by
  simp [inodeFileSize, sFeatureRoCompat, iSize, Memory.load, treeVolume,
    twoBlocks]

theorem twoBlocks_block {place : Nat} (inside : place < 2048) :
    fileBlock treeVolume uninit (twoBlocks first second) place =
      if place < 1024 then first.toNat else second.toNat := by
  have index : place / 1024 < 12 := by omega
  have direct :=
    getInodeBlockNo_direct treeVolume uninit (twoBlocks first second) index
  change (getInodeBlockNo treeVolume uninit (twoBlocks first second)
    (place / 1024)).1 = _
  rw [direct]
  by_cases early : place < 1024
  · have zero : place / 1024 = 0 := Nat.div_eq_of_lt early
    simp [early, zero, iBlock, Memory.load, twoBlocks]
  · have one : place / 1024 = 1 := by omega
    simp [early, one, iBlock, Memory.load, twoBlocks]

end TwoBlocks

/-- The first of the blocks is the last one of the image: the read goes on at
the second. -/
theorem twoBlocks_correct :
    FileCorrect treeVolume (fun _ _ => 0) (twoBlocks 5 3) 1000 100 := by
  refine (@fileContent_correct treeVolume (fun _ _ => 0) (twoBlocks 5 3) 1000
    100 (by decide)).1 ?_
  have size : contentSize treeVolume (twoBlocks 5 3) 1000 100 = 24 + 76 := by
    rw [contentSize, twoBlocks_size]
    rfl
  have first : fileBlock treeVolume (fun _ _ => 0) (twoBlocks 5 3) 1000 = 5 :=
    twoBlocks_block 5 3 _ (by decide)
  have second : fileBlock treeVolume (fun _ _ => 0) (twoBlocks 5 3) 1024 = 3 :=
    twoBlocks_block 5 3 _ (by decide)
  constructor
  · refine ⟨?_, by decide, ?_, ?_⟩
    · rw [twoBlocks_size]
      decide
    · rw [size]
      decide
    · rw [size]
      have rest : Laid treeVolume (fun _ _ => 0) (twoBlocks 5 3) 1024 76 :=
        laid_of_block second (by decide) (by decide) (by decide) (by decide)
          (by decide) (by decide) (.inl rfl) (.done _)
      exact laid_of_block first (by decide) (by decide) (by decide)
        (by decide) (by decide) (by decide) (.inr rfl) rest
  · right
    rw [filePosition, first]
    decide

/-- In a file that lies in the blocks 3 and 5, what is behind block 3 is read
in place of block 5. -/
theorem twoBlocks_incorrect :
    Readable treeVolume (fun _ _ => 0) (twoBlocks 3 5) 0 2048 ∧
      ¬ ContentCorrect treeVolume (fun _ _ => 0) (twoBlocks 3 5) 0 2048 ∧
      ¬ BlockLimited treeVolume (fun _ _ => 0) (twoBlocks 3 5) 0 2048 := by
  have size : contentSize treeVolume (twoBlocks 3 5) 0 2048 = 2048 := by
    rw [contentSize, twoBlocks_size]
    rfl
  have start : filePosition treeVolume (fun _ _ => 0) (twoBlocks 3 5) 0 =
      3072 := by
    rw [filePosition, twoBlocks_block 3 5 _ (by decide)]
    rfl
  refine ⟨?_, ?_, ?_⟩
  · intro place _ inside
    rw [twoBlocks_block 3 5 _ (by omega)]
    split
    · change 3 ≠ invalidBlockNumber ∧
        (3 = 0 ∨ 1024 * 3 + place % 1024 < 6144)
      exact ⟨by decide, .inr (by omega)⟩
    · change 5 ≠ invalidBlockNumber ∧
        (5 = 0 ∨ 1024 * 5 + place % 1024 < 6144)
      exact ⟨by decide, .inr (by omega)⟩
  · intro correct
    obtain ⟨_, _, _, laid⟩ := contentSound_of_correct
      (by rw [twoBlocks_size]; decide) (by decide) correct
    rw [size] at laid
    obtain ⟨count, rest, total, same, last⟩ := laid_first laid (by decide)
    rw [start] at same last
    change _ ∨ 3072 + count = 6144 at last
    have byte := same 1024 (by omega)
    rw [fileByte, twoBlocks_block 3 5 _ (by decide)] at byte
    exact absurd byte (by decide)
  · rw [blockLimited_iff, BlockSound, start]
    decide

end SystemsLabs.Ext2
