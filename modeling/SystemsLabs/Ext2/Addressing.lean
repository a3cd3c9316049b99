import SystemsLabs.Ext2.Content

/-!
# The byte position of a block

`read_block` computes the position of a block in `uint32_t`.  It is the exact
one below 4 GiB and for no other block; block 0, which stands for a hole, is
read from the start of the image.  The readers of inodes, indirect blocks and
files reach the blocks they name under the same condition.
-/

namespace SystemsLabs.Ext2

/-- The geometry of a volume with another file behind it. -/
def Volume.withImage (volume : Volume) (image : Image) : Volume :=
  { volume with image := image }

/-- What a read in a block is for: zeros for block 0, else the bytes at the
exact position. -/
def exactRead (volume : Volume) (blockNo offset size : Nat) (memory : Memory)
    (buffer : Nat) : Int × Memory :=
  if blockNo = 0 then (size, memory.copy buffer (fun _ => 0) 0 size)
  else
    pread volume.image memory buffer size (volume.blockSize * blockNo + offset)

/-- The position that `read_block` passes to `pread`. -/
def blockPosition (volume : Volume) (blockNo offset : Nat) : Nat :=
  (volume.blockSize * blockNo + offset) % 2 ^ 32

theorem readBlock_eq (volume : Volume) (blockNo offset size : Nat)
    (memory : Memory) (buffer : Nat) :
    readBlock volume blockNo offset size memory buffer =
      pread volume.image memory buffer size
        (blockPosition volume blockNo offset) := rfl

/-- The number of the group of an inode, and its index in the group. -/
def inodeGroup (volume : Volume) (inodeNo : Nat) : Nat :=
  (inodeNo - 1) / sInodesPerGroup volume.super

def inodeIndex (volume : Volume) (inodeNo : Nat) : Nat :=
  (inodeNo - 1) % sInodesPerGroup volume.super

/-- A read of `size` bytes at `offset` of a block is exact, whatever the image
contains, also when it is made for an inode, an entry of an indirect block or
a file. -/
structure Reaches (volume : Volume) (blockNo offset size : Nat) : Prop where
  block : ∀ image memory buffer,
    readBlock (volume.withImage image) blockNo offset size memory buffer =
      exactRead (volume.withImage image) blockNo offset size memory buffer
  inode : ∀ inodeNo image memory buffer, 1 ≤ inodeNo → inodeNo < 2 ^ 32 →
    0 < sInodesPerGroup volume.super → inodeGroup volume inodeNo < 2 ^ 31 →
    bgInodeTable volume.groups (inodeGroup volume inodeNo) = blockNo →
    inodeIndex volume inodeNo * sInodeSize volume.super = offset →
    sInodeSize volume.super = size →
    readInode (volume.withImage image) inodeNo memory buffer =
      some (exactRead (volume.withImage image) blockNo offset size memory
        buffer)
  entry : ∀ index image uninit, 4 * index = offset → size = 4 →
    readIndBlockEntry (volume.withImage image) uninit blockNo index =
      let (count, buffer) :=
        exactRead (volume.withImage image) blockNo offset size uninit 0
      if 0 < count then buffer.load 0 4 else invalidBlockNumber
  file : ∀ place maxSize image uninit inode memory buffer,
    fileBlock (volume.withImage image) uninit inode place = blockNo →
    place % volume.blockSize = offset → maxSize % 2 ^ 32 = size →
    readFileBlock (volume.withImage image) uninit inode place maxSize memory
        buffer =
      exactRead (volume.withImage image) blockNo offset size memory buffer

/-- The block is not a hole, and the byte lies below 4 GiB. -/
def Addressable (volume : Volume) (blockNo offset : Nat) : Prop :=
  blockNo ≠ 0 ∧ volume.blockSize * blockNo + offset < 2 ^ 32

section Position

variable {volume : Volume} {blockNo offset size : Nat}

theorem blockPosition_of_addressable
    (addressable : Addressable volume blockNo offset) :
    blockPosition volume blockNo offset =
      volume.blockSize * blockNo + offset :=
  Nat.mod_eq_of_lt addressable.2

theorem blockPosition_injective {other otherOffset : Nat}
    (inside : offset < volume.blockSize)
    (otherInside : otherOffset < volume.blockSize)
    (addressable : Addressable volume blockNo offset)
    (otherAddressable : Addressable volume other otherOffset)
    (same : blockPosition volume blockNo offset =
      blockPosition volume other otherOffset) :
    blockNo = other ∧ offset = otherOffset := by
  rw [blockPosition_of_addressable addressable,
    blockPosition_of_addressable otherAddressable] at same
  have positive : 0 < volume.blockSize := Nat.zero_lt_of_lt inside
  have numbers := congrArg (· / volume.blockSize) same
  have offsets := congrArg (· % volume.blockSize) same
  simp only [Nat.mul_add_div positive, Nat.div_eq_of_lt inside,
    Nat.div_eq_of_lt otherInside, Nat.add_zero] at numbers
  simp only [Nat.mul_add_mod, Nat.mod_eq_of_lt inside,
    Nat.mod_eq_of_lt otherInside] at offsets
  exact ⟨numbers, offsets⟩

/-- The index in the group is kept in an `int`, and so is its product with the
size of an inode: modulo 4 GiB both are exact. -/
theorem toUint32_index (index inodeSize : Nat) :
    toUint32 (toInt (toInt index * inodeSize)) =
      index * inodeSize % 2 ^ 32 := by
  rw [toUint32_toInt, toUint32, Int.mul_emod, toInt_emod, ← Int.mul_emod,
    ← Int.natCast_mul]
  omega

theorem readInode_eq {inodeNo : Nat} (first : 1 ≤ inodeNo)
    (small : inodeNo < 2 ^ 32) (perGroup : 0 < sInodesPerGroup volume.super)
    (group : inodeGroup volume inodeNo < 2 ^ 31) (memory : Memory)
    (buffer : Nat) :
    readInode volume inodeNo memory buffer =
      some (readBlock volume
        (bgInodeTable volume.groups (inodeGroup volume inodeNo))
        (inodeIndex volume inodeNo * sInodeSize volume.super % 2 ^ 32)
        (sInodeSize volume.super) memory buffer) := by
  have number : toUint32 ((inodeNo : Int) - 1) = inodeNo - 1 :=
    toUint32_of_nat _ (by omega) (by omega)
  have blockGroup : toInt (inodeGroup volume inodeNo) =
      inodeGroup volume inodeNo :=
    toInt_of_nat _ rfl group
  rw [readInode, number]
  change (if sInodesPerGroup volume.super = 0 ∨
      toInt (inodeGroup volume inodeNo) < 0 then none
    else some (readBlock volume
      (bgInodeTable volume.groups (toInt (inodeGroup volume inodeNo)).toNat)
      (toUint32 (toInt (toInt (inodeIndex volume inodeNo) *
        sInodeSize volume.super))) _ memory buffer)) = _
  rw [blockGroup, toUint32_index, if_neg (by omega), Int.toNat_natCast]

theorem reaches_of_block (small : offset < 2 ^ 32)
    (block : ∀ image memory buffer,
      readBlock (volume.withImage image) blockNo offset size memory buffer =
        exactRead (volume.withImage image) blockNo offset size memory
          buffer) :
    Reaches volume blockNo offset size := by
  refine ⟨block, ?_, ?_, ?_⟩
  · intro inodeNo image memory buffer first inodeSmall perGroup group table
      place width
    have call := @readInode_eq (volume.withImage image) inodeNo first
      inodeSmall perGroup group memory buffer
    change _ = some (readBlock _
      (bgInodeTable volume.groups (inodeGroup volume inodeNo))
      (inodeIndex volume inodeNo * sInodeSize volume.super % 2 ^ 32)
      (sInodeSize volume.super) memory buffer) at call
    rw [call, table, place, width, Nat.mod_eq_of_lt small, block]
  · intro index image uninit place width
    subst width
    rw [readIndBlockEntry, place, Nat.mod_eq_of_lt small, block]
  · intro place maxSize image uninit inode memory buffer named inBlock width
    have cut : toUint32 (maxSize : Int) = size := by
      rw [toUint32]
      omega
    have call : readFileBlock (volume.withImage image) uninit inode place
        maxSize memory buffer =
          readBlock (volume.withImage image)
            (fileBlock (volume.withImage image) uninit inode place)
            (place % volume.blockSize) (toUint32 maxSize) memory buffer := rfl
    rw [call, named, inBlock, cut, block]

theorem readBlock_exact (addressable : Addressable volume blockNo offset)
    (image : Image) (memory : Memory) (buffer : Nat) :
    readBlock (volume.withImage image) blockNo offset size memory buffer =
      exactRead (volume.withImage image) blockNo offset size memory
        buffer := by
  have position : blockPosition (volume.withImage image) blockNo offset =
      volume.blockSize * blockNo + offset :=
    blockPosition_of_addressable addressable
  rw [readBlock_eq, position, exactRead, if_neg addressable.1]
  rfl

theorem readBlock_nothing (image : Image) (memory : Memory) (buffer : Nat) :
    readBlock (volume.withImage image) blockNo offset 0 memory buffer =
      exactRead (volume.withImage image) blockNo offset 0 memory buffer := by
  rw [readBlock_eq, exactRead, pread, pread]
  simp only [Nat.zero_min, Memory.copy_nothing]
  split <;> rfl

theorem pread_byte {image : Image} {memory : Memory}
    {buffer count position index : Nat} (inside : index < count)
    (within : position + index < image.size) :
    (pread image memory buffer count position).2 (buffer + index) =
      image.byte (position + index) := by
  have read : index < min count (image.size - position) := by omega
  exact Memory.copy_inside memory image.byte buffer position read

/-- An image with one byte that is not zero. -/
def markedImage (size position : Nat) : Image :=
  { size := size, byte := fun place => if place = position then 1 else 0 }

/-- What is not addressable is read in the wrong place. -/
theorem addressable_of_exact (positive : 0 < size)
    (exactly : ∀ image memory buffer,
      readBlock (volume.withImage image) blockNo offset size memory buffer =
        exactRead (volume.withImage image) blockNo offset size memory
          buffer) :
    Addressable volume blockNo offset := by
  have named : blockNo ≠ 0 := by
    rintro rfl
    have empty := congrArg Prod.fst (exactly ⟨0, fun _ => 0⟩ (fun _ => 0) 0)
    have count : ((min size 0 : Nat) : Int) = size := by
      simpa [readBlock_eq, pread, exactRead, Volume.withImage] using empty
    omega
  refine ⟨named, ?_⟩
  by_contra high
  generalize exact : volume.blockSize * blockNo + offset = position at high
  let image := markedImage (position + 1) (position % 2 ^ 32)
  have wrapped : readBlock (volume.withImage image) blockNo offset size
      (fun _ => 0) 0 =
        pread image (fun _ => 0) 0 size (position % 2 ^ 32) := by
    rw [← exact]
    rfl
  have wanted : exactRead (volume.withImage image) blockNo offset size
      (fun _ => 0) 0 = pread image (fun _ => 0) 0 size position := by
    rw [exactRead, if_neg named, ← exact]
    rfl
  have bytes := exactly image (fun _ => 0) 0
  rw [wrapped, wanted] at bytes
  have first := congrFun (congrArg Prod.snd bytes) (0 + 0)
  have less : position % 2 ^ 32 + 0 < position + 1 :=
    Nat.lt_succ_of_le (Nat.mod_le _ _)
  rw [pread_byte positive less, pread_byte positive (Nat.lt_succ_self _)]
    at first
  have same : position = position % 2 ^ 32 := by
    simpa [image, markedImage] using first
  omega

/-- A read is exact when it reads nothing or its first byte is addressable. -/
theorem reaches_iff (small : offset < 2 ^ 32) :
    Reaches volume blockNo offset size ↔
      size = 0 ∨ Addressable volume blockNo offset := by
  constructor
  · intro reaches
    rcases Nat.eq_zero_or_pos size with nothing | positive
    · exact .inl nothing
    · exact .inr (addressable_of_exact positive reaches.block)
  · rintro (rfl | addressable)
    · exact reaches_of_block small readBlock_nothing
    · exact reaches_of_block small (readBlock_exact addressable)

end Position

/-- Every read of a block, and every read that is made through it, is exact if
and only if it reads nothing or begins in a block other than 0 below 4 GiB;
no byte of the image is read for two positions of this kind. -/
theorem readBlock_addressing (volume : Volume) {blockNo offset size : Nat}
    (small : offset < 2 ^ 32) :
    (Reaches volume blockNo offset size ↔
      size = 0 ∨ Addressable volume blockNo offset) ∧
    ∀ other otherOffset, offset < volume.blockSize →
      otherOffset < volume.blockSize →
      Addressable volume blockNo offset →
      Addressable volume other otherOffset →
      blockPosition volume blockNo offset =
        blockPosition volume other otherOffset →
      blockNo = other ∧ offset = otherOffset := by
  refine ⟨reaches_iff small, ?_⟩
  intro other otherOffset inside otherInside addressable otherAddressable
  exact blockPosition_injective inside otherInside addressable
    otherAddressable

/-- A volume of 8 GiB in blocks of 1 KiB. -/
def wideVolume : Volume where
  image := ⟨2 ^ 33, fun _ => 0⟩
  super := fun index => if index = 6 then 128 else 0
  blockSize := 1024
  groups := fun _ => 0
  blockSize_lt := treeVolume.blockSize_lt
  blockSize_pos := treeVolume.blockSize_pos

theorem wideVolume_addressing :
    (Reaches wideVolume 5 100 924 ↔
      924 = 0 ∨ Addressable wideVolume 5 100) ∧
    ∀ other otherOffset, 100 < wideVolume.blockSize →
      otherOffset < wideVolume.blockSize →
      Addressable wideVolume 5 100 →
      Addressable wideVolume other otherOffset →
      blockPosition wideVolume 5 100 =
        blockPosition wideVolume other otherOffset →
      5 = other ∧ 100 = otherOffset :=
  readBlock_addressing wideVolume (by decide)

/-- The first block behind 4 GiB is read from where block 1 is, and block 0 is
read from the image. -/
theorem wideVolume_wraps :
    2 ^ 22 + 1 < sBlocksCount wideVolume.super ∧
      ¬Reaches wideVolume (2 ^ 22 + 1) 0 1024 ∧
      blockPosition wideVolume (2 ^ 22 + 1) 0 =
        blockPosition wideVolume 1 0 ∧
      ¬Reaches wideVolume 0 0 1024 := by
  have high : ¬Addressable wideVolume (2 ^ 22 + 1) 0 := fun addressable =>
    absurd addressable.2 (by decide)
  have hole : ¬Addressable wideVolume 0 0 := fun addressable =>
    addressable.1 rfl
  refine ⟨by decide +kernel, ?_, by decide, ?_⟩
  · intro reaches
    exact high (addressable_of_exact (by decide) reaches.block)
  · intro reaches
    exact hole (addressable_of_exact (by decide) reaches.block)

end SystemsLabs.Ext2
