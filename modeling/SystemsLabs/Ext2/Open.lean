import SystemsLabs.Ext2.Addressing

/-!
# Opening a volume

`open_volume_file` reads the superblock and the table of group descriptors and
checks nothing: neither how many bytes were read nor a single field.  It
returns a volume for every file, unless it divides by zero or shifts 1024 out
of the range of an `int`.
-/

namespace SystemsLabs.Ext2

def offsetSuperblock : Nat := 1024

/-- `sizeof(superblock_t)`. -/
def sizeofSuperblock : Nat := 204

/-- `sizeof(group_desc_t)`. -/
def sizeofGroupDesc : Nat := 32

/-- `EXT2_SUPER_MAGIC`. -/
def superMagic : Nat := 0xEF53

/-- The other members of `struct ext2volume`. -/
structure OpenVolume extends Volume where
  volumeSize : Nat
  numGroups : Nat

inductive Opening where
  /-- A division by zero, or a shift of 1024 by so many bits that the result is
  no `int`. -/
  | undefined
  | null
  | volume (volume : OpenVolume)

/-- Where the table of group descriptors is read; the product does not wrap. -/
def groupTable (blockSize : Nat) : Nat :=
  if 2048 ≤ blockSize then blockSize else blockSize * 2

/-- The superblock as it is read; `uninit` is the content of the memory
before. -/
def superblockRead (image : Image) (uninit : Memory) : Memory :=
  (pread image uninit 0 sizeofSuperblock offsetSuperblock).2

theorem shift_pos (bits : Nat) : 0 < 1024 <<< bits := by
  rw [Nat.shiftLeft_eq]
  exact Nat.mul_pos (by decide) (Nat.two_pow_pos bits)

theorem shift_lt {bits : Nat} (small : bits ≤ 20) : 1024 <<< bits < 2 ^ 32 := by
  have power : 2 ^ bits ≤ 2 ^ 20 := Nat.pow_le_pow_right (by decide) small
  rw [Nat.shiftLeft_eq]
  omega

/-- The volume for a superblock; `uninitGroups` is the content of the memory
that is allocated for the table. -/
def openedVolume (image : Image) (super uninitGroups : Memory)
    (shift : sLogBlockSize super ≤ 20) : OpenVolume :=
  let blockSize := 1024 <<< sLogBlockSize super
  let numGroups :=
    toUint32 (sBlocksCount super + sBlocksPerGroup super - 1) /
      sBlocksPerGroup super
  { image := image
    super := super
    blockSize := blockSize
    groups := (pread image uninitGroups 0 (sizeofGroupDesc * numGroups)
      (groupTable blockSize)).2
    blockSize_lt := shift_lt shift
    blockSize_pos := shift_pos _
    volumeSize := toUint32 (blockSize * sBlocksCount super : Nat)
    numGroups := numGroups }

/-- `file` is `none` when the file cannot be opened. -/
def openVolumeFile (file : Option Image) (uninit uninitGroups : Memory) :
    Opening :=
  match file with
  | none => .null
  | some image =>
      let super := superblockRead image uninit
      if defined : sLogBlockSize super ≤ 20 ∧ 0 < sBlocksPerGroup super then
        .volume (openedVolume image super uninitGroups defined.1)
      else .undefined

/-- The number of groups that cover the blocks from the first data block on. -/
def groupsNeeded (blocksCount firstDataBlock blocksPerGroup : Nat) : Nat :=
  (blocksCount - firstDataBlock + blocksPerGroup - 1) / blocksPerGroup

/-- What a volume that was opened should be. -/
structure Opens (image : Image) (volume : OpenVolume) : Prop where
  superWhole : offsetSuperblock + sizeofSuperblock ≤ image.size
  super : ∀ index, index < sizeofSuperblock →
    volume.super index = image.byte (offsetSuperblock + index)
  magic : sMagic volume.super = superMagic
  blockSize : volume.blockSize = 1024 * 2 ^ sLogBlockSize volume.super
  volumeSize : volume.volumeSize =
    volume.blockSize * sBlocksCount volume.super
  numGroups : volume.numGroups =
    groupsNeeded (sBlocksCount volume.super) (sFirstDataBlock volume.super)
      (sBlocksPerGroup volume.super)
  tableWhole : 0 < volume.numGroups → groupTable volume.blockSize +
    sizeofGroupDesc * volume.numGroups ≤ image.size
  table : ∀ index, index < sizeofGroupDesc * volume.numGroups →
    volume.groups index = image.byte (groupTable volume.blockSize + index)

/-- No undefined operation, and `NULL` or a volume that is as it should be. -/
inductive Opening.Right (image : Image) : Opening → Prop where
  | null : Right image .null
  | volume {opened : OpenVolume} (opens : Opens image opened) :
      Right image (.volume opened)

/-- The outcome for a file with the given content is right. -/
def OpensWell (image : Image) : Prop :=
  ∀ uninit uninitGroups,
    (openVolumeFile (some image) uninit uninitGroups).Right image

/-- The superblock in a file. -/
def superblock (image : Image) : Memory :=
  fun index => image.byte (offsetSuperblock + index)

/-- The quotient of the code is the number of groups: the last group begins
behind the first data block, or no group is needed and the sum wraps. -/
def GroupsExact (blocksCount firstDataBlock blocksPerGroup : Nat) : Prop :=
  (blocksCount + blocksPerGroup ≤ 2 ^ 32 ∧
      (blocksCount = 0 ∨
        firstDataBlock ≤ (blocksCount - 1) % blocksPerGroup)) ∨
    (2 ^ 32 < blocksCount + blocksPerGroup ∧ blocksCount ≤ firstDataBlock)

/-- The files that hold what the code takes for granted.  A table without
descriptors may be anywhere. -/
structure Openable (image : Image) : Prop where
  superWhole : offsetSuperblock + sizeofSuperblock ≤ image.size
  magic : sMagic (superblock image) = superMagic
  shift : sLogBlockSize (superblock image) ≤ 20
  perGroup : 0 < sBlocksPerGroup (superblock image)
  size : 1024 * 2 ^ sLogBlockSize (superblock image) *
    sBlocksCount (superblock image) < 2 ^ 32
  groups : GroupsExact (sBlocksCount (superblock image))
    (sFirstDataBlock (superblock image)) (sBlocksPerGroup (superblock image))
  tableWhole :
    0 < groupsNeeded (sBlocksCount (superblock image))
      (sFirstDataBlock (superblock image))
      (sBlocksPerGroup (superblock image)) →
    groupTable (1024 * 2 ^ sLogBlockSize (superblock image)) +
      sizeofGroupDesc * groupsNeeded (sBlocksCount (superblock image))
        (sFirstDataBlock (superblock image))
        (sBlocksPerGroup (superblock image)) ≤ image.size

section Arithmetic

variable {blocksCount firstDataBlock blocksPerGroup : Nat}

/-- Leaving out blocks at the front saves no group as long as they are fewer
than the last group has. -/
theorem div_sub_iff {last first perGroup : Nat} (inside : first ≤ last)
    (positive : 0 < perGroup) :
    last / perGroup = (last - first) / perGroup ↔ first ≤ last % perGroup := by
  have split := Nat.div_add_mod last perGroup
  have less : (last - first) / perGroup ≤ last / perGroup :=
    Nat.div_le_div_right (Nat.sub_le _ _)
  have reaches := @Nat.le_div_iff_mul_le perGroup (last / perGroup)
    (last - first) positive
  rw [Nat.mul_comm] at reaches
  generalize perGroup * (last / perGroup) = whole at *
  omega

theorem groupsNeeded_eq_zero_iff (positive : 0 < blocksPerGroup) :
    groupsNeeded blocksCount firstDataBlock blocksPerGroup = 0 ↔
      blocksCount ≤ firstDataBlock := by
  rw [groupsNeeded, Nat.div_eq_zero_iff]
  omega

theorem groupsNeeded_pos (inside : firstDataBlock < blocksCount)
    (positive : 0 < blocksPerGroup) :
    groupsNeeded blocksCount firstDataBlock blocksPerGroup =
      (blocksCount - 1 - firstDataBlock) / blocksPerGroup + 1 := by
  have shifted : blocksCount - firstDataBlock + blocksPerGroup - 1 =
      blocksCount - 1 - firstDataBlock + blocksPerGroup := by
    omega
  rw [groupsNeeded, shifted, Nat.add_div_right _ positive]

theorem numGroups_exact_iff (positive : 0 < blocksPerGroup)
    (countSmall : blocksCount < 2 ^ 32)
    (perGroupSmall : blocksPerGroup < 2 ^ 32) :
    toUint32 (blocksCount + blocksPerGroup - 1) / blocksPerGroup =
        groupsNeeded blocksCount firstDataBlock blocksPerGroup ↔
      GroupsExact blocksCount firstDataBlock blocksPerGroup := by
  rcases Nat.lt_or_ge (2 ^ 32) (blocksCount + blocksPerGroup) with wraps | fits
  · have reduced : toUint32 (blocksCount + blocksPerGroup - 1) <
        blocksPerGroup := by
      rw [toUint32]
      omega
    rw [Nat.div_eq_of_lt reduced, eq_comm, groupsNeeded_eq_zero_iff positive,
      GroupsExact]
    omega
  · have sum : toUint32 (blocksCount + blocksPerGroup - 1) =
        blocksCount + blocksPerGroup - 1 :=
      toUint32_of_nat _ (by omega) (by omega)
    rw [sum, GroupsExact]
    rcases Nat.eq_zero_or_pos blocksCount with rfl | some
    · have same : (0 + blocksPerGroup - 1) / blocksPerGroup =
          groupsNeeded 0 firstDataBlock blocksPerGroup := by
        rw [groupsNeeded, Nat.zero_sub]
      exact iff_of_true same (.inl ⟨fits, .inl rfl⟩)
    · have shifted : blocksCount + blocksPerGroup - 1 =
          blocksCount - 1 + blocksPerGroup := by
        omega
      rw [shifted, Nat.add_div_right _ positive]
      have bound := Nat.mod_le (blocksCount - 1) blocksPerGroup
      rcases Nat.lt_or_ge firstDataBlock blocksCount with inside | beyond
      · have exact := @div_sub_iff (blocksCount - 1) firstDataBlock
          blocksPerGroup (by omega) positive
        rw [groupsNeeded_pos inside positive, Nat.add_right_cancel_iff, exact]
        omega
      · rw [(groupsNeeded_eq_zero_iff positive).mpr beyond]
        refine iff_of_false (Nat.succ_ne_zero _) ?_
        omega

end Arithmetic

section Fields

variable {image : Image}

section Members

variable (image : Image) (super uninitGroups : Memory)
  (shift : sLogBlockSize super ≤ 20)

theorem openedVolume_super :
    (openedVolume image super uninitGroups shift).super = super := by
  simp only [openedVolume]

theorem openedVolume_blockSize :
    (openedVolume image super uninitGroups shift).blockSize =
      1024 * 2 ^ sLogBlockSize super := by
  simp only [openedVolume, Nat.shiftLeft_eq]

theorem openedVolume_volumeSize :
    (openedVolume image super uninitGroups shift).volumeSize =
      toUint32 (1024 * 2 ^ sLogBlockSize super * sBlocksCount super : Nat) := by
  simp only [openedVolume, Nat.shiftLeft_eq]

theorem openedVolume_numGroups :
    (openedVolume image super uninitGroups shift).numGroups =
      toUint32 (sBlocksCount super + sBlocksPerGroup super - 1) /
        sBlocksPerGroup super := by
  simp only [openedVolume]

theorem openedVolume_groups :
    (openedVolume image super uninitGroups shift).groups =
      (pread image uninitGroups 0
        (sizeofGroupDesc *
          (openedVolume image super uninitGroups shift).numGroups)
        (groupTable (1024 * 2 ^ sLogBlockSize super))).2 := by
  simp only [openedVolume, Nat.shiftLeft_eq]

end Members

/-- What the file has to hold for the volume to be as it should be. -/
theorem opens_iff_of_fields (super uninitGroups : Memory)
    (small : sLogBlockSize super ≤ 20)
    (superWhole : offsetSuperblock + sizeofSuperblock ≤ image.size)
    (bytes : ∀ index, index < sizeofSuperblock →
      super index = image.byte (offsetSuperblock + index))
    (fields : ∀ {address width}, address + width ≤ sizeofSuperblock →
      super.load address width = (superblock image).load address width)
    (perGroup : 0 < sBlocksPerGroup super) :
    Opens image (openedVolume image super uninitGroups small) ↔
      Openable image := by
  have magic : sMagic super = sMagic (superblock image) := fields (by decide)
  have shift : sLogBlockSize super = sLogBlockSize (superblock image) :=
    fields (by decide)
  have count : sBlocksCount super = sBlocksCount (superblock image) :=
    fields (by decide)
  have first : sFirstDataBlock super = sFirstDataBlock (superblock image) :=
    fields (by decide)
  have groupBlocks :
      sBlocksPerGroup super = sBlocksPerGroup (superblock image) :=
    fields (by decide)
  have groups := @numGroups_exact_iff (sBlocksCount super)
    (sFirstDataBlock super) (sBlocksPerGroup super) perGroup
    (super.load_lt 4 4) (super.load_lt 32 4)
  have blockSize := @openedVolume_blockSize image super uninitGroups small
  have numbers := @openedVolume_numGroups image super uninitGroups small
  have whole := @openedVolume_super image super uninitGroups small
  constructor
  · rintro ⟨_, _, magicRead, _, volumeSize, numGroups, tableWhole, _⟩
    rw [numGroups, blockSize, whole] at tableWhole
    rw [openedVolume_volumeSize, blockSize, whole, toUint32_natCast,
      Nat.mod_eq_iff_lt (by decide)] at volumeSize
    rw [whole] at magicRead numGroups
    refine ⟨superWhole, magic ▸ magicRead, shift ▸ small,
      groupBlocks ▸ perGroup, ?_, ?_, ?_⟩
    · rw [← shift, ← count]
      exact volumeSize
    · rw [← count, ← first, ← groupBlocks, ← groups, ← numbers, numGroups]
    · rw [← shift, ← count, ← first, ← groupBlocks]
      exact tableWhole
  · rintro ⟨_, magicRight, _, _, product, exact, tableWhole⟩
    rw [← shift] at product tableWhole
    rw [← count] at product exact tableWhole
    rw [← first, ← groupBlocks] at exact tableWhole
    rw [← groups, ← numbers] at exact
    rw [← exact, ← blockSize] at tableWhole
    refine ⟨superWhole, ?_, ?_, ?_, ?_, ?_, tableWhole, ?_⟩
    · rw [whole]
      exact bytes
    · rw [whole, magic, magicRight]
    · rw [whole, blockSize]
    · rw [openedVolume_volumeSize, whole, blockSize, toUint32_natCast,
        Nat.mod_eq_of_lt product]
    · rw [whole, exact]
    · intro index inside
      have some : 0 < (openedVolume image super uninitGroups
          small).numGroups := by
        by_contra none
        rw [Nat.eq_zero_of_not_pos none] at inside
        exact Nat.not_lt_zero index inside
      have byte := @pread_byte image uninitGroups 0 _ _ index inside
        (Nat.lt_of_lt_of_le (Nat.add_lt_add_left inside _) (tableWhole some))
      rw [Nat.zero_add] at byte
      rw [openedVolume_groups, ← blockSize]
      exact byte

theorem right_undefined_iff : Opening.Right image .undefined ↔ False := by
  refine ⟨?_, False.elim⟩
  intro right
  cases right

theorem right_volume_iff (opened : OpenVolume) :
    Opening.Right image (.volume opened) ↔ Opens image opened := by
  constructor
  · rintro (_ | opens)
    exact opens
  · exact .volume

theorem right_iff (image : Image) (uninit uninitGroups : Memory) :
    (openVolumeFile (some image) uninit uninitGroups).Right image ↔
      ∃ shift : sLogBlockSize (superblockRead image uninit) ≤ 20,
        0 < sBlocksPerGroup (superblockRead image uninit) ∧
        Opens image (openedVolume image (superblockRead image uninit)
          uninitGroups shift) := by
  by_cases defined : sLogBlockSize (superblockRead image uninit) ≤ 20 ∧
      0 < sBlocksPerGroup (superblockRead image uninit)
  · simp only [openVolumeFile, dif_pos defined, right_volume_iff]
    constructor
    · intro opens
      exact ⟨defined.1, defined.2, opens⟩
    · rintro ⟨_, _, opens⟩
      exact opens
  · simp only [openVolumeFile, dif_neg defined, right_undefined_iff, false_iff]
    rintro ⟨shift, perGroup, _⟩
    exact defined ⟨shift, perGroup⟩

theorem superblockRead_byte (whole : offsetSuperblock + sizeofSuperblock ≤
      image.size) (uninit : Memory) {index : Nat}
    (inside : index < sizeofSuperblock) :
    superblockRead image uninit index =
      image.byte (offsetSuperblock + index) := by
  have byte := @pread_byte image uninit 0 sizeofSuperblock offsetSuperblock
    index inside (by omega)
  rw [Nat.zero_add] at byte
  exact byte

theorem superblockRead_load (whole : offsetSuperblock + sizeofSuperblock ≤
      image.size) (uninit : Memory) {address width : Nat}
    (inside : address + width ≤ sizeofSuperblock) :
    (superblockRead image uninit).load address width =
      (superblock image).load address width := by
  apply Memory.load_congr
  intro position _ high
  exact superblockRead_byte whole uninit (by omega)

theorem opens_iff_openable (whole : offsetSuperblock + sizeofSuperblock ≤
      image.size) (uninit uninitGroups : Memory)
    (shift : sLogBlockSize (superblockRead image uninit) ≤ 20)
    (perGroup : 0 < sBlocksPerGroup (superblockRead image uninit)) :
    Opens image (openedVolume image (superblockRead image uninit)
        uninitGroups shift) ↔ Openable image :=
  opens_iff_of_fields (superblockRead image uninit) uninitGroups shift whole
    (fun _ => superblockRead_byte whole uninit)
    (superblockRead_load whole uninit) perGroup

theorem openable_of_opensWell (well : OpensWell image) : Openable image := by
  simp only [OpensWell, right_iff] at well
  obtain ⟨shift, perGroup, opens⟩ := well (fun _ => 0) (fun _ => 0)
  rwa [opens_iff_openable opens.superWhole _ _ shift perGroup] at opens

theorem opensWell_of_openable (openable : Openable image) :
    OpensWell image := by
  intro uninit uninitGroups
  have whole := openable.superWhole
  have shift : sLogBlockSize (superblockRead image uninit) ≤ 20 :=
    (superblockRead_load whole uninit (by decide)).trans_le openable.shift
  have perGroup : 0 < sBlocksPerGroup (superblockRead image uninit) :=
    openable.perGroup.trans_eq
      (superblockRead_load whole uninit (by decide)).symm
  rw [right_iff]
  exact ⟨shift, perGroup,
    (opens_iff_openable whole uninit uninitGroups shift perGroup).mpr
      openable⟩

end Fields

/-- `open_volume_file` ends with `NULL` or a volume that is as it should be
for the files that hold what it takes for granted, and for no other file. -/
theorem opensWell_iff_openable (image : Image) :
    OpensWell image ↔ Openable image := by
  constructor
  · exact openable_of_opensWell
  · exact opensWell_of_openable

/-- A file of 4 KiB with the superblock of a volume of blocks of 1 KiB, of
which block 0 is in no group and a group has eight. -/
def fileWithSuper (blocksCount magic : UInt8) : Image :=
  { size := 4096
    byte := fun place =>
      if place = 1028 then blocksCount
      else if place = 1044 then 1
      else if place = 1056 then 8
      else if place = 1080 then magic
      else if place = 1081 then 0xEF
      else 0 }

example : Openable (fileWithSuper 16 0x53) where
  superWhole := by decide
  magic := by decide +kernel
  shift := by decide +kernel
  perGroup := by decide +kernel
  size := by decide +kernel
  groups := by
    rw [GroupsExact]
    decide +kernel
  tableWhole := by decide +kernel

/-- A volume without blocks; the file ends where its table would begin. -/
example : Openable { fileWithSuper 0 0x53 with size := 1500 } where
  superWhole := by decide
  magic := by decide +kernel
  shift := by decide +kernel
  perGroup := by decide +kernel
  size := by decide +kernel
  groups := by
    rw [GroupsExact]
    decide +kernel
  tableWhole := by decide +kernel

/-- The same with blocks of 2 GiB. -/
def hugeBlocks : Image :=
  { fileWithSuper 0 0x53 with
    byte := Function.update (fileWithSuper 0 0x53).byte 1048 21 }

/-- An empty file, a file of zeros and a wrong magic number are not refused,
for 17 blocks three groups are counted where two cover them, and the size of a
block of 2 GiB is no `int`. -/
theorem openVolumeFile_unchecked :
    ¬OpensWell ⟨0, fun _ => 0⟩ ∧ ¬OpensWell ⟨4096, fun _ => 0⟩ ∧
      ¬OpensWell (fileWithSuper 16 0x54) ∧
      ¬OpensWell (fileWithSuper 17 0x53) ∧ ¬OpensWell hugeBlocks := by
  refine ⟨?_, ?_, ?_, ?_, ?_⟩
  · intro well
    exact absurd (openable_of_opensWell well).superWhole (by decide)
  · intro well
    exact absurd (openable_of_opensWell well).perGroup (by decide +kernel)
  · intro well
    exact absurd (openable_of_opensWell well).magic (by decide +kernel)
  · intro well
    have groups := (openable_of_opensWell well).groups
    rw [GroupsExact] at groups
    exact absurd groups (by decide +kernel)
  · intro well
    exact absurd (openable_of_opensWell well).shift (by decide +kernel)

end SystemsLabs.Ext2
