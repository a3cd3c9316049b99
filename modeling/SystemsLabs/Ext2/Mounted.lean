import SystemsLabs.Ext2.Open
import SystemsLabs.Ext2.InodeRecord
import SystemsLabs.Ext2.Blockwise

/-!
# From the bytes of an image to the content of a file

`diskVolume` and `diskInode` are the volume and the inode that an image holds by
the format of the disk.  Opening the image, reading the inode and then reading
the file block by block gives the content that the format gives the file.
-/

namespace SystemsLabs.Ext2

/-- The volume on an image. -/
def diskVolume (image : Image) (openable : Openable image) : Volume where
  image := image
  super := superblock image
  blockSize := 1024 * 2 ^ sLogBlockSize (superblock image)
  groups index := image.byte
    (groupTable (1024 * 2 ^ sLogBlockSize (superblock image)) + index)
  blockSize_lt := by
    rw [← Nat.shiftLeft_eq]
    exact shift_lt openable.shift
  blockSize_pos := Nat.mul_pos (by decide) (Nat.two_pow_pos _)

/-- The record of an inode on an image. -/
def diskInode (image : Image) (openable : Openable image) (inodeNo : Nat) :
    Memory :=
  fun index =>
    image.byte (inodePosition (diskVolume image openable) inodeNo + index)

/-- An image with a file that the program can get at. -/
structure HasFile (image : Image) (inodeNo : Nat) : Prop where
  openable : Openable image
  perGroup : 0 < sInodesPerGroup (superblock image)
  covers : sInodesCount (superblock image) ≤
    groupsNeeded (sBlocksCount (superblock image))
        (sFirstDataBlock (superblock image))
        (sBlocksPerGroup (superblock image)) *
      sInodesPerGroup (superblock image)
  sound : InodeSound (diskVolume image openable) inodeNo
  whole : inodePosition (diskVolume image openable) inodeNo + sizeofInode ≤
    image.size
  stored : Stored (diskVolume image openable)
    (diskInode image openable inodeNo)

section Formats

/-- Two volumes on one image with the same superblock and the same first
`numGroups` groups. -/
structure SameFormat (numGroups : Nat) (volume other : Volume) : Prop where
  image : other.image = volume.image
  blockSize : other.blockSize = volume.blockSize
  super : ∀ {address width}, address + width ≤ sizeofSuperblock →
    other.super.load address width = volume.super.load address width
  groups : SameTable numGroups volume.groups other.groups

variable {numGroups inodeNo : Nat} {volume other : Volume} {inode : Memory}

theorem SameFormat.inodeFileSize (same : SameFormat numGroups volume other) :
    inodeFileSize other inode = inodeFileSize volume inode := by
  have feature : sFeatureRoCompat other.super =
      sFeatureRoCompat volume.super := same.super (by decide)
  rw [Ext2.inodeFileSize, Ext2.inodeFileSize, feature]

theorem SameFormat.readFileBlock (same : SameFormat numGroups volume other)
    (uninit : Nat → Memory) (offset maxSize : Nat) (memory : Memory)
    (buffer : Nat) :
    readFileBlock other uninit inode offset maxSize memory buffer =
      readFileBlock volume uninit inode offset maxSize memory buffer := by
  obtain ⟨image, blockSize, -, -⟩ := same
  obtain ⟨_, _, _, _, _, _⟩ := volume
  obtain ⟨_, _, _, _, _, _⟩ := other
  dsimp only at image blockSize
  subst image blockSize
  rfl

theorem SameFormat.readFileContent (same : SameFormat numGroups volume other)
    (fuel : Nat) (uninit : Nat → Memory) (offset maxSize : Nat)
    (memory : Memory) (buffer : Nat) :
    readFileContent fuel other uninit inode offset maxSize memory buffer =
      readFileContent fuel volume uninit inode offset maxSize memory
        buffer := by
  have loops : ∀ size fuel readSoFar memory,
      contentLoop other uninit inode offset size buffer fuel readSoFar memory =
        contentLoop volume uninit inode offset size buffer fuel readSoFar
          memory := by
    intro size fuel
    induction fuel with
    | zero =>
        intro readSoFar memory
        rfl
    | succ fuel ih =>
        intro readSoFar memory
        rw [contentLoop, contentLoop, same.readFileBlock]
        simp only [ih]
  rw [Ext2.readFileContent, Ext2.readFileContent, same.inodeFileSize]
  exact loops _ fuel 0 memory

theorem SameFormat.inodePosition (same : SameFormat numGroups volume other)
    (inside : inodeGroup volume inodeNo < numGroups) :
    inodePosition other inodeNo = inodePosition volume inodeNo := by
  have perGroup : sInodesPerGroup other.super = sInodesPerGroup volume.super :=
    same.super (by decide)
  have size : sInodeSize other.super = sInodeSize volume.super :=
    same.super (by decide)
  have table := bgInodeTable_congr same.groups inside
  rw [Ext2.inodePosition, inodeGroup, inodeIndex, perGroup, size,
    same.blockSize]
  rw [inodeGroup] at table
  rw [table]
  rfl

theorem SameFormat.inodeSound (same : SameFormat numGroups volume other)
    (covers : sInodesCount volume.super ≤
      numGroups * sInodesPerGroup volume.super)
    (sound : InodeSound volume inodeNo) : InodeSound other inodeNo := by
  have count : sInodesCount other.super = sInodesCount volume.super :=
    same.super (by decide)
  have perGroup : sInodesPerGroup other.super = sInodesPerGroup volume.super :=
    same.super (by decide)
  have size : sInodeSize other.super = sInodeSize volume.super :=
    same.super (by decide)
  have position := same.inodePosition (inodeGroup_lt sound.valid covers)
  refine ⟨⟨sound.valid.1, ?_⟩, ?_, ?_, ?_⟩
  · rw [count]
    exact sound.valid.2
  · rw [size]
    exact sound.exactly
  · rw [inodeGroup, perGroup]
    exact sound.group
  · rw [position]
    exact sound.low

theorem SameFormat.readsTo {record memory final : Memory} {buffer offset : Nat}
    (same : SameFormat numGroups volume other) (copied : SameInode record inode)
    (reads : ReadsTo other record buffer memory offset final) :
    ReadsTo volume inode buffer memory offset final := by
  induction reads with
  | start => exact .start
  | read before inBlock uninit reads ih =>
      rw [same.blockSize] at inBlock
      rw [same.readFileContent, readFileContent_congr copied] at reads
      exact .read ih inBlock uninit reads

end Formats

section Mounting

variable {image : Image} {inodeNo : Nat}

/-- The volume that is opened is the one on the image. -/
theorem opened_sameFormat (openable : Openable image)
    (uninit uninitGroups : Memory) :
    ∃ opened, openVolumeFile (some image) uninit uninitGroups =
        .volume opened ∧
      SameFormat
        (groupsNeeded (sBlocksCount (superblock image))
          (sFirstDataBlock (superblock image))
          (sBlocksPerGroup (superblock image)))
        (diskVolume image openable) opened.toVolume := by
  have right := opensWell_of_openable openable uninit uninitGroups
  rw [right_iff] at right
  obtain ⟨small, perGroup, opens⟩ := right
  have whole := openable.superWhole
  have fields : ∀ {address width}, address + width ≤ sizeofSuperblock →
      (superblockRead image uninit).load address width =
        (superblock image).load address width :=
    superblockRead_load whole uninit
  have shift : sLogBlockSize (superblockRead image uninit) =
      sLogBlockSize (superblock image) := fields (by decide)
  have blockSize := opens.blockSize
  rw [openedVolume_super, shift] at blockSize
  have numGroups := opens.numGroups
  rw [openedVolume_super] at numGroups
  have count : sBlocksCount (superblockRead image uninit) =
      sBlocksCount (superblock image) := fields (by decide)
  have first : sFirstDataBlock (superblockRead image uninit) =
      sFirstDataBlock (superblock image) := fields (by decide)
  have blocks : sBlocksPerGroup (superblockRead image uninit) =
      sBlocksPerGroup (superblock image) := fields (by decide)
  rw [count, first, blocks] at numGroups
  refine ⟨openedVolume image (superblockRead image uninit) uninitGroups small,
    ?_, ?_⟩
  · simp only [openVolumeFile, dif_pos (And.intro small perGroup)]
  · refine ⟨rfl, blockSize, ?_, ?_⟩
    · intro address width inside
      rw [openedVolume_super]
      exact fields inside
    · intro position inside
      have byte := opens.table position (by
        rw [numGroups]
        exact inside)
      rw [blockSize] at byte
      exact byte

/-- Reading an inode of a volume block by block gives the file of a record. -/
structure Serves (volume : Volume) (inode : Memory) (disk : Volume)
    (record : Memory) : Prop where
  holds : ∀ {buffer start offset final},
    ReadsTo volume inode buffer start offset final →
      HoldsFile disk record buffer start offset final
  answers : ∀ {buffer start offset final},
    ReadsTo volume inode buffer start offset final →
      ∀ uninit size, size ≤ volume.blockSize - offset % volume.blockSize →
        ∃ fuel last,
          readFileContent fuel volume uninit inode offset size final
              (buffer + offset) =
            some (((min size (inodeFileSize disk record - offset) : Nat) : Int),
              last)

theorem SameFormat.serves {numGroups : Nat} {volume other : Volume}
    {inode record : Memory} (same : SameFormat numGroups volume other)
    (copied : SameInode inode record) (stored : Stored volume record) :
    Serves other inode volume record := by
  constructor
  · intro buffer start offset final reads
    exact (same.readsTo copied reads).holdsFile stored
  · intro buffer start offset final reads uninit size inBlock
    have holds := (same.readsTo copied reads).holdsFile stored
    rw [same.blockSize] at inBlock
    obtain ⟨fuel, last, served, _⟩ :=
      stored.reads holds.inside inBlock uninit final (buffer + offset)
    refine ⟨fuel, last, ?_⟩
    rw [same.readFileContent, readFileContent_congr copied]
    exact served

/-- The program opens the image and reads the inode of the file, and reading
block by block gives the file on the image, whatever the memory held before. -/
theorem mounted_reads (has : HasFile image inodeNo)
    (uninit uninitGroups : Memory) :
    ∃ opened, openVolumeFile (some image) uninit uninitGroups =
        .volume opened ∧
      ∀ memory pointer, ∃ result loaded,
        readInode opened.toVolume inodeNo memory pointer =
            some (result, loaded) ∧
          memory.SameOutside pointer (pointer + sizeofInode) loaded ∧
          Serves opened.toVolume (fun index => loaded (pointer + index))
            (diskVolume image has.openable)
            (diskInode image has.openable inodeNo) := by
  obtain ⟨openable, perGroup, covers, sound, whole, stored⟩ := has
  obtain ⟨opened, opens, same⟩ :=
    opened_sameFormat openable uninit uninitGroups
  refine ⟨opened, opens, ?_⟩
  intro memory pointer
  have inodesPerGroup : sInodesPerGroup opened.super =
      sInodesPerGroup (superblock image) := same.super (by decide)
  have count : sInodesCount opened.super = sInodesCount (superblock image) :=
    same.super (by decide)
  have position := same.inodePosition (inodeGroup_lt sound.valid covers)
  have openedSound := same.inodeSound covers sound
  rw [← inodesPerGroup] at perGroup covers
  rw [← count] at covers
  have correct := inodeCorrect_of_sound openedSound perGroup covers
  obtain ⟨result, loaded, read, bytes, kept⟩ :=
    (correct opened.image opened.groups memory pointer fun _ _ => rfl).1
      openedSound.valid (by
        rw [position, openedSound.exactly, same.image]
        exact whole)
  refine ⟨result, loaded, read, kept, same.serves ?_ stored⟩
  intro index inside
  dsimp only
  rw [bytes index inside, position, same.image]
  rfl

end Mounting

/-- Seven blocks of 1 KiB; inode 2 has a file of 2 KiB in the blocks 6 and 5. -/
def smallImage : Image where
  size := 7168
  byte place :=
    if place = 1024 then 16
    else if place = 1028 then 16
    else if place = 1044 then 1
    else if place = 1056 then 8
    else if place = 1064 then 8
    else if place = 1080 then 0x53
    else if place = 1081 then 0xEF
    else if place = 1112 then 128
    else if place = 2056 then 3
    else if place = 2088 then 4
    else if place = 3205 then 8
    else if place = 3240 then 6
    else if place = 3244 then 5
    else 0

theorem smallImage_openable : Openable smallImage where
  superWhole := by decide
  magic := by decide +kernel
  shift := by decide +kernel
  perGroup := by decide +kernel
  size := by decide +kernel
  groups := by
    rw [GroupsExact]
    decide +kernel
  tableWhole := by decide +kernel

theorem smallImage_hasFile : HasFile smallImage 2 where
  openable := smallImage_openable
  perGroup := by decide +kernel
  covers := by decide +kernel
  sound := ⟨⟨by decide, by decide +kernel⟩, by decide +kernel,
    by decide +kernel, by decide +kernel⟩
  whole := by decide +kernel
  stored := by
    have size : inodeFileSize (diskVolume smallImage smallImage_openable)
        (diskInode smallImage smallImage_openable 2) = 2048 := by
      decide +kernel
    have blockSize : (diskVolume smallImage smallImage_openable).blockSize =
        1024 := by
      decide +kernel
    refine ⟨by decide +kernel, .inr (by decide +kernel), by decide +kernel, ?_⟩
    intro place inside
    rw [size] at inside
    rw [blockSize]
    have direct : place / 1024 < 12 := by omega
    refine ⟨(iBlock _ (place / 1024), []), if_pos direct, ?_⟩
    have which : place / 1024 = 0 ∨ place / 1024 = 1 := by omega
    rcases which with first | second
    · rw [first]
      exact ⟨by decide +kernel, by decide +kernel, by decide +kernel⟩
    · rw [second]
      exact ⟨by decide +kernel, by decide +kernel, by decide +kernel⟩

theorem smallImage_reads :
    ∃ opened inode,
      openVolumeFile (some smallImage) (fun _ => 0xFF) (fun _ => 0xFF) =
          .volume opened ∧
        Serves opened.toVolume inode (diskVolume smallImage smallImage_openable)
          (diskInode smallImage smallImage_openable 2) := by
  obtain ⟨opened, opens, reads⟩ :=
    mounted_reads smallImage_hasFile (fun _ => 0xFF) fun _ => 0xFF
  obtain ⟨result, loaded, read, kept, serves⟩ := reads (fun _ => 0xFF) 0
  exact ⟨opened, _, opens, serves⟩

end SystemsLabs.Ext2
