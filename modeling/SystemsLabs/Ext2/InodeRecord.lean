import SystemsLabs.Ext2.Addressing

/-!
# The record of an inode

`read_inode` copies as many bytes as a record on the disk has into a structure
of 128 bytes, and it checks neither the number of the inode nor the position.
It reads the right record for the numbers of the volume whose records have 128
bytes and lie below 4 GiB, and never reports a number that is out of range.
-/

namespace SystemsLabs.Ext2

/-- The exact position of the record of an inode. -/
def inodePosition (volume : Volume) (inodeNo : Nat) : Nat :=
  volume.blockSize *
      bgInodeTable volume.groups (inodeGroup volume inodeNo) +
    inodeIndex volume inodeNo * sInodeSize volume.super

/-- Two arrays of group descriptors have the same `numGroups` first ones. -/
def SameTable (numGroups : Nat) (groups other : Memory) : Prop :=
  ∀ position, position < 32 * numGroups → other position = groups position

/-- The superblock of a volume with another file, and with other bytes in
memory behind its group descriptors. -/
def Volume.withDisk (volume : Volume) (image : Image) (groups : Memory) :
    Volume :=
  { volume with image := image, groups := groups }

/-- The number of an inode that the volume has. -/
def ValidInode (volume : Volume) (inodeNo : Nat) : Prop :=
  1 ≤ inodeNo ∧ inodeNo ≤ sInodesCount volume.super

/-- What `read_inode` is for, whatever the image contains and whatever is
behind the group descriptors: the first 128 bytes of the record and nothing
else, and -1 for all numbers that no inode has. -/
def InodeCorrect (volume : Volume) (numGroups inodeNo : Nat) : Prop :=
  ∀ image groups memory buffer, SameTable numGroups volume.groups groups →
    (ValidInode volume inodeNo →
      inodePosition volume inodeNo + sInodeSize volume.super ≤ image.size →
      ∃ result final,
        readInode (volume.withDisk image groups) inodeNo memory buffer =
            some (result, final) ∧
          (∀ index, index < sizeofInode → final (buffer + index) =
            image.byte (inodePosition volume inodeNo + index)) ∧
          memory.SameOutside buffer (buffer + sizeofInode) final) ∧
    (¬ValidInode volume inodeNo →
      ∃ final,
        readInode (volume.withDisk image groups) inodeNo memory buffer =
          some (-1, final))

/-- The inodes whose record is found and fits. -/
structure InodeSound (volume : Volume) (inodeNo : Nat) : Prop where
  valid : ValidInode volume inodeNo
  exactly : sInodeSize volume.super = sizeofInode
  group : inodeGroup volume inodeNo < 2 ^ 31
  low : inodePosition volume inodeNo < 2 ^ 32

section Read

variable {volume : Volume} {numGroups inodeNo : Nat}

theorem readInode_nonneg {memory final : Memory} {buffer : Nat} {result : Int}
    (read : readInode volume inodeNo memory buffer = some (result, final)) :
    0 ≤ result := by
  simp only [readInode] at read
  split at read
  · cases read
  · cases read
    exact Int.natCast_nonneg _

theorem inodeGroup_lt (valid : ValidInode volume inodeNo)
    (covers : sInodesCount volume.super ≤
      numGroups * sInodesPerGroup volume.super) :
    inodeGroup volume inodeNo < numGroups := by
  obtain ⟨first, last⟩ := valid
  apply Nat.div_lt_of_lt_mul
  rw [Nat.mul_comm]
  omega

theorem bgInodeTable_congr {groups other : Memory} {group : Nat}
    (same : SameTable numGroups groups other) (inside : group < numGroups) :
    bgInodeTable other group = bgInodeTable groups group := by
  apply Memory.load_congr
  intro position _ high
  exact same position (by omega)

theorem readInode_valid (valid : ValidInode volume inodeNo)
    (perGroup : 0 < sInodesPerGroup volume.super)
    (covers : sInodesCount volume.super ≤
      numGroups * sInodesPerGroup volume.super)
    (group : inodeGroup volume inodeNo < 2 ^ 31) (image : Image)
    {groups : Memory} (same : SameTable numGroups volume.groups groups)
    (memory : Memory) (buffer : Nat) :
    readInode (volume.withDisk image groups) inodeNo memory buffer =
      some (pread image memory buffer (sInodeSize volume.super)
        (inodePosition volume inodeNo % 2 ^ 32)) := by
  have countSmall : sInodesCount volume.super < 2 ^ 32 :=
    volume.super.load_lt 0 4
  have table := bgInodeTable_congr same (inodeGroup_lt valid covers)
  have call := @readInode_eq (volume.withDisk image groups) inodeNo valid.1
    (Nat.lt_of_le_of_lt valid.2 countSmall) perGroup group memory buffer
  change _ = some (pread image memory buffer (sInodeSize volume.super)
    ((volume.blockSize * bgInodeTable groups (inodeGroup volume inodeNo) +
      inodeIndex volume inodeNo * sInodeSize volume.super % 2 ^ 32) %
        2 ^ 32)) at call
  rw [call, table, inodePosition, Nat.add_mod_mod]

/-- A group number from `2 ^ 31` on becomes negative. -/
theorem readInode_negative (valid : ValidInode volume inodeNo)
    (group : 2 ^ 31 ≤ inodeGroup volume inodeNo) (image : Image)
    (groups memory : Memory) (buffer : Nat) :
    readInode (volume.withDisk image groups) inodeNo memory buffer = none := by
  have countSmall : sInodesCount volume.super < 2 ^ 32 :=
    volume.super.load_lt 0 4
  have small : inodeNo < 2 ^ 32 := Nat.lt_of_le_of_lt valid.2 countSmall
  have positive := valid.1
  have number : toUint32 ((inodeNo : Int) - 1) = inodeNo - 1 :=
    toUint32_of_nat _ (by omega) (by omega)
  have bounded : inodeGroup volume inodeNo < 2 ^ 32 :=
    Nat.lt_of_le_of_lt (Nat.div_le_self _ _) (by omega)
  have negative : toInt (inodeGroup volume inodeNo) < 0 := by
    by_contra other
    rw [toInt, Int.bmod] at other
    omega
  rw [readInode, number]
  exact if_pos (.inr negative)

theorem inodeCorrect_of_sound (sound : InodeSound volume inodeNo)
    (perGroup : 0 < sInodesPerGroup volume.super)
    (covers : sInodesCount volume.super ≤
      numGroups * sInodesPerGroup volume.super) :
    InodeCorrect volume numGroups inodeNo := by
  intro image groups memory buffer same
  constructor
  · intro valid inside
    have read := readInode_valid valid perGroup covers sound.group image same
      memory buffer
    rw [sound.exactly] at read inside
    rw [Nat.mod_eq_of_lt sound.low] at read
    have whole : min sizeofInode
        (image.size - inodePosition volume inodeNo) = sizeofInode := by
      omega
    rw [pread, whole] at read
    refine ⟨_, _, read, ?_, ?_⟩
    · intro index within
      exact Memory.copy_inside _ _ _ _ within
    · intro position outside
      exact Memory.copy_outside _ _ outside
  · intro invalid
    exact (invalid sound.valid).elim

theorem inodeSound_of_correct
    (correct : InodeCorrect volume numGroups inodeNo)
    (perGroup : 0 < sInodesPerGroup volume.super)
    (wide : sizeofInode ≤ sInodeSize volume.super)
    (covers : sInodesCount volume.super ≤
      numGroups * sInodesPerGroup volume.super) :
    InodeSound volume inodeNo := by
  have table : SameTable numGroups volume.groups volume.groups :=
    fun _ _ => rfl
  have valid : ValidInode volume inodeNo := by
    by_contra invalid
    obtain ⟨final, read⟩ := (correct volume.image volume.groups (fun _ => 0) 0
      table).2 invalid
    have impossible := readInode_nonneg read
    omega
  let position := inodePosition volume inodeNo
  let image := markedImage (position + sInodeSize volume.super)
    (position % 2 ^ 32)
  have read : ∀ memory buffer, ∃ result final,
      readInode (volume.withDisk image volume.groups) inodeNo memory buffer =
          some (result, final) ∧
        (∀ index, index < sizeofInode → final (buffer + index) =
          image.byte (position + index)) ∧
        memory.SameOutside buffer (buffer + sizeofInode) final :=
    fun memory buffer => (correct image volume.groups memory buffer table).1
      valid (Nat.le_refl _)
  have group : inodeGroup volume inodeNo < 2 ^ 31 := by
    by_contra high
    obtain ⟨result, final, returned, _⟩ := read (fun _ => 0) 0
    rw [readInode_negative valid (Nat.not_lt.mp high)] at returned
    cases returned
  obtain ⟨result, final, returned, bytes, kept⟩ := read (fun _ => 2) 0
  have call := readInode_valid valid perGroup covers group image table
    (fun _ => 2) 0
  have reduced : position % 2 ^ 32 ≤ position := Nat.mod_le _ _
  have stored : ∀ index, index < sInodeSize volume.super →
      final (0 + index) = image.byte (position % 2 ^ 32 + index) := by
    intro index inside
    have within : position % 2 ^ 32 + index < image.size := by
      change _ < position + sInodeSize volume.super
      omega
    rw [call] at returned
    have written : (pread image (fun _ => 2) 0 (sInodeSize volume.super)
        (position % 2 ^ 32)).2 = final :=
      congrArg Prod.snd (Option.some.inj returned)
    rw [← written]
    exact pread_byte inside within
  have positive : 0 < sInodeSize volume.super := Nat.lt_of_lt_of_le
    (by decide) wide
  refine ⟨valid, ?_, group, ?_⟩
  · by_contra wider
    have more : sizeofInode < sInodeSize volume.super := by omega
    have behind := kept (0 + sizeofInode) (.inr (Nat.le_refl _))
    rw [stored sizeofInode more] at behind
    simp [image, markedImage, sizeofInode] at behind
  · by_contra high
    have first := bytes 0 (by decide)
    rw [stored 0 positive] at first
    have same : position = position % 2 ^ 32 := by
      simpa [image, markedImage] using first
    have large : ¬position < 2 ^ 32 := high
    omega

/-- `read_inode` is right for the inodes of the volume whose records have 128
bytes and are addressed without loss, and for no other number. -/
theorem readInode_correct_iff (volume : Volume) (numGroups inodeNo : Nat)
    (perGroup : 0 < sInodesPerGroup volume.super)
    (wide : sizeofInode ≤ sInodeSize volume.super)
    (covers : sInodesCount volume.super ≤
      numGroups * sInodesPerGroup volume.super) :
    InodeCorrect volume numGroups inodeNo ↔ InodeSound volume inodeNo := by
  constructor
  · intro correct
    exact inodeSound_of_correct correct perGroup wide covers
  · intro sound
    exact inodeCorrect_of_sound sound perGroup covers

end Read

/-- Two groups of eight inodes each; the tables are in the blocks 5 and 6. -/
def inodeVolume (inodeSize : UInt8 × UInt8) : Volume where
  image := ⟨2 ^ 14, fun _ => 0⟩
  super := fun index =>
    if index = 0 then 16
    else if index = 40 then 8
    else if index = 88 then inodeSize.1
    else if index = 89 then inodeSize.2
    else 0
  blockSize := 1024
  groups := fun index =>
    if index = 8 then 5 else if index = 40 then 6 else 0
  blockSize_lt := treeVolume.blockSize_lt
  blockSize_pos := treeVolume.blockSize_pos

theorem inodeVolume_correct :
    InodeCorrect (inodeVolume (128, 0)) 2 11 ↔
      InodeSound (inodeVolume (128, 0)) 11 :=
  readInode_correct_iff (inodeVolume (128, 0)) 2 11 (by decide +kernel)
    (by decide +kernel) (by decide +kernel)

/-- Records of 256 bytes overrun the structure, and number 0, which marks a
deleted entry of a directory, is not refused. -/
theorem inodeVolume_incorrect :
    ¬InodeCorrect (inodeVolume (0, 1)) 2 2 ∧
      ¬InodeCorrect (inodeVolume (128, 0)) 2 0 := by
  constructor
  · intro correct
    have sound := inodeSound_of_correct correct (by decide +kernel)
      (by decide +kernel) (by decide +kernel)
    exact absurd sound.exactly (by decide +kernel)
  · intro correct
    have sound := inodeSound_of_correct correct (by decide +kernel)
      (by decide +kernel) (by decide +kernel)
    exact absurd sound.valid.1 (by decide)

end SystemsLabs.Ext2
