import SystemsLabs.Ext2.StatSize

/-!
# Reading a symbolic link

`ext2_readlink` takes an inode for a symbolic link when its size is above 60,
and it never looks at the type.  Targets that are stored in the inode are thus
refused, and of the others the terminator is written behind the buffer: no
symbolic link is read right.
-/

namespace SystemsLabs.Ext2

def IsSymlink (inode : Memory) : Prop := iMode inode >>> 12 = 10

section Correct

variable (volume : Volume) (find : FindPath) (uninit : Nat → Memory)
  (content : Memory) (size : Nat)

/-- The bytes of the target, `i_symlink_target` when it is short. -/
def targetByte (index : Nat) : UInt8 :=
  if iSize content < 60 then content (40 + index)
  else fileByte volume uninit content index

/-- The buffer holds the target, cut and terminated; nothing else changed. -/
structure HoldsTarget (before after : Memory) (buf : Nat) : Prop where
  bytes : ∀ index < min (iSize content) (size - 1),
    after (buf + index) = targetByte volume uninit content index
  terminated : after (buf + min (iSize content) (size - 1)) = 0
  kept : before.SameOutside buf (buf + size) after

/-- What `ext2_readlink` is for, when the path leads to `content`. -/
def ReadlinkCorrect : Prop :=
  ∀ fresh memory buf, ∃ fuel status final,
    ext2Readlink fuel volume find uninit fresh size memory buf =
        some (status, final) ∧
      (IsSymlink content → status = 0 ∧
        HoldsTarget volume uninit content size memory final buf) ∧
      (¬IsSymlink content → status = -einval)

end Correct

section Size

variable {volume : Volume} {find : FindPath} {uninit : Nat → Memory}
  {inodeNo : Nat} {content : Memory} {size : Nat}

theorem readlink_short
    (contract : LookupContract find (some (inodeNo, content)))
    (short : iSize content ≤ 60) (fuel : Nat) (fresh memory : Memory)
    (buf : Nat) :
    ext2Readlink fuel volume find uninit fresh size memory buf =
      some (-einval, memory) := by
  obtain ⟨nonzero, same⟩ := contract.stores fresh
  simp [ext2Readlink, nonzero, iSize_congr same, short]

/-- Behind the size test the read fails, or a byte behind the buffer is
overwritten. -/
theorem readlink_long
    (contract : LookupContract find (some (inodeNo, content)))
    (long : 60 < iSize content) {fuel buf : Nat}
    {fresh memory final : Memory} {status : Int}
    (returned : ext2Readlink fuel volume find uninit fresh size memory buf =
      some (status, final)) :
    status = -eio ∨ (status = 0 ∧ final (buf + size) = 0) := by
  obtain ⟨nonzero, same⟩ := contract.stores fresh
  have notShort : ¬iSize content ≤ 60 := Nat.not_le_of_lt long
  simp only [ext2Readlink, if_neg nonzero, iSize_congr same,
    if_neg notShort] at returned
  obtain ⟨⟨count, after⟩, _, answer⟩ := Option.bind_eq_some_iff.mp returned
  by_cases failed : count < 0
  · simp only [if_pos failed] at answer
    obtain ⟨rfl, _⟩ := Prod.mk.inj (Option.some.inj answer)
    exact .inl rfl
  · simp only [if_neg failed] at answer
    obtain ⟨rfl, rfl⟩ := Prod.mk.inj (Option.some.inj answer)
    exact .inr ⟨rfl, if_pos rfl⟩

/-- No symbolic link is read right. -/
theorem not_readlinkCorrect_of_symlink
    (contract : LookupContract find (some (inodeNo, content)))
    (symlink : IsSymlink content) :
    ¬ReadlinkCorrect volume find uninit content size := by
  intro correct
  obtain ⟨fuel, status, final, returned, right, _⟩ :=
    correct content (fun _ => 1) 0
  obtain ⟨success, holds⟩ := right symlink
  rcases Nat.lt_or_ge 60 (iSize content) with long | short
  · rcases readlink_long contract long returned with failed | ⟨_, overwritten⟩
    · rw [success] at failed
      exact absurd failed (by decide)
    · have kept := holds.kept (0 + size) (.inr (Nat.le_refl _))
      rw [overwritten] at kept
      exact absurd kept (by decide)
  · rw [readlink_short contract short] at returned
    obtain ⟨refused, _⟩ := Prod.mk.inj (Option.some.inj returned)
    rw [success] at refused
    exact absurd refused (by decide)

theorem size_le_of_readlinkCorrect
    (contract : LookupContract find (some (inodeNo, content)))
    (other : ¬IsSymlink content)
    (correct : ReadlinkCorrect volume find uninit content size) :
    iSize content ≤ 60 := by
  apply Nat.le_of_not_lt
  intro long
  obtain ⟨fuel, status, final, returned, _, right⟩ :=
    correct content content 0
  have refused := right other
  rcases readlink_long contract long returned with failed | ⟨success, _⟩
  · rw [refused] at failed
    exact absurd failed (by decide)
  · rw [refused] at success
    exact absurd success (by decide)

end Size

/-- `ext2_readlink` is right for the inodes of 60 bytes at most that are no
symbolic links, and for nothing else. -/
theorem readlink_correct_iff (volume : Volume) (find : FindPath)
    (uninit : Nat → Memory) {inodeNo : Nat} {content : Memory} (size : Nat)
    (contract : LookupContract find (some (inodeNo, content))) :
    ReadlinkCorrect volume find uninit content size ↔
      ¬IsSymlink content ∧ iSize content ≤ 60 := by
  constructor
  · intro correct
    have other : ¬IsSymlink content := fun symlink =>
      not_readlinkCorrect_of_symlink contract symlink correct
    exact ⟨other, size_le_of_readlinkCorrect contract other correct⟩
  · rintro ⟨other, short⟩ fresh memory buf
    refine ⟨0, -einval, memory, readlink_short contract short 0 fresh memory
      buf, ?_, fun _ => rfl⟩
    intro symlink
    exact absurd symlink other

/-- An inode of the given type and size with a 5 in the first place of the
union of block numbers and target. -/
def typedFile (type size : UInt8) : Memory := fun index =>
  if index = 1 then type
  else if index = 4 then size
  else if index = 40 then 5
  else 0

theorem typedFile_readlink :
    ReadlinkCorrect treeVolume (findContent (typedFile 0x80 20))
        (fun _ _ => 0) (typedFile 0x80 20) 8 ↔
      ¬IsSymlink (typedFile 0x80 20) ∧ iSize (typedFile 0x80 20) ≤ 60 :=
  readlink_correct_iff treeVolume (findContent (typedFile 0x80 20))
    (fun _ _ => 0) 8 (findContent_contract (typedFile 0x80 20))

theorem typedFile_symlink (size : UInt8) : IsSymlink (typedFile 0xA0 size) := by
  simp [IsSymlink, iMode, Memory.load, typedFile]

/-- With a buffer of 8 bytes a symbolic link of one byte is refused, for one
of 100 bytes the byte behind the buffer is cleared, and a regular file of 100
bytes is taken for a link. -/
theorem typedFile_misread :
    (ext2Readlink 3 treeVolume (findContent (typedFile 0xA0 1))
        (fun _ _ => 0) (fun _ => 0) 8 (fun _ => 1) 0).map Prod.fst =
          some (-22) ∧
      ¬ReadlinkCorrect treeVolume (findContent (typedFile 0xA0 1))
        (fun _ _ => 0) (typedFile 0xA0 1) 8 ∧
      (ext2Readlink 3 treeVolume (findContent (typedFile 0xA0 100))
        (fun _ _ => 0) (fun _ => 0) 8 (fun _ => 1) 0).map
          (fun outcome => outcome.2 8) = some 0 ∧
      ¬ReadlinkCorrect treeVolume (findContent (typedFile 0xA0 100))
        (fun _ _ => 0) (typedFile 0xA0 100) 8 ∧
      (ext2Readlink 3 treeVolume (findContent (typedFile 0x80 100))
        (fun _ _ => 0) (fun _ => 0) 8 (fun _ => 1) 0).map Prod.fst =
          some 0 ∧
      ¬ReadlinkCorrect treeVolume (findContent (typedFile 0x80 100))
        (fun _ _ => 0) (typedFile 0x80 100) 8 := by
  refine ⟨by decide +kernel, ?_, by decide +kernel, ?_, by decide +kernel, ?_⟩
  · exact not_readlinkCorrect_of_symlink (findContent_contract _)
      (typedFile_symlink 1)
  · exact not_readlinkCorrect_of_symlink (findContent_contract _)
      (typedFile_symlink 100)
  · intro correct
    have other : ¬IsSymlink (typedFile 0x80 100) := by
      rw [IsSymlink]
      decide +kernel
    have short := size_le_of_readlinkCorrect (findContent_contract _) other
      correct
    exact absurd short (by decide +kernel)

end SystemsLabs.Ext2
