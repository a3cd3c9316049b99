import SystemsLabs.Ext2.Fuse

/-!
# The two sizes of a file

`ext2_getattr` reports the low 32 bits of the size, `ext2_read` goes by all 64
of them.  They agree for files below 4 GiB and for reads in the part of a file
that is reported.  From behind the end of a file `ext2_read` reads on: it
returns zero, after it has written to the buffer, unless it meets 2 GiB of the
image at once, which are an error.
-/

namespace SystemsLabs.Ext2

section Sizes

variable (volume : Volume) (inode : Memory) (size offset : Nat)

end Sizes

section Reads

variable (volume : Volume) (find : FindPath) (uninit : Nat → Memory)
  (size offset : Nat)

end Reads

section Loop

variable {volume : Volume} {uninit : Nat → Memory} {inode : Memory}
  {offset maxSize buffer : Nat}

theorem contentLoop_add {fuel readSoFar : Nat} {memory : Memory}
    {outcome : Int × Memory} (extra : Nat)
    (run : contentLoop volume uninit inode offset maxSize buffer fuel
      readSoFar memory = some outcome) :
    contentLoop volume uninit inode offset maxSize buffer (fuel + extra)
      readSoFar memory = some outcome := by
  induction fuel generalizing readSoFar memory with
  | zero => cases run
  | succ fuel ih =>
      rw [Nat.succ_add, contentLoop]
      rw [contentLoop] at run
      split
      case isTrue more =>
        rw [if_pos more] at run
        simp only at run ⊢
        split
        case isTrue stop =>
          rw [if_pos stop] at run
          exact run
        case isFalse onward =>
          rw [if_neg onward] at run
          exact ih run
      case isFalse done =>
        rw [if_neg done] at run
        exact run

theorem contentLoop_unique {fuel other readSoFar : Nat} {memory : Memory}
    {outcome last : Int × Memory}
    (run : contentLoop volume uninit inode offset maxSize buffer fuel
      readSoFar memory = some outcome)
    (again : contentLoop volume uninit inode offset maxSize buffer other
      readSoFar memory = some last) : outcome = last := by
  have long := contentLoop_add other run
  have same := contentLoop_add fuel again
  rw [Nat.add_comm, long] at same
  exact Option.some.inj same

end Loop

section Overrun

variable {volume : Volume} {uninit : Nat → Memory} {inode : Memory}
  {offset maxSize buffer high low : Nat}

end Overrun

section Inode

variable {first second : Memory}

theorem load_sameInode (same : SameInode first second) {address width : Nat}
    (inside : address + width ≤ sizeofInode) :
    first.load address width = second.load address width := by
  apply Memory.load_congr
  intro position _ high
  exact same position (Nat.lt_of_lt_of_le high inside)

theorem iMode_congr (same : SameInode first second) :
    iMode first = iMode second :=
  load_sameInode same (by decide)

theorem iSize_congr (same : SameInode first second) :
    iSize first = iSize second :=
  load_sameInode same (by decide)

theorem inodeFileSize_congr (same : SameInode first second)
    (volume : Volume) :
    inodeFileSize volume first = inodeFileSize volume second := by
  have acl : iDirAcl first = iDirAcl second :=
    load_sameInode same (by decide)
  rw [inodeFileSize, inodeFileSize, iMode_congr same, iSize_congr same, acl]

theorem getInodeBlockNo_congr (same : SameInode first second)
    (volume : Volume) (uninit : Nat → Memory) (blockIdx : Nat) :
    getInodeBlockNo volume uninit first blockIdx =
      getInodeBlockNo volume uninit second blockIdx := by
  have single : iBlock1ind first = iBlock1ind second :=
    load_sameInode same (by decide)
  have double : iBlock2ind first = iBlock2ind second :=
    load_sameInode same (by decide)
  have triple : iBlock3ind first = iBlock3ind second :=
    load_sameInode same (by decide)
  by_cases direct : blockIdx < 12
  · have block : iBlock first blockIdx = iBlock second blockIdx := by
      apply load_sameInode same
      rw [sizeofInode]
      omega
    simp only [getInodeBlockNo, if_pos direct, block]
  · simp only [getInodeBlockNo, if_neg direct, single, double, triple]

theorem readFileBlock_congr (same : SameInode first second) (volume : Volume)
    (uninit : Nat → Memory) (offset maxSize : Nat) (memory : Memory)
    (buffer : Nat) :
    readFileBlock volume uninit first offset maxSize memory buffer =
      readFileBlock volume uninit second offset maxSize memory buffer := by
  rw [readFileBlock, readFileBlock, getInodeBlockNo_congr same]

theorem contentLoop_congr (same : SameInode first second) {volume : Volume}
    {uninit : Nat → Memory} {offset maxSize buffer : Nat} (fuel : Nat) :
    ∀ readSoFar memory,
      contentLoop volume uninit first offset maxSize buffer fuel readSoFar
          memory =
        contentLoop volume uninit second offset maxSize buffer fuel readSoFar
          memory := by
  induction fuel with
  | zero =>
      intro readSoFar memory
      rfl
  | succ fuel ih =>
      intro readSoFar memory
      rw [contentLoop, contentLoop, readFileBlock_congr same]
      simp only [ih]

theorem readFileContent_congr (same : SameInode first second) (fuel : Nat)
    (volume : Volume) (uninit : Nat → Memory) (offset maxSize : Nat)
    (memory : Memory) (buffer : Nat) :
    readFileContent fuel volume uninit first offset maxSize memory buffer =
      readFileContent fuel volume uninit second offset maxSize memory
        buffer := by
  rw [readFileContent, readFileContent, inodeFileSize_congr same]
  exact contentLoop_congr same fuel 0 memory

end Inode

section Clipped

variable {volume : Volume} {inode : Memory} {size offset : Nat}

end Clipped

section Callback

variable {volume : Volume} {find : FindPath} {inodeNo : Nat}
  {content : Memory} {uninit : Nat → Memory} {size offset : Nat}

theorem LookupContract.stores
    (contract : LookupContract find (some (inodeNo, content)))
    (fresh : Memory) :
    (find fresh).1 ≠ 0 ∧ SameInode (find fresh).2 content := by
  obtain ⟨nonzero, found⟩ := contract.found rfl
  obtain ⟨number, same⟩ := found fresh
  rw [number]
  exact ⟨nonzero, same⟩

end Callback

end SystemsLabs.Ext2
