import SystemsLabs.Ext2.Callbacks
import SystemsLabs.Ext2.Path

/-!
# Status codes of the FUSE callbacks

What the callbacks return for a path that is missing, a directory or a regular
file, given that the lookup of the path does what it is documented to do.
`ext2_open` tests the type of the inode before the lookup has stored one, so
that its result depends on the memory it was given.
-/

namespace SystemsLabs.Ext2

/-- The documented contract of `find_file_from_path`, for a path that leads to
an inode with the given number and content, or to none.  The content of
`dest_inode` is unspecified when nothing is found. -/
structure LookupContract (find : FindPath) (target : Option (Nat × Memory)) :
    Prop where
  missing : target = none → ∀ dest, (find dest).1 = 0
  found : ∀ {inodeNo content}, target = some (inodeNo, content) →
    inodeNo ≠ 0 ∧ ∀ dest, (find dest).1 = inodeNo ∧
      SameInode (find dest).2 content

def IsDirectory (inode : Memory) : Prop := iMode inode >>> 12 = 4

def IsRegular (inode : Memory) : Prop := iMode inode >>> 12 = 8

def ReadOnly (flags : BitVec 32) : Prop := flags &&& 3 = 0

def Writes (flags : BitVec 32) : Prop :=
  flags &&& 3 = oWronly ∨ flags &&& 3 = oRdwr

/-- The names of the live entries in order. -/
def liveNames (entries : List DirEntry) : List (List UInt8) :=
  (entries.filter fun entry => entry.inodeNo ≠ 0).map DirEntry.name

section Answers

variable (volume : Volume) (find : FindPath)
  (target : Option (Nat × Memory)) (fresh : Memory)

/-- The callbacks of one path return what they are documented to return, when
the inode they allocate holds `fresh`. -/
structure Answers : Prop where
  getattr : ∀ stbuf,
    (ext2Getattr volume find fresh stbuf).1 = -enoent ↔ target = none
  read : ∀ uninit size offset memory buf, size < 2 ^ 64 →
    offset < 2 ^ 63 → ∃ fuel status last,
    ext2Read fuel volume find uninit fresh size offset memory buf =
        some (status, last) ∧
      (status = -enoent ↔ target = none) ∧
      ∀ inodeNo content, target = some (inodeNo, content) →
        IsDirectory content → status = -eisdir
  readdir : ∀ uninit curr, ∃ status names,
    ext2Readdir volume find uninit curr fresh = some (status, names) ∧
      (status = -enoent ↔ target = none) ∧
      ∀ inodeNo content entries, target = some (inodeNo, content) →
        IsDirectory content →
        Chain (directoryContent volume uninit content)
            (inodeFileSize volume content) 0 entries →
          status = 0 ∧ names = liveNames entries
  openToRead : ∀ flags fh, ReadOnly flags →
    ((ext2Open find fresh flags fh).1 = -enoent ↔ target = none) ∧
      ∀ inodeNo content, target = some (inodeNo, content) →
        (IsDirectory content →
            (ext2Open find fresh flags fh).1 = -eisdir) ∧
          (IsRegular content → ext2Open find fresh flags fh = (0, inodeNo))
  openToWrite : ∀ flags fh, Writes flags →
    (ext2Open find fresh flags fh).1 = -eacces

/-- `read_file_content` comes back for every range of a file. -/
def ReadEnds (inode : Memory) : Prop :=
  ∀ uninit size offset memory buf, size < 2 ^ 64 → offset < 2 ^ 63 → ∃ fuel,
    (readFileContent fuel volume uninit inode offset size memory
      buf).isSome = true

/-- The path is missing, and neither the inode that a callback allocates nor
what the lookup leaves in it looks like a directory. -/
structure AnswersMissing : Prop where
  missing : target = none
  allocated : ¬IsDirectory fresh
  left : ¬IsDirectory (find fresh).2
  ends : ReadEnds volume (find fresh).2

end Answers

section Callbacks

variable {volume : Volume} {find : FindPath}
  {target : Option (Nat × Memory)} {fresh : Memory}

theorem getattr_status (contract : LookupContract find target) (stbuf : Stat) :
    (ext2Getattr volume find fresh stbuf).1 = -enoent ↔ target = none := by
  rw [ext2Getattr]
  cases expected : target with
  | none =>
      simp [contract.missing expected]
  | some pair =>
      obtain ⟨nonzero, found⟩ := contract.found expected
      simp [(found fresh).1, nonzero, enoent]

/-- `ext2Readdir` never succeeds. -/
theorem readdir_status {uninit : Nat → Memory} {curr : Memory} {status : Int}
    {names : List (List UInt8)}
    (returned :
      ext2Readdir volume find uninit curr fresh = some (status, names)) :
    status = -enoent := by
  simp only [ext2Readdir, followNull] at returned
  split at returned
  · cases returned
    rfl
  · obtain ⟨followed, result, onward⟩ := Option.bind_eq_some_iff.mp returned
    have zero : followed = 0 := by
      split at result
      · exact (Option.some.inj result).symm
      · split at result
        · split at result
          · exact (Option.some.inj result).symm
          · cases result
        · exact (Option.some.inj result).symm
    rw [if_pos zero] at onward
    cases onward
    rfl

theorem readdir_missing (contract : LookupContract find target)
    (missing : target = none) (uninit : Nat → Memory) (curr : Memory) :
    ext2Readdir volume find uninit curr fresh = some (-enoent, []) := by
  simp [ext2Readdir, contract.missing missing]

theorem open_writes {flags : BitVec 32} (fh : Nat) (writes : Writes flags) :
    (ext2Open find fresh flags fh).1 = -eacces := by
  have bits : flags &&& oWronly ≠ 0 ∨ flags &&& oRdwr ≠ 0 := by
    by_contra neither
    obtain ⟨low, high⟩ := not_or.mp neither
    have none_set : flags &&& 3 = 0 := by
      have split : (3 : BitVec 32) = oWronly ||| oRdwr := rfl
      rw [split, BitVec.and_or_distrib_left, not_not.mp low, not_not.mp high]
      rfl
    rw [Writes, none_set] at writes
    rcases writes with same | same
    · exact absurd same (by decide)
    · exact absurd same (by decide)
  rw [ext2Open, if_pos bits]

/-- A read-only open goes by the type of the inode that was allocated. -/
theorem open_readOnly {flags : BitVec 32} (fh : Nat)
    (readOnly : ReadOnly flags) :
    ext2Open find fresh flags fh =
      if iMode fresh >>> 12 = 4 then (eisdir, fh)
      else if (find fresh).1 ≠ 0 then (0, (find (find fresh).2).1)
      else (-enoent, fh) := by
  have part : ∀ mask : BitVec 32, 3 &&& mask = mask → flags &&& mask = 0 := by
    intro mask inside
    rw [← inside, ← BitVec.and_assoc, readOnly]
    exact BitVec.zero_and
  have bits : ¬(flags &&& oWronly ≠ 0 ∨ flags &&& oRdwr ≠ 0) := by
    rw [part oWronly rfl, part oRdwr rfl]
    decide
  rw [ext2Open, if_neg bits]

theorem read_missing (contract : LookupContract find target)
    (missing : target = none) {fuel size offset buf : Nat}
    {uninit : Nat → Memory} {memory last : Memory} {count : Int}
    (returned : readFileContent fuel volume uninit (find fresh).2 offset size
      memory buf = some (count, last)) :
    ext2Read fuel volume find uninit fresh size offset memory buf =
      some (if iMode (find fresh).2 >>> 12 = 4 then -eisdir else -enoent,
        last) := by
  rw [ext2Read]
  simp only [returned, contract.missing missing]
  by_cases directory : iMode (find fresh).2 >>> 12 = 4
  · simp [directory]
  · simp [directory]

theorem readEnds_of_answers
    (answers : Answers volume find target fresh) :
    ReadEnds volume (find fresh).2 := by
  intro uninit size offset memory buf sizeFits offsetFits
  obtain ⟨fuel, status, last, returned, _⟩ :=
    answers.read uninit size offset memory buf sizeFits offsetFits
  obtain ⟨_, content, _⟩ := Option.bind_eq_some_iff.mp returned
  exact ⟨fuel, Option.isSome_iff_exists.mpr ⟨_, content⟩⟩

/-- With a given content of the inode that they allocate, the callbacks answer
as documented for missing paths only, and for those only if that content is
not taken for a directory. -/
theorem answers_iff (contract : LookupContract find target) :
    Answers volume find target fresh ↔
      AnswersMissing volume find target fresh := by
  constructor
  · intro answers
    have missing : target = none := by
      obtain ⟨status, names, returned, enoent_iff, _⟩ :=
        answers.readdir (fun _ => fresh) fresh
      exact enoent_iff.mp (readdir_status returned)
    have ends := readEnds_of_answers answers
    refine ⟨missing, ?_, ?_, ends⟩
    · intro directory
      have readOnly : ReadOnly 0 := rfl
      have status := (answers.openToRead 0 0 readOnly).1.mpr missing
      rw [IsDirectory] at directory
      rw [open_readOnly 0 readOnly, if_pos directory] at status
      exact absurd status (by decide)
    · intro directory
      obtain ⟨fuel, status, last, returned, enoent_iff, _⟩ :=
        answers.read (fun _ => fresh) 0 0 fresh 0 (by decide) (by decide)
      obtain ⟨⟨count, after⟩, content, _⟩ :=
        Option.bind_eq_some_iff.mp returned
      rw [IsDirectory] at directory
      rw [read_missing contract missing content, if_pos directory] at returned
      cases returned
      exact absurd (enoent_iff.mpr missing) (by decide)
  · rintro ⟨missing, allocated, left, ends⟩
    rw [IsDirectory] at allocated left
    subst missing
    refine ⟨fun stbuf => getattr_status contract stbuf, ?_, ?_, ?_,
      fun flags fh => open_writes fh⟩
    · intro uninit size offset memory buf sizeFits offsetFits
      obtain ⟨fuel, ended⟩ :=
        ends uninit size offset memory buf sizeFits offsetFits
      obtain ⟨⟨count, last⟩, returned⟩ := Option.isSome_iff_exists.mp ended
      refine ⟨fuel, -enoent, last, ?_, iff_of_true rfl rfl, ?_⟩
      · rw [read_missing contract rfl returned, if_neg left]
      · intro inodeNo content exists_target
        cases exists_target
    · intro uninit curr
      refine ⟨-enoent, [], readdir_missing contract rfl uninit curr,
        iff_of_true rfl rfl, ?_⟩
      intro inodeNo content entries exists_target
      cases exists_target
    · intro flags fh readOnly
      rw [open_readOnly fh readOnly, if_neg allocated,
        contract.missing rfl fresh, if_neg (by simp)]
      refine ⟨iff_of_true rfl rfl, ?_⟩
      intro inodeNo content exists_target
      cases exists_target

end Callbacks

/-- Every byte is `0x40`: an inode of type directory. -/
def staleDirectory : Memory := fun _ => 0x40

/-- There is no volume and no path for which the callbacks answer as
documented whatever the memory they allocate holds.  With a given content they
do if and only if the path is missing and that content is not taken for a
directory, before the lookup or after it. -/
theorem callbacks_answer (volume : Volume) (find : FindPath)
    (target : Option (Nat × Memory))
    (contract : LookupContract find target) :
    ¬(∀ fresh, Answers volume find target fresh) ∧
      ∀ fresh, Answers volume find target fresh ↔
        AnswersMissing volume find target fresh := by
  refine ⟨?_, fun fresh => answers_iff contract⟩
  intro answers
  have missing := (answers_iff contract).mp (answers staleDirectory)
  exact missing.allocated (by unfold IsDirectory; decide)

/-- A lookup that finds nothing and leaves the inode as it was. -/
def nothingThere : FindPath := fun dest => (0, dest)

theorem nothingThere_answers :
    LookupContract nothingThere none ∧
      ¬∀ fresh, Answers entriesVolume nothingThere none fresh := by
  have contract : LookupContract nothingThere none :=
    ⟨fun _ _ => rfl, fun exists_target => nomatch exists_target⟩
  exact ⟨contract,
    (callbacks_answer entriesVolume nothingThere none contract).1⟩

/-- A lookup that finds the given content under number 12. -/
def findContent (content : Memory) : FindPath := fun _ => (12, content)

theorem findContent_contract (content : Memory) :
    LookupContract (findContent content) (some (12, content)) := by
  refine ⟨(fun missing => nomatch missing), ?_⟩
  rintro inodeNo found ⟨⟩
  exact ⟨by decide, fun _ => ⟨rfl, fun _ _ => rfl⟩⟩

/-- An inode of type regular file, with nothing else in it. -/
def plainFile : Memory := fun index => if index = 1 then 0x80 else 0

/-- A lookup that finds the regular file with number 12. -/
def fileThere : FindPath := fun _ => (12, plainFile)

/-- A lookup that finds an empty directory with number 11. -/
def directoryThere : FindPath :=
  fun _ => (11, fun index => if index = 1 then 0x40 else 0)

/-- Opening a regular file gives `EISDIR` when the allocated inode looks like a
directory, opening a directory succeeds when it does not, and listing an empty
directory gives `-ENOENT`. -/
theorem fileThere_misread :
    LookupContract fileThere (some (12, plainFile)) ∧
      IsRegular plainFile ∧ ReadOnly 0 ∧
      ext2Open fileThere staleDirectory 0 0 = (21, 0) ∧
      ext2Open fileThere plainFile 0 0 = (0, 12) ∧
      ¬(∀ fresh, Answers entriesVolume fileThere (some (12, plainFile))
        fresh) ∧
      ext2Open directoryThere plainFile 0 0 = (0, 11) ∧
      ext2Readdir entriesVolume directoryThere (fun _ => plainFile) plainFile
        plainFile = some (-2, []) := by
  have readOnly : ReadOnly 0 := rfl
  have regular : IsRegular plainFile := by
    unfold IsRegular
    decide
  refine ⟨findContent_contract plainFile, regular, readOnly, by decide,
    by decide, ?_, by decide, by decide⟩
  intro answers
  have opened := (((answers staleDirectory).openToRead 0 0 readOnly).2 12
    plainFile rfl).2 regular
  exact absurd opened (by decide)

end SystemsLabs.Ext2
