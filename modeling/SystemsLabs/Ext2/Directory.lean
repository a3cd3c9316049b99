import SystemsLabs.Ext2.Content

/-!
# The entries of a directory

A directory is a file that holds a chain of entries; `visit` is the walk along
the chain that `followDirectoryEntries` is for.  The code reads an entry at
every byte, and what it returns is the number that the buffer of the caller
held before, so that it is right for directories without any content only.
-/

namespace SystemsLabs.Ext2

structure DirEntry where
  inodeNo : Nat
  name : List UInt8
  deriving DecidableEq

/-- The entry at `offset`, with the `de_name_len` bytes of its name. -/
def entryAt (content : Memory) (offset : Nat) : DirEntry where
  inodeNo := content.load offset 4
  name := (List.range (content (offset + 6)).toNat).map
    fun index => content (offset + 8 + index)

/-- Entries one behind the other, from an offset to the end. -/
inductive Chain (content : Memory) (stop : Nat) : Nat → List DirEntry → Prop
  | done : Chain content stop stop []
  | entry (offset : Nat) {rest : List DirEntry}
      (positive : 0 < content.load (offset + 4) 2)
      (onward : Chain content stop
        (offset + content.load (offset + 4) 2) rest) :
      Chain content stop offset (entryAt content offset :: rest)

/-- A callback as it is documented: it receives the name as a string. -/
abbrev NamedCallback (γ : Type) := List UInt8 → Nat → γ → Int × γ

/-- The string ends with the first NUL. -/
def NamedCallback.onBytes {γ : Type} (f : NamedCallback γ) : Callback γ :=
  fun name inodeNo context => f (cString name) inodeNo context

/-- The callback on the live entries in order, up to the first one for which
it does not return zero; that entry and the context afterwards. -/
def visit {γ : Type} (f : NamedCallback γ) :
    List DirEntry → γ → Option DirEntry × γ
  | [], context => (none, context)
  | entry :: rest, context =>
      if entry.inodeNo = 0 then visit f rest context
      else
        let (result, context) := f entry.name entry.inodeNo context
        if result ≠ 0 then (some entry, context) else visit f rest context

/-- The first live entry with a name. -/
def lookup (entries : List DirEntry) (name : List UInt8) : Option DirEntry :=
  entries.find? fun entry => entry.inodeNo ≠ 0 ∧ entry.name = name

theorem Chain.le {content : Memory} {stop offset : Nat}
    {entries : List DirEntry} (chain : Chain content stop offset entries) :
    offset ≤ stop := by
  induction chain with
  | done => exact Nat.le_refl _
  | entry offset positive onward ih => omega

theorem Chain.eq_nil {content : Memory} {stop : Nat}
    {entries : List DirEntry} (chain : Chain content stop stop entries) :
    entries = [] := by
  generalize first : stop = offset at chain
  cases chain with
  | done => rfl
  | entry offset positive onward =>
      have bound := onward.le
      omega

theorem Chain.first {content : Memory} {stop offset : Nat}
    {entries : List DirEntry} (chain : Chain content stop offset entries)
    (more : offset < stop) : 0 < content.load (offset + 4) 2 := by
  cases chain with
  | done => exact absurd more (Nat.lt_irrefl _)
  | entry _ positive _ => exact positive

section Correct

variable (volume : Volume) (uninit : Nat → Memory) (inode : Memory)
  (entries : List DirEntry)

/-- The bytes of the directory, with zeros behind its end. -/
def directoryContent : Memory := fun place =>
  if place < inodeFileSize volume inode then
    fileByte volume uninit inode place
  else 0

/-- The buffer of the caller is set to an entry, unless it is `NULL`. -/
def BufferHolds (before after : Option Memory) (entry : DirEntry) : Prop :=
  after.isSome = before.isSome ∧
    ∀ bytes, after = some bytes →
      deInodeNo bytes = entry.inodeNo ∧ cString (deName bytes) = entry.name

/-- What `followDirectoryEntries` and `findFileInDirectory` are for. -/
structure DirectoryCorrect : Prop where
  follow : ∀ {γ : Type} (f : NamedCallback γ) (context : γ) (curr : Memory)
    (buffer : Option Memory), ∃ fuel inodeNo after last,
      followDirectoryEntries fuel volume uninit curr inode context buffer
          f.onBytes = some (inodeNo, after, last) ∧
        last = (visit f entries context).2 ∧
        match (visit f entries context).1 with
        | none => inodeNo = 0
        | some entry =>
            inodeNo = entry.inodeNo ∧ BufferHolds buffer after entry
  find : ∀ (name : List UInt8) (curr : Memory) (buffer : Option Memory),
    0 ∉ name → ∃ fuel inodeNo after last,
      findFileInDirectory fuel volume uninit curr inode name buffer =
          some (inodeNo, after, last) ∧
        match lookup entries name with
        | none => inodeNo = 0
        | some entry =>
            inodeNo = entry.inodeNo ∧ BufferHolds buffer after entry

variable {volume uninit inode entries}

theorem follow_empty {γ : Type} (empty : inodeFileSize volume inode = 0)
    (f : Callback γ) (context : γ) (curr : Memory) (buffer : Option Memory) :
    followDirectoryEntries 1 volume uninit curr inode context buffer f =
      some (0, buffer, context) := by
  rw [followDirectoryEntries, followLoop, empty, if_neg (Nat.lt_irrefl 0),
    ite_self]

theorem correct_of_empty (empty : inodeFileSize volume inode = 0) :
    DirectoryCorrect volume uninit inode [] := by
  constructor
  · intro γ f context curr buffer
    exact ⟨1, 0, buffer, context, follow_empty empty _ _ _ _, rfl, rfl⟩
  · intro name curr buffer _
    exact ⟨1, 0, buffer, name, follow_empty empty _ _ _ _, rfl⟩

theorem image_nonempty {offset : Nat}
    (readable :
      Readable volume uninit inode 0 (inodeFileSize volume inode))
    (positive :
      0 < (directoryContent volume uninit inode).load (offset + 4) 2) :
    0 < volume.image.size := by
  by_contra none
  have zero : ∀ place, directoryContent volume uninit inode place = 0 := by
    intro place
    rw [directoryContent]
    split
    · next inside =>
        have hole : fileBlock volume uninit inode place = 0 := by
          rcases (readable place (Nat.zero_le _) (by omega)).2 with
            hole | stored
          · exact hole
          · omega
        rw [fileByte]
        simp only [hole, if_true]
    · rfl
  have nothing : (directoryContent volume uninit inode).load (offset + 4) 2 =
      Memory.load (fun _ => 0) (offset + 4) 2 :=
    Memory.load_congr fun place _ _ => zero place
  rw [nothing] at positive
  exact absurd positive (Nat.lt_irrefl 0)

theorem start_read {offset : Nat}
    (readable :
      Readable volume uninit inode 0 (inodeFileSize volume inode))
    (content : 0 < inodeFileSize volume inode)
    (positive :
      0 < (directoryContent volume uninit inode).load (offset + 4) 2)
    (curr : Memory) :
    0 < (readFileBlock volume uninit inode 0 sizeofDirEntry curr 0).1 := by
  have position : filePosition volume uninit inode 0 < volume.image.size := by
    rcases (readable 0 (Nat.le_refl _) (by omega)).2 with hole | stored
    · rw [filePosition, hole, Nat.mul_zero, Nat.zero_mod, Nat.zero_mod]
      exact image_nonempty readable positive
    · exact lt_of_le_of_lt (Nat.mod_le _ _) stored
  rw [readFileBlock_eq]
  simp only [sizeofDirEntry]
  omega

/-- A callback that always returns one stops at the start, and the number in
the buffer of the caller is returned. -/
theorem follow_start {fuel : Nat} {curr bytes : Memory}
    {result : Nat × Option Memory × Unit}
    (directory : iMode inode >>> 12 = 4)
    (content : 0 < inodeFileSize volume inode)
    (read : 0 < (readFileBlock volume uninit inode 0 sizeofDirEntry curr 0).1)
    (run : followDirectoryEntries fuel volume uninit curr inode ()
      (some bytes) (fun _ _ _ => (1, ())) = some result) :
    result.1 = deInodeNo bytes := by
  rw [followDirectoryEntries, if_neg (not_not.mpr directory)] at run
  cases fuel with
  | zero => cases run
  | succ fuel =>
      rw [followLoop, if_pos content] at run
      simp only [if_neg (Int.not_le.mpr read)] at run
      obtain rfl := Option.some.inj run
      rfl

theorem not_correct_of_content (directory : iMode inode >>> 12 = 4)
    (readable :
      Readable volume uninit inode 0 (inodeFileSize volume inode))
    (chain : Chain (directoryContent volume uninit inode)
      (inodeFileSize volume inode) 0 entries)
    (content : 0 < inodeFileSize volume inode) :
    ¬ DirectoryCorrect volume uninit inode entries := by
  intro correct
  have read : ∀ curr,
      0 < (readFileBlock volume uninit inode 0 sizeofDirEntry curr 0).1 :=
    start_read readable content (chain.first content)
  have same : ∀ bytes, deInodeNo bytes =
      match (visit (fun _ _ _ => (1, ())) entries ()).1 with
      | none => 0
      | some entry => entry.inodeNo := by
    intro bytes
    obtain ⟨fuel, inodeNo, after, last, run, _, result⟩ :=
      correct.follow (fun _ _ _ => (1, ())) () (fun _ => 0) (some bytes)
    have returned : inodeNo = deInodeNo bytes :=
      follow_start directory content (read _) run
    rw [← returned]
    split at result
    · exact result
    · exact result.1
  have clash := (same fun _ => 0).trans (same fun _ => 1).symm
  exact absurd clash (by decide)

/-- Of the well-formed directories the empty ones only are followed as they
should. -/
theorem directory_correct (directory : iMode inode >>> 12 = 4)
    (readable :
      Readable volume uninit inode 0 (inodeFileSize volume inode))
    (chain : Chain (directoryContent volume uninit inode)
      (inodeFileSize volume inode) 0 entries) :
    DirectoryCorrect volume uninit inode entries ↔
      inodeFileSize volume inode = 0 := by
  constructor
  · intro correct
    by_contra content
    exact not_correct_of_content directory readable chain
      (Nat.pos_of_ne_zero content) correct
  · intro empty
    rw [empty] at chain
    rw [chain.eq_nil]
    exact correct_of_empty empty

end Correct

/-- Block 1 holds the entries `a` with inode 11 and `b` with inode 12. -/
def entriesVolume : Volume where
  image :=
    { size := 2048
      byte := fun position =>
        if position = 1024 then 11
        else if position = 1028 then 12
        else if position = 1030 then 1
        else if position = 1032 then 97
        else if position = 1036 then 12
        else if position = 1040 then 12
        else if position = 1042 then 1
        else if position = 1044 then 98
        else 0 }
  super := fun _ => 0
  blockSize := 1024
  groups := fun _ => 0
  blockSize_lt := treeVolume.blockSize_lt
  blockSize_pos := treeVolume.blockSize_pos

/-- A directory with `size` bytes in block 1. -/
def directoryInode (size : UInt8) : Memory := fun index =>
  if index = 1 then 64
  else if index = 4 then size
  else if index = 40 then 1
  else 0

section DirectoryInode

variable (size : UInt8) (uninit : Nat → Memory)

theorem directoryInode_size :
    inodeFileSize entriesVolume (directoryInode size) = size.toNat := by
  simp [inodeFileSize, sFeatureRoCompat, iSize, Memory.load, entriesVolume,
    directoryInode]

theorem directoryInode_block {place : Nat} (inside : place < 1024) :
    fileBlock entriesVolume uninit (directoryInode size) place = 1 := by
  have zero : place / 1024 = 0 := Nat.div_eq_of_lt inside
  have direct := getInodeBlockNo_direct entriesVolume uninit
    (directoryInode size) (show place / 1024 < 12 by omega)
  change (getInodeBlockNo entriesVolume uninit (directoryInode size)
    (place / 1024)).1 = 1
  rw [direct, zero]
  simp [iBlock, Memory.load, directoryInode]

theorem directoryInode_readable :
    Readable entriesVolume uninit (directoryInode size) 0
      (inodeFileSize entriesVolume (directoryInode size)) := by
  have bound := size.toNat_lt
  rw [directoryInode_size]
  intro place _ inside
  rw [directoryInode_block size uninit (by omega)]
  change 1 ≠ invalidBlockNumber ∧ (1 = 0 ∨ 1024 * 1 + place % 1024 < 2048)
  exact ⟨by decide, .inr (by omega)⟩

end DirectoryInode

theorem pairDirectory_chain :
    Chain (directoryContent entriesVolume (fun _ _ => 0) (directoryInode 24))
      24 0 [⟨11, [97]⟩, ⟨12, [98]⟩] := by
  refine .entry 0 (by decide +kernel) ?_
  refine .entry 12 (by decide +kernel) ?_
  exact .done

/-- An empty directory is followed as it should, one with two entries is not. -/
theorem smallDirectories_correct :
    DirectoryCorrect entriesVolume (fun _ _ => 0) (directoryInode 0) [] ∧
      ¬DirectoryCorrect entriesVolume (fun _ _ => 0) (directoryInode 24)
        [⟨11, [97]⟩, ⟨12, [98]⟩] := by
  have none : inodeFileSize entriesVolume (directoryInode 0) = 0 :=
    directoryInode_size 0
  have both : inodeFileSize entriesVolume (directoryInode 24) = 24 :=
    directoryInode_size 24
  have empty := @directory_correct entriesVolume (fun _ _ => 0)
    (directoryInode 0) [] (by decide +kernel) (directoryInode_readable 0 _) (by
      rw [none]
      exact .done)
  have pair := @directory_correct entriesVolume (fun _ _ => 0)
    (directoryInode 24) [⟨11, [97]⟩, ⟨12, [98]⟩] (by decide +kernel)
    (directoryInode_readable 24 _) (by
      rw [both]
      exact pairDirectory_chain)
  rw [empty, pair, none, both]
  decide

/-- A callback that stops at the first entry gives the number the buffer of
the caller happened to hold. -/
theorem pairDirectory_incorrect :
    ¬ DirectoryCorrect entriesVolume (fun _ _ => 0) (directoryInode 24)
      [⟨11, [97]⟩, ⟨12, [98]⟩] := by
  have size : inodeFileSize entriesVolume (directoryInode 24) = 24 :=
    directoryInode_size 24
  refine not_correct_of_content (by decide +kernel)
    (directoryInode_readable 24 _) ?_ ?_
  · rw [size]
    exact pairDirectory_chain
  · rw [size]
    decide

end SystemsLabs.Ext2
