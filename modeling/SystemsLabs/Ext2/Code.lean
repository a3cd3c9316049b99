import SystemsLabs.Library.ByteMemory
import SystemsLabs.Library.MachineInt

/-!
# The ext2 reader of `lab7/ext2.c`

Block, file, directory and path access on a volume image.  The structures of
the disk format are the bytes at a pointer, read through accessors; `uint32_t`
and `uint64_t` values are naturals with explicit reduction, `int` arithmetic
wraps.  Local variables that the code does not initialise are parameters.

`pread` on the image returns all bytes up to the end of the file.  `none`
stands for a loop that did not end in the given number of rounds, for reading
through a null pointer, for writing behind the end of an array and for a loop
counter of type `int` that overflows.
-/

namespace SystemsLabs.Ext2

/-- A finite byte string, the file that holds the volume. -/
structure Image where
  size : Nat
  byte : Memory

/-- The number of bytes read, and the memory with them at `buffer`. -/
def pread (image : Image) (memory : Memory) (buffer count position : Nat) :
    Int × Memory :=
  let read := min count (image.size - position)
  (read, memory.copy buffer image.byte position read)

/-- `super` and `groups` are the bytes of the superblock and of the group
descriptor table.  The block size is a divisor; it is never 0 in a volume that
was opened without an overflow. -/
structure Volume where
  image : Image
  super : Memory
  blockSize : Nat
  groups : Memory
  blockSize_lt : blockSize < 2 ^ 32
  blockSize_pos : 0 < blockSize

def sInodesCount (super : Memory) : Nat := super.load 0 4

def sBlocksCount (super : Memory) : Nat := super.load 4 4

def sFirstDataBlock (super : Memory) : Nat := super.load 20 4

def sLogBlockSize (super : Memory) : Nat := super.load 24 4

def sBlocksPerGroup (super : Memory) : Nat := super.load 32 4

def sMagic (super : Memory) : Nat := super.load 56 2

def sInodesPerGroup (super : Memory) : Nat := super.load 40 4

def sInodeSize (super : Memory) : Nat := super.load 88 2

def sFeatureRoCompat (super : Memory) : Nat := super.load 100 4

/-- `groups[group].bg_inode_table`. -/
def bgInodeTable (groups : Memory) (group : Nat) : Nat :=
  groups.load (32 * group + 8) 4

def iMode (inode : Memory) : Nat := inode.load 0 2

def iSize (inode : Memory) : Nat := inode.load 4 4

def iBlock (inode : Memory) (index : Nat) : Nat :=
  inode.load (40 + 4 * index) 4

def iBlock1ind (inode : Memory) : Nat := inode.load 88 4

def iBlock2ind (inode : Memory) : Nat := inode.load 92 4

def iBlock3ind (inode : Memory) : Nat := inode.load 96 4

def iDirAcl (inode : Memory) : Nat := inode.load 108 4

def deInodeNo (entry : Memory) : Nat := entry.load 0 4

/-- The bytes at `entry->de_name`. -/
def deName (entry : Memory) : Memory := fun index => entry (8 + index)

/-- `sizeof(inode_t)`. -/
def sizeofInode : Nat := 128

/-- `sizeof(struct dir_entry)`. -/
def sizeofDirEntry : Nat := 264

/-- `EXT2_INVALID_BLOCK_NUMBER`. -/
def invalidBlockNumber : Nat := 2 ^ 32 - 1

/-- The product and the sum are those of `uint32_t`. -/
def readBlock (volume : Volume) (blockNo offset size : Nat) (memory : Memory)
    (buffer : Nat) : Int × Memory :=
  pread volume.image memory buffer size
    ((volume.blockSize * blockNo + offset) % 2 ^ 32)

/-- `none` when the group number is negative. -/
def readInode (volume : Volume) (inodeNo : Nat) (memory : Memory)
    (buffer : Nat) : Option (Int × Memory) :=
  let inodesPerGroup := sInodesPerGroup volume.super
  let inodeSize := sInodeSize volume.super
  let blockGroup := toInt (toUint32 (inodeNo - 1) / inodesPerGroup : Nat)
  let index := toInt (toUint32 (inodeNo - 1) % inodesPerGroup : Nat)
  if inodesPerGroup = 0 ∨ blockGroup < 0 then none
  else
    some (readBlock volume (bgInodeTable volume.groups blockGroup.toNat)
      (toUint32 (toInt (index * inodeSize))) inodeSize memory buffer)

/-- `uninit` is the content of the local `buffer` before the read. -/
def readIndBlockEntry (volume : Volume) (uninit : Memory)
    (indBlockNo index : Nat) : Nat :=
  let (count, buffer) :=
    readBlock volume indBlockNo (4 * index % 2 ^ 32) 4 uninit 0
  if 0 < count then buffer.load 0 4 else invalidBlockNumber

/-- The block number, and the indices passed to `readIndBlockEntry`.  `uninit`
gives the content of its local for each of the calls. -/
def getInodeBlockNo (volume : Volume) (uninit : Nat → Memory)
    (inode : Memory) (blockIdx : Nat) : Nat × List Nat :=
  let numOfBlock : Int := (volume.blockSize / 4 : Nat)
  let square := toInt (numOfBlock * numOfBlock)
  let cube := toInt (square * numOfBlock)
  let single := toInt (12 + numOfBlock)
  let double := toInt (single + square)
  let triple := toInt (double + cube)
  if blockIdx < 12 then
    (iBlock inode blockIdx, [])
  else if blockIdx < toUint64 single then
    let index := toUint32 (blockIdx - 12)
    (readIndBlockEntry volume (uninit 0) (iBlock1ind inode) index, [index])
  else if blockIdx < toUint64 double then
    let rest := toUint64 (blockIdx - 12 - numOfBlock)
    let first := toUint32 (rest / toUint64 square : Nat)
    let second :=
      readIndBlockEntry volume (uninit 0) (iBlock2ind inode) first
    let last := toUint32 rest
    (readIndBlockEntry volume (uninit 1) second last, [first, last])
  else if blockIdx < toUint64 triple then
    let rest := toUint64 (blockIdx - 12 - numOfBlock - square)
    let index := toInt (rest / toUint64 square / toUint64 cube : Nat)
    let third :=
      readIndBlockEntry volume (uninit 0) (iBlock3ind inode) (toUint32 index)
    let middle := toUint32 (toInt (index * cube))
    let second := readIndBlockEntry volume (uninit 1) third middle
    let last := toUint32 rest
    (readIndBlockEntry volume (uninit 2) second last,
      [toUint32 index, middle, last])
  else
    (invalidBlockNumber, [])

def readFileBlock (volume : Volume) (uninit : Nat → Memory) (inode : Memory)
    (offset maxSize : Nat) (memory : Memory) (buffer : Nat) : Int × Memory :=
  let blockNo :=
    (getInodeBlockNo volume uninit inode (offset / volume.blockSize)).1
  let myOffset := offset % volume.blockSize
  readBlock volume blockNo myOffset (toUint32 maxSize) memory buffer

def inodeFileSize (volume : Volume) (inode : Memory) : Nat :=
  if sFeatureRoCompat volume.super &&& 2 ≠ 0 ∧
      iMode inode &&& 0xF000 = 0x8000 then
    iDirAcl inode <<< 32 ||| iSize inode
  else
    iSize inode

/-- The `while` loop of `read_file_content`. -/
def contentLoop (volume : Volume) (uninit : Nat → Memory) (inode : Memory)
    (offset maxSize buffer : Nat) :
    Nat → Nat → Memory → Option (Int × Memory)
  | 0, _, _ => none
  | fuel + 1, readSoFar, memory =>
      if readSoFar < maxSize then
        let (count, memory) := readFileBlock volume uninit inode
          (toUint64 (offset + readSoFar)) (maxSize - readSoFar) memory
          (buffer + readSoFar)
        let rv := toInt count
        if rv ≤ 0 then some (rv, memory)
        else
          contentLoop volume uninit inode offset maxSize buffer fuel
            (toUint32 (readSoFar + rv)) memory
      else
        some (readSoFar, memory)

def readFileContent (fuel : Nat) (volume : Volume) (uninit : Nat → Memory)
    (inode : Memory) (offset maxSize : Nat) (memory : Memory) (buffer : Nat) :
    Option (Int × Memory) :=
  let maxSize :=
    if inodeFileSize volume inode < toUint64 (offset + maxSize) then
      toUint64 (inodeFileSize volume inode - offset)
    else maxSize
  contentLoop volume uninit inode offset maxSize buffer fuel 0 memory

/-- A callback: the bytes at the name, the inode number, the context; it
returns an `int` and may change the context. -/
abbrev Callback (γ : Type) := Memory → Nat → γ → Int × γ

/-- The `while` loop of `follow_directory_entries`; the buffer of the caller is
`none` when the pointer is `NULL`. -/
def followLoop {γ : Type} (volume : Volume) (uninit : Nat → Memory)
    (inode : Memory) (buffer : Option Memory) (f : Callback γ) :
    Nat → Nat → Memory → γ → Option (Nat × Option Memory × γ)
  | 0, _, _, _ => none
  | fuel + 1, i, curr, context =>
      if i < inodeFileSize volume inode then
        let (count, curr) :=
          readFileBlock volume uninit inode i sizeofDirEntry curr 0
        if count ≤ 0 then some (0, buffer, context)
        else
          let (result, context) := f (deName curr) (deInodeNo curr) context
          if 0 < result then
            buffer.map fun entry => (deInodeNo entry, buffer, context)
          else if i + 1 < 2 ^ 31 then
            followLoop volume uninit inode buffer f fuel (i + 1) curr context
          else none
      else
        some (0, buffer, context)

/-- The inode number, the buffer of the caller and the context afterwards;
`curr` is the content of the entry the function allocates. -/
def followDirectoryEntries {γ : Type} (fuel : Nat) (volume : Volume)
    (uninit : Nat → Memory) (curr : Memory) (inode : Memory) (context : γ)
    (buffer : Option Memory) (f : Callback γ) :
    Option (Nat × Option Memory × γ) :=
  if iMode inode >>> 12 ≠ 4 then some (0, buffer, context)
  else followLoop volume uninit inode buffer f fuel 0 curr context

/-- `!strcmp(name, context)`; the context is the bytes of the string. -/
def compareFileName (name : Memory) (_inodeNo : Nat) (context : List UInt8) :
    Int :=
  if ∀ index ≤ context.length, name index = context.getD index 0 then 1 else 0

def findFileInDirectory (fuel : Nat) (volume : Volume)
    (uninit : Nat → Memory) (curr : Memory) (inode : Memory)
    (name : List UInt8) (buffer : Option Memory) :
    Option (Nat × Option Memory × List UInt8) :=
  followDirectoryEntries fuel volume uninit curr inode name buffer
    fun entryName inodeNo context =>
      (compareFileName entryName inodeNo context, context)

/-- The string in an array of 256 characters. -/
def cString (name : Memory) : List UInt8 :=
  ((List.range 256).map name).takeWhile (· ≠ 0)

def slash : UInt8 := 47

/-- The `while` loop of `find_file_from_path` on the rest of the path.  `find`
returns the inode number and the number left in `buffer->de_inode_no`; `read`
is `read_inode` into `dest_inode`. -/
def pathLoop (find : Memory → List UInt8 → Nat → Nat × Nat)
    (read : Nat → Memory → Int × Memory) :
    List UInt8 → Memory → Nat → Memory → Nat → Option (Nat × Memory)
  | [], _, _, destInode, buffer =>
      -- the test behind the loop compares the pointer `inode`, not a number
      some (buffer, destInode)
  | byte :: rest, name, i, destInode, buffer =>
      if byte = slash then
        let (inode, buffer) := find destInode (cString name) buffer
        if toInt inode ≤ 0 then some (0, destInode)
        else
          pathLoop find read rest name 0 (read inode destInode).2 buffer
      else if i + 1 < 256 then
        pathLoop find read rest ((name.write i byte).write (i + 1) 0) (i + 1)
          destInode buffer
      else none

/-- The result and `dest_inode` afterwards.  `inode`, `buffer` and `name` are
the contents of the memory that the function allocates. -/
def findFileFromPath (super : Memory)
    (find : Memory → List UInt8 → Nat → Nat × Nat)
    (read : Nat → Memory → Int × Memory) (inode : Memory) (buffer : Nat)
    (name : Memory) (path : List UInt8) (destInode : Memory) :
    Option (Nat × Memory) :=
  match path with
  | [] => some (0, destInode)
  | first :: rest =>
      if first ≠ slash then some (0, destInode)
      else if rest = [] then
        some (2, destInode.copy 0 inode 0 (sInodeSize super))
      else
        pathLoop find read rest name 0 destInode buffer

end SystemsLabs.Ext2
