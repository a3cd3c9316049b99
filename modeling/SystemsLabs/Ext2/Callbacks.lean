import SystemsLabs.Ext2.Code

/-!
# The FUSE callbacks of `lab7/ext2fs.c`

`ext2_getattr`, `ext2_readdir`, `ext2_open`, `ext2_read` and `ext2_readlink`
for one path.
`find` is `find_file_from_path` for the volume and the path: from the content
of `dest_inode` it gives the result and the content afterwards.  `fresh` is
the content of the inode that a callback allocates.
-/

namespace SystemsLabs.Ext2

def enoent : Int := 2

def eio : Int := 5

def eacces : Int := 13

def eisdir : Int := 21

def einval : Int := 22

def oWronly : BitVec 32 := 1

def oRdwr : BitVec 32 := 2

abbrev FindPath := Memory → Nat × Memory

/-- The members of `struct stat` that `ext2_getattr` stores. -/
structure Stat where
  stMode : Nat
  stUid : Nat
  stSize : Nat
  stAtime : Nat
  stCtime : Nat
  stMtime : Nat
  stGid : Nat
  stNlink : Nat
  stBlocks : Nat
  stIno : Nat
  stBlksize : Nat

def ext2Getattr (volume : Volume) (find : FindPath) (fresh : Memory)
    (stbuf : Stat) : Int × Stat :=
  let (inodeNo, readInode) := find fresh
  if inodeNo ≠ 0 then
    (0,
      { stMode := iMode readInode
        stUid := readInode.load 2 2
        stSize := iSize readInode
        stAtime := readInode.load 8 4
        stCtime := readInode.load 12 4
        stMtime := readInode.load 16 4
        stGid := readInode.load 24 2
        stNlink := readInode.load 26 2
        stBlocks := readInode.load 28 4
        stIno := (find readInode).1
        stBlksize := volume.blockSize })
  else (-enoent, stbuf)

/-- `follow_directory_entries` without a buffer and with `NULL` for `f`, which
it calls for the first entry it reads. -/
def followNull (volume : Volume) (uninit : Nat → Memory) (curr : Memory)
    (inode : Memory) : Option Nat :=
  if iMode inode >>> 12 ≠ 4 then some 0
  else if 0 < inodeFileSize volume inode then
    if (readFileBlock volume uninit inode 0 sizeofDirEntry curr 0).1 ≤ 0 then
      some 0
    else none
  else some 0

/-- The result, and the names that were passed to `filler`: the function that
calls it is defined and never used. -/
def ext2Readdir (volume : Volume) (find : FindPath) (uninit : Nat → Memory)
    (curr fresh : Memory) : Option (Int × List (List UInt8)) :=
  let (inodeNo, readInode) := find fresh
  if inodeNo = 0 ∨ iMode readInode >>> 12 ≠ 4 then some (-enoent, [])
  else do
    let followed ← followNull volume uninit curr readInode
    if followed = 0 then return (-enoent, []) else return (0, [])

/-- The result and `fi->fh`. -/
def ext2Open (find : FindPath) (fresh : Memory) (flags : BitVec 32)
    (fh : Nat) : Int × Nat :=
  if flags &&& oWronly ≠ 0 ∨ flags &&& oRdwr ≠ 0 then (-eacces, fh)
  else if iMode fresh >>> 12 = 4 then (eisdir, fh)
  else
    let (inodeNo, readInode) := find fresh
    if inodeNo ≠ 0 then (0, (find readInode).1) else (-enoent, fh)

def ext2Read (fuel : Nat) (volume : Volume) (find : FindPath)
    (uninit : Nat → Memory) (fresh : Memory) (size offset : Nat)
    (memory : Memory) (buf : Nat) : Option (Int × Memory) := do
  let (whetherFoundPath, readInode) := find fresh
  let (count, memory) ←
    readFileContent fuel volume uninit readInode offset size memory buf
  let numBytesAnswer := toInt count
  if iMode readInode >>> 12 = 4 then return (-eisdir, memory)
  else if whetherFoundPath = 0 then return (-enoent, memory)
  else if numBytesAnswer ≥ 0 then return (numBytesAnswer, memory)
  else return (-eio, memory)

def ext2Readlink (fuel : Nat) (volume : Volume) (find : FindPath)
    (uninit : Nat → Memory) (fresh : Memory) (size : Nat) (memory : Memory)
    (buf : Nat) : Option (Int × Memory) :=
  let (inodeNo, readInode) := find fresh
  if inodeNo = 0 then some (-enoent, memory)
  else if iSize readInode ≤ 60 then some (-einval, memory)
  else do
    let (count, memory) ←
      readFileContent fuel volume uninit readInode 0 size memory buf
    if count < 0 then return (-eio, memory)
    else return (0, memory.write (buf + size) 0)

end SystemsLabs.Ext2
