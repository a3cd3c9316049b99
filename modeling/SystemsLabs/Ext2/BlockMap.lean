import SystemsLabs.Ext2.Code
import Mathlib.Algebra.Order.Ring.Int
import Mathlib.Tactic.Ring

/-!
# The block map of an inode

`blockMap` is the map of the disk format: twelve direct blocks and three trees
of indirect blocks of depth one, two and three.  `getInodeBlockNo` agrees with
it on the first entries of each tree, as long as the blocks on the way are not
holes and lie below 4 GiB; behind them it passes indices outside a block.
-/

namespace SystemsLabs.Ext2

/-- The `index`-th number in block `block`; holes are full of zeros. -/
def blockEntry (volume : Volume) (block index : Nat) : Option Nat :=
  if block = 0 then some 0
  else
    let position := volume.blockSize * block + 4 * index
    if position + 4 ≤ volume.image.size then
      some (volume.image.byte.load position 4)
    else none

/-- From a root down a tree of indirect blocks. -/
def descend (volume : Volume) (block : Nat) : List Nat → Option Nat
  | [] => some block
  | index :: rest => do
      let next ← blockEntry volume block index
      descend volume next rest

/-- Where the number of a block is found: the root of a tree and the entries
on the way down. -/
def blockRoute (volume : Volume) (inode : Memory) (blockIdx : Nat) :
    Option (Nat × List Nat) :=
  let n := volume.blockSize / 4
  if blockIdx < 12 then some (iBlock inode blockIdx, [])
  else if blockIdx - 12 < n then some (iBlock1ind inode, [blockIdx - 12])
  else if blockIdx - 12 - n < n ^ 2 then
    let rest := blockIdx - 12 - n
    some (iBlock2ind inode, [rest / n, rest % n])
  else if blockIdx - 12 - n - n ^ 2 < n ^ 3 then
    let rest := blockIdx - 12 - n - n ^ 2
    some (iBlock3ind inode, [rest / n ^ 2, rest / n % n, rest % n])
  else none

def blockMap (volume : Volume) (inode : Memory) (blockIdx : Nat) :
    Option Nat := do
  let (root, indices) ← blockRoute volume inode blockIdx
  descend volume root indices

/-- The same way down by `readIndBlockEntry`, whose calls are numbered. -/
def readDown (volume : Volume) (uninit : Nat → Memory) :
    Nat → Nat → List Nat → Nat
  | _, block, [] => block
  | call, block, index :: rest =>
      readDown volume uninit (call + 1)
        (readIndBlockEntry volume (uninit call) block index) rest

/-- An entry that is read where it is: not in a hole (unless the first block
of the image is zero there), below 4 GiB and not cut by the end of the image. -/
def EntrySound (volume : Volume) (block index : Nat) : Prop :=
  if block = 0 then
    4 * index + 4 ≤ volume.image.size ∧
      volume.image.byte.load (4 * index) 4 = 0
  else
    volume.blockSize * block + 4 * index < 2 ^ 32 ∧
      (volume.blockSize * block + 4 * index + 4 ≤ volume.image.size ∨
        volume.image.size ≤ volume.blockSize * block + 4 * index)

/-- Every entry on the way is sound; behind one that cannot be read the image
ends before the last 32-bit block. -/
def RouteSound (volume : Volume) (block : Nat) : List Nat → Prop
  | [] => True
  | index :: rest =>
      EntrySound volume block index ∧
        match blockEntry volume block index with
        | some next => RouteSound volume next rest
        | none => rest = [] ∨ volume.image.size ≤ 2 ^ 32 - volume.blockSize

theorem readIndBlockEntry_eq (volume : Volume) (uninit : Memory)
    {block index position : Nat}
    (place : (volume.blockSize * block + 4 * index % 2 ^ 32) % 2 ^ 32 =
      position)
    (whole : position + 4 ≤ volume.image.size ∨
      volume.image.size ≤ position) :
    readIndBlockEntry volume uninit block index =
      if position + 4 ≤ volume.image.size then
        volume.image.byte.load position 4
      else invalidBlockNumber := by
  rw [readIndBlockEntry, readBlock, pread]
  simp only [place]
  rcases whole with inside | outside
  · have full : min 4 (volume.image.size - position) = 4 := by omega
    rw [full, if_pos (by decide), if_pos inside]
    apply Memory.load_copy
    intro index small
    exact Memory.copy_inside _ _ 0 position small
  · have empty : min 4 (volume.image.size - position) = 0 := by omega
    rw [empty, if_neg (by decide), if_neg (by omega)]

theorem readIndBlockEntry_sound {volume : Volume} {block index : Nat}
    (sound : EntrySound volume block index)
    (inside : 4 * index < volume.blockSize) (uninit : Memory) :
    readIndBlockEntry volume uninit block index =
      (blockEntry volume block index).getD invalidBlockNumber := by
  have offset : 4 * index % 2 ^ 32 = 4 * index :=
    Nat.mod_eq_of_lt (inside.trans volume.blockSize_lt)
  by_cases hole : block = 0
  · rw [EntrySound, if_pos hole] at sound
    have place : (volume.blockSize * block + 4 * index % 2 ^ 32) % 2 ^ 32 =
        4 * index := by
      rw [hole, Nat.mul_zero, Nat.zero_add, offset, offset]
    rw [readIndBlockEntry_eq volume uninit place (.inl sound.1),
      if_pos sound.1, sound.2, blockEntry, if_pos hole]
    rfl
  · rw [EntrySound, if_neg hole] at sound
    have place : (volume.blockSize * block + 4 * index % 2 ^ 32) % 2 ^ 32 =
        volume.blockSize * block + 4 * index := by
      rw [offset, Nat.mod_eq_of_lt sound.1]
    rw [readIndBlockEntry_eq volume uninit place sound.2, blockEntry,
      if_neg hole]
    by_cases whole :
        volume.blockSize * block + 4 * index + 4 ≤ volume.image.size
    · simp [whole]
    · simp [whole]

theorem readDown_invalid {volume : Volume} (uninit : Nat → Memory)
    (ends : volume.image.size ≤ 2 ^ 32 - volume.blockSize)
    (indices : List Nat) :
    ∀ call, (∀ index ∈ indices, 4 * index < volume.blockSize) →
      readDown volume uninit call invalidBlockNumber indices =
        invalidBlockNumber := by
  induction indices with
  | nil =>
      intro call _
      rfl
  | cons index rest ih =>
      intro call inside
      have first := inside index List.mem_cons_self
      have small := volume.blockSize_lt
      have offset : 4 * index % 2 ^ 32 = 4 * index :=
        Nat.mod_eq_of_lt (by omega)
      have wrapped : volume.blockSize * invalidBlockNumber =
          2 ^ 32 * (volume.blockSize - 1) + (2 ^ 32 - volume.blockSize) := by
        simp only [invalidBlockNumber]
        omega
      have place : (volume.blockSize * invalidBlockNumber +
          4 * index % 2 ^ 32) % 2 ^ 32 =
            2 ^ 32 - volume.blockSize + 4 * index := by
        rw [offset, wrapped, Nat.add_assoc, Nat.mul_add_mod,
          Nat.mod_eq_of_lt (by omega)]
      have failed := readIndBlockEntry_eq volume (uninit call) place
        (.inr (by omega))
      rw [if_neg (by omega)] at failed
      rw [readDown, failed]
      exact ih (call + 1) fun other member =>
        inside other (List.mem_cons_of_mem _ member)

theorem readDown_sound {volume : Volume} (uninit : Nat → Memory)
    (indices : List Nat) :
    ∀ call block, RouteSound volume block indices →
      (∀ index ∈ indices, 4 * index < volume.blockSize) →
      readDown volume uninit call block indices =
        (descend volume block indices).getD invalidBlockNumber := by
  induction indices with
  | nil =>
      intro call block _ _
      rfl
  | cons index rest ih =>
      intro call block sound inside
      have others : ∀ other ∈ rest, 4 * other < volume.blockSize :=
        fun other member => inside other (List.mem_cons_of_mem _ member)
      obtain ⟨entry, onward⟩ := sound
      rw [readDown, readIndBlockEntry_sound entry
        (inside index List.mem_cons_self)]
      cases found : blockEntry volume block index with
      | some next =>
          rw [found] at onward
          have result := ih (call + 1) next onward others
          simpa [descend, found] using result
      | none =>
          rw [found] at onward
          have result : readDown volume uninit (call + 1)
              invalidBlockNumber rest = invalidBlockNumber := by
            rcases onward with rfl | ends
            · rfl
            · exact readDown_invalid uninit ends rest _ others
          simpa [descend, found] using result

section Regions

variable (volume : Volume) (uninit : Nat → Memory) (inode : Memory)
  {blockIdx n square cube rest : Nat}

theorem getInodeBlockNo_direct (direct : blockIdx < 12) :
    getInodeBlockNo volume uninit inode blockIdx =
      (iBlock inode blockIdx, []) := by
  rw [getInodeBlockNo]
  simp only [if_pos direct]

theorem getInodeBlockNo_single (entries : volume.blockSize / 4 = n)
    (place : blockIdx = 12 + rest) (inside : rest < n) :
    getInodeBlockNo volume uninit inode blockIdx =
      (readDown volume uninit 0 (iBlock1ind inode) [rest], [rest]) := by
  have small := volume.blockSize_lt
  have single : toInt (12 + (n : Int)) = (12 + n : Nat) :=
    toInt_of_nat _ (by omega) (by omega)
  have bound : toUint64 ((12 + n : Nat) : Int) = 12 + n :=
    toUint64_of_nat _ rfl (by omega)
  have index : toUint32 ((blockIdx : Int) - 12) = rest :=
    toUint32_of_nat _ (by omega) (by omega)
  rw [getInodeBlockNo]
  simp only [entries, single, bound, index]
  rw [if_neg (by omega), if_pos (by omega)]
  rfl

theorem bounds_of_small (isSquare : n ^ 2 = square)
    (fits : 12 + n + square < 2 ^ 31) :
    toInt ((n : Int) * n) = square ∧ toInt (12 + (n : Int)) = (12 + n : Nat) ∧
      toInt (((12 + n : Nat) : Int) + square) = (12 + n + square : Nat) := by
  refine ⟨toInt_of_nat _ ?_ (by omega), toInt_of_nat _ ?_ (by omega),
    toInt_of_nat _ ?_ fits⟩
  · rw [← isSquare]
    push_cast
    ring
  · push_cast
    ring
  · push_cast
    ring

theorem cube_of_small (isSquare : n ^ 2 = square) (isCube : n ^ 3 = cube)
    (fits : 12 + n + square + cube < 2 ^ 31) :
    toInt ((square : Int) * n) = cube ∧
      toInt (((12 + n + square : Nat) : Int) + cube) =
        (12 + n + square + cube : Nat) := by
  have smaller : cube < 2 ^ 31 := lt_of_le_of_lt (Nat.le_add_left _ _) fits
  refine ⟨toInt_of_nat _ ?_ smaller, toInt_of_nat _ ?_ fits⟩
  · rw [← isSquare, ← isCube]
    push_cast
    ring
  · push_cast
    ring

theorem toUint64_natCast (number : Nat) (small : number < 2 ^ 31) :
    toUint64 number = number :=
  toUint64_of_nat _ rfl (by omega)

/-- The first index divides by the square: it is always zero. -/
theorem getInodeBlockNo_double (entries : volume.blockSize / 4 = n)
    (isSquare : n ^ 2 = square) (fits : 12 + n + square < 2 ^ 31)
    (place : blockIdx = 12 + n + rest) (inside : rest < square) :
    getInodeBlockNo volume uninit inode blockIdx =
      (readDown volume uninit 0 (iBlock2ind inode) [0, rest], [0, rest]) := by
  obtain ⟨power, single, double⟩ := bounds_of_small isSquare fits
  have one := toUint64_natCast (12 + n) (by omega)
  have two := toUint64_natCast (12 + n + square) fits
  have divisor := toUint64_natCast square (by omega)
  have offset : toUint64 ((blockIdx : Int) - 12 - n) = rest :=
    toUint64_of_nat _ (by omega) (by omega)
  have last : toUint32 (rest : Int) = rest :=
    toUint32_of_nat _ rfl (by omega)
  have first : toUint32 ((0 : Nat) : Int) = 0 := rfl
  rw [getInodeBlockNo]
  simp only [entries, power, single, double, one, two, divisor, offset, last,
    Nat.div_eq_of_lt inside, first]
  rw [if_neg (by omega), if_neg (by omega), if_pos (by omega)]
  rfl

/-- The first index divides by the square and the cube, and the second one is
a multiple of it: both are always zero. -/
theorem getInodeBlockNo_triple (entries : volume.blockSize / 4 = n)
    (isSquare : n ^ 2 = square) (isCube : n ^ 3 = cube)
    (fits : 12 + n + square + cube < 2 ^ 31)
    (place : blockIdx = 12 + n + square + rest) (inside : rest < cube) :
    getInodeBlockNo volume uninit inode blockIdx =
      (readDown volume uninit 0 (iBlock3ind inode) [0, 0, rest],
        [0, 0, rest]) := by
  have one := toUint64_natCast (12 + n) (by omega)
  have two := toUint64_natCast (12 + n + square) (by omega)
  have three := toUint64_natCast (12 + n + square + cube) fits
  have divisor := toUint64_natCast square (by omega)
  have divisor' := toUint64_natCast cube (by omega)
  have offset : toUint64 ((blockIdx : Int) - 12 - n - square) = rest :=
    toUint64_of_nat _ (by omega) (by omega)
  have last : toUint32 (rest : Int) = rest :=
    toUint32_of_nat _ rfl (by omega)
  have quotient : rest / square / cube = 0 :=
    Nat.div_eq_of_lt (lt_of_le_of_lt (Nat.div_le_self _ _) inside)
  have index : toInt ((0 : Nat) : Int) = 0 := rfl
  have first : toUint32 0 = 0 := rfl
  have middle : toInt (0 * (cube : Int)) = 0 := by
    rw [Int.zero_mul]
    rfl
  obtain ⟨power, single, double⟩ := bounds_of_small isSquare
    (lt_of_le_of_lt (Nat.le_add_right _ cube) fits)
  obtain ⟨power', triple⟩ := cube_of_small isSquare isCube fits
  rw [getInodeBlockNo]
  simp only [entries, power, single, double, power', triple, one, two, three,
    divisor, divisor', offset, last, quotient, index, middle, first]
  clear power single double power' triple
  rw [if_neg (by omega), if_neg (by omega), if_neg (by omega),
    if_pos (by omega)]
  rfl

theorem getInodeBlockNo_beyond (entries : volume.blockSize / 4 = n)
    (isSquare : n ^ 2 = square) (isCube : n ^ 3 = cube)
    (fits : 12 + n + square + cube < 2 ^ 31)
    (beyond : 12 + n + square + cube ≤ blockIdx) :
    getInodeBlockNo volume uninit inode blockIdx =
      (invalidBlockNumber, []) := by
  have one := toUint64_natCast (12 + n) (by omega)
  have two := toUint64_natCast (12 + n + square) (by omega)
  have three := toUint64_natCast (12 + n + square + cube) fits
  obtain ⟨power, single, double⟩ := bounds_of_small isSquare
    (lt_of_le_of_lt (Nat.le_add_right _ cube) fits)
  obtain ⟨power', triple⟩ := cube_of_small isSquare isCube fits
  rw [getInodeBlockNo]
  simp only [entries, power, single, double, power', triple, one, two, three]
  clear power single double power' triple
  rw [if_neg (by omega), if_neg (by omega), if_neg (by omega),
    if_neg (by omega)]

end Regions

/-- What `getInodeBlockNo` is for: the number in the block map, found through
indices inside of a block. -/
def MapCorrect (volume : Volume) (inode : Memory) (blockIdx : Nat) : Prop :=
  ∀ uninit,
    (getInodeBlockNo volume uninit inode blockIdx).1 =
        (blockMap volume inode blockIdx).getD invalidBlockNumber ∧
      ∀ index ∈ (getInodeBlockNo volume uninit inode blockIdx).2,
        index < volume.blockSize / 4

/-- The indices for which only the last entry of the way down is not the first
one of its block. -/
def AmongFirst (n blockIdx : Nat) : Prop :=
  blockIdx < 12 + 2 * n ∨
    (12 + n + n ^ 2 ≤ blockIdx ∧ blockIdx < 12 + n + n ^ 2 + n) ∨
      12 + n + n ^ 2 + n ^ 3 ≤ blockIdx

/-- The bounds that are compared on the way to the region of a block do not
overflow an `int`. -/
def BoundsFit (n blockIdx : Nat) : Prop :=
  (12 + n ≤ blockIdx → 12 + n + n ^ 2 < 2 ^ 31) ∧
    (12 + n + n ^ 2 ≤ blockIdx → 12 + n + n ^ 2 + n ^ 3 < 2 ^ 31)

/-- The block is among the first ones of its region, and the entries on the
way to it are where the code reads them. -/
def MapSound (volume : Volume) (inode : Memory) (blockIdx : Nat) : Prop :=
  let n := volume.blockSize / 4
  AmongFirst n blockIdx ∧ BoundsFit n blockIdx ∧
    ∀ route, blockRoute volume inode blockIdx = some route →
      RouteSound volume route.1 route.2

section Correct

variable {volume : Volume} {inode : Memory} {blockIdx n j : Nat}

theorem blockRoute_single (entries : volume.blockSize / 4 = n)
    (place : blockIdx = 12 + j) (inside : j < n) :
    blockRoute volume inode blockIdx = some (iBlock1ind inode, [j]) := by
  have offset : blockIdx - 12 = j := by omega
  rw [blockRoute]
  simp only [entries, offset]
  rw [if_neg (by omega), if_pos inside]

theorem blockRoute_double (entries : volume.blockSize / 4 = n)
    (place : blockIdx = 12 + n + j) (inside : j < n) :
    blockRoute volume inode blockIdx = some (iBlock2ind inode, [0, j]) := by
  have offset : blockIdx - 12 = n + j := by omega
  have square : n ≤ n ^ 2 := Nat.le_self_pow (by decide) n
  rw [blockRoute]
  simp only [entries, offset, Nat.add_sub_cancel_left,
    Nat.div_eq_of_lt inside, Nat.mod_eq_of_lt inside]
  rw [if_neg (by omega), if_neg (by omega), if_pos (inside.trans_le square)]

theorem blockRoute_triple (entries : volume.blockSize / 4 = n)
    (place : blockIdx = 12 + n + n ^ 2 + j) (inside : j < n) :
    blockRoute volume inode blockIdx = some (iBlock3ind inode, [0, 0, j]) := by
  have offset : blockIdx - 12 = n + (n ^ 2 + j) := by omega
  have square : n ≤ n ^ 2 := Nat.le_self_pow (by decide) n
  have cube : n ≤ n ^ 3 := Nat.le_self_pow (by decide) n
  rw [blockRoute]
  simp only [entries, offset, Nat.add_sub_cancel_left,
    Nat.div_eq_of_lt inside, Nat.mod_eq_of_lt inside, Nat.zero_mod,
    Nat.div_eq_of_lt (inside.trans_le square)]
  rw [if_neg (by omega), if_neg (by omega), if_neg (by omega),
    if_pos (inside.trans_le cube)]

theorem blockRoute_beyond (entries : volume.blockSize / 4 = n)
    (beyond : 12 + n + n ^ 2 + n ^ 3 ≤ blockIdx) :
    blockRoute volume inode blockIdx = none := by
  rw [blockRoute]
  simp only [entries]
  rw [if_neg (by omega), if_neg (by omega), if_neg (by omega),
    if_neg (by omega)]

theorem mapCorrect_of_route {root : Nat} {indices : List Nat}
    (code : ∀ uninit, getInodeBlockNo volume uninit inode blockIdx =
      (readDown volume uninit 0 root indices, indices))
    (route : blockRoute volume inode blockIdx = some (root, indices))
    (sound : RouteSound volume root indices)
    (inside : ∀ index ∈ indices, index < volume.blockSize / 4) :
    MapCorrect volume inode blockIdx := by
  intro uninit
  rw [code uninit]
  refine ⟨?_, inside⟩
  have followed := readDown_sound uninit indices 0 root sound
    fun index member => by
      have small := inside index member
      omega
  rw [followed, blockMap, route]
  rfl

/-- The routes in the sound part of the map, region by region. -/
theorem mapCorrect_of_sound (sound : MapSound volume inode blockIdx) :
    MapCorrect volume inode blockIdx := by
  obtain ⟨among, fits, entries⟩ := sound
  generalize size : volume.blockSize / 4 = n at *
  have square : n ≤ n ^ 2 := Nat.le_self_pow (by decide) n
  have cube : n ≤ n ^ 3 := Nat.le_self_pow (by decide) n
  rcases Nat.lt_or_ge blockIdx 12 with direct | indirect
  · intro uninit
    rw [getInodeBlockNo_direct volume uninit inode direct, blockMap,
      blockRoute]
    simp only [if_pos direct]
    exact ⟨rfl, by simp⟩
  rcases Nat.lt_or_ge blockIdx (12 + n) with single | behind
  · obtain ⟨j, place⟩ := Nat.exists_eq_add_of_le indirect
    have inside : j < n := by omega
    have route := @blockRoute_single _ inode _ _ _ size place inside
    refine mapCorrect_of_route
      (fun uninit => getInodeBlockNo_single volume uninit inode size place
        inside) route (entries _ route) ?_
    simpa [size] using inside
  have bounds := fits.1 behind
  rcases among with early | ⟨start, stop⟩ | beyond
  · obtain ⟨j, place⟩ := Nat.exists_eq_add_of_le behind
    have inside : j < n := by omega
    have route := @blockRoute_double _ inode _ _ _ size place inside
    refine mapCorrect_of_route
      (fun uninit => getInodeBlockNo_double volume uninit inode size rfl
        bounds place (inside.trans_le square)) route (entries _ route) ?_
    simpa [size] using ⟨Nat.zero_lt_of_lt inside, inside⟩
  · obtain ⟨j, place⟩ := Nat.exists_eq_add_of_le start
    have inside : j < n := by omega
    have route := @blockRoute_triple _ inode _ _ _ size place inside
    refine mapCorrect_of_route
      (fun uninit => getInodeBlockNo_triple volume uninit inode size rfl rfl
        (fits.2 start) place (inside.trans_le cube)) route (entries _ route) ?_
    simpa [size] using ⟨Nat.zero_lt_of_lt inside, inside⟩
  · have all := fits.2 (by omega)
    intro uninit
    rw [getInodeBlockNo_beyond volume uninit inode size rfl rfl all beyond,
      blockMap, blockRoute_beyond size beyond]
    exact ⟨rfl, by simp⟩

/-- Behind the first entries the last index is not reduced. -/
theorem amongFirst_of_mapCorrect
    (fits : BoundsFit (volume.blockSize / 4) blockIdx)
    (correct : MapCorrect volume inode blockIdx) :
    AmongFirst (volume.blockSize / 4) blockIdx := by
  generalize size : volume.blockSize / 4 = n at *
  by_contra late
  rw [AmongFirst, not_or, not_or, not_and_or] at late
  obtain ⟨behind, between, before⟩ := late
  have bounds := fits.1 (by omega)
  have indices := (correct fun _ _ => 0).2
  rcases Nat.lt_or_ge blockIdx (12 + n + n ^ 2) with double | triple
  · obtain ⟨j, place⟩ :=
      Nat.exists_eq_add_of_le (show 12 + n ≤ blockIdx by omega)
    rw [getInodeBlockNo_double volume _ inode size rfl bounds place
      (by omega), size] at indices
    have last := indices j (by simp)
    omega
  · obtain ⟨j, place⟩ := Nat.exists_eq_add_of_le triple
    rw [getInodeBlockNo_triple volume _ inode size rfl rfl
      (fits.2 triple) place
      (by omega), size] at indices
    have last := indices j (by simp)
    omega

end Correct

/-- The block number and the indices are right for the first blocks of each
region whose entries are where the code reads them; as long as the bounds fit,
they are right for no other blocks. -/
theorem blockNumber_correct (volume : Volume) (inode : Memory)
    (blockIdx : Nat) :
    (MapSound volume inode blockIdx → MapCorrect volume inode blockIdx) ∧
      (BoundsFit (volume.blockSize / 4) blockIdx →
        MapCorrect volume inode blockIdx →
          AmongFirst (volume.blockSize / 4) blockIdx) :=
  ⟨mapCorrect_of_sound, amongFirst_of_mapCorrect⟩

/-- Six blocks of 1 KiB; block 2 points to the blocks 3 and 5, which point to
the blocks 8 and 9. -/
def treeVolume : Volume where
  image :=
    { size := 6144
      byte := fun position =>
        if position = 2048 then 3
        else if position = 2052 then 5
        else if position = 3084 then 8
        else if position = 5120 then 9
        else 0 }
  super := fun _ => 0
  blockSize := 1024
  groups := fun _ => 0
  blockSize_lt := by decide
  blockSize_pos := by decide

/-- Block 2 is the root of the tree of depth two. -/
def treeInode : Memory := fun index => if index = 92 then 2 else 0

theorem treeVolume_sound : MapSound treeVolume treeInode 271 := by
  refine ⟨.inl (by decide), ⟨fun _ => by decide, fun _ => by decide⟩, ?_⟩
  intro route found
  have same : blockRoute treeVolume treeInode 271 = some (2, [0, 3]) := by
    decide +kernel
  obtain rfl : (2, [0, 3]) = route := Option.some.inj (same.symm.trans found)
  have first : blockEntry treeVolume 2 0 = some 3 := by decide +kernel
  have second : blockEntry treeVolume 3 3 = some 8 := by decide +kernel
  refine ⟨⟨by decide, .inl (by decide)⟩, ?_⟩
  rw [first]
  refine ⟨⟨by decide, .inl (by decide)⟩, ?_⟩
  rw [second]
  exact trivial

theorem treeVolume_correct : MapCorrect treeVolume treeInode 271 :=
  (blockNumber_correct treeVolume treeInode 271).1 treeVolume_sound

/-- The first block behind the first 256 ones of the tree of depth two has
number 9, but the entry behind block 3 is read. -/
theorem treeVolume_incorrect : ¬ MapCorrect treeVolume treeInode 524 := by
  intro correct
  have number := (correct fun _ _ => 0).1
  have code : getInodeBlockNo treeVolume (fun _ _ => 0) treeInode 524 =
      (0, [0, 256]) := by
    decide +kernel
  have map : blockMap treeVolume treeInode 524 = some 9 := by
    decide +kernel
  rw [code, map] at number
  exact absurd number (by decide)

end SystemsLabs.Ext2
