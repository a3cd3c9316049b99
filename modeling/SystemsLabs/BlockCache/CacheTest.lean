import SystemsLabs.BlockCache.Transparent
import SystemsLabs.BlockCache.BlockNumber
import SystemsLabs.Library.CellLoops
import SystemsLabs.Library.MatrixTrace
import Mathlib.Algebra.BigOperators.Group.Finset.Sigma
import Mathlib.Tactic.Abel

/-!
# The sums of `lab6/cache-test.c`

`sumA`, `sumB` and `sumC` add the elements of an array that they read through
the cache, in different orders.  In a fresh cache each of them returns the sum
of what is in memory; `sumC` keeps it in an `int`.

`none` stands for undefined behaviour, as in `cacheRead`, and for an element
that the array does not have.  `long` arithmetic wraps.  The four operands of
the sum in `sumC` may be evaluated in any order: `order` is the one that the
compiler chose.
-/

namespace SystemsLabs.BlockCache

open CellLoops Transition

/-- `MAX_SIZE`. -/
def maxSize : Nat := 1024

/-- `&a[index]`. -/
def elementAddress (a : Address) (index : Int) : Option Address :=
  if 0 ≤ index ∧ index < maxSize * maxSize then
    some (a + BitVec.ofInt 64 (8 * index))
  else none

/-- `sum += cache_read(cache, &a[index])`. -/
def addElement (memory : Memory) (a : Address) (index : Int)
    (state : BitVec 64 × Cache) : Option (BitVec 64 × Cache) := do
  let address ← elementAddress a index
  let (value, cache) ← cacheRead memory state.2 address
  return (state.1 + value, cache)

/-- `for (index = 0; index < last; index++)` around a body that may be
undefined. -/
def forUp {σ : Type*} (last : Int) (body : Int → σ → Option σ) (state : σ) :
    Option σ :=
  (interval 0 last).foldlM (fun state index => body index state) state

/-- The same loop with `index += 2`. -/
def forPairs {σ : Type*} (last : Int) (body : Int → σ → Option σ)
    (state : σ) : Option σ :=
  forUp ((last + 1) / 2) (fun pair => body (2 * pair)) state

def sumA (memory : Memory) (a : Address) (rows cols : Int) (cache : Cache) :
    Option (BitVec 64 × Cache) :=
  forUp rows (fun i => forUp cols fun j =>
    addElement memory a (i * cols + j)) (0, cache)

def sumB (memory : Memory) (a : Address) (rows cols : Int) (cache : Cache) :
    Option (BitVec 64 × Cache) :=
  forUp cols (fun j => forUp rows fun i =>
    addElement memory a (i * cols + j)) (0, cache)

/-- The body of the loops of `sumC`: a sum of four longs is added to an
`int`. -/
def addSquare (memory : Memory) (a : Address) (cols : Int)
    (order : List (Nat × Nat)) (i j : Int) (state : BitVec 32 × Cache) :
    Option (BitVec 32 × Cache) := do
  let (four, cache) ← order.foldlM (fun state corner =>
    addElement memory a ((i + corner.1) * cols + j + corner.2) state)
      (0, state.2)
  return ((state.1.signExtend 64 + four).setWidth 32, cache)

def sumC (memory : Memory) (a : Address) (order : List (Nat × Nat))
    (rows cols : Int) (cache : Cache) : Option (BitVec 64 × Cache) := do
  let (sum, cache) ← forPairs cols (fun j => forPairs rows fun i =>
    addSquare memory a cols order i j) (0, cache)
  return (sum.signExtend 64, cache)

/-- The element of the array, as a number of its place in memory. -/
def element (memory : Memory) (a : Address) (index : Nat) : BitVec 64 :=
  loadLong memory (a + BitVec.ofNat 64 (8 * index))

/-- The sum of the first rows and columns of the array. -/
def elementsSum (memory : Memory) (a : Address) (cols rows width : Nat) :
    BitVec 64 :=
  ∑ row ∈ Finset.range rows, ∑ col ∈ Finset.range width,
    element memory a (row * cols + col)

/-- An array of `MAX_SIZE * MAX_SIZE` longs at an address of its alignment. -/
structure Placed (a : Address) : Prop where
  aligned : a.toNat % 8 = 0
  fits : a.toNat + 8 * (maxSize * maxSize) ≤ 2 ^ 64

theorem Placed.toNat_element {a : Address} (placed : Placed a) {index : Nat}
    (inside : index < maxSize * maxSize) :
    (a + BitVec.ofNat 64 (8 * index)).toNat = a.toNat + 8 * index := by
  have fits := placed.fits
  rw [BitVec.toNat_add, BitVec.toNat_ofNat,
    Nat.mod_eq_of_lt (show 8 * index < 2 ^ 64 by omega), Nat.mod_eq_of_lt]
  omega

theorem Placed.block_bounds (a : Address) {blockBits index : Nat}
    (small : blockBits < 31) (inside : index < maxSize * maxSize) :
    a.toNat / 2 ^ blockBits ≤ (a.toNat + 8 * index) / 2 ^ blockBits ∧
      (a.toNat + 8 * index) / 2 ^ blockBits <
        a.toNat / 2 ^ blockBits + 2 ^ (32 - blockBits) := by
  have positive := Nat.two_pow_pos blockBits
  have block : 2 ^ blockBits ≤ 2 ^ 30 :=
    Nat.pow_le_pow_right (by decide) (Nat.le_of_lt_succ small)
  have whole : 2 ^ (32 - blockBits) * 2 ^ blockBits = 2 ^ 32 := by
    rw [← Nat.pow_add]
    congr 1
    omega
  have split := Nat.div_add_mod a.toNat (2 ^ blockBits)
  have rest := Nat.mod_lt a.toNat positive
  have limit : maxSize * maxSize = 2 ^ 20 := rfl
  constructor
  · exact Nat.div_le_div_right (Nat.le_add_right _ _)
  · rw [Nat.div_lt_iff_lt_mul positive, Nat.add_mul, whole,
      Nat.mul_comm (_ / _)]
    omega

theorem elementAddress_natCast (a : Address) {index : Nat}
    (inside : index < maxSize * maxSize) :
    elementAddress a (index : Int) =
      some (a + BitVec.ofNat 64 (8 * index)) := by
  have bounds : 0 ≤ (index : Int) ∧ (index : Int) < maxSize * maxSize :=
    ⟨Int.natCast_nonneg index, by exact_mod_cast inside⟩
  rw [elementAddress, if_pos bounds]
  have scaled : 8 * (index : Int) = ((8 * index : Nat) : Int) := by
    push_cast
    rfl
  rw [scaled, BitVec.ofInt_natCast]

/-- The reads of a list of elements. -/
def elementCalls (memory : Memory) (a : Address) (indices : List Nat) :
    List Call :=
  indices.map fun index =>
    { memory := memory
      address := a + BitVec.ofNat 64 (8 * index)
      value := element memory a index }

/-- A session that has read elements of the array only. -/
structure Reading (memory : Memory) (a : Address) (power : Nat)
    (session : Session) : Prop where
  holds : Holds memory session
  shaped : Shaped session.cache power
  nonempty : 0 < session.cache.numSets
  narrow : session.cache.tagShift < 32
  elements : ∀ address ∈ session.history, ∃ index,
    index < maxSize * maxSize ∧ address = a + BitVec.ofNat 64 (8 * index)

namespace Reading

variable {memory : Memory} {a : Address} {power : Nat}
  {session after : Session}

theorem trueHit (reading : Reading memory a power session)
    (placed : Placed a) {index : Nat} (inside : index < maxSize * maxSize)
    {call : Call} (here : call.address = a + BitVec.ofNat 64 (8 * index)) :
    TrueHit session call := by
  intro _ last found
  obtain ⟨blockBits, indexBits, geometry⟩ := reading.shaped.geometry
  obtain ⟨other, otherInside, same⟩ := reading.elements last
    (List.mem_of_find?_eq_some found)
  have both := List.find?_some found
  simp only [decide_eq_true_eq] at both
  have keys : readKey session.cache last = readKey session.cache call.address :=
    Prod.ext both.1 both.2
  have residues := (geometry.readKey_eq_iff reading.narrow).mp keys
  have small := geometry.blockBits_lt
  rw [same, here, placed.toNat_element otherInside,
    placed.toNat_element inside] at residues
  have blocks : (a.toNat + 8 * other) / 2 ^ blockBits =
      (a.toNat + 8 * index) / 2 ^ blockBits := by
    obtain ⟨otherLow, otherHigh⟩ := Placed.block_bounds a small otherInside
    obtain ⟨low, high⟩ := Placed.block_bounds a small inside
    exact eq_of_residues otherLow otherHigh low high residues
  rw [blockStart, blockStart, geometry.blockOffsetMask, and_not_ones,
    and_not_ones, same, here, placed.toNat_element otherInside,
    placed.toNat_element inside, blocks]

theorem created {areas : Nat → Nat → CacheLine}
    {numBlocks associativity : Nat} {policies : BitVec 32} {cache : Cache}
    (returned : cacheNew areas numBlocks (2 ^ power) associativity policies =
      some cache)
    (nonempty : 0 < cache.numSets) (narrow : cache.tagShift < 32) :
    Reading memory a power { cache := cache, history := [] } := by
  refine ⟨Holds.created returned memory, Shaped.created returned, nonempty,
    narrow, ?_⟩
  intro address member
  cases member

theorem read (reading : Reading memory a power session) (large : 3 ≤ power)
    (placed : Placed a) {index : Nat} (inside : index < maxSize * maxSize)
    (sum : BitVec 64) :
    ∃ after, addElement memory a index (sum, session.cache) =
        some (sum + element memory a index, after.cache) ∧
      Run Step session (elementCalls memory a [index]) after ∧
      Reading memory a power after := by
  have here := placed.toNat_element inside
  have aligned : (a + BitVec.ofNat 64 (8 * index)).toNat % 8 = 0 := by
    rw [here, Nat.add_mul_mod_self_left, placed.aligned]
  obtain ⟨⟨value, cache⟩, returned⟩ := Option.isSome_iff_exists.mp
    (reading.shaped.read_returns reading.holds.intact reading.nonempty memory
      (a + BitVec.ofNat 64 (8 * index)))
  let call : Call :=
    { memory := memory
      address := a + BitVec.ofNat 64 (8 * index)
      value := value }
  have taken : Step session call
      { cache := cache, history := call.address :: session.history } :=
    .read returned
  have hit := @trueHit memory a power session reading placed index inside call
    rfl
  obtain ⟨blockBits, indexBits, geometry⟩ := reading.shaped.geometry
  have correct : value = element memory a index :=
    reading.holds.value geometry large reading.shaped.size taken rfl hit
      aligned
  subst correct
  have shaped := reading.shaped.run (.single taken) reading.holds.intact
  obtain ⟨_, _, _, _, same⟩ := run_config (.single taken) reading.holds.intact
  refine ⟨_, ?_, .single taken, reading.holds.step taken rfl hit, shaped, ?_,
    ?_, ?_⟩
  · rw [addElement, elementAddress_natCast a inside]
    simp [returned]
  · rw [same]
    exact reading.nonempty
  · rw [same]
    exact reading.narrow
  · intro address member
    rcases List.mem_cons.mp member with rfl | earlier
    · exact ⟨index, inside, rfl⟩
    · exact reading.elements address earlier

end Reading

/-- Code that reads the elements `indices` in this order and adds `value`, from
every state in which elements of the array have been read. -/
def Adds (memory : Memory) (a : Address) (power : Nat) {β : Type} [Add β]
    (code : β × Cache → Option (β × Cache)) (value : β)
    (indices : List Nat) : Prop :=
  ∀ (session : Session) (sum : β), Reading memory a power session →
    ∃ after, code (sum, session.cache) = some (sum + value, after.cache) ∧
      Run Step session (elementCalls memory a indices) after ∧
      Reading memory a power after

namespace Adds

variable {memory : Memory} {a : Address} {power : Nat}

theorem element (memory : Memory) (large : 3 ≤ power) (placed : Placed a) {index : Nat}
    (inside : index < maxSize * maxSize) :
    Adds memory a power (addElement memory a index)
      (element memory a index) [index] :=
  fun _ sum reading => reading.read large placed inside sum

variable {β : Type} [AddCommMonoid β]

theorem nothing : Adds memory a power
    (fun state : β × Cache => some state) 0 [] :=
  fun session sum reading =>
    ⟨session, by rw [add_zero], .nil session, reading⟩

theorem bind {first second : β × Cache → Option (β × Cache)}
    {value other : β} {indices more : List Nat}
    (adds : Adds memory a power first value indices)
    (later : Adds memory a power second other more) :
    Adds memory a power (fun state => first state >>= second)
      (value + other) (indices ++ more) := by
  intro session sum reading
  obtain ⟨middle, returned, run, reading⟩ := adds session sum reading
  obtain ⟨after, onward, laterRun, reading⟩ :=
    later middle (sum + value) reading
  refine ⟨after, ?_, ?_, reading⟩
  · change (first (sum, session.cache)).bind second = _
    rw [returned, ← add_assoc]
    exact onward
  · rw [elementCalls, List.map_append]
    exact run.append laterRun

theorem forUp {body : Int → β × Cache → Option (β × Cache)}
    {value : Nat → β} {indices : Nat → List Nat} {count : Nat}
    (each : ∀ index : Nat, index < count →
      Adds memory a power (body index) (value index) (indices index)) :
    Adds memory a power (forUp count body)
      (∑ index ∈ Finset.range count, value index)
      ((List.range count).flatMap indices) := by
  induction count with
  | zero => exact nothing
  | succ count ih =>
      have before := ih fun index earlier =>
        each index (Nat.lt_succ_of_lt earlier)
      have last := each count (Nat.lt_succ_self count)
      have rounds : BlockCache.forUp ((count + 1 : Nat) : Int) body =
          fun state => BlockCache.forUp count body state >>= body count := by
        funext state
        have snoc : interval 0 ((count + 1 : Nat) : Int) =
            interval 0 count ++ [(count : Int)] :=
          interval_snoc (Int.natCast_nonneg count)
        rw [BlockCache.forUp, snoc, List.foldlM_append]
        simp [BlockCache.forUp]
      rw [rounds, Finset.sum_range_succ, List.range_succ, List.flatMap_append,
        List.flatMap_singleton]
      exact before.bind last

theorem fold {κ : Type} {body : κ → β × Cache → Option (β × Cache)}
    {value : κ → β} {index : κ → Nat} {items : List κ}
    (each : ∀ item ∈ items,
      Adds memory a power (body item) (value item) [index item]) :
    Adds memory a power
      (fun state => items.foldlM (fun state item => body item state) state)
      ((items.map value).sum) (items.map index) := by
  induction items with
  | nil => exact nothing
  | cons item items ih =>
      have first := each item List.mem_cons_self
      have rest := ih fun other member =>
        each other (List.mem_cons_of_mem _ member)
      simp only [List.foldlM_cons, List.map_cons, List.sum_cons]
      exact first.bind rest

theorem square (memory : Memory) {order : List (Nat × Nat)}
    {cols row col : Nat} (large : 3 ≤ power) (placed : Placed a)
    (inside : ∀ corner ∈ order,
      (row + corner.1) * cols + col + corner.2 < maxSize * maxSize) :
    Adds memory a power (addSquare memory a cols order row col)
      ((order.map fun corner => BlockCache.element memory a
        ((row + corner.1) * cols + col + corner.2)).sum.setWidth 32)
      (order.map fun corner =>
        (row + corner.1) * cols + col + corner.2) := by
  have each : ∀ corner ∈ order,
      Adds memory a power
        (addElement memory a (((row : Int) + (corner.1 : Nat)) * (cols : Int) +
          (col : Int) + (corner.2 : Nat)))
        (BlockCache.element memory a
          ((row + corner.1) * cols + col + corner.2))
        [(row + corner.1) * cols + col + corner.2] := by
    intro corner member
    have place := element memory large placed (inside corner member)
    push_cast at place
    exact place
  intro session sum reading
  obtain ⟨after, returned, run, reading⟩ := fold each session 0 reading
  refine ⟨after, ?_, run, reading⟩
  rw [addSquare]
  simp only at returned ⊢
  rw [returned]
  have narrow : (sum.signExtend 64).setWidth 32 = sum := by
    apply BitVec.eq_of_getLsbD_eq
    intro place inside
    have wide : place < 64 := Nat.lt_trans inside (by decide)
    rw [BitVec.getLsbD_setWidth, BitVec.getLsbD_signExtend]
    simp only [inside, wide, decide_true, Bool.true_and, if_true]
  simp [BitVec.setWidth_add, narrow]

end Adds

theorem forPairs_natCast {σ : Type*} (last : Nat)
    (body : Int → σ → Option σ) :
    forPairs last body =
      forUp ((last + 1) / 2 : Nat) fun pair => body (2 * pair) := by
  have count : ((last : Int) + 1) / 2 = ((last + 1) / 2 : Nat) := by
    omega
  funext state
  rw [forPairs, count]

theorem sum_range_pairs {β : Type*} [AddCommMonoid β] (value : Nat → β)
    (pairs : Nat) :
    ∑ index ∈ Finset.range (2 * pairs), value index =
      ∑ pair ∈ Finset.range pairs,
        (value (2 * pair) + value (2 * pair + 1)) := by
  induction pairs with
  | zero => rfl
  | succ pairs ih =>
      rw [Nat.mul_succ, Finset.sum_range_succ, Finset.sum_range_succ, ih,
        Finset.sum_range_succ, add_assoc]

theorem elementsSum_squares (memory : Memory) (a : Address)
    {order : List (Nat × Nat)} (permuted : order.Perm MatrixTrace.corners)
    (cols rowPairs colPairs : Nat) :
    ∑ pair ∈ Finset.range colPairs, ∑ place ∈ Finset.range rowPairs,
        (order.map fun corner => element memory a
          ((2 * place + corner.1) * cols + 2 * pair + corner.2)).sum =
      elementsSum memory a cols (2 * rowPairs) (2 * colPairs) := by
  have four : ∀ pair place : Nat,
      (order.map fun corner => element memory a
          ((2 * place + corner.1) * cols + 2 * pair + corner.2)).sum =
        (element memory a (2 * place * cols + 2 * pair) +
            element memory a (2 * place * cols + (2 * pair + 1))) +
          (element memory a ((2 * place + 1) * cols + 2 * pair) +
            element memory a ((2 * place + 1) * cols + (2 * pair + 1))) := by
    intro pair place
    rw [(permuted.map _).sum_eq]
    simp only [MatrixTrace.corners, List.map_cons, List.map_nil, List.sum_cons,
      List.sum_nil, add_zero, Nat.add_assoc]
    abel
  rw [elementsSum, sum_range_pairs]
  simp only [four, sum_range_pairs _ colPairs, ← Finset.sum_add_distrib]
  exact Finset.sum_comm

/-- The elements that each of the sums reads, in its order. -/
def rowIndices (rows cols : Nat) : List Nat :=
  (List.range rows).flatMap fun row =>
    (List.range cols).flatMap fun col => [row * cols + col]

def columnIndices (rows cols : Nat) : List Nat :=
  (List.range cols).flatMap fun col =>
    (List.range rows).flatMap fun row => [row * cols + col]

def squareIndices (order : List (Nat × Nat)) (cols rowPairs colPairs : Nat) :
    List Nat :=
  (List.range colPairs).flatMap fun pair =>
    (List.range rowPairs).flatMap fun place =>
      order.map fun corner =>
        (2 * place + corner.1) * cols + 2 * pair + corner.2

section Sums

variable (memory : Memory) {a : Address} {power rows cols : Nat}

theorem sumA_adds (large : 3 ≤ power) (placed : Placed a)
    (inside : rows * cols ≤ maxSize * maxSize) :
    Adds memory a power
      (forUp rows fun i => forUp cols fun j =>
        addElement memory a (i * cols + j))
      (elementsSum memory a cols rows cols) (rowIndices rows cols) := by
  apply Adds.forUp
  intro row rowInside
  apply Adds.forUp
  intro col colInside
  have within := Nat.lt_of_lt_of_le (cell_number_lt rowInside colInside) inside
  have place := Adds.element memory large placed within
  push_cast at place
  exact place

theorem sumB_adds (large : 3 ≤ power) (placed : Placed a)
    (inside : rows * cols ≤ maxSize * maxSize) :
    Adds memory a power
      (forUp cols fun j => forUp rows fun i =>
        addElement memory a (i * cols + j))
      (elementsSum memory a cols rows cols) (columnIndices rows cols) := by
  rw [elementsSum, Finset.sum_comm]
  apply Adds.forUp
  intro col colInside
  apply Adds.forUp
  intro row rowInside
  have within := Nat.lt_of_lt_of_le (cell_number_lt rowInside colInside) inside
  have place := Adds.element memory large placed within
  push_cast at place
  exact place

/-- The squares may go one row and one column beyond what they are asked for. -/
theorem sumC_adds {order : List (Nat × Nat)} {rowPairs colPairs : Nat}
    (large : 3 ≤ power) (placed : Placed a)
    (permuted : order.Perm MatrixTrace.corners)
    (inside : ∀ row < 2 * rowPairs,
      row * cols + 2 * colPairs ≤ maxSize * maxSize) :
    Adds memory a power
      (forUp colPairs fun pair => forUp rowPairs fun place =>
        addSquare memory a cols order (2 * place) (2 * pair))
      ((elementsSum memory a cols (2 * rowPairs) (2 * colPairs)).setWidth 32)
      (squareIndices order cols rowPairs colPairs) := by
  let narrowing : BitVec 64 →+ BitVec 32 :=
    { toFun := BitVec.setWidth 32
      map_zero' := rfl
      map_add' := fun left right => BitVec.setWidth_add left right (by decide) }
  have total : (elementsSum memory a cols (2 * rowPairs)
      (2 * colPairs)).setWidth 32 =
        ∑ pair ∈ Finset.range colPairs, ∑ place ∈ Finset.range rowPairs,
          (order.map fun corner => element memory a
            ((2 * place + corner.1) * cols + 2 * pair +
              corner.2)).sum.setWidth 32 := by
    rw [← elementsSum_squares memory a permuted]
    change narrowing _ = _
    simp only [map_sum]
    rfl
  rw [total]
  apply Adds.forUp
  intro pair pairInside
  apply Adds.forUp
  intro place placeInside
  have within : ∀ corner ∈ order,
      (2 * place + corner.1) * cols + 2 * pair + corner.2 <
        maxSize * maxSize := by
    intro corner member
    have sides : ∀ corner ∈ MatrixTrace.corners,
        corner.1 ≤ 1 ∧ corner.2 ≤ 1 := by
      decide
    have small := sides corner (permuted.mem_iff.mp member)
    have fits := inside (2 * place + corner.1) (by omega)
    omega
  have square := Adds.square memory large placed within
  push_cast at square
  exact square

end Sums

/-- In a fresh cache with tags of at least one bit, `sumA` and `sumB` return the
sum of the rows and columns they are asked for.  `sumC` completes odd numbers
of rows and columns to even ones, and returns what an `int` holds of the sum. -/
theorem sums_correct {areas : Nat → Nat → CacheLine}
    {numBlocks power associativity : Nat} {policies : BitVec 32}
    {cache : Cache}
    (returned : cacheNew areas numBlocks (2 ^ power) associativity policies =
      some cache)
    (large : 3 ≤ power) (nonempty : 0 < cache.numSets)
    (narrow : cache.tagShift < 32) (memory : Memory) {a : Address}
    (placed : Placed a) {order : List (Nat × Nat)}
    (permuted : order.Perm MatrixTrace.corners) (rows cols : Nat) :
    (rows * cols ≤ maxSize * maxSize →
      (sumA memory a rows cols cache).map Prod.fst =
          some (elementsSum memory a cols rows cols) ∧
        (sumB memory a rows cols cache).map Prod.fst =
          some (elementsSum memory a cols rows cols)) ∧
      ((∀ row < 2 * ((rows + 1) / 2),
          row * cols + 2 * ((cols + 1) / 2) ≤ maxSize * maxSize) →
        (sumC memory a order rows cols cache).map Prod.fst =
          some (((elementsSum memory a cols (2 * ((rows + 1) / 2))
            (2 * ((cols + 1) / 2))).setWidth 32).signExtend 64)) := by
  have reading : Reading memory a power { cache := cache, history := [] } :=
    Reading.created returned nonempty narrow
  constructor
  · intro inside
    constructor
    · obtain ⟨after, done, _⟩ := sumA_adds memory large placed inside _ 0 reading
      rw [sumA, done, zero_add]
      rfl
    · obtain ⟨after, done, _⟩ := sumB_adds memory large placed inside _ 0 reading
      rw [sumB, done, zero_add]
      rfl
  · intro inside
    obtain ⟨after, done, _⟩ :=
      sumC_adds memory large placed permuted inside _ 0 reading
    simp only [sumC, forPairs_natCast]
    rw [done, zero_add]
    rfl

/-- The array at address 4096, read through a cache of three lines. -/
theorem smallCache_sums_correct :
    (sumA smallMemory 4096 2 3 (smallCache smallAreas)).map Prod.fst =
        some (elementsSum smallMemory 4096 3 2 3) ∧
      (sumB smallMemory 4096 2 3 (smallCache smallAreas)).map Prod.fst =
        some (elementsSum smallMemory 4096 3 2 3) ∧
      (sumC smallMemory 4096 MatrixTrace.corners 2 3
          (smallCache smallAreas)).map Prod.fst =
        some (((elementsSum smallMemory 4096 3 2 4).setWidth 32).signExtend
          64) := by
  have sums := @sums_correct smallAreas 3 3 3 1 (smallCache smallAreas)
    (smallCache_new smallAreas) (by decide) (by decide) (by decide) smallMemory
    4096 ⟨by decide, by decide⟩ MatrixTrace.corners (List.Perm.refl _) 2 3
  obtain ⟨left, right⟩ := sums.1 (by decide)
  exact ⟨left, right, sums.2 (by decide)⟩

end SystemsLabs.BlockCache
