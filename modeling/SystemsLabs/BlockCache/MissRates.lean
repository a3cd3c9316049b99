import SystemsLabs.BlockCache.CacheTest
import SystemsLabs.BlockCache.Inclusion
import SystemsLabs.BlockCache.Competitive

/-!
# The miss rates of `lab6/cache-test.c`

How often `sumA`, `sumB` and `sumC` miss in a fresh cache of `2 ^ indexBits`
sets whose blocks hold `2 ^ bits` longs each, for an array that starts a block.
`sumA` loads every block once.  `sumB` and `sumC` do so when the rows that
select one set fit into it; when there are too many of them in every set, `sumB`
misses with every read and `sumC` with every other one.

What the lines hold before they are filled matters in one case only: when rows
share a set and fit into it.
-/

namespace SystemsLabs.BlockCache

open CellLoops MatrixTrace Paging Transition

theorem cacheNew_powers {areas : Nat → Nat → CacheLine}
    {indexBits power associativity : Nat} {policies : BitVec 32}
    {cache : Cache}
    (returned : cacheNew areas (associativity * 2 ^ indexBits) (2 ^ power)
      associativity policies = some cache)
    (large : 3 ≤ power) (small : power < 31)
    (narrow : power + indexBits < 32) :
    Geometry cache power indexBits ∧ cache.numSets = 2 ^ indexBits ∧
      cache.tagShift = power + indexBits := by
  obtain ⟨positive, _, numSets, size, _, blockWidth, indexWidth, geometry⟩ :=
    cacheNew_spec returned
  have few : 2 ^ indexBits < 2 ^ 32 :=
    Nat.pow_lt_pow_right (by decide) (by omega)
  rw [Nat.mul_div_cancel_left _ positive, Nat.mod_eq_of_lt few] at numSets
  have blockSame : blockWidth = power := by
    rcases geometry.blockBits_eq size with zero | same
    · have digits := geometry.block_digits
      have eight : 2 ^ 3 ≤ 2 ^ power := Nat.pow_le_pow_right (by decide) large
      have bound : 2 ^ power < 2 ^ 31 := Nat.pow_lt_pow_right (by decide) small
      rw [size, toInt_of_nat _ rfl bound, zero] at digits
      have cast : 2 ^ power < 2 ^ (0 + 1) := by exact_mod_cast digits
      omega
    · exact same
  have indexSame : indexWidth = indexBits := by
    have room := geometry.index_room
    have digits := geometry.index_digits
    rw [numSets] at room digits
    have below := (Nat.pow_lt_pow_iff_right (by decide)).mp digits
    rcases room with zero | room
    · omega
    · have above := (Nat.pow_le_pow_iff_right (by decide)).mp room
      omega
  subst blockSame
  subst indexSame
  exact ⟨geometry, numSets, geometry.tagShift⟩

/-- Reads whose tags no line was allocated with disturb nothing. -/
theorem run_undisturbed {areas : Nat → Nat → CacheLine}
    {first last : Session} {calls : List Call}
    (run : Run Step first calls last) (pristine : Pristine areas first)
    (unrequested : ∀ call ∈ calls,
      Unrequested areas first.cache call.address) :
    Run (guarded Step Undisturbed) first calls last := by
  induction run with
  | nil => exact .nil _
  | @cons session after last call calls taken _ ih =>
      have here := unrequested call List.mem_cons_self
      obtain ⟨_, _, _, _, same⟩ :=
        run_config (.single taken) pristine.lru.intact
      refine .cons ⟨taken, pristine.undisturbed here⟩
        (ih (pristine.step taken here) ?_)
      intro other member
      rw [same]
      exact unrequested other (List.mem_cons_of_mem _ member)

/-- The block of an element. -/
def elementBlock (a : Address) (bits index : Nat) : Nat :=
  a.toNat / 2 ^ (bits + 3) + index / 2 ^ bits

/-- The cache and the array of the miss rates. -/
structure Setup (areas : Nat → Nat → CacheLine)
    (bits indexBits associativity : Nat) (policies : BitVec 32)
    (cache : Cache) (a : Address) : Prop where
  returned : cacheNew areas (associativity * 2 ^ indexBits) (2 ^ (bits + 3))
    associativity policies = some cache
  small : bits + 3 < 31
  narrow : bits + 3 + indexBits < 32
  aligned : a.toNat % 2 ^ (bits + 3) = 0
  fits : a.toNat + 8 * (maxSize * maxSize) ≤ 2 ^ 64

namespace Setup

variable {areas : Nat → Nat → CacheLine} {bits indexBits associativity : Nat}
  {policies : BitVec 32} {cache : Cache} {a : Address} {memory : Memory}

theorem placed
    (setup : Setup areas bits indexBits associativity policies cache a) :
    Placed a := by
  refine ⟨?_, setup.fits⟩
  have divides : 8 ∣ 2 ^ (bits + 3) := ⟨2 ^ bits, by rw [Nat.pow_add, Nat.mul_comm]⟩
  exact Nat.mod_eq_zero_of_dvd
    (divides.trans (Nat.dvd_of_mod_eq_zero setup.aligned))

theorem geometry
    (setup : Setup areas bits indexBits associativity policies cache a) :
    Geometry cache (bits + 3) indexBits ∧ cache.numSets = 2 ^ indexBits ∧
      cache.tagShift = bits + 3 + indexBits :=
  cacheNew_powers setup.returned (Nat.le_add_left 3 bits) setup.small
    setup.narrow

theorem reading
    (setup : Setup areas bits indexBits associativity policies cache a)
    (memory : Memory) : Reading memory a (bits + 3) { cache := cache, history := [] } := by
  obtain ⟨_, numSets, tagShift⟩ := setup.geometry
  apply Reading.created setup.returned
  · rw [numSets]
    exact Nat.two_pow_pos indexBits
  · rw [tagShift]
    exact setup.narrow

theorem elementBlock_eq
    (setup : Setup areas bits indexBits associativity policies cache a)
    (index : Nat) :
    (a.toNat + 8 * index) / 2 ^ (bits + 3) = elementBlock a bits index := by
  obtain ⟨first, start⟩ := Nat.dvd_of_mod_eq_zero setup.aligned
  have positive := Nat.two_pow_pos (bits + 3)
  have scaled : 8 * index / 2 ^ (bits + 3) = index / 2 ^ bits := by
    rw [Nat.pow_add, Nat.mul_comm (2 ^ bits)]
    exact Nat.mul_div_mul_left index (2 ^ bits) (by decide)
  rw [elementBlock, start, Nat.mul_add_div positive, scaled,
    Nat.mul_div_cancel_left _ positive]

/-- The misses of code that reads elements, between those of two ideal caches
on the blocks. -/
theorem counters
    (setup : Setup areas bits indexBits associativity policies cache a)
    {β : Type} [AddCommMonoid β] {code : β × Cache → Option (β × Cache)}
    {value : β} {indices : List Nat}
    (adds : Adds memory a (bits + 3) code value indices)
    (inside : ∀ index ∈ indices, index < maxSize * maxSize)
    (short : indices.length < 2 ^ 32) :
    ∃ after, code (0, cache) = some (value, after) ∧
      after.accessCount = indices.length ∧
      classMisses associativity (· % 2 ^ indexBits)
          (indices.map (elementBlock a bits)).reverse ≤ after.missCount ∧
      after.missCount ≤ classMisses 1 (· % 2 ^ indexBits)
          (indices.map (elementBlock a bits)).reverse ∧
      ((∀ index ∈ indices, Unrequested areas cache
          (a + BitVec.ofNat 64 (8 * index))) →
        after.missCount = classMisses associativity (· % 2 ^ indexBits)
          (indices.map (elementBlock a bits)).reverse) := by
  obtain ⟨geometry, _, tagShift⟩ := setup.geometry
  obtain ⟨after, done, run, _⟩ := adds _ 0 (setup.reading memory)
  have recency := Recency.created setup.returned
  have history : after.history =
      (indices.map fun index => a + BitVec.ofNat 64 (8 * index)).reverse := by
    rw [run_history run, elementCalls, List.map_map, List.append_nil]
    rfl
  have length : after.history.length = indices.length := by
    rw [history, List.length_reverse, List.length_map]
  obtain ⟨accesses, low, high⟩ :=
    (recency.run run).counters (by rw [length]; exact short)
  have later := geometry.run run recency.intact
  have narrow : after.cache.tagShift < 32 := by
    rw [later.tagShift]
    exact setup.narrow
  have ways : after.cache.associativity = associativity := by
    obtain ⟨_, _, _, _, same⟩ := run_config run recency.intact
    rw [same]
    exact (cacheNew_spec setup.returned).2.1
  have region : ∀ address ∈ after.history,
      a.toNat / 2 ^ (bits + 3) ≤ address.toNat / 2 ^ (bits + 3) ∧
        address.toNat / 2 ^ (bits + 3) <
          a.toNat / 2 ^ (bits + 3) + 2 ^ (32 - (bits + 3)) := by
    intro address member
    rw [history, List.mem_reverse] at member
    obtain ⟨index, read, rfl⟩ := List.mem_map.mp member
    rw [setup.placed.toNat_element (inside index read)]
    exact Placed.block_bounds a setup.small (inside index read)
  have blocks : after.history.map (fun address =>
      address.toNat / 2 ^ (bits + 3)) =
        (indices.map (elementBlock a bits)).reverse := by
    rw [history, List.map_reverse, List.map_map]
    congr 1
    apply List.map_congr_left
    intro index read
    rw [Function.comp_apply, setup.placed.toNat_element (inside index read),
      setup.elementBlock_eq]
  have ideal : ∀ lines, idealMisses lines after.cache after.history =
      classMisses lines (· % 2 ^ indexBits)
        (indices.map (elementBlock a bits)).reverse := by
    intro lines
    rw [later.idealMisses_eq narrow region, blocks]
  rw [ideal, ways] at low
  rw [ideal] at high
  rw [zero_add] at done
  refine ⟨after.cache, done, accesses.trans length, low, high, ?_⟩
  intro unrequested
  have guardedRun := run_undisturbed run (Pristine.created setup.returned) (by
    intro call member
    obtain ⟨index, read, rfl⟩ := List.mem_map.mp member
    exact unrequested index read)
  have exact := ((CountsLru.created setup.returned).run guardedRun).missCount
  have few : idealMisses after.cache.associativity after.cache
      after.history < 2 ^ 32 := by
    rw [ways, ideal]
    exact lt_of_le_of_lt low (lt_of_le_of_lt high (lt_of_le_of_lt
      classMisses_le_length (by
        rw [List.length_reverse, List.length_map]
        exact short)))
  rw [Nat.mod_eq_of_lt few, ways, ideal] at exact
  exact exact

/-- The misses when the two ideal caches agree, or when nothing that was in the
lines is read. -/
theorem misses
    (setup : Setup areas bits indexBits associativity policies cache a)
    {β : Type} [AddCommMonoid β] {code : β × Cache → Option (β × Cache)}
    {value : β} {indices : List Nat} {total : Nat → Nat}
    (adds : Adds memory a (bits + 3) code value indices)
    (inside : ∀ index ∈ indices, index < maxSize * maxSize)
    (short : indices.length < 2 ^ 32)
    (loads : ∀ lines, 0 < lines → classMisses lines (· % 2 ^ indexBits)
      (indices.map (elementBlock a bits)).reverse = total lines) :
    ∃ after, code (0, cache) = some (value, after) ∧
      after.accessCount = indices.length ∧
      (total 1 = total associativity →
        after.missCount = total associativity) ∧
      ((∀ index ∈ indices, Unrequested areas cache
          (a + BitVec.ofNat 64 (8 * index))) →
        after.missCount = total associativity) := by
  obtain ⟨after, done, accesses, low, high, undisturbed⟩ :=
    setup.counters adds inside short
  rw [loads _ (cacheNew_spec setup.returned).1] at low undisturbed
  rw [loads 1 Nat.one_pos] at high
  exact ⟨after, done, accesses,
    fun same => Nat.le_antisymm (same ▸ high) low, undisturbed⟩

end Setup

section Traces

variable {a : Address} {bits : Nat}

theorem flatMap_singleton_eq_map {α β : Type*} (items : List α)
    (value : α → β) : (items.flatMap fun item => [value item]) =
      items.map value := by
  rw [List.map_eq_flatMap]

theorem rowIndices_eq (rows cols : Nat) :
    rowIndices rows cols = List.range (rows * cols) := by
  induction rows with
  | zero => rw [Nat.zero_mul]; rfl
  | succ rows ih =>
      rw [rowIndices, List.range_succ, List.flatMap_append, ← rowIndices, ih,
        Nat.succ_mul, List.range_add, List.flatMap_singleton,
        flatMap_singleton_eq_map]

theorem rowIndices_trace (rows cols : Nat) :
    ((rowIndices rows cols).map (elementBlock a bits)).reverse =
      arrayTrace (elementBlock a bits) (rows * cols) := by
  rw [rowIndices_eq, arrayTrace]

section Rows

variable {rows stride cols : Nat}

theorem elementBlock_row (whole : cols = stride * 2 ^ bits) (row col : Nat) :
    elementBlock a bits (row * cols + col) =
      row * stride + elementBlock a bits col := by
  have positive := Nat.two_pow_pos bits
  have place : row * cols + col = 2 ^ bits * (row * stride) + col := by
    rw [whole, ← Nat.mul_assoc, Nat.mul_comm _ (2 ^ bits)]
  rw [elementBlock, place, Nat.mul_add_div positive, elementBlock,
    Nat.add_left_comm]

theorem columnIndices_trace (whole : cols = stride * 2 ^ bits) :
    ((columnIndices rows cols).map (elementBlock a bits)).reverse =
      columnsTrace rows stride (elementBlock a bits) cols := by
  have columns : ∀ count, (((List.range count).flatMap fun col =>
      (List.range rows).flatMap fun row => [row * cols + col]).map
        (elementBlock a bits)).reverse =
          columnsTrace rows stride (elementBlock a bits) count := by
    intro count
    induction count with
    | zero => rfl
    | succ count ih =>
        rw [List.range_succ, List.flatMap_append, List.map_append,
          List.reverse_append, ih, columnsTrace, List.flatMap_singleton,
          flatMap_singleton_eq_map, List.map_map, columnTrace, arrayTrace]
        congr 3
        funext row
        exact elementBlock_row whole row count
  exact columns cols

theorem squareIndices_trace (order : List (Nat × Nat))
    (whole : cols = stride * 2 ^ bits) (rowPairs colPairs : Nat) :
    ((squareIndices order cols rowPairs colPairs).map
        (elementBlock a bits)).reverse =
      squaresTrace order stride (elementBlock a bits) rowPairs colPairs := by
  have square : ∀ row col,
      ((order.map fun corner =>
        (2 * row + corner.1) * cols + 2 * col + corner.2).map
          (elementBlock a bits)).reverse =
        squareTrace order stride (elementBlock a bits) (2 * col)
          (2 * row) := by
    intro row col
    rw [List.map_map, squareTrace]
    congr 2
    funext corner
    rw [Function.comp_apply, Nat.add_assoc, elementBlock_row whole]
  have inColumn : ∀ col count, (((List.range count).flatMap fun place =>
      order.map fun corner =>
        (2 * place + corner.1) * cols + 2 * col + corner.2).map
          (elementBlock a bits)).reverse =
        squareColumn order stride (elementBlock a bits) (2 * col) count := by
    intro col count
    induction count with
    | zero => rfl
    | succ count ih =>
        rw [List.range_succ, List.flatMap_append, List.map_append,
          List.reverse_append, ih, List.flatMap_singleton, square,
          squareColumn]
  rw [squareIndices]
  induction colPairs with
  | zero => rfl
  | succ pairs ih =>
      rw [List.range_succ, List.flatMap_append, List.map_append,
        List.reverse_append, ih, List.flatMap_singleton, inColumn,
        squaresTrace]

end Rows

section Columns

variable {stride cols : Nat}

theorem elementBlock_rises (a : Address) (bits index : Nat) :
    elementBlock a bits index ≤ elementBlock a bits (index + 1) :=
  Nat.add_le_add_left (Nat.div_le_div_right (Nat.le_succ index)) _

theorem elementBlock_slowly (a : Address) (bits index : Nat) :
    elementBlock a bits (index + 1) ≤ elementBlock a bits index + 1 := by
  have positive := Nat.two_pow_pos bits
  have next : (index + 1) / 2 ^ bits ≤ index / 2 ^ bits + 1 := by
    rw [← Nat.add_div_right index positive]
    exact Nat.div_le_div_right (Nat.add_le_add_left positive index)
  rw [elementBlock, elementBlock]
  omega

theorem elementBlock_blocked (a : Address)
    (whole : cols = stride * 2 ^ bits) :
    Blocked stride (elementBlock a bits) cols := by
  refine ⟨elementBlock_rises a bits, ?_⟩
  intro index inside
  rw [whole] at inside
  have within := (Nat.div_lt_iff_lt_mul (Nat.two_pow_pos bits)).mpr inside
  rw [elementBlock, elementBlock, Nat.zero_div]
  omega

theorem elementBlock_even (a : Address) {pairs : Nat} (some : 0 < bits)
    (whole : 2 * pairs = stride * 2 ^ bits) :
    Blocked stride (fun pair => elementBlock a bits (2 * pair)) pairs ∧
      (∀ pair, elementBlock a bits (2 * pair + 1) =
        elementBlock a bits (2 * pair)) ∧
      ∀ pair, elementBlock a bits (2 * (pair + 1)) ≤
        elementBlock a bits (2 * pair) + 1 := by
  obtain ⟨rest, rfl⟩ := Nat.exists_eq_add_of_lt some
  have blocked := elementBlock_blocked a whole
  have half : ∀ pair, 2 * pair / 2 ^ (0 + rest + 1) = pair / 2 ^ rest := by
    intro pair
    rw [Nat.zero_add, Nat.pow_succ, Nat.mul_comm (2 ^ rest)]
    exact Nat.mul_div_mul_left pair (2 ^ rest) (by decide)
  refine ⟨⟨?_, ?_⟩, ?_, ?_⟩
  · intro pair
    exact blocked.monotone (by omega)
  · intro pair inside
    exact blocked.inside (2 * pair) (by omega)
  · intro pair
    have odd : (2 * pair + 1) / 2 ^ (0 + rest + 1) = pair / 2 ^ rest := by
      rw [Nat.zero_add, Nat.pow_succ, Nat.mul_comm (2 ^ rest),
        ← Nat.div_div_eq_div_mul]
      congr 1
      omega
    rw [elementBlock, elementBlock, half, odd]
  · intro pair
    have step := elementBlock_slowly a rest pair
    rw [elementBlock, elementBlock] at step
    rw [elementBlock, elementBlock, half, half]
    omega

end Columns

end Traces

section Lengths

variable {rows cols : Nat}

theorem length_columnIndices :
    (columnIndices rows cols).length = rows * cols := by
  simp [columnIndices, List.length_flatMap, Nat.mul_comm]

theorem mem_columnIndices {index : Nat} :
    index ∈ columnIndices rows cols → index < rows * cols := by
  intro member
  obtain ⟨col, colInside, inColumn⟩ := List.mem_flatMap.mp member
  obtain ⟨row, rowInside, here⟩ := List.mem_flatMap.mp inColumn
  rw [List.mem_singleton.mp here]
  exact cell_number_lt (List.mem_range.mp rowInside)
    (List.mem_range.mp colInside)

variable {order : List (Nat × Nat)} {rowPairs colPairs : Nat}

theorem length_squareIndices (permuted : order.Perm corners) :
    (squareIndices order cols rowPairs colPairs).length =
      2 * rowPairs * (2 * colPairs) := by
  have four : order.length = 4 := permuted.length_eq
  simp only [squareIndices, List.length_flatMap, List.length_map, four,
    List.map_const', List.length_range, List.sum_replicate_nat]
  rw [Nat.mul_mul_mul_comm 2, Nat.mul_comm rowPairs colPairs,
    ← Nat.mul_assoc colPairs]
  omega

theorem mem_squareIndices (permuted : order.Perm corners) {index : Nat}
    (member : index ∈ squareIndices order (2 * colPairs) rowPairs colPairs) :
    index < 2 * rowPairs * (2 * colPairs) := by
  obtain ⟨col, colInside, inColumn⟩ := List.mem_flatMap.mp member
  obtain ⟨row, rowInside, inSquare⟩ := List.mem_flatMap.mp inColumn
  obtain ⟨corner, chosen, rfl⟩ := List.mem_map.mp inSquare
  have sides : ∀ corner ∈ corners, corner.1 ≤ 1 ∧ corner.2 ≤ 1 := by
    decide
  have small := sides corner (permuted.mem_iff.mp chosen)
  have colBound := List.mem_range.mp colInside
  have rowBound := List.mem_range.mp rowInside
  rw [Nat.add_assoc]
  exact cell_number_lt (by omega) (by omega)

end Lengths

section Rates

variable {areas : Nat → Nat → CacheLine} {bits indexBits associativity : Nat}
  {policies : BitVec 32} {cache : Cache} {a : Address}

/-- `sumA` misses once for every block, in every cache. -/
theorem sumA_misses
    (setup : Setup areas bits indexBits associativity policies cache a)
    (memory : Memory) {rows cols : Nat}
    (inside : rows * cols ≤ maxSize * maxSize) :
    ∃ after, sumA memory a rows cols cache =
        some (elementsSum memory a cols rows cols, after) ∧
      after.accessCount = rows * cols ∧
      after.missCount = (rows * cols + (2 ^ bits - 1)) / 2 ^ bits := by
  have limit : maxSize * maxSize < 2 ^ 32 := by decide
  have within : ∀ index ∈ rowIndices rows cols,
      index < maxSize * maxSize := by
    intro index member
    rw [rowIndices_eq] at member
    exact Nat.lt_of_lt_of_le (List.mem_range.mp member) inside
  have length : (rowIndices rows cols).length = rows * cols := by
    rw [rowIndices_eq, List.length_range]
  have loads : ∀ lines, 0 < lines →
      classMisses lines (· % 2 ^ indexBits)
          ((rowIndices rows cols).map (elementBlock a bits)).reverse =
        (rows * cols + (2 ^ bits - 1)) / 2 ^ bits := by
    intro lines enough
    rw [rowIndices_trace]
    have width := Nat.two_pow_pos bits
    rcases Nat.eq_zero_or_pos (rows * cols) with none | some
    · rw [none, Nat.zero_add, Nat.div_eq_of_lt (by omega)]
      rfl
    · obtain ⟨last, total⟩ : ∃ last, rows * cols = last + 1 :=
        ⟨rows * cols - 1, by omega⟩
      have shifted : last + 1 + (2 ^ bits - 1) = last + 2 ^ bits := by omega
      rw [total, classMisses_arrayTrace enough _ (elementBlock_rises a bits)
        (elementBlock_slowly a bits), shifted, Nat.add_div_right _ width,
        elementBlock, elementBlock, Nat.zero_div, Nat.add_sub_add_left,
        Nat.sub_zero]
  obtain ⟨after, done, accesses, same, _⟩ := setup.misses
    (sumA_adds memory (Nat.le_add_left 3 bits) setup.placed inside) within (by omega) loads
  rw [length] at accesses
  exact ⟨after, done, accesses, same rfl⟩

theorem main_setup :
    ∃ cache, Setup smallAreas 3 8 1 1 cache 4096 := by
  have returned : (cacheNew smallAreas (1 * 2 ^ 8) (2 ^ (3 + 3)) 1 1).isSome := by
    decide +kernel
  obtain ⟨cache, created⟩ := Option.isSome_iff_exists.mp returned
  exact ⟨cache, created, by decide, by decide, by decide, by decide⟩

theorem main_sumA_misses :
    ∃ cache after, cacheNew smallAreas 256 64 1 1 = some cache ∧
      sumA smallMemory 4096 64 64 cache =
        some (elementsSum smallMemory 4096 64 64 64, after) ∧
      after.accessCount = 4096 ∧ after.missCount = 512 := by
  obtain ⟨cache, setup⟩ := main_setup
  obtain ⟨after, done, accesses, misses⟩ :=
    @sumA_misses _ _ _ _ _ _ _ setup smallMemory 64 64 (by decide)
  exact ⟨cache, after, setup.returned, done, accesses, misses⟩

/-- How many rows of `stride` blocks there are before two of them start in the
same set. -/
def rowPeriod (indexBits stride : Nat) : Nat :=
  2 ^ indexBits / (2 ^ indexBits).gcd stride

theorem elementBlock_last (a : Address) {stride cols back : Nat}
    (whole : cols = stride * 2 ^ bits) (some : 0 < stride)
    (near : back < 2 ^ bits) :
    elementBlock a bits (cols - (back + 1)) + 1 =
      elementBlock a bits 0 + stride := by
  have inside : back < 2 ^ bits * stride :=
    Nat.lt_of_lt_of_le near (Nat.le_mul_of_pos_right _ some)
  have last : (cols - (back + 1)) / 2 ^ bits = stride - 1 := by
    rw [whole, Nat.mul_comm, Nat.mul_sub_div back (2 ^ bits) stride inside,
      Nat.div_eq_of_lt near]
  rw [elementBlock, elementBlock, last, Nat.zero_div]
  omega

/-- What a walk down the columns costs in the clear cases, between a store with
one line and one with as many lines as the cache. -/
theorem columnLoads_cases {rows stride count : Nat} {column : Nat → Nat}
    (blocked : Blocked stride column count)
    (slowly : ∀ index, column (index + 1) ≤ column index + 1)
    (full : count = 0 ∧ stride = 0 ∨
      ∃ last, count = last + 1 ∧ column last + 1 = column 0 + stride)
    {ways : Nat} (positive : 0 < ways) {loads : Nat → Nat}
    (costs : ∀ lines, loads lines =
      columnLoads lines rows stride (2 ^ indexBits) column count) :
    ((ways + 1) * rowPeriod indexBits stride ≤ rows →
      loads 1 = loads ways ∧ loads ways = rows * count) ∧
      (rows ≤ rowPeriod indexBits stride →
        loads 1 = loads ways ∧ loads ways = rows * stride) ∧
      (rows ≤ ways * rowPeriod indexBits stride →
        loads ways = rows * stride) := by
  have sets := Nat.two_pow_pos indexBits
  have crowded : ∀ lines,
      (lines + 1) * rowPeriod indexBits stride ≤ rows →
        loads lines = rows * count := by
    intro lines many
    rw [costs]
    exact columnLoads_crowded (fun _ _ => lt_crowd sets many) count
  have sparse : ∀ lines, rows ≤ lines * rowPeriod indexBits stride →
      loads lines = rows * stride := by
    intro lines few
    rw [costs]
    rcases full with ⟨rfl, rfl⟩ | ⟨last, rfl, ends⟩
    · rw [columnLoads, Finset.sum_range_zero, Nat.mul_zero]
    · have width : column last - column 0 + 1 = stride := by
        have low := blocked.monotone (Nat.zero_le last)
        omega
      rw [columnLoads_sparse blocked.rises slowly
        (fun _ _ => crowd_le sets few), width]
  refine ⟨?_, ?_, sparse ways⟩
  · intro many
    have fewer : (1 + 1) * rowPeriod indexBits stride ≤
        (ways + 1) * rowPeriod indexBits stride :=
      Nat.mul_le_mul_right _ (Nat.succ_le_succ positive)
    rw [crowded ways many, crowded 1 (fewer.trans many)]
    exact ⟨rfl, rfl⟩
  · intro few
    have one : rows ≤ 1 * rowPeriod indexBits stride := by
      rw [Nat.one_mul]
      exact few
    rw [sparse 1 one, sparse ways (one.trans (Nat.mul_le_mul_right _ positive))]
    exact ⟨rfl, rfl⟩

/-- `sumB` misses with every read when more rows share each set than it has
lines.  When the rows have their sets to themselves it misses once for every
block; and so it does when the rows that share a set fit into it and the lines
were allocated without tags of the array. -/
theorem sumB_misses
    (setup : Setup areas bits indexBits associativity policies cache a)
    (memory : Memory) {rows cols stride : Nat}
    (inside : rows * cols ≤ maxSize * maxSize)
    (whole : cols = stride * 2 ^ bits) :
    ∃ after, sumB memory a rows cols cache =
        some (elementsSum memory a cols rows cols, after) ∧
      after.accessCount = rows * cols ∧
      ((associativity + 1) * rowPeriod indexBits stride ≤ rows →
        after.missCount = rows * cols) ∧
      (rows ≤ rowPeriod indexBits stride →
        after.missCount = rows * stride) ∧
      (rows ≤ associativity * rowPeriod indexBits stride →
        (∀ index < rows * cols, Unrequested areas cache
          (a + BitVec.ofNat 64 (8 * index))) →
        after.missCount = rows * stride) := by
  have limit : maxSize * maxSize < 2 ^ 32 := by decide
  have blocked := elementBlock_blocked a whole
  have loads : ∀ lines, 0 < lines →
      classMisses lines (· % 2 ^ indexBits)
          ((columnIndices rows cols).map (elementBlock a bits)).reverse =
        columnLoads lines rows stride (2 ^ indexBits) (elementBlock a bits)
          cols := by
    intro lines _
    rw [columnIndices_trace whole]
    exact classMisses_columnsTrace blocked
  have full : cols = 0 ∧ stride = 0 ∨ ∃ last, cols = last + 1 ∧
      elementBlock a bits last + 1 = elementBlock a bits 0 + stride := by
    rcases Nat.eq_zero_or_pos stride with rfl | some
    · exact .inl ⟨by rw [whole, Nat.zero_mul], rfl⟩
    · have width := Nat.mul_pos some (Nat.two_pow_pos bits)
      exact .inr ⟨cols - 1, by omega,
        elementBlock_last a whole some (Nat.two_pow_pos bits)⟩
  obtain ⟨after, done, accesses, same, undisturbed⟩ := setup.misses
    (sumB_adds memory (Nat.le_add_left 3 bits) setup.placed inside)
    (fun _ member => Nat.lt_of_lt_of_le (mem_columnIndices member) inside)
    (by rw [length_columnIndices]; omega) loads
  rw [length_columnIndices] at accesses
  obtain ⟨crowded, alone, sparse⟩ := columnLoads_cases blocked
    (elementBlock_slowly a bits) full (cacheNew_spec setup.returned).1
    fun _ => rfl
  refine ⟨after, done, accesses, ?_, ?_, ?_⟩
  · intro many
    obtain ⟨equal, total⟩ := crowded many
    rw [same equal, total]
  · intro few
    obtain ⟨equal, total⟩ := alone few
    rw [same equal, total]
  · intro few unrequested
    rw [undisturbed fun index member =>
      unrequested index (mem_columnIndices member), sparse few]

theorem main_sumB_misses :
    ∃ cache after, cacheNew smallAreas 256 64 1 1 = some cache ∧
      sumB smallMemory 4096 64 64 cache =
        some (elementsSum smallMemory 4096 64 64 64, after) ∧
      after.accessCount = 4096 ∧ after.missCount = 4096 := by
  obtain ⟨cache, setup⟩ := main_setup
  obtain ⟨after, done, accesses, misses, _⟩ :=
    @sumB_misses _ _ _ _ _ _ _ setup smallMemory 64 64 8 (by decide) rfl
  exact ⟨cache, after, setup.returned, done, accesses, misses (by decide)⟩

/-- `sumC` reads two elements of each block one after the other: it misses half
as often as `sumB` when the rows crowd in the sets, as long as neighbouring
rows start in different sets. -/
theorem sumC_misses
    (setup : Setup areas bits indexBits associativity policies cache a)
    (memory : Memory) {order : List (Nat × Nat)}
    (permuted : order.Perm corners) {rowPairs colPairs stride : Nat}
    (inside : 2 * rowPairs * (2 * colPairs) ≤ maxSize * maxSize)
    (some : 0 < bits) (whole : 2 * colPairs = stride * 2 ^ bits)
    (apart : ¬2 ^ indexBits ∣ stride) :
    ∃ after, sumC memory a order (2 * rowPairs : Nat) (2 * colPairs : Nat)
        cache = Option.some (((elementsSum memory a (2 * colPairs)
          (2 * rowPairs) (2 * colPairs)).setWidth 32).signExtend 64, after) ∧
      after.accessCount = 2 * rowPairs * (2 * colPairs) ∧
      ((associativity + 1) * rowPeriod indexBits stride ≤ 2 * rowPairs →
        after.missCount = 2 * rowPairs * colPairs) ∧
      (2 * rowPairs ≤ rowPeriod indexBits stride →
        after.missCount = 2 * rowPairs * stride) ∧
      (2 * rowPairs ≤ associativity * rowPeriod indexBits stride →
        (∀ index < 2 * rowPairs * (2 * colPairs), Unrequested areas cache
          (a + BitVec.ofNat 64 (8 * index))) →
        after.missCount = 2 * rowPairs * stride) := by
  have limit : maxSize * maxSize < 2 ^ 32 := by decide
  obtain ⟨blocked, paired, slowly⟩ := elementBlock_even a some whole
  have loads : ∀ lines, 0 < lines →
      classMisses lines (· % 2 ^ indexBits)
          ((squareIndices order (2 * colPairs) rowPairs colPairs).map
            (elementBlock a bits)).reverse =
        columnLoads lines (2 * rowPairs) stride (2 ^ indexBits)
          (fun pair => elementBlock a bits (2 * pair)) colPairs := by
    intro lines enough
    rw [squareIndices_trace order whole, classMisses_squaresTrace enough
      (Nat.two_pow_pos indexBits) permuted paired apart]
    exact classMisses_columnsTrace blocked
  have full : colPairs = 0 ∧ stride = 0 ∨ ∃ last, colPairs = last + 1 ∧
      elementBlock a bits (2 * last) + 1 =
        elementBlock a bits (2 * 0) + stride := by
    have width := Nat.two_pow_pos bits
    rcases Nat.eq_zero_or_pos stride with rfl | nonzero
    · rw [Nat.zero_mul] at whole
      exact .inl ⟨by omega, rfl⟩
    · have near : 1 < 2 ^ bits := Nat.one_lt_two_pow some.ne'
      have last := elementBlock_last a whole nonzero near
      have place : 2 * colPairs - (1 + 1) = 2 * (colPairs - 1) := by omega
      rw [place] at last
      have positive := Nat.mul_pos nonzero width
      exact .inr ⟨colPairs - 1, by omega, last⟩
  have covered : ∀ row < 2 * rowPairs,
      row * (2 * colPairs) + 2 * colPairs ≤ maxSize * maxSize := by
    intro row before
    rw [← Nat.succ_mul]
    exact (Nat.mul_le_mul_right _ before).trans inside
  obtain ⟨after, done, accesses, same, undisturbed⟩ := setup.misses
    (sumC_adds memory (Nat.le_add_left 3 bits) setup.placed permuted covered)
    (fun _ member =>
      Nat.lt_of_lt_of_le (mem_squareIndices permuted member) inside)
    (by rw [length_squareIndices permuted]; omega) loads
  rw [length_squareIndices permuted] at accesses
  obtain ⟨crowded, alone, sparse⟩ := columnLoads_cases blocked
    slowly full (cacheNew_spec setup.returned).1 fun _ => rfl
  refine ⟨after, ?_, accesses, ?_, ?_, ?_⟩
  · have pairs : ∀ count, (2 * count + 1) / 2 = count := by omega
    simp only [sumC, forPairs_natCast, pairs]
    rw [done]
    rfl
  · intro many
    obtain ⟨equal, total⟩ := crowded many
    rw [same equal, total]
  · intro few
    obtain ⟨equal, total⟩ := alone few
    rw [same equal, total]
  · intro few unrequested
    rw [undisturbed fun index member =>
      unrequested index (mem_squareIndices permuted member), sparse few]

theorem main_sumC_misses :
    ∃ cache after, cacheNew smallAreas 256 64 1 1 = some cache ∧
      sumC smallMemory 4096 corners 64 64 cache =
        some (((elementsSum smallMemory 4096 64 64 64).setWidth 32).signExtend
          64, after) ∧
      after.accessCount = 4096 ∧ after.missCount = 2048 := by
  obtain ⟨cache, setup⟩ := main_setup
  obtain ⟨after, done, accesses, misses, _⟩ :=
    @sumC_misses _ _ _ _ _ _ _ setup smallMemory corners (List.Perm.refl _)
      32 32 8 (by decide) (by decide) rfl (by decide)
  exact ⟨cache, after, setup.returned, done, accesses, misses (by decide)⟩

end Rates

end SystemsLabs.BlockCache
