import SystemsLabs.QuickSort.Optimal

/-!
# The listings sort

What the C function does with its array the machine code does with the words of
memory, for a caller that knows the length of the array and nothing about its
content: 32 bytes of stack for each element are enough.
-/

namespace SystemsLabs.QuickSort

open Y86 CellLoops

/-- The words from an address on. -/
def wordsAt (memory : Bytes) (base : Word) (count : Int) : List Word :=
  (interval 0 count).map fun index =>
    readWord memory (base + BitVec.ofInt 64 (8 * index))

/-- The room that the deepest calls need. -/
def reserveSpace (machine : Machine) : Nat :=
  32 * max 1 (machine .rsi).toInt.toNat

def reserveOf (machine : Machine) : Set Word :=
  span (machine .rsp - BitVec.ofNat 64 (reserveSpace machine))
    (reserveSpace machine)

/-- The machine is about to call `quickSort`, and has the room for any array of
its length; `next` is the address behind the call. -/
structure Prepared (program : Program) (machine : Machine) (next : Word) :
    Prop where
  loaded : program.Loaded machine.memory
  fetched : fetch machine.memory machine.pc = some (.call 0x1000, next)
  below : ∀ index < (machine .rsi).toInt.toNat,
    (machine .rdi).toNat + 8 * index + 8 ≤ 2 ^ 63
  code_array : Disjoint program.region (arrayOf machine)
  code_reserve : Disjoint program.region (reserveOf machine)
  array_reserve : Disjoint (arrayOf machine) (reserveOf machine)

/-- The call has returned, and the words of the array are sorted. -/
structure SortsWords (next : Word) (before after : Machine) : Prop where
  reaches : Reaches before after
  pc : after.pc = next
  sorted : (wordsAt after.memory (before .rdi) (before .rsi).toInt).Pairwise
    fun left right => left.toInt ≤ right.toInt
  perm : (wordsAt after.memory (before .rdi) (before .rsi).toInt).Perm
    (wordsAt before.memory (before .rdi) (before .rsi).toInt)
  rsp : after .rsp = before .rsp
  rbx : after .rbx = before .rbx
  rbp : after .rbp = before .rbp
  r12 : after .r12 = before .r12
  same : SameOutside (arrayOf before ∪ reserveOf before) before.memory
    after.memory

/-- The array in memory as the C function sees it. -/
def memoryLongs (memory : Bytes) (base : Word) : Longs where
  cell index := readWord memory (base + BitVec.ofInt 64 (8 * index))
  accessed := []

theorem stackOf_subset (longs : Longs) (machine : Machine) :
    stackOf longs machine ⊆ reserveOf machine := by
  have deep := depth_le 0 (machine .rsi).toInt longs
  have le : stackSpace longs machine ≤ reserveSpace machine :=
    Nat.mul_le_mul_left 32 deep
  obtain ⟨spare, room⟩ := Nat.exists_eq_add_of_le' le
  have low : machine .rsp - BitVec.ofNat 64 (stackSpace longs machine) =
      machine .rsp - BitVec.ofNat 64 (reserveSpace machine) +
        BitVec.ofNat 64 spare := by
    rw [room, BitVec.ofNat_add]
    ring
  unfold stackOf reserveOf
  rw [low]
  exact span_subset _ room.ge

section Calls

variable {program : Program} {before after : Machine} {next : Word}

theorem Prepared.calls (prepared : Prepared program before next) :
    Calls program (memoryLongs before.memory (before .rdi)) before next where
  loaded := prepared.loaded
  fetched := prepared.fetched
  array _ _ _ := rfl
  below := prepared.below
  code_array := prepared.code_array
  code_stack := prepared.code_reserve.mono_right (stackOf_subset _ before)
  array_stack := prepared.array_reserve.mono_right (stackOf_subset _ before)

/-- The array of the C function is the one in memory. -/
theorem Returns.sortsWords {sorted : Longs}
    (returns : Returns (memoryLongs before.memory (before .rdi)) sorted next
      before after)
    (sorts : sorted =
      quickSort 0 (before .rsi).toInt
        (memoryLongs before.memory (before .rdi))) :
    SortsWords next before after := by
  subst sorts
  obtain ⟨touches, sorted⟩ := quickSort_touches_sorts 0 (before .rsi).toInt
    (memoryLongs before.memory (before .rdi))
  rw [zero_add] at touches sorted
  have words : wordsAt after.memory (before .rdi) (before .rsi).toInt =
      (interval 0 (before .rsi).toInt).map
        (quickSort 0 (before .rsi).toInt
          (memoryLongs before.memory (before .rdi))).cell := by
    apply List.map_congr_left
    intro index member
    obtain ⟨low, high⟩ := mem_interval.mp member
    exact returns.array index low high
  refine ⟨returns.reaches, returns.pc, ?_, ?_, returns.rsp, returns.rbx,
    returns.rbp, returns.r12, ?_⟩
  · rw [words]
    apply List.pairwise_map.mpr
    apply (increasing_interval 0 (before .rsi).toInt).imp_of_mem
    intro left right leftInside rightInside order
    exact sorted left (mem_interval.mp leftInside) right
      (mem_interval.mp rightInside) order.le
  · rw [words]
    apply touches.rearranges.perm (nodup_interval 0 (before .rsi).toInt)
    intro pointer
    exact mem_interval
  · apply returns.same.mono
    exact Set.union_subset_union_right _ (stackOf_subset _ before)

/-- `sort.ys` sorts every array in place; so do the optimised versions when no
two earlier values are greater than a later one and no greater than any behind
it. -/
theorem listings_sort
    (version : program = sortProgram ∨
      (program = optimalProgram ∨ program = reorderProgram) ∧
        FewGreater (wordsAt before.memory (before .rdi) (before .rsi).toInt))
    (prepared : Prepared program before next) :
    ∃ after, SortsWords next before after := by
  have calls := prepared.calls
  rcases version with rfl | ⟨optimised, few⟩
  · obtain ⟨after, returns⟩ := sortPhases.sorts sort_start_mem calls (.inl rfl)
    exact ⟨after, returns.sortsWords rfl⟩
  · have listing : program = optimalProgram := by
      rcases optimised with rfl | rfl
      · rfl
      · rfl
    subst listing
    have small : RightsSmall 0 (before .rsi).toInt
        (memoryLongs before.memory (before .rdi)) := by
      rw [rightsSmall_iff, zero_add]
      exact few
    obtain ⟨after, returns⟩ :=
      optimalPhases.sorts optimal_start_mem calls (.inr small)
    exact ⟨after, returns.sortsWords rfl⟩

end Calls

section Caller

variable {program : Program} {words : List Word}

theorem caller_reserve (few : words.length ≤ 256) :
    reserveOf (caller program words) ⊆
      span (0#64 + BitVec.ofNat 64 0x3000) 0x2000 := by
  have space : reserveSpace (caller program words) ≤ 0x2000 := by
    rw [reserveSpace, caller_length few]
    omega
  have low : (caller program words) .rsp -
      BitVec.ofNat 64 (reserveSpace (caller program words)) = _ :=
    stack_low space
  unfold reserveOf
  rw [low]
  exact span_subset _ (by omega)

theorem caller_prepared (start : program.start = 0x1000)
    (small : program.size ≤ 0x1000) (few : words.length ≤ 256) :
    Prepared program (caller program words) 0x109 := by
  have calls := @caller_calls program words start small few
  have code : program.region =
      span (0#64 + BitVec.ofNat 64 0x1000) program.size := by
    rw [Program.region, start]
    rfl
  have array : arrayOf (caller program words) =
      span (0#64 + BitVec.ofNat 64 0x2000) (8 * words.length) := by
    rw [arrayOf, caller_length few]
    rfl
  have reserve := @caller_reserve program words few
  refine ⟨calls.loaded, calls.fetched, calls.below, calls.code_array, ?_, ?_⟩
  · rw [code]
    exact (span_disjoint 0#64 (by omega) (by omega)).mono_right reserve
  · rw [array]
    exact (span_disjoint 0#64 (by omega) (by omega)).mono_right reserve

end Caller

/-- An optimised version on an array with two right parts of one value. -/
theorem optimal_sorts :
    ∃ after, SortsWords 0x109 (caller optimalProgram [300, 200, 500, 400])
      after :=
  listings_sort (.inr ⟨.inl rfl, by decide +kernel⟩)
    (caller_prepared rfl (by decide) (by decide))

end SystemsLabs.QuickSort
