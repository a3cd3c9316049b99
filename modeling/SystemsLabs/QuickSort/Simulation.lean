import SystemsLabs.QuickSort.Phases
import SystemsLabs.QuickSort.Recursion

/-!
# The simulation

A call of the program does to the array what the call of the C function does.
The induction follows the recursion of the C function; inside a call the loop
of the program is compared with the partition loop round by round.
-/

namespace SystemsLabs.QuickSort

open Y86

section Loop

variable {program : Program} {rightStart : Word}
  (phases : Phases program rightStart) {layout : Layout program.region}

/-- The registers and the array at the top of a round. -/
structure AtRound (layout : Layout program.region) (pivot : BitVec 64)
    (high i j : Int) (longs : Longs) (machine : Machine) : Prop where
  loaded : program.Loaded machine.memory
  rax : machine .rax = layout.address j
  rbx : machine .rbx = layout.address i
  rcx : machine .rcx = layout.address high
  r8 : machine .r8 = pivot
  holds : layout.Holds machine.memory longs

variable {pivot : BitVec 64} {high i j : Int} {longs : Longs}

theorem Phases.round_simulates {before : Machine}
    (state : AtRound layout pivot high i j longs before)
    (atLoop : before.pc = phases.loop) (low : 0 ≤ i) (le : i ≤ j)
    (more : j < high) (inside : high < layout.cells) :
    ∃ after i' longs',
      partitionLoop pivot high i j longs =
        partitionLoop pivot high i' (j + 1) longs' ∧
      0 ≤ i' ∧ i' ≤ j + 1 ∧
      AtRound layout pivot high i' (j + 1) longs' after ∧
      Gets program before after ∧ LoopKeeps before after ∧
      SameOutside layout.array before.memory after.memory ∧
      after.pc = if high ≤ j + 1 then phases.split else phases.loop := by
  obtain ⟨loaded, rax, rbx, rcx, r8, holds⟩ := state
  have jLow : 0 ≤ j := low.trans le
  have jInside : j < layout.cells := more.trans inside
  have iInside : i < layout.cells := le.trans_lt jInside
  have value : readWord before.memory (before .rax) = longs.cell j := by
    rw [rax]
    exact holds j jLow jInside
  have apart : Apart (before .rax) (before .rbx) := by
    rw [rax, rbx]
    exact Layout.words_apart jLow jInside low iInside
  have clearRax : Clear program (before .rax) := by
    rw [rax]
    exact layout.word_code jLow jInside
  have clearRbx : Clear program (before .rbx) := by
    rw [rbx]
    exact layout.word_code low iInside
  obtain ⟨after, gets, round, target⟩ :=
    phases.round before loaded atLoop apart clearRax clearRbx
  have raxAfter : after .rax = layout.address (j + 1) := by
    rw [round.rax, rax, layout.address_succ]
  have pc : after.pc = if high ≤ j + 1 then phases.split else phases.loop := by
    have highPlace : (layout.address high).toInt =
        layout.base.toNat + 8 * high :=
      Layout.address_toInt (low.trans (le.trans more.le)) inside
    have nextPlace : (layout.address (j + 1)).toInt =
        layout.base.toNat + 8 * (j + 1) :=
      Layout.address_toInt (by omega) (by omega)
    rw [target, rcx, rax, ← layout.address_succ, highPlace, nextPlace]
    apply if_congr _ rfl rfl
    omega
  have rcxAfter : after .rcx = layout.address high := round.rcx.trans rcx
  have r8After : after .r8 = pivot := round.r8.trans r8
  cases small : (longs.cell j).sle pivot with
  | true =>
      have least := BitVec.sle_iff_toInt_le.mp small
      rw [← value, ← r8] at least
      obtain ⟨rbxAfter, swapped⟩ := round.small least
      refine ⟨after, i + 1, (longs.read j).2.swap j i,
        partitionLoop_small more small, by omega, by omega,
        ⟨gets.2, raxAfter, ?_, rcxAfter, r8After, ?_⟩, gets,
        round.toLoopKeeps, ?_, pc⟩
      · rw [rbxAfter, rbx, layout.address_succ]
      · rw [rax, rbx] at swapped
        have read : layout.Holds before.memory (longs.read j).2 := holds
        exact read.swap jLow jInside low iInside swapped
      · apply swapped.same.mono
        rw [rax, rbx]
        exact Set.union_subset (Layout.word_subset jLow jInside)
          (Layout.word_subset low iInside)
  | false =>
      have greater : (before .r8).toInt <
          (readWord before.memory (before .rax)).toInt := by
        rw [value, r8]
        apply Int.not_le.mp
        intro least
        rw [BitVec.sle_iff_toInt_le.mpr least] at small
        cases small
      obtain ⟨rbxAfter, memory⟩ := round.large greater
      refine ⟨after, i, (longs.read j).2, partitionLoop_large more small, low,
        by omega, ⟨gets.2, raxAfter, rbxAfter.trans rbx, rcxAfter, r8After,
        ?_⟩, gets, round.toLoopKeeps, ?_, pc⟩
      · rw [memory]
        exact holds
      · rw [memory]
        exact .refl _ _

theorem Phases.loop_simulates {before : Machine}
    (state : AtRound layout pivot high i j longs before)
    (atLoop : before.pc = phases.loop) (low : 0 ≤ i) (le : i ≤ j)
    (more : j < high) (inside : high < layout.cells) :
    ∃ after, Gets program before after ∧ after.pc = phases.split ∧
      LoopKeeps before after ∧
      after .rbx = layout.address (partitionLoop pivot high i j longs).1 ∧
      layout.Holds after.memory (partitionLoop pivot high i j longs).2 ∧
      SameOutside layout.array before.memory after.memory := by
  obtain ⟨rounds, distance⟩ := Int.le.dest (Int.add_one_le_of_lt more)
  induction rounds generalizing i j longs before with
  | zero =>
      obtain ⟨after, i', longs', same, low', le', state', gets, keeps, outside,
        pc⟩ := phases.round_simulates state atLoop low le more inside
      rw [if_pos (by omega)] at pc
      refine ⟨after, gets, pc, keeps, ?_, ?_, outside⟩
      · rw [same, partitionLoop_done (by omega)]
        exact state'.rbx
      · rw [same, partitionLoop_done (by omega)]
        exact state'.holds
  | succ rounds ih =>
      obtain ⟨middle, i', longs', same, low', le', state', gets, keeps, outside,
        pc⟩ := phases.round_simulates state atLoop low le more inside
      rw [if_neg (by omega)] at pc
      obtain ⟨after, onward, atSplit, kept, rbx, holds, rest⟩ :=
        ih state' pc low' le' (by omega) (by omega)
      rw [← same] at rbx holds
      exact ⟨after, gets.trans onward, atSplit, keeps.trans kept, rbx, holds,
        outside.trans rest⟩

end Loop

section Call

variable {program : Program} {rightStart : Word}
  {layout : Layout program.region}

/-- The state at the entry of a call for `len` cells at `A`, with the return
address `used` bytes above the lowest address of the stack. -/
structure AtEntry (layout : Layout program.region) (A len : Int) (used : Nat)
    (longs : Longs) (machine : Machine) : Prop where
  loaded : program.Loaded machine.memory
  pc : machine.pc = 0x1000
  rsi : machine .rsi = BitVec.ofInt 64 len
  len_low : -2 ^ 63 ≤ len
  len_high : len < 2 ^ 63
  /-- A call for one cell or none does not look at the address. -/
  rdi : 1 < len → machine .rdi = layout.address A
  low : 1 < len → 0 ≤ A
  inside : 1 < len → A + len ≤ layout.cells
  rsp : machine .rsp = layout.top used
  room : used + 8 ≤ layout.room
  holds : layout.Holds machine.memory longs

variable {A len : Int} {used floor : Nat} {longs : Longs} {before : Machine}

theorem AtEntry.length (entry : AtEntry layout A len used longs before) :
    (before .rsi).toInt = len := by
  rw [entry.rsi]
  exact BitVec.toInt_ofInt_eq_self (by decide) entry.len_low entry.len_high

theorem frame_clear (place : before .rsp = layout.top (floor + 24))
    (room : floor + 24 ≤ layout.room) :
    FrameClear program (before .rsp) := by
  obtain ⟨first, second, third⟩ := Layout.push_places place
  constructor
  · rw [first]
    exact layout.slot_code (by omega)
  · rw [second]
    exact layout.slot_code (by omega)
  · rw [third]
    exact layout.slot_code (by omega)

theorem Phases.base_simulates (phases : Phases program rightStart)
    (entry : AtEntry layout A len (floor + 24) longs before) (base : len ≤ 1) :
    ∃ after, Gets program before after ∧ Finished before after ∧
      layout.Holds after.memory (quickSort A len longs) ∧
      SameOutside (layout.array ∪ layout.stack (floor + 24)) before.memory
        after.memory := by
  have room := entry.room
  have short : (before .rsi).toInt ≤ 1 := by
    rw [entry.length]
    exact base
  obtain ⟨after, gets, finished, memory⟩ := phases.small before entry.loaded
    entry.pc short (frame_clear entry.rsp (by omega))
  have same : SameOutside (layout.stack (floor + 24)) before.memory
      after.memory := by
    rcases memory with unchanged | pushed
    · rw [unchanged]
      exact .refl _ _
    · rw [pushed]
      exact Layout.saved_stack entry.rsp
  refine ⟨after, gets, finished, ?_, same.mono Set.subset_union_right⟩
  rw [quickSort_base base]
  exact entry.holds.stack (by omega) same

theorem last_address (A len : Int) :
    BitVec.ofInt 64 len * 8 - 8 + layout.address A =
      layout.address (A + len - 1) := by
  have eight : BitVec.ofInt 64 8 = (8 : Word) := rfl
  have distance : BitVec.ofInt 64 (8 * (len - 1)) =
      BitVec.ofInt 64 len * 8 - 8 := by
    rw [mul_sub, Int.sub_eq_add_neg, BitVec.ofInt_add, BitVec.ofInt_neg,
      BitVec.ofInt_mul, mul_one, eight]
    ring
  rw [add_sub_assoc, layout.address_add, distance, add_comm]

theorem Phases.start_simulates (phases : Phases program rightStart)
    (entry : AtEntry layout A len (floor + 32) longs before)
    (more : 1 < len) :
    ∃ after, Gets program before after ∧ after.pc = phases.loop ∧
      AtRound layout (longs.cell (A + len - 1)) (A + len - 1) A A
        (longs.read (A + len - 1)).2 after ∧
      after .rsp = layout.top (floor + 8) ∧ after .rdi = layout.address A ∧
      after .rbp = BitVec.ofInt 64 len ∧
      layout.Slots floor before after.memory ∧
      SameOutside (layout.stack (floor + 32)) before.memory after.memory := by
  have room := entry.room
  have low := entry.low more
  have inside := entry.inside more
  have rdi := entry.rdi more
  have shifted : before .rsp = layout.top (floor + 8 + 24) := entry.rsp
  have last : before .rsi * 8 - 8 + before .rdi =
      layout.address (A + len - 1) := by
    rw [entry.rsi, rdi, last_address]
  have long : 1 < (before .rsi).toInt := by
    rw [entry.length]
    exact more
  have order : (before .rdi).toInt ≤
      (before .rsi * 8 - 8 + before .rdi).toInt := by
    rw [last, rdi, Layout.address_toInt low (by omega),
      Layout.address_toInt (by omega) (by omega)]
    omega
  obtain ⟨after, gets, atLoop, started⟩ := phases.start before entry.loaded
    entry.pc long order (frame_clear shifted (by omega))
  have same : SameOutside (layout.stack (floor + 32)) before.memory
      after.memory := by
    rw [started.memory]
    exact Layout.saved_stack shifted
  have holds : layout.Holds after.memory longs :=
    entry.holds.stack (by omega) same
  have rcx : after .rcx = layout.address (A + len - 1) :=
    started.rcx.trans last
  refine ⟨after, gets, atLoop, ⟨gets.2, started.rax.trans rdi,
    started.rbx.trans rdi, rcx, ?_, holds⟩, ?_, started.rdi.trans rdi,
    started.rbp.trans entry.rsi, ?_, same⟩
  · rw [started.r8, rcx]
    exact holds _ (by omega) (by omega)
  · rw [started.rsp]
    exact (Layout.push_places shifted).2.2
  · rw [started.memory]
    exact Layout.saved_slots entry.rsp

/-- The address of the pivot, as a distance in cells. -/
theorem sdiv_eight {distance : Int} (low : 0 ≤ distance)
    (high : 8 * distance < 2 ^ 63) :
    (BitVec.ofInt 64 (8 * distance)).sdiv 8 = BitVec.ofInt 64 distance := by
  apply BitVec.eq_of_toInt_eq
  have whole : (BitVec.ofInt 64 (8 * distance)).toInt = 8 * distance :=
    BitVec.toInt_ofInt_eq_self (by decide) (by omega) high
  have part : (BitVec.ofInt 64 distance).toInt = distance :=
    BitVec.toInt_ofInt_eq_self (by decide) (by omega) (by omega)
  rw [BitVec.toInt_sdiv, whole, part]
  change ((8 * distance).tdiv 8).bmod (2 ^ 64) = distance
  rw [Int.mul_tdiv_cancel_left _ (by decide), Int.bmod_eq_of_le] <;> omega

theorem Phases.place_simulates (phases : Phases program rightStart)
    {high i : Int} (loaded : program.Loaded before.memory)
    (atSplit : before.pc = phases.split)
    (rcx : before .rcx = layout.address high)
    (rbx : before .rbx = layout.address i)
    (rdi : before .rdi = layout.address A)
    (rbp : before .rbp = BitVec.ofInt 64 len)
    (rsp : before .rsp = layout.top (floor + 8))
    (room : floor + 8 ≤ layout.room)
    (low : 0 ≤ A) (start : A ≤ i) (inside : i ≤ high)
    (last : high < layout.cells) (holds : layout.Holds before.memory longs) :
    ∃ after, Gets program before after ∧
      AtEntry layout A (i - A) floor (longs.swap high i) after ∧
      readWord after.memory (after .rsp) = phases.afterLeft ∧
      after .rbx = layout.address i ∧
      phases.rest (after .rbp) (after .r12) =
        BitVec.ofInt 64 (len - (i - A)) ∧
      SameOutside (layout.array ∪ layout.stack (floor + 8)) before.memory
        after.memory := by
  have cells := layout.cells_le
  have highLow : 0 ≤ high := low.trans (start.trans inside)
  have iLow : 0 ≤ i := low.trans start
  have iInside : i < layout.cells := inside.trans_lt last
  have apart : Apart (before .rcx) (before .rbx) := by
    rw [rcx, rbx]
    exact Layout.words_apart highLow last iLow iInside
  have clearRcx : Clear program (before .rcx) := by
    rw [rcx]
    exact layout.word_code highLow last
  have clearRbx : Clear program (before .rbx) := by
    rw [rbx]
    exact layout.word_code iLow iInside
  have slot : before .rsp - 8 = layout.top floor := by
    rw [rsp]
    exact layout.top_sub floor
  have clearSlot : Clear program (before .rsp - 8) := by
    rw [slot]
    exact layout.slot_code room
  obtain ⟨after, gets, entered, called⟩ :=
    phases.left before loaded atSplit apart clearRcx clearRbx clearSlot
  obtain ⟨placed, swapped, memory⟩ := called.memory
  rw [slot] at memory
  have pushed : SameOutside (span (layout.top floor) 8) placed after.memory := by
    rw [memory]
    exact writeWord_sameOutside _ _ _
  have inner : SameOutside layout.array before.memory placed := by
    apply swapped.same.mono
    rw [rcx, rbx]
    exact Set.union_subset (Layout.word_subset highLow last)
      (Layout.word_subset iLow iInside)
  have within : span (layout.top floor) 8 ⊆ layout.stack (floor + 8) :=
    layout.slot_subset (Nat.le_refl _)
  have rsi : after .rsi = BitVec.ofInt 64 (i - A) := by
    rw [called.rsi, rbx, rdi, layout.address_sub]
    exact sdiv_eight (by omega) (by omega)
  have sorted : layout.Holds after.memory (longs.swap high i) := by
    rw [rcx, rbx] at swapped
    exact (holds.swap highLow last iLow iInside swapped).stack room
      (pushed.mono within)
  refine ⟨after, gets, ⟨gets.2, entered, rsi, by omega, by omega,
    fun _ => called.rdi.trans rdi, fun _ => low, by omega,
    called.rsp.trans slot, room, sorted⟩, ?_, called.rbx.trans rbx, ?_, ?_⟩
  · rw [called.rsp, slot, memory, readWord_writeWord]
  · rw [called.rest, rsi, rbp, sub_eq_add_neg len, BitVec.ofInt_add,
      BitVec.ofInt_neg]
    exact sub_eq_add_neg _ _
  · exact (inner.mono Set.subset_union_left).trans
      (pushed.mono (within.trans Set.subset_union_right))

theorem Phases.left_simulates (phases : Phases program rightStart)
    (entry : AtEntry layout A len (floor + 32) longs before)
    (more : 1 < len) :
    ∃ after, Gets program before after ∧
      AtEntry layout A ((divide A len longs).1 - A) floor (divide A len longs).2
        after ∧
      readWord after.memory (after .rsp) = phases.afterLeft ∧
      after .rbx = layout.address (divide A len longs).1 ∧
      phases.rest (after .rbp) (after .r12) =
        BitVec.ofInt 64 (len - ((divide A len longs).1 - A)) ∧
      layout.Slots floor before after.memory ∧
      SameOutside (layout.array ∪ layout.stack (floor + 32)) before.memory
        after.memory := by
  have room := entry.room
  have low := entry.low more
  have inside := entry.inside more
  have high := entry.len_high
  obtain ⟨first, toLoop, atLoop, state, rsp, rdi, rbp, slots, pushed⟩ :=
    phases.start_simulates entry more
  obtain ⟨second, toSplit, atSplit, keeps, rbx, holds, sorted⟩ :=
    phases.loop_simulates state atLoop low (Int.le_refl A) (by omega) (by omega)
  have divided := @divide_divided A len (by omega) longs
  have rcx : second .rcx = layout.address (A + len - 1) :=
    keeps.rcx.trans state.rcx
  obtain ⟨after, onward, entered, back, pivot, rest, placed⟩ :=
    phases.place_simulates toSplit.2 atSplit rcx rbx (keeps.rdi.trans rdi)
      (keeps.rbp.trans rbp) (keeps.rsp.trans rsp) (by omega) low
      divided.start_le (Int.le_sub_one_of_lt divided.inside) (by omega) holds
  have same : SameOutside (layout.array ∪ layout.stack (floor + 8))
      first.memory after.memory :=
    (sorted.mono Set.subset_union_left).trans placed
  refine ⟨after, (toLoop.trans toSplit).trans onward, entered, back, pivot,
    rest, slots.same (by omega) same, ?_⟩
  apply (pushed.mono Set.subset_union_right).trans (same.mono _)
  exact Set.union_subset_union_right _ (Layout.stack_subset (by omega))

theorem Phases.right_simulates (phases : Phases program rightStart)
    {i remaining : Int} (loaded : program.Loaded before.memory)
    (atRight : before.pc = phases.afterLeft)
    (rbx : before .rbx = layout.address i)
    (rest : phases.rest (before .rbp) (before .r12) =
      BitVec.ofInt 64 remaining)
    (rsp : before .rsp = layout.top (floor + 8))
    (room : floor + 8 ≤ layout.room)
    (low : 0 ≤ i) (some : 0 < remaining) (small : remaining < 2 ^ 63)
    (inside : i + remaining ≤ layout.cells)
    (aligned : rightStart = 8 ∨ remaining - 1 ≤ 1)
    (holds : layout.Holds before.memory longs) :
    ∃ after, Gets program before after ∧
      AtEntry layout (i + 1) (remaining - 1) floor longs after ∧
      readWord after.memory (after .rsp) = phases.afterRight ∧
      SameOutside (layout.stack (floor + 8)) before.memory after.memory := by
  have slot : before .rsp - 8 = layout.top floor := by
    rw [rsp]
    exact layout.top_sub floor
  have clearSlot : Clear program (before .rsp - 8) := by
    rw [slot]
    exact layout.slot_code room
  obtain ⟨after, gets, entered, called⟩ :=
    phases.right before loaded atRight clearSlot
  have memory := called.memory
  rw [slot] at memory
  have pushed : SameOutside (layout.stack (floor + 8)) before.memory
      after.memory := by
    rw [memory]
    exact (writeWord_sameOutside _ _ _).mono (layout.slot_subset (Nat.le_refl _))
  have rdi : 1 < remaining - 1 → after .rdi = layout.address (i + 1) := by
    intro more
    rcases aligned with eight | few
    · rw [called.rdi, rbx, eight, layout.address_succ]
    · exact (Int.not_le.mpr more few).elim
  have rsi : after .rsi = BitVec.ofInt 64 (remaining - 1) := by
    have one : BitVec.ofInt 64 (-1) = -(1 : Word) := rfl
    rw [called.rsi, rest, sub_eq_add_neg remaining, BitVec.ofInt_add, one,
      sub_eq_add_neg]
  refine ⟨after, gets, ⟨gets.2, entered, rsi, by omega, by omega, rdi,
    by omega, by omega, called.rsp.trans slot, room, holds.stack room pushed⟩,
    ?_, pushed⟩
  rw [called.rsp, slot, memory, readWord_writeWord]

theorem Phases.finish_simulates (phases : Phases program rightStart)
    {caller : Machine} (loaded : program.Loaded before.memory)
    (atEnd : before.pc = phases.afterRight)
    (rsp : before .rsp = layout.top (floor + 8))
    (callerRsp : caller .rsp = layout.top (floor + 32))
    (slots : layout.Slots floor caller before.memory) :
    ∃ after, Gets program before after ∧ Finished caller after ∧
      after.memory = before.memory := by
  obtain ⟨after, gets, restored⟩ := phases.finish before loaded atEnd
  have second : before .rsp + 8 = layout.top (floor + 16) := by
    rw [rsp]
    exact layout.top_add (floor + 8)
  have third : before .rsp + 8 + 8 = layout.top (floor + 24) := by
    rw [second]
    exact layout.top_add (floor + 16)
  have fourth : before .rsp + 8 + 8 + 8 = layout.top (floor + 32) := by
    rw [third]
    exact layout.top_add (floor + 24)
  refine ⟨after, gets, ⟨?_, ?_, ?_, ?_, ?_⟩, restored.memory⟩
  · rw [restored.pc, fourth, slots.back]
  · rw [restored.rsp, fourth, callerRsp]
  · rw [restored.rbx, rsp, slots.rbx]
  · rw [restored.rbp, second, slots.rbp]
  · rw [restored.r12, third, slots.r12]

/-- A call of the program sorts as the call of the C function does, provided the
address of the right part is right or does not matter. -/
theorem Phases.simulates (phases : Phases program rightStart)
    (entry : AtEntry layout A len used longs before)
    (enough : 32 * depth A len longs ≤ used + 8)
    (aligned : rightStart = 8 ∨ RightsSmall A len longs) :
    ∃ after, Gets program before after ∧ Finished before after ∧
      layout.Holds after.memory (quickSort A len longs) ∧
      SameOutside (layout.array ∪ layout.stack used) before.memory
        after.memory := by
  induction size : len.toNat using Nat.strongRecOn
    generalizing A len used longs before with
  | ind size ih =>
      by_cases base : len ≤ 1
      · rw [depth_base base] at enough
        obtain ⟨floor, rfl⟩ := Nat.exists_eq_add_of_le' (show 24 ≤ used by omega)
        exact phases.base_simulates entry base
      · have deep := depth_pos A ((divide A len longs).1 - A)
          (divide A len longs).2
        rw [depth_divide base] at enough
        obtain ⟨floor, rfl⟩ := Nat.exists_eq_add_of_le' (show 32 ≤ used by omega)
        have room := entry.room
        have more : 1 < len := Int.not_le.mp base
        have low := entry.low more
        have inside := entry.inside more
        have high := entry.len_high
        have divided := @divide_divided A len base longs
        have start := divided.start_le
        have bound := divided.inside
        obtain ⟨first, toLeft, leftEntry, leftBack, rbx, rest, slots, outside⟩ :=
          phases.left_simulates entry more
        have leftAligned : rightStart = 8 ∨
            RightsSmall A ((divide A len longs).1 - A) (divide A len longs).2 := by
          apply aligned.imp id
          intro small
          cases small with
          | base few => exact (base few).elim
          | divide _ _ left => exact left
        have rightAligned : rightStart = 8 ∨
            len - ((divide A len longs).1 - A) - 1 ≤ 1 := by
          apply aligned.imp id
          intro small
          cases small with
          | base few => exact (base few).elim
          | divide _ few _ => exact few
        obtain ⟨second, leftDone, leftFinished, leftHolds, leftOutside⟩ :=
          ih ((divide A len longs).1 - A).toNat (by omega) leftEntry (by omega)
            leftAligned rfl
        have atRight : second.pc = phases.afterLeft :=
          leftFinished.pc.trans leftBack
        have rsp : second .rsp = layout.top (floor + 8) := by
          rw [leftFinished.rsp, leftEntry.rsp, layout.top_add]
        have kept : phases.rest (second .rbp) (second .r12) =
            BitVec.ofInt 64 (len - ((divide A len longs).1 - A)) := by
          rw [leftFinished.rbp, leftFinished.r12, rest]
        obtain ⟨third, toRight, rightEntry, rightBack, pushed⟩ :=
          phases.right_simulates leftDone.2 atRight
            (leftFinished.rbx.trans rbx) kept rsp (by omega) (by omega)
            (by omega) (by omega) (by omega) rightAligned leftHolds
        obtain ⟨fourth, rightDone, rightFinished, rightHolds, rightOutside⟩ :=
          ih (len - ((divide A len longs).1 - A) - 1).toNat (by omega)
            rightEntry (by omega) (rightAligned.imp id .base) rfl
        have atEnd : fourth.pc = phases.afterRight :=
          rightFinished.pc.trans rightBack
        have rspEnd : fourth .rsp = layout.top (floor + 8) := by
          rw [rightFinished.rsp, rightEntry.rsp, layout.top_add]
        have widen : layout.array ∪ layout.stack floor ⊆
            layout.array ∪ layout.stack (floor + 8) :=
          Set.union_subset_union_right _ (Layout.stack_subset (by omega))
        have inner : SameOutside (layout.array ∪ layout.stack (floor + 8))
            first.memory fourth.memory :=
          ((leftOutside.mono widen).trans
            (pushed.mono Set.subset_union_right)).trans
              (rightOutside.mono widen)
        obtain ⟨last, toEnd, finished, same⟩ :=
          phases.finish_simulates rightDone.2 atEnd rspEnd entry.rsp
            (slots.same (by omega) inner)
        rw [quickSort_divide base]
        refine ⟨last, ((((toLeft.trans leftDone).trans toRight).trans
          rightDone).trans toEnd), finished, ?_, ?_⟩
        · rw [same]
          exact rightHolds
        · rw [same]
          apply outside.trans (inner.mono _)
          exact Set.union_subset_union_right _
            (Layout.stack_subset (by omega))

end Call

section FromOutside

/-- Memory holds the first `len` longs from an address on. -/
def ArrayAt (memory : Bytes) (base : Word) (len : Int) (longs : Longs) : Prop :=
  ∀ index : Int, 0 ≤ index → index < len →
    readWord memory (base + BitVec.ofInt 64 (8 * index)) = longs.cell index

/-- The bytes of the array that a machine passes to `quickSort`. -/
def arrayOf (machine : Machine) : Set Word :=
  span (machine .rdi) (8 * (machine .rsi).toInt.toNat)

/-- The number of bytes that the call puts on the stack. -/
def stackSpace (longs : Longs) (machine : Machine) : Nat :=
  32 * depth 0 (machine .rsi).toInt longs

def stackOf (longs : Longs) (machine : Machine) : Set Word :=
  span (machine .rsp - BitVec.ofNat 64 (stackSpace longs machine))
    (stackSpace longs machine)

/-- The machine is about to call `quickSort` for an array; `next` is the address
behind the call. -/
structure Calls (program : Program) (longs : Longs) (machine : Machine)
    (next : Word) : Prop where
  loaded : program.Loaded machine.memory
  fetched : fetch machine.memory machine.pc = some (.call 0x1000, next)
  array : ArrayAt machine.memory (machine .rdi) (machine .rsi).toInt longs
  below : ∀ index < (machine .rsi).toInt.toNat,
    (machine .rdi).toNat + 8 * index + 8 ≤ 2 ^ 63
  code_array : Disjoint program.region (arrayOf machine)
  code_stack : Disjoint program.region (stackOf longs machine)
  array_stack : Disjoint (arrayOf machine) (stackOf longs machine)

/-- The call has returned, and the array is now `sorted`. -/
structure Returns (longs sorted : Longs) (next : Word)
    (before after : Machine) : Prop where
  reaches : Reaches before after
  pc : after.pc = next
  array : ArrayAt after.memory (before .rdi) (before .rsi).toInt sorted
  rsp : after .rsp = before .rsp
  rbx : after .rbx = before .rbx
  rbp : after .rbp = before .rbp
  r12 : after .r12 = before .r12
  same : SameOutside (arrayOf before ∪ stackOf longs before) before.memory
    after.memory

variable {program : Program} {longs : Longs} {before : Machine} {next : Word}

/-- The stack does not go around the address space. -/
theorem Calls.space_le (calls : Calls program longs before next)
    (code : program.start ∈ program.region) :
    stackSpace longs before ≤ 2 ^ 64 := by
  have outside := Set.disjoint_left.mp calls.code_stack code
  by_contra large
  apply outside
  exact (BitVec.isLt _).trans (Nat.lt_of_not_le large)

def Calls.layout (calls : Calls program longs before next)
    (code : program.start ∈ program.region) : Layout program.region where
  base := before .rdi
  cells := (before .rsi).toInt.toNat
  low := before .rsp - BitVec.ofNat 64 (stackSpace longs before)
  room := stackSpace longs before
  below := calls.below
  room_le := calls.space_le code
  code_array := calls.code_array
  code_stack := calls.code_stack
  array_stack := calls.array_stack

theorem Phases.sorts {rightStart : Word} (phases : Phases program rightStart)
    (code : program.start ∈ program.region)
    (calls : Calls program longs before next)
    (aligned : rightStart = 8 ∨ RightsSmall 0 (before .rsi).toInt longs) :
    ∃ after, Returns longs (quickSort 0 (before .rsi).toInt longs) next before
      after := by
  let layout := calls.layout code
  have least : 8 ≤ stackSpace longs before := by
    have deep := depth_pos 0 (before .rsi).toInt longs
    unfold stackSpace
    omega
  obtain ⟨used, room⟩ := Nat.exists_eq_add_of_le' least
  have inside : used + 8 ≤ layout.room := room.ge
  have slot : before .rsp - 8 = layout.top used := by
    change before .rsp - 8 =
      before .rsp - BitVec.ofNat 64 (stackSpace longs before) + BitVec.ofNat 64 used
    rw [room, BitVec.ofNat_add, sub_add_eq_add_sub, add_comm (BitVec.ofNat 64 _),
      add_sub_add_right_eq_sub]
    rfl
  let entered : Machine :=
    { before with
      register := Function.update before.register .rsp (before .rsp - 8)
      memory := writeWord before.memory (before .rsp - 8) next
      pc := 0x1000 }
  have enters : step before = some entered := by
    rw [step, calls.fetched]
    rfl
  have pushed : SameOutside (layout.stack (used + 8)) before.memory
      entered.memory := by
    apply (writeWord_sameOutside _ _ _).mono
    rw [slot]
    exact layout.slot_subset (Nat.le_refl _)
  have loaded : program.Loaded entered.memory := by
    apply calls.loaded.sameOutside pushed
    exact (layout.code_stack.mono_right (Layout.stack_subset inside)).symm
  have holds : layout.Holds before.memory longs := by
    intro index low high
    apply calls.array index low
    change index < ((before .rsi).toInt.toNat : Int) at high
    omega
  have entry : AtEntry layout 0 (before .rsi).toInt used longs entered := by
    refine ⟨loaded, rfl, BitVec.ofInt_toInt.symm, BitVec.le_toInt _,
      BitVec.toInt_lt, fun _ => layout.address_zero.symm, fun _ => Int.le_refl 0,
      ?_, slot, inside, holds.stack inside pushed⟩
    intro more
    change 0 + (before .rsi).toInt ≤ ((before .rsi).toInt.toNat : Int)
    omega
  obtain ⟨after, gets, finished, sorted, same⟩ :=
    phases.simulates entry room.le aligned
  refine ⟨after, .head enters gets.1, ?_, ?_, ?_, finished.rbx, finished.rbp,
    finished.r12, ?_⟩
  · exact finished.pc.trans (readWord_writeWord _ _ _)
  · intro index low high
    exact sorted index low (by change index < ((before .rsi).toInt.toNat : Int); omega)
  · exact finished.rsp.trans (sub_add_cancel _ _)
  · have whole : layout.stack (stackSpace longs before) = stackOf longs before := rfl
    rw [← whole, room]
    apply (pushed.mono Set.subset_union_right).trans (same.mono _)
    exact Set.union_subset_union_right _ (Layout.stack_subset (by omega))

end FromOutside

end SystemsLabs.QuickSort
