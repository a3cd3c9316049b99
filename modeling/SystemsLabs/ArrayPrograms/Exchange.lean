import SystemsLabs.Library.ExchangeSort
import SystemsLabs.Library.Y86.Cells
import SystemsLabs.ArrayPrograms.Listing

/-!
# `sort_64.ys` is an exchange sort

The pieces of the listing between two labels are run one by one; the loops then
follow the passes of `ExchangeSort`, with the words compared as signed integers.
-/

namespace SystemsLabs.ArrayPrograms

open Y86 ExchangeSort Rearrangement

section Pieces

variable {before : Machine}

theorem sort64_start (loaded : sort64Program.Loaded before.memory)
    (atStart : before.pc = 0x100) :
    ∃ after, Gets sort64Program before after ∧ after.memory = before.memory ∧
      after .rax = readWord before.memory aSize ∧
      after .rcx = readWord before.memory a ∧ after.pc = 0x128 := by
  obtain ⟨register, flags, memory, _⟩ := before
  subst atStart
  exact ⟨_, loaded.runs 4 [] 0x128 rfl (by simp) rfl, rfl,
    congrArg (readWord memory) (BitVec.add_zero _),
    congrArg (readWord memory) (BitVec.add_zero _), rfl⟩

theorem sort64_outer (loaded : sort64Program.Loaded before.memory)
    (atOuter : before.pc = 0x128) :
    ∃ after, Gets sort64Program before after ∧ after.memory = before.memory ∧
      after .rax = before .rax - 1 ∧ after .rcx = before .rcx ∧
      after.pc = if (before .rax).toInt < 1 then 0x1C3 else 0x13D := by
  obtain ⟨register, flags, memory, _⟩ := before
  subst atOuter
  have less := sub_holds_l 1 (register .rax)
  by_cases last : (register .rax).toInt < 1
  · have taken := less.trans (decide_eq_true last)
    exact ⟨_, loaded.runs 3 [] 0x1C3 rfl (by simp) (if_pos taken), rfl, rfl,
      rfl, (if_pos last).symm⟩
  · have falls := less.trans (decide_eq_false last)
    exact ⟨_, loaded.runs 3 [] 0x13D rfl (by simp)
      (if_neg (Bool.eq_false_iff.mp falls)), rfl, rfl, rfl,
      (if_neg last).symm⟩

theorem sort64_enter (loaded : sort64Program.Loaded before.memory)
    (atEnter : before.pc = 0x13D) :
    ∃ after, Gets sort64Program before after ∧ after.memory = before.memory ∧
      after .rax = before .rax ∧ after .rcx = before .rcx ∧
      after .rbx = readWord before.memory (before .rcx) ∧
      after .rdx = before .rax ∧ after .rsi = before .rcx + 8 ∧
      after.pc = 0x157 := by
  obtain ⟨register, flags, memory, _⟩ := before
  subst atEnter
  exact ⟨_, loaded.runs 5 [] 0x157 rfl (by simp) rfl, rfl, rfl, rfl,
    congrArg (readWord memory) (BitVec.add_zero _), rfl, rfl, rfl⟩

theorem sort64_inner (loaded : sort64Program.Loaded before.memory)
    (atInner : before.pc = 0x157) :
    ∃ after, Gets sort64Program before after ∧ after.memory = before.memory ∧
      after .rax = before .rax ∧ after .rcx = before .rcx ∧
      after .rbx = before .rbx ∧ after .rdx = before .rdx - 1 ∧
      after .rsi = before .rsi ∧
      after.pc = if (before .rdx).toInt < 1 then 0x1AE else 0x16C := by
  obtain ⟨register, flags, memory, _⟩ := before
  subst atInner
  have less := sub_holds_l 1 (register .rdx)
  by_cases last : (register .rdx).toInt < 1
  · have taken := less.trans (decide_eq_true last)
    exact ⟨_, loaded.runs 3 [] 0x1AE rfl (by simp) (if_pos taken), rfl, rfl,
      rfl, rfl, rfl, rfl, (if_pos last).symm⟩
  · have falls := less.trans (decide_eq_false last)
    exact ⟨_, loaded.runs 3 [] 0x16C rfl (by simp)
      (if_neg (Bool.eq_false_iff.mp falls)), rfl, rfl, rfl, rfl, rfl, rfl,
      (if_neg last).symm⟩

/-- The words are compared and exchanged, up to `skipSwap`. -/
theorem sort64_exchange (loaded : sort64Program.Loaded before.memory)
    (atBody : before.pc = 0x16C)
    (held : before .rbx = readWord before.memory (before .rcx))
    (apart : Apart (before .rsi) (before .rcx))
    (clearRsi : Clear sort64Program (before .rsi))
    (clearRcx : Clear sort64Program (before .rcx)) :
    ∃ after, Gets sort64Program before after ∧ after .rax = before .rax ∧
      after .rcx = before .rcx ∧ after .rdx = before .rdx ∧
      after .rsi = before .rsi ∧ after.pc = 0x199 ∧
      after .rbx = readWord after.memory (before .rcx) ∧
      if (readWord before.memory (before .rsi)).toInt <
          (readWord before.memory (before .rcx)).toInt then
        Swapped (before .rcx) (before .rsi) before.memory after.memory
      else after.memory = before.memory := by
  obtain ⟨register, flags, memory, _⟩ := before
  subst atBody
  change register .rbx = readWord memory (register .rcx) at held
  have zero : ∀ place : Word, place + 0 = place := BitVec.add_zero
  have ge := sub_holds_ge (register .rbx) (readWord memory (register .rsi + 0))
  by_cases smaller : (readWord memory (register .rsi)).toInt <
      (readWord memory (register .rcx)).toInt
  · have falls := ge.trans (decide_eq_false (by
      rw [zero, held]
      exact Int.not_le.mpr smaller))
    have compared := loaded.runs 4 [] 0x183 rfl (by simp)
      (if_neg (Bool.eq_false_iff.mp falls))
    have slots : ∀ address ∈ [register .rsi + 0, register .rcx + 0],
        Clear sort64Program address := by
      rw [zero, zero]
      simpa using ⟨clearRsi, clearRcx⟩
    have moved := compared.2.runs 3 _ 0x199 rfl slots rfl
    have written : writeWord (writeWord memory (register .rsi + 0)
        (register .rbx)) (register .rcx + 0)
          (readWord memory (register .rsi + 0)) =
        writeWord (writeWord memory (register .rsi)
          (readWord memory (register .rcx))) (register .rcx)
            (readWord memory (register .rsi)) := by
      rw [zero, zero, held]
    have swapped := swapped_writes memory apart
    rw [← written] at swapped
    refine ⟨_, compared.trans moved, rfl, rfl, rfl, rfl, rfl, ?_, ?_⟩
    · refine Eq.trans ?_ swapped.right_eq.symm
      exact congrArg (readWord memory) (zero _)
    · rw [if_pos smaller]
      exact swapped.symm
  · have taken := ge.trans (decide_eq_true (by
      rw [zero, held]
      exact Int.not_lt.mp smaller))
    have compared := loaded.runs 4 [] 0x199 rfl (by simp) (if_pos taken)
    refine ⟨_, compared, rfl, rfl, rfl, rfl, rfl, held, ?_⟩
    rw [if_neg smaller]

/-- From `skipSwap` back to `inner`. -/
theorem sort64_next (loaded : sort64Program.Loaded before.memory)
    (atNext : before.pc = 0x199) :
    ∃ after, Gets sort64Program before after ∧ after.memory = before.memory ∧
      after .rax = before .rax ∧ after .rcx = before .rcx ∧
      after .rbx = before .rbx ∧ after .rdx = before .rdx ∧
      after .rsi = before .rsi + 8 ∧ after.pc = 0x157 := by
  obtain ⟨register, flags, memory, _⟩ := before
  subst atNext
  exact ⟨_, loaded.runs 3 [] 0x157 rfl (by simp) rfl, rfl, rfl, rfl, rfl, rfl,
    rfl, rfl⟩

/-- From `endInner` back to `outer`. -/
theorem sort64_endInner (loaded : sort64Program.Loaded before.memory)
    (atEnd : before.pc = 0x1AE) :
    ∃ after, Gets sort64Program before after ∧ after.memory = before.memory ∧
      after .rax = before .rax ∧ after .rcx = before .rcx + 8 ∧
      after.pc = 0x128 := by
  obtain ⟨register, flags, memory, _⟩ := before
  subst atEnd
  exact ⟨_, loaded.runs 3 [] 0x128 rfl (by simp) rfl, rfl, rfl, rfl, rfl⟩

end Pieces

/-- The machine gets to a state and changes memory inside an array only. -/
structure Moves (base : Word) (cells : Nat) (before after : Machine) :
    Prop where
  reaches : Reaches before after
  same : SameOutside (span base (8 * cells)) before.memory after.memory

theorem Moves.trans {base : Word} {cells : Nat} {first second third : Machine}
    (earlier : Moves base cells first second)
    (later : Moves base cells second third) : Moves base cells first third :=
  ⟨earlier.reaches.trans later.reaches, earlier.same.trans later.same⟩

theorem Moves.of_memory {base : Word} {cells : Nat} {before after : Machine}
    (reaches : Reaches before after) (memory : after.memory = before.memory) :
    Moves base cells before after :=
  ⟨reaches, fun _ _ => by rw [memory]⟩

/-- At `outer`, with the places from `place` on still to be filled. -/
structure AtOuter (base : Word) (cells place count : Nat)
    (array : Nat → Word) (machine : Machine) : Prop where
  loaded : sort64Program.Loaded machine.memory
  pc : machine.pc = 0x128
  rax : machine .rax = BitVec.ofNat 64 count
  rcx : machine .rcx = cellAt base place
  ends : place + count = cells
  holds : HoldsCells machine.memory base cells array

/-- At `inner`, with the cells from `first` on still to be compared. -/
structure AtInner (base : Word) (cells place first count : Nat)
    (array : Nat → Word) (machine : Machine) : Prop where
  loaded : sort64Program.Loaded machine.memory
  pc : machine.pc = 0x157
  rax : machine .rax = BitVec.ofNat 64 (cells - (place + 1))
  rcx : machine .rcx = cellAt base place
  rbx : machine .rbx = array place
  rdx : machine .rdx = BitVec.ofNat 64 count
  rsi : machine .rsi = cellAt base first
  ends : first + count = cells
  behind : place < first
  holds : HoldsCells machine.memory base cells array

section Loops

variable {base : Word} {cells place first count : Nat} {array : Nat → Word}
  {before : Machine} (small : 8 * cells < 2 ^ 64)
  (away : Disjoint (span base (8 * cells)) sort64Program.region)

include small away in
theorem AtInner.step
    (here : AtInner base cells place first (count + 1) array before) :
    ∃ after, Moves base cells before after ∧
      AtInner base cells place (first + 1) count
        (exchange BitVec.toInt place first array) after := by
  obtain ⟨loaded, pc, rax, rcx, rbx, rdx, rsi, ends, behind, holds⟩ := here
  have placeInside : place < cells := by omega
  have firstInside : first < cells := by omega
  have more : ¬(before .rdx).toInt < 1 := by
    rw [rdx, toInt_ofNat (by omega)]
    omega
  obtain ⟨tested, tests, memory₁, rax₁, rcx₁, rbx₁, rdx₁, rsi₁, pc₁⟩ :=
    sort64_inner loaded pc
  rw [if_neg more] at pc₁
  have apart : Apart (tested .rsi) (tested .rcx) := by
    rw [rsi₁, rcx₁, rsi, rcx]
    exact .inr (cells_disjoint (Nat.le_of_lt small) firstInside placeInside
      (Nat.ne_of_gt behind))
  have held : tested .rbx = readWord tested.memory (tested .rcx) := by
    rw [rbx₁, rbx, memory₁, rcx₁, rcx, holds place placeInside]
  have clear : ∀ index < cells, Clear sort64Program (cellAt base index) :=
    fun index inside => away.mono_left (cell_subset inside)
  obtain ⟨swapped, swaps, rax₂, rcx₂, rdx₂, rsi₂, pc₂, rbx₂, memory₂⟩ :=
    sort64_exchange tests.2 pc₁ held apart
      (by rw [rsi₁, rsi]; exact clear first firstInside)
      (by rw [rcx₁, rcx]; exact clear place placeInside)
  obtain ⟨after, advances, memory₃, rax₃, rcx₃, rbx₃, rdx₃, rsi₃, pc₃⟩ :=
    sort64_next swaps.2 pc₂
  rw [rsi₁, rcx₁, memory₁, rsi, rcx, holds first firstInside,
    holds place placeInside] at memory₂
  have exchanged : SameOutside (span base (8 * cells)) before.memory
        swapped.memory ∧
      HoldsCells swapped.memory base cells
        (exchange BitVec.toInt place first array) := by
    unfold exchange
    split at memory₂
    · rename_i smaller
      rw [if_pos smaller]
      refine ⟨memory₂.same.mono ?_, holds.swap (Nat.le_of_lt small)
        placeInside firstInside memory₂⟩
      exact Set.union_subset (cell_subset placeInside)
        (cell_subset firstInside)
    · rename_i large
      rw [if_neg large, memory₂]
      exact ⟨.refl _ _, holds⟩
  refine ⟨after, ⟨((tests.trans swaps).trans advances).1, ?_⟩, ?_⟩
  · rw [memory₃]
    exact exchanged.1
  · refine ⟨advances.2, pc₃, ?_, ?_, ?_, ?_, ?_, by omega, by omega, ?_⟩
    · rw [rax₃, rax₂, rax₁, rax]
    · rw [rcx₃, rcx₂, rcx₁, rcx]
    · rw [rbx₃, rbx₂, rcx₁, rcx]
      exact exchanged.2 place placeInside
    · rw [rdx₃, rdx₂, rdx₁, rdx]
      exact ofNat_succ_sub_one count
    · rw [rsi₃, rsi₂, rsi₁, rsi, cellAt_succ]
    · rw [memory₃]
      exact exchanged.2

include small away in
/-- The inner loop makes a pass. -/
theorem AtInner.loop
    (here : AtInner base cells place first count array before) :
    ∃ after, Moves base cells before after ∧
      AtInner base cells place (first + count) 0
        (pass BitVec.toInt place first count array) after := by
  induction count generalizing first array before with
  | zero => exact ⟨before, .of_memory .refl rfl, here⟩
  | succ count ih =>
      obtain ⟨middle, round, next⟩ := here.step small away
      obtain ⟨after, rest, done⟩ := ih next
      rw [Nat.add_assoc, Nat.add_comm 1 count] at done
      exact ⟨after, round.trans rest, done⟩

theorem AtInner.finish
    (here : AtInner base cells place first 0 array before) :
    ∃ after, Moves base cells before after ∧
      AtOuter base cells (place + 1) (cells - (place + 1)) array after := by
  obtain ⟨loaded, pc, rax, rcx, _, rdx, _, ends, behind, holds⟩ := here
  have done : (before .rdx).toInt < 1 := by
    rw [rdx]
    decide
  obtain ⟨tested, tests, memory₁, rax₁, rcx₁, _, _, _, pc₁⟩ :=
    sort64_inner loaded pc
  rw [if_pos done] at pc₁
  obtain ⟨after, ends, memory₂, rax₂, rcx₂, pc₂⟩ :=
    sort64_endInner tests.2 pc₁
  have memory := memory₂.trans memory₁
  refine ⟨after, .of_memory (tests.trans ends).1 memory,
    ⟨ends.2, pc₂, ?_, ?_, by omega, ?_⟩⟩
  · rw [rax₂, rax₁, rax]
  · rw [rcx₂, rcx₁, rcx, cellAt_succ]
  · rw [memory]
    exact holds

include small in
theorem AtOuter.enter
    (here : AtOuter base cells place (count + 1) array before) :
    ∃ after, Moves base cells before after ∧
      AtInner base cells place (place + 1) count array after := by
  obtain ⟨loaded, pc, rax, rcx, ends, holds⟩ := here
  have more : ¬(before .rax).toInt < 1 := by
    rw [rax, toInt_ofNat (by omega)]
    omega
  obtain ⟨tested, tests, memory₁, rax₁, rcx₁, pc₁⟩ := sort64_outer loaded pc
  rw [if_neg more] at pc₁
  obtain ⟨after, enters, memory₂, rax₂, rcx₂, rbx₂, rdx₂, rsi₂, pc₂⟩ :=
    sort64_enter tests.2 pc₁
  have memory := memory₂.trans memory₁
  have rest : before .rax - 1 = BitVec.ofNat 64 count := by
    rw [rax]
    exact ofNat_succ_sub_one count
  have left : cells - (place + 1) = count := by omega
  refine ⟨after, .of_memory (tests.trans enters).1 memory,
    ⟨enters.2, pc₂, ?_, ?_, ?_, ?_, ?_, by omega, Nat.lt_succ_self _, ?_⟩⟩
  · rw [rax₂, rax₁, rest, left]
  · rw [rcx₂, rcx₁, rcx]
  · rw [rbx₂, memory₁, rcx₁, rcx, holds place (by omega)]
  · rw [rdx₂, rax₁, rest]
  · rw [rsi₂, rcx₁, rcx, cellAt_succ]
  · rw [memory]
    exact holds

theorem AtOuter.halts (here : AtOuter base cells place 0 array before) :
    ∃ after, Moves base cells before after ∧ Halted after ∧
      HoldsCells after.memory base cells array := by
  obtain ⟨loaded, pc, rax, _, _, holds⟩ := here
  have done : (before .rax).toInt < 1 := by
    rw [rax]
    decide
  obtain ⟨after, tests, memory, _, _, pc₁⟩ := sort64_outer loaded pc
  rw [if_pos done] at pc₁
  refine ⟨after, .of_memory tests.1 memory, tests.2.halted pc₁ rfl, ?_⟩
  rw [memory]
  exact holds

include small away in
/-- The outer loop sorts the rest of the array. -/
theorem AtOuter.loop
    (here : AtOuter base cells place count array before) :
    ∃ after, Moves base cells before after ∧ Halted after ∧
      HoldsCells after.memory base cells
        (sortFrom BitVec.toInt place count array) := by
  induction count generalizing place array before with
  | zero => exact here.halts
  | succ count ih =>
      have ends := here.ends
      obtain ⟨entered, enters, inside⟩ := here.enter small
      obtain ⟨passed, passes, atEnd⟩ := inside.loop small away
      obtain ⟨next, finishes, outer⟩ := atEnd.finish
      have left : cells - (place + 1) = count := by omega
      rw [left] at outer
      obtain ⟨after, rest, halted, holds⟩ := ih outer
      exact ⟨after, ((enters.trans passes).trans finishes).trans rest, halted,
        holds⟩

end Loops

/-- `sort_64.ys` halts with the array sorted, and only the array has changed.
The words are compared as signed integers, also where their difference
overflows. -/
theorem sort64_sorts {cells : Nat} {before : Machine}
    (loaded : sort64Program.Loaded before.memory)
    (atSort : before.pc = 0x100)
    (size : (readWord before.memory aSize).toInt = cells)
    (away : Disjoint (span (readWord before.memory a) (8 * cells))
      sort64Program.region) :
    ∃ after, Reaches before after ∧ Halted after ∧
      SameOutside (span (readWord before.memory a) (8 * cells))
        before.memory after.memory ∧
      (words after.memory (readWord before.memory a) cells).Perm
        (words before.memory (readWord before.memory a) cells) ∧
      (words after.memory (readWord before.memory a) cells).Pairwise
        fun left right => left.toInt ≤ right.toInt := by
  have codeStart : sort64Program.start ∈ sort64Program.region := by
    change (0x100#64 - 0x100#64).toNat < sort64Program.size
    decide
  have small := span_small (Set.disjoint_right.mp away codeStart)
  obtain ⟨start, starts, memory, rax, rcx, pc⟩ := sort64_start loaded atSort
  have count : readWord before.memory aSize = BitVec.ofNat 64 cells := by
    apply BitVec.eq_of_toInt_eq
    rw [size, toInt_ofNat (by omega)]
  let array : Nat → Word := fun index =>
    readWord before.memory (cellAt (readWord before.memory a) index)
  have holds : HoldsCells before.memory (readWord before.memory a) cells
    array := fun _ _ => rfl
  have outer : AtOuter (readWord before.memory a) cells 0 cells array start :=
    ⟨starts.2, pc, rax.trans count, rcx.trans (cellAt_zero _).symm,
      Nat.zero_add cells, memory ▸ holds⟩
  obtain ⟨after, moves, halted, sorted⟩ := outer.loop small away
  refine ⟨after, starts.1.trans moves.reaches, halted, ?_, ?_, ?_⟩
  · have same := moves.same
    rw [memory] at same
    exact same
  · have rearranges : Rearranges {index | index < cells} array
        (sortFrom BitVec.toInt 0 cells array) :=
      sortFrom_rearranges fun index _ inside => Nat.zero_add cells ▸ inside
    rw [sorted.words_eq, holds.words_eq]
    exact rearranges.perm List.nodup_range fun _ => List.mem_range
  · rw [sorted.words_eq, List.pairwise_map]
    refine List.pairwise_lt_range.imp_of_mem ?_
    intro left right leftInside rightInside order
    exact sort_sorted cells array left right order
      (List.mem_range.mp leftInside) (List.mem_range.mp rightInside)

/-- The differences of these words overflow. -/
theorem sort64_sorts_three :
    ∃ after, Reaches (startOf sort64Program [5, 2 ^ 63 - 1, 2 ^ 63]) after ∧
      Halted after ∧
      SameOutside (span 0x2000 (8 * 3))
        (startOf sort64Program [5, 2 ^ 63 - 1, 2 ^ 63]).memory after.memory ∧
      (words after.memory 0x2000 3).Perm
        (words (startOf sort64Program [5, 2 ^ 63 - 1, 2 ^ 63]).memory
          0x2000 3) ∧
      (words after.memory 0x2000 3).Pairwise
        fun left right => left.toInt ≤ right.toInt := by
  have array : readWord (startOf sort64Program
      [5, 2 ^ 63 - 1, 2 ^ 63]).memory a = 0x2000 := by decide +kernel
  have size : (readWord (startOf sort64Program
      [5, 2 ^ 63 - 1, 2 ^ 63]).memory aSize).toInt = (3 : Nat) := by
    decide +kernel
  have away : Disjoint (span 0x2000 (8 * 3)) sort64Program.region :=
    (span_disjoint 0#64 (show 0x100 + sort64Program.size ≤ 0x2000 by decide)
      (by decide)).symm
  have sorts := sort64_sorts (Program.Loaded.of_load (by decide) _) rfl size
    (array ▸ away)
  rw [array] at sorts
  exact sorts

end SystemsLabs.ArrayPrograms
