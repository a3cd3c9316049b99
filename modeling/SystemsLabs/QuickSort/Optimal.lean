import SystemsLabs.QuickSort.Sort
import SystemsLabs.QuickSort.Rights

/-!
# `sort_optimal.ys` and `sort_reorder.ys`

The base case is tested before the pushes, some instructions have changed
places, and the line that loads 8 into `%r9` for the address of the right part
is a comment: that address is one byte behind the pivot.
-/

namespace SystemsLabs.QuickSort

open Y86

def optimalProgram : Program := sortOptimal.assemble 0x1000

section Pieces

variable {before : Machine}

theorem optimal_test (loaded : optimalProgram.Loaded before.memory)
    (atEntry : before.pc = 0x1000) :
    ∃ after, Gets optimalProgram before after ∧
      after.memory = before.memory ∧
      (∀ register, register ≠ .r9 → after register = before register) ∧
      after.pc = if (before .rsi).toInt ≤ 1 then 0x111E else 0x1015 := by
  obtain ⟨register, flags, memory, _⟩ := before
  subst atEntry
  have ge := sub_holds_ge (register .rsi) 1
  have others : ∀ first second : Word, ∀ other, other ≠ Register.r9 →
      Function.update (Function.update register .r9 first) .r9 second other =
        register other := by
    intro first second other different
    rw [Function.update_of_ne different, Function.update_of_ne different]
  by_cases short : (register .rsi).toInt ≤ 1
  · have taken := ge.trans (decide_eq_true short)
    exact ⟨_, loaded.runs 3 [] 0x111E rfl (by simp) (if_pos taken), rfl,
      others _ _, (if_pos short).symm⟩
  · have falls := ge.trans (decide_eq_false short)
    exact ⟨_, loaded.runs 3 [] 0x1015 rfl (by simp)
      (if_neg (Bool.eq_false_iff.mp falls)), rfl, others _ _,
      (if_neg short).symm⟩

theorem optimal_push (loaded : optimalProgram.Loaded before.memory)
    (atPush : before.pc = 0x1015)
    (clear : FrameClear optimalProgram (before .rsp)) :
    ∃ after, Gets optimalProgram before after ∧ Pushed before after ∧
      after.pc = 0x101B := by
  obtain ⟨register, flags, memory, _⟩ := before
  subst atPush
  exact ⟨_, loaded.runs 3 _ 0x101B rfl clear.slots rfl, ⟨rfl, rfl, rfl, rfl⟩,
    rfl⟩

theorem optimal_bounds (loaded : optimalProgram.Loaded before.memory)
    (atBounds : before.pc = 0x101B)
    (order : (before .rdi).toInt ≤
      (before .rsi * 8 - 8 + before .rdi).toInt) :
    ∃ after, Gets optimalProgram before after ∧ Bounded before after ∧
      after .rbp = before .rsi ∧ after.pc = 0x10BB := by
  obtain ⟨register, flags, memory, _⟩ := before
  subst atBounds
  have taken := (sub_holds_le (register .rsi * 8 - 8 + register .rdi)
    (register .rdi)).trans (decide_eq_true order)
  have bounds := loaded.runs 10 [] 0x10B7 rfl (by simp) (if_pos taken)
  have pointers := bounds.2.runs 2 [] 0x10BB rfl (by simp) rfl
  refine ⟨_, bounds.trans pointers, ⟨rfl, rfl, rfl, rfl, ?_, rfl, rfl⟩, rfl,
    rfl⟩
  exact congrArg (readWord memory) (BitVec.add_zero _)

/-- From `LN5` to `LN4`; the two stores have changed places. -/
theorem optimal_compare (loaded : optimalProgram.Loaded before.memory)
    (atLoop : before.pc = 0x10BB)
    (apart : Apart (before .rax) (before .rbx))
    (clearRax : Clear optimalProgram (before .rax))
    (clearRbx : Clear optimalProgram (before .rbx)) :
    ∃ after, Gets optimalProgram before after ∧ Compared before after ∧
      after.pc = 0x10FC := by
  obtain ⟨register, flags, memory, _⟩ := before
  subst atLoop
  have zero : ∀ place : Word, place + 0 = place := BitVec.add_zero
  have less := sub_holds_l (readWord memory (register .rax)) (register .r8)
  rw [← zero (register .rax)] at less
  by_cases large : (register .r8).toInt <
      (readWord memory (register .rax + 0)).toInt
  · have taken := less.trans (decide_eq_true large)
    rw [zero] at large
    exact ⟨_, loaded.runs 4 [] 0x10FC rfl (by simp) (if_pos taken),
      ⟨⟨rfl, rfl, rfl, rfl, rfl⟩, rfl, fun small =>
        (Int.not_le.mpr large small).elim, fun _ => ⟨rfl, rfl⟩⟩, rfl⟩
  · have falls := less.trans (decide_eq_false large)
    rw [zero] at large
    have compared := loaded.runs 4 [] 0x10D2 rfl (by simp)
      (if_neg (Bool.eq_false_iff.mp falls))
    have slots : ∀ address ∈ [register .rbx + 0, register .rax + 0],
        Clear optimalProgram address := by
      rw [zero, zero]
      simpa using ⟨clearRbx, clearRax⟩
    have moved := compared.2.runs 5 _ 0x10FC rfl slots rfl
    refine ⟨_, compared.trans moved, ⟨⟨rfl, rfl, rfl, rfl, rfl⟩, rfl,
      fun _ => ⟨rfl, ?_⟩, fun greater => (large greater).elim⟩, rfl⟩
    change Swapped (register .rax) (register .rbx) memory
      (writeWord (writeWord memory (register .rbx + 0)
        (readWord memory (register .rax + 0))) (register .rax + 0)
        (readWord memory (register .rbx + 0)))
    rw [zero, zero]
    exact (swapped_writes memory apart.symm).symm

theorem optimal_next (loaded : optimalProgram.Loaded before.memory)
    (atNext : before.pc = 0x10FC) :
    ∃ after, Gets optimalProgram before after ∧ Advanced before after ∧
      after.pc = if (before .rcx).toInt ≤ (before .rax + 8).toInt then 0x1048
        else 0x10BB := by
  obtain ⟨register, flags, memory, _⟩ := before
  subst atNext
  have le := sub_holds_le (register .rax + 8) (register .rcx)
  by_cases last : (register .rcx).toInt ≤ (register .rax + 8).toInt
  · have taken := le.trans (decide_eq_true last)
    exact ⟨_, loaded.runs 5 [] 0x1048 rfl (by simp) (if_pos taken),
      ⟨⟨rfl, rfl, rfl, rfl, rfl⟩, rfl, rfl, rfl⟩, (if_pos last).symm⟩
  · have falls := le.trans (decide_eq_false last)
    have tested := loaded.runs 5 [] 0x1115 rfl (by simp)
      (if_neg (Bool.eq_false_iff.mp falls))
    have jumped := tested.2.runs 1 [] 0x10BB rfl (by simp) rfl
    exact ⟨_, tested.trans jumped, ⟨⟨rfl, rfl, rfl, rfl, rfl⟩, rfl, rfl, rfl⟩,
      (if_neg last).symm⟩

/-- The pivot is put in place, from `LN3` on; a move and the second store have
changed places. -/
theorem optimal_left (loaded : optimalProgram.Loaded before.memory)
    (atSplit : before.pc = 0x1048)
    (apart : Apart (before .rcx) (before .rbx))
    (clearRcx : Clear optimalProgram (before .rcx))
    (clearRbx : Clear optimalProgram (before .rbx))
    (clearSlot : Clear optimalProgram (before .rsp - 8)) :
    ∃ after, Gets optimalProgram before after ∧ after.pc = 0x1000 ∧
      LeftCalled 0x108D (fun rbp _ => rbp) before after := by
  obtain ⟨register, flags, memory, _⟩ := before
  subst atSplit
  have zero : ∀ place : Word, place + 0 = place := BitVec.add_zero
  have slots : ∀ address ∈ [register .rbx + 0, register .rcx + 0,
      register .rsp - 8], Clear optimalProgram address := by
    rw [zero, zero]
    simpa using ⟨clearRbx, clearRcx, clearSlot⟩
  have called := loaded.runs 11 _ 0x1000 rfl slots rfl
  refine ⟨_, called, rfl, ⟨_, ?_, rfl⟩, rfl, rfl, rfl, rfl, rfl⟩
  change Swapped (register .rcx) (register .rbx) memory
    (writeWord (writeWord memory (register .rbx + 0)
      (readWord memory (register .rcx + 0))) (register .rcx + 0)
      (readWord memory (register .rbx + 0)))
  rw [zero, zero]
  exact (swapped_writes memory apart.symm).symm

/-- From the first recursive call to the second: `%r9` still holds 1. -/
theorem optimal_right (loaded : optimalProgram.Loaded before.memory)
    (atRight : before.pc = 0x108D)
    (clearSlot : Clear optimalProgram (before .rsp - 8)) :
    ∃ after, Gets optimalProgram before after ∧ after.pc = 0x1000 ∧
      RightCalled 1 0x10A8 (fun rbp _ => rbp) before after := by
  obtain ⟨register, flags, memory, _⟩ := before
  subst atRight
  have called := loaded.runs 6 [register .rsp - 8] 0x1000 rfl
    (by simpa using clearSlot) rfl
  exact ⟨_, called, rfl, rfl, rfl, rfl, rfl⟩

theorem optimal_finish (loaded : optimalProgram.Loaded before.memory)
    (atFinish : before.pc = 0x10A8) :
    ∃ after, Gets optimalProgram before after ∧ Restored before after := by
  obtain ⟨register, flags, memory, _⟩ := before
  subst atFinish
  exact ⟨_, loaded.runs 5 [] _ rfl (by simp) rfl, rfl, rfl, rfl, rfl, rfl, rfl⟩

theorem optimal_return (loaded : optimalProgram.Loaded before.memory)
    (atEnd : before.pc = 0x111E) :
    ∃ after, Gets optimalProgram before after ∧ Finished before after ∧
      after.memory = before.memory := by
  obtain ⟨register, flags, memory, _⟩ := before
  subst atEnd
  exact ⟨_, loaded.runs 1 [] _ rfl (by simp) rfl, ⟨rfl, rfl, rfl, rfl, rfl⟩,
    rfl⟩

end Pieces

/-- The listing does what the simulation asks for, with 1 for the distance of
the right part. -/
def optimalPhases : Phases optimalProgram 1 where
  loop := 0x10BB
  split := 0x1048
  afterLeft := 0x108D
  afterRight := 0x10A8
  rest rbp _ := rbp
  small before loaded atEntry short clear := by
    obtain ⟨middle, tests, memory, others, pc⟩ := optimal_test loaded atEntry
    rw [if_pos short] at pc
    obtain ⟨after, returns, finished, same⟩ := optimal_return tests.2 pc
    have rsp := others .rsp (by decide)
    refine ⟨after, tests.trans returns, ⟨?_, ?_, ?_, ?_, ?_⟩,
      .inl (same.trans memory)⟩
    · rw [finished.pc, memory, rsp]
    · rw [finished.rsp, rsp]
    · rw [finished.rbx, others .rbx (by decide)]
    · rw [finished.rbp, others .rbp (by decide)]
    · rw [finished.r12, others .r12 (by decide)]
  start before loaded atEntry long order clear := by
    obtain ⟨first, tests, memory, others, pc⟩ := optimal_test loaded atEntry
    rw [if_neg (Int.not_le.mpr long)] at pc
    have rsp := others .rsp (by decide)
    rw [← rsp] at clear
    obtain ⟨middle, pushes, pushed, atBounds⟩ := optimal_push tests.2 pc clear
    have rdi : middle .rdi = before .rdi :=
      pushed.rdi.trans (others .rdi (by decide))
    have rsi : middle .rsi = before .rsi :=
      pushed.rsi.trans (others .rsi (by decide))
    have frame : Pushed before middle := by
      refine ⟨?_, ?_, rdi, rsi⟩
      · rw [pushed.memory, memory, rsp, others .r12 (by decide),
          others .rbp (by decide), others .rbx (by decide)]
      · rw [pushed.rsp, rsp]
    rw [← rdi, ← rsi] at order
    obtain ⟨after, bounds, bounded, rbp, atLoop⟩ :=
      optimal_bounds pushes.2 atBounds order
    exact ⟨after, (tests.trans pushes).trans bounds, atLoop,
      bounded.started frame (rbp.trans rsi)⟩
  round before loaded atLoop apart clearRax clearRbx := by
    obtain ⟨middle, compares, compared, atNext⟩ :=
      optimal_compare loaded atLoop apart clearRax clearRbx
    obtain ⟨after, tests, advanced, pc⟩ := optimal_next compares.2 atNext
    rw [compared.rcx, compared.rax] at pc
    exact ⟨after, compares.trans tests, compared.round advanced, pc⟩
  left before loaded atSplit apart clearRcx clearRbx clearSlot :=
    optimal_left loaded atSplit apart clearRcx clearRbx clearSlot
  right before loaded atRight clearSlot := optimal_right loaded atRight clearSlot
  finish before loaded atFinish := optimal_finish loaded atFinish

def reorderProgram : Program := sortReorder.assemble 0x1000

/-- Two machines make the same call. -/
structure SameCall (before other : Machine) : Prop where
  rdi : other .rdi = before .rdi
  rsi : other .rsi = before .rsi
  rsp : other .rsp = before .rsp
  rbx : other .rbx = before .rbx
  rbp : other .rbp = before .rbp
  r12 : other .r12 = before .r12

/-- Two calls, of which `before` is one, have left the same array and the same
registers of the caller. -/
structure SameResult (before after other : Machine) : Prop where
  array : ∀ index : Int, 0 ≤ index → index < (before .rsi).toInt →
    readWord other.memory (before .rdi + BitVec.ofInt 64 (8 * index)) =
      readWord after.memory (before .rdi + BitVec.ofInt 64 (8 * index))
  rsp : other .rsp = after .rsp
  rbx : other .rbx = after .rbx
  rbp : other .rbp = after .rbp
  r12 : other .r12 = after .r12

theorem optimal_start_mem : optimalProgram.start ∈ optimalProgram.region := by
  change (0x1000#64 - 0x1000#64).toNat < optimalProgram.size
  decide

/-- The optimised versions do what `sort.ys` does when no call finds two values
greater than its pivot. -/
theorem optimal_agrees {program : Program}
    (optimised : program = optimalProgram ∨ program = reorderProgram)
    {longs : Longs} {before other : Machine} {next otherNext : Word}
    (calls : Calls sortProgram longs before next)
    (otherCalls : Calls program longs other otherNext)
    (same : SameCall before other)
    (few : FewGreater (valuesOf longs 0 (before .rsi).toInt)) :
    ∃ after otherAfter, Reaches before after ∧ after.pc = next ∧
      Reaches other otherAfter ∧ otherAfter.pc = otherNext ∧
      SameResult before after otherAfter := by
  have listing : program = optimalProgram := by
    rcases optimised with rfl | rfl
    · rfl
    · rfl
  subst listing
  have small : RightsSmall 0 (other .rsi).toInt longs := by
    rw [rightsSmall_iff, same.rsi, zero_add]
    exact few
  obtain ⟨after, returns⟩ := sortPhases.sorts sort_start_mem calls (.inl rfl)
  obtain ⟨otherAfter, otherReturns⟩ :=
    optimalPhases.sorts optimal_start_mem otherCalls (.inr small)
  refine ⟨after, otherAfter, returns.reaches, returns.pc, otherReturns.reaches,
    otherReturns.pc, ?_, ?_, ?_, ?_, ?_⟩
  · intro index low high
    have sorted := otherReturns.array index low
    rw [same.rsi, same.rdi] at sorted
    rw [sorted high, returns.array index low high]
  · rw [otherReturns.rsp, returns.rsp, same.rsp]
  · rw [otherReturns.rbx, returns.rbx, same.rbx]
  · rw [otherReturns.rbp, returns.rbp, same.rbp]
  · rw [otherReturns.r12, returns.r12, same.r12]

/-- An array with two right parts of one value. -/
theorem callers_agree :
    ∃ after otherAfter,
      Reaches (caller sortProgram [300, 200, 500, 400]) after ∧
      after.pc = 0x109 ∧
      Reaches (caller optimalProgram [300, 200, 500, 400]) otherAfter ∧
      otherAfter.pc = 0x109 ∧
      SameResult (caller sortProgram [300, 200, 500, 400]) after otherAfter :=
  optimal_agrees (.inl rfl) (caller_calls rfl (by decide) (by decide))
    (caller_calls rfl (by decide) (by decide)) ⟨rfl, rfl, rfl, rfl, rfl, rfl⟩
    (by decide)

/-- Of three values two are greater than the last: the optimised versions sort
them one byte behind their place. -/
theorem callers_differ :
    Calls sortProgram (wordsLongs [200, 300, 100])
        (caller sortProgram [200, 300, 100]) 0x109 ∧
      Calls optimalProgram (wordsLongs [200, 300, 100])
        (caller optimalProgram [200, 300, 100]) 0x109 ∧
      SameCall (caller sortProgram [200, 300, 100])
        (caller optimalProgram [200, 300, 100]) ∧
      ∀ after otherAfter,
        Reaches (caller sortProgram [200, 300, 100]) after →
        after.pc = 0x109 →
        Reaches (caller optimalProgram [200, 300, 100]) otherAfter →
        otherAfter.pc = 0x109 →
        readWord after.memory 0x2000 = 100 ∧
          readWord otherAfter.memory 0x2000 = 356 := by
  have run : (runTo 0x109 145 (caller sortProgram [200, 300, 100])).map
      (fun last => (readWord last.memory 0x2000, (step last).isNone)) =
        some (100, true) := by
    decide +kernel
  have otherRun :
      (runTo 0x109 122 (caller optimalProgram [200, 300, 100])).map
        (fun last => (readWord last.memory 0x2000, (step last).isNone)) =
          some (356, true) := by
    decide +kernel
  obtain ⟨last, ran, result⟩ := Option.map_eq_some_iff.mp run
  obtain ⟨otherLast, otherRan, otherResult⟩ :=
    Option.map_eq_some_iff.mp otherRun
  obtain ⟨value, stops⟩ := Prod.mk.inj result
  obtain ⟨otherValue, otherStops⟩ := Prod.mk.inj otherResult
  refine ⟨caller_calls rfl (by decide) (by decide),
    caller_calls rfl (by decide) (by decide), ⟨rfl, rfl, rfl, rfl, rfl, rfl⟩, ?_⟩
  intro after otherAfter reaches arrived otherReaches otherArrived
  constructor
  · rw [runTo_unique ran (Option.isNone_iff_eq_none.mp stops) reaches arrived]
    exact value
  · rw [runTo_unique otherRan (Option.isNone_iff_eq_none.mp otherStops)
      otherReaches otherArrived]
    exact otherValue

end SystemsLabs.QuickSort
