import SystemsLabs.QuickSort.Listing
import SystemsLabs.QuickSort.Caller

/-!
# `sort.ys` refines `sort.c`

The pieces of the listing between two labels, jumps or calls are run one by one.
-/

namespace SystemsLabs.QuickSort

open Y86

def sortProgram : Program := sort.assemble 0x1000

section Pieces

variable {before : Machine}

/-- The pushes and the test for a short array. -/
theorem sort_push (loaded : sortProgram.Loaded before.memory)
    (atEntry : before.pc = 0x1000)
    (clear : FrameClear sortProgram (before .rsp)) :
    ∃ after, Gets sortProgram before after ∧ Pushed before after ∧
      after .rbp = before .rsi ∧
      after.pc = if (before .rsi).toInt ≤ 1 then 0x1122 else 0x101D := by
  obtain ⟨register, flags, memory, _⟩ := before
  subst atEntry
  have slots := clear.slots
  have ge := sub_holds_ge (register .rsi) 1
  by_cases short : (register .rsi).toInt ≤ 1
  · have taken := ge.trans (decide_eq_true short)
    exact ⟨_, loaded.runs 7 _ 0x1122 rfl slots (if_pos taken),
      ⟨rfl, rfl, rfl, rfl⟩, rfl, (if_pos short).symm⟩
  · have falls := ge.trans (decide_eq_false short)
    exact ⟨_, loaded.runs 7 _ 0x101D rfl slots
      (if_neg (Bool.eq_false_iff.mp falls)), ⟨rfl, rfl, rfl, rfl⟩, rfl,
      (if_neg short).symm⟩

/-- The end of a call, from the first `popq` on. -/
theorem sort_restore (loaded : sortProgram.Loaded before.memory)
    (atEnd : before.pc = 0x1122) :
    ∃ after, Gets sortProgram before after ∧ Restored before after := by
  obtain ⟨register, flags, memory, _⟩ := before
  subst atEnd
  exact ⟨_, loaded.runs 4 [] _ rfl (by simp) rfl, rfl, rfl, rfl, rfl, rfl, rfl⟩

theorem sort_bounds (loaded : sortProgram.Loaded before.memory)
    (atBounds : before.pc = 0x101D)
    (order : (before .rdi).toInt ≤
      (before .rsi * 8 - 8 + before .rdi).toInt) :
    ∃ after, Gets sortProgram before after ∧ Bounded before after ∧
      after .rbp = before .rbp ∧ after.pc = 0x10BF := by
  obtain ⟨register, flags, memory, _⟩ := before
  subst atBounds
  have taken := (sub_holds_le (register .rsi * 8 - 8 + register .rdi)
    (register .rdi)).trans (decide_eq_true order)
  have bounds := loaded.runs 9 [] 0x10BB rfl (by simp) (if_pos taken)
  have pointers := bounds.2.runs 2 [] 0x10BF rfl (by simp) rfl
  refine ⟨_, bounds.trans pointers, ⟨rfl, rfl, rfl, rfl, ?_, rfl, rfl⟩, rfl,
    rfl⟩
  exact congrArg (readWord memory) (BitVec.add_zero _)

/-- From `LN5` to `LN4`. -/
theorem sort_compare (loaded : sortProgram.Loaded before.memory)
    (atLoop : before.pc = 0x10BF)
    (apart : Apart (before .rax) (before .rbx))
    (clearRax : Clear sortProgram (before .rax))
    (clearRbx : Clear sortProgram (before .rbx)) :
    ∃ after, Gets sortProgram before after ∧ Compared before after ∧
      after.pc = 0x1100 := by
  obtain ⟨register, flags, memory, _⟩ := before
  subst atLoop
  have zero : ∀ place : Word, place + 0 = place := BitVec.add_zero
  have less := sub_holds_l (readWord memory (register .rax)) (register .r8)
  rw [← zero (register .rax)] at less
  by_cases large : (register .r8).toInt <
      (readWord memory (register .rax + 0)).toInt
  · have taken := less.trans (decide_eq_true large)
    rw [zero] at large
    exact ⟨_, loaded.runs 4 [] 0x1100 rfl (by simp) (if_pos taken),
      ⟨⟨rfl, rfl, rfl, rfl, rfl⟩, rfl, fun small =>
        (Int.not_le.mpr large small).elim, fun _ => ⟨rfl, rfl⟩⟩, rfl⟩
  · have falls := less.trans (decide_eq_false large)
    rw [zero] at large
    have compared := loaded.runs 4 [] 0x10D6 rfl (by simp)
      (if_neg (Bool.eq_false_iff.mp falls))
    have slots : ∀ address ∈ [register .rax + 0, register .rbx + 0],
        Clear sortProgram address := by
      rw [zero, zero]
      simpa using ⟨clearRax, clearRbx⟩
    have moved := compared.2.runs 5 _ 0x1100 rfl slots rfl
    refine ⟨_, compared.trans moved, ⟨⟨rfl, rfl, rfl, rfl, rfl⟩, rfl,
      fun _ => ⟨rfl, ?_⟩, fun greater => (large greater).elim⟩, rfl⟩
    change Swapped (register .rax) (register .rbx) memory
      (writeWord (writeWord memory (register .rax + 0)
        (readWord memory (register .rbx + 0))) (register .rbx + 0)
        (readWord memory (register .rax + 0)))
    rw [zero, zero]
    exact swapped_writes memory apart

/-- The test of the loop, from `LN4` on. -/
theorem sort_next (loaded : sortProgram.Loaded before.memory)
    (atNext : before.pc = 0x1100) :
    ∃ after, Gets sortProgram before after ∧ Advanced before after ∧
      after.pc = if (before .rcx).toInt ≤ (before .rax + 8).toInt then 0x1048
        else 0x10BF := by
  obtain ⟨register, flags, memory, _⟩ := before
  subst atNext
  have le := sub_holds_le (register .rax + 8) (register .rcx)
  by_cases last : (register .rcx).toInt ≤ (register .rax + 8).toInt
  · have taken := le.trans (decide_eq_true last)
    exact ⟨_, loaded.runs 5 [] 0x1048 rfl (by simp) (if_pos taken),
      ⟨⟨rfl, rfl, rfl, rfl, rfl⟩, rfl, rfl, rfl⟩, (if_pos last).symm⟩
  · have falls := le.trans (decide_eq_false last)
    have tested := loaded.runs 5 [] 0x1119 rfl (by simp)
      (if_neg (Bool.eq_false_iff.mp falls))
    have jumped := tested.2.runs 1 [] 0x10BF rfl (by simp) rfl
    exact ⟨_, tested.trans jumped, ⟨⟨rfl, rfl, rfl, rfl, rfl⟩, rfl, rfl, rfl⟩,
      (if_neg last).symm⟩

/-- The pivot is put in place, from `LN3` on. -/
theorem sort_left (loaded : sortProgram.Loaded before.memory)
    (atSplit : before.pc = 0x1048)
    (apart : Apart (before .rcx) (before .rbx))
    (clearRcx : Clear sortProgram (before .rcx))
    (clearRbx : Clear sortProgram (before .rbx))
    (clearSlot : Clear sortProgram (before .rsp - 8)) :
    ∃ after, Gets sortProgram before after ∧ after.pc = 0x1000 ∧
      LeftCalled 0x108B (fun rbp r12 => rbp - r12) before after := by
  obtain ⟨register, flags, memory, _⟩ := before
  subst atSplit
  have zero : ∀ place : Word, place + 0 = place := BitVec.add_zero
  have slots : ∀ address ∈ [register .rcx + 0, register .rbx + 0,
      register .rsp - 8], Clear sortProgram address := by
    rw [zero, zero]
    simpa using ⟨clearRcx, clearRbx, clearSlot⟩
  have called := loaded.runs 10 [register .rcx + 0, register .rbx + 0,
    register .rsp - 8] 0x1000 rfl slots rfl
  refine ⟨_, called, rfl, ⟨_, ?_, rfl⟩, rfl, rfl, rfl, rfl, rfl⟩
  change Swapped (register .rcx) (register .rbx) memory
    (writeWord (writeWord memory (register .rcx + 0)
      (readWord memory (register .rbx + 0))) (register .rbx + 0)
      (readWord memory (register .rcx + 0)))
  rw [zero, zero]
  exact swapped_writes memory apart

theorem sort_right (loaded : sortProgram.Loaded before.memory)
    (atRight : before.pc = 0x108B)
    (clearSlot : Clear sortProgram (before .rsp - 8)) :
    ∃ after, Gets sortProgram before after ∧ after.pc = 0x1000 ∧
      RightCalled 8 0x10B2 (fun rbp r12 => rbp - r12) before after := by
  obtain ⟨register, flags, memory, _⟩ := before
  subst atRight
  have called := loaded.runs 8 [register .rsp - 8] 0x1000 rfl
    (by simpa using clearSlot) rfl
  exact ⟨_, called, rfl, rfl, rfl, rfl, rfl⟩

theorem sort_finish (loaded : sortProgram.Loaded before.memory)
    (atFinish : before.pc = 0x10B2) :
    ∃ after, Gets sortProgram before after ∧ Restored before after := by
  obtain ⟨register, flags, memory, _⟩ := before
  subst atFinish
  have jumped := loaded.runs 1 [] 0x1122 rfl (by simp) rfl
  obtain ⟨after, gets, restored⟩ := sort_restore jumped.2 rfl
  exact ⟨after, jumped.trans gets, restored.memory, restored.rbx, restored.rbp,
    restored.r12, restored.pc, restored.rsp⟩

end Pieces

/-- The listing does what the simulation asks for. -/
def sortPhases : Phases sortProgram 8 where
  loop := 0x10BF
  split := 0x1048
  afterLeft := 0x108B
  afterRight := 0x10B2
  rest rbp r12 := rbp - r12
  small before loaded atEntry short clear := by
    obtain ⟨middle, pushes, pushed, _, pc⟩ := sort_push loaded atEntry clear
    rw [if_pos short] at pc
    obtain ⟨after, restores, restored⟩ := sort_restore pushes.2 pc
    exact ⟨after, pushes.trans restores, restored.finished pushed,
      .inr (restored.memory.trans pushed.memory)⟩
  start before loaded atEntry long order clear := by
    obtain ⟨middle, pushes, pushed, rbp, pc⟩ := sort_push loaded atEntry clear
    rw [if_neg (Int.not_le.mpr long)] at pc
    rw [← pushed.rdi, ← pushed.rsi] at order
    obtain ⟨after, bounds, bounded, rbp', atLoop⟩ :=
      sort_bounds pushes.2 pc order
    exact ⟨after, pushes.trans bounds, atLoop,
      bounded.started pushed (rbp'.trans rbp)⟩
  round before loaded atLoop apart clearRax clearRbx := by
    obtain ⟨middle, compares, compared, atNext⟩ :=
      sort_compare loaded atLoop apart clearRax clearRbx
    obtain ⟨after, tests, advanced, pc⟩ := sort_next compares.2 atNext
    rw [compared.rcx, compared.rax] at pc
    exact ⟨after, compares.trans tests, compared.round advanced, pc⟩
  left before loaded atSplit apart clearRcx clearRbx clearSlot :=
    sort_left loaded atSplit apart clearRcx clearRbx clearSlot
  right before loaded atRight clearSlot := sort_right loaded atRight clearSlot
  finish before loaded atFinish := sort_finish loaded atFinish

theorem sort_start_mem : sortProgram.start ∈ sortProgram.region := by
  change (0x1000#64 - 0x1000#64).toNat < sortProgram.size
  decide

/-- A call of the `quickSort` of `sort.ys` returns, and the array is as the call
of the C function leaves it. -/
theorem sort_refines {longs : Longs} {before : Machine} {next : Word}
    (calls : Calls sortProgram longs before next) :
    ∃ after, Returns longs (quickSort 0 (before .rsi).toInt longs) next before
      after :=
  sortPhases.sorts sort_start_mem calls (.inl rfl)

theorem caller_refines :
    Calls sortProgram (wordsLongs [200, 300, 100])
        (caller sortProgram [200, 300, 100]) 0x109 ∧
      ∃ after, Returns (wordsLongs [200, 300, 100])
        (quickSort 0 (caller sortProgram [200, 300, 100] .rsi).toInt
          (wordsLongs [200, 300, 100])) 0x109
        (caller sortProgram [200, 300, 100]) after := by
  have calls : Calls sortProgram (wordsLongs [200, 300, 100])
      (caller sortProgram [200, 300, 100]) 0x109 :=
    caller_calls rfl (by decide) (by decide)
  exact ⟨calls, sort_refines calls⟩

end SystemsLabs.QuickSort
