import SystemsLabs.QuickSort.Frame
import SystemsLabs.QuickSort.Sorted

/-!
# The phases of a call

A program whose pieces do what `Phases` says sorts as the C function does.  The
programs differ in `rightStart`, which is added to the address of the pivot for
the second recursive call.
-/

namespace SystemsLabs.QuickSort

open Y86

/-- The state when the loop is entered for the first time. -/
structure Started (before after : Machine) : Prop where
  memory : after.memory =
    saved before.memory (before .rsp) (before .r12) (before .rbp) (before .rbx)
  rsp : after .rsp = before .rsp - 8 - 8 - 8
  rdi : after .rdi = before .rdi
  rbp : after .rbp = before .rsi
  rcx : after .rcx = before .rsi * 8 - 8 + before .rdi
  r8 : after .r8 = readWord after.memory (after .rcx)
  rax : after .rax = before .rdi
  rbx : after .rbx = before .rdi

/-- The registers have been saved. -/
structure Pushed (before after : Machine) : Prop where
  memory : after.memory =
    saved before.memory (before .rsp) (before .r12) (before .rbp) (before .rbx)
  rsp : after .rsp = before .rsp - 8 - 8 - 8
  rdi : after .rdi = before .rdi
  rsi : after .rsi = before .rsi

/-- The bounds of the array and the pivot are in registers. -/
structure Bounded (before after : Machine) : Prop where
  memory : after.memory = before.memory
  rsp : after .rsp = before .rsp
  rdi : after .rdi = before .rdi
  rcx : after .rcx = before .rsi * 8 - 8 + before .rdi
  r8 : after .r8 = readWord after.memory (after .rcx)
  rax : after .rax = before .rdi
  rbx : after .rbx = before .rdi

theorem Bounded.started {before middle after : Machine}
    (bounded : Bounded middle after) (pushed : Pushed before middle)
    (rbp : after .rbp = before .rsi) : Started before after := by
  obtain ⟨memory, rsp, rdi, rcx, r8, rax, rbx⟩ := bounded
  rw [pushed.memory] at memory
  rw [pushed.rsp] at rsp
  rw [pushed.rdi] at rdi rcx rax rbx
  rw [pushed.rsi] at rcx
  exact ⟨memory, rsp, rdi, rbp, rcx, r8, rax, rbx⟩

/-- The registers that the loop leaves alone. -/
structure LoopKeeps (before after : Machine) : Prop where
  rsp : after .rsp = before .rsp
  rdi : after .rdi = before .rdi
  rbp : after .rbp = before .rbp
  rcx : after .rcx = before .rcx
  r8 : after .r8 = before .r8

theorem LoopKeeps.trans {first second third : Machine}
    (earlier : LoopKeeps first second) (later : LoopKeeps second third) :
    LoopKeeps first third :=
  ⟨later.rsp.trans earlier.rsp, later.rdi.trans earlier.rdi,
    later.rbp.trans earlier.rbp, later.rcx.trans earlier.rcx,
    later.r8.trans earlier.r8⟩

/-- The body of the loop up to `LN4`. -/
structure Compared (before after : Machine) : Prop extends
    LoopKeeps before after where
  rax : after .rax = before .rax
  small : (readWord before.memory (before .rax)).toInt ≤ (before .r8).toInt →
    after .rbx = before .rbx + 8 ∧
      Swapped (before .rax) (before .rbx) before.memory after.memory
  large : (before .r8).toInt < (readWord before.memory (before .rax)).toInt →
    after .rbx = before .rbx ∧ after.memory = before.memory

/-- The end of a round. -/
structure Advanced (before after : Machine) : Prop extends
    LoopKeeps before after where
  rax : after .rax = before .rax + 8
  rbx : after .rbx = before .rbx
  memory : after.memory = before.memory

/-- One round of the loop. -/
structure Round (before after : Machine) : Prop extends
    LoopKeeps before after where
  rax : after .rax = before .rax + 8
  small : (readWord before.memory (before .rax)).toInt ≤ (before .r8).toInt →
    after .rbx = before .rbx + 8 ∧
      Swapped (before .rax) (before .rbx) before.memory after.memory
  large : (before .r8).toInt < (readWord before.memory (before .rax)).toInt →
    after .rbx = before .rbx ∧ after.memory = before.memory

theorem Compared.round {before middle after : Machine}
    (compared : Compared before middle) (advanced : Advanced middle after) :
    Round before after := by
  obtain ⟨kept, rax, rbx, memory⟩ := advanced
  rw [compared.rax] at rax
  refine ⟨compared.toLoopKeeps.trans kept, rax, ?_, ?_⟩
  · intro least
    rw [rbx, memory]
    exact compared.small least
  · intro greater
    rw [rbx, memory]
    exact compared.large greater

/-- The pivot is put in place and the left part is to be sorted. -/
structure LeftCalled (afterLeft : Word) (rest : Word → Word → Word)
    (before after : Machine) : Prop where
  memory : ∃ placed, Swapped (before .rcx) (before .rbx) before.memory placed ∧
    after.memory = writeWord placed (before .rsp - 8) afterLeft
  rsp : after .rsp = before .rsp - 8
  rdi : after .rdi = before .rdi
  rsi : after .rsi = (before .rbx - before .rdi).sdiv 8
  rbx : after .rbx = before .rbx
  rest : rest (after .rbp) (after .r12) = before .rbp - after .rsi

/-- The right part is to be sorted. -/
structure RightCalled (rightStart afterRight : Word)
    (rest : Word → Word → Word) (before after : Machine) : Prop where
  memory : after.memory =
    writeWord before.memory (before .rsp - 8) afterRight
  rsp : after .rsp = before .rsp - 8
  rdi : after .rdi = before .rbx + rightStart
  rsi : after .rsi = rest (before .rbp) (before .r12) - 1

/-- The saved registers are loaded and the call returns. -/
structure Restored (before after : Machine) : Prop where
  memory : after.memory = before.memory
  rbx : after .rbx = readWord before.memory (before .rsp)
  rbp : after .rbp = readWord before.memory (before .rsp + 8)
  r12 : after .r12 = readWord before.memory (before .rsp + 8 + 8)
  pc : after.pc = readWord before.memory (before .rsp + 8 + 8 + 8)
  rsp : after .rsp = before .rsp + 8 + 8 + 8 + 8

/-- A call has returned, with the registers of the caller. -/
structure Finished (before after : Machine) : Prop where
  pc : after.pc = readWord before.memory (before .rsp)
  rsp : after .rsp = before .rsp + 8
  rbx : after .rbx = before .rbx
  rbp : after .rbp = before .rbp
  r12 : after .r12 = before .r12

theorem Restored.finished {before middle after : Machine}
    (restored : Restored middle after) (pushed : Pushed before middle) :
    Finished before after := by
  obtain ⟨_, rbx, rbp, r12, pc, rspAfter⟩ := restored
  obtain ⟨memory, rsp, _, _⟩ := pushed
  rw [memory, rsp] at rbx rbp r12 pc
  rw [rsp] at rspAfter
  rw [sub_add_cancel] at rbp r12 pc rspAfter
  rw [sub_add_cancel] at r12 pc rspAfter
  rw [sub_add_cancel] at pc rspAfter
  rw [saved_rbx] at rbx
  rw [saved_rbp] at rbp
  rw [saved_r12] at r12
  rw [saved_return] at pc
  exact ⟨pc, rspAfter, rbx, rbp, r12⟩

/-- The slots of the three pushes are away from the code. -/
structure FrameClear (program : Program) (rsp : Word) : Prop where
  first : Clear program (rsp - 8)
  second : Clear program (rsp - 8 - 8)
  third : Clear program (rsp - 8 - 8 - 8)

theorem FrameClear.slots {program : Program} {rsp : Word}
    (clear : FrameClear program rsp) :
    ∀ address ∈ [rsp - 8, rsp - 8 - 8, rsp - 8 - 8 - 8],
      Clear program address := by
  simpa using ⟨clear.first, clear.second, clear.third⟩

structure Phases (program : Program) (rightStart : Word) where
  loop : Word
  split : Word
  afterLeft : Word
  afterRight : Word
  /-- The length of the array less that of the left part. -/
  rest : Word → Word → Word
  small : ∀ before : Machine, program.Loaded before.memory →
    before.pc = 0x1000 → (before .rsi).toInt ≤ 1 →
    FrameClear program (before .rsp) →
    ∃ after, Gets program before after ∧ Finished before after ∧
      (after.memory = before.memory ∨ after.memory =
        saved before.memory (before .rsp) (before .r12) (before .rbp)
          (before .rbx))
  start : ∀ before : Machine, program.Loaded before.memory →
    before.pc = 0x1000 → 1 < (before .rsi).toInt →
    (before .rdi).toInt ≤ (before .rsi * 8 - 8 + before .rdi).toInt →
    FrameClear program (before .rsp) →
    ∃ after, Gets program before after ∧ after.pc = loop ∧
      Started before after
  round : ∀ before : Machine, program.Loaded before.memory →
    before.pc = loop →
    Apart (before .rax) (before .rbx) →
    Clear program (before .rax) → Clear program (before .rbx) →
    ∃ after, Gets program before after ∧ Round before after ∧
      after.pc = if (before .rcx).toInt ≤ (before .rax + 8).toInt then split
        else loop
  left : ∀ before : Machine, program.Loaded before.memory →
    before.pc = split →
    Apart (before .rcx) (before .rbx) →
    Clear program (before .rcx) → Clear program (before .rbx) →
    Clear program (before .rsp - 8) →
    ∃ after, Gets program before after ∧ after.pc = 0x1000 ∧
      LeftCalled afterLeft rest before after
  right : ∀ before : Machine, program.Loaded before.memory →
    before.pc = afterLeft → Clear program (before .rsp - 8) →
    ∃ after, Gets program before after ∧ after.pc = 0x1000 ∧
      RightCalled rightStart afterRight rest before after
  finish : ∀ before : Machine, program.Loaded before.memory →
    before.pc = afterRight →
    ∃ after, Gets program before after ∧ Restored before after

end SystemsLabs.QuickSort
