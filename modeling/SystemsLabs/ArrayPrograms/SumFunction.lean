import SystemsLabs.Library.Y86.Loads

/-!
# The sum of `sum_64.ys`

The loop tests at its end whether the pointer has come to the label `end`, so
there is at least one round.
-/

namespace SystemsLabs.ArrayPrograms

open Y86

/-- The label `start` of `sum_64.ys`, behind the code. -/
def start : Word := 0x140

inductive SumLabel where
  | sumFunction | l2
  deriving DecidableEq

/-- `lab2/sum_64.ys`; `finish` is the label `end`. -/
def sum64 (finish : Word) : Listing SumLabel :=
  [(.sumFunction, [
      .irmovq (.word start) .rdx,
      .opq .xor .rax .rax]),
    (.l2, [
      .mrmovq .rdx 0 .rbx,
      .opq .add .rbx .rax,
      .irmovq (.word 8) .rbx,
      .opq .add .rbx .rdx,
      .irmovq (.word finish) .rbx,
      .opq .sub .rdx .rbx,
      .jump .ne (.address .l2),
      .ret])]

def sum64Program (finish : Word) : Program := (sum64 finish).assemble 0x100

/-- The code is that of `sum_64.mem`, which has six words of data. -/
example : (sum64Program 0x170).code.flatMap encode =
    [0x30, 0xf2, 0x40, 0x01, 0, 0, 0, 0, 0, 0, 0x63, 0x00, 0x50, 0x32, 0, 0, 0,
      0, 0, 0, 0, 0, 0x60, 0x30, 0x30, 0xf3, 0x08, 0, 0, 0, 0, 0, 0, 0, 0x60,
      0x32, 0x30, 0xf3, 0x70, 0x01, 0, 0, 0, 0, 0, 0, 0x61, 0x23, 0x74, 0x0c,
      0x01, 0, 0, 0, 0, 0, 0, 0x90] := by
  decide +kernel

/-- The registers that the code does not use. -/
def sumSaved (machine : Machine) : List Word :=
  [machine .rcx, machine .rbp, machine .rsi, machine .rdi, machine .r8,
    machine .r9, machine .r10, machine .r11, machine .r12, machine .r13,
    machine .r14]

section Pieces

variable {before : Machine} {finish : Word}

theorem sum64_start (loaded : (sum64Program finish).Loaded before.memory)
    (atStart : before.pc = 0x100) :
    ∃ after, GetsLoading (sum64Program finish) before [] after ∧
      after.memory = before.memory ∧ sumSaved after = sumSaved before ∧
      after .rsp = before .rsp ∧ after .rdx = start ∧ after .rax = 0 ∧
      after.pc = 0x10C := by
  obtain ⟨register, flags, memory, _⟩ := before
  subst atStart
  have zero : register .rax ^^^ register .rax = 0 := BitVec.xor_self
  exact ⟨_, loaded.runsLoading 2 [] [] 0x10C rfl rfl (by simp) rfl, rfl, rfl,
    rfl, rfl, zero, rfl⟩

theorem sum64_add (loaded : (sum64Program finish).Loaded before.memory)
    (atLoop : before.pc = 0x10C) :
    ∃ after, GetsLoading (sum64Program finish) before [before .rdx] after ∧
      after.memory = before.memory ∧ sumSaved after = sumSaved before ∧
      after .rsp = before .rsp ∧ after .rdx = before .rdx ∧
      after .rax = before .rax + readWord before.memory (before .rdx) ∧
      after.pc = 0x118 := by
  obtain ⟨register, flags, memory, _⟩ := before
  subst atLoop
  have place : register .rdx + 0 = register .rdx := BitVec.add_zero _
  have loads := congrArg (fun place => some [place]) place
  have sum := congrArg (fun place => register .rax + readWord memory place) place
  exact ⟨_, loaded.runsLoading 2 [] [register .rdx] 0x118 rfl loads (by simp)
    rfl, rfl, rfl, rfl, rfl, sum, rfl⟩

theorem sum64_advance (loaded : (sum64Program finish).Loaded before.memory)
    (added : before.pc = 0x118) :
    ∃ after, GetsLoading (sum64Program finish) before [] after ∧
      after.memory = before.memory ∧ sumSaved after = sumSaved before ∧
      after .rsp = before .rsp ∧ after .rdx = before .rdx + 8 ∧
      after .rax = before .rax ∧
      after.flags.zero = (finish - (before .rdx + 8) == 0) ∧
      after.pc = 0x130 := by
  obtain ⟨register, flags, memory, _⟩ := before
  subst added
  have moved := loaded.runsLoading 2 [] [] 0x124 rfl rfl (by simp) rfl
  have compared := moved.2.runsLoading 2 [] [] 0x130 rfl rfl (by simp) rfl
  exact ⟨_, moved.append compared, rfl, rfl, rfl, rfl, rfl, rfl, rfl⟩

theorem sum64_round (loaded : (sum64Program finish).Loaded before.memory)
    (atLoop : before.pc = 0x10C) :
    ∃ after, GetsLoading (sum64Program finish) before [before .rdx] after ∧
      after.memory = before.memory ∧ sumSaved after = sumSaved before ∧
      after .rsp = before .rsp ∧ after .rdx = before .rdx + 8 ∧
      after .rax = before .rax + readWord before.memory (before .rdx) ∧
      after.flags.zero = (finish - (before .rdx + 8) == 0) ∧
      after.pc = 0x130 := by
  obtain ⟨added, adds, memory₁, saved₁, rsp₁, rdx₁, rax₁, pc₁⟩ :=
    sum64_add loaded atLoop
  obtain ⟨after, moves, memory₂, saved₂, rsp₂, rdx₂, rax₂, zero, pc₂⟩ :=
    sum64_advance adds.2 pc₁
  rw [rdx₁] at rdx₂ zero
  exact ⟨after, adds.append moves, memory₂.trans memory₁, saved₂.trans saved₁,
    rsp₂.trans rsp₁, rdx₂, rax₂.trans rax₁, zero, pc₂⟩

theorem sum64_again (loaded : (sum64Program finish).Loaded before.memory)
    (atTest : before.pc = 0x130) (more : before.flags.zero = false) :
    ∃ after, GetsLoading (sum64Program finish) before [] after ∧
      after.memory = before.memory ∧ after.register = before.register ∧
      after.pc = 0x10C := by
  obtain ⟨register, flags, memory, _⟩ := before
  subst atTest
  have taken : Condition.ne.holds flags = true := by
    rw [Condition.holds, more]
    rfl
  exact ⟨_, loaded.runsLoading 1 [] [] 0x10C rfl rfl (by simp) (if_pos taken),
    rfl, rfl, rfl⟩

theorem sum64_return (loaded : (sum64Program finish).Loaded before.memory)
    (atTest : before.pc = 0x130) (last : before.flags.zero = true) :
    ∃ after, GetsLoading (sum64Program finish) before [before .rsp] after ∧
      after.memory = before.memory ∧ sumSaved after = sumSaved before ∧
      after .rsp = before .rsp + 8 ∧ after .rax = before .rax ∧
      after.pc = readWord before.memory (before .rsp) := by
  obtain ⟨register, flags, memory, _⟩ := before
  subst atTest
  have falls : Condition.ne.holds flags = false := by
    rw [Condition.holds, last]
    rfl
  have fallen := loaded.runsLoading 1 [] [] 0x139 rfl rfl (by simp)
    (if_neg (Bool.eq_false_iff.mp falls))
  have returned := fallen.2.runsLoading 1 [] [register .rsp]
    (readWord memory (register .rsp)) rfl rfl (by simp) rfl
  exact ⟨_, fallen.append returned, rfl, rfl, rfl, rfl, rfl⟩

end Pieces

/-- The label `end` behind `count` words of data. -/
def finish (count : Nat) : Word := cellAt start count

/-- The pointer comes to `end` after the last word only. -/
theorem finish_sub_eq_zero {first count : Nat} (small : count < 2 ^ 61) :
    (finish (first + count) - cellAt start first == 0) = (count == 0) := by
  have distance : finish (first + count) - cellAt start first =
      BitVec.ofNat 64 (8 * count) := by
    rw [finish, cellAt, cellAt, Nat.mul_add, BitVec.ofNat_add]
    ring
  have value : (BitVec.ofNat 64 (8 * count)).toNat = 8 * count := by
    rw [BitVec.toNat_ofNat, Nat.mod_eq_of_lt (by omega)]
  rw [distance, Bool.eq_iff_iff, beq_iff_eq, beq_iff_eq]
  constructor
  · intro same
    rw [same] at value
    change 0 = 8 * count at value
    omega
  · rintro rfl
    rfl

/-- The loop adds the words that are left; `first` have been added. -/
theorem sum64_loop {total count : Nat} (small : total ≤ 2 ^ 61) :
    ∀ {first : Nat} {before : Machine}, first + 1 + count = total →
      (sum64Program (finish total)).Loaded before.memory →
      before.pc = 0x10C → before .rdx = cellAt start first →
      ∃ after, GetsLoading (sum64Program (finish total)) before
          (cellPlaces start first (count + 1) ++ [before .rsp]) after ∧
        after.memory = before.memory ∧ sumSaved after = sumSaved before ∧
        after .rsp = before .rsp + 8 ∧
        after .rax = ((cellPlaces start first (count + 1)).map
          (readWord before.memory)).foldl (· + ·) (before .rax) ∧
        after.pc = readWord before.memory (before .rsp) := by
  induction count with
  | zero =>
      intro first before split loaded pc rdx
      obtain ⟨added, adds, memory₁, saved₁, rsp₁, _, rax₁, zero, pc₁⟩ :=
        sum64_round loaded pc
      rw [rdx, ← cellAt_succ, ← split,
        finish_sub_eq_zero (show 0 < 2 ^ 61 by decide)] at zero
      obtain ⟨after, returns, memory₂, saved₂, rsp₂, rax₂, pc₂⟩ :=
        sum64_return adds.2 pc₁ zero
      rw [rsp₁] at returns rsp₂ pc₂
      rw [memory₁] at memory₂ pc₂
      rw [rdx] at adds rax₁
      exact ⟨after, adds.append returns, memory₂, saved₂.trans saved₁, rsp₂,
        rax₂.trans rax₁, pc₂⟩
  | succ count ih =>
      intro first before split loaded pc rdx
      obtain ⟨added, adds, memory₁, saved₁, rsp₁, rdx₁, rax₁, zero, pc₁⟩ :=
        sum64_round loaded pc
      rw [rdx, ← cellAt_succ, ← split,
        finish_sub_eq_zero (show count + 1 < 2 ^ 61 by omega)] at zero
      obtain ⟨again, jumps, memory₂, register, pc₂⟩ :=
        sum64_again adds.2 pc₁ zero
      have memory := memory₂.trans memory₁
      have next : again .rdx = cellAt start (first + 1) := by
        rw [register, rdx₁, rdx, cellAt_succ]
      obtain ⟨after, rest, memory₃, saved₃, rsp₃, rax₃, pc₃⟩ :=
        ih (by omega) jumps.2 pc₂ next
      have saved : sumSaved again = sumSaved before := by
        rw [← saved₁, sumSaved, register]
        rfl
      rw [register, rsp₁] at rest rsp₃ pc₃
      rw [memory] at memory₃ rax₃ pc₃
      rw [rdx] at adds rax₁
      refine ⟨after, ?_, memory₃, saved₃.trans saved, rsp₃, ?_, pc₃⟩
      · rw [cellPlaces_succ, List.append_assoc]
        exact (adds.append jumps).append rest
      · rw [rax₃, register, rax₁, cellPlaces_succ, List.map_append,
          List.foldl_append]
        rfl

/-- What a call of `sum_function` has done. -/
structure AddsWords (count : Nat) (before after : Machine) : Prop where
  loads : Loads before (cellPlaces start 0 count ++ [before .rsp]) after
  memory : after.memory = before.memory
  rax : after .rax = (words before.memory start count).foldl (· + ·) 0
  rsp : after .rsp = before .rsp + 8
  pc : after.pc = readWord before.memory (before .rsp)
  saved : sumSaved after = sumSaved before

/-- `sum_function` returns the sum of any positive number of words. -/
theorem sumFunction_adds {count : Nat} (positive : 1 ≤ count)
    (small : count ≤ 2 ^ 61) {before : Machine}
    (loaded : (sum64Program (finish count)).Loaded before.memory)
    (atStart : before.pc = 0x100) :
    ∃ after, AddsWords count before after := by
  obtain ⟨rest, rfl⟩ := Nat.exists_eq_add_of_le' positive
  obtain ⟨entered, enters, memory, saved, rsp, rdx, rax, pc⟩ :=
    sum64_start loaded atStart
  obtain ⟨after, loops, memory₁, saved₁, rsp₁, rax₁, pc₁⟩ :=
    sum64_loop small ((Nat.zero_add 1).symm ▸ Nat.add_comm 1 rest) enters.2 pc
      (rdx.trans (cellAt_zero _).symm)
  have runs := enters.append loops
  rw [rsp] at runs rsp₁ pc₁
  rw [memory] at memory₁ rax₁ pc₁
  rw [rax, map_cellPlaces] at rax₁
  exact ⟨after, runs.1, memory₁, rax₁, rsp₁, pc₁, saved₁.trans saved⟩

/-- The data of `sum_64.ys`. -/
def sumData : List Word :=
  [0x123456789ABC, 0x1111111111111, 0xFF, 0x2468A, 0xBA, 0x10101010F0F0F0F0]

/-- The machine at the start of the code. -/
def sumMachine : Machine where
  register _ := 0
  flags := { zero := false, sign := false, overflow := false }
  memory := (sum64Program (finish 6)).load (sumData.zipIdx.foldl
    (fun memory (word, index) => writeWord memory (cellAt 0x140 index) word)
    fun _ => 0)
  pc := 0x100

theorem sumMachine_adds :
    ∃ after, AddsWords 6 sumMachine after ∧ after .rax = 0x10113356587CE500 := by
  have loaded : (sum64Program (finish 6)).Loaded sumMachine.memory :=
    Program.Loaded.of_load (by decide) _
  obtain ⟨after, adds⟩ := sumFunction_adds (show 1 ≤ 6 by decide) (by decide)
    loaded rfl
  refine ⟨after, adds, adds.rax.trans ?_⟩
  decide +kernel

end SystemsLabs.ArrayPrograms
