import SystemsLabs.Library.Y86.Cells
import SystemsLabs.Assembly.Listing
import SystemsLabs.Assembly.Process

/-!
# `collatz` counts the steps of the process

`%rdi` holds the value of the process and `%rsi` the number of steps taken.
The arithmetic wraps at 64 bits and is exact while the values fit.
-/

namespace SystemsLabs.Assembly

open X86
open Y86 (Word readWord)

section Pieces

variable {before : Machine}

theorem collatz_start (atStart : before.place = .inside 0) :
    ∃ after, Runs collatz before [] after ∧ after.memory = before.memory ∧
      after .rsp = before .rsp ∧ after .rdi = before .rdi ∧ after .rsi = 0 ∧
      after.place = .inside (if before .rdi = 1 then 15 else 3) := by
  obtain ⟨register, flags, memory, _⟩ := before
  subst atStart
  exact ⟨_, .of_run 3 _ rfl (branch (sub_holds_e 1 (register .rdi)) 15 3), rfl,
    rfl, rfl, BitVec.xor_self, rfl⟩

theorem collatz_test (atLoop : before.place = .inside 3) :
    ∃ after, Runs collatz before [] after ∧ after.memory = before.memory ∧
      after .rsp = before .rsp ∧ after .rdi = before .rdi ∧
      after .rsi = before .rsi ∧
      after.place = .inside (if before .rdi = 1 then 17 else 5) := by
  obtain ⟨register, flags, memory, _⟩ := before
  subst atLoop
  exact ⟨_, .of_run 2 _ rfl (branch (sub_holds_e 1 (register .rdi)) 17 5), rfl,
    rfl, rfl, rfl, rfl⟩

theorem collatz_parity (atParity : before.place = .inside 5) :
    ∃ after, Runs collatz before [] after ∧ after.memory = before.memory ∧
      after .rsp = before .rsp ∧ after .rdi = before .rdi ∧
      after .rsi = before .rsi ∧
      after.place = .inside (if (before .rdi).toNat % 2 = 0 then 8 else 11) := by
  obtain ⟨register, flags, memory, _⟩ := before
  subst atParity
  have jump := branch (and_one_holds_e (register .rdi)) 8 7
  by_cases even : (register .rdi).toNat % 2 = 0
  · rw [if_pos even] at jump
    exact ⟨_, .of_run 2 _ rfl jump, rfl, rfl, rfl, rfl,
      congrArg Place.inside (if_pos even).symm⟩
  · rw [if_neg even] at jump
    have tested : Runs collatz ⟨register, flags, memory, .inside 5⟩ [] _ :=
      .of_run 2 _ rfl jump
    exact ⟨_, tested.trans (.of_run 1 _ rfl rfl), rfl, rfl, rfl, rfl,
      congrArg Place.inside (if_neg even).symm⟩

theorem collatz_even (atEven : before.place = .inside 8) :
    ∃ after, Runs collatz before [] after ∧ after.memory = before.memory ∧
      after .rsp = before .rsp ∧ after .rdi = before .rdi >>> 1 ∧
      after .rsi = before .rsi + 1 ∧ after.place = .inside 3 := by
  obtain ⟨register, flags, memory, _⟩ := before
  subst atEven
  exact ⟨_, .of_run 3 _ rfl rfl, rfl, rfl, rfl, rfl, rfl⟩

theorem collatz_odd (atOdd : before.place = .inside 11) :
    ∃ after, Runs collatz before [] after ∧ after.memory = before.memory ∧
      after .rsp = before .rsp ∧ after .rdi = before .rdi * 3 + 1 ∧
      after .rsi = before .rsi + 1 ∧ after.place = .inside 3 := by
  obtain ⟨register, flags, memory, _⟩ := before
  subst atOdd
  exact ⟨_, .of_run 4 _ rfl rfl, rfl, rfl, rfl, rfl, rfl⟩

theorem collatz_zero (atZero : before.place = .inside 15) :
    ∃ after, Runs collatz before [] after ∧ after.memory = before.memory ∧
      after .rsp = before .rsp ∧ after .rsi = before .rsi ∧
      after.place = .inside 17 := by
  obtain ⟨register, flags, memory, _⟩ := before
  subst atZero
  exact ⟨_, .of_run 2 _ rfl rfl, rfl, rfl, rfl, rfl⟩

theorem collatz_return (atDone : before.place = .inside 17) :
    ∃ after, Runs collatz before [before .rsp] after ∧
      after.memory = before.memory ∧ after .rsp = before .rsp + 8 ∧
      after .rax = before .rsi ∧
      after.place = .outside (readWord before.memory (before .rsp)) := by
  obtain ⟨register, flags, memory, _⟩ := before
  subst atDone
  exact ⟨_, .of_run 2 _ rfl rfl, rfl, rfl, rfl, rfl⟩

end Pieces

/-- At `.Lloop`, with a value of the process and the number of steps. -/
structure AtLoop (value count : Nat) (machine : Machine) : Prop where
  place : machine.place = .inside 3
  rdi : machine .rdi = BitVec.ofNat 64 value
  rsi : machine .rsi = BitVec.ofNat 64 count

theorem ofNat_half {value : Nat} (fits : value < 2 ^ 64) :
    (BitVec.ofNat 64 value) >>> 1 = BitVec.ofNat 64 (value / 2) := by
  apply BitVec.eq_of_toNat_eq
  rw [BitVec.toNat_ushiftRight, BitVec.toNat_ofNat, BitVec.toNat_ofNat,
    Nat.mod_eq_of_lt fits,
    Nat.mod_eq_of_lt (Nat.lt_of_le_of_lt (Nat.div_le_self value 2) fits)]
  rfl

theorem ofNat_odd (value : Nat) :
    BitVec.ofNat 64 value * 3 + 1 = BitVec.ofNat 64 (3 * value + 1) := by
  rw [BitVec.ofNat_add, BitVec.ofNat_mul, BitVec.mul_comm]
  rfl

/-- The comparison with 1 tells the end of the process. -/
theorem ofNat_eq_one {value : Nat} (fits : value < 2 ^ 64) :
    BitVec.ofNat 64 value = 1 ↔ value = 1 := by
  constructor
  · intro same
    have numbers := congrArg BitVec.toNat same
    rwa [BitVec.toNat_ofNat, Nat.mod_eq_of_lt fits] at numbers
  · rintro rfl
    rfl

/-- One round of the loop is one step of the process. -/
theorem AtLoop.round {value count : Nat} {before : Machine}
    (state : AtLoop value count before) (fits : value < 2 ^ 64)
    (unfinished : value ≠ 1) :
    ∃ after, Runs collatz before [] after ∧ after.memory = before.memory ∧
      after .rsp = before .rsp ∧
      AtLoop (collatzNext value) (count + 1) after := by
  obtain ⟨tested, tests, memory₁, rsp₁, rdi₁, rsi₁, place₁⟩ :=
    collatz_test state.place
  have onward : before .rdi ≠ 1 := by
    rw [state.rdi]
    exact mt (ofNat_eq_one fits).mp unfinished
  rw [if_neg onward] at place₁
  obtain ⟨split, splits, memory₂, rsp₂, rdi₂, rsi₂, place₂⟩ :=
    collatz_parity place₁
  have rdi := (rdi₂.trans rdi₁).trans state.rdi
  have rsi := (rsi₂.trans rsi₁).trans state.rsi
  have memory := memory₂.trans memory₁
  have rsp := rsp₂.trans rsp₁
  rw [rdi₁, state.rdi, BitVec.toNat_ofNat, Nat.mod_eq_of_lt fits] at place₂
  by_cases even : value % 2 = 0
  · rw [if_pos even] at place₂
    obtain ⟨after, halves, memory₃, rsp₃, rdi₃, rsi₃, place₃⟩ :=
      collatz_even place₂
    refine ⟨after, (tests.trans splits).trans halves, memory₃.trans memory,
      rsp₃.trans rsp, place₃, ?_, ?_⟩
    · rw [rdi₃, rdi, ofNat_half fits, collatzNext, if_pos even]
    · rw [rsi₃, rsi, BitVec.ofNat_add]
      rfl
  · rw [if_neg even] at place₂
    obtain ⟨after, grows, memory₃, rsp₃, rdi₃, rsi₃, place₃⟩ :=
      collatz_odd place₂
    refine ⟨after, (tests.trans splits).trans grows, memory₃.trans memory,
      rsp₃.trans rsp, place₃, ?_, ?_⟩
    · rw [rdi₃, rdi, ofNat_odd, collatzNext, if_neg even]
    · rw [rsi₃, rsi, BitVec.ofNat_add]
      rfl

theorem collatz_loop {steps : Nat} :
    ∀ {start count : Nat} {before : Machine}, ReachesOne start steps →
      AtLoop start count before →
      ∃ after, Runs collatz before [] after ∧ after.memory = before.memory ∧
        after .rsp = before .rsp ∧
        after .rsi = BitVec.ofNat 64 (count + steps) ∧
        after.place = .inside 17 := by
  induction steps with
  | zero =>
      intro start count before reaches state
      obtain ⟨after, tests, memory, rsp, _, rsi, place⟩ :=
        collatz_test state.place
      have last : before .rdi = 1 := by
        rw [state.rdi]
        exact (ofNat_eq_one (reaches.fits 0 (Nat.le_refl 0))).mpr reaches.last
      rw [if_pos last] at place
      exact ⟨after, tests, memory, rsp, rsi.trans state.rsi, place⟩
  | succ steps ih =>
      intro start count before reaches state
      obtain ⟨unfinished, rest⟩ := reaches.tail
      obtain ⟨middle, first, memory₁, rsp₁, next⟩ :=
        state.round (reaches.fits 0 (Nat.zero_le _)) unfinished
      obtain ⟨after, others, memory₂, rsp₂, rsi, place⟩ := ih rest next
      refine ⟨after, first.trans others, memory₂.trans memory₁,
        rsp₂.trans rsp₁, ?_, place⟩
      rw [rsi, Nat.add_assoc, Nat.add_comm 1 steps]

/-- When the exact process from a positive `long` reaches 1 through numbers of 64
bits, `collatz` returns the number of its steps. -/
theorem collatz_counts {start steps : Nat} (positive : 1 ≤ start)
    (small : start < 2 ^ 63) (reaches : ReachesOne start steps)
    {before : Machine} (entry : before.place = .inside 0)
    (argument : before .rdi = BitVec.ofNat 64 start) :
    ∃ after, Runs collatz before [before .rsp] after ∧
      after.place = .outside (readWord before.memory (before .rsp)) ∧
      after.memory = before.memory ∧ after .rsp = before .rsp + 8 ∧
      (after .rax).toInt = steps := by
  obtain ⟨cleared, clears, memory₁, rsp₁, rdi₁, rsi₁, place₁⟩ :=
    collatz_start entry
  have arrives : ∃ middle, Runs collatz before [] middle ∧
      middle.memory = before.memory ∧ middle .rsp = before .rsp ∧
      middle .rsi = BitVec.ofNat 64 steps ∧ middle.place = .inside 17 := by
    by_cases one : start = 1
    · subst one
      have none : steps = 0 := by
        by_contra some
        exact reaches.earlier 0 (Nat.pos_of_ne_zero some) rfl
      have first : before .rdi = 1 := argument
      rw [if_pos first] at place₁
      obtain ⟨middle, jumps, memory₂, rsp₂, rsi₂, place₂⟩ := collatz_zero place₁
      refine ⟨middle, clears.trans jumps, memory₂.trans memory₁,
        rsp₂.trans rsp₁, ?_, place₂⟩
      rw [rsi₂, rsi₁, none]
      rfl
    · have onward : before .rdi ≠ 1 := by
        rw [argument]
        exact mt (ofNat_eq_one (reaches.fits 0 (Nat.zero_le _))).mp one
      rw [if_neg onward] at place₁
      obtain ⟨middle, loops, memory₂, rsp₂, rsi₂, place₂⟩ :=
        collatz_loop reaches ⟨place₁, rdi₁.trans argument, rsi₁⟩
      rw [Nat.zero_add] at rsi₂
      exact ⟨middle, clears.trans loops, memory₂.trans memory₁,
        rsp₂.trans rsp₁, rsi₂, place₂⟩
  obtain ⟨middle, counts, memory₂, rsp₂, rsi₂, place₂⟩ := arrives
  obtain ⟨after, returns, memory₃, rsp₃, rax₃, place₃⟩ := collatz_return place₂
  rw [memory₂, rsp₂] at place₃
  rw [rsp₂] at returns rsp₃
  refine ⟨after, counts.trans returns, place₃, memory₃.trans memory₂, rsp₃, ?_⟩
  rw [rax₃, rsi₂]
  exact Y86.toInt_ofNat (reaches.steps_lt small)

theorem collatz_counts_six :
    ∃ after, Runs collatz (called (fun _ => 0) 6 0) [0x7000] after ∧
      (after .rax).toInt = 8 := by
  have reaches : ReachesOne 6 8 :=
    ⟨by decide, by decide, by decide⟩
  obtain ⟨after, runs, _, _, _, count⟩ :=
    @collatz_counts 6 8 (by decide) (by decide) reaches
      (called (fun _ => 0) 6 0) rfl rfl
  exact ⟨after, runs, count⟩

end SystemsLabs.Assembly
