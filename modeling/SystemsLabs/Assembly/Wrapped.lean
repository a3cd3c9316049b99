import SystemsLabs.Library.Orbit
import SystemsLabs.Assembly.Collatz

/-!
# When `collatz` returns

On 64 bits the process wraps.  `collatz` returns exactly for the arguments from
which the process with wrapping reaches 1, and then with the number of its steps;
there are arguments, such as 0, from which it never does.
-/

namespace SystemsLabs.Assembly

open X86 Orbit
open Y86 (Word readWord)

/-- A step of the process on 64 bits. -/
def collatzWord (value : Word) : Word :=
  BitVec.ofNat 64 (collatzNext value.toNat)

theorem ofNat_toNat (value : Word) : BitVec.ofNat 64 value.toNat = value :=
  (BitVec.ofNat_toNat 64 value).trans (BitVec.setWidth_eq value)

theorem AtLoop.roundWord {value : Word} {count : Nat} {before : Machine}
    (state : AtLoop value.toNat count before) (unfinished : value ≠ 1) :
    ∃ after, Runs collatz before [] after ∧ after.memory = before.memory ∧
      after .rsp = before .rsp ∧
      AtLoop (collatzWord value).toNat (count + 1) after := by
  have other : value.toNat ≠ 1 := by
    intro same
    apply unfinished
    rw [← ofNat_toNat value, same]
    rfl
  obtain ⟨after, runs, memory, rsp, next⟩ := state.round value.isLt other
  exact ⟨after, runs, memory, rsp, next.place,
    next.rdi.trans (ofNat_toNat (collatzWord value)).symm, next.rsi⟩

theorem AtLoop.advances {first second count : Nat} {before after : Machine}
    (state : AtLoop first count before) (next : AtLoop second (count + 1) after) :
    before ≠ after := by
  intro same
  have counts := state.rsi.symm.trans (same ▸ next.rsi)
  rw [BitVec.ofNat_add] at counts
  have zero : BitVec.ofNat 64 1 = 0 := by
    have moved := congrArg (· - BitVec.ofNat 64 count) counts
    rw [BitVec.sub_self, BitVec.add_comm, BitVec.add_sub_cancel] at moved
    exact moved.symm
  exact absurd zero (by decide)

theorem AtLoop.follows {steps : Nat} :
    ∀ {value : Word} {count : Nat} {before : Machine},
      FirstVisit collatzWord value 1 steps → AtLoop value.toNat count before →
      ∃ after, Runs collatz before [] after ∧ after.memory = before.memory ∧
        after .rsp = before .rsp ∧
        after .rsi = BitVec.ofNat 64 (count + steps) ∧
        after.place = .inside 17 := by
  induction steps with
  | zero =>
      intro value count before visit state
      obtain ⟨after, tests, memory, rsp, _, rsi, place⟩ :=
        collatz_test state.place
      have last : before .rdi = 1 :=
        (state.rdi.trans (ofNat_toNat value)).trans visit.last
      rw [if_pos last] at place
      exact ⟨after, tests, memory, rsp, rsi.trans state.rsi, place⟩
  | succ steps ih =>
      intro value count before visit state
      obtain ⟨unfinished, rest⟩ := visit.tail
      obtain ⟨middle, first, memory₁, rsp₁, next⟩ := state.roundWord unfinished
      obtain ⟨after, others, memory₂, rsp₂, rsi, place⟩ := ih rest next
      refine ⟨after, first.trans others, memory₂.trans memory₁,
        rsp₂.trans rsp₁, ?_, place⟩
      rw [rsi, Nat.add_assoc, Nat.add_comm 1 steps]

/-- Without a visit of 1 the loop goes on for ever. -/
theorem AtLoop.endless {value : Word}
    (never : ∀ steps, collatzWord^[steps] value ≠ 1) (rounds : Nat) :
    ∀ {count : Nat} {before : Machine}, AtLoop value.toNat count before →
      ∃ steps result, rounds ≤ steps ∧
        run collatz steps before = some result := by
  induction rounds generalizing value with
  | zero => exact fun {_ before} _ => ⟨0, (before, []), Nat.le_refl 0, rfl⟩
  | succ rounds ih =>
      intro count before state
      obtain ⟨middle, ⟨first, ran⟩, _, _, next⟩ := state.roundWord (never 0)
      have later : ∀ steps, collatzWord^[steps] (collatzWord value) ≠ 1 :=
        fun steps => never (steps + 1)
      obtain ⟨steps, ⟨last, reads⟩, many, onward⟩ := ih later next
      have positive : first ≠ 0 := by
        rintro rfl
        exact state.advances next (congrArg Prod.fst (Option.some.inj ran))
      exact ⟨first + steps, _, by omega, run_add ran onward⟩

/-- What a call has done when it returns. -/
structure Returns (before : Machine) (steps : Nat) (after : Machine) : Prop where
  runs : Runs collatz before [before .rsp] after
  place : after.place = .outside (readWord before.memory (before .rsp))
  memory : after.memory = before.memory
  rsp : after .rsp = before .rsp + 8
  rax : (after .rax).toNat = steps

theorem collatz_follows {steps : Nat} {before : Machine}
    (entry : before.place = .inside 0)
    (visit : FirstVisit collatzWord (before .rdi) 1 steps) :
    ∃ after, Returns before steps after := by
  obtain ⟨cleared, clears, memory₁, rsp₁, rdi₁, rsi₁, place₁⟩ :=
    collatz_start entry
  have arrives : ∃ middle, Runs collatz before [] middle ∧
      middle.memory = before.memory ∧ middle .rsp = before .rsp ∧
      middle .rsi = BitVec.ofNat 64 steps ∧ middle.place = .inside 17 := by
    by_cases one : before .rdi = 1
    · have none : steps = 0 := by
        by_contra some
        exact visit.earlier 0 (Nat.pos_of_ne_zero some) one
      rw [if_pos one] at place₁
      obtain ⟨middle, jumps, memory₂, rsp₂, rsi₂, place₂⟩ := collatz_zero place₁
      refine ⟨middle, clears.trans jumps, memory₂.trans memory₁,
        rsp₂.trans rsp₁, ?_, place₂⟩
      rw [rsi₂, rsi₁, none]
      rfl
    · rw [if_neg one] at place₁
      obtain ⟨middle, loops, memory₂, rsp₂, rsi₂, place₂⟩ :=
        AtLoop.follows visit
          ⟨place₁, rdi₁.trans (ofNat_toNat _).symm, rsi₁⟩
      rw [Nat.zero_add] at rsi₂
      exact ⟨middle, clears.trans loops, memory₂.trans memory₁,
        rsp₂.trans rsp₁, rsi₂, place₂⟩
  obtain ⟨middle, counts, memory₂, rsp₂, rsi₂, place₂⟩ := arrives
  obtain ⟨after, returns, memory₃, rsp₃, rax₃, place₃⟩ := collatz_return place₂
  have few : steps < 2 ^ 64 :=
    visit.steps_lt BitVec.toNat_injective BitVec.isLt
  rw [memory₂, rsp₂] at place₃
  rw [rsp₂] at returns rsp₃
  refine ⟨after, counts.trans returns, place₃, memory₃.trans memory₂, rsp₃, ?_⟩
  rw [rax₃, rsi₂, BitVec.toNat_ofNat, Nat.mod_eq_of_lt few]

theorem collatz_endless {before : Machine} (entry : before.place = .inside 0)
    (never : ∀ steps, collatzWord^[steps] (before .rdi) ≠ 1) :
    RunsForever collatz before := by
  intro steps
  have onward : before .rdi ≠ 1 := never 0
  obtain ⟨cleared, ⟨first, ran⟩, _, _, rdi, rsi, place⟩ := collatz_start entry
  rw [if_neg onward] at place
  obtain ⟨later, ⟨last, more⟩, many, rest⟩ := AtLoop.endless never steps
    ⟨place, rdi.trans (ofNat_toNat _).symm, rsi⟩
  have whole := run_add ran rest
  obtain ⟨others, total⟩ :=
    Nat.exists_eq_add_of_le (show steps ≤ first + later by omega)
  rw [total] at whole
  exact run_prefix whole

/-- `collatz` returns for the arguments from which the wrapping process reaches 1,
with the number of steps to the first visit, and runs for ever for all others. -/
theorem collatz_returns_iff {before : Machine}
    (entry : before.place = .inside 0) :
    ((∃ reads after address, Runs collatz before reads after ∧
        after.place = .outside address) ↔
      ∃ steps, collatzWord^[steps] (before .rdi) = 1) ∧
    ((∀ steps, collatzWord^[steps] (before .rdi) ≠ 1) →
      RunsForever collatz before) ∧
    ∀ steps, FirstVisit collatzWord (before .rdi) 1 steps →
      ∃ after, Returns before steps after := by
  refine ⟨⟨?_, ?_⟩, collatz_endless entry,
    fun steps => collatz_follows entry⟩
  · rintro ⟨reads, after, address, returns, outside⟩
    by_contra never
    have endless := collatz_endless entry (not_exists.mp never)
    exact endless.not_returns returns outside
  · intro visits
    obtain ⟨steps, visit⟩ := exists_firstVisit visits
    obtain ⟨after, returns⟩ := collatz_follows entry visit
    exact ⟨_, after, _, returns.runs, returns.place⟩

/-- The process stays at 0, and takes seven steps from 3. -/
theorem collatz_of_zero :
    RunsForever collatz (called (fun _ => 0) 0 0) ∧
      ∃ reads after address,
        Runs collatz (called (fun _ => 0) 3 0) reads after ∧
          after.place = .outside address := by
  constructor
  · apply (collatz_returns_iff rfl).2.1
    intro steps last
    have zero : collatzWord^[steps] 0 = 0 := Function.iterate_fixed rfl steps
    exact absurd (zero.symm.trans last) (by decide)
  · exact (collatz_returns_iff rfl).1.mpr ⟨7, by decide⟩

end SystemsLabs.Assembly
