import SystemsLabs.Library.Transition
import SystemsLabs.Library.Y86.Cells

/-!
# The words that a program loads

Steps labelled with the address of the word that the instruction loads, apart
from the instruction itself.
-/

namespace SystemsLabs.Y86

open Transition

/-- The address of the word that an instruction loads, if any. -/
def loadedAt (machine : Machine) : Instruction Word → Option Word
  | .mrmovq base displacement _ => some (machine.register base + displacement)
  | .ret => some (machine.register .rsp)
  | .popq _ => some (machine.register .rsp)
  | _ => none

/-- A step and what it loads. -/
def LoadStep (machine : Machine) (load : Option Word) (after : Machine) :
    Prop :=
  ∃ instruction next,
    fetch machine.memory machine.pc = some (instruction, next) ∧
      execute machine next instruction = some after ∧
      load = loadedAt machine instruction

/-- The machine gets to a state and loads the words at these addresses. -/
def Loads (before : Machine) (addresses : List Word) (after : Machine) : Prop :=
  ∃ loads, Run LoadStep before loads after ∧ addresses = loads.reduceOption

theorem LoadStep.functional {before : Machine} {load : Option Word}
    {after : Machine} {other : Option Word} {result : Machine} (taken : LoadStep before load after)
    (otherTaken : LoadStep before other result) :
    load = other ∧ after = result := by
  obtain ⟨instruction, next, fetched, executed, rfl⟩ := taken
  obtain ⟨_, _, fetchedOther, executedOther, rfl⟩ := otherTaken
  rw [fetched] at fetchedOther
  cases fetchedOther
  rw [executed] at executedOther
  cases executedOther
  exact ⟨rfl, rfl⟩

theorem Halted.stops {machine : Machine} (halted : Halted machine) :
    ∀ load after, ¬LoadStep machine load after := by
  rintro load after ⟨instruction, next, fetched, executed, _⟩
  obtain ⟨_, halt⟩ := halted
  rw [halt] at fetched
  cases fetched
  cases executed

namespace Loads

variable {before middle after : Machine} {addresses more : List Word}

theorem nil (machine : Machine) : Loads machine [] machine :=
  ⟨[], .nil machine, rfl⟩

theorem append (earlier : Loads before addresses middle)
    (later : Loads middle more after) :
    Loads before (addresses ++ more) after := by
  obtain ⟨loads, run, rfl⟩ := earlier
  obtain ⟨others, rest, rfl⟩ := later
  exact ⟨loads ++ others, run.append rest, (List.reduceOption_append _ _).symm⟩

theorem reaches (loads : Loads before addresses after) :
    Reaches before after := by
  obtain ⟨labels, run, same⟩ := loads
  clear same
  induction run with
  | nil => exact .refl
  | cons taken _ ih =>
      obtain ⟨instruction, next, fetched, executed, _⟩ := taken
      refine .head ?_ ih
      rw [step, fetched]
      exact executed

theorem unique (loads : Loads before addresses middle)
    (halted : Halted middle) (others : Loads before more after)
    (otherHalted : Halted after) : addresses = more ∧ middle = after := by
  obtain ⟨labels, run, rfl⟩ := loads
  obtain ⟨otherLabels, otherRun, rfl⟩ := others
  have same := run.unique
    (fun taken otherTaken => taken.functional otherTaken) halted.stops
    otherRun otherHalted.stops
  rw [same.1]
  exact ⟨rfl, same.2⟩

end Loads

namespace Program

/-- The addresses of the words that the first steps load. -/
def loads (program : Program) : Nat → Machine → Option (List Word)
  | 0, _ => some []
  | steps + 1, machine => do
      let (instruction, next) ←
        instructionAt machine.pc program.start program.code
      let after ← execute machine next instruction
      let later ← loads program steps after
      some ((loadedAt machine instruction).toList ++ later)

theorem Loaded.advance_loads {program : Program} {machine last : Machine}
    {stored addresses : List Word} {steps : Nat}
    (loaded : program.Loaded machine.memory)
    (advanced : program.advance steps machine = some (last, stored))
    (loading : program.loads steps machine = some addresses)
    (clear : ∀ address ∈ stored, Clear program address) :
    Loads machine addresses last := by
  induction steps generalizing machine stored addresses with
  | zero =>
      cases advanced
      cases loading
      exact .nil _
  | succ steps ih =>
      obtain ⟨⟨instruction, next⟩, found, executed⟩ :=
        Option.bind_eq_some_iff.mp advanced
      obtain ⟨after, performed, onward⟩ := Option.bind_eq_some_iff.mp executed
      obtain ⟨⟨final, laterStored⟩, rest, same⟩ :=
        Option.bind_eq_some_iff.mp onward
      cases same
      obtain ⟨_, foundAgain, executing⟩ := Option.bind_eq_some_iff.mp loading
      rw [found] at foundAgain
      cases foundAgain
      obtain ⟨_, performedAgain, loadingRest⟩ :=
        Option.bind_eq_some_iff.mp executing
      rw [performed] at performedAgain
      cases performedAgain
      obtain ⟨later, laterLoads, sum⟩ :=
        Option.bind_eq_some_iff.mp loadingRest
      cases sum
      have fetched := Placed.instructionAt loaded found
      have first : program.advance 1 machine =
          some (after, (storedAt machine instruction).toList) := by
        simp [Program.advance, found, performed]
      have kept := (loaded.advance first fun address member =>
        clear address (List.mem_append_left _ member)).2
      obtain ⟨labels, run, rfl⟩ := ih kept rest laterLoads fun address member =>
        clear address (List.mem_append_right _ member)
      refine ⟨loadedAt machine instruction :: labels,
        .cons ⟨instruction, next, fetched, performed, rfl⟩ run, ?_⟩
      cases loadedAt machine instruction <;> rfl

end Program

/-- The machine gets to a state with the program still in memory, and loads the
words at these addresses. -/
def GetsLoading (program : Program) (before : Machine)
    (addresses : List Word) (after : Machine) : Prop :=
  Loads before addresses after ∧ program.Loaded after.memory

theorem GetsLoading.append {program : Program} {first second third : Machine}
    {addresses more : List Word}
    (earlier : GetsLoading program first addresses second)
    (later : GetsLoading program second more third) :
    GetsLoading program first (addresses ++ more) third :=
  ⟨earlier.1.append later.1, later.2⟩

/-- `runs` with the addresses of the words that are loaded. -/
theorem Program.Loaded.runsLoading {program : Program} {machine : Machine}
    {register : Register → Word} {flags : Flags} {memory : Bytes} {pc : Word}
    (loaded : program.Loaded machine.memory) (steps : Nat)
    (stored addresses : List Word) (target : Word)
    (advanced : program.advance steps machine =
      some (⟨register, flags, memory, pc⟩, stored))
    (loading : program.loads steps machine = some addresses)
    (clear : ∀ address ∈ stored, Clear program address) (here : pc = target) :
    GetsLoading program machine addresses
      ⟨register, flags, memory, target⟩ := by
  rw [← here]
  exact ⟨loaded.advance_loads advanced loading clear,
    (loaded.advance advanced clear).2⟩

end SystemsLabs.Y86
