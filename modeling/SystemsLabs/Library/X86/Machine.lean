import SystemsLabs.Library.Y86.Machine

/-!
# An x86-64 machine for functions

The instructions of a function are numbered, and control stays among them until
`ret`.  Flags that an instruction leaves undefined are `none`, and so is the
result of an instruction that depends on one.  Words and memory are those of the
Y86 machine.
-/

namespace SystemsLabs.X86

open Y86 (Word Bytes readWord)

inductive Register where
  | rax | rcx | rdx | rbx | rsp | rbp | rsi | rdi
  | r8 | r9 | r10 | r11 | r12 | r13 | r14 | r15
  deriving DecidableEq

inductive Condition where
  | always | e | le | ge
  deriving DecidableEq

inductive Operand where
  | immediate (value : Word)
  | register (name : Register)
  deriving DecidableEq

/-- Operations on two operands, the destination last. -/
inductive Operation where
  | add | sub | and | xor
  deriving DecidableEq

/-- `load` is `movq (base, index, scale), destination`; `compare` sets the flags
of an operation without its result. -/
inductive Instruction (label : Type) where
  | mov (source : Operand) (destination : Register)
  | load (base index : Register) (scale : Word) (destination : Register)
  | operate (operation : Operation) (source : Operand) (destination : Register)
  | compare (operation : Operation) (source : Operand) (second : Register)
  | inc (destination : Register)
  | dec (destination : Register)
  | imul (source : Operand) (destination : Register)
  | shr (count : Nat) (destination : Register)
  | jump (condition : Condition) (target : label)
  | ret
  deriving DecidableEq

structure Flags where
  zero : Option Bool
  sign : Option Bool
  overflow : Option Bool

/-- Where control is: at an instruction of the function, or at an address behind
its `ret`. -/
inductive Place where
  | inside (index : Nat)
  | outside (address : Word)
  deriving DecidableEq

structure Machine where
  register : Register → Word
  flags : Flags
  memory : Bytes
  place : Place

/-- A register of the machine. -/
instance : CoeFun Machine fun _ => Register → Word := ⟨Machine.register⟩

def Condition.holds (flags : Flags) : Condition → Option Bool
  | .always => some true
  | .e => flags.zero
  | .le => do
      let zero ← flags.zero
      let sign ← flags.sign
      let overflow ← flags.overflow
      some ((sign ^^ overflow) || zero)
  | .ge => do
      let sign ← flags.sign
      let overflow ← flags.overflow
      some !(sign ^^ overflow)

def Operand.value (register : Register → Word) : Operand → Word
  | immediate value => value
  | .register name => register name

def Operation.apply (source destination : Word) : Operation → Word
  | add => destination + source
  | sub => destination - source
  | and => destination &&& source
  | xor => destination ^^^ source

def Operation.overflow (source destination : Word) : Operation → Bool
  | add => destination.saddOverflow source
  | sub => destination.ssubOverflow source
  | and => false
  | xor => false

/-- The flags for a result. -/
def flagsOf (result : Word) (overflow : Option Bool) : Flags where
  zero := some (result == 0)
  sign := some result.msb
  overflow := overflow

def Operation.flags (operation : Operation) (source destination : Word) :
    Flags :=
  flagsOf (operation.apply source destination)
    (some (operation.overflow source destination))

/-- Blocks of instructions, each behind its label. -/
abbrev Listing (label : Type) := List (label × List (Instruction label))

namespace Listing

variable {label : Type} [DecidableEq label]

def code (listing : Listing label) : List (Instruction label) :=
  listing.flatMap Prod.snd

/-- The number of the instruction behind a label. -/
def index (name : label) : Listing label → Nat
  | [] => 0
  | (other, block) :: rest =>
      if name = other then 0 else block.length + index name rest

end Listing

section Steps

variable {label : Type} [DecidableEq label] (listing : Listing label)

/-- One instruction; `next` is the number of the one behind it. -/
def execute (machine : Machine) (next : Nat) :
    Instruction label → Option Machine
  | .mov source destination =>
      some { machine with
        register := Function.update machine.register destination
          (source.value machine.register)
        place := .inside next }
  | .load base index scale destination =>
      some { machine with
        register := Function.update machine.register destination
          (readWord machine.memory
            (machine.register base + machine.register index * scale))
        place := .inside next }
  | .operate operation source destination =>
      let value := source.value machine.register
      some { machine with
        register := Function.update machine.register destination
          (operation.apply value (machine.register destination))
        flags := operation.flags value (machine.register destination)
        place := .inside next }
  | .compare operation source second =>
      some { machine with
        flags := operation.flags (source.value machine.register)
          (machine.register second)
        place := .inside next }
  | .inc destination =>
      let value := machine.register destination
      some { machine with
        register := Function.update machine.register destination (value + 1)
        flags := flagsOf (value + 1) (some (value.saddOverflow 1))
        place := .inside next }
  | .dec destination =>
      let value := machine.register destination
      some { machine with
        register := Function.update machine.register destination (value - 1)
        flags := flagsOf (value - 1) (some (value.ssubOverflow 1))
        place := .inside next }
  | .imul source destination =>
      let left := machine.register destination
      let right := source.value machine.register
      some { machine with
        register := Function.update machine.register destination (left * right)
        flags := {
          zero := none
          sign := none
          overflow := some (left.smulOverflow right) }
        place := .inside next }
  | .shr count destination =>
      -- a count of zero leaves the flags alone
      let value := machine.register destination
      let shifted := value >>> (count % 64)
      some { machine with
        register := Function.update machine.register destination shifted
        flags :=
          if count % 64 = 0 then machine.flags
          else flagsOf shifted
            (if count % 64 = 1 then some value.msb else none)
        place := .inside next }
  | .jump condition target => do
      let taken ← condition.holds machine.flags
      some { machine with
        place := .inside (if taken then listing.index target else next) }
  | .ret =>
      let rsp := machine.register .rsp
      some { machine with
        register := Function.update machine.register .rsp (rsp + 8)
        place := .outside (readWord machine.memory rsp) }

/-- The address of the word that an instruction reads, if any. -/
def readAt (machine : Machine) : Instruction label → Option Word
  | .load base index scale _ =>
      some (machine.register base + machine.register index * scale)
  | .ret => some (machine.register .rsp)
  | _ => none

/-- So many steps, with the addresses of the words that they read. -/
def run : Nat → Machine → Option (Machine × List Word)
  | 0, machine => some (machine, [])
  | steps + 1, machine =>
      match machine.place with
      | .inside index => do
          let instruction ← listing.code[index]?
          let after ← execute listing machine (index + 1) instruction
          let (last, reads) ← run steps after
          some (last, (readAt machine instruction).toList ++ reads)
      | .outside _ => none

/-- The function gets from one state to the other and reads the words at these
addresses. -/
def Runs (before : Machine) (reads : List Word) (after : Machine) : Prop :=
  ∃ steps, run listing steps before = some (after, reads)

/-- The function never comes to an end: it takes any number of steps. -/
def RunsForever (before : Machine) : Prop :=
  ∀ steps, ∃ result, run listing steps before = some result

variable {listing} {before middle after : Machine} {reads more : List Word}

theorem Runs.refl (machine : Machine) : Runs listing machine [] machine :=
  ⟨0, rfl⟩

theorem run_add {steps others : Nat}
    (earlier : run listing steps before = some (middle, reads))
    (later : run listing others middle = some (after, more)) :
    run listing (steps + others) before = some (after, reads ++ more) := by
  induction steps generalizing before reads with
  | zero =>
      cases earlier
      rw [Nat.zero_add]
      exact later
  | succ steps ih =>
      rw [Nat.succ_add]
      rw [run] at earlier ⊢
      split at earlier
      · rename_i index here
        obtain ⟨instruction, found, executing⟩ :=
          Option.bind_eq_some_iff.mp earlier
        obtain ⟨next, executed, onward⟩ :=
          Option.bind_eq_some_iff.mp executing
        obtain ⟨⟨last, rest⟩, ran, same⟩ := Option.bind_eq_some_iff.mp onward
        cases same
        refine Option.bind_eq_some_iff.mpr ⟨instruction, found, ?_⟩
        refine Option.bind_eq_some_iff.mpr ⟨next, executed, ?_⟩
        refine Option.bind_eq_some_iff.mpr ⟨_, ih ran, ?_⟩
        rw [List.append_assoc]
      · cases earlier

theorem run_split {steps others : Nat}
    (whole : run listing (steps + others) before = some (after, more))
    (earlier : run listing steps before = some (middle, reads)) :
    ∃ rest, run listing others middle = some (after, rest) := by
  induction steps generalizing before reads more with
  | zero =>
      cases earlier
      rw [Nat.zero_add] at whole
      exact ⟨more, whole⟩
  | succ steps ih =>
      rw [Nat.succ_add] at whole
      rw [run] at whole earlier
      split at earlier
      · rename_i index here
        obtain ⟨instruction, found, executing⟩ :=
          Option.bind_eq_some_iff.mp earlier
        obtain ⟨next, executed, onward⟩ :=
          Option.bind_eq_some_iff.mp executing
        obtain ⟨⟨last, rest⟩, ran, same⟩ := Option.bind_eq_some_iff.mp onward
        cases same
        rw [here] at whole
        obtain ⟨_, foundAgain, executing⟩ := Option.bind_eq_some_iff.mp whole
        rw [found] at foundAgain
        cases foundAgain
        obtain ⟨_, executedAgain, onward⟩ :=
          Option.bind_eq_some_iff.mp executing
        rw [executed] at executedAgain
        cases executedAgain
        obtain ⟨⟨final, later⟩, ranOn, same⟩ := Option.bind_eq_some_iff.mp onward
        cases same
        exact ih ranOn ran
      · cases earlier

/-- A function that has returned has no longer run. -/
theorem Runs.bounded (returns : Runs listing before reads after)
    {address : Word} (outside : after.place = .outside address) :
    ∃ bound, ∀ steps result, run listing steps before = some result →
      steps ≤ bound := by
  obtain ⟨bound, ran⟩ := returns
  refine ⟨bound, fun steps result longer => ?_⟩
  by_contra more
  obtain ⟨others, rfl⟩ := Nat.exists_eq_add_of_lt (Nat.not_le.mp more)
  rw [Nat.add_assoc] at longer
  obtain ⟨rest, onward⟩ := run_split longer ran
  rw [run, outside] at onward
  cases onward

theorem run_prefix {steps others : Nat} {result : Machine × List Word}
    (whole : run listing (steps + others) before = some result) :
    ∃ earlier, run listing steps before = some earlier := by
  induction steps generalizing before result with
  | zero => exact ⟨(before, []), rfl⟩
  | succ steps ih =>
      rw [Nat.succ_add] at whole
      rw [run] at whole ⊢
      split at whole
      · obtain ⟨instruction, found, executing⟩ :=
          Option.bind_eq_some_iff.mp whole
        obtain ⟨next, executed, onward⟩ :=
          Option.bind_eq_some_iff.mp executing
        obtain ⟨last, ran, same⟩ := Option.bind_eq_some_iff.mp onward
        obtain ⟨⟨middle, reads⟩, first⟩ := ih ran
        refine ⟨(middle, (readAt before instruction).toList ++ reads), ?_⟩
        refine Option.bind_eq_some_iff.mpr ⟨instruction, found, ?_⟩
        refine Option.bind_eq_some_iff.mpr ⟨next, executed, ?_⟩
        exact Option.bind_eq_some_iff.mpr ⟨_, first, rfl⟩
      · cases whole

theorem RunsForever.not_returns (endless : RunsForever listing before)
    (runs : Runs listing before reads after) {address : Word} :
    after.place ≠ .outside address := by
  intro outside
  obtain ⟨bound, longest⟩ := runs.bounded outside
  obtain ⟨result, ran⟩ := endless (bound + 1)
  exact absurd (longest _ result ran) (Nat.not_succ_le_self bound)

theorem Runs.trans (earlier : Runs listing before reads middle)
    (later : Runs listing middle more after) :
    Runs listing before (reads ++ more) after := by
  obtain ⟨steps, first⟩ := earlier
  obtain ⟨others, second⟩ := later
  exact ⟨steps + others, run_add first second⟩

theorem Runs.of_run {register : Register → Word} {flags : Flags}
    {memory : Bytes} {place : Place} (steps : Nat) (target : Place)
    (ran : run listing steps before =
      some (⟨register, flags, memory, place⟩, reads))
    (here : place = target) :
    Runs listing before reads ⟨register, flags, memory, target⟩ :=
  ⟨steps, here ▸ ran⟩

end Steps

theorem branch {taken : Bool} {condition : Prop} [Decidable condition]
    (known : some taken = some (decide condition)) (target next : Nat) :
    Place.inside (if taken then target else next) =
      .inside (if condition then target else next) := by
  rw [Option.some.inj known]
  simp only [decide_eq_true_eq]

/-- Subtraction sets the flags for a signed comparison of the operands. -/
theorem sub_holds_ge (source destination : Word) :
    Condition.ge.holds (Operation.sub.flags source destination) =
      some (decide (source.toInt ≤ destination.toInt)) :=
  congrArg some (Y86.sub_holds_ge source destination)

theorem sub_holds_e (source destination : Word) :
    Condition.e.holds (Operation.sub.flags source destination) =
      some (decide (destination = source)) :=
  congrArg some (decide_eq_decide.mpr sub_eq_zero)

theorem test_holds_le (value : Word) :
    Condition.le.holds (Operation.and.flags value value) =
      some (decide (value.toInt ≤ 0)) := by
  have same : value &&& value = value := BitVec.and_self
  have sign : value.msb = decide (value.toInt < 0) := BitVec.msb_eq_toInt
  have zero : (value == 0) = decide (value.toInt = 0) := by
    apply decide_eq_decide.mpr
    rw [← BitVec.toInt_inj]
    rfl
  apply congrArg some
  simp only [Operation.overflow, Operation.apply, same, sign, zero,
    Bool.xor_false]
  rw [← Bool.decide_or, decide_eq_decide]
  omega

theorem and_one_holds_e (value : Word) :
    Condition.e.holds (Operation.and.flags 1 value) =
      some (decide (value.toNat % 2 = 0)) := by
  apply congrArg some
  apply decide_eq_decide.mpr
  have low : (value &&& 1#64).toNat = value.toNat % 2 := by
    rw [BitVec.toNat_and]
    exact Nat.and_two_pow_sub_one_eq_mod value.toNat 1
  rw [← low]
  exact BitVec.toNat_eq

end SystemsLabs.X86
