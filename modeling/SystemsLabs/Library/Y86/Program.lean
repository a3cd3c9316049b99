import SystemsLabs.Library.Y86.Encoding

/-!
# Programs

A listing is assembled into instructions at consecutive addresses.  While they
stay in memory, the machine executes them: `Program.Loaded.advance` runs a piece
of the program whose stores are elsewhere.
-/

namespace SystemsLabs.Y86

inductive Operand (label : Type) where
  | word (value : Word)
  | address (name : label)

/-- Blocks of instructions, each behind its label. -/
abbrev Listing (label : Type) :=
  List (label × List (Instruction (Operand label)))

/-- Instructions that stand one behind the other. -/
structure Program where
  start : Word
  code : List (Instruction Word)

namespace Instruction

/-- Replace the values of an instruction. -/
def map {source target : Type} (value : source → target) :
    Instruction source → Instruction target
  | .halt => .halt
  | .nop => .nop
  | .cmov condition source destination => .cmov condition source destination
  | .irmovq immediate destination => .irmovq (value immediate) destination
  | .rmmovq source base displacement => .rmmovq source base displacement
  | .mrmovq base displacement destination =>
      .mrmovq base displacement destination
  | .opq operation source destination => .opq operation source destination
  | .jump condition target => .jump condition (value target)
  | .call target => .call (value target)
  | .ret => .ret
  | .pushq source => .pushq source
  | .popq destination => .popq destination

end Instruction

namespace Listing

variable {label : Type} [DecidableEq label]

/-- The address of a label in a listing that starts at `here`. -/
def address (name : label) : Word → Listing label → Word
  | here, [] => here
  | here, (other, block) :: rest =>
      if name = other then here
      else
        address name (here + BitVec.ofNat 64 (block.map Instruction.size).sum)
          rest

def assemble (listing : Listing label) (start : Word) : Program where
  start := start
  code := listing.flatMap fun (_, block) => block.map fun instruction =>
    instruction.map fun
      | .word value => value
      | .address name => address name start listing

end Listing

/-- The instruction at `pc` in a list that starts at `here`, and the address
behind it. -/
def instructionAt (pc : Word) :
    Word → List (Instruction Word) → Option (Instruction Word × Word)
  | _, [] => none
  | here, instruction :: rest =>
      let next := here + BitVec.ofNat 64 instruction.size
      if pc = here then some (instruction, next)
      else instructionAt pc next rest

namespace Program

def size (program : Program) : Nat := (program.code.map Instruction.size).sum

/-- The addresses of the instructions. -/
def region (program : Program) : Set Word := span program.start program.size

def Loaded (program : Program) (memory : Bytes) : Prop :=
  Placed memory program.start (program.code.flatMap encode)

/-- Memory with the program in it. -/
def load (program : Program) (memory : Bytes) : Bytes :=
  fun place =>
    ((program.code.flatMap encode)[(place - program.start).toNat]?).getD
      (memory place)

/-- The first steps, with the addresses of the words that they store. -/
def advance (program : Program) : Nat → Machine → Option (Machine × List Word)
  | 0, machine => some (machine, [])
  | steps + 1, machine => do
      let (instruction, next) ←
        instructionAt machine.pc program.start program.code
      let after ← execute machine next instruction
      let (last, stored) ← advance program steps after
      some (last, (storedAt machine instruction).toList ++ stored)

end Program

section Placed

variable {memory other : Bytes} {place pc next : Word}

theorem Placed.append {first second : List (BitVec 8)}
    (placed : Placed memory place (first ++ second)) :
    Placed memory place first ∧
      Placed memory (place + BitVec.ofNat 64 first.length) second := by
  induction first generalizing place with
  | nil =>
      refine ⟨trivial, ?_⟩
      rw [List.length_nil, BitVec.add_zero]
      exact placed
  | cons byte first ih =>
      obtain ⟨here, behind⟩ := placed
      obtain ⟨front, back⟩ := ih behind
      refine ⟨⟨here, front⟩, ?_⟩
      rw [List.length_cons, BitVec.ofNat_add, add_comm (BitVec.ofNat 64 _),
        ← add_assoc]
      exact back

theorem Placed.congr {bytes : List (BitVec 8)}
    (placed : Placed memory place bytes)
    (same : ∀ index < bytes.length, other (place + BitVec.ofNat 64 index) =
      memory (place + BitVec.ofNat 64 index)) :
    Placed other place bytes := by
  induction bytes generalizing place with
  | nil => trivial
  | cons byte bytes ih =>
      obtain ⟨here, behind⟩ := placed
      constructor
      · have first := same 0 (Nat.succ_pos _)
        rw [BitVec.add_zero] at first
        exact first.trans here
      · apply ih behind
        intro index inside
        have shifted := same (index + 1) (Nat.succ_lt_succ inside)
        rw [BitVec.ofNat_add, add_comm (BitVec.ofNat 64 index),
          ← add_assoc] at shifted
        exact shifted

theorem Placed.of_getElem {bytes : List (BitVec 8)}
    (same : ∀ index byte, bytes[index]? = some byte →
      memory (place + BitVec.ofNat 64 index) = byte) :
    Placed memory place bytes := by
  induction bytes generalizing place with
  | nil => trivial
  | cons byte bytes ih =>
      constructor
      · have first := same 0 byte rfl
        rwa [BitVec.add_zero] at first
      · apply ih
        intro index later found
        have shifted := same (index + 1) later found
        rwa [BitVec.ofNat_add, add_comm (BitVec.ofNat 64 index),
          ← add_assoc] at shifted

theorem Placed.instructionAt {code : List (Instruction Word)}
    {instruction : Instruction Word}
    (placed : Placed memory place (code.flatMap encode))
    (found : Y86.instructionAt pc place code = some (instruction, next)) :
    Y86.fetch memory pc = some (instruction, next) := by
  induction code generalizing place with
  | nil => cases found
  | cons first rest ih =>
      rw [List.flatMap_cons] at placed
      obtain ⟨here, behind⟩ := placed.append
      rw [Y86.instructionAt] at found
      split at found
      · rename_i same
        cases found
        rw [same]
        exact here.fetch
      · rw [encode_length] at behind
        exact ih behind found

end Placed

namespace Program.Loaded

variable {program : Program} {memory other : Bytes}

theorem size_eq (program : Program) :
    (program.code.flatMap encode).length = program.size := by
  rw [List.length_flatMap, Program.size]
  congr 1
  apply List.map_congr_left
  intro instruction _
  exact encode_length instruction

theorem of_load (small : program.size ≤ 2 ^ 64) (memory : Bytes) :
    program.Loaded (program.load memory) := by
  apply Placed.of_getElem
  intro index byte found
  have bound : index < (program.code.flatMap encode).length :=
    (List.getElem?_eq_some_iff.mp found).1
  rw [size_eq] at bound
  rw [load, toNat_offset program.start (bound.trans_le small), found]
  rfl

theorem load_sameOutside (program : Program) (memory : Bytes) :
    SameOutside program.region memory (program.load memory) := by
  intro place outside
  have beyond : program.size ≤ (place - program.start).toNat :=
    Nat.not_lt.mp outside
  rw [← size_eq] at beyond
  rw [load, List.getElem?_eq_none beyond]
  rfl

/-- The program stays in memory when only bytes elsewhere change. -/
theorem sameOutside {region : Set Word} (loaded : program.Loaded memory)
    (same : SameOutside region memory other)
    (away : Disjoint region program.region) : program.Loaded other := by
  apply Placed.congr loaded
  intro index inside
  apply same
  apply Set.disjoint_right.mp away
  apply offset_mem_span
  rw [size_eq] at inside
  exact inside

/-- A piece of the program whose stores are elsewhere. -/
theorem advance {machine last : Machine} {stored : List Word} {steps : Nat}
    (loaded : program.Loaded machine.memory)
    (advanced : program.advance steps machine = some (last, stored))
    (clear : ∀ address ∈ stored, Disjoint (span address 8) program.region) :
    Reaches machine last ∧ program.Loaded last.memory := by
  induction steps generalizing machine stored with
  | zero =>
      cases advanced
      exact ⟨.refl, loaded⟩
  | succ steps ih =>
      obtain ⟨⟨instruction, next⟩, found, executed⟩ :=
        Option.bind_eq_some_iff.mp advanced
      obtain ⟨after, performed, onward⟩ := Option.bind_eq_some_iff.mp executed
      obtain ⟨⟨final, later⟩, rest, same⟩ := Option.bind_eq_some_iff.mp onward
      cases same
      have first : step machine = some after := by
        rw [step, Placed.instructionAt loaded found]
        exact performed
      have kept : program.Loaded after.memory := by
        apply loaded.sameOutside (execute_stores performed _)
          disjoint_compl_left
        intro address storing
        apply Set.subset_compl_iff_disjoint_right.mpr
        apply clear
        simp [storing]
      obtain ⟨reaches, loadedLast⟩ := ih kept rest fun address member =>
        clear address (List.mem_append_right _ member)
      exact ⟨.head first reaches, loadedLast⟩

end Program.Loaded

/-- The machine gets to a state, with the program still in memory. -/
def Gets (program : Program) (before after : Machine) : Prop :=
  Reaches before after ∧ program.Loaded after.memory

/-- A word away from the code. -/
def Clear (program : Program) (address : Word) : Prop :=
  Disjoint (span address 8) program.region

theorem Gets.trans {program : Program} {first second third : Machine}
    (earlier : Gets program first second) (later : Gets program second third) :
    Gets program first third :=
  ⟨earlier.1.trans later.1, later.2⟩

/-- `steps` steps that store at the given addresses and end at `target`. -/
theorem Program.Loaded.runs {program : Program} {machine : Machine}
    {register : Register → Word} {flags : Flags} {memory : Bytes} {pc : Word}
    (loaded : program.Loaded machine.memory) (steps : Nat) (stored : List Word)
    (target : Word)
    (advanced : program.advance steps machine =
      some (⟨register, flags, memory, pc⟩, stored))
    (clear : ∀ address ∈ stored, Clear program address) (here : pc = target) :
    Gets program machine ⟨register, flags, memory, target⟩ := by
  rw [← here]
  exact loaded.advance advanced clear

end SystemsLabs.Y86
