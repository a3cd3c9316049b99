import SystemsLabs.Library.Y86.Machine
import Mathlib.Logic.Relation

/-!
# Instructions in memory

`fetch` reads back what `encode` wrote, and a step of the machine executes what
it fetches.
-/

namespace SystemsLabs.Y86

def Register.code : Register → BitVec 4
  | .rax => 0x0 | .rcx => 0x1 | .rdx => 0x2 | .rbx => 0x3
  | .rsp => 0x4 | .rbp => 0x5 | .rsi => 0x6 | .rdi => 0x7
  | .r8 => 0x8 | .r9 => 0x9 | .r10 => 0xA | .r11 => 0xB
  | .r12 => 0xC | .r13 => 0xD | .r14 => 0xE

def Register.ofCode (code : BitVec 4) : Option Register :=
  [.rax, .rcx, .rdx, .rbx, .rsp, .rbp, .rsi, .rdi,
    .r8, .r9, .r10, .r11, .r12, .r13, .r14][code.toNat]?

def Condition.code : Condition → BitVec 4
  | .always => 0x0 | .le => 0x1 | .l => 0x2 | .e => 0x3
  | .ne => 0x4 | .ge => 0x5 | .g => 0x6

def Condition.ofCode (code : BitVec 4) : Option Condition :=
  [.always, .le, .l, .e, .ne, .ge, .g][code.toNat]?

def Operation.code : Operation → BitVec 4
  | .add => 0x0 | .sub => 0x1 | .and => 0x2 | .xor => 0x3
  | .mul => 0x4 | .div => 0x5

def Operation.ofCode (code : BitVec 4) : Option Operation :=
  [.add, .sub, .and, .xor, .mul, .div][code.toNat]?

/-- The code that stands for no register. -/
def noRegister : BitVec 4 := 0xF

def wordBytes (value : Word) : List (BitVec 8) :=
  (List.range 8).map fun index => value.extractLsb' (8 * index) 8

def encode : Instruction Word → List (BitVec 8)
  | .halt => [0x00]
  | .nop => [0x10]
  | .cmov condition source destination =>
      [0x2#4 ++ condition.code, source.code ++ destination.code]
  | .irmovq immediate destination =>
      0x30 :: (noRegister ++ destination.code) :: wordBytes immediate
  | .rmmovq source base displacement =>
      0x40 :: (source.code ++ base.code) :: wordBytes displacement
  | .mrmovq base displacement destination =>
      0x50 :: (destination.code ++ base.code) :: wordBytes displacement
  | .opq operation source destination =>
      [0x6#4 ++ operation.code, source.code ++ destination.code]
  | .jump condition target => (0x7#4 ++ condition.code) :: wordBytes target
  | .call target => 0x80 :: wordBytes target
  | .ret => [0x90]
  | .pushq source => [0xA0, source.code ++ noRegister]
  | .popq destination => [0xB0, destination.code ++ noRegister]

def Instruction.size {value : Type} : Instruction value → Nat
  | .halt | .nop | .ret => 1
  | .cmov .. | .opq .. | .pushq .. | .popq .. => 2
  | .jump .. | .call .. => 9
  | .irmovq .. | .rmmovq .. | .mrmovq .. => 10

/-- The instruction with the given four half bytes; `near` is the word behind
the first byte, `far` the word behind the second. -/
def decode (opcode function high low : BitVec 4) (near far : Word) :
    Option (Instruction Word) :=
  match opcode.toNat with
  | 0x0 => if function = 0 then some .halt else none
  | 0x1 => if function = 0 then some .nop else none
  | 0x2 => do
      let condition ← Condition.ofCode function
      let source ← Register.ofCode high
      let destination ← Register.ofCode low
      some (.cmov condition source destination)
  | 0x3 => do
      let destination ← Register.ofCode low
      if function = 0 ∧ high = noRegister then some (.irmovq far destination)
      else none
  | 0x4 => do
      let source ← Register.ofCode high
      let base ← Register.ofCode low
      if function = 0 then some (.rmmovq source base far) else none
  | 0x5 => do
      let destination ← Register.ofCode high
      let base ← Register.ofCode low
      if function = 0 then some (.mrmovq base far destination) else none
  | 0x6 => do
      let operation ← Operation.ofCode function
      let source ← Register.ofCode high
      let destination ← Register.ofCode low
      some (.opq operation source destination)
  | 0x7 => do
      let condition ← Condition.ofCode function
      some (.jump condition near)
  | 0x8 => if function = 0 then some (.call near) else none
  | 0x9 => if function = 0 then some .ret else none
  | 0xA => do
      let source ← Register.ofCode high
      if function = 0 ∧ low = noRegister then some (.pushq source) else none
  | 0xB => do
      let destination ← Register.ofCode high
      if function = 0 ∧ low = noRegister then some (.popq destination) else none
  | _ => none

/-- The instruction at an address and the address behind it. -/
def fetch (memory : Bytes) (pc : Word) : Option (Instruction Word × Word) := do
  let first := memory pc
  let second := memory (pc + 1)
  let instruction ← decode (first.extractLsb' 4 4) (first.extractLsb' 0 4)
    (second.extractLsb' 4 4) (second.extractLsb' 0 4)
    (readWord memory (pc + 1)) (readWord memory (pc + 2))
  some (instruction, pc + BitVec.ofNat 64 instruction.size)

/-- The bytes stand in memory from an address on. -/
def Placed (memory : Bytes) : Word → List (BitVec 8) → Prop
  | _, [] => True
  | place, byte :: rest => memory place = byte ∧ Placed memory (place + 1) rest

@[simp] theorem Register.ofCode_code (register : Register) :
    Register.ofCode register.code = some register := by
  cases register <;> rfl

@[simp] theorem Condition.ofCode_code (condition : Condition) :
    Condition.ofCode condition.code = some condition := by
  cases condition <;> rfl

@[simp] theorem Operation.ofCode_code (operation : Operation) :
    Operation.ofCode operation.code = some operation := by
  cases operation <;> rfl

theorem encode_length (instruction : Instruction Word) :
    (encode instruction).length = instruction.size := by
  cases instruction <;> rfl

section Placed

variable {memory : Bytes} {place : Word}

theorem Placed.byte {bytes : List (BitVec 8)} (placed : Placed memory place bytes)
    {index : Nat} {byte : BitVec 8} (at_index : bytes[index]? = some byte) :
    memory (place + BitVec.ofNat 64 index) = byte := by
  induction bytes generalizing place index with
  | nil => cases at_index
  | cons first rest ih =>
      obtain ⟨here, behind⟩ := placed
      cases index with
      | zero =>
          cases at_index
          rw [BitVec.add_zero]
          exact here
      | succ index =>
          have later : memory (place + 1 + BitVec.ofNat 64 index) = byte :=
            ih behind at_index
          rw [← later, BitVec.ofNat_add, BitVec.add_assoc,
            BitVec.add_comm 1]
          rfl

theorem Placed.readWord {value : Word} (placed : Placed memory place (wordBytes value)) :
    readWord memory place = value := by
  have bytes : Y86.readWord memory place =
      joinBytes fun index => value.extractLsb' (8 * index) 8 := by
    apply joinBytes_congr
    intro index inside
    apply placed.byte
    simp [wordBytes, inside]
  rw [bytes, joinBytes_extract]

@[simp] theorem high_append (high low : BitVec 4) :
    (high ++ low).extractLsb' 4 4 = high := by
  revert high low
  decide

@[simp] theorem low_append (high low : BitVec 4) :
    (high ++ low).extractLsb' 0 4 = low := by
  revert high low
  decide

theorem Placed.fetch {instruction : Instruction Word}
    (placed : Placed memory place (encode instruction)) :
    fetch memory place =
      some (instruction, place + BitVec.ofNat 64 instruction.size) := by
  cases instruction with
  | halt | nop | ret =>
      obtain ⟨first, _⟩ := placed
      simp only [Y86.fetch, first]
      rfl
  | cmov | opq | pushq | popq =>
      obtain ⟨first, second, _⟩ := placed
      simp only [Y86.fetch, first, second]
      simp [decode, Instruction.size]
  | irmovq | rmmovq | mrmovq =>
      obtain ⟨first, second, immediate⟩ := placed
      simp only [Y86.fetch, first, second]
      rw [add_assoc] at immediate
      simp [decode, Instruction.size]
      exact immediate.readWord
  | jump | call =>
      obtain ⟨first, immediate⟩ := placed
      simp only [Y86.fetch, first]
      simp [decode, Instruction.size]
      exact immediate.readWord

end Placed

/-- A step of the machine; none if it halts or fetches no instruction. -/
def step (machine : Machine) : Option Machine := do
  let (instruction, next) ← fetch machine.memory machine.pc
  execute machine next instruction

/-- The machine gets from one state to the other. -/
def Reaches : Machine → Machine → Prop :=
  Relation.ReflTransGen fun machine after => step machine = some after

/-- The first state at an address, within so many steps. -/
def runTo (target : Word) : Nat → Machine → Option Machine
  | 0, _ => none
  | steps + 1, machine =>
      if machine.pc = target then some machine
      else do
        let after ← step machine
        runTo target steps after

/-- A machine that stops at an address gets there in one state only. -/
theorem runTo_unique {target : Word} {steps : Nat} {machine last after : Machine}
    (run : runTo target steps machine = some last) (stops : step last = none)
    (reaches : Reaches machine after) (arrived : after.pc = target) :
    after = last := by
  induction steps generalizing machine with
  | zero => cases run
  | succ steps ih =>
      rw [runTo] at run
      split at run
      · cases run
        rcases Relation.ReflTransGen.cases_head reaches with same | ⟨next, first, _⟩
        · exact same.symm
        · rw [stops] at first
          cases first
      · rename_i elsewhere
        obtain ⟨next, taken, onward⟩ := Option.bind_eq_some_iff.mp run
        rcases Relation.ReflTransGen.cases_head reaches with
          rfl | ⟨other, first, rest⟩
        · exact (elsewhere arrived).elim
        · rw [taken] at first
          cases first
          exact ih onward rest

end SystemsLabs.Y86
