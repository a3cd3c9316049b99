import SystemsLabs.Library.Y86.Words
import Mathlib.Logic.Function.Basic

/-!
# The Y86-64 machine

Instructions are fetched from memory and executed one at a time.  The type of
the values in an instruction is a parameter: an assembler uses labels there.
-/

namespace SystemsLabs.Y86

inductive Register where
  | rax | rcx | rdx | rbx | rsp | rbp | rsi | rdi
  | r8 | r9 | r10 | r11 | r12 | r13 | r14
  deriving DecidableEq

inductive Condition where
  | always | le | l | e | ne | ge | g
  deriving DecidableEq

inductive Operation where
  | add | sub | and | xor | mul | div
  deriving DecidableEq

/-- `cmov .always` is `rrmovq`; the base of a memory operand comes before its
displacement. -/
inductive Instruction (value : Type) where
  | halt
  | nop
  | cmov (condition : Condition) (source destination : Register)
  | irmovq (immediate : value) (destination : Register)
  | rmmovq (source base : Register) (displacement : Word)
  | mrmovq (base : Register) (displacement : Word) (destination : Register)
  | opq (operation : Operation) (source destination : Register)
  | jump (condition : Condition) (target : value)
  | call (target : value)
  | ret
  | pushq (source : Register)
  | popq (destination : Register)
  deriving DecidableEq

structure Flags where
  zero : Bool
  sign : Bool
  overflow : Bool

structure Machine where
  register : Register → Word
  flags : Flags
  memory : Bytes
  pc : Word

/-- A register of the machine. -/
instance : CoeFun Machine fun _ => Register → Word := ⟨Machine.register⟩

def Condition.holds (flags : Flags) : Condition → Bool
  | .always => true
  | .le => (flags.sign ^^ flags.overflow) || flags.zero
  | .l => flags.sign ^^ flags.overflow
  | .e => flags.zero
  | .ne => !flags.zero
  | .ge => !(flags.sign ^^ flags.overflow)
  | .g => !(flags.sign ^^ flags.overflow) && !flags.zero

/-- `OPq rA, rB` computes `rB op rA`. -/
def Operation.apply (rA rB : Word) : Operation → Word
  | .add => rB + rA
  | .sub => rB - rA
  | .and => rB &&& rA
  | .xor => rB ^^^ rA
  | .mul => rB * rA
  | .div => rB.sdiv rA

def Operation.overflow (rA rB : Word) : Operation → Bool
  | .add => rB.saddOverflow rA
  | .sub => rB.ssubOverflow rA
  | .and => false
  | .xor => false
  | .mul => rB.smulOverflow rA
  | .div => rB.sdivOverflow rA

def Operation.flags (operation : Operation) (rA rB : Word) : Flags where
  zero := operation.apply rA rB == 0
  sign := (operation.apply rA rB).msb
  overflow := operation.overflow rA rB

/-- One instruction; `next` is the address behind it. -/
def execute (machine : Machine) (next : Word) :
    Instruction Word → Option Machine
  | .halt => none
  | .nop => some { machine with pc := next }
  | .cmov condition source destination =>
      some { machine with
        register :=
          if condition.holds machine.flags then
            Function.update machine.register destination
              (machine.register source)
          else machine.register
        pc := next }
  | .irmovq immediate destination =>
      some { machine with
        register := Function.update machine.register destination immediate
        pc := next }
  | .rmmovq source base displacement =>
      some { machine with
        memory := writeWord machine.memory
          (machine.register base + displacement) (machine.register source)
        pc := next }
  | .mrmovq base displacement destination =>
      some { machine with
        register := Function.update machine.register destination
          (readWord machine.memory (machine.register base + displacement))
        pc := next }
  | .opq operation source destination =>
      let rA := machine.register source
      let rB := machine.register destination
      some { machine with
        register :=
          Function.update machine.register destination (operation.apply rA rB)
        flags := operation.flags rA rB
        pc := next }
  | .jump condition target =>
      some { machine with
        pc := if condition.holds machine.flags then target else next }
  | .call target =>
      let rsp := machine.register .rsp - 8
      some { machine with
        register := Function.update machine.register .rsp rsp
        memory := writeWord machine.memory rsp next
        pc := target }
  | .ret =>
      let rsp := machine.register .rsp
      some { machine with
        register := Function.update machine.register .rsp (rsp + 8)
        pc := readWord machine.memory rsp }
  | .pushq source =>
      let rsp := machine.register .rsp - 8
      some { machine with
        register := Function.update machine.register .rsp rsp
        memory := writeWord machine.memory rsp (machine.register source)
        pc := next }
  | .popq destination =>
      let rsp := machine.register .rsp
      some { machine with
        register := Function.update (Function.update machine.register .rsp (rsp + 8))
          destination (readWord machine.memory rsp)
        pc := next }

/-- The address of the word that an instruction stores, if any. -/
def storedAt (machine : Machine) : Instruction Word → Option Word
  | .rmmovq _ base displacement => some (machine.register base + displacement)
  | .call _ => some (machine.register .rsp - 8)
  | .pushq _ => some (machine.register .rsp - 8)
  | _ => none

theorem execute_stores {machine after : Machine} {next : Word}
    {instruction : Instruction Word} {region : Set Word}
    (executed : execute machine next instruction = some after)
    (inside : ∀ address, storedAt machine instruction = some address →
      span address 8 ⊆ region) :
    SameOutside region machine.memory after.memory := by
  have written : ∀ address value, span address 8 ⊆ region →
      SameOutside region machine.memory
        (writeWord machine.memory address value) :=
    fun address value within =>
      (writeWord_sameOutside machine.memory address value).mono within
  cases instruction with
  | halt => cases executed
  | rmmovq source base displacement =>
      cases executed
      exact written _ _ (inside _ rfl)
  | call target =>
      cases executed
      exact written _ _ (inside _ rfl)
  | pushq source =>
      cases executed
      exact written _ _ (inside _ rfl)
  | _ =>
      cases executed
      exact .refl region _

/-- Subtraction sets the flags for a signed comparison of the operands. -/
theorem sub_holds_l (rA rB : Word) :
    Condition.l.holds (Operation.sub.flags rA rB) =
      decide (rB.toInt < rA.toInt) := by
  have low := rA.le_toInt
  have high := rA.toInt_lt
  have lower := rB.le_toInt
  have higher := rB.toInt_lt
  have difference : (rB - rA).toInt = (rB.toInt - rA.toInt).bmod (2 ^ 64) :=
    BitVec.toInt_sub
  simp only [Condition.holds, Operation.flags, Operation.apply,
    Operation.overflow, BitVec.msb_eq_toInt, BitVec.ssubOverflow, difference]
  rw [Int.bmod_def]
  grind

theorem sub_holds_ge (rA rB : Word) :
    Condition.ge.holds (Operation.sub.flags rA rB) =
      decide (rA.toInt ≤ rB.toInt) := by
  have less := sub_holds_l rA rB
  simp only [Condition.holds] at less ⊢
  rw [less, ← decide_not, decide_eq_decide]
  exact not_lt

theorem sub_holds_le (rA rB : Word) :
    Condition.le.holds (Operation.sub.flags rA rB) =
      decide (rB.toInt ≤ rA.toInt) := by
  have less := sub_holds_l rA rB
  have zero : (Operation.sub.flags rA rB).zero = decide (rB = rA) := by
    apply decide_eq_decide.mpr
    exact sub_eq_zero
  simp only [Condition.holds] at less ⊢
  rw [less, zero, ← Bool.decide_or, decide_eq_decide]
  rw [le_iff_lt_or_eq, BitVec.toInt_inj]

end SystemsLabs.Y86
