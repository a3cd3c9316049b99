import SystemsLabs.Library.X86.Machine

/-!
# The x86-64 functions of `lab1`

`rep` in front of `ret` does nothing.
-/

namespace SystemsLabs.Assembly

open X86

inductive CollatzLabel where
  | collatz | Lloop | Leven | Lodd | Lzero | Ldone
  deriving DecidableEq

/-- `lab1/collatz.s`. -/
def collatz : Listing CollatzLabel :=
  [(.collatz, [
      .operate .xor (.register .rsi) .rsi,
      .compare .sub (.immediate 1) .rdi,
      .jump .e .Lzero]),
    (.Lloop, [
      .compare .sub (.immediate 1) .rdi,
      .jump .e .Ldone,
      .compare .and (.immediate 1) .rdi,
      .jump .e .Leven,
      .jump .always .Lodd]),
    (.Leven, [
      .inc .rsi,
      .shr 1 .rdi,
      .jump .always .Lloop]),
    (.Lodd, [
      .inc .rsi,
      .imul (.immediate 3) .rdi,
      .operate .add (.immediate 1) .rdi,
      .jump .always .Lloop]),
    (.Lzero, [
      .mov (.immediate 0) .rax,
      .jump .always .Ldone]),
    (.Ldone, [
      .mov (.register .rsi) .rax,
      .ret])]

inductive ArrayMaxLabel where
  | arraymax | Lloop | Lskip | Ldone
  deriving DecidableEq

/-- `lab1/arraymax.s`. -/
def arraymax : Listing ArrayMaxLabel :=
  [(.arraymax, [
      .mov (.immediate (BitVec.intMin 64)) .rax,
      .compare .and (.register .rsi) .rsi,
      .jump .le .Ldone,
      .dec .rsi]),
    (.Lloop, [
      .load .rdi .rsi 8 .rcx,
      .compare .sub (.register .rcx) .rax,
      .jump .ge .Lskip,
      .mov (.register .rcx) .rax]),
    (.Lskip, [
      .dec .rsi,
      .jump .ge .Lloop]),
    (.Ldone, [
      .ret])]

/-- A machine that has just called a function with two arguments. -/
def called (memory : Y86.Bytes) (rdi rsi : Y86.Word) : Machine where
  register
    | .rdi => rdi
    | .rsi => rsi
    | .rsp => 0x7000
    | _ => 0
  flags := { zero := none, sign := none, overflow := none }
  memory := memory
  place := .inside 0

end SystemsLabs.Assembly
