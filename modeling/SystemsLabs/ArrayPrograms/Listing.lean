import SystemsLabs.Library.Y86.Cells

/-!
# The Y86 programs of `lab2`

The code begins at `.pos 0x100`, and the labels of the data at `.pos 0x1000` are
constants.  What the data words hold is left open.
-/

namespace SystemsLabs.ArrayPrograms

open Y86

/-- The label `a`: the address of the array is stored here. -/
def a : Word := 0x1000

/-- The label `aSize`: the number of words of the array is stored here. -/
def aSize : Word := 0x1008

/-- The label `result` of `max_64.ys`. -/
def result : Word := 0x1010

inductive SortLabel where
  | sort | outer | inner | skipSwap | endInner | done
  deriving DecidableEq

/-- `lab2/sort_64.ys`. -/
def sort64 : Listing SortLabel :=
  [(.sort, [
      .irmovq (.word aSize) .rax,
      .mrmovq .rax 0 .rax,
      .irmovq (.word a) .rcx,
      .mrmovq .rcx 0 .rcx]),
    (.outer, [
      .irmovq (.word 1) .rdi,
      .opq .sub .rdi .rax,
      .jump .l (.address .done),
      .mrmovq .rcx 0 .rbx,
      .cmov .always .rax .rdx,
      .cmov .always .rcx .rsi,
      .irmovq (.word 8) .rdi,
      .opq .add .rdi .rsi]),
    (.inner, [
      .irmovq (.word 1) .rdi,
      .opq .sub .rdi .rdx,
      .jump .l (.address .endInner),
      .mrmovq .rsi 0 .rdi,
      .cmov .always .rdi .rbp,
      .opq .sub .rbx .rbp,
      .jump .ge (.address .skipSwap),
      .rmmovq .rbx .rsi 0,
      .rmmovq .rdi .rcx 0,
      .cmov .always .rdi .rbx]),
    (.skipSwap, [
      .irmovq (.word 8) .rdi,
      .opq .add .rdi .rsi,
      .jump .always (.address .inner)]),
    (.endInner, [
      .irmovq (.word 8) .rdi,
      .opq .add .rdi .rcx,
      .jump .always (.address .outer)]),
    (.done, [
      .halt])]

inductive MaxLabel where
  | max | loop | done
  deriving DecidableEq

/-- `lab2/max_64.ys`. -/
def max64 : Listing MaxLabel :=
  [(.max, [
      .irmovq (.word a) .rbx,
      .mrmovq .rbx 0 .rbx,
      .irmovq (.word aSize) .rcx,
      .mrmovq .rcx 0 .rcx,
      .irmovq (.word 0x80000000) .rax,
      .irmovq (.word 4) .rdi]),
    (.loop, [
      .irmovq (.word 1) .rdx,
      .opq .sub .rdx .rcx,
      .jump .l (.address .done),
      .mrmovq .rbx 0 .rdx,
      .opq .add .rdi .rbx,
      .cmov .always .rdx .rsi,
      .opq .sub .rax .rsi,
      .jump .le (.address .loop),
      .cmov .always .rdx .rax,
      .jump .always (.address .loop)]),
    (.done, [
      .irmovq (.word result) .rbx,
      .rmmovq .rax .rbx 0,
      .halt])]

def sort64Program : Program := sort64.assemble 0x100

def max64Program : Program := max64.assemble 0x100

/-- The data words, with an array at `.pos 0x2000`. -/
def dataBytes (array : List Word) : Bytes :=
  array.zipIdx.foldl
    (fun memory (word, index) => writeWord memory (cellAt 0x2000 index) word)
    (writeWord (writeWord (fun _ => 0) a 0x2000) aSize
      (BitVec.ofNat 64 array.length))

/-- The machine at the start of a program. -/
def startOf (program : Program) (array : List Word) : Machine where
  register _ := 0
  flags := { zero := false, sign := false, overflow := false }
  memory := program.load (dataBytes array)
  pc := 0x100

end SystemsLabs.ArrayPrograms
