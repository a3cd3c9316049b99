import SystemsLabs.Library.Y86.Program

/-!
# The Y86 programs of `lab3`

The listings begin at `.pos 0x1000`, where `quickSort` stands.
-/

namespace SystemsLabs.QuickSort

open Y86

inductive Label where
  | quickSort | LN1 | LN3 | LN4 | LN5 | LN6
  deriving DecidableEq

/-- `lab3/sort.ys`. -/
def sort : Listing Label :=
  [(.quickSort, [
      .pushq .r12,
      .pushq .rbp,
      .pushq .rbx,
      .cmov .always .rsi .rbp,
      .irmovq (.word 1) .r9,
      .opq .sub .rsi .r9,
      .jump .ge (.address .LN1),
      .irmovq (.word 8) .r9,
      .cmov .always .rsi .rcx,
      .opq .mul .r9 .rcx,
      .opq .sub .r9 .rcx,
      .opq .add .rdi .rcx,
      .mrmovq .rcx 0 .r8,
      .cmov .always .rdi .r9,
      .opq .sub .rcx .r9,
      .jump .le (.address .LN6),
      .cmov .always .rdi .rbx]),
    (.LN3, [
      .mrmovq .rcx 0 .rax,
      .mrmovq .rbx 0 .rdx,
      .rmmovq .rdx .rcx 0,
      .rmmovq .rax .rbx 0,
      .cmov .always .rbx .r12,
      .opq .sub .rdi .r12,
      .irmovq (.word 8) .r9,
      .opq .div .r9 .r12,
      .cmov .always .r12 .rsi,
      .call (.address .quickSort),
      .opq .sub .r12 .rbp,
      .cmov .always .rbp .rsi,
      .irmovq (.word 1) .r9,
      .opq .sub .r9 .rsi,
      .irmovq (.word 8) .r9,
      .cmov .always .rbx .rdi,
      .opq .add .r9 .rdi,
      .call (.address .quickSort),
      .jump .always (.address .LN1)]),
    (.LN6, [
      .cmov .always .rdi .rax,
      .cmov .always .rdi .rbx]),
    (.LN5, [
      .mrmovq .rax 0 .rdx,
      .cmov .always .r8 .r9,
      .opq .sub .rdx .r9,
      .jump .l (.address .LN4),
      .mrmovq .rbx 0 .rsi,
      .rmmovq .rsi .rax 0,
      .rmmovq .rdx .rbx 0,
      .irmovq (.word 8) .r9,
      .opq .add .r9 .rbx]),
    (.LN4, [
      .irmovq (.word 8) .r9,
      .opq .add .r9 .rax,
      .cmov .always .rcx .r9,
      .opq .sub .rax .r9,
      .jump .le (.address .LN3),
      .jump .always (.address .LN5)]),
    (.LN1, [
      .popq .rbx,
      .popq .rbp,
      .popq .r12,
      .ret])]

/-- `lab3/sort_optimal.ys`; the line that begins with `//` is a comment. -/
def sortOptimal : Listing Label :=
  [(.quickSort, [
      .irmovq (.word 1) .r9,
      .opq .sub .rsi .r9,
      .jump .ge (.address .LN1),
      .pushq .r12,
      .pushq .rbp,
      .pushq .rbx,
      .cmov .always .rsi .rbp,
      .irmovq (.word 8) .r9,
      .cmov .always .rsi .rcx,
      .opq .mul .r9 .rcx,
      .opq .sub .r9 .rcx,
      .cmov .always .rdi .r9,
      .opq .add .rdi .rcx,
      .mrmovq .rcx 0 .r8,
      .opq .sub .rcx .r9,
      .jump .le (.address .LN6),
      .cmov .always .rdi .rbx]),
    (.LN3, [
      .mrmovq .rcx 0 .rax,
      .mrmovq .rbx 0 .rdx,
      .rmmovq .rax .rbx 0,
      .cmov .always .rbx .r12,
      .rmmovq .rdx .rcx 0,
      .opq .sub .rdi .r12,
      .irmovq (.word 8) .r9,
      .opq .div .r9 .r12,
      .cmov .always .r12 .rsi,
      .opq .sub .r12 .rbp,
      .call (.address .quickSort),
      .irmovq (.word 1) .r9,
      .cmov .always .rbp .rsi,
      .cmov .always .rbx .rdi,
      .opq .sub .r9 .rsi,
      .opq .add .r9 .rdi,
      .call (.address .quickSort),
      .popq .rbx,
      .popq .rbp,
      .popq .r12,
      .jump .always (.address .LN1)]),
    (.LN6, [
      .cmov .always .rdi .rax,
      .cmov .always .rdi .rbx]),
    (.LN5, [
      .mrmovq .rax 0 .rdx,
      .cmov .always .r8 .r9,
      .opq .sub .rdx .r9,
      .jump .l (.address .LN4),
      .mrmovq .rbx 0 .rsi,
      .irmovq (.word 8) .r9,
      .rmmovq .rdx .rbx 0,
      .rmmovq .rsi .rax 0,
      .opq .add .r9 .rbx]),
    (.LN4, [
      .irmovq (.word 8) .r9,
      .opq .add .r9 .rax,
      .cmov .always .rcx .r9,
      .opq .sub .rax .r9,
      .jump .le (.address .LN3),
      .jump .always (.address .LN5)]),
    (.LN1, [
      .ret])]

/-- `lab3/sort_reorder.ys`, line by line the same. -/
def sortReorder : Listing Label := sortOptimal

end SystemsLabs.QuickSort
