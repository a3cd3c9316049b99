import SystemsLabs.Library.Y86.Loads

/-!
# The sum of absolute values of `sumjmp.ys`

`absSum` adds the magnitudes of the words of an array, and the program calls it
for the four words behind its code.  The code begins at address 0.
-/

namespace SystemsLabs.ArrayPrograms

open Y86

/-- The label `array` of `sumjmp.ys`. -/
def array : Word := 0x80

/-- The label `stack` of `sumjmp.ys`. -/
def stack : Word := 0x200

inductive AbsSumLabel where
  | entry | main | absSum | loop | pos | test
  deriving DecidableEq

/-- `lab2/sumjmp.ys`. -/
def sumjmp : Listing AbsSumLabel :=
  [(.entry, [
      .irmovq (.word stack) .rsp,
      .call (.address .main),
      .halt]),
    (.main, [
      .irmovq (.word array) .rdi,
      .irmovq (.word 4) .rsi,
      .call (.address .absSum),
      .ret]),
    (.absSum, [
      .irmovq (.word 8) .r8,
      .irmovq (.word 1) .r9,
      .opq .xor .rax .rax,
      .opq .and .rsi .rsi,
      .jump .always (.address .test)]),
    (.loop, [
      .mrmovq .rdi 0 .r10,
      .opq .xor .r11 .r11,
      .opq .sub .r10 .r11,
      .jump .le (.address .pos),
      .cmov .always .r11 .r10]),
    (.pos, [
      .opq .add .r10 .rax,
      .opq .add .r8 .rdi,
      .opq .sub .r9 .rsi]),
    (.test, [
      .jump .ne (.address .loop),
      .ret])]

def sumjmpProgram : Program := sumjmp.assemble 0

/-- The code is that of `sumjmp.mem`. -/
example : sumjmpProgram.code.flatMap encode =
    [0x30, 0xf4, 0x00, 0x02, 0, 0, 0, 0, 0, 0, 0x80, 0x14, 0, 0, 0, 0, 0, 0, 0,
      0, 0x30, 0xf7, 0x80, 0, 0, 0, 0, 0, 0, 0, 0x30, 0xf6, 0x04, 0, 0, 0, 0, 0,
      0, 0, 0x80, 0x32, 0, 0, 0, 0, 0, 0, 0, 0x90, 0x30, 0xf8, 0x08, 0, 0, 0, 0,
      0, 0, 0, 0x30, 0xf9, 0x01, 0, 0, 0, 0, 0, 0, 0, 0x63, 0x00, 0x62, 0x66,
      0x70, 0x72, 0, 0, 0, 0, 0, 0, 0, 0x50, 0xa7, 0, 0, 0, 0, 0, 0, 0, 0, 0x63,
      0xbb, 0x61, 0xab, 0x71, 0x6c, 0, 0, 0, 0, 0, 0, 0, 0x20, 0xba, 0x60, 0xa0,
      0x60, 0x87, 0x61, 0x96, 0x74, 0x53, 0, 0, 0, 0, 0, 0, 0, 0x90] := by
  decide +kernel

/-- What the loop adds for a word. -/
def magnitude (word : Word) : Word :=
  if 0 ≤ word.toInt then word else 0 - word

/-- The sum of the absolute values. -/
def absTotal (words : List Word) : Nat :=
  words.foldl (fun total word => total + word.toInt.natAbs) 0

/-- The registers that `absSum` does not use. -/
def savedRegisters (machine : Machine) : List Word :=
  [machine .rcx, machine .rdx, machine .rbx, machine .rbp, machine .r12,
    machine .r13, machine .r14]

theorem magnitude_eq (word : Word) :
    magnitude word = BitVec.ofNat 64 word.toInt.natAbs := by
  have self : BitVec.ofInt 64 word.toInt = word := BitVec.ofInt_toInt
  rw [magnitude]
  split
  · rename_i nonneg
    rw [← BitVec.ofInt_natCast, Int.natAbs_of_nonneg nonneg, self]
  · rename_i negative
    have absolute : (word.toInt.natAbs : Int) = -word.toInt := by omega
    rw [← BitVec.ofInt_natCast, absolute, BitVec.ofInt_neg, self]
    exact BitVec.zero_sub word

theorem foldl_magnitude (words : List Word) (total : Nat) :
    words.foldl (fun sum word => sum + magnitude word) (BitVec.ofNat 64 total) =
      BitVec.ofNat 64
        (words.foldl (fun total word => total + word.toInt.natAbs) total) := by
  induction words generalizing total with
  | nil => rfl
  | cons word words ih =>
      rw [List.foldl_cons, List.foldl_cons, magnitude_eq, ← BitVec.ofNat_add, ih]

section Pieces

variable {before : Machine}

theorem absSum_start (loaded : sumjmpProgram.Loaded before.memory)
    (atStart : before.pc = 0x32) :
    ∃ after, GetsLoading sumjmpProgram before [] after ∧
      after.memory = before.memory ∧
      savedRegisters after = savedRegisters before ∧
      after .rsp = before .rsp ∧ after .rdi = before .rdi ∧
      after .rsi = before .rsi ∧ after .r8 = 8 ∧ after .r9 = 1 ∧
      after .rax = 0 ∧ after.flags.zero = (before .rsi == 0) ∧
      after.pc = 0x72 := by
  obtain ⟨register, flags, memory, _⟩ := before
  subst atStart
  have zero : register .rax ^^^ register .rax = 0 := BitVec.xor_self
  have same : (register .rsi &&& register .rsi == 0) = (register .rsi == 0) := by
    rw [BitVec.and_self]
  exact ⟨_, loaded.runsLoading 5 [] [] 0x72 rfl rfl (by simp) rfl, rfl, rfl,
    rfl, rfl, BitVec.and_self, rfl, rfl, zero, same, rfl⟩

theorem absSum_add (loaded : sumjmpProgram.Loaded before.memory)
    (atLoop : before.pc = 0x53) :
    ∃ after, GetsLoading sumjmpProgram before [before .rdi] after ∧
      after.memory = before.memory ∧
      savedRegisters after = savedRegisters before ∧
      after .rsp = before .rsp ∧ after .rdi = before .rdi + before .r8 ∧
      after .rsi = before .rsi - before .r9 ∧ after .r8 = before .r8 ∧
      after .r9 = before .r9 ∧
      after .rax = before .rax +
        magnitude (readWord before.memory (before .rdi)) ∧
      after.flags.zero = (before .rsi - before .r9 == 0) ∧
      after.pc = 0x72 := by
  obtain ⟨register, flags, memory, _⟩ := before
  subst atLoop
  have place : register .rdi + 0 = register .rdi := BitVec.add_zero _
  have loads := congrArg (fun place => some [place]) place
  have word := congrArg (readWord memory) place
  have zero : register .r11 ^^^ register .r11 = 0 := BitVec.xor_self
  have le := sub_holds_le (readWord memory (register .rdi + 0))
    (register .r11 ^^^ register .r11)
  rw [zero, word] at le
  by_cases nonneg : 0 ≤ (readWord memory (register .rdi)).toInt
  · have taken := le.trans (decide_eq_true nonneg)
    have value : magnitude (readWord memory (register .rdi)) =
        readWord memory (register .rdi) := if_pos nonneg
    rw [← zero, ← word] at taken
    have compared := loaded.runsLoading 4 [] [register .rdi] 0x6C rfl loads
      (by simp) (if_pos taken)
    have added := compared.2.runsLoading 3 [] [] 0x72 rfl rfl (by simp) rfl
    have sum : register .rax + readWord memory (register .rdi + 0) =
        register .rax + magnitude (readWord memory (register .rdi)) := by
      rw [word, value]
    exact ⟨_, compared.append added, rfl, rfl, rfl, rfl, rfl, rfl, rfl, sum, rfl,
      rfl⟩
  · have falls := le.trans (decide_eq_false nonneg)
    have value : magnitude (readWord memory (register .rdi)) =
        0 - readWord memory (register .rdi) := if_neg nonneg
    rw [← zero, ← word] at falls
    have compared := loaded.runsLoading 4 [] [register .rdi] 0x6A rfl loads
      (by simp) (if_neg (Bool.eq_false_iff.mp falls))
    have added := compared.2.runsLoading 4 [] [] 0x72 rfl rfl (by simp) rfl
    have sum : register .rax + ((register .r11 ^^^ register .r11) -
          readWord memory (register .rdi + 0)) =
        register .rax + magnitude (readWord memory (register .rdi)) := by
      rw [zero, word, value]
    exact ⟨_, compared.append added, rfl, rfl, rfl, rfl, rfl, rfl, rfl, sum, rfl,
      rfl⟩

theorem absSum_again (loaded : sumjmpProgram.Loaded before.memory)
    (atTest : before.pc = 0x72) (more : before.flags.zero = false) :
    ∃ after, GetsLoading sumjmpProgram before [] after ∧
      after.memory = before.memory ∧ after.register = before.register ∧
      after.pc = 0x53 := by
  obtain ⟨register, flags, memory, _⟩ := before
  subst atTest
  have taken : Condition.ne.holds flags = true := by
    rw [Condition.holds, more]
    rfl
  exact ⟨_, loaded.runsLoading 1 [] [] 0x53 rfl rfl (by simp) (if_pos taken),
    rfl, rfl, rfl⟩

theorem absSum_return (loaded : sumjmpProgram.Loaded before.memory)
    (atTest : before.pc = 0x72) (none : before.flags.zero = true) :
    ∃ after, GetsLoading sumjmpProgram before [before .rsp] after ∧
      after.memory = before.memory ∧
      savedRegisters after = savedRegisters before ∧
      after .rsp = before .rsp + 8 ∧ after .rax = before .rax ∧
      after.pc = readWord before.memory (before .rsp) := by
  obtain ⟨register, flags, memory, _⟩ := before
  subst atTest
  have falls : Condition.ne.holds flags = false := by
    rw [Condition.holds, none]
    rfl
  have fallen := loaded.runsLoading 1 [] [] 0x7B rfl rfl (by simp)
    (if_neg (Bool.eq_false_iff.mp falls))
  have returned := fallen.2.runsLoading 1 [] [register .rsp]
    (readWord memory (register .rsp)) rfl rfl (by simp) rfl
  exact ⟨_, fallen.append returned, rfl, rfl, rfl, rfl, rfl⟩

end Pieces

/-- The machine in front of the test, with `count` words left. -/
structure AtTest (base : Word) (first count : Nat) (machine : Machine) :
    Prop where
  loaded : sumjmpProgram.Loaded machine.memory
  pc : machine.pc = 0x72
  rdi : machine .rdi = cellAt base first
  rsi : machine .rsi = BitVec.ofNat 64 count
  r8 : machine .r8 = 8
  r9 : machine .r9 = 1
  zero : machine.flags.zero = (machine .rsi == 0)

/-- The loop adds the magnitudes of the words that are left. -/
theorem absSum_loop {base : Word} {count : Nat} (small : count < 2 ^ 64) :
    ∀ {first : Nat} {before : Machine}, AtTest base first count before →
      ∃ after, GetsLoading sumjmpProgram before
          (cellPlaces base first count ++ [before .rsp]) after ∧
        after.memory = before.memory ∧
        savedRegisters after = savedRegisters before ∧
        after .rsp = before .rsp + 8 ∧
        after .rax = ((cellPlaces base first count).map
          (readWord before.memory)).foldl
            (fun sum word => sum + magnitude word) (before .rax) ∧
        after.pc = readWord before.memory (before .rsp) := by
  induction count with
  | zero =>
      intro first before atTest
      have none : before.flags.zero = true := by
        rw [atTest.zero, atTest.rsi]
        rfl
      obtain ⟨after, returns, memory, saved, rsp, rax, pc⟩ :=
        absSum_return atTest.loaded atTest.pc none
      exact ⟨after, returns, memory, saved, rsp, rax, pc⟩
  | succ count ih =>
      intro first before atTest
      have nonzero : BitVec.ofNat 64 (count + 1) ≠ 0 := by
        intro same
        have value := congrArg BitVec.toNat same
        rw [BitVec.toNat_ofNat, Nat.mod_eq_of_lt small] at value
        exact Nat.succ_ne_zero count value
      have more : before.flags.zero = false := by
        rw [atTest.zero, atTest.rsi]
        exact beq_eq_false_iff_ne.mpr nonzero
      obtain ⟨entered, enters, memory₁, register, pc₁⟩ :=
        absSum_again atTest.loaded atTest.pc more
      obtain ⟨added, adds, memory₂, saved₂, rsp₂, rdi₂, rsi₂, r8₂, r9₂, rax₂,
        zero₂, pc₂⟩ := absSum_add enters.2 pc₁
      rw [register] at rsp₂ rdi₂ rsi₂ r8₂ r9₂ rax₂ zero₂ adds
      have memory := memory₂.trans memory₁
      have left : before .rsi - before .r9 = BitVec.ofNat 64 count := by
        rw [atTest.rsi, atTest.r9]
        exact ofNat_succ_sub_one count
      have next : AtTest base (first + 1) count added := by
        refine ⟨adds.2, pc₂, ?_, rsi₂.trans left, r8₂.trans atTest.r8,
          r9₂.trans atTest.r9, ?_⟩
        · rw [rdi₂, atTest.rdi, atTest.r8, cellAt_succ]
        · rw [zero₂, rsi₂]
      obtain ⟨after, rest, memory₃, saved₃, rsp₃, rax₃, pc₃⟩ :=
        ih (by omega) next
      have places : cellPlaces base first (count + 1) =
          [before .rdi] ++ cellPlaces base (first + 1) count := by
        rw [atTest.rdi]
        exact cellPlaces_succ base first count
      have same : savedRegisters entered = savedRegisters before := by
        rw [savedRegisters, register]
        rfl
      have runs := (enters.append adds).append rest
      rw [rsp₂] at runs rsp₃ pc₃
      rw [memory] at memory₃ rax₃ pc₃
      refine ⟨after, ?_, memory₃, saved₃.trans (saved₂.trans same), rsp₃, ?_,
        pc₃⟩
      · rw [places, List.append_assoc]
        exact runs
      · rw [rax₃, rax₂, memory₁, places, List.map_append, List.foldl_append]
        rfl

/-- What a call of `absSum` has done. -/
structure SumsUp (before after : Machine) : Prop where
  loads : Loads before
    (cellPlaces (before .rdi) 0 (before .rsi).toNat ++ [before .rsp]) after
  memory : after.memory = before.memory
  rax : after .rax = BitVec.ofNat 64
    (absTotal (words before.memory (before .rdi) (before .rsi).toNat))
  rsp : after .rsp = before .rsp + 8
  pc : after.pc = readWord before.memory (before .rsp)
  saved : savedRegisters after = savedRegisters before

theorem absSum_sums {before : Machine}
    (loaded : sumjmpProgram.Loaded before.memory)
    (atStart : before.pc = 0x32) :
    ∃ after, SumsUp before after ∧ sumjmpProgram.Loaded after.memory := by
  obtain ⟨start, starts, memory, saved, rsp, rdi, rsi, r8, r9, rax, zero, pc⟩ :=
    absSum_start loaded atStart
  have count : BitVec.ofNat 64 (before .rsi).toNat = before .rsi :=
    (BitVec.ofNat_toNat _ _).trans (BitVec.setWidth_eq _)
  have atTest : AtTest (before .rdi) 0 (before .rsi).toNat start :=
    ⟨starts.2, pc, rdi.trans (cellAt_zero _).symm, rsi.trans count.symm, r8, r9,
      rsi.symm ▸ zero⟩
  obtain ⟨after, loops, memory₁, saved₁, rsp₁, rax₁, pc₁⟩ :=
    absSum_loop (before .rsi).isLt atTest
  have runs := starts.append loops
  rw [rsp] at runs rsp₁ pc₁
  rw [memory] at memory₁ rax₁ pc₁
  refine ⟨after, ⟨runs.1, memory₁, ?_, rsp₁, pc₁, saved₁.trans saved⟩, runs.2⟩
  rw [rax₁, rax, map_cellPlaces]
  exact foldl_magnitude _ 0

section Main

variable {before : Machine}

/-- The words that the two calls push. -/
def pushed : Set Word := span 0x1F0 16

theorem stack_words : stack - 8 = 0x1F8 ∧ stack - 8 - 8 = 0x1F0 := by decide

theorem upper_subset : span (stack - 8) 8 ⊆ pushed := by
  have place : stack - 8 = 0x1F0 + BitVec.ofNat 64 8 := by decide
  rw [place]
  exact span_subset 0x1F0 (Nat.le_refl 16)

theorem lower_subset : span (stack - 8 - 8) 8 ⊆ pushed := by
  have place : stack - 8 - 8 = 0x1F0 + BitVec.ofNat 64 0 := by decide
  rw [place]
  exact span_subset 0x1F0 (show 0 + 8 ≤ 16 by decide)

theorem pushed_disjoint {start : Word} {count : Nat}
    (below : start.toNat + count ≤ 0x1F0) :
    Disjoint (span start count) pushed := by
  have apart := span_disjoint 0#64 below (show 0x1F0 + 16 ≤ 2 ^ 64 by decide)
  rw [BitVec.zero_add, BitVec.zero_add, BitVec.ofNat_toNat,
    BitVec.setWidth_eq] at apart
  exact apart

/-- `main` calls `absSum` for the four words at `array`. -/
theorem entry_calls (loaded : sumjmpProgram.Loaded before.memory)
    (atEntry : before.pc = 0) :
    ∃ after, GetsLoading sumjmpProgram before [] after ∧
      SameOutside pushed before.memory after.memory ∧
      readWord after.memory 0x1F8 = 0x13 ∧
      readWord after.memory 0x1F0 = 0x31 ∧ after .rsp = 0x1F0 ∧
      after .rdi = array ∧ after .rsi = 4 ∧
      savedRegisters after = savedRegisters before ∧ after.pc = 0x32 := by
  obtain ⟨register, flags, memory, _⟩ := before
  subst atEntry
  obtain ⟨upper, lower⟩ := stack_words
  have code : Disjoint sumjmpProgram.region pushed :=
    pushed_disjoint (by decide)
  have clear : ∀ address ∈ [stack - 8, stack - 8 - 8],
      Clear sumjmpProgram address := by
    intro address member
    rcases List.mem_cons.mp member with rfl | second
    · exact (code.mono_right upper_subset).symm
    · rw [List.mem_singleton.mp second]
      exact (code.mono_right lower_subset).symm
  have runs := loaded.runsLoading 5 [stack - 8, stack - 8 - 8] [] 0x32 rfl rfl
    clear rfl
  have away : Disjoint (span (stack - 8) 8) (span (stack - 8 - 8) 8) :=
    word_disjoint_below (stack - 8) (Nat.le_refl 8) (by decide)
  have first := writeWord_sameOutside memory (stack - 8) 0x13
  have second := writeWord_sameOutside (writeWord memory (stack - 8) 0x13)
    (stack - 8 - 8) 0x31
  refine ⟨_, runs, ?_, ?_, ?_, lower, rfl, rfl, rfl, rfl⟩
  · exact (first.mono upper_subset).trans (second.mono lower_subset)
  · rw [← upper]
    exact (second.readWord away).trans (readWord_writeWord _ _ _)
  · rw [← lower]
    exact readWord_writeWord _ _ _

theorem main_returns (loaded : sumjmpProgram.Loaded before.memory)
    (atReturn : before.pc = 0x31) :
    ∃ after, GetsLoading sumjmpProgram before [before .rsp] after ∧
      after.memory = before.memory ∧ after .rax = before .rax ∧
      after .rsp = before .rsp + 8 ∧
      savedRegisters after = savedRegisters before ∧
      after.pc = readWord before.memory (before .rsp) := by
  obtain ⟨register, flags, memory, _⟩ := before
  subst atReturn
  exact ⟨_, loaded.runsLoading 1 [] [register .rsp]
    (readWord memory (register .rsp)) rfl rfl (by simp) rfl, rfl, rfl, rfl, rfl,
    rfl⟩

/-- The array is not among the words that are pushed. -/
theorem array_words {memory after : Bytes}
    (same : SameOutside pushed memory after) :
    words after array 4 = words memory array 4 := by
  have whole : Disjoint (span array (8 * 4)) pushed :=
    pushed_disjoint (by decide)
  apply List.map_congr_left
  intro index member
  apply same.readWord
  exact whole.mono_left (cell_subset (List.mem_range.mp member))

end Main

/-- What the program has done when it halts. -/
structure SumsArray (before after : Machine) : Prop where
  loads : Loads before (cellPlaces array 0 4 ++ [0x1F0, 0x1F8]) after
  halted : Halted after
  rax : after .rax = BitVec.ofNat 64 (absTotal (words before.memory array 4))
  rsp : after .rsp = stack
  memory : SameOutside pushed before.memory after.memory
  saved : savedRegisters after = savedRegisters before

theorem sumjmp_sums {before : Machine}
    (loaded : sumjmpProgram.Loaded before.memory) (atEntry : before.pc = 0) :
    ∃ after, SumsArray before after := by
  obtain ⟨called, calls, same, outer, inner, rsp, rdi, rsi, saved, pc⟩ :=
    entry_calls loaded atEntry
  obtain ⟨summed, sums, kept⟩ := absSum_sums calls.2 pc
  have loads := sums.loads
  have pc₁ := sums.pc
  have rsp₁ := sums.rsp
  have rax₁ := sums.rax
  rw [rdi, rsi, rsp] at loads
  rw [rsp, inner] at pc₁
  rw [rsp] at rsp₁
  rw [rdi, rsi] at rax₁
  obtain ⟨after, returns, memory₂, rax₂, rsp₂, saved₂, pc₂⟩ :=
    main_returns kept pc₁
  have place : summed .rsp = 0x1F8 := rsp₁
  have top : (0x1F8 : Word) + 8 = stack := by decide
  rw [place] at returns rsp₂ pc₂
  rw [sums.memory, outer] at pc₂
  refine ⟨after, ?_, returns.2.halted pc₂ rfl, ?_, rsp₂.trans top, ?_,
    saved₂.trans (sums.saved.trans saved)⟩
  · exact (calls.1.append loads).append returns.1
  · rw [rax₂, rax₁, ← array_words same]
    rfl
  · rw [memory₂, sums.memory]
    exact same

/-- A call of `absSum` returns the sum of the absolute values of any number of
words modulo `2 ^ 64`, and the program that of its array. -/
theorem sumjmp_correct {before : Machine}
    (loaded : sumjmpProgram.Loaded before.memory) :
    (before.pc = 0x32 → ∃ after, SumsUp before after) ∧
      (before.pc = 0 → ∃ after, SumsArray before after) := by
  constructor
  · intro atStart
    obtain ⟨after, sums, _⟩ := absSum_sums loaded atStart
    exact ⟨after, sums⟩
  · exact sumjmp_sums loaded

/-- The data of `sumjmp.ys`, with the least word in front. -/
def leastArray : List Word :=
  [0x8000000000000000, 0xffffff3fff3fff40, 0x00000b000b000b00,
    0xffff5fff5fff6000]

/-- The program in front of its first instruction. -/
def sumjmpMachine (array : List Word) : Machine where
  register _ := 0
  flags := { zero := false, sign := false, overflow := false }
  memory := sumjmpProgram.load (array.zipIdx.foldl
    (fun memory (word, index) => writeWord memory (cellAt 0x80 index) word)
    fun _ => 0)
  pc := 0

theorem leastArray_sums :
    ∃ after, SumsArray (sumjmpMachine leastArray) after ∧
      after .rax = 0x8000abc0abc0abc0 := by
  have loaded : sumjmpProgram.Loaded (sumjmpMachine leastArray).memory :=
    Program.Loaded.of_load (by decide) _
  obtain ⟨after, sums⟩ := (sumjmp_correct loaded).2 rfl
  refine ⟨after, sums, sums.rax.trans ?_⟩
  decide +kernel

end SystemsLabs.ArrayPrograms
