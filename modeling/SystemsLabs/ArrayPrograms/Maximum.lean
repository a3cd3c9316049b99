import SystemsLabs.Library.SignedMaximum
import SystemsLabs.Library.Y86.Loads
import SystemsLabs.ArrayPrograms.Listing

/-!
# What `max_64.ys` finds

The loop goes through the array in steps of four bytes, from the value
`0x80000000` on, which is positive in 64 bits.
-/

namespace SystemsLabs.ArrayPrograms

open Y86 SignedMaximum

/-- The word that the loop reads in a round. -/
def scanAt (base : Word) (round : Nat) : Word :=
  base + BitVec.ofNat 64 (4 * round)

/-- The words that the loop reads. -/
def scanned (memory : Bytes) (base : Word) (cells : Nat) : List Word :=
  (List.range cells).map fun round => readWord memory (scanAt base round)

theorem scanAt_zero (base : Word) : scanAt base 0 = base :=
  BitVec.add_zero base

theorem scanAt_succ (base : Word) (round : Nat) :
    scanAt base (round + 1) = scanAt base round + 4 := by
  rw [scanAt, scanAt, Nat.mul_succ, BitVec.ofNat_add, ← add_assoc]
  rfl

section Pieces

variable {before : Machine}

theorem max64_start (loaded : max64Program.Loaded before.memory)
    (atStart : before.pc = 0x100) :
    ∃ after, GetsLoading max64Program before [a, aSize] after ∧
      after.memory = before.memory ∧ after .rdi = 4 ∧
      after .rbx = readWord before.memory a ∧
      after .rcx = readWord before.memory aSize ∧
      after .rax = 0x80000000 ∧ after.pc = 0x13C := by
  obtain ⟨register, flags, memory, _⟩ := before
  subst atStart
  have zero : ∀ place : Word, place + 0 = place := BitVec.add_zero
  exact ⟨_, loaded.runsLoading 6 [] [a, aSize] 0x13C rfl rfl (by simp) rfl,
    rfl, rfl, congrArg (readWord memory) (zero a),
    congrArg (readWord memory) (zero aSize), rfl, rfl⟩

theorem max64_test (loaded : max64Program.Loaded before.memory)
    (atLoop : before.pc = 0x13C) :
    ∃ after, GetsLoading max64Program before [] after ∧
      after.memory = before.memory ∧ after .rdi = before .rdi ∧
      after .rbx = before .rbx ∧ after .rcx = before .rcx - 1 ∧
      after .rax = before .rax ∧
      after.pc = if (before .rcx).toInt < 1 then 0x175 else 0x151 := by
  obtain ⟨register, flags, memory, _⟩ := before
  subst atLoop
  have less := sub_holds_l 1 (register .rcx)
  by_cases last : (register .rcx).toInt < 1
  · have taken := less.trans (decide_eq_true last)
    exact ⟨_, loaded.runsLoading 3 [] [] 0x175 rfl rfl (by simp)
      (if_pos taken), rfl, rfl, rfl, rfl, rfl, (if_pos last).symm⟩
  · have falls := less.trans (decide_eq_false last)
    exact ⟨_, loaded.runsLoading 3 [] [] 0x151 rfl rfl (by simp)
      (if_neg (Bool.eq_false_iff.mp falls)), rfl, rfl, rfl, rfl, rfl,
      (if_neg last).symm⟩

theorem max64_keep (loaded : max64Program.Loaded before.memory)
    (atBody : before.pc = 0x151) :
    ∃ after, GetsLoading max64Program before [before .rbx] after ∧
      after.memory = before.memory ∧ after .rdi = before .rdi ∧
      after .rbx = before .rbx + before .rdi ∧ after .rcx = before .rcx ∧
      after .rax = larger (before .rax) (readWord before.memory (before .rbx)) ∧
      after.pc = 0x13C := by
  obtain ⟨register, flags, memory, _⟩ := before
  subst atBody
  have zero : register .rbx + 0 = register .rbx := BitVec.add_zero _
  have loads := congrArg (fun place => some [place]) zero
  have le := sub_holds_le (register .rax) (readWord memory (register .rbx + 0))
  rw [congrArg (readWord memory) zero] at le
  by_cases small : (readWord memory (register .rbx)).toInt ≤
      (register .rax).toInt
  · have taken := le.trans (decide_eq_true small)
    rw [← zero] at taken
    exact ⟨_, loaded.runsLoading 5 [] [register .rbx] 0x13C rfl loads
      (by simp) (if_pos taken), rfl, rfl, rfl, rfl,
      (larger_of_le small).symm, rfl⟩
  · have falls := le.trans (decide_eq_false small)
    rw [← zero] at falls
    have compared := loaded.runsLoading 5 [] [register .rbx] 0x16A rfl loads
      (by simp) (if_neg (Bool.eq_false_iff.mp falls))
    have taken := compared.2.runsLoading 2 [] [] 0x13C rfl rfl (by simp) rfl
    exact ⟨_, compared.append taken, rfl, rfl, rfl, rfl,
      (congrArg (readWord memory) zero).trans
        (larger_of_lt (Int.not_le.mp small)).symm, rfl⟩

theorem max64_store (loaded : max64Program.Loaded before.memory)
    (atDone : before.pc = 0x175) :
    ∃ after, GetsLoading max64Program before [] after ∧ Halted after ∧
      after.memory = writeWord before.memory result (before .rax) := by
  obtain ⟨register, flags, memory, _⟩ := before
  subst atDone
  have clear : ∀ address ∈ [result], Clear max64Program address := by
    intro address member
    rw [List.mem_singleton.mp member]
    exact (span_disjoint 0#64 (show 0x100 + max64Program.size ≤ 0x1010 by decide)
      (by decide)).symm
  have stores := loaded.runsLoading 2 [result] [] 0x189 rfl rfl clear rfl
  exact ⟨_, stores, stores.2.halted rfl rfl, rfl⟩

end Pieces

/-- The addresses and the words of `count` rounds from `first` on. -/
def scanPlaces (base : Word) (first count : Nat) : List Word :=
  (List.range' first count).map (scanAt base)

theorem max64_loop {base : Word} {count : Nat} (small : count < 2 ^ 63) :
    ∀ {first : Nat} {before : Machine},
      max64Program.Loaded before.memory → before.pc = 0x13C →
      before .rdi = 4 → before .rbx = scanAt base first →
      before .rcx = BitVec.ofNat 64 count →
      ∃ after, GetsLoading max64Program before (scanPlaces base first count)
          after ∧ after.memory = before.memory ∧
        after .rax = ((scanPlaces base first count).map
          (readWord before.memory)).foldl larger (before .rax) ∧
        after.pc = 0x175 := by
  induction count with
  | zero =>
      intro first before loaded pc _ _ rcx
      have done : (before .rcx).toInt < 1 := by
        rw [rcx]
        decide
      obtain ⟨after, tests, memory, _, _, _, rax, pc₁⟩ := max64_test loaded pc
      rw [if_pos done] at pc₁
      exact ⟨after, tests, memory, rax, pc₁⟩
  | succ count ih =>
      intro first before loaded pc rdi rbx rcx
      have more : ¬(before .rcx).toInt < 1 := by
        rw [rcx, toInt_ofNat small]
        omega
      obtain ⟨tested, tests, memory₁, rdi₁, rbx₁, rcx₁, rax₁, pc₁⟩ :=
        max64_test loaded pc
      rw [if_neg more] at pc₁
      obtain ⟨kept, keeps, memory₂, rdi₂, rbx₂, rcx₂, rax₂, pc₂⟩ :=
        max64_keep tests.2 pc₁
      have memory := memory₂.trans memory₁
      have stride : kept .rdi = 4 := by rw [rdi₂, rdi₁, rdi]
      have place : kept .rbx = scanAt base (first + 1) := by
        rw [rbx₂, rdi₁, rdi, rbx₁, rbx, scanAt_succ]
      have left : kept .rcx = BitVec.ofNat 64 count := by
        rw [rcx₂, rcx₁, rcx]
        exact ofNat_succ_sub_one count
      obtain ⟨after, rest, memory₃, rax₃, pc₃⟩ :=
        ih (by omega) keeps.2 pc₂ stride place left
      have places : scanPlaces base first (count + 1) =
          [tested .rbx] ++ scanPlaces base (first + 1) count := by
        rw [rbx₁, rbx]
        rfl
      have runs := (tests.append keeps).append rest
      refine ⟨after, places ▸ runs, memory₃.trans memory, ?_, pc₃⟩
      rw [rax₃, rax₂, rax₁, memory, places, List.map_append, List.foldl_append,
        memory₁]
      rfl

/-- The program at its start, for an array away from the code and the data
words. -/
structure MaxTask (cells : Nat) (machine : Machine) : Prop where
  loaded : max64Program.Loaded machine.memory
  pc : machine.pc = 0x100
  size : (readWord machine.memory aSize).toInt = cells
  positive : 1 ≤ cells
  code : Disjoint (span (readWord machine.memory a) (8 * cells))
    max64Program.region
  data : Disjoint (span (readWord machine.memory a) (8 * cells)) (span a 24)

/-- The words of the array. -/
def MaxTask.array (cells : Nat) (machine : Machine) : List Word :=
  words machine.memory (readWord machine.memory a) cells

/-- The program halts, loads words at the allowed addresses besides `a` and
`aSize`, and stores the maximum of the array. -/
def FindsMaximum (allowed : Word → Prop) (cells : Nat) (before : Machine) :
    Prop :=
  ∃ addresses after, Loads before addresses after ∧ Halted after ∧
    (∀ address ∈ addresses, address = a ∨ address = aSize ∨ allowed address) ∧
    IsMaximum (readWord after.memory result) (MaxTask.array cells before)

/-- One of the words of the array stands at the address. -/
def ArrayWord (cells : Nat) (machine : Machine) (address : Word) : Prop :=
  ∃ index < cells, address = cellAt (readWord machine.memory a) index

/-- The word at the address consists of bytes of the array. -/
def ArrayBytes (cells : Nat) (machine : Machine) (address : Word) : Prop :=
  span address 8 ⊆ span (readWord machine.memory a) (8 * cells)

namespace MaxTask

variable {cells : Nat} {before : Machine}

theorem small (task : MaxTask cells before) : 8 * cells < 2 ^ 64 := by
  have codeStart : max64Program.start ∈ max64Program.region := by
    change (0x100#64 - 0x100#64).toNat < max64Program.size
    decide
  exact span_small (Set.disjoint_right.mp task.code codeStart)

theorem runs (task : MaxTask cells before) :
    ∃ after, Loads before ([a, aSize] ++
        scanPlaces (readWord before.memory a) 0 cells) after ∧
      Halted after ∧
      readWord after.memory result =
        (scanned before.memory (readWord before.memory a) cells).foldl larger
          0x80000000 := by
  have small := task.small
  have count : readWord before.memory aSize = BitVec.ofNat 64 cells := by
    apply BitVec.eq_of_toInt_eq
    rw [task.size, toInt_ofNat (by omega)]
  obtain ⟨start, starts, memory₁, rdi, rbx, rcx, rax, pc₁⟩ :=
    max64_start task.loaded task.pc
  obtain ⟨done, loops, memory₂, rax₂, pc₂⟩ := max64_loop (by omega) starts.2
    pc₁ rdi (rbx.trans (scanAt_zero _).symm) (rcx.trans count)
  obtain ⟨after, stores, halted, memory₃⟩ := max64_store loops.2 pc₂
  have runs := (starts.append loops).append stores
  rw [List.append_nil] at runs
  refine ⟨after, runs.1, halted, ?_⟩
  rw [memory₃, readWord_writeWord, rax₂, rax, memory₁, scanPlaces,
    List.map_map, ← List.range_eq_range']
  rfl

/-- The program finds the maximum when it loads from the right places and the
largest word that it has seen is the right one. -/
theorem findsMaximum_iff_of_runs (task : MaxTask cells before)
    (allowed : Word → Prop) :
    FindsMaximum allowed cells before ↔
      (∀ round < cells, scanAt (readWord before.memory a) round = a ∨
        scanAt (readWord before.memory a) round = aSize ∨
          allowed (scanAt (readWord before.memory a) round)) ∧
      IsMaximum ((scanned before.memory (readWord before.memory a)
        cells).foldl larger 0x80000000) (array cells before) := by
  obtain ⟨after, loads, halted, stored⟩ := task.runs
  constructor
  · rintro ⟨addresses, other, otherLoads, otherHalted, reads, maximum⟩
    obtain ⟨rfl, rfl⟩ := otherLoads.unique otherHalted loads halted
    rw [stored] at maximum
    refine ⟨fun round inside => reads _ ?_, maximum⟩
    apply List.mem_append_right
    apply List.mem_map_of_mem
    rw [← List.range_eq_range']
    exact List.mem_range.mpr inside
  · rintro ⟨places, maximum⟩
    refine ⟨_, after, loads, halted, ?_, stored ▸ maximum⟩
    intro address member
    rcases List.mem_append.mp member with own | scan
    · rcases List.mem_cons.mp own with first | second
      · exact .inl first
      · exact .inr (.inl (List.mem_singleton.mp second))
    · obtain ⟨round, listed, rfl⟩ := List.mem_map.mp scan
      rw [← List.range_eq_range'] at listed
      exact places round (List.mem_range.mp listed)

/-- No load leaves the array: the last one ends `4 * cells + 4` bytes behind its
start. -/
theorem scan_inside {round : Nat} (inside : round < cells) :
    ArrayBytes cells before (scanAt (readWord before.memory a) round) :=
  span_subset _ (by omega)

/-- The second load is not one of a word of the array, nor of `a` or
`aSize`. -/
theorem scan_misses (task : MaxTask cells before) (more : 1 < cells) :
    ¬(scanAt (readWord before.memory a) 1 = a ∨
      scanAt (readWord before.memory a) 1 = aSize ∨
        ArrayWord cells before (scanAt (readWord before.memory a) 1)) := by
  have inside : scanAt (readWord before.memory a) 1 ∈
      span (readWord before.memory a) (8 * cells) :=
    offset_mem_span _ (by omega)
  have outside := Set.disjoint_left.mp task.data inside
  rintro (first | second | ⟨index, low, same⟩)
  · rw [first] at outside
    exact outside (by unfold span; decide)
  · rw [second] at outside
    exact outside (by unfold span; decide)
  · have small := task.small
    have offsets := congrArg BitVec.toNat
      (add_left_cancel (same : _ + _ = _ + _))
    rw [BitVec.toNat_ofNat, BitVec.toNat_ofNat] at offsets
    omega

/-- Where every load of bytes of the array is allowed, the program finds the
maximum when it is also that of the words four bytes apart. -/
theorem finds_bytes_iff (task : MaxTask cells before) :
    FindsMaximum (ArrayBytes cells before) cells before ↔
      ∃ maximum, IsMaximum maximum (array cells before) ∧
        IsMaximum maximum (0x80000000 ::
          scanned before.memory (readWord before.memory a) cells) := by
  rw [task.findsMaximum_iff_of_runs]
  have seen := foldl_larger (0x80000000 : Word)
    (scanned before.memory (readWord before.memory a) cells)
  constructor
  · rintro ⟨_, maximum⟩
    exact ⟨_, maximum, seen⟩
  · rintro ⟨maximum, isMaximum, alsoMaximum⟩
    rw [alsoMaximum.unique seen] at isMaximum
    exact ⟨fun round inside => .inr (.inr (scan_inside inside)), isMaximum⟩

theorem finds_words_iff (task : MaxTask cells before) :
    FindsMaximum (ArrayWord cells before) cells before ↔
      cells = 1 ∧
        2 ^ 31 ≤ (readWord before.memory (readWord before.memory a)).toInt := by
  have start : (0x80000000 : Word).toInt = 2 ^ 31 := rfl
  rw [task.findsMaximum_iff_of_runs]
  by_cases single : cells = 1
  · subst single
    have first := cellAt_zero (readWord before.memory a)
    have firstScan := scanAt_zero (readWord before.memory a)
    have words : array 1 before =
        [readWord before.memory (readWord before.memory a)] := by
      rw [array, words, List.range_one, List.map_singleton, first]
    have scans : scanned before.memory (readWord before.memory a) 1 =
        [readWord before.memory (readWord before.memory a)] := by
      rw [scanned, List.range_one, List.map_singleton, firstScan]
    rw [words, scans, List.foldl_cons, List.foldl_nil]
    constructor
    · rintro ⟨_, member, _⟩
      have bound := (le_larger (0x80000000 : Word)
        (readWord before.memory (readWord before.memory a))).1
      rw [List.mem_singleton.mp member, start] at bound
      exact ⟨rfl, bound⟩
    · rintro ⟨_, large⟩
      have bound := (le_larger (0x80000000 : Word)
        (readWord before.memory (readWord before.memory a))).2
      have same : larger 0x80000000
          (readWord before.memory (readWord before.memory a)) =
            readWord before.memory (readWord before.memory a) := by
        rcases larger_mem (0x80000000 : Word)
          (readWord before.memory (readWord before.memory a)) with
          keeps | takes
        · rw [keeps, start] at bound
          rw [keeps]
          exact BitVec.eq_of_toInt_eq (by omega)
        · exact takes
      refine ⟨?_, ?_, ?_⟩
      · intro round inside
        rw [Nat.lt_one_iff.mp inside, firstScan]
        exact .inr (.inr ⟨0, Nat.one_pos, first.symm⟩)
      · rw [same]
        exact List.mem_singleton_self _
      · intro other member
        rw [List.mem_singleton.mp member, same]
  · constructor
    · rintro ⟨places, _⟩
      have more : 1 < cells := by
        have positive := task.positive
        omega
      exact (task.scan_misses more (places 1 more)).elim
    · rintro ⟨one, _⟩
      exact (single one).elim

end MaxTask

/-- The program loads words of the array only, and finds the maximum, exactly
for one word that is at least `0x80000000`.  Where every load of bytes of the
array is allowed, it does so exactly when the maximum of the array is also that
of `0x80000000` and the words four bytes apart. -/
theorem max64_correct_iff {cells : Nat} {before : Machine}
    (task : MaxTask cells before) :
    (FindsMaximum (ArrayWord cells before) cells before ↔
      cells = 1 ∧
        2 ^ 31 ≤ (readWord before.memory (readWord before.memory a)).toInt) ∧
    (FindsMaximum (ArrayBytes cells before) cells before ↔
      ∃ maximum, IsMaximum maximum (MaxTask.array cells before) ∧
        IsMaximum maximum (0x80000000 ::
          scanned before.memory (readWord before.memory a) cells)) :=
  ⟨task.finds_words_iff, task.finds_bytes_iff⟩

/-- `aData` of `max_64.ys`. -/
def aData : List Word :=
  [0xe, 0x3, 0x1d, 0xf, 0x10, 0x2be, 0x141, 0x2b, 0xffffff9c, 0x20]

theorem aData_base : readWord (startOf max64Program aData).memory a = 0x2000 := by
  decide +kernel

theorem aData_task : MaxTask 10 (startOf max64Program aData) := by
  refine ⟨Program.Loaded.of_load (by decide) _, rfl, by decide +kernel,
    by decide, ?_, ?_⟩
  · rw [aData_base]
    exact (span_disjoint 0#64 (show 0x100 + max64Program.size ≤ 0x2000 by decide)
      (by decide)).symm
  · rw [aData_base]
    exact (span_disjoint 0#64 (show 0x1000 + 24 ≤ 0x2000 by decide)
      (by decide)).symm

/-- The word at `a + 36` has `0x2be` in its upper half. -/
theorem aData_misjudged :
    ¬FindsMaximum (ArrayBytes 10 (startOf max64Program aData)) 10
      (startOf max64Program aData) := by
  rw [aData_task.finds_bytes_iff]
  rintro ⟨maximum, ⟨member, _⟩, _, bound⟩
  have array : MaxTask.array 10 (startOf max64Program aData) = aData := by
    rw [MaxTask.array, aData_base]
    decide +kernel
  have seen : readWord (startOf max64Program aData).memory
      (scanAt 0x2000 9) = 0x2be00000000 := by decide +kernel
  have scan : (0x2be00000000 : Word) ∈ (0x80000000 : Word) ::
      scanned (startOf max64Program aData).memory
        (readWord (startOf max64Program aData).memory a) 10 := by
    rw [aData_base]
    apply List.mem_cons_of_mem
    exact List.mem_map.mpr ⟨9, List.mem_range.mpr (by decide), seen⟩
  have small : (aData.all fun word =>
      decide (word.toInt < (0x2be00000000 : Word).toInt)) = true := by decide
  rw [array] at member
  have less := of_decide_eq_true (List.all_eq_true.mp small maximum member)
  exact Int.not_le.mpr less (bound _ scan)

theorem aData_not_words :
    MaxTask 10 (startOf max64Program aData) ∧
      ¬FindsMaximum (ArrayWord 10 (startOf max64Program aData)) 10
        (startOf max64Program aData) := by
  refine ⟨aData_task, ?_⟩
  rw [(max64_correct_iff aData_task).1]
  rintro ⟨single, _⟩
  exact absurd single (by decide)

end SystemsLabs.ArrayPrograms
