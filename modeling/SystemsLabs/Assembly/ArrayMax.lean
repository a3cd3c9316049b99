import SystemsLabs.Library.SignedMaximum
import SystemsLabs.Library.Y86.Cells
import SystemsLabs.Assembly.Listing

/-!
# `arraymax` finds the maximum

The loop goes down from the last word to the first and keeps the largest word
that it has seen.
-/

namespace SystemsLabs.Assembly

open X86 SignedMaximum
open Y86 (Word readWord cellAt words)

section Pieces

variable {before : Machine}

theorem arraymax_start (atStart : before.place = .inside 0) :
    ∃ after, Runs arraymax before [] after ∧ after.memory = before.memory ∧
      after .rdi = before .rdi ∧ after .rsp = before .rsp ∧
      after .rsi = before .rsi ∧ after .rax = BitVec.intMin 64 ∧
      after.place = .inside (if (before .rsi).toInt ≤ 0 then 10 else 3) := by
  obtain ⟨register, flags, memory, _⟩ := before
  subst atStart
  exact ⟨_, .of_run 3 _ rfl (branch (test_holds_le (register .rsi)) 10 3),
    rfl, rfl, rfl, rfl, rfl, rfl⟩

theorem arraymax_enter (atEnter : before.place = .inside 3) :
    ∃ after, Runs arraymax before [] after ∧ after.memory = before.memory ∧
      after .rdi = before .rdi ∧ after .rsp = before .rsp ∧
      after .rsi = before .rsi - 1 ∧ after .rax = before .rax ∧
      after.place = .inside 4 := by
  obtain ⟨register, flags, memory, _⟩ := before
  subst atEnter
  exact ⟨_, .of_run 1 _ rfl rfl, rfl, rfl, rfl, rfl, rfl, rfl⟩

theorem arraymax_keep (atLoop : before.place = .inside 4) :
    ∃ after, Runs arraymax before [before .rdi + before .rsi * 8] after ∧
      after.memory = before.memory ∧ after .rdi = before .rdi ∧
      after .rsp = before .rsp ∧ after .rsi = before .rsi ∧
      after .rax = larger (before .rax)
        (readWord before.memory (before .rdi + before .rsi * 8)) ∧
      after.place = .inside 8 := by
  obtain ⟨register, flags, memory, _⟩ := before
  subst atLoop
  have jump := branch (sub_holds_ge
    (readWord memory (register .rdi + register .rsi * 8)) (register .rax)) 8 7
  by_cases small : (readWord memory (register .rdi + register .rsi * 8)).toInt ≤
      (register .rax).toInt
  · rw [if_pos small] at jump
    exact ⟨_, .of_run 3 _ rfl jump, rfl, rfl, rfl, rfl,
      (larger_of_le small).symm, rfl⟩
  · rw [if_neg small] at jump
    have compared : Runs arraymax ⟨register, flags, memory, .inside 4⟩
        [register .rdi + register .rsi * 8] _ := .of_run 3 _ rfl jump
    exact ⟨_, compared.trans (.of_run 1 _ rfl rfl), rfl, rfl, rfl, rfl,
      (larger_of_lt (Int.not_le.mp small)).symm, rfl⟩

/-- The next index; the loop ends behind index 0. -/
theorem arraymax_next (atSkip : before.place = .inside 8) :
    ∃ after, Runs arraymax before [] after ∧ after.memory = before.memory ∧
      after .rdi = before .rdi ∧ after .rsp = before .rsp ∧
      after .rsi = before .rsi - 1 ∧ after .rax = before .rax ∧
      after.place = .inside (if 1 ≤ (before .rsi).toInt then 4 else 10) := by
  obtain ⟨register, flags, memory, _⟩ := before
  subst atSkip
  exact ⟨_, .of_run 2 _ rfl (branch (sub_holds_ge 1 (register .rsi)) 4 10),
    rfl, rfl, rfl, rfl, rfl, rfl⟩

theorem arraymax_return (atDone : before.place = .inside 10) :
    ∃ after, Runs arraymax before [before .rsp] after ∧
      after.memory = before.memory ∧ after .rsp = before .rsp + 8 ∧
      after .rax = before .rax ∧
      after.place = .outside (readWord before.memory (before .rsp)) := by
  obtain ⟨register, flags, memory, _⟩ := before
  subst atDone
  exact ⟨_, .of_run 1 _ rfl rfl, rfl, rfl, rfl, rfl⟩

end Pieces

theorem scaled_index (base : Word) (index : Nat) :
    base + BitVec.ofNat 64 index * 8 = cellAt base index := by
  rw [cellAt, Nat.mul_comm, BitVec.ofNat_mul]
  rfl

/-- The addresses of the first words, the last one first. -/
def downward (base : Word) (count : Nat) : List Word :=
  ((List.range count).map (cellAt base)).reverse

theorem downward_succ (base : Word) (count : Nat) :
    downward base (count + 1) = cellAt base count :: downward base count := by
  rw [downward, List.range_succ, List.map_append, List.reverse_append]
  rfl

theorem arraymax_loop {index : Nat} (small : index < 2 ^ 63) :
    ∀ {before : Machine}, before.place = .inside 4 →
      before .rsi = BitVec.ofNat 64 index →
      ∃ after, Runs arraymax before (downward (before .rdi) (index + 1)) after ∧
        after.memory = before.memory ∧ after .rsp = before .rsp ∧
        after .rax = ((downward (before .rdi) (index + 1)).map
          (readWord before.memory)).foldl larger (before .rax) ∧
        after.place = .inside 10 := by
  induction index with
  | zero =>
      intro before place rsi
      obtain ⟨kept, keeps, memory₁, rdi₁, rsp₁, rsi₁, rax₁, place₁⟩ :=
        arraymax_keep place
      obtain ⟨after, moves, memory₂, rdi₂, rsp₂, _, rax₂, place₂⟩ :=
        arraymax_next place₁
      have last : ¬1 ≤ (kept .rsi).toInt := by
        rw [rsi₁, rsi]
        decide
      rw [if_neg last] at place₂
      rw [rsi, scaled_index] at keeps rax₁
      refine ⟨after, keeps.trans moves, memory₂.trans memory₁,
        rsp₂.trans rsp₁, ?_, place₂⟩
      rw [rax₂, rax₁]
      rfl
  | succ index ih =>
      intro before place rsi
      obtain ⟨kept, keeps, memory₁, rdi₁, rsp₁, rsi₁, rax₁, place₁⟩ :=
        arraymax_keep place
      obtain ⟨moved, moves, memory₂, rdi₂, rsp₂, rsi₂, rax₂, place₂⟩ :=
        arraymax_next place₁
      have more : 1 ≤ (kept .rsi).toInt := by
        rw [rsi₁, rsi, Y86.toInt_ofNat small]
        omega
      rw [if_pos more] at place₂
      rw [rsi, scaled_index] at keeps rax₁
      have next : moved .rsi = BitVec.ofNat 64 index := by
        rw [rsi₂, rsi₁, rsi]
        exact Y86.ofNat_succ_sub_one index
      obtain ⟨after, rest, memory₃, rsp₃, rax₃, place₃⟩ :=
        ih (by omega) place₂ next
      have memory := memory₂.trans memory₁
      rw [rdi₂, rdi₁] at rest rax₃
      rw [downward_succ]
      refine ⟨after, (keeps.trans moves).trans rest, memory₃.trans memory,
        rsp₃.trans (rsp₂.trans rsp₁), ?_, place₃⟩
      rw [rax₃, rax₂, rax₁, memory]
      rfl

/-- `arraymax` returns the maximum of the words and has read each of them once,
the last one first, and then its return address.  Without words it returns the
smallest number. -/
theorem arraymax_correct {before : Machine}
    (entry : before.place = .inside 0) :
    ∃ after, Runs arraymax before
        (downward (before .rdi) (before .rsi).toInt.toNat ++ [before .rsp])
        after ∧
      after.place = .outside (readWord before.memory (before .rsp)) ∧
      after.memory = before.memory ∧ after .rsp = before .rsp + 8 ∧
      if (before .rsi).toInt ≤ 0 then after .rax = BitVec.intMin 64
      else IsMaximum (after .rax)
        (words before.memory (before .rdi) (before .rsi).toInt.toNat) := by
  obtain ⟨tested, tests, memory₁, rdi₁, rsp₁, rsi₁, rax₁, place₁⟩ :=
    arraymax_start entry
  by_cases empty : (before .rsi).toInt ≤ 0
  · rw [if_pos empty] at place₁
    obtain ⟨after, returns, memory₂, rsp₂, rax₂, place₂⟩ :=
      arraymax_return place₁
    rw [memory₁, rsp₁] at place₂
    rw [rsp₁] at returns rsp₂
    rw [Int.toNat_of_nonpos empty]
    refine ⟨after, tests.trans returns, place₂, memory₂.trans memory₁, rsp₂,
      ?_⟩
    rw [if_pos empty]
    exact rax₂.trans rax₁
  · rw [if_neg empty] at place₁
    obtain ⟨index, count⟩ : ∃ index : Nat,
        (before .rsi).toInt = (index + 1 : Nat) :=
      ⟨(before .rsi).toInt.toNat - 1, by omega⟩
    have small := (before .rsi).toInt_lt
    have words : before .rsi = BitVec.ofNat 64 (index + 1) := by
      apply BitVec.eq_of_toInt_eq
      rw [count, Y86.toInt_ofNat (by omega)]
    obtain ⟨entered, enters, memory₂, rdi₂, rsp₂, rsi₂, rax₂, place₂⟩ :=
      arraymax_enter place₁
    have last : entered .rsi = BitVec.ofNat 64 index := by
      rw [rsi₂, rsi₁, words]
      exact Y86.ofNat_succ_sub_one index
    obtain ⟨scanned, loops, memory₃, rsp₃, rax₃, place₃⟩ :=
      arraymax_loop (by omega) place₂ last
    obtain ⟨after, returns, memory₄, rsp₄, rax₄, place₄⟩ :=
      arraymax_return place₃
    have memory := memory₂.trans memory₁
    have stack := rsp₃.trans (rsp₂.trans rsp₁)
    rw [memory₃, memory, stack] at place₄
    rw [stack] at returns rsp₄
    rw [rdi₂, rdi₁] at loops rax₃
    rw [count, Int.toNat_natCast]
    refine ⟨after, ((tests.trans enters).trans loops).trans returns, place₄,
      memory₄.trans (memory₃.trans memory), rsp₄, ?_⟩
    rw [if_neg (by omega)]
    have maximum := foldl_larger (BitVec.intMin 64)
      ((downward (before .rdi) (index + 1)).map (readWord before.memory))
    rw [rax₄, rax₃, rax₂, rax₁, memory]
    apply IsMaximum.reverse
    have reversed : (Y86.words before.memory (before .rdi) (index + 1)).reverse =
        (downward (before .rdi) (index + 1)).map (readWord before.memory) := by
      rw [downward, List.map_reverse, List.map_map]
      rfl
    rw [reversed]
    apply maximum.drop_intMin
    rw [downward_succ]
    exact List.cons_ne_nil _ _

/-- `vals` of `testarraymax.c`. -/
def vals : List Word := [-3, 1, 0, 9, 4]

def valsBytes : Y86.Bytes :=
  vals.zipIdx.foldl
    (fun memory (word, index) => Y86.writeWord memory (cellAt 0x2000 index) word)
    fun _ => 0

theorem vals_maximum :
    ∃ after, Runs arraymax (called valsBytes 0x2000 3)
        (downward 0x2000 3 ++ [0x7000]) after ∧
      IsMaximum (after .rax) [-3, 1, 0] := by
  have entry : (called valsBytes 0x2000 3).place = .inside 0 := rfl
  obtain ⟨after, runs, _, _, _, maximum⟩ := arraymax_correct entry
  have values : words valsBytes 0x2000 3 = [-3, 1, 0] := by decide +kernel
  have some : ¬((called valsBytes 0x2000 3) .rsi).toInt ≤ 0 := by decide
  rw [if_neg some] at maximum
  exact ⟨after, runs, values ▸ maximum⟩

end SystemsLabs.Assembly
