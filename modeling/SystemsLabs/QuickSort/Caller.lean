import SystemsLabs.QuickSort.Simulation

/-!
# A caller

The code stands at `0x1000`, the array at `0x2000`, and the stack grows down from
`0x5000`.
-/

namespace SystemsLabs.QuickSort

open Y86

/-- `call quickSort` and `halt`. -/
def main : Program where
  start := 0x100
  code := [.call 0x1000, .halt]

/-- Memory with an array of words at `0x2000`. -/
def arrayBytes (words : List Word) : Bytes :=
  fun place =>
    match words[(place - 0x2000).toNat / 8]? with
    | some word => word.extractLsb' (8 * ((place - 0x2000).toNat % 8)) 8
    | none => 0

/-- A machine that calls `quickSort` for the words. -/
def caller (program : Program) (words : List Word) : Machine where
  register
    | .rdi => 0x2000
    | .rsi => BitVec.ofNat 64 words.length
    | .rsp => 0x5000
    | _ => 0
  flags := { zero := false, sign := false, overflow := false }
  memory := program.load (main.load (arrayBytes words))
  pc := 0x100

/-- The array as the C function sees it. -/
def wordsLongs (words : List Word) : Longs where
  cell index := words[index.toNat]?.getD 0
  accessed := []

theorem arrayBytes_word (words : List Word) {index : Nat}
    (inside : index < words.length) (small : words.length ≤ 256) :
    readWord (arrayBytes words) (0x2000 + BitVec.ofNat 64 (8 * index)) =
      words[index] := by
  have bytes : readWord (arrayBytes words)
      (0x2000 + BitVec.ofNat 64 (8 * index)) =
        joinBytes fun offset => words[index].extractLsb' (8 * offset) 8 := by
    apply joinBytes_congr
    intro offset low
    have place : (0x2000 + BitVec.ofNat 64 (8 * index) +
        BitVec.ofNat 64 offset - 0x2000).toNat = 8 * index + offset := by
      rw [add_assoc, ← BitVec.ofNat_add]
      exact toNat_offset 0x2000 (by omega)
    have quotient : (8 * index + offset) / 8 = index := by omega
    have remainder : (8 * index + offset) % 8 = offset := by omega
    rw [arrayBytes, place, quotient, remainder,
      List.getElem?_eq_getElem inside]
  rw [bytes, joinBytes_extract]

variable {program : Program} {words : List Word}

theorem caller_length (few : words.length ≤ 256) :
    ((caller program words) .rsi).toInt = words.length := by
  change (BitVec.ofNat 64 words.length).toInt = words.length
  have number : (BitVec.ofNat 64 words.length).toNat = words.length := by
    rw [BitVec.toNat_ofNat]
    omega
  rw [BitVec.toInt_eq_toNat_of_lt (by omega), number]

theorem stack_low {space : Nat} (small : space ≤ 0x2000) :
    0x5000#64 - BitVec.ofNat 64 space =
      0#64 + BitVec.ofNat 64 0x3000 + BitVec.ofNat 64 (0x2000 - space) := by
  apply BitVec.eq_of_toNat_eq
  simp only [BitVec.toNat_sub, BitVec.toNat_add, BitVec.toNat_ofNat]
  omega

theorem caller_stack (few : words.length ≤ 256) (longs : Longs) :
    stackOf longs (caller program words) ⊆
      span (0#64 + BitVec.ofNat 64 0x3000) 0x2000 := by
  have deep := depth_le 0 (caller program words .rsi).toInt longs
  have space : stackSpace longs (caller program words) ≤ 0x2000 := by
    rw [caller_length few] at deep
    unfold stackSpace
    rw [caller_length few]
    omega
  have low : (caller program words) .rsp -
      BitVec.ofNat 64 (stackSpace longs (caller program words)) = _ :=
    stack_low space
  unfold stackOf
  rw [low]
  exact span_subset _ (by omega)

theorem caller_calls (start : program.start = 0x1000)
    (small : program.size ≤ 0x1000) (few : words.length ≤ 256) :
    Calls program (wordsLongs words) (caller program words) 0x109 := by
  have code : program.region =
      span (0#64 + BitVec.ofNat 64 0x1000) program.size := by
    rw [Program.region, start]
    rfl
  have array : arrayOf (caller program words) =
      span (0#64 + BitVec.ofNat 64 0x2000) (8 * words.length) := by
    rw [arrayOf, caller_length few]
    rfl
  have mainBefore : 0x100 + 10 ≤ 0x1000 := by decide
  have mainApart : Disjoint program.region main.region := by
    rw [code]
    exact (span_disjoint 0#64 mainBefore (by omega)).symm
  have loads : SameOutside program.region (main.load (arrayBytes words))
      (caller program words).memory :=
    Program.Loaded.load_sameOutside program _
  have mainLoads : SameOutside main.region (arrayBytes words)
      (main.load (arrayBytes words)) :=
    Program.Loaded.load_sameOutside main _
  have stack := @caller_stack program words few (wordsLongs words)
  refine ⟨?_, ?_, ?_, ?_, ?_, ?_, ?_⟩
  · exact Program.Loaded.of_load (by omega) _
  · have mainLoaded : main.Loaded (caller program words).memory :=
      (Program.Loaded.of_load (by decide) _).sameOutside loads mainApart
    exact Placed.instructionAt mainLoaded rfl
  · intro index low high
    rw [caller_length few] at high
    obtain ⟨number, rfl⟩ := Int.eq_ofNat_of_zero_le low
    have inside : number < words.length := Int.ofNat_lt.mp high
    change readWord (caller program words).memory
      (0x2000 + BitVec.ofNat 64 (8 * number)) = words[number]?.getD 0
    have place : (0x2000 : Word) + BitVec.ofNat 64 (8 * number) =
        0#64 + BitVec.ofNat 64 (0x2000 + 8 * number) := by
      rw [BitVec.ofNat_add, BitVec.zero_add]
      rfl
    have mainAway : Disjoint
        (span (0x2000 + BitVec.ofNat 64 (8 * number)) 8) main.region := by
      rw [place]
      exact (span_disjoint 0#64 (show 0x100 + 10 ≤ 0x2000 + 8 * number by omega)
        (by omega)).symm
    have codeAway : Disjoint
        (span (0x2000 + BitVec.ofNat 64 (8 * number)) 8) program.region := by
      rw [place, code]
      exact (span_disjoint 0#64 (by omega) (by omega)).symm
    rw [loads.readWord codeAway, mainLoads.readWord mainAway,
      arrayBytes_word words inside few, List.getElem?_eq_getElem inside]
    rfl
  · intro index inside
    rw [caller_length few] at inside
    change 0x2000 + 8 * index + 8 ≤ 2 ^ 63
    omega
  · rw [code, array]
    exact span_disjoint 0#64 (by omega) (by omega)
  · rw [code]
    exact (span_disjoint 0#64 (by omega) (by omega)).mono_right stack
  · rw [array]
    exact (span_disjoint 0#64 (by omega) (by omega)).mono_right stack

end SystemsLabs.QuickSort
