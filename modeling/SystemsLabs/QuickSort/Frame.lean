import SystemsLabs.QuickSort.Layout

/-!
# The stack frame of a call

Both programs save `%r12`, `%rbp` and `%rbx` below the return address.
-/

namespace SystemsLabs.QuickSort

open Y86

/-- The memory after the three pushes. -/
def saved (memory : Bytes) (rsp r12 rbp rbx : Word) : Bytes :=
  writeWord (writeWord (writeWord memory (rsp - 8) r12) (rsp - 8 - 8) rbp)
    (rsp - 8 - 8 - 8) rbx

section Saved

variable (memory : Bytes) (rsp r12 rbp rbx : Word)

theorem saved_rbx :
    readWord (saved memory rsp r12 rbp rbx) (rsp - 8 - 8 - 8) = rbx :=
  readWord_writeWord _ _ _

theorem saved_rbp :
    readWord (saved memory rsp r12 rbp rbx) (rsp - 8 - 8) = rbp := by
  unfold saved
  rw [readWord_writeWord_away, readWord_writeWord]
  exact word_disjoint_below (rsp - 8 - 8) (Nat.le_refl 8) (by decide)

theorem saved_r12 :
    readWord (saved memory rsp r12 rbp rbx) (rsp - 8) = r12 := by
  unfold saved
  have two : rsp - 8 - 8 - 8 = rsp - 8 - BitVec.ofNat 64 16 := by
    rw [sub_sub (rsp - 8)]
    rfl
  rw [readWord_writeWord_away, readWord_writeWord_away, readWord_writeWord]
  · exact word_disjoint_below (rsp - 8) (Nat.le_refl 8) (by decide)
  · rw [two]
    exact word_disjoint_below (rsp - 8) (by decide) (by decide)

theorem saved_return :
    readWord (saved memory rsp r12 rbp rbx) rsp = readWord memory rsp := by
  unfold saved
  have two : rsp - 8 - 8 = rsp - BitVec.ofNat 64 16 := by
    rw [sub_sub]
    rfl
  have three : rsp - 8 - 8 - 8 = rsp - BitVec.ofNat 64 24 := by
    rw [sub_sub, sub_sub]
    rfl
  rw [readWord_writeWord_away, readWord_writeWord_away,
    readWord_writeWord_away]
  · exact word_disjoint_below rsp (Nat.le_refl 8) (by decide)
  · rw [two]
    exact word_disjoint_below rsp (by decide) (by decide)
  · rw [three]
    exact word_disjoint_below rsp (by decide) (by decide)

theorem saved_sameOutside {region : Set Word}
    (first : span (rsp - 8) 8 ⊆ region) (second : span (rsp - 8 - 8) 8 ⊆ region)
    (third : span (rsp - 8 - 8 - 8) 8 ⊆ region) :
    SameOutside region memory (saved memory rsp r12 rbp rbx) :=
  ((writeWord_sameOutside _ _ _).mono first).trans
    (((writeWord_sameOutside _ _ _).mono second).trans
      ((writeWord_sameOutside _ _ _).mono third))

end Saved

namespace Layout

variable {code : Set Word} (layout : Layout code) {used other : Nat}

theorem top_add (used : Nat) : layout.top used + 8 = layout.top (used + 8) := by
  rw [top, top, BitVec.ofNat_add, ← add_assoc]
  rfl

theorem top_sub (used : Nat) : layout.top (used + 8) - 8 = layout.top used := by
  rw [← top_add]
  exact BitVec.add_sub_cancel _ _

theorem slot_subset (inside : used + 8 ≤ other) :
    span (layout.top used) 8 ⊆ layout.stack other :=
  span_subset layout.low inside

theorem slot_above (above : used ≤ other) (inside : other + 8 ≤ layout.room) :
    Disjoint (span (layout.top other) 8) (layout.stack used) := by
  apply Set.disjoint_left.mpr
  intro place slot below
  have room := layout.room_le
  have offset := toNat_sub_part layout.low slot (by omega)
  have low : (place - layout.low).toNat < used := below
  omega

theorem slot_array (inside : used + 8 ≤ layout.room) :
    Disjoint (span (layout.top used) 8) layout.array :=
  (layout.array_stack.mono_right (layout.slot_subset inside)).symm

theorem slot_code (inside : used + 8 ≤ layout.room) :
    Disjoint (span (layout.top used) 8) code :=
  (layout.code_stack.mono_right (layout.slot_subset inside)).symm

theorem word_code {index : Int} (low : 0 ≤ index)
    (high : index < layout.cells) :
    Disjoint (span (layout.address index) 8) code :=
  (layout.code_array.mono_right (word_subset low high)).symm

/-- What a frame holds; the return address of an inner call is to be at
`floor`. -/
structure Slots (floor : Nat) (caller : Machine) (memory : Bytes) : Prop where
  rbx : readWord memory (layout.top (floor + 8)) = caller .rbx
  rbp : readWord memory (layout.top (floor + 16)) = caller .rbp
  r12 : readWord memory (layout.top (floor + 24)) = caller .r12
  back : readWord memory (layout.top (floor + 32)) =
    readWord caller.memory (caller .rsp)

variable {layout} {floor : Nat} {caller : Machine} {before after : Bytes}

theorem Slots.same (slots : layout.Slots floor caller before)
    (room : floor + 40 ≤ layout.room)
    (same : SameOutside (layout.array ∪ layout.stack (floor + 8)) before
      after) : layout.Slots floor caller after := by
  have slot : ∀ offset, 8 ≤ offset → offset ≤ 32 →
      readWord after (layout.top (floor + offset)) =
        readWord before (layout.top (floor + offset)) := by
    intro offset least most
    apply same.readWord
    apply Set.disjoint_union_right.mpr
    constructor
    · exact layout.slot_array (by omega)
    · exact layout.slot_above (by omega) (by omega)
  constructor
  · exact (slot 8 (by decide) (by decide)).trans slots.rbx
  · exact (slot 16 (by decide) (by decide)).trans slots.rbp
  · exact (slot 24 (by decide) (by decide)).trans slots.r12
  · exact (slot 32 (by decide) (by decide)).trans slots.back

theorem push_places (place : caller .rsp = layout.top (floor + 24)) :
    caller .rsp - 8 = layout.top (floor + 16) ∧
      caller .rsp - 8 - 8 = layout.top (floor + 8) ∧
      caller .rsp - 8 - 8 - 8 = layout.top floor := by
  have first : caller .rsp - 8 = layout.top (floor + 16) := by
    rw [place]
    exact layout.top_sub (floor + 16)
  have second : caller .rsp - 8 - 8 = layout.top (floor + 8) := by
    rw [first]
    exact layout.top_sub (floor + 8)
  refine ⟨first, second, ?_⟩
  rw [second]
  exact layout.top_sub floor

theorem saved_stack (place : caller .rsp = layout.top (floor + 24)) :
    SameOutside (layout.stack (floor + 24)) caller.memory
      (saved caller.memory (caller .rsp) (caller .r12) (caller .rbp)
        (caller .rbx)) := by
  obtain ⟨first, second, third⟩ := push_places place
  apply saved_sameOutside
  · rw [first]
    exact layout.slot_subset (by omega)
  · rw [second]
    exact layout.slot_subset (by omega)
  · rw [third]
    exact layout.slot_subset (by omega)

theorem saved_slots (place : caller .rsp = layout.top (floor + 32)) :
    layout.Slots floor caller
      (saved caller.memory (caller .rsp) (caller .r12) (caller .rbp)
        (caller .rbx)) := by
  have shifted : caller .rsp = layout.top (floor + 8 + 24) := place
  obtain ⟨first, second, third⟩ := push_places shifted
  constructor
  · have rbx := saved_rbx caller.memory (caller .rsp) (caller .r12)
      (caller .rbp) (caller .rbx)
    rw [third] at rbx
    exact rbx
  · have rbp := saved_rbp caller.memory (caller .rsp) (caller .r12)
      (caller .rbp) (caller .rbx)
    rw [second] at rbp
    exact rbp
  · have r12 := saved_r12 caller.memory (caller .rsp) (caller .r12)
      (caller .rbp) (caller .rbx)
    rw [first] at r12
    exact r12
  · rw [← place]
    exact saved_return _ _ _ _ _

end Layout

end SystemsLabs.QuickSort
