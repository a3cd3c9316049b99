import SystemsLabs.QuickSort.Recursion

/-!
# Small right parts

Whether a call ever finds two values greater than its pivot can be read off the
array: the partition keeps the order of the values that are not greater.
-/

namespace SystemsLabs.QuickSort

open CellLoops

/-- The values of `front` that are greater than `value` and not greater than any
value behind it. -/
def stillGreater (front : List (BitVec 64)) (value : BitVec 64)
    (behind : List (BitVec 64)) : List (BitVec 64) :=
  front.filter fun earlier =>
    value.slt earlier && behind.all fun later => earlier.sle later

/-- At no place are there two earlier values that are greater than the value
there and not greater than any value behind it. -/
def FewGreater (values : List (BitVec 64)) : Prop :=
  ∀ place : Fin values.length,
    (stillGreater (values.take place) values[place]
      (values.drop (place + 1))).length ≤ 1

instance (values : List (BitVec 64)) : Decidable (FewGreater values) :=
  inferInstanceAs (Decidable (∀ _ : Fin values.length, _ ≤ _))

theorem fewGreater_iff {values : List (BitVec 64)} :
    FewGreater values ↔ ∀ front value behind,
      values = front ++ value :: behind →
        (stillGreater front value behind).length ≤ 1 := by
  constructor
  · rintro few front value behind rfl
    have inside : front.length < (front ++ value :: behind).length := by simp
    simpa using few ⟨front.length, inside⟩
  · intro few place
    apply few
    rw [Fin.getElem_fin, List.cons_getElem_drop_succ, List.take_append_drop]

theorem sle_trans {first second third : BitVec 64}
    (low : first.sle second = true) (high : second.sle third = true) :
    first.sle third = true := by
  rw [BitVec.sle_iff_toInt_le] at low high ⊢
  exact low.trans high

theorem sle_of_not_sle {left right : BitVec 64}
    (greater : ¬left.sle right = true) : right.sle left = true := by
  rw [BitVec.sle_iff_toInt_le] at greater ⊢
  exact (not_le.mp greater).le

/-- Values greater than the pivot do not matter in the left part. -/
theorem stillGreater_filter (front behind : List (BitVec 64))
    (value pivot : BitVec 64) :
    stillGreater (front.filter (·.sle pivot)) value
        (behind.filter (·.sle pivot)) =
      stillGreater front value (behind ++ [pivot]) := by
  unfold stillGreater
  rw [List.filter_filter]
  apply List.filter_congr
  intro earlier _
  rw [Bool.eq_iff_iff]
  simp only [Bool.and_eq_true, List.all_eq_true, List.mem_filter,
    List.mem_append, List.mem_singleton]
  constructor
  · rintro ⟨⟨greater, least⟩, small⟩
    refine ⟨greater, ?_⟩
    rintro later (member | rfl)
    · by_cases low : later.sle pivot = true
      · exact least later ⟨member, low⟩
      · exact sle_trans small (sle_of_not_sle low)
    · exact small
  · rintro ⟨greater, least⟩
    refine ⟨⟨greater, ?_⟩, least pivot (.inr rfl)⟩
    rintro later ⟨member, _⟩
    exact least later (.inl member)

/-- What the condition says for a call and for the call for its left part. -/
theorem fewGreater_append {front : List (BitVec 64)} {pivot : BitVec 64} :
    FewGreater (front ++ [pivot]) ↔
      (front.filter (pivot.slt ·)).length ≤ 1 ∧
        FewGreater (front.filter (·.sle pivot)) := by
  constructor
  · intro few
    rw [fewGreater_iff] at few ⊢
    constructor
    · have last := few front pivot [] rfl
      simpa [stillGreater] using last
    · intro first value rest split
      obtain ⟨left, right, rfl, rfl, same⟩ :=
        List.filter_eq_append_iff.mp split
      obtain ⟨skipped, behind, rfl, large, small, rfl⟩ :=
        List.filter_eq_cons_iff.mp same
      rw [stillGreater_filter]
      have whole := few (left ++ skipped) value (behind ++ [pivot]) (by simp)
      rw [stillGreater, List.filter_append, List.length_append] at whole
      exact (Nat.le_add_right _ _).trans whole
  · rintro ⟨few, rest⟩
    rw [fewGreater_iff] at rest ⊢
    intro first value behind split
    rcases List.eq_nil_or_concat behind with rfl | ⟨inner, last, rfl⟩
    · obtain ⟨rfl, same⟩ := List.append_inj' split rfl
      obtain ⟨rfl, _⟩ := List.cons.inj same
      simpa [stillGreater] using few
    · have shifted : front ++ [pivot] = (first ++ value :: inner) ++ [last] := by
        simpa using split
      obtain ⟨rfl, same⟩ := List.append_inj' shifted rfl
      obtain ⟨rfl, _⟩ := List.cons.inj same
      rw [List.concat_eq_append]
      by_cases small : value.sle pivot = true
      · rw [← stillGreater_filter]
        apply rest
        rw [List.filter_append]
        exact congrArg _ (List.filter_cons_of_pos small)
      · have none : stillGreater first value (inner ++ [pivot]) = [] := by
          apply List.filter_eq_nil_iff.mpr
          intro earlier _ both
          simp only [Bool.and_eq_true, List.all_eq_true] at both
          have low : earlier.sle pivot = true := both.2 pivot (by simp)
          have greater : value.sle earlier = true := by
            have less := BitVec.slt_iff_toInt_lt.mp both.1
            exact BitVec.sle_iff_toInt_le.mpr less.le
          exact small (sle_trans greater low)
        rw [none]
        decide

section Order

/-- The values of the cells from `first` up to `last`. -/
def valuesOf (longs : Longs) (first last : Int) : List (BitVec 64) :=
  (interval first last).map longs.cell

theorem valuesOf_snoc (longs : Longs) {first last : Int} (le : first ≤ last) :
    valuesOf longs first (last + 1) =
      valuesOf longs first last ++ [longs.cell last] := by
  rw [valuesOf, interval_snoc le, List.map_append]
  rfl

theorem valuesOf_cons (longs : Longs) {first last : Int} (lt : first < last) :
    valuesOf longs first last =
      longs.cell first :: valuesOf longs (first + 1) last := by
  rw [valuesOf, interval_cons lt]
  rfl

theorem valuesOf_empty (longs : Longs) {first last : Int} (le : last ≤ first) :
    valuesOf longs first last = [] := by
  rw [valuesOf, interval_empty le]
  rfl

theorem valuesOf_congr {longs other : Longs} {first last : Int}
    (same : ∀ place ∈ Set.Ico first last, other.cell place = longs.cell place) :
    valuesOf other first last = valuesOf longs first last := by
  apply List.map_congr_left
  intro place member
  exact same place (mem_interval.mp member)

/-- The loop moves the values that are not greater than the pivot to the front,
in their order. -/
theorem partitionLoop_values (pivot : BitVec 64) {A i j high : Int}
    (longs : Longs) (start : A ≤ i) (le : i ≤ j) (inside : j ≤ high) :
    valuesOf (partitionLoop pivot high i j longs).2 A
        (partitionLoop pivot high i j longs).1 =
      valuesOf longs A i ++
        (valuesOf longs j high).filter (·.sle pivot) := by
  obtain ⟨rounds, distance⟩ := Int.le.dest inside
  induction rounds generalizing i j longs with
  | zero =>
      rw [partitionLoop_done (by omega), @valuesOf_empty longs j high (by omega),
        List.filter_nil, List.append_nil]
  | succ rounds ih =>
      have more : j < high := by omega
      rw [valuesOf_cons longs more, List.filter_cons]
      cases small : (longs.cell j).sle pivot with
      | true =>
          let swapped := (longs.read j).2.swap j i
          have cell : ∀ place, swapped.cell place =
              longs.cell (Equiv.swap j i place) := by
            intro place
            rw [swap_cell]
            rfl
          have front : valuesOf swapped A i = valuesOf longs A i := by
            apply valuesOf_congr
            rintro place ⟨low, high⟩
            rw [cell, Equiv.swap_apply_of_ne_of_ne (by omega) (by omega)]
          have behind : valuesOf swapped (j + 1) high =
              valuesOf longs (j + 1) high := by
            apply valuesOf_congr
            rintro place ⟨low, high⟩
            rw [cell, Equiv.swap_apply_of_ne_of_ne (by omega) (by omega)]
          rw [partitionLoop_small more small,
            ih swapped (by omega) (by omega) (by omega) (by omega),
            valuesOf_snoc swapped start, front, behind, cell,
            Equiv.swap_apply_right, List.append_assoc]
          rfl
      | false =>
          rw [partitionLoop_large more small,
            ih (longs.read j).2 start (by omega) (by omega) (by omega)]
          rfl

theorem length_valuesOf (longs : Longs) (first last : Int) :
    (valuesOf longs first last).length = (last - first).toNat := by
  rw [valuesOf, interval, List.length_map, List.length_map, List.length_range]

/-- The left part holds the values that are not greater than the pivot. -/
theorem divide_values {A len : Int} (more : ¬len ≤ 1) (longs : Longs) :
    valuesOf (divide A len longs).2 A (divide A len longs).1 =
      (valuesOf longs A (A + len - 1)).filter
        (·.sle (longs.cell (A + len - 1))) := by
  have divided := @divide_divided A len more longs
  have bound := divided.inside
  have loop := partitionLoop_values (longs.cell (A + len - 1))
    (longs.read (A + len - 1)).2 (Int.le_refl A) (Int.le_refl A)
    (show A ≤ A + len - 1 by omega)
  rw [@valuesOf_empty _ A A (Int.le_refl A), List.nil_append] at loop
  apply Eq.trans _ loop
  apply valuesOf_congr
  rintro place ⟨low, high⟩
  change place < (divide A len longs).1 at high
  change (Longs.swap _ (A + len - 1) (divide A len longs).1).cell place = _
  rw [swap_cell, Function.comp_apply,
    Equiv.swap_apply_of_ne_of_ne (by omega) (by omega)]
  rfl

theorem right_length {A len : Int} (more : ¬len ≤ 1) (longs : Longs) :
    len - ((divide A len longs).1 - A) - 1 =
      ((valuesOf longs A (A + len - 1)).filter
        ((longs.cell (A + len - 1)).slt ·)).length := by
  have divided := @divide_divided A len more longs
  have start := divided.start_le
  have bound := divided.inside
  have left := congrArg List.length (@divide_values A len more longs)
  have both : (valuesOf longs A (A + len - 1)).length = _ + _ :=
    List.length_eq_length_filter_add (·.sle (longs.cell (A + len - 1)))
  have others : (fun value => !value.sle (longs.cell (A + len - 1))) =
      ((longs.cell (A + len - 1)).slt ·) := by
    funext value
    rw [BitVec.sle_eq_not_slt, Bool.not_not]
  rw [length_valuesOf] at left both
  rw [others] at both
  omega

theorem fewGreater_short {values : List (BitVec 64)}
    (short : values.length ≤ 1) : FewGreater values := by
  intro place
  have first : (place : Nat) = 0 := by omega
  rw [first]
  exact Nat.zero_le 1

/-- The condition on the recursion is a condition on the array. -/
theorem rightsSmall_iff (A len : Int) (longs : Longs) :
    RightsSmall A len longs ↔ FewGreater (valuesOf longs A (A + len)) := by
  induction size : len.toNat using Nat.strongRecOn
    generalizing A len longs with
  | ind size ih =>
      by_cases base : len ≤ 1
      · have short : (valuesOf longs A (A + len)).length ≤ 1 := by
          rw [length_valuesOf]
          omega
        exact ⟨fun _ => fewGreater_short short, fun _ => .base base⟩
      · have divided := @divide_divided A len base longs
        have start := divided.start_le
        have bound := divided.inside
        have right := @right_length A len base longs
        have whole : valuesOf longs A (A + len) =
            valuesOf longs A (A + len - 1) ++ [longs.cell (A + len - 1)] := by
          rw [← valuesOf_snoc longs (by omega), Int.sub_add_cancel]
        have left := ih ((divide A len longs).1 - A).toNat (by omega) A
          ((divide A len longs).1 - A) (divide A len longs).2 rfl
        rw [add_sub_cancel, divide_values base] at left
        rw [whole, fewGreater_append, ← left]
        constructor
        · intro small
          cases small with
          | base few => exact (base few).elim
          | divide _ few rest => exact ⟨by omega, rest⟩
        · rintro ⟨few, rest⟩
          exact .divide base (by omega) rest

end Order

end SystemsLabs.QuickSort
