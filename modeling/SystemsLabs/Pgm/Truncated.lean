import SystemsLabs.Pgm.RoundTrip

/-!
# Streams that are accepted although they are cut

`readImage` returns 0 also when bytes of the pixels are missing, when text
follows the digits of a number, and when a number is cut at nine characters.
It has read a complete image when the stream has a header with short numbers
and all the bytes behind it.
-/

namespace SystemsLabs.Pgm

open Stdio CellLoops
open Mask (Image N)

/-- All that is read is a complete header and the bytes of the pixels, and the
pixels that are stored are the ones in these bytes. -/
structure Complete (bytes : Stream) (outcome : Outcome) : Prop where
  stream : ∃ texts header data,
    bytes = header ++ (data ++ outcome.file) ∧
    Header outcome.picture.rows outcome.picture.cols outcome.picture.white
      texts header ∧
    data.length = outcome.picture.rows.toNat * outcome.picture.cols.toNat *
      pixelWidth outcome.picture.white ∧
    ∀ row < outcome.picture.rows.toNat, ∀ col < outcome.picture.cols.toNat,
      pixelValue outcome.picture.white
        (data.drop ((row * outcome.picture.cols.toNat + col) *
          pixelWidth outcome.picture.white)) =
        some (outcome.picture.A (row, col)).toInt
  colsRange : 0 ≤ outcome.picture.cols ∧ outcome.picture.cols ≤ N
  rowsRange : 0 ≤ outcome.picture.rows ∧ outcome.picture.rows ≤ N
  whiteRange : 0 ≤ outcome.picture.white ∧ outcome.picture.white < 65536
  pixels : ∀ row < outcome.picture.rows.toNat,
    ∀ col < outcome.picture.cols.toNat,
      0 ≤ (outcome.picture.A (row, col)).toInt ∧
      (outcome.picture.A (row, col)).toInt < 65536

section Accepted

variable {stack : Nat → Frame} {file data : Stream} {rows cols white : Int}
  {A : Image}

theorem pixel_room {rows cols row col : Nat} (rowInside : row < rows)
    (colInside : col < cols) :
    (row * cols + col) * pixelWidth white + pixelWidth white ≤
      rows * cols * pixelWidth white :=
  calc
    _ = (row * cols + col + 1) * pixelWidth white := (Nat.succ_mul _ _).symm
    _ ≤ rows * cols * pixelWidth white :=
      Nat.mul_le_mul_right _ (cell_number_lt rowInside colInside)

theorem accepted_pixels {rows cols : Nat}
    (enough : rows * cols * pixelWidth white ≤ data.length) {row col : Nat}
    (rowInside : row < rows) (colInside : col < cols) :
    ∃ value, pixelValue white
        ((data.take (rows * cols * pixelWidth white)).drop
          ((row * cols + col) * pixelWidth white)) = some value ∧
      ((accepted rows cols white A data).picture.A (row, col)).toInt = value ∧
      0 ≤ value ∧ value < 65536 := by
  have room := @pixel_room white _ _ _ _ rowInside colInside
  have taken := List.length_take_of_le enough
  have within : (row * cols + col) * pixelWidth white ≤
      (data.take (rows * cols * pixelWidth white)).length := by omega
  have width : pixelWidth white ≤ ((data.take (rows * cols *
      pixelWidth white)).drop ((row * cols + col) * pixelWidth white)).length := by
    rw [List.length_drop]
    omega
  obtain ⟨value, present, read, low, high⟩ := readPixel_value width
  refine ⟨value, present, ?_, low, high⟩
  have stored := read (data.drop (rows * cols * pixelWidth white))
  rw [← List.drop_append_of_le_length within, List.take_append_drop] at stored
  rw [accepted_pixel white A data rowInside colInside, stored]
  apply BitVec.toInt_ofInt_eq_self (by decide)
  · exact Int.le_trans (by decide) low
  · exact Int.lt_trans high (by decide)

end Accepted

section Cut

variable {stack : Nat → Frame} {rows cols white : Int}

theorem drop_left {value : Int} {text : Stream} (decimal : Decimal value text)
    (long : 9 < text.length) :
    text.drop 9 ≠ [] ∧ Solid (text.drop 9) ∧ hash ∉ text.drop 9 := by
  refine ⟨?_, ?_, ?_⟩
  · intro none
    exact Nat.not_le.mpr long (List.drop_eq_nil_iff.mp none)
  · intro byte member
    exact decimal.solid byte (List.mem_of_mem_drop member)
  · intro member
    exact hash_notMem decimal (List.mem_of_mem_drop member)

/-- When a number of the header is cut, the data begins too early. -/
theorem Header.cut {texts : List Stream} {bytes tail file data : Stream}
    {otherRows otherCols otherWhite : Int}
    (header : Header rows cols white texts bytes)
    (long : ∃ text ∈ texts, 9 < text.length)
    (starts : bytes ++ tail = ascii 'P' :: ascii '5' :: file)
    (numbers : NumbersAt stack file otherRows otherCols otherWhite data) :
    tail.length < data.length := by
  obtain ⟨first, second, third, space, colsText, rowsText, whiteText, rfl, rfl,
    ⟨colsNumeral, rowsNumeral, whiteNumeral⟩, secondBreaks, thirdBreaks,
    isSpace⟩ := header
  obtain ⟨calls, rest, after, left, last, other, colsAt, rowsAt, whiteAt, _⟩ :=
    numbers
  have parts : file = first ++ (second ++ (third ++ space :: tail)) := by
    simp only [List.cons_append, List.append_assoc, List.nil_append,
      List.cons.injEq] at starts
    exact starts.2.2.symm
  subst parts
  have spaceBreaks : Breaks (space :: tail) := by
    intro byte member
    cases member
    exact isSpace
  have thirdRest := @Numeral.breaks _ _ _ (space :: tail) whiteNumeral
    thirdBreaks
  have secondRest := @Numeral.breaks _ _ _ (third ++ space :: tail) rowsNumeral
    secondBreaks
  have thirdLength : 0 < third.length :=
    Nat.lt_of_lt_of_le (List.length_pos_iff.mpr whiteNumeral.decimal.ne_nil)
      whiteNumeral.length_le
  suffices longer : (space :: tail).length < (other :: data).length from
    Nat.lt_of_succ_lt_succ longer
  obtain ⟨_, _, colsCut⟩ := @Numeral.numberAt stack 0 _ _ _ _ colsNumeral
    secondRest
  obtain ⟨_, rfl, rfl⟩ := colsAt.functional colsCut
  by_cases colsLong : 9 < colsText.length
  · obtain ⟨nonempty, solid, noHash⟩ := drop_left colsNumeral.decimal colsLong
    obtain ⟨_, _, rowsLeft⟩ := @numberAt_left stack calls _ _ nonempty solid
      noHash secondRest
    obtain ⟨_, rfl, rfl⟩ := rowsAt.functional rowsLeft
    by_cases used : (colsText.drop 9).drop 9 = []
    · rw [used, List.nil_append] at whiteAt
      obtain ⟨_, _, whiteCut⟩ := @Numeral.numberAt stack after _ _ _ _
        rowsNumeral thirdRest
      have lengths := congrArg List.length (whiteAt.functional whiteCut).2.2
      simp only [List.length_append, List.length_cons] at lengths ⊢
      omega
    · obtain ⟨_, _, whiteLeft⟩ := @numberAt_left stack after _ _ used
        (fun byte member => solid byte (List.mem_of_mem_drop member))
        (fun member => noHash (List.mem_of_mem_drop member)) secondRest
      have lengths := congrArg List.length (whiteAt.functional whiteLeft).2.2
      simp only [List.length_append, List.length_cons] at lengths ⊢
      omega
  · rw [List.drop_eq_nil_of_le (Nat.not_lt.mp colsLong), List.nil_append]
      at rowsAt
    obtain ⟨_, _, rowsCut⟩ := @Numeral.numberAt stack calls _ _ _ _ rowsNumeral
      thirdRest
    obtain ⟨_, rfl, rfl⟩ := rowsAt.functional rowsCut
    by_cases rowsLong : 9 < rowsText.length
    · obtain ⟨nonempty, solid, noHash⟩ := drop_left rowsNumeral.decimal rowsLong
      obtain ⟨_, _, whiteLeft⟩ := @numberAt_left stack after _ _ nonempty solid
        noHash thirdRest
      have lengths := congrArg List.length (whiteAt.functional whiteLeft).2.2
      simp only [List.length_append, List.length_cons] at lengths ⊢
      omega
    · rw [List.drop_eq_nil_of_le (Nat.not_lt.mp rowsLong), List.nil_append]
        at whiteAt
      obtain ⟨_, _, whiteCut⟩ := @Numeral.numberAt stack after _ _ _ _
        whiteNumeral spaceBreaks
      have whiteLong : 9 < whiteText.length := by
        obtain ⟨text, member, longer⟩ := long
        simp only [List.mem_cons, List.not_mem_nil, or_false] at member
        rcases member with rfl | rfl | rfl
        · exact (colsLong longer).elim
        · exact (rowsLong longer).elim
        · exact longer
      have lengths := congrArg List.length (whiteAt.functional whiteCut).2.2
      simp only [List.length_append, List.length_cons, List.length_drop]
        at lengths ⊢
      omega

end Cut

section Results

variable {stack : Nat → Frame} {fuel : Nat} {filename : String}
  {picture : Picture} {bytes : Stream} {outcome : Outcome}

theorem WellFormed.complete (wellFormed : WellFormed bytes)
    (read : readImage stack fuel filename (.ok bytes) picture = some outcome)
    (zero : outcome.code = 0) : Complete bytes outcome := by
  obtain ⟨file, rows, cols, white, data, rfl, header, rfl⟩ :=
    readImage_zero read zero
  obtain ⟨otherRows, otherCols, otherWhite, texts, front, tail, parts, format,
    short, enough⟩ := wellFormed
  obtain ⟨other, starts, numbers⟩ := @Header.numbersAt stack _ _ _ _ _ format
    short tail
  rw [← parts] at starts
  cases starts
  obtain ⟨rfl, rfl, rfl, rfl⟩ := header.numbers.functional numbers
  have rowsRange := header.rowsRange
  have colsRange := header.colsRange
  obtain ⟨rows, rfl⟩ := Int.eq_ofNat_of_zero_le rowsRange.1
  obtain ⟨cols, rfl⟩ := Int.eq_ofNat_of_zero_le colsRange.1
  rw [Int.toNat_natCast, Int.toNat_natCast] at enough
  refine ⟨⟨texts, front, data.take (rows * cols * pixelWidth white), ?_, format,
    ?_, ?_⟩, colsRange, rowsRange, header.whiteRange, ?_⟩
  · rw [accepted_file, List.take_append_drop]
    exact parts
  · exact List.length_take_of_le enough
  · intro row rowInside col colInside
    obtain ⟨value, present, stored, _⟩ := @accepted_pixels data white picture.A
      rows cols enough row col rowInside colInside
    exact present.trans (congrArg some stored.symm)
  · intro row rowInside col colInside
    obtain ⟨value, _, stored, range⟩ := @accepted_pixels data white picture.A
      rows cols enough row col rowInside colInside
    exact stored.symm ▸ range

theorem Complete.wellFormed (complete : Complete bytes outcome)
    (read : readImage stack fuel filename (.ok bytes) picture = some outcome)
    (zero : outcome.code = 0) : WellFormed bytes := by
  obtain ⟨file, rows, cols, white, data, rfl, header, rfl⟩ :=
    readImage_zero read zero
  have rowsRange := header.rowsRange
  have colsRange := header.colsRange
  obtain ⟨rows, rfl⟩ := Int.eq_ofNat_of_zero_le rowsRange.1
  obtain ⟨cols, rfl⟩ := Int.eq_ofNat_of_zero_le colsRange.1
  obtain ⟨texts, front, pixels, parts, format, length, _⟩ := complete.stream
  rw [accepted_file] at parts
  refine ⟨_, _, _, texts, front, _, parts, format, ?_, ?_⟩
  · by_contra long
    obtain ⟨text, member, longer⟩ : ∃ text ∈ texts, 9 < text.length := by
      by_contra short
      exact long fun text member =>
        Nat.not_lt.mp fun longer => short ⟨text, member, longer⟩
    have early := format.cut ⟨text, member, longer⟩ parts.symm header.numbers
    rw [List.length_append, List.length_drop, length] at early
    change rows * cols * pixelWidth white + (data.length -
      rows * cols * pixelWidth white) < data.length at early
    omega
  · rw [List.length_append, length]
    exact Nat.le_add_right _ _

end Results

/-- A stream with the result 0 was a complete image exactly when it begins with
a header of short numbers and has bytes for all pixels. -/
theorem accepted_complete_iff {stack : Nat → Frame} {fuel : Nat}
    {filename : String} {bytes : Stream} {picture : Picture} {outcome : Outcome}
    (read : readImage stack fuel filename (.ok bytes) picture = some outcome)
    (zero : outcome.code = 0) : Complete bytes outcome ↔ WellFormed bytes :=
  ⟨fun complete => complete.wellFormed read zero,
    fun wellFormed => wellFormed.complete read zero⟩

theorem saved_complete :
    ∃ outcome, readImage (fun _ => ⟨[], 0⟩) 20 "image.pgm"
        (.ok (saveImage sixPixels)) (onePixel 0) = some outcome ∧
      outcome.code = 0 ∧ Complete (saveImage sixPixels) outcome := by
  have code : (readImage (fun _ => ⟨[], 0⟩) 20 "image.pgm"
      (.ok (saveImage sixPixels)) (onePixel 0)).map Outcome.code =
        some 0 := by decide +kernel
  obtain ⟨outcome, read, zero⟩ := Option.map_eq_some_iff.mp code
  exact ⟨outcome, read, zero, (accepted_complete_iff read zero).mpr
    (sixPixels_savable.wellFormed (by decide))⟩

/-- The header of an image of one pixel, without the pixel. -/
theorem missing_pixel_accepted :
    ∃ outcome, readImage (fun _ => ⟨[], 0⟩) 12 "image.pgm"
        (.ok (savedHeader (onePixel 255))) (onePixel 0) = some outcome ∧
      outcome.code = 0 ∧ (outcome.picture.A (0, 0)).toInt = -1 ∧
      ¬Complete (savedHeader (onePixel 255)) outcome := by
  have facts : (readImage (fun _ => ⟨[], 0⟩) 12 "image.pgm"
      (.ok (savedHeader (onePixel 255))) (onePixel 0)).map (fun outcome =>
        (outcome.code, outcome.picture.rows, outcome.picture.cols,
          (outcome.picture.A (0, 0)).toInt)) = some (0, 1, 1, -1) := by
    decide +kernel
  obtain ⟨outcome, read, values⟩ := Option.map_eq_some_iff.mp facts
  simp only [Prod.mk.injEq] at values
  obtain ⟨zero, rows, cols, pixel⟩ := values
  refine ⟨outcome, read, zero, pixel, fun complete => ?_⟩
  have low := (complete.pixels 0 (by rw [rows]; decide) 0
    (by rw [cols]; decide)).1
  rw [Nat.cast_zero, pixel] at low
  exact absurd low (by decide)

end SystemsLabs.Pgm
