import SystemsLabs.Pgm.Truncated

/-!
# Headers with the same numbers

A header may have comments, any white space, signs and leading zeros.
`readImage` answers alike for all headers with the same three numbers, as long
as none of them has more than nine characters, and it accepts the numbers in
the ranges of the program and no others.
-/

namespace SystemsLabs.Pgm

open Stdio CellLoops
open Mask (Image N)

/-- The result, the picture and the message for three numbers that were read. -/
def answer (filename : String) (rows cols white : Int) (data : Stream)
    (picture : Picture) : Int × Picture × String :=
  let invalid := s!"{filename}: Invalid PGM format.\n"
  if cols < 0 then (3, { picture with cols := cols }, invalid)
  else if rows < 0 then (3, { picture with cols := cols, rows := rows }, invalid)
  else if white < 0 ∨ white ≥ 65536 then
    (3, ⟨picture.A, rows, cols, white⟩, invalid)
  else if cols > N ∨ rows > N then
    (4, ⟨picture.A, rows, cols, white⟩,
      s!"This program supports files up to {N}x{N} pixels, " ++
        s!"but the file contains {rows}x{cols} pixels.\n")
  else (0, (accepted rows cols white picture.A data).picture, "")

section Answers

variable {stack : Nat → Frame} {fuel : Nat} {filename : String}
  {picture : Picture} {file data : Stream} {rows cols white : Int}

theorem readImage_header {valid : Bool} {after : Picture}
    (read : readHeader stack fuel file picture = some (valid, after, data)) :
    readImage stack fuel filename (.ok (ascii 'P' :: ascii '5' :: file))
        picture =
      some (if !valid then
          ⟨3, after, s!"{filename}: Invalid PGM format.\n", data⟩
        else if after.cols > N ∨ after.rows > N then
          ⟨4, after, s!"This program supports files up to {N}x{N} pixels, " ++
            s!"but the file contains {after.rows}x{after.cols} pixels.\n", data⟩
        else accepted after.rows after.cols after.white after.A data) := by
  have magic := (magic_iff (ascii 'P' :: ascii '5' :: file)).mpr rfl
  rw [readImage]
  dsimp only
  rw [if_neg magic]
  change (readHeader stack fuel file picture).bind _ = _
  rw [read, Option.bind_some]
  dsimp only
  split
  · rfl
  · split
    · rfl
    · rfl

theorem NumbersAt.readImage
    (numbers : NumbersAt stack file rows cols white data)
    (enough : file.length < fuel) :
    ∃ left, readImage stack fuel filename
        (.ok (ascii 'P' :: ascii '5' :: file)) picture =
      some ⟨(answer filename rows cols white data picture).1,
        (answer filename rows cols white data picture).2.1,
        (answer filename rows cols white data picture).2.2, left⟩ := by
  obtain ⟨calls, rest, after, left, last, space, colsAt, rowsAt, whiteAt,
    isSpace⟩ := numbers
  have restEnough := Nat.lt_of_le_of_lt colsAt.length_le enough
  have leftEnough := Nat.lt_of_le_of_lt rowsAt.length_le restEnough
  have colsRead := colsAt.returns enough
  have rowsRead := rowsAt.returns restEnough
  have whiteRead := whiteAt.returns leftEnough
  by_cases colsNegative : cols < 0
  · have read : readHeader stack fuel file picture =
        some (false, { picture with cols := cols }, rest) := by
      simp only [readHeader, colsRead, Option.bind_some, if_pos colsNegative]
    refine ⟨rest, ?_⟩
    rw [readImage_header read, answer, if_pos colsNegative]
    rfl
  by_cases rowsNegative : rows < 0
  · have read : readHeader stack fuel file picture =
        some (false, { picture with cols := cols, rows := rows }, left) := by
      simp only [readHeader, colsRead, rowsRead, Option.bind_some,
        if_neg colsNegative, if_pos rowsNegative]
    refine ⟨left, ?_⟩
    rw [readImage_header read, answer, if_neg colsNegative,
      if_pos rowsNegative]
    rfl
  by_cases whiteInvalid : white < 0 ∨ white ≥ 65536
  · have read : readHeader stack fuel file picture =
        some (false, ⟨picture.A, rows, cols, white⟩, space :: data) := by
      simp only [readHeader, colsRead, rowsRead, whiteRead, Option.bind_some,
        if_neg colsNegative, if_neg rowsNegative, if_pos whiteInvalid]
    refine ⟨space :: data, ?_⟩
    rw [readImage_header read, answer, if_neg colsNegative,
      if_neg rowsNegative, if_pos whiteInvalid]
    rfl
  have read : readHeader stack fuel file picture =
      some (true, ⟨picture.A, rows, cols, white⟩, data) := by
    simp only [readHeader, colsRead, rowsRead, whiteRead, Option.bind_some,
      if_neg colsNegative, if_neg rowsNegative, if_neg whiteInvalid, ← isSpace]
    rfl
  rw [readImage_header read, answer, if_neg colsNegative, if_neg rowsNegative,
    if_neg whiteInvalid]
  by_cases large : cols > N ∨ rows > N
  · refine ⟨data, ?_⟩
    dsimp only
    rw [if_neg (by decide), if_pos large, if_pos large]
  · refine ⟨(accepted rows cols white picture.A data).file, ?_⟩
    dsimp only
    rw [if_neg (by decide), if_neg large, if_neg large]
    rfl

theorem answer_zero_iff :
    (answer filename rows cols white data picture).1 = 0 ↔
      (0 ≤ cols ∧ cols ≤ N) ∧ (0 ≤ rows ∧ rows ≤ N) ∧
        0 ≤ white ∧ white < 65536 := by
  rw [answer]
  split
  · exact iff_of_false (by decide : (3 : Int) ≠ 0) (by omega)
  split
  · exact iff_of_false (by decide : (3 : Int) ≠ 0) (by omega)
  split
  · exact iff_of_false (by decide : (3 : Int) ≠ 0) (by omega)
  split
  · exact iff_of_false (by decide : (4 : Int) ≠ 0) (by omega)
  · exact iff_of_true rfl (by omega)

/-- The image of an answer other than 0 is the one from before. -/
theorem answer_refused
    (refused : (answer filename rows cols white data picture).1 ≠ 0) :
    ((answer filename rows cols white data picture).1 = 3 ∨
        (answer filename rows cols white data picture).1 = 4) ∧
      (answer filename rows cols white data picture).2.1.A = picture.A := by
  have outside := mt answer_zero_iff.mpr refused
  rw [answer]
  split
  · exact ⟨.inl rfl, rfl⟩
  split
  · exact ⟨.inl rfl, rfl⟩
  split
  · exact ⟨.inl rfl, rfl⟩
  split
  · exact ⟨.inr rfl, rfl⟩
  · omega

theorem answer_zero
    (zero : (answer filename rows cols white data picture).1 = 0) :
    (answer filename rows cols white data picture).2 =
      ((accepted rows cols white picture.A data).picture, "") := by
  have ranges := answer_zero_iff.mp zero
  have colsValid : ¬cols < 0 := by omega
  have rowsValid : ¬rows < 0 := by omega
  have whiteValid : ¬(white < 0 ∨ white ≥ 65536) := by omega
  have small : ¬(cols > N ∨ rows > N) := by omega
  rw [answer, if_neg colsValid, if_neg rowsValid, if_neg whiteValid,
    if_neg small]

end Answers

/-- The answer to a file depends on the numbers of its header and on the data
behind it, not on the comments, the white space, the signs and the zeros of the
header, nor on what the stack holds.  It is 0 exactly for numbers in their
ranges, and then the pixels are those of the data. -/
theorem layouts_agree (filename : String) (rows cols white : Int)
    (data : Stream) (picture : Picture) :
    ∃ code after stderr,
      (∀ stack fuel texts header, Header rows cols white texts header →
        (∀ text ∈ texts, text.length ≤ 9) →
        (header ++ data).length ≤ fuel →
        ∃ left, readImage stack fuel filename (.ok (header ++ data)) picture =
          some ⟨code, after, stderr, left⟩) ∧
      (code = 0 ↔ (0 ≤ cols ∧ cols ≤ N) ∧ (0 ≤ rows ∧ rows ≤ N) ∧
        0 ≤ white ∧ white < 65536) ∧
      (code ≠ 0 → (code = 3 ∨ code = 4) ∧ after.A = picture.A) ∧
      (code = 0 → (after.rows, after.cols, after.white) = (rows, cols, white) ∧
        (rows.toNat * cols.toNat * pixelWidth white ≤ data.length →
          ∀ row < rows.toNat, ∀ col < cols.toNat,
            pixelValue white (data.drop
              ((row * cols.toNat + col) * pixelWidth white)) =
              some (after.A (row, col)).toInt)) := by
  refine ⟨(answer filename rows cols white data picture).1,
    (answer filename rows cols white data picture).2.1,
    (answer filename rows cols white data picture).2.2, ?_, answer_zero_iff,
    answer_refused, ?_⟩
  · intro stack fuel texts header format short enough
    obtain ⟨file, starts, numbers⟩ := @Header.numbersAt stack _ _ _ _ _ format
      short data
    rw [starts] at enough ⊢
    exact numbers.readImage (Nat.lt_of_succ_lt enough)
  · intro zero
    have ranges := answer_zero_iff.mp zero
    rw [answer_zero zero]
    refine ⟨rfl, ?_⟩
    obtain ⟨rows, rfl⟩ := Int.eq_ofNat_of_zero_le ranges.2.1.1
    obtain ⟨cols, rfl⟩ := Int.eq_ofNat_of_zero_le ranges.1.1
    rw [Int.toNat_natCast, Int.toNat_natCast]
    intro enough row rowInside col colInside
    have room := @pixel_room white _ _ _ _ rowInside colInside
    have width : pixelWidth white ≤
        (data.drop ((row * cols + col) * pixelWidth white)).length := by
      rw [List.length_drop]
      omega
    obtain ⟨value, present, read, low, high⟩ := readPixel_value width
    have stored := read []
    rw [List.append_nil] at stored
    dsimp only
    rw [present, accepted_pixel white picture.A data rowInside colInside,
      stored]
    apply congrArg some
    symm
    apply BitVec.toInt_ofInt_eq_self (by decide)
    · exact Int.le_trans (by decide) low
    · exact Int.lt_trans high (by decide)

/-- A header with comments, signs and leading zeros. -/
def commentedHeader : Stream :=
  "P5 # three columns\n+03\t002 # one byte\n+255\n".toList.map ascii

/-- The texts of its numbers. -/
def commentedTexts : List Stream :=
  [['+', '0', '3'].map ascii, ['0', '0', '2'].map ascii,
    ['+', '2', '5', '5'].map ascii]

theorem commentedHeader_header :
    Header 2 3 255 commentedTexts commentedHeader := by
  have cols : Decimal 3 (['+', '0', '3'].map ascii) :=
    @Decimal.plus (['0', '3'].map ascii) (by decide)
      (List.all_eq_true.mp rfl)
  have rows : Decimal 2 (['0', '0', '2'].map ascii) :=
    @Decimal.plain (['0', '0', '2'].map ascii) (by decide)
      (List.all_eq_true.mp rfl)
  have white : Decimal 255 (['+', '2', '5', '5'].map ascii) :=
    @Decimal.plus (['2', '5', '5'].map ascii) (by decide)
      (List.all_eq_true.mp rfl)
  have first := @Numeral.comment 3 _ [ascii ' ']
    (" three columns".toList.map ascii) _ (by decide) (by decide)
    (@Numeral.plain _ _ [] (by decide) cols)
  have second := @Numeral.plain _ _ [ascii '\t'] (by decide) rows
  have third := @Numeral.comment 255 _ [ascii ' ']
    (" one byte".toList.map ascii) _ (by decide) (by decide)
    (@Numeral.plain _ _ [] (by decide) white)
  refine ⟨_, _, _, newline, _, _, _, rfl, by decide, ⟨first, second, third⟩,
    ?_, ?_, by decide⟩
  · intro byte member
    cases member
    decide
  · intro byte member
    cases member
    decide

theorem commentedHeader_agrees :
    ∃ after stderr,
      (∃ left, readImage (fun _ => ⟨[], 0⟩) 60 "image.pgm"
        (.ok (commentedHeader ++ savedPixels sixPixels)) (onePixel 0) =
          some ⟨0, after, stderr, left⟩) ∧
      (∃ left, readImage (fun _ => ⟨[hash], 7⟩) 60 "image.pgm"
        (.ok (savedHeader sixPixels ++ savedPixels sixPixels)) (onePixel 0) =
          some ⟨0, after, stderr, left⟩) ∧
      ∀ row < 2, ∀ col < 3,
        pixelValue 255 ((savedPixels sixPixels).drop (row * 3 + col)) =
          some (after.A (row, col)).toInt := by
  obtain ⟨code, after, stderr, read, zero_iff, _, stored⟩ :=
    layouts_agree "image.pgm" 2 3 255 (savedPixels sixPixels) (onePixel 0)
  obtain rfl := zero_iff.mpr (by decide)
  obtain ⟨texts, header, short⟩ := sixPixels_savable.header
  obtain ⟨_, pixels⟩ := stored rfl
  refine ⟨after, stderr,
    read _ 60 _ _ commentedHeader_header (by decide) (by decide),
    read _ 60 texts _ header short (by decide), ?_⟩
  intro row rowInside col colInside
  have found := pixels (by decide) row rowInside col colInside
  rw [show pixelWidth 255 = 1 from rfl, Nat.mul_one] at found
  exact found

end SystemsLabs.Pgm
