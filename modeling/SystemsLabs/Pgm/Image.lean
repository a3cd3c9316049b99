import SystemsLabs.Pgm.Header

/-!
# The images that `readImage` accepts

It returns 0 when the header has three numbers in their ranges and a byte of
white space behind them.  The pixels are then read one after the other, whether
there are bytes for them or not.
-/

namespace SystemsLabs.Pgm

open Stdio CellLoops
open Mask (Image N)

section Pixels

variable {white : Int} {data : Stream}

/-- The number of bytes of a pixel. -/
def pixelWidth (white : Int) : Nat := if white < 0x100 then 1 else 2

def byteValue : Stream → Option Int
  | [] => none
  | byte :: _ => some byte.toNat

/-- The higher byte is the first one. -/
def pairValue : Stream → Option Int
  | high :: low :: _ => some (256 * high.toNat + low.toNat)
  | _ => none

/-- The pixel at the beginning of a stream. -/
def pixelValue (white : Int) (data : Stream) : Option Int :=
  if white < 0x100 then byteValue data else pairValue data

theorem joinBytes_bytes (high low : UInt8) :
    joinBytes high.toNat low.toNat = 256 * high.toNat + low.toNat := by
  have highSmall := high.toNat_lt
  have lowSmall := low.toNat_lt
  have shifted : high.toNat <<< 8 = 256 * high.toNat := by
    rw [Nat.shiftLeft_eq, Nat.mul_comm]
  have highMod : high.toNat % 2 ^ 32 = high.toNat := Nat.mod_eq_of_lt (by omega)
  have lowMod : low.toNat % 2 ^ 32 = low.toNat := Nat.mod_eq_of_lt (by omega)
  have shiftedMod : (256 * high.toNat) % 2 ^ 32 = 256 * high.toNat :=
    Nat.mod_eq_of_lt (by omega)
  have joined : (BitVec.ofInt 32 high.toNat <<< 8 |||
      BitVec.ofInt 32 low.toNat).toNat = 256 * high.toNat + low.toNat := by
    rw [BitVec.toNat_or, BitVec.toNat_shiftLeft, BitVec.ofInt_natCast,
      BitVec.ofInt_natCast, BitVec.toNat_ofNat, BitVec.toNat_ofNat, highMod,
      lowMod, shifted, shiftedMod, ← shifted, Nat.shiftLeft_add_eq_or_of_lt lowSmall]
  rw [joinBytes, BitVec.toInt_eq_toNat_of_lt (by omega), joined]
  rfl

theorem joinBytes_end (high : Int) : joinBytes high (-1) = -1 := by
  have ones : BitVec.ofInt 32 (-1) = BitVec.allOnes 32 := by decide
  rw [joinBytes, ones, BitVec.or_allOnes]
  rfl

theorem readPixel_snd :
    (readPixel white data).2 = data.drop (pixelWidth white) := by
  rw [readPixel, pixelWidth]
  split
  · exact fgetc_snd data
  · simp only [fgetc_snd, List.drop_drop]

/-- A pixel with all its bytes is read as its value, whatever follows. -/
theorem readPixel_value (enough : pixelWidth white ≤ data.length) :
    ∃ value, pixelValue white data = some value ∧
      (∀ rest, (readPixel white (data ++ rest)).1 = value) ∧
      0 ≤ value ∧ value < 65536 := by
  rw [pixelWidth] at enough
  rw [pixelValue]
  by_cases narrow : white < 0x100
  · rw [if_pos narrow] at enough ⊢
    cases data with
    | nil => exact (Nat.not_succ_le_zero 0 enough).elim
    | cons byte data =>
        have small := byte.toNat_lt
        refine ⟨byte.toNat, rfl, fun rest => ?_, by omega, by omega⟩
        rw [readPixel, if_pos narrow]
        rfl
  · rw [if_neg narrow] at enough ⊢
    rcases data with _ | ⟨high, _ | ⟨low, data⟩⟩
    · exact (Nat.not_succ_le_zero 1 enough).elim
    · exact (Nat.not_succ_le_self 1 enough).elim
    · have highSmall := high.toNat_lt
      have lowSmall := low.toNat_lt
      refine ⟨256 * high.toNat + low.toNat, rfl, fun rest => ?_, by omega,
        by omega⟩
      rw [readPixel, if_neg narrow]
      exact joinBytes_bytes high low

theorem visit_readCell {cells : List (Int × Int)} (nodup : cells.Nodup)
    (A : Image) (data : Stream) :
    (visit cells (readCell white) (A, data)).2 =
      data.drop (cells.length * pixelWidth white) ∧
    (∀ number cell, cells[number]? = some cell →
      (visit cells (readCell white) (A, data)).1 cell = BitVec.ofInt 64
        (readPixel white (data.drop (number * pixelWidth white))).1) ∧
    ∀ cell ∉ cells, (visit cells (readCell white) (A, data)).1 cell = A cell := by
  induction cells generalizing A data with
  | nil => exact ⟨(congrArg data.drop (Nat.zero_mul _)).symm, nofun, fun _ _ => rfl⟩
  | cons first cells ih =>
      obtain ⟨fresh, nodup⟩ := List.nodup_cons.mp nodup
      have step : visit (first :: cells) (readCell white) (A, data) =
          visit cells (readCell white)
            (Function.update A first
                (BitVec.ofInt 64 (readPixel white data).1),
              data.drop (pixelWidth white)) := by
        rw [← readPixel_snd]
        rfl
      obtain ⟨rest, later, other⟩ := ih nodup
        (Function.update A first (BitVec.ofInt 64 (readPixel white data).1))
        (data.drop (pixelWidth white))
      rw [step]
      refine ⟨?_, ?_, ?_⟩
      · rw [rest, List.drop_drop, List.length_cons, Nat.succ_mul, Nat.add_comm]
      · intro number cell found
        cases number with
        | zero =>
            cases found
            rw [other first fresh, Function.update_self, Nat.zero_mul]
            rfl
        | succ number =>
            rw [later number cell found, List.drop_drop, Nat.succ_mul,
              Nat.add_comm]
      · intro cell outside
        obtain ⟨different, outside⟩ := not_or.mp (mt List.mem_cons.mpr outside)
        rw [other cell outside, Function.update_of_ne different]

theorem readPixels_spec (rows cols : Nat) (A : Image) (data : Stream) :
    let result := loop 0 rows (fun i =>
      loop 0 cols fun j => readCell white (i, j)) (A, data)
    result.2 = data.drop (rows * cols * pixelWidth white) ∧
    ∀ row < rows, ∀ col < cols, result.1 (row, col) = BitVec.ofInt 64
      (readPixel white
        (data.drop ((row * cols + col) * pixelWidth white))).1 := by
  intro result
  have visits : result = visit (rowByRow 0 rows 0 cols) (readCell white)
      (A, data) := loop_rows (readCell white) (A, data) 0 rows 0 cols
  obtain ⟨rest, values, _⟩ := @visit_readCell white _
    (rowByRow_sweeps 0 rows 0 cols).nodup A data
  rw [visits]
  refine ⟨?_, ?_⟩
  · rw [rest, length_rowByRow]
  · intro row rowInside col colInside
    exact values _ _ (rowByRow_getElem? rowInside colInside)

end Pixels

/-- The three numbers of a header, and the data behind a byte of white space. -/
def NumbersAt (stack : Nat → Frame) (file : Stream) (rows cols white : Int)
    (data : Stream) : Prop :=
  ∃ calls rest after left last space,
    NumberAt stack 0 file cols calls rest ∧
    NumberAt stack calls rest rows after left ∧
    NumberAt stack after left white last (space :: data) ∧
    isSpaceByte space = true

/-- A header that is accepted, and the data behind it. -/
structure HeaderAt (stack : Nat → Frame) (file : Stream)
    (rows cols white : Int) (data : Stream) : Prop where
  numbers : NumbersAt stack file rows cols white data
  colsRange : 0 ≤ cols ∧ cols ≤ N
  rowsRange : 0 ≤ rows ∧ rows ≤ N
  whiteRange : 0 ≤ white ∧ white < 65536

/-- What `readImage` does behind such a header. -/
def accepted (rows cols white : Int) (A : Image) (data : Stream) : Outcome :=
  let (A, file) := loop 0 rows (fun i =>
    loop 0 cols fun j => readCell white (i, j)) (A, data)
  ⟨0, ⟨A, rows, cols, white⟩, "", file⟩

theorem accepted_file (rows cols : Nat) (white : Int) (A : Image)
    (data : Stream) :
    (accepted rows cols white A data).file =
      data.drop (rows * cols * pixelWidth white) :=
  (readPixels_spec rows cols A data).1

theorem accepted_pixel {rows cols row col : Nat} (white : Int) (A : Image)
    (data : Stream) (rowInside : row < rows) (colInside : col < cols) :
    (accepted rows cols white A data).picture.A (row, col) = BitVec.ofInt 64
      (readPixel white
        (data.drop ((row * cols + col) * pixelWidth white))).1 :=
  (readPixels_spec rows cols A data).2 row rowInside col colInside

section Headers

variable {stack : Nat → Frame} {fuel : Nat} {filename : String}
  {picture : Picture} {file data : Stream} {rows cols white : Int}

theorem HeaderAt.readHeader (header : HeaderAt stack file rows cols white data)
    (enough : file.length < fuel) :
    readHeader stack fuel file picture =
      some (true, ⟨picture.A, rows, cols, white⟩, data) := by
  obtain ⟨calls, rest, after, left, last, space, colsAt, rowsAt, whiteAt,
    isSpace⟩ := header.numbers
  have restEnough := Nat.lt_of_le_of_lt colsAt.length_le enough
  have leftEnough := Nat.lt_of_le_of_lt rowsAt.length_le restEnough
  have whiteValid : ¬(white < 0 ∨ white ≥ 65536) := by
    have range := header.whiteRange
    omega
  rw [Pgm.readHeader, colsAt.returns enough, Option.bind_some]
  dsimp only
  rw [if_neg (Int.not_lt.mpr header.colsRange.1), rowsAt.returns restEnough,
    Option.bind_some]
  dsimp only
  rw [if_neg (Int.not_lt.mpr header.rowsRange.1), whiteAt.returns leftEnough,
    Option.bind_some]
  dsimp only
  rw [if_neg whiteValid, ← isSpace]
  rfl

theorem readHeader_true {after : Picture}
    (read : readHeader stack fuel file picture = some (true, after, data)) :
    after.A = picture.A ∧
    (after.cols ≤ N → after.rows ≤ N →
      HeaderAt stack file after.rows after.cols after.white data) := by
  obtain ⟨⟨cols, first⟩, colsRead, read⟩ := Option.bind_eq_some_iff.mp read
  dsimp only at read
  split at read
  · cases read
  rename_i colsValid
  obtain ⟨⟨rows, second⟩, rowsRead, read⟩ := Option.bind_eq_some_iff.mp read
  dsimp only at read
  split at read
  · cases read
  rename_i rowsValid
  obtain ⟨⟨white, third⟩, whiteRead, read⟩ := Option.bind_eq_some_iff.mp read
  dsimp only at read
  split at read
  · cases read
  rename_i whiteValid
  obtain ⟨white_nonneg, white_lt⟩ := not_or.mp whiteValid
  have whiteAt := numberAt_of_read whiteRead
  cases ends : third.file with
  | nil =>
      rw [ends] at read
      cases read
  | cons space data =>
      rw [ends] at read whiteAt
      have parts := Option.some.inj read
      simp only [Prod.mk.injEq] at parts
      obtain ⟨isSpace, rfl, rfl⟩ := parts
      refine ⟨rfl, fun colsSmall rowsSmall => ⟨?_, ?_, ?_, ?_⟩⟩
      · exact ⟨_, _, _, _, _, _, numberAt_of_read colsRead,
          numberAt_of_read rowsRead, whiteAt, isSpace⟩
      · exact ⟨Int.not_lt.mp colsValid, colsSmall⟩
      · exact ⟨Int.not_lt.mp rowsValid, rowsSmall⟩
      · exact ⟨Int.not_lt.mp white_nonneg, Int.not_le.mp white_lt⟩

theorem NumbersAt.functional {otherRows otherCols otherWhite : Int}
    {otherData : Stream} (first : NumbersAt stack file rows cols white data)
    (second : NumbersAt stack file otherRows otherCols otherWhite otherData) :
    rows = otherRows ∧ cols = otherCols ∧ white = otherWhite ∧
      data = otherData := by
  obtain ⟨_, _, _, _, _, _, colsAt, rowsAt, whiteAt, _⟩ := first
  obtain ⟨_, _, _, _, _, _, otherColsAt, otherRowsAt, otherWhiteAt, _⟩ := second
  obtain ⟨rfl, rfl, rfl⟩ := colsAt.functional otherColsAt
  obtain ⟨rfl, rfl, rfl⟩ := rowsAt.functional otherRowsAt
  obtain ⟨rfl, rfl, same⟩ := whiteAt.functional otherWhiteAt
  exact ⟨rfl, rfl, rfl, (List.cons.inj same).2⟩

theorem HeaderAt.readImage (header : HeaderAt stack file rows cols white data)
    (enough : file.length < fuel) :
    readImage stack fuel filename (.ok (ascii 'P' :: ascii '5' :: file))
      picture = some (accepted rows cols white picture.A data) := by
  have small : ¬(cols > N ∨ rows > N) :=
    not_or.mpr ⟨Int.not_lt.mpr header.colsRange.2,
      Int.not_lt.mpr header.rowsRange.2⟩
  have magic := (magic_iff (ascii 'P' :: ascii '5' :: file)).mpr rfl
  have read := @HeaderAt.readHeader stack fuel picture _ _ _ _ _ header enough
  rw [Pgm.readImage]
  dsimp only
  rw [if_neg magic]
  change (Pgm.readHeader stack fuel file picture).bind _ = _
  rw [read, Option.bind_some]
  dsimp only
  rw [if_neg (by decide), if_neg small]
  rfl

/-- The result 0 needs an accepted header. -/
theorem readImage_zero {bytes : Stream} {outcome : Outcome}
    (read : readImage stack fuel filename (.ok bytes) picture = some outcome)
    (zero : outcome.code = 0) :
    ∃ file rows cols white data, bytes = ascii 'P' :: ascii '5' :: file ∧
      HeaderAt stack file rows cols white data ∧
      outcome = accepted rows cols white picture.A data := by
  rw [Pgm.readImage] at read
  dsimp only at read
  by_cases magic : bytes = ascii 'P' :: ascii '5' :: (fread 2 bytes).2
  · rw [if_neg ((magic_iff bytes).mpr magic)] at read
    obtain ⟨⟨valid, after, data⟩, headerRead, read⟩ :=
      Option.bind_eq_some_iff.mp read
    dsimp only at read
    cases valid with
    | false =>
        cases read
        cases zero
    | true =>
        obtain ⟨A, header⟩ := readHeader_true headerRead
        rw [if_neg (by decide)] at read
        split at read
        · cases read
          cases zero
        · rename_i small
          obtain ⟨colsSmall, rowsSmall⟩ := not_or.mp small
          refine ⟨_, _, _, _, _, magic, header (Int.not_lt.mp colsSmall)
            (Int.not_lt.mp rowsSmall), ?_⟩
          cases read
          rw [A]
          rfl
  · rw [if_pos (not_not.mp (mt (magic_iff bytes).mp magic))] at read
    cases read
    cases zero

end Headers

end SystemsLabs.Pgm
