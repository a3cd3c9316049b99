import SystemsLabs.Pgm.Format

/-!
# Saving an image and reading it again

`main` writes one byte for a pixel, and `readImage` expects two when `white` is
256 or more.  The header always comes back, and the pixels when they have one
byte.
-/

namespace SystemsLabs.Pgm

open Stdio CellLoops
open Mask (Image N cells mem_cells PixelsIn)

/-- An image that `main` can save. -/
structure Savable (picture : Picture) : Prop where
  rowsRange : 0 ≤ picture.rows ∧ picture.rows ≤ N
  colsRange : 0 ≤ picture.cols ∧ picture.cols ≤ N
  whiteRange : 0 ≤ picture.white ∧ picture.white < 65536
  pixels : PixelsIn 0 picture.white picture.A picture.rows picture.cols

/-- `readImage` gets from the saved file what was saved. -/
def RoundTrip (stack : Nat → Frame) (filename : String)
    (before picture : Picture) : Prop :=
  ∃ fuel outcome,
    readImage stack fuel filename (.ok (saveImage picture)) before =
      some outcome ∧
    outcome.code = 0 ∧ outcome.picture.rows = picture.rows ∧
    outcome.picture.cols = picture.cols ∧
    outcome.picture.white = picture.white ∧
    ∀ cell ∈ cells picture.rows picture.cols,
      outcome.picture.A cell = picture.A cell

/-- The byte that is written for a pixel. -/
def savedByte (A : Image) (cell : Int × Int) : UInt8 :=
  UInt8.ofInt (toInt (A cell).toInt)

/-- The header that is written. -/
def savedHeader (picture : Picture) : Stream :=
  [ascii 'P', ascii '5', ascii ' '] ++ decimal picture.cols ++ [ascii ' '] ++
    decimal picture.rows ++ [ascii ' '] ++ decimal picture.white ++ [newline]

def savedPixels (picture : Picture) : Stream :=
  (rowByRow 0 picture.rows 0 picture.cols).map (savedByte picture.A)

theorem saveImage_eq (picture : Picture) :
    saveImage picture = savedHeader picture ++ savedPixels picture := by
  have visits : saveImage picture =
      visit (rowByRow 0 picture.rows 0 picture.cols)
        (fun cell written => written ++ [savedByte picture.A cell])
        (savedHeader picture) :=
    loop_rows (fun cell written => written ++ [savedByte picture.A cell])
      (savedHeader picture) 0 picture.rows 0 picture.cols
  have written : ∀ (cells : List (Int × Int)) (header : Stream),
      visit cells (fun cell written => written ++ [savedByte picture.A cell])
        header = header ++ cells.map (savedByte picture.A) := by
    intro cells
    induction cells with
    | nil => exact fun header => (List.append_nil header).symm
    | cons first cells ih =>
        intro header
        rw [List.map_cons, List.append_cons, ← ih]
        rfl
  rw [visits, written, savedPixels]

theorem decimal_header {number : Int} (nonneg : 0 ≤ number)
    (small : number < 65536) :
    Numeral number (decimal number) (ascii ' ' :: decimal number) ∧
      (decimal number).length ≤ 9 := by
  obtain ⟨natural, rfl⟩ := Int.eq_ofNat_of_zero_le nonneg
  constructor
  · exact @Numeral.plain _ _ [ascii ' '] (by decide) (decimal_natCast natural)
  · exact length_decimal (by decide) (by omega)

section Saved

variable {stack : Nat → Frame} {filename : String} {before picture : Picture}

theorem Savable.header (savable : Savable picture) :
    ∃ texts, Header picture.rows picture.cols picture.white texts
        (savedHeader picture) ∧
      ∀ text ∈ texts, text.length ≤ 9 := by
  obtain ⟨rows_nonneg, rows_le⟩ := savable.rowsRange
  obtain ⟨cols_nonneg, cols_le⟩ := savable.colsRange
  obtain ⟨white_nonneg, white_lt⟩ := savable.whiteRange
  have bound : N < 65536 := by decide
  obtain ⟨rowsNumeral, rowsShort⟩ := decimal_header rows_nonneg
    (Int.lt_of_le_of_lt rows_le bound)
  obtain ⟨colsNumeral, colsShort⟩ := decimal_header cols_nonneg
    (Int.lt_of_le_of_lt cols_le bound)
  obtain ⟨whiteNumeral, whiteShort⟩ := decimal_header white_nonneg white_lt
  have space : ∀ rest, Breaks (ascii ' ' :: rest) := by
    intro rest byte member
    cases member
    decide
  refine ⟨[decimal picture.cols, decimal picture.rows, decimal picture.white],
    ⟨_, _, _, newline, _, _, _, rfl, ?_,
      ⟨colsNumeral, rowsNumeral, whiteNumeral⟩, space _, space _, by decide⟩, ?_⟩
  · simp only [savedHeader, List.append_assoc, List.cons_append,
      List.nil_append]
  · intro text member
    simp only [List.mem_cons, List.not_mem_nil, or_false] at member
    rcases member with rfl | rfl | rfl
    · exact colsShort
    · exact rowsShort
    · exact whiteShort

theorem Savable.headerAt (savable : Savable picture) :
    ∃ file, saveImage picture = ascii 'P' :: ascii '5' :: file ∧
      HeaderAt stack file picture.rows picture.cols picture.white
        (savedPixels picture) := by
  obtain ⟨texts, header, short⟩ := savable.header
  obtain ⟨file, parts, numbers⟩ := @Header.numbersAt stack _ _ _ _ _ header
    short (savedPixels picture)
  rw [saveImage_eq]
  exact ⟨file, parts, numbers, savable.colsRange, savable.rowsRange,
    savable.whiteRange⟩

/-- Only the pixels can differ. -/
theorem Savable.roundTrip_iff (savable : Savable picture) :
    RoundTrip stack filename before picture ↔
      ∀ cell ∈ cells picture.rows picture.cols,
        (accepted picture.rows picture.cols picture.white before.A
          (savedPixels picture)).picture.A cell = picture.A cell := by
  obtain ⟨file, saved, header⟩ := @Savable.headerAt stack picture savable
  constructor
  · rintro ⟨fuel, outcome, read, zero, _, _, _, pixels⟩
    obtain ⟨other, rows, cols, white, data, parts, otherHeader, rfl⟩ :=
      readImage_zero read zero
    rw [saved] at parts
    cases parts
    obtain ⟨rfl, rfl, rfl, rfl⟩ := header.numbers.functional otherHeader.numbers
    exact pixels
  · intro pixels
    have read := @HeaderAt.readImage stack (file.length + 1) filename before
      _ _ _ _ _ header (Nat.lt_succ_self _)
    rw [← saved] at read
    exact ⟨_, _, read, rfl, rfl, rfl, rfl, pixels⟩

theorem savedByte_toNat {A : Image} {cell : Int × Int}
    (low : 0 ≤ (A cell).toInt) (high : (A cell).toInt < 256) :
    ((savedByte A cell).toNat : Int) = (A cell).toInt := by
  obtain ⟨value, same⟩ := Int.eq_ofNat_of_zero_le low
  rw [savedByte, toInt_of_nat value same (by omega), same, UInt8.ofInt,
    UInt8.toNat_ofNat']
  omega

theorem savedPixels_getElem? {A : Image} {rows cols row col : Nat} {white : Int}
    (rowInside : row < rows) (colInside : col < cols) :
    (savedPixels ⟨A, rows, cols, white⟩)[row * cols + col]? =
      some (savedByte A (row, col)) := by
  rw [savedPixels, List.getElem?_map, rowByRow_getElem? rowInside colInside]
  rfl

theorem forall_cells {rows cols : Nat} {property : Int × Int → Prop} :
    (∀ cell ∈ cells rows cols, property cell) ↔
      ∀ row < rows, ∀ col < cols, property ((row : Int), (col : Int)) := by
  constructor
  · intro every row rowInside col colInside
    apply every
    rw [mem_cells]
    omega
  · rintro every ⟨row, col⟩ member
    rw [mem_cells] at member
    obtain ⟨row, rfl⟩ := Int.eq_ofNat_of_zero_le member.1.1
    obtain ⟨col, rfl⟩ := Int.eq_ofNat_of_zero_le member.2.1
    exact every row (by omega) col (by omega)

theorem fgetc_drop {data : Stream} {number : Nat} {byte : UInt8}
    (found : data[number]? = some byte) :
    (fgetc (data.drop number)).1 = byte.toNat := by
  obtain ⟨inside, rfl⟩ := List.getElem?_eq_some_iff.mp found
  rw [List.drop_eq_getElem_cons inside]
  rfl

theorem Savable.narrow (savable : Savable picture)
    (narrow : picture.white < 256) :
    ∀ cell ∈ cells picture.rows picture.cols,
      (accepted picture.rows picture.cols picture.white before.A
        (savedPixels picture)).picture.A cell = picture.A cell := by
  obtain ⟨A, rows, cols, white⟩ := picture
  obtain ⟨rows, rfl⟩ := Int.eq_ofNat_of_zero_le savable.rowsRange.1
  obtain ⟨cols, rfl⟩ := Int.eq_ofNat_of_zero_le savable.colsRange.1
  have pixels := forall_cells.mp savable.pixels
  dsimp only at narrow ⊢
  rw [forall_cells]
  intro row rowInside col colInside
  obtain ⟨low, high⟩ := pixels row rowInside col colInside
  rw [accepted_pixel white before.A _ rowInside colInside, readPixel,
    if_pos narrow, pixelWidth, if_pos narrow, Nat.mul_one,
    fgetc_drop (savedPixels_getElem? rowInside colInside),
    savedByte_toNat low (Int.lt_of_le_of_lt high narrow)]
  exact BitVec.ofInt_toInt

theorem length_savedPixels {A : Image} {rows cols : Nat} {white : Int} :
    (savedPixels ⟨A, rows, cols, white⟩).length = rows * cols := by
  rw [savedPixels, List.length_map]
  exact length_rowByRow rows cols

theorem Savable.wellFormed (savable : Savable picture)
    (narrow : picture.white < 256) : WellFormed (saveImage picture) := by
  obtain ⟨texts, header, short⟩ := savable.header
  refine ⟨_, _, _, texts, _, _, saveImage_eq picture, header, short, ?_⟩
  obtain ⟨A, rows, cols, white⟩ := picture
  obtain ⟨rows, rfl⟩ := Int.eq_ofNat_of_zero_le savable.rowsRange.1
  obtain ⟨cols, rfl⟩ := Int.eq_ofNat_of_zero_le savable.colsRange.1
  rw [pixelWidth, if_pos narrow, Nat.mul_one, length_savedPixels]
  exact Nat.le_refl _

theorem readPixel_cut {white : Int} {data : Stream} (wide : 256 ≤ white)
    (short : data.length ≤ 1) : (readPixel white data).1 = -1 := by
  rw [readPixel, if_neg (Int.not_lt.mpr wide)]
  rcases data with _ | ⟨byte, _ | ⟨next, rest⟩⟩
  · exact joinBytes_end (-1)
  · exact joinBytes_end byte.toNat
  · exact absurd short (by simp)

/-- The last of the pixels of two bytes is read at the end of the file. -/
theorem last_pixel {A : Image} {rows cols : Nat} {white : Int}
    (wide : 256 ≤ white) :
    (accepted (rows + 1 : Nat) (cols + 1 : Nat) white before.A
      (savedPixels ⟨A, (rows + 1 : Nat), (cols + 1 : Nat), white⟩)).picture.A
        (rows, cols) = -1 := by
  have width : pixelWidth white = 2 := if_neg (Int.not_lt.mpr wide)
  rw [accepted_pixel white before.A _ (Nat.lt_add_one rows)
    (Nat.lt_add_one cols), readPixel_cut wide]
  · rfl
  · have behind : rows * (cols + 1) + cols + 1 = (rows + 1) * (cols + 1) := by
      rw [Nat.succ_mul]
      rfl
    rw [List.length_drop, length_savedPixels, width]
    omega

end Saved

/-- What is saved comes back when its pixels have one byte, or when it has
none. -/
theorem round_trip_iff {stack : Nat → Frame} {filename : String}
    {before picture : Picture} (savable : Savable picture) :
    RoundTrip stack filename before picture ↔
      picture.white < 256 ∨ picture.rows = 0 ∨ picture.cols = 0 := by
  rw [savable.roundTrip_iff]
  constructor
  · intro pixels
    by_contra wrong
    obtain ⟨wide, some⟩ := not_or.mp wrong
    obtain ⟨someRow, someCol⟩ := not_or.mp some
    obtain ⟨A, rows, cols, white⟩ := picture
    obtain ⟨rows, rfl⟩ := Int.eq_ofNat_of_zero_le savable.rowsRange.1
    obtain ⟨cols, rfl⟩ := Int.eq_ofNat_of_zero_le savable.colsRange.1
    obtain ⟨rows, rfl⟩ := Nat.exists_eq_succ_of_ne_zero
      (mt (congrArg Nat.cast) someRow)
    obtain ⟨cols, rfl⟩ := Nat.exists_eq_succ_of_ne_zero
      (mt (congrArg Nat.cast) someCol)
    have inside : ((rows : Int), (cols : Int)) ∈
        cells (rows + 1 : Nat) (cols + 1 : Nat) := by
      rw [mem_cells]
      omega
    have read := pixels _ inside
    have last := @last_pixel before A rows cols white (Int.not_lt.mp wide)
    have minus : A ((rows : Int), (cols : Int)) = -1 := read.symm.trans last
    have low : 0 ≤ (A ((rows : Int), (cols : Int))).toInt :=
      (savable.pixels _ inside).1
    rw [minus] at low
    exact absurd low (by decide)
  · rintro (narrow | none | none)
    · exact savable.narrow narrow
    · intro cell member
      have range := mem_cells.mp member
      omega
    · intro cell member
      have range := mem_cells.mp member
      omega

/-- An image of six different pixels. -/
def sixPixels : Picture :=
  ⟨fun cell => BitVec.ofInt 64 (17 + 100 * cell.1 + 51 * cell.2), 2, 3, 255⟩

theorem sixPixels_savable : Savable sixPixels := by
  have pixels : ∀ row : Nat, row < 2 → ∀ col : Nat, col < 3 →
      0 ≤ (sixPixels.A (row, col)).toInt ∧
      (sixPixels.A (row, col)).toInt ≤ 255 := by decide
  exact ⟨by decide, by decide, by decide,
    (@forall_cells 2 3 _).mpr fun row rowInside col colInside =>
      pixels row rowInside col colInside⟩

theorem sixPixels_round_trip :
    RoundTrip (fun _ => ⟨[], 0⟩) "image.pgm" ⟨fun _ => 0, 0, 0, 0⟩ sixPixels :=
  (round_trip_iff sixPixels_savable).mpr (.inl (by decide))

/-- An image of one pixel. -/
def onePixel (white : Int) : Picture := ⟨fun _ => 0, 1, 1, white⟩

/-- With two bytes for a pixel it comes back as -1. -/
theorem onePixel_lost :
    Savable (onePixel 256) ∧
    ¬RoundTrip (fun _ => ⟨[], 0⟩) "image.pgm" (onePixel 0) (onePixel 256) := by
  have zero : (0 : BitVec 64).toInt = 0 := by decide
  have savable : Savable (onePixel 256) :=
    ⟨by decide, by decide, by decide, fun _ _ => ⟨zero.ge, zero ▸ by decide⟩⟩
  refine ⟨savable, ?_⟩
  rw [savable.roundTrip_iff]
  intro pixels
  have read := pixels (0, 0) (by decide)
  have last := @last_pixel (onePixel 0) (fun _ => 0) 0 0 256 (Int.le_refl 256)
  exact absurd (read.symm.trans last) (by decide)

end SystemsLabs.Pgm
