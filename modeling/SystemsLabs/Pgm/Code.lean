import SystemsLabs.Library.Stdio
import SystemsLabs.Mask.Range

/-!
# Reading and saving PGM files in `lab6/timemask.c`

`readPBMNumber`, `readImage` and the end of `main`.  What need not end has an
amount of fuel, and `none` means that it is used up.
-/

namespace SystemsLabs.Pgm

open Stdio CellLoops
open Mask (Image N)

/-- What the locals of a call of `readPBMNumber` hold before it assigns them. -/
structure Frame where
  str : Stream
  val : Int

/-- A stream, and the number of calls of `readPBMNumber` so far. -/
structure Reader where
  file : Stream
  calls : Nat

def newline : UInt8 := ascii '\n'

def hash : UInt8 := ascii '#'

/-- `while (fgetc(file) != '\n');`. -/
def skipComment : Nat → Stream → Option Stream
  | 0, _ => none
  | fuel + 1, file =>
      let (character, file) := fgetc file
      if character ≠ newline.toNat then skipComment fuel file else some file

/-- `stack` has the frame of every call. -/
def readPBMNumber (stack : Nat → Frame) : Nat → Reader → Option (Int × Reader)
  | 0, _ => none
  | fuel + 1, reader =>
      let frame := stack reader.calls
      let (count, token, file) := fscanfString 9 reader.file
      let str := token.getD frame.str
      let calls := reader.calls + 1
      if count = 0 then some (-1, ⟨file, calls⟩)
      else if str.head? = some hash then
        (skipComment fuel file).bind fun file =>
          readPBMNumber stack fuel ⟨file, calls⟩
      else
        let (count, number) := sscanfInt str
        -- `EOF` is not zero, and then `val` is not assigned
        if count ≠ 0 then some (number.getD frame.val, ⟨file, calls⟩)
        else some (-1, ⟨file, calls⟩)

/-- What the pointers of `readImage` point to. -/
structure Picture where
  A : Image
  rows : Int
  cols : Int
  white : Int

/-- The test behind the magic number, which is true of a valid header. -/
def readHeader (stack : Nat → Frame) (fuel : Nat) (file : Stream)
    (picture : Picture) : Option (Bool × Picture × Stream) :=
  (readPBMNumber stack fuel ⟨file, 0⟩).bind fun (cols, reader) =>
  let picture := { picture with cols := cols }
  if cols < 0 then some (false, picture, reader.file)
  else (readPBMNumber stack fuel reader).bind fun (rows, reader) =>
  let picture := { picture with rows := rows }
  if rows < 0 then some (false, picture, reader.file)
  else (readPBMNumber stack fuel reader).bind fun (white, reader) =>
  let picture := { picture with white := white }
  if white < 0 ∨ white ≥ 65536 then some (false, picture, reader.file)
  else
    let (character, file) := fgetc reader.file
    some (isspace character, picture, file)

/-- `high << 8 | low` of two `int`s. -/
def joinBytes (high low : Int) : Int :=
  (BitVec.ofInt 32 high <<< 8 ||| BitVec.ofInt 32 low).toInt

def readPixel (white : Int) (file : Stream) : Int × Stream :=
  if white < 0x100 then fgetc file
  else
    let (high, file) := fgetc file
    let (low, file) := fgetc file
    (joinBytes high low, file)

def readCell (white : Int) (cell : Int × Int) (state : Image × Stream) :
    Image × Stream :=
  let (value, file) := readPixel white state.2
  (Function.update state.1 cell (BitVec.ofInt 64 value), file)

/-- What `readImage` has done when it returns; `file` is what it has not read. -/
structure Outcome where
  code : Int
  picture : Picture
  stderr : String
  file : Stream

/-- `opened` is the result of `fopen`, or the text for its error. -/
def readImage (stack : Nat → Frame) (fuel : Nat) (filename : String)
    (opened : Except String Stream) (picture : Picture) : Option Outcome :=
  match opened with
  | .error reason => some ⟨1, picture, s!"{filename}: {reason}\n", []⟩
  | .ok file =>
      let (str, file) := fread 2 file
      if str.length < 2 ∨ str[0]? ≠ some (ascii 'P') ∨
          str[1]? ≠ some (ascii '5') then
        some ⟨2, picture, s!"{filename}: Not a PGM file.\n", file⟩
      else (readHeader stack fuel file picture).bind fun (valid, picture, file) =>
      if !valid then
        some ⟨3, picture, s!"{filename}: Invalid PGM format.\n", file⟩
      else if picture.cols > N ∨ picture.rows > N then
        some ⟨4, picture, s!"This program supports files up to {N}x{N} pixels, " ++
          s!"but the file contains {picture.rows}x{picture.cols} pixels.\n", file⟩
      else
        let (A, file) := loop 0 picture.rows (fun i =>
          loop 0 picture.cols fun j => readCell picture.white (i, j))
            (picture.A, file)
        some ⟨0, { picture with A := A }, "", file⟩

/-- The file that `main` writes. -/
def saveImage (picture : Picture) : Stream :=
  let header := [ascii 'P', ascii '5', ascii ' '] ++ decimal picture.cols ++
    [ascii ' '] ++ decimal picture.rows ++ [ascii ' '] ++
    decimal picture.white ++ [newline]
  loop 0 picture.rows (fun i =>
    loop 0 picture.cols fun j written =>
      written ++ fputc (toInt (picture.A (i, j)).toInt)) header

end SystemsLabs.Pgm
