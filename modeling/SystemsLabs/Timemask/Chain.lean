import SystemsLabs.Timemask.Run

/-!
# The program on its own output

The file that `main` saves for an image of one byte a pixel can be read again,
and has the masked image.  So a chain of runs, each on the file that the one in
front of it has saved, computes the mask as many times.
-/

namespace SystemsLabs.Timemask

open Stdio CellLoops
open Mask (Image N cells PixelsIn)
open Pgm (Frame Picture HeaderAt accepted readImage saveImage)

/-- `readImage` gets a picture from a file, whatever memory holds before. -/
def Holds (bytes : Stream) (picture : Picture) : Prop :=
  ∀ (stack : Nat → Frame) (fuel : Nat) (filename : String) (before : Picture),
    bytes.length < fuel → ∃ outcome,
      readImage stack fuel filename (.ok bytes) before = some outcome ∧
      outcome.code = 0 ∧ outcome.picture.rows = picture.rows ∧
      outcome.picture.cols = picture.cols ∧
      outcome.picture.white = picture.white ∧
      ∀ cell ∈ cells picture.rows picture.cols,
        outcome.picture.A cell = picture.A cell

/-- An image of one byte a pixel. -/
structure Narrow (picture : Picture) : Prop where
  rowsRange : 0 ≤ picture.rows ∧ picture.rows ≤ N
  colsRange : 0 ≤ picture.cols ∧ picture.cols ≤ N
  whiteRange : 0 ≤ picture.white ∧ picture.white < 256
  pixels : PixelsIn 0 255 picture.A picture.rows picture.cols

def maskPicture (picture : Picture) : Picture :=
  { picture with A := maskImage picture.A picture.rows picture.cols }

section Narrow

variable {picture : Picture}

/-- A mean of bytes is a byte. -/
theorem Narrow.maskPicture (narrow : Narrow picture) :
    Narrow (maskPicture picture) := by
  refine ⟨narrow.rowsRange, narrow.colsRange, narrow.whiteRange, ?_⟩
  intro cell inside
  have bounds := Mask.maskValue_bounds narrow.pixels inside
  rw [Timemask.maskPicture]
  dsimp only
  rw [maskImage, Mask.toInt_ofInt_of_fitsLong ⟨by omega, by omega⟩]
  exact bounds

theorem Narrow.headerAt (narrow : Narrow picture) (stack : Nat → Frame) :
    ∃ file, saveImage picture = ascii 'P' :: ascii '5' :: file ∧
      HeaderAt stack file picture.rows picture.cols picture.white
        (Pgm.savedPixels picture) := by
  obtain ⟨white_nonneg, white_lt⟩ := narrow.whiteRange
  have zero : (0 : BitVec 64).toInt = 0 := by decide
  have wide : 0 ≤ picture.white ∧ picture.white < 65536 := by omega
  have blank : Pgm.Savable { picture with A := fun _ => 0 } :=
    ⟨narrow.rowsRange, narrow.colsRange, wide,
      fun _ _ => ⟨zero.ge, zero ▸ white_nonneg⟩⟩
  obtain ⟨texts, header, short⟩ := blank.header
  obtain ⟨file, parts, numbers⟩ := @Pgm.Header.numbersAt stack _ _ _ _ _ header
    short (Pgm.savedPixels picture)
  rw [Pgm.saveImage_eq]
  exact ⟨file, parts, numbers, narrow.colsRange, narrow.rowsRange, wide⟩

theorem accepted_narrow {rows cols white : Int} (narrow : white < 256)
    (A : Image) (data : Stream) :
    (accepted rows cols white A data).picture.A =
      (accepted rows cols 255 A data).picture.A := by
  have same : Pgm.readCell white = Pgm.readCell 255 := by
    funext cell state
    rw [Pgm.readCell, Pgm.readCell, Pgm.readPixel, Pgm.readPixel,
      if_pos narrow, if_pos (by decide)]
  rw [accepted, accepted, same]

theorem Narrow.holds_saveImage (narrow : Narrow picture) :
    Holds (saveImage picture) picture := by
  intro stack fuel filename before enough
  obtain ⟨file, saved, header⟩ := narrow.headerAt stack
  rw [saved] at enough ⊢
  have long : file.length < fuel := by
    simp only [List.length_cons] at enough
    omega
  refine ⟨_, header.readImage long, rfl, rfl, rfl, rfl, ?_⟩
  rw [accepted_narrow narrow.whiteRange.2]
  have byte : (0 : Int) ≤ 255 ∧ (255 : Int) < 65536 := by decide
  have savable : Pgm.Savable { picture with white := 255 } :=
    ⟨narrow.rowsRange, narrow.colsRange, byte, narrow.pixels⟩
  exact savable.narrow (show (255 : Int) < 256 by decide)

end Narrow

/-- A run of the program that saves its result, on a file that is given to
`maskFile`. -/
structure Attempt where
  system : System
  program : Stream
  filename : Stream
  numtrials : Stream
  outfile : Stream

/-- What the run saves when its file has these bytes. -/
def Attempt.maskFile (attempt : Attempt) (bytes : Stream) : Option Stream :=
  (main { attempt.system with opened := .ok bytes } (bytes.length + 1)
    attempt.program
    [attempt.filename, attempt.numtrials, attempt.outfile]).bind Result.saved

/-- There is a trial, and the file can be written. -/
structure Attempt.Works (attempt : Attempt) : Prop where
  trials : 0 < strtol attempt.numtrials
  created : attempt.system.created = .ok ()

/-- Every run saves the mask of what the file in front of it holds. -/
theorem Attempt.Works.maskFile {attempt : Attempt} (works : attempt.Works)
    {bytes : Stream} {picture : Picture} (holds : Holds bytes picture) :
    attempt.maskFile bytes = some (saveImage (maskPicture picture)) := by
  obtain ⟨outcome, read, zero, rows, cols, white, pixels⟩ :=
    holds attempt.system.stack (bytes.length + 1)
      (characters attempt.filename)
      ⟨fun _ => 0, attempt.system.rows, attempt.system.cols,
        attempt.system.white⟩ (Nat.lt_succ_self _)
  have answer : lastAnswer outcome.picture (strtol attempt.numtrials) =
      maskPicture picture := by
    rw [lastAnswer, if_pos works.trials, maskPicture, rows, cols, white,
      maskImage_congr pixels]
  have positive : strtol attempt.numtrials ≠ 0 := ne_of_gt works.trials
  have few : [attempt.numtrials, attempt.outfile].length ≤ 2 := Nat.le_refl 2
  rw [Attempt.maskFile, main_reads few, read, Option.map_some,
    if_neg (not_not.mpr zero), runTrials_eq (accepted_small read zero)]
  change Option.bind (some (if strtol attempt.numtrials = 0 then _ else
    saveAnswer _ (some attempt.outfile)
      (lastAnswer outcome.picture (strtol attempt.numtrials)) _)) _ = _
  rw [if_neg positive, answer, saveAnswer, works.created]
  rfl

/-- A chain of runs, each on the file that the one before it has saved. -/
theorem chain_masks {bytes : Stream} {picture : Picture}
    (holds : Holds bytes picture) (narrow : Narrow picture)
    (attempts : List Attempt) (work : ∀ attempt ∈ attempts, attempt.Works) :
    ∃ output, attempts.foldlM (fun file attempt => attempt.maskFile file)
        bytes = some output ∧
      Holds output (maskPicture^[attempts.length] picture) := by
  induction attempts generalizing bytes picture with
  | nil => exact ⟨bytes, rfl, holds⟩
  | cons attempt attempts ih =>
      have saved := (work attempt List.mem_cons_self).maskFile holds
      obtain ⟨output, rest, result⟩ := ih narrow.maskPicture.holds_saveImage
        narrow.maskPicture fun other later =>
          work other (List.mem_cons_of_mem _ later)
      refine ⟨output, ?_, result⟩
      rw [List.foldlM_cons, saved]
      exact rest

/-- Two pixels, 30 and 90. -/
def twoPicture : Picture :=
  ⟨fun cell => if cell = (0, 0) then 30 else 90, 1, 2, 255⟩

def twoAttempt : Attempt :=
  ⟨twoPixels, text "timemask", text "in", text "2", text "out"⟩

theorem twoPicture_chain :
    ∃ output, [twoAttempt, twoAttempt].foldlM
        (fun file attempt => attempt.maskFile file) (saveImage twoPicture) =
          some output ∧
      Holds output (maskPicture^[2] twoPicture) := by
  have narrow : Narrow twoPicture :=
    ⟨by decide, by decide, by decide, by unfold PixelsIn; decide⟩
  have works : ∀ attempt ∈ [twoAttempt, twoAttempt], attempt.Works := by
    intro attempt member
    have same : attempt = twoAttempt := by
      rcases List.mem_cons.mp member with same | later
      · exact same
      · exact List.mem_singleton.mp later
    subst same
    exact ⟨by decide, rfl⟩
  exact chain_masks narrow.holds_saveImage narrow _ works

end SystemsLabs.Timemask
