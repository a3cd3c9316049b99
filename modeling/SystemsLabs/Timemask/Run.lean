import SystemsLabs.Timemask.Trials
import SystemsLabs.Pgm.RoundTrip

/-!
# What `main` prints and saves

For an image that `readImage` accepts the output is known: all checks are the
sum of the weighted means, nothing else is ever reported, and the saved file has
the weighted means.  This depends neither on the results of `rand` nor on what
memory holds at the beginning.
-/

namespace SystemsLabs.Timemask

open Stdio CellLoops
open Mask (Image N cells SmallValues PixelsIn)
open Pgm (Picture Outcome HeaderAt accepted readPixel readImage saveImage)

/-- A pixel is -1 at the end of the file. -/
theorem readPixel_bounds (white : Int) (data : Stream) :
    -1 ≤ (readPixel white data).1 ∧ (readPixel white data).1 ≤ 65535 := by
  by_cases enough : Pgm.pixelWidth white ≤ data.length
  · obtain ⟨value, _, read, low, high⟩ := Pgm.readPixel_value enough
    rw [← List.append_nil data, read []]
    omega
  · rw [Pgm.pixelWidth] at enough
    have last : (readPixel white data).1 = -1 := by
      by_cases narrow : white < 0x100
      · rw [if_pos narrow] at enough
        have nothing : data = [] := List.length_eq_zero_iff.mp (by omega)
        rw [nothing, readPixel, if_pos narrow]
        rfl
      · rw [if_neg narrow] at enough
        exact Pgm.readPixel_cut (by omega) (by omega)
    omega

section Accepted

variable {stack : Nat → Pgm.Frame} {file data : Stream} {rows cols white : Int}

theorem accepted_pixelsIn (header : HeaderAt stack file rows cols white data)
    (A : Image) :
    PixelsIn (-1) 65535 (accepted rows cols white A data).picture.A rows
      cols := by
  obtain ⟨rows, rfl⟩ := Int.eq_ofNat_of_zero_le header.rowsRange.1
  obtain ⟨cols, rfl⟩ := Int.eq_ofNat_of_zero_le header.colsRange.1
  refine Pgm.forall_cells.mpr fun row rowInside col colInside => ?_
  rw [Pgm.accepted_pixel white A data rowInside colInside]
  have bounds := readPixel_bounds white
    (data.drop ((row * cols + col) * Pgm.pixelWidth white))
  rw [Mask.toInt_ofInt_of_fitsLong ⟨by omega, by omega⟩]
  exact bounds

end Accepted

/-- The saved file depends on the pixels of the image only. -/
theorem saveImage_congr {picture : Picture} {other : Image}
    (same : ∀ cell ∈ cells picture.rows picture.cols,
      picture.A cell = other cell) :
    saveImage picture = saveImage { picture with A := other } := by
  have bytes : Pgm.savedPixels picture =
      Pgm.savedPixels { picture with A := other } := by
    refine List.map_congr_left fun cell member => ?_
    rw [Pgm.savedByte, Pgm.savedByte, same cell (mem_rowByRow.mp member)]
  rw [Pgm.saveImage_eq, Pgm.saveImage_eq, bytes]
  rfl

theorem saveAnswer_congr (system : System) (outfile : Option Stream)
    (picture : Picture) (stdout : List Message) {other : Image}
    (same : ∀ cell ∈ cells picture.rows picture.cols,
      picture.A cell = other cell) :
    saveAnswer system outfile picture stdout =
      saveAnswer system outfile { picture with A := other } stdout := by
  unfold saveAnswer
  rw [saveImage_congr same]

/-- What is printed for an image and a number of trials. -/
def report (picture : Picture) (ntrials : Int) : List Message :=
  let check := maskCheck picture.A picture.rows picture.cols
  [.processing picture.rows picture.cols ntrials check] ++
    ((interval 0 ntrials).map fun trial => .baseRun trial check) ++
    [.baseTook, .starting] ++
    ((interval 0 ntrials).map fun trial => .optimizedRun trial check) ++
    [.optimizedTook]

/-- The image in `trialAnswer` at the end, which is black without trials. -/
def lastAnswer (picture : Picture) (ntrials : Int) : Picture :=
  { picture with
    A := if 0 < ntrials then maskImage picture.A picture.rows picture.cols
      else fun _ => 0 }

section Runs

variable {rows cols : Int} {state : State}

theorem prepare_eq (small : SmallValues state.baseImage rows cols)
    (ntrials : Int) :
    state.prepare rows cols ntrials =
      { state with
        trialImage := copy state.baseImage state.trialImage rows cols
        baseAnswer :=
          (Mask.baseMask state.baseImage state.baseAnswer rows cols).newImage
        check := maskCheck state.baseImage rows cols
        stdout := state.stdout ++ [.processing rows cols ntrials
          (maskCheck state.baseImage rows cols)] } := by
  have copied : ∀ cell ∈ cells rows cols, state.baseImage cell =
      copy state.baseImage state.trialImage rows cols cell :=
    fun cell inside => (copy_inside inside).symm
  have masks : Mask.Masks state.baseImage state.baseAnswer rows cols
      (Mask.baseMask state.baseImage state.baseAnswer rows cols) :=
    baseMask_computes small
  have check := masks_check masks
  rw [State.prepare, countDifferentPixels_same copied]
  dsimp only
  rw [if_neg (not_not.mpr rfl), List.append_nil, masks.old, check]

theorem prepare_ready (small : SmallValues state.baseImage rows cols)
    (ntrials : Int) :
    Ready state.baseImage rows cols (state.prepare rows cols ntrials) := by
  have masks : Mask.Masks state.baseImage state.baseAnswer rows cols
      (Mask.baseMask state.baseImage state.baseAnswer rows cols) :=
    baseMask_computes small
  rw [prepare_eq small]
  exact ⟨rfl, fun cell inside => copy_inside inside,
    fun cell inside => masks_newImage masks inside⟩

theorem Ready.print {image : Image} (ready : Ready image rows cols state)
    (message : Message) : Ready image rows cols (state.print message) :=
  ⟨ready.base, ready.trial, ready.answer⟩

theorem Ready.bothVersions {image : Image} (ready : Ready image rows cols state)
    (small : SmallValues image rows cols) (system : System) (ntrials : Int) :
    let based := runBase system rows cols ntrials state
    let optimized := runOptimized system rows cols ntrials
      ((based.print .baseTook).print .starting)
    based.stdout = state.stdout ++ (interval 0 ntrials).map (fun trial =>
      .baseRun trial (maskCheck image rows cols)) ∧
    optimized.stdout = based.stdout ++ [.baseTook, .starting] ++
      (interval 0 ntrials).map (fun trial =>
        .optimizedRun trial (maskCheck image rows cols)) ∧
    ∀ cell ∈ cells rows cols, optimized.trialAnswer cell =
      if 0 < ntrials then maskImage image rows cols cell
      else state.trialAnswer cell := by
  intro based optimized
  have first : Tried image rows cols ((interval 0 ntrials).map fun trial =>
      .baseRun trial (maskCheck image rows cols)) state based :=
    ready.runTrials baseMask_computes small _ ntrials
  have second : Tried image rows cols ((interval 0 ntrials).map fun trial =>
        .optimizedRun trial (maskCheck image rows cols))
      ((based.print .baseTook).print .starting) optimized :=
    ((first.ready.print _).print _).runTrials mask_computes small _ ntrials
  have printed : ((based.print .baseTook).print .starting).stdout =
      based.stdout ++ [.baseTook, .starting] := List.append_assoc _ _ _
  refine ⟨first.stdout, ?_, ?_⟩
  · rw [second.stdout, printed]
  · intro cell inside
    have kept : ((based.print .baseTook).print .starting).trialAnswer cell =
      based.trialAnswer cell := rfl
    rw [second.answer cell inside, kept, first.answer cell inside]
    simp only [List.map_eq_nil_iff]
    by_cases positive : 0 < ntrials
    · rw [if_pos positive, interval_cons positive,
        if_neg (List.cons_ne_nil _ _)]
    · have none := interval_empty (Int.not_lt.mp positive)
      rw [if_neg positive, if_pos none, if_pos none]

theorem runTrials_eq {picture : Picture}
    (small : SmallValues picture.A picture.rows picture.cols)
    (system : System) (ntrials : Int) (outfile : Option Stream) :
    runTrials system ntrials outfile picture =
      if ntrials = 0 then
        ⟨.trapped, [.processing picture.rows picture.cols 0
          (maskCheck picture.A picture.rows picture.cols)], "", none⟩
      else saveAnswer system outfile (lastAnswer picture ntrials)
        (report picture ntrials) := by
  obtain ⟨A, rows, cols, white⟩ := picture
  let start : State :=
    { baseImage := A
      baseAnswer := fun _ => 0
      trialImage := fun _ => 0
      trialAnswer := fun _ => 0
      check := 0
      stdout := [] }
  have ready : Ready A rows cols (start.prepare rows cols ntrials) :=
    @prepare_ready rows cols start small ntrials
  have prepared := @prepare_eq rows cols start small ntrials
  have silent : (start.prepare rows cols ntrials).stdout =
      [.processing rows cols ntrials (maskCheck A rows cols)] :=
    congrArg State.stdout prepared
  have black : (start.prepare rows cols ntrials).trialAnswer = fun _ => 0 :=
    congrArg State.trialAnswer prepared
  obtain ⟨based, optimized, answer⟩ :=
    ready.bothVersions small system ntrials
  rw [black] at answer
  rw [silent] at based
  rw [runTrials]
  dsimp only
  change (if ntrials = 0 then Result.mk .trapped (runBase system rows cols
      ntrials (start.prepare rows cols ntrials)).stdout "" none else _) = _
  split
  · rename_i zero
    subst zero
    rw [based, interval_empty (Int.le_refl 0)]
    rfl
  · rw [based] at optimized
    change saveAnswer system outfile
      ⟨(runOptimized system rows cols ntrials _).trialAnswer, rows, cols, white⟩
      ((runOptimized system rows cols ntrials _).stdout ++ [.optimizedTook]) = _
    rw [optimized]
    refine saveAnswer_congr system outfile ⟨_, rows, cols, white⟩ _ ?_
    intro cell inside
    refine (answer cell inside).trans ?_
    change _ = (lastAnswer ⟨A, rows, cols, white⟩ ntrials).A cell
    rw [lastAnswer]
    split <;> rfl

end Runs

theorem main_reads {system : System} {fuel : Nat} {program filename : Stream}
    {options : List Stream} (few : options.length ≤ 2) :
    main system fuel program (filename :: options) =
      (readImage system.stack fuel (characters filename) system.opened
        ⟨fun _ => 0, system.rows, system.cols, system.white⟩).map
          fun outcome =>
        if outcome.code ≠ 0 then ⟨.returned (-2), [], outcome.stderr, none⟩
        else runTrials system ((options[0]?.map strtol).getD 10) options[1]?
          outcome.picture := by
  rcases options with _ | ⟨numtrials, _ | ⟨outfile, _ | ⟨another, options⟩⟩⟩
  · rfl
  · rfl
  · rfl
  · simp only [List.length_cons] at few
    omega

/-- The sums fit for every image that `readImage` accepts. -/
theorem accepted_small {stack : Nat → Pgm.Frame} {fuel : Nat}
    {filename : String} {opened : Except String Stream} {before : Picture}
    {outcome : Outcome}
    (read : readImage stack fuel filename opened before = some outcome)
    (zero : outcome.code = 0) :
    SmallValues outcome.picture.A outcome.picture.rows
      outcome.picture.cols := by
  cases opened with
  | error reason =>
      cases read
      cases zero
  | ok bytes =>
      obtain ⟨file, rows, cols, white, data, _, header, rfl⟩ :=
        Pgm.readImage_zero read zero
      have few : rows * cols ≤ 2 ^ 22 :=
        (Int.mul_le_mul header.rowsRange.2 header.colsRange.2
          header.colsRange.1 (by decide)).trans (by decide)
      exact (accepted_pixelsIn header before.A).small (le_refl (-1))
        (le_refl 65535) few header.rowsRange.1 header.colsRange.1

/-- What `main` does with a file that `readImage` accepts. -/
theorem main_accepts {system : System} {fuel : Nat} {program filename : Stream}
    {options : List Stream} {outcome : Outcome} (few : options.length ≤ 2)
    (read : readImage system.stack fuel (characters filename) system.opened
      ⟨fun _ => 0, system.rows, system.cols, system.white⟩ = some outcome)
    (zero : outcome.code = 0) :
    let picture := outcome.picture
    let ntrials := (options[0]?.map strtol).getD 10
    main system fuel program (filename :: options) = some (
      if ntrials = 0 then
        ⟨.trapped, [.processing picture.rows picture.cols 0
          (maskCheck picture.A picture.rows picture.cols)], "", none⟩
      else saveAnswer system options[1]? (lastAnswer picture ntrials)
        (report picture ntrials)) := by
  intro picture ntrials
  rw [main_reads few, read, Option.map_some, if_neg (not_not.mpr zero),
    runTrials_eq (accepted_small read zero)]

/-- The text of an argument. -/
def text (characters : String) : Stream := characters.toList.map ascii

/-- A file with two pixels, 30 and 90. -/
def twoPixels : System :=
  { stack := fun _ => ⟨[], 0⟩
    rand := fun call => 1804289383 + call
    rows := 7
    cols := 7
    white := 7
    opened := .ok (text "P5 2 1 255\n" ++ [30, 90])
    created := .ok () }

theorem twoPixels_main :
    main twoPixels 30 (text "timemask") [text "in", text "1", text "out"] =
      some ⟨.returned 0,
        [.processing 1 2 1 120, .baseRun 0 120, .baseTook, .starting,
          .optimizedRun 0 120, .optimizedTook, .saving], "",
        some (text "P5 2 1 255\n" ++ [50, 70])⟩ := by
  have read : readImage twoPixels.stack 30 (characters (text "in"))
      twoPixels.opened ⟨fun _ => 0, 7, 7, 7⟩ =
      some (accepted 1 2 255 (fun _ => 0) [30, 90]) := rfl
  have few : [text "1", text "out"].length ≤ 2 := Nat.le_refl 2
  have accepts := @main_accepts twoPixels 30 (text "timemask") _ _ _ few read rfl
  refine accepts.trans ?_
  decide +kernel

end SystemsLabs.Timemask
