import SystemsLabs.Pgm.Code

/-!
# The program of `lab6/timemask.c`

`countDifferentPixels`, `copy` and `main`.  The measured times are left out, but
not the division by the number of trials.  What the environment provides is a
parameter: the files, the results of `rand`, and what locals hold before they
are assigned.
-/

namespace SystemsLabs.Timemask

open Stdio CellLoops
open Mask (Image Images baseMask mask2)
open Pgm (Frame Picture readImage saveImage)

/-- What `printf` is called for, with its arguments. -/
inductive Message
  | differs (i j : Int) (A B : BitVec 64)
  | wrongCopy
  | processing (rows cols ntrials : Int) (check : BitVec 64)
  | baseRun (trial : Int) (check : BitVec 64)
  | optimizedRun (trial : Int) (check : BitVec 64)
  | modified
  | differentResult
  | baseTook
  | starting
  | optimizedTook
  | saving
deriving DecidableEq

/-- The body of the loops of `countDifferentPixels`. -/
def comparePixel (A B : Image) (cell : Int × Int)
    (state : Int × List Message) : Int × List Message :=
  if A cell ≠ B cell then
    (state.1 + 1, state.2 ++ [.differs cell.1 cell.2 (A cell) (B cell)])
  else state

/-- The result, and what has been printed. -/
def countDifferentPixels (A B : Image) (rows cols : Int) :
    Int × List Message :=
  loop 0 rows (fun i => loop 0 cols fun j => comparePixel A B (i, j)) (0, [])

def copyPixel (src : Image) (cell : Int × Int) (dst : Image) : Image :=
  Function.update dst cell (src cell)

def copy (src dst : Image) (rows cols : Int) : Image :=
  loop 0 rows (fun i => loop 0 cols fun j => copyPixel src (i, j)) dst

/-- `memset` on a whole array: every byte of a `long` is the same. -/
def memset (character : Int) : Image :=
  fun _ => (BitVec.ofInt 8 character).replicate 8

/-- `strtol(text, NULL, 10)`, stored in an `int`. -/
def strtol (text : Stream) : Int := (sscanfInt text).2.getD 0

/-- A version of the mask; `ω` is its type of weights. -/
abbrev Version (ω : Type) := Image → Image → Int → Int → Images ω

/-- `MASK_VERSION`. -/
def mask : Version (BitVec 64) := mask2

/-- The arrays, the last check, and what has been printed. -/
structure State where
  baseImage : Image
  baseAnswer : Image
  trialImage : Image
  trialAnswer : Image
  check : BitVec 64
  stdout : List Message

namespace State

def print (message : Message) (state : State) : State :=
  { state with stdout := state.stdout ++ [message] }

/-- `if (PARANOID && countDifferentPixels(baseImage, trialImage, ...))`. -/
def checkImage (rows cols : Int) (state : State) : State :=
  let (count, printed) :=
    countDifferentPixels state.baseImage state.trialImage rows cols
  let state := { state with stdout := state.stdout ++ printed }
  if count ≠ 0 then
    { state with
      trialImage := copy state.baseImage state.trialImage rows cols
      stdout := state.stdout ++ [.modified] }
  else state

/-- `if (PARANOID && countDifferentPixels(trialAnswer, baseAnswer, ...))`. -/
def checkAnswer (rows cols : Int) (state : State) : State :=
  let (count, printed) :=
    countDifferentPixels state.trialAnswer state.baseAnswer rows cols
  let state := { state with stdout := state.stdout ++ printed }
  if count ≠ 0 then state.print .differentResult else state

/-- The body of the two loops over the trials: `random` is the result of
`rand`, and `done` the message behind the version. -/
def runTrial {ω : Type} (version : Version ω)
    (done : Int → BitVec 64 → Message) (random : Int) (rows cols trial : Int)
    (state : State) : State :=
  let images := version state.trialImage (memset random) rows cols
  let state :=
    { state with
      trialImage := images.oldImage
      trialAnswer := images.newImage
      check := images.check
      stdout := state.stdout ++ [done trial images.check] }
  (state.checkImage rows cols).checkAnswer rows cols

/-- The copy in front of the trials, and `baseAnswer`. -/
def prepare (rows cols ntrials : Int) (state : State) : State :=
  let state :=
    { state with
      trialImage := copy state.baseImage state.trialImage rows cols }
  let (count, printed) :=
    countDifferentPixels state.baseImage state.trialImage rows cols
  let state := { state with stdout := state.stdout ++ printed }
  let state := if count ≠ 0 then state.print .wrongCopy else state
  let images := baseMask state.baseImage state.baseAnswer rows cols
  { state with
    baseImage := images.oldImage
    baseAnswer := images.newImage
    check := images.check
    stdout := state.stdout ++ [.processing rows cols ntrials images.check] }

end State

/-- What `main` finds around it.  `opened` is the file of `argv[1]`, and
`created` says whether that of `argv[3]` can be written. -/
structure System where
  stack : Nat → Frame
  rand : Nat → Int
  rows : Int
  cols : Int
  white : Int
  opened : Except String Stream
  created : Except String Unit

inductive Exit
  | returned (code : Int)
  /-- A division by zero. -/
  | trapped
deriving DecidableEq

/-- What `main` has done when it ends; `saved` is the file that it has
written. -/
structure Result where
  exit : Exit
  stdout : List Message
  stderr : String
  saved : Option Stream
deriving DecidableEq

/-- The characters of an argument, as a message shows them. -/
def characters (text : Stream) : String :=
  String.ofList (text.map fun byte => Char.ofNat byte.toNat)

/-- The end of `main`. -/
def saveAnswer (system : System) (outfile : Option Stream) (picture : Picture)
    (stdout : List Message) : Result :=
  match outfile with
  | none => ⟨.returned 0, stdout, "", none⟩
  | some outfile =>
      match system.created with
      | .ok _ =>
          ⟨.returned 0, stdout ++ [.saving], "", some (saveImage picture)⟩
      | .error reason =>
          ⟨.returned 0, stdout ++ [.saving],
            s!"{characters outfile}: {reason}\n", none⟩

/-- The loop over the base runs. -/
def runBase (system : System) (rows cols ntrials : Int) : State → State :=
  loop 0 ntrials fun trial =>
    State.runTrial baseMask .baseRun (system.rand trial.toNat) rows cols trial

/-- The loop over the optimized runs, after those of the base. -/
def runOptimized (system : System) (rows cols ntrials : Int) : State → State :=
  loop 0 ntrials fun trial =>
    State.runTrial mask .optimizedRun (system.rand (ntrials.toNat + trial.toNat))
      rows cols trial

/-- The trials of `main`, for an image that has been read. -/
def runTrials (system : System) (ntrials : Int) (outfile : Option Stream)
    (picture : Picture) : Result :=
  let rows := picture.rows
  let cols := picture.cols
  let state : State :=
    { baseImage := picture.A
      baseAnswer := fun _ => 0
      trialImage := fun _ => 0
      trialAnswer := fun _ => 0
      check := 0
      stdout := [] }
  let state := state.prepare rows cols ntrials
  let state := runBase system rows cols ntrials state
  -- `totaltime / ntrials`
  if ntrials = 0 then ⟨.trapped, state.stdout, "", none⟩
  else
    let state := (state.print .baseTook).print .starting
    let state := runOptimized system rows cols ntrials state
    let state := state.print .optimizedTook
    saveAnswer system outfile { picture with A := state.trialAnswer }
      state.stdout

/-- `argv` is `program` and the arguments behind it. -/
def main (system : System) (fuel : Nat) (program : Stream)
    (arguments : List Stream) : Option Result :=
  match arguments with
  | [] | _ :: _ :: _ :: _ :: _ =>
      some ⟨.returned (-1), [],
        s!"usage:\n\t{characters program} filename.pgm [numtrials [outfile.pgm]]\n",
        none⟩
  | filename :: options =>
      let ntrials := (options[0]?.map strtol).getD 10
      let picture : Picture :=
        ⟨fun _ => 0, system.rows, system.cols, system.white⟩
      (readImage system.stack fuel (characters filename) system.opened
        picture).map fun outcome =>
      if outcome.code ≠ 0 then
        ⟨.returned (-2), [], outcome.stderr, none⟩
      else runTrials system ntrials options[1]? outcome.picture

end SystemsLabs.Timemask
