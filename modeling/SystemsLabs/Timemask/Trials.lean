import SystemsLabs.Timemask.Code
import SystemsLabs.Pgm.Image

/-!
# The trials of `main`

`Ready` is what holds between two trials: the image that has been read is still
there, its copy agrees with it, and `baseAnswer` has the masked image.  A trial
keeps it, prints one line, and leaves the masked image in `trialAnswer`.
-/

namespace SystemsLabs.Timemask

open Stdio CellLoops
open Mask (Image Images baseMask mask2 cells mem_cells maskValue weightedSum
  SmallValues PixelsIn Masks)
open Pgm (Picture Outcome HeaderAt accepted readPixel readImage saveImage)

section Comparing

variable {A B src dst : Image} {rows cols : Int}

theorem mem_rowByRow {cell : Int × Int} :
    cell ∈ rowByRow 0 rows 0 cols ↔ cell ∈ cells rows cols :=
  (rowByRow_sweeps 0 rows 0 cols).mem_iff cell

/-- Nothing is counted or printed for images that agree. -/
theorem countDifferentPixels_same
    (same : ∀ cell ∈ cells rows cols, A cell = B cell) :
    countDifferentPixels A B rows cols = (0, []) := by
  have visits := loop_rows (comparePixel A B) (0, []) 0 rows 0 cols
  refine visits.trans (visit_fixed fun cell member => ?_)
  rw [comparePixel, if_neg (not_not.mpr (same cell (mem_rowByRow.mp member)))]

theorem copyPixel_local (src : Image) (region : Finset (Int × Int)) :
    LocalStep region (fun _ => True) id (copyPixel src)
      (fun cell _ => src cell) := by
  constructor
  · exact fun _ _ => trivial
  · intro dst cell _ _
    exact Function.update_self cell (src cell) dst
  · intro dst cell other _ _ different
    exact Function.update_of_ne different (src cell) dst

theorem copy_inside {cell : Int × Int} (inside : cell ∈ cells rows cols) :
    copy src dst rows cols cell = src cell := by
  have visits : copy src dst rows cols =
      visit (rowByRow 0 rows 0 cols) (copyPixel src) dst :=
    loop_rows (copyPixel src) dst 0 rows 0 cols
  have copied : visit (rowByRow 0 rows 0 cols) (copyPixel src) dst cell =
      if cell ∈ cells rows cols then src cell else dst cell :=
    ((copyPixel_local src (cells rows cols)).visit
      (rowByRow_sweeps 0 rows 0 cols) trivial).2 cell
  rw [visits, copied, if_pos inside]

end Comparing

section Values

variable {image other : Image} {rows cols : Int}

/-- The mask looks at no pixel outside the image. -/
theorem weightedSum_congr
    (same : ∀ cell ∈ cells rows cols, image cell = other cell)
    (cell : Int × Int) :
    weightedSum image rows cols cell = weightedSum other rows cols cell := by
  rw [weightedSum, weightedSum]
  refine congrArg List.sum (List.map_congr_left fun offset _ => ?_)
  split
  · rename_i inside
    rw [same _ inside]
  · rfl

theorem maskValue_congr
    (same : ∀ cell ∈ cells rows cols, image cell = other cell)
    (cell : Int × Int) :
    maskValue image rows cols cell = maskValue other rows cols cell := by
  rw [maskValue, maskValue, weightedSum_congr same]

theorem smallValues_congr
    (same : ∀ cell ∈ cells rows cols, image cell = other cell)
    (small : SmallValues image rows cols) : SmallValues other rows cols := by
  constructor
  · intro cell inside
    rw [← weightedSum_congr same]
    exact small.sums cell inside
  · rw [← Finset.sum_congr rfl fun cell _ => maskValue_congr same cell]
    exact small.total

/-- The masked image. -/
def maskImage (image : Image) (rows cols : Int) : Image :=
  fun cell => BitVec.ofInt 64 (maskValue image rows cols cell)

/-- The sum of the pixels of the masked image. -/
def maskCheck (image : Image) (rows cols : Int) : BitVec 64 :=
  BitVec.ofInt 64 (∑ cell ∈ cells rows cols, maskValue image rows cols cell)

theorem maskImage_congr
    (same : ∀ cell ∈ cells rows cols, image cell = other cell) :
    maskImage image rows cols = maskImage other rows cols :=
  funext fun cell => congrArg (BitVec.ofInt 64) (maskValue_congr same cell)

theorem maskCheck_congr
    (same : ∀ cell ∈ cells rows cols, image cell = other cell) :
    maskCheck image rows cols = maskCheck other rows cols :=
  congrArg (BitVec.ofInt 64)
    (Finset.sum_congr rfl fun cell _ => maskValue_congr same cell)

end Values

/-- A version that computes the weighted means. -/
def Computes {ω : Type} (version : Version ω) : Prop :=
  ∀ {oldImage newImage : Image} {rows cols : Int},
    SmallValues oldImage rows cols →
      Masks oldImage newImage rows cols (version oldImage newImage rows cols)

theorem baseMask_computes : Computes baseMask := by
  intro oldImage newImage rows cols small
  exact (Mask.baseMask_divides oldImage newImage rows cols).masks small

theorem mask_computes : Computes mask := by
  intro oldImage newImage rows cols small
  have reordered : Mask.fusedOffsets.Perm Mask.offsets := by decide
  exact ((Mask.mask2_divides oldImage newImage rows cols).perm
    reordered).masks small

section Masking

variable {oldImage newImage : Image} {rows cols : Int} {ω : Type}
  {images : Images ω}

theorem masks_newImage (masks : Masks oldImage newImage rows cols images)
    {cell : Int × Int} (inside : cell ∈ cells rows cols) :
    images.newImage cell = maskImage oldImage rows cols cell := by
  rw [maskImage, ← masks.inside cell inside, BitVec.ofInt_toInt]

theorem masks_check (masks : Masks oldImage newImage rows cols images) :
    images.check = maskCheck oldImage rows cols := by
  rw [maskCheck, ← Finset.sum_congr rfl masks.inside, ← masks.check,
    BitVec.ofInt_toInt]

end Masking

/-- The images between two trials. -/
structure Ready (image : Image) (rows cols : Int) (state : State) : Prop where
  base : state.baseImage = image
  trial : ∀ cell ∈ cells rows cols, state.trialImage cell = image cell
  answer : ∀ cell ∈ cells rows cols,
    state.baseAnswer cell = maskImage image rows cols cell

/-- What some trials have done. -/
structure Tried (image : Image) (rows cols : Int) (messages : List Message)
    (before after : State) : Prop where
  ready : Ready image rows cols after
  stdout : after.stdout = before.stdout ++ messages
  answer : ∀ cell ∈ cells rows cols, after.trialAnswer cell =
    if messages = [] then before.trialAnswer cell
    else maskImage image rows cols cell

section Trials

variable {image : Image} {rows cols : Int} {ω : Type}
  {version : Version ω} {done : Int → BitVec 64 → Message} {state : State}

theorem Ready.checkImage (ready : Ready image rows cols state) :
    state.checkImage rows cols = state := by
  have same : ∀ cell ∈ cells rows cols,
      state.baseImage cell = state.trialImage cell := by
    intro cell inside
    rw [ready.base, ready.trial cell inside]
  rw [State.checkImage, countDifferentPixels_same same]
  dsimp only
  rw [if_neg (not_not.mpr rfl), List.append_nil]

theorem Ready.checkAnswer (ready : Ready image rows cols state)
    (right : ∀ cell ∈ cells rows cols,
      state.trialAnswer cell = maskImage image rows cols cell) :
    state.checkAnswer rows cols = state := by
  have same : ∀ cell ∈ cells rows cols,
      state.trialAnswer cell = state.baseAnswer cell := by
    intro cell inside
    rw [right cell inside, ready.answer cell inside]
  rw [State.checkAnswer, countDifferentPixels_same same]
  dsimp only
  rw [if_neg (not_not.mpr rfl), List.append_nil]

theorem Ready.runTrial (ready : Ready image rows cols state)
    (computes : Computes version)
    (small : SmallValues image rows cols)
    (random trial : Int) :
    Tried image rows cols [done trial (maskCheck image rows cols)] state
      (state.runTrial version done random rows cols trial) := by
  have same : ∀ cell ∈ cells rows cols, image cell = state.trialImage cell :=
    fun cell inside => (ready.trial cell inside).symm
  have masks : Masks state.trialImage (memset random) rows cols
      (version state.trialImage (memset random) rows cols) :=
    computes (smallValues_congr same small)
  have check := masks_check masks
  have answer : ∀ cell ∈ cells rows cols,
      (version state.trialImage (memset random) rows cols).newImage cell =
        maskImage image rows cols cell := by
    intro cell inside
    rw [masks_newImage masks inside, maskImage_congr same]
  rw [← maskCheck_congr same] at check
  rw [State.runTrial, masks.old, check]
  generalize after : { state with
      trialImage := state.trialImage
      trialAnswer :=
        (version state.trialImage (memset random) rows cols).newImage
      check := maskCheck image rows cols
      stdout := state.stdout ++
        [done trial (maskCheck image rows cols)] : State } = new
  have newReady : Ready image rows cols new := by
    subst after
    exact ⟨ready.base, ready.trial, ready.answer⟩
  have newAnswer : ∀ cell ∈ cells rows cols,
      new.trialAnswer cell = maskImage image rows cols cell := by
    subst after
    exact answer
  rw [newReady.checkImage, newReady.checkAnswer newAnswer]
  refine ⟨newReady, ?_, ?_⟩
  · subst after
    rfl
  · intro cell inside
    rw [if_neg (List.cons_ne_nil _ _), newAnswer cell inside]

theorem Tried.trans {first second : List Message} {before middle after : State}
    (some : second ≠ [])
    (tried : Tried image rows cols first before middle)
    (again : Tried image rows cols second middle after) :
    Tried image rows cols (first ++ second) before after := by
  refine ⟨again.ready, ?_, ?_⟩
  · rw [again.stdout, tried.stdout, List.append_assoc]
  · intro cell inside
    rw [again.answer cell inside, if_neg some,
      if_neg (List.append_ne_nil_of_right_ne_nil first some)]

theorem Ready.runTrials (ready : Ready image rows cols state)
    (computes : Computes version)
    (small : SmallValues image rows cols)
    (random : Int → Int) (ntrials : Int) :
    Tried image rows cols
      ((interval 0 ntrials).map fun trial =>
        done trial (maskCheck image rows cols)) state
      (loop 0 ntrials (fun trial =>
        State.runTrial version done (random trial) rows cols trial) state) := by
  have none : Tried image rows cols [] state state :=
    ⟨ready, (List.append_nil _).symm, fun _ _ => (if_pos rfl).symm⟩
  rcases Int.le_total ntrials 0 with few | nonneg
  · rw [loop, interval_empty few]
    exact none
  · obtain ⟨count, rfl⟩ := Int.eq_ofNat_of_zero_le nonneg
    clear nonneg
    induction count with
    | zero => exact none
    | succ count ih =>
        have snoc := interval_snoc (Int.natCast_nonneg count)
        have step : ((count + 1 : Nat) : Int) = (count : Int) + 1 := rfl
        rw [step, loop_snoc (Int.natCast_nonneg count), snoc, List.map_append]
        exact ih.trans (List.cons_ne_nil _ _)
          (ih.ready.runTrial computes small (random count) count)

end Trials

end SystemsLabs.Timemask
