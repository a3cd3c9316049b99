import SystemsLabs.Pgm.Header

/-!
# When reading a header ends

`readPBMNumber` hangs on the streams of `Endless`, and `readImage` when one of
the numbers that it gets to is endless.
-/

namespace SystemsLabs.Pgm

open Stdio

/-- A number of the header is endless, and those before it are valid. -/
inductive EndlessHeader (stack : Nat → Frame) : Stream → Prop
  | cols {file : Stream} (endless : Endless stack 0 file) :
      EndlessHeader stack file
  | rows {file rest : Stream} {cols : Int} {calls : Nat}
      (colsAt : NumberAt stack 0 file cols calls rest) (colsValid : 0 ≤ cols)
      (endless : Endless stack calls rest) : EndlessHeader stack file
  | white {file rest left : Stream} {cols rows : Int} {calls after : Nat}
      (colsAt : NumberAt stack 0 file cols calls rest) (colsValid : 0 ≤ cols)
      (rowsAt : NumberAt stack calls rest rows after left)
      (rowsValid : 0 ≤ rows) (endless : Endless stack after left) :
      EndlessHeader stack file

/-- The file is opened, and an endless header is behind its magic number. -/
def EndlessImage (stack : Nat → Frame) (opened : Except String Stream) : Prop :=
  ∃ file, opened = .ok (ascii 'P' :: ascii '5' :: file) ∧
    EndlessHeader stack file

variable {stack : Nat → Frame} {picture : Picture}

theorem EndlessHeader.never {file : Stream}
    (endless : EndlessHeader stack file) (fuel : Nat) :
    readHeader stack fuel file picture = none := by
  rw [readHeader]
  cases endless with
  | cols endless => rw [endless.never, Option.bind_none]
  | rows colsAt colsValid endless =>
      apply colsAt.bind_eq_none
      dsimp only
      rw [if_neg (Int.not_lt.mpr colsValid), endless.never, Option.bind_none]
  | white colsAt colsValid rowsAt rowsValid endless =>
      apply colsAt.bind_eq_none
      dsimp only
      rw [if_neg (Int.not_lt.mpr colsValid)]
      apply rowsAt.bind_eq_none
      dsimp only
      rw [if_neg (Int.not_lt.mpr rowsValid), endless.never, Option.bind_none]

theorem readHeader_ends {file : Stream} (ends : ¬EndlessHeader stack file)
    {fuel : Nat} (enough : file.length < fuel) :
    ∃ result, readHeader stack fuel file picture = some result := by
  rw [readHeader]
  rcases @endless_or_number stack 0 file with endless |
    ⟨cols, calls, rest, colsAt⟩
  · exact (ends (.cols endless)).elim
  rw [colsAt.returns enough, Option.bind_some]
  dsimp only
  by_cases colsValid : cols < 0
  · exact ⟨_, if_pos colsValid⟩
  rw [if_neg colsValid]
  rcases @endless_or_number stack calls rest with endless |
    ⟨rows, after, left, rowsAt⟩
  · exact (ends (.rows colsAt (Int.not_lt.mp colsValid) endless)).elim
  have restEnough := Nat.lt_of_le_of_lt colsAt.length_le enough
  rw [rowsAt.returns restEnough, Option.bind_some]
  dsimp only
  by_cases rowsValid : rows < 0
  · exact ⟨_, if_pos rowsValid⟩
  rw [if_neg rowsValid]
  rcases @endless_or_number stack after left with endless |
    ⟨white, last, data, whiteAt⟩
  · exact (ends (.white colsAt (Int.not_lt.mp colsValid) rowsAt
      (Int.not_lt.mp rowsValid) endless)).elim
  have leftEnough := Nat.lt_of_le_of_lt rowsAt.length_le restEnough
  rw [whiteAt.returns leftEnough, Option.bind_some]
  dsimp only
  split <;> exact ⟨_, rfl⟩

/-- Only the header can keep `readImage` from returning. -/
theorem readImage_eq_none {fuel : Nat} {filename : String}
    {opened : Except String Stream} :
    readImage stack fuel filename opened picture = none ↔
      ∃ file, opened = .ok (ascii 'P' :: ascii '5' :: file) ∧
        readHeader stack fuel file picture = none := by
  cases opened with
  | error reason =>
      constructor
      · nofun
      · rintro ⟨_, ⟨⟩, _⟩
  | ok file =>
      rw [readImage]
      dsimp only
      by_cases magic : file = ascii 'P' :: ascii '5' :: (fread 2 file).2
      · rw [if_neg ((magic_iff file).mpr magic)]
        constructor
        · intro hangs
          refine ⟨(fread 2 file).2, congrArg _ magic, ?_⟩
          rcases header : readHeader stack fuel (fread 2 file).2 picture with
            _ | ⟨valid, after, data⟩
          · rfl
          · rw [header, Option.bind_some] at hangs
            dsimp only at hangs
            split at hangs
            · cases hangs
            · split at hangs <;> cases hangs
        · rintro ⟨header, same, hangs⟩
          cases same
          exact Option.bind_eq_none_iff.mpr fun _ some => by
            cases hangs.symm.trans some
      · rw [if_pos (not_not.mp (mt (magic_iff file).mp magic))]
        constructor
        · nofun
        · rintro ⟨header, same, _⟩
          cases same
          exact (magic rfl).elim

/-- `readPBMNumber` and `readImage` return on the streams that are not endless
and on no others. -/
theorem reading_ends_iff (stack : Nat → Frame) :
    (∀ reader, (∃ fuel result, readPBMNumber stack fuel reader = some result) ↔
      ¬Endless stack reader.calls reader.file) ∧
    ∀ filename opened picture,
      (∃ fuel outcome,
        readImage stack fuel filename opened picture = some outcome) ↔
      ¬EndlessImage stack opened := by
  constructor
  · intro reader
    constructor
    · rintro ⟨fuel, result, read⟩ endless
      exact nomatch (endless.never fuel).symm.trans read
    · intro ends
      rcases endless_or_number reader.calls reader.file with endless |
        ⟨value, after, rest, number⟩
      · exact (ends endless).elim
      · exact ⟨_, _, number.returns (Nat.lt_succ_self _)⟩
  · intro filename opened picture
    constructor
    · rintro ⟨fuel, outcome, read⟩ ⟨file, same, endless⟩
      have hangs := (@readImage_eq_none stack picture fuel filename opened).mpr
        ⟨file, same, endless.never fuel⟩
      exact nomatch hangs.symm.trans read
    · intro ends
      cases opened with
      | error reason => exact ⟨0, _, rfl⟩
      | ok file =>
          refine ⟨file.length, Option.ne_none_iff_exists'.mp ?_⟩
          intro hangs
          obtain ⟨header, same, never⟩ := readImage_eq_none.mp hangs
          cases same
          obtain ⟨result, read⟩ := @readHeader_ends stack picture header
            (fun endless => ends ⟨header, rfl, endless⟩)
            (ascii 'P' :: ascii '5' :: header).length
            (Nat.lt_succ_of_lt (Nat.lt_succ_self _))
          exact nomatch never.symm.trans read

/-- A comment at the end of the file, behind the magic number. -/
theorem cut_comment_hangs :
    (∀ fuel, readPBMNumber (fun _ => ⟨[], 0⟩) fuel
      ⟨[ascii ' ', ascii '#'], 0⟩ = none) ∧
    ∀ fuel, readImage (fun _ => ⟨[], 0⟩) fuel "image.pgm"
      (.ok [ascii 'P', ascii '5', ascii ' ', ascii '#'])
      ⟨fun _ => 0, 0, 0, 0⟩ = none := by
  have endless : Endless (fun _ => ⟨[], 0⟩) 0 [ascii ' ', ascii '#'] :=
    @Endless.cut _ 0 [ascii ' '] [] (by decide) (by decide)
  constructor
  · exact endless.never
  · intro fuel
    exact readImage_eq_none.mpr ⟨_, rfl, (EndlessHeader.cols endless).never fuel⟩

end SystemsLabs.Pgm
