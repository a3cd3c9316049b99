import SystemsLabs.Pgm.Image

/-!
# The format of a header

A header is the magic number and three decimal numbers, each with white space
behind it; in front of a number there are comments, each up to its newline.
`readPBMNumber` takes a number of at most nine characters as it is meant and
cuts a longer one.
-/

namespace SystemsLabs.Pgm

open Stdio

/-- A number with its text, and with the comments and the white space in front
of it. -/
inductive Numeral (value : Int) (text : Stream) : Stream → Prop
  | plain {spaces : Stream} (blank : Blank spaces)
      (decimal : Decimal value text) : Numeral value text (spaces ++ text)
  | comment {spaces line bytes : Stream} (blank : Blank spaces)
      (one : newline ∉ line) (behind : Numeral value text bytes) :
      Numeral value text (spaces ++ (hash :: line ++ newline :: bytes))

/-- A complete header, with the texts of its numbers. -/
def Header (rows cols white : Int) (texts : List Stream) (bytes : Stream) :
    Prop :=
  ∃ first second third space colsText rowsText whiteText,
    texts = [colsText, rowsText, whiteText] ∧
    bytes = ascii 'P' :: ascii '5' ::
      (first ++ (second ++ (third ++ [space]))) ∧
    (Numeral cols colsText first ∧ Numeral rows rowsText second ∧
      Numeral white whiteText third) ∧
    Breaks second ∧ Breaks third ∧ isSpaceByte space = true

/-- A complete header with numbers of at most nine characters, and at least the
bytes of all pixels behind it. -/
def WellFormed (bytes : Stream) : Prop :=
  ∃ rows cols white texts header data, bytes = header ++ data ∧
    Header rows cols white texts header ∧ (∀ text ∈ texts, text.length ≤ 9) ∧
    rows.toNat * cols.toNat * pixelWidth white ≤ data.length

section Numerals

variable {stack : Nat → Frame} {calls : Nat} {value : Int}
  {text bytes rest : Stream}

theorem hash_notMem (decimal : Decimal value text) : hash ∉ text := by
  have noDigit : isDigitByte hash = false := by decide
  intro member
  cases decimal with
  | plain nonempty all => exact nomatch noDigit.symm.trans (all hash member)
  | plus nonempty all =>
      rcases List.mem_cons.mp member with sign | digit
      · exact absurd sign (by decide)
      · exact nomatch noDigit.symm.trans (all hash digit)
  | minus nonempty all =>
      rcases List.mem_cons.mp member with sign | digit
      · exact absurd sign (by decide)
      · exact nomatch noDigit.symm.trans (all hash digit)

theorem Numeral.decimal (numeral : Numeral value text bytes) :
    Decimal value text := by
  induction numeral with
  | plain blank decimal => exact decimal
  | comment blank one behind ih => exact ih

theorem Numeral.length_le (numeral : Numeral value text bytes) :
    text.length ≤ bytes.length := by
  induction numeral with
  | plain blank decimal =>
      rw [List.length_append]
      exact Nat.le_add_left _ _
  | comment blank one behind ih =>
      simp only [List.length_append, List.length_cons]
      omega

theorem Numeral.numberAt (numeral : Numeral value text bytes)
    (breaks : Breaks rest) :
    ∃ after frame, NumberAt stack calls (bytes ++ rest)
      (scanned frame (text.take 9)) after (text.drop 9 ++ rest) := by
  induction numeral generalizing calls with
  | @plain spaces blank decimal =>
      rw [List.append_assoc]
      exact ⟨_, _, .word blank decimal.ne_nil decimal.solid breaks
        fun head => hash_notMem decimal (List.mem_of_mem_head? head)⟩
  | @comment spaces line bytes blank one behind ih =>
      obtain ⟨after, frame, number⟩ := @ih (calls + 1)
      refine ⟨after, frame, ?_⟩
      have parts : spaces ++ (hash :: line ++ newline :: bytes) ++ rest =
          spaces ++ (hash :: line ++ newline :: (bytes ++ rest)) := by
        simp only [List.append_assoc, List.cons_append]
      rw [parts]
      exact .comment blank one number

/-- What is left of a word that was cut is read as a word. -/
theorem numberAt_left (nonempty : text ≠ []) (solid : Solid text)
    (noHash : hash ∉ text) (breaks : Breaks rest) :
    ∃ value after, NumberAt stack calls (text ++ rest) value after
      (text.drop 9 ++ rest) :=
  ⟨_, _, @NumberAt.word stack calls [] text rest nofun nonempty solid breaks
    fun head => noHash (List.mem_of_mem_head? head)⟩

theorem Numeral.numberAt_short (numeral : Numeral value text bytes)
    (short : text.length ≤ 9) (breaks : Breaks rest) :
    ∃ after, NumberAt stack calls (bytes ++ rest) value after rest := by
  obtain ⟨after, frame, number⟩ :=
    @Numeral.numberAt stack calls value text bytes rest numeral breaks
  have read := numeral.decimal.sscanfInt short
  rw [List.take_of_length_le short, List.drop_eq_nil_of_le short, scanned, read]
    at number
  exact ⟨after, number⟩

end Numerals

theorem Numeral.breaks {value : Int} {text bytes rest : Stream}
    (numeral : Numeral value text bytes) (breaks : Breaks bytes) :
    Breaks (bytes ++ rest) := by
  have nonempty : bytes ≠ [] := by
    rintro rfl
    have longer := numeral.length_le
    exact numeral.decimal.ne_nil (List.length_eq_zero_iff.mp
      (Nat.le_zero.mp longer))
  obtain ⟨first, others, rfl⟩ := List.exists_cons_of_ne_nil nonempty
  exact breaks

/-- The numbers of a complete header are read when they are short. -/
theorem Header.numbersAt {stack : Nat → Frame} {rows cols white : Int}
    {texts : List Stream} {bytes : Stream}
    (header : Header rows cols white texts bytes)
    (short : ∀ text ∈ texts, text.length ≤ 9) (data : Stream) :
    ∃ file, bytes ++ data = ascii 'P' :: ascii '5' :: file ∧
      NumbersAt stack file rows cols white data := by
  obtain ⟨first, second, third, space, colsText, rowsText, whiteText, rfl, rfl,
    ⟨colsNumeral, rowsNumeral, whiteNumeral⟩, secondBreaks, thirdBreaks,
    isSpace⟩ := header
  have spaceBreaks : Breaks (space :: data) := by
    intro byte member
    cases member
    exact isSpace
  have thirdRest := @Numeral.breaks _ _ _ (space :: data) whiteNumeral
    thirdBreaks
  have secondRest := @Numeral.breaks _ _ _ (third ++ space :: data) rowsNumeral
    secondBreaks
  obtain ⟨calls, colsAt⟩ := @Numeral.numberAt_short stack 0 _ _ _ _ colsNumeral
    (short _ (by simp)) secondRest
  obtain ⟨after, rowsAt⟩ := @Numeral.numberAt_short stack calls _ _ _ _
    rowsNumeral (short _ (by simp)) thirdRest
  obtain ⟨last, whiteAt⟩ := @Numeral.numberAt_short stack after _ _ _ _
    whiteNumeral (short _ (by simp)) spaceBreaks
  refine ⟨first ++ (second ++ (third ++ space :: data)), ?_, ?_⟩
  · simp only [List.cons_append, List.append_assoc, List.nil_append]
  · exact ⟨calls, _, after, _, last, space, colsAt, rowsAt, whiteAt, isSpace⟩

end SystemsLabs.Pgm
