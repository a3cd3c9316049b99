import SystemsLabs.Pgm.Code

/-!
# Numbers in a header

`NumberAt` says what `readPBMNumber` reads from a stream, and `Endless` on which
streams it reads for ever: a comment that the end of the file cuts off, or a
`str` from before that looks like one when there is nothing to read.
-/

namespace SystemsLabs.Pgm

open Stdio

/-- The last test of `readPBMNumber`. -/
def scanned (frame : Frame) (str : Stream) : Int :=
  if (sscanfInt str).1 ≠ 0 then (sscanfInt str).2.getD frame.val else -1

/-- A number behind comments, the calls afterwards, and what is left to read.
At the end of the file it comes from an old `str`. -/
inductive NumberAt (stack : Nat → Frame) :
    Nat → Stream → Int → Nat → Stream → Prop
  | comment {calls after : Nat} {spaces text rest file : Stream} {value : Int}
      (blank : Blank spaces) (line : newline ∉ text)
      (behind : NumberAt stack (calls + 1) rest value after file) :
      NumberAt stack calls (spaces ++ (hash :: text ++ newline :: rest)) value
        after file
  | word {calls : Nat} {spaces text rest : Stream} (blank : Blank spaces)
      (nonempty : text ≠ []) (solid : Solid text) (breaks : Breaks rest)
      (number : text.head? ≠ some hash) :
      NumberAt stack calls (spaces ++ (text ++ rest))
        (scanned (stack calls) (text.take 9)) (calls + 1) (text.drop 9 ++ rest)
  | old {calls : Nat} {spaces : Stream} (blank : Blank spaces)
      (number : (stack calls).str.head? ≠ some hash) :
      NumberAt stack calls spaces (scanned (stack calls) (stack calls).str)
        (calls + 1) []

/-- Behind comments, one without a newline. -/
inductive Endless (stack : Nat → Frame) : Nat → Stream → Prop
  | comment {calls : Nat} {spaces text rest : Stream} (blank : Blank spaces)
      (line : newline ∉ text) (behind : Endless stack (calls + 1) rest) :
      Endless stack calls (spaces ++ (hash :: text ++ newline :: rest))
  | cut {calls : Nat} {spaces text : Stream} (blank : Blank spaces)
      (line : newline ∉ text) : Endless stack calls (spaces ++ hash :: text)
  | old {calls : Nat} {spaces : Stream} (blank : Blank spaces)
      (comment : (stack calls).str.head? = some hash) :
      Endless stack calls spaces

/-! ### The loop over a comment -/

theorem fgetc_ne_newline {byte : UInt8} (other : byte ≠ newline) :
    (byte.toNat : Int) ≠ newline.toNat := by
  intro same
  exact other (UInt8.toNat_inj.mp (Int.ofNat.inj same))

theorem skipComment_cut {text : Stream} (line : newline ∉ text) (fuel : Nat) :
    skipComment fuel text = none := by
  induction fuel generalizing text with
  | zero => rfl
  | succ fuel ih =>
      cases text with
      | nil => exact ih line
      | cons byte text =>
          obtain ⟨other, rest⟩ := not_or.mp (mt List.mem_cons.mpr line)
          rw [skipComment, fgetc]
          simp only [if_pos (fgetc_ne_newline (Ne.symm other))]
          exact ih rest

theorem skipComment_line {text : Stream} (line : newline ∉ text) (fuel : Nat)
    (rest : Stream) :
    skipComment fuel (text ++ newline :: rest) =
      if text.length < fuel then some rest else none := by
  induction text generalizing fuel with
  | nil =>
      cases fuel with
      | zero => rfl
      | succ fuel => rfl
  | cons byte text ih =>
      obtain ⟨other, behind⟩ := not_or.mp (mt List.mem_cons.mpr line)
      cases fuel with
      | zero => rfl
      | succ fuel =>
          rw [List.cons_append, skipComment, fgetc]
          simp only [if_pos (fgetc_ne_newline (Ne.symm other))]
          rw [ih behind, List.length_cons]
          simp only [Nat.succ_lt_succ_iff]

theorem fscanfString_comment {spaces text rest : Stream} (blank : Blank spaces)
    (line : newline ∉ text) (breaks : Breaks rest) :
    ∃ token left, fscanfString 9 (spaces ++ (hash :: text ++ rest)) =
        (1, some token, left ++ rest) ∧
      token.head? = some hash ∧ newline ∉ left ∧ left.length ≤ text.length := by
  obtain ⟨word, others, rfl, solid, stops⟩ := word_and_break text
  have notSpace : isSpaceByte hash = false := by decide
  have scans := @fscanfString_word spaces (hash :: word) (others ++ rest) 9
    blank (List.cons_ne_nil _ _) (List.forall_mem_cons.mpr ⟨notSpace, solid⟩)
    (stops.append breaks)
  refine ⟨(hash :: word).take 9, word.drop 8 ++ others, ?_, rfl, ?_, ?_⟩
  · have same : hash :: (word ++ others) ++ rest =
        hash :: word ++ (others ++ rest) :=
      List.append_assoc (hash :: word) others rest
    rw [List.append_assoc, same]
    exact scans
  · intro member
    apply line
    rcases List.mem_append.mp member with early | late
    · exact List.mem_append_left _ (List.mem_of_mem_drop early)
    · exact List.mem_append_right _ late
  · simp only [List.length_append, List.length_drop]
    omega

section Calls

variable {stack : Nat → Frame} {fuel calls : Nat} {spaces text rest : Stream}

/-! ### One call -/

theorem readPBMNumber_comment (blank : Blank spaces) (line : newline ∉ text) :
    ∃ length ≤ text.length, ∀ fuel,
      readPBMNumber stack (fuel + 1)
          ⟨spaces ++ (hash :: text ++ newline :: rest), calls⟩ =
        if length < fuel then readPBMNumber stack fuel ⟨rest, calls + 1⟩
        else none := by
  have breaks : Breaks (newline :: rest) := by
    intro byte member
    cases member
    decide
  obtain ⟨token, left, scans, comment, within, shorter⟩ :=
    fscanfString_comment blank line breaks
  refine ⟨left.length, shorter, fun fuel => ?_⟩
  rw [readPBMNumber, scans]
  simp only [Option.getD_some, if_pos comment, skipComment_line within]
  by_cases enough : left.length < fuel
  · rw [if_pos enough, if_pos enough]
    rfl
  · rw [if_neg enough, if_neg enough]
    rfl

theorem readPBMNumber_cut (blank : Blank spaces) (line : newline ∉ text) :
    readPBMNumber stack fuel ⟨spaces ++ hash :: text, calls⟩ = none := by
  cases fuel with
  | zero => rfl
  | succ fuel =>
      have breaks : Breaks [] := nofun
      obtain ⟨token, left, scans, comment, within, _⟩ :=
        fscanfString_comment blank line breaks
      rw [List.append_nil, List.append_nil] at scans
      rw [readPBMNumber, scans]
      simp only [Option.getD_some, if_pos comment, skipComment_cut within]
      rfl

theorem readPBMNumber_scanned {token : Option Stream} {count : Int}
    {file : Stream} (scans : fscanfString 9 file = (count, token, rest))
    (returned : count ≠ 0)
    (number : (token.getD (stack calls).str).head? ≠ some hash) :
    readPBMNumber stack (fuel + 1) ⟨file, calls⟩ =
      some (scanned (stack calls) (token.getD (stack calls).str),
        ⟨rest, calls + 1⟩) := by
  rw [readPBMNumber, scans, scanned]
  simp only [if_neg returned, if_neg number]
  split <;> rfl

theorem readPBMNumber_word (blank : Blank spaces) (nonempty : text ≠ [])
    (solid : Solid text) (breaks : Breaks rest)
    (number : text.head? ≠ some hash) :
    readPBMNumber stack (fuel + 1) ⟨spaces ++ (text ++ rest), calls⟩ =
      some (scanned (stack calls) (text.take 9),
        ⟨text.drop 9 ++ rest, calls + 1⟩) := by
  apply readPBMNumber_scanned (fscanfString_word blank nonempty solid breaks)
    (by decide)
  rwa [Option.getD_some, List.head?_take, if_neg (by decide)]

theorem readPBMNumber_old (blank : Blank spaces)
    (number : (stack calls).str.head? ≠ some hash) :
    readPBMNumber stack (fuel + 1) ⟨spaces, calls⟩ =
      some (scanned (stack calls) (stack calls).str, ⟨[], calls + 1⟩) :=
  readPBMNumber_scanned (fscanfString_blank blank) (by decide) number

/-- An old string that is a comment, at the end of the file. -/
theorem readPBMNumber_old_comment (blank : Blank spaces)
    (comment : (stack calls).str.head? = some hash) :
    readPBMNumber stack fuel ⟨spaces, calls⟩ = none := by
  cases fuel with
  | zero => rfl
  | succ fuel =>
      rw [readPBMNumber, fscanfString_blank blank]
      simp only [Option.getD_none, if_pos comment,
        skipComment_cut List.not_mem_nil]
      rfl

end Calls

/-! ### Whole numbers -/

section Numbers

variable {stack : Nat → Frame} {calls after : Nat} {file rest : Stream}
  {value : Int}

theorem NumberAt.length_le (number : NumberAt stack calls file value after rest) :
    rest.length ≤ file.length := by
  induction number with
  | comment blank line behind ih =>
      simp only [List.length_append, List.length_cons]
      omega
  | word blank nonempty solid breaks number =>
      simp only [List.length_append, List.length_drop]
      omega
  | old blank number => exact Nat.zero_le _

theorem NumberAt.returns (number : NumberAt stack calls file value after rest)
    {fuel : Nat} (enough : file.length < fuel) :
    readPBMNumber stack fuel ⟨file, calls⟩ = some (value, ⟨rest, after⟩) := by
  induction number generalizing fuel with
  | @comment calls _ spaces text rest _ _ blank line behind ih =>
      obtain ⟨length, shorter, reads⟩ :=
        @readPBMNumber_comment stack calls spaces text rest blank line
      simp only [List.length_append, List.length_cons] at enough
      obtain ⟨fuel, rfl⟩ := Nat.exists_eq_add_of_lt enough
      rw [reads, if_pos (by omega)]
      exact ih (by omega)
  | word blank nonempty solid breaks number =>
      obtain ⟨fuel, rfl⟩ := Nat.exists_eq_add_of_lt enough
      exact readPBMNumber_word blank nonempty solid breaks number
  | old blank number =>
      obtain ⟨fuel, rfl⟩ := Nat.exists_eq_add_of_lt enough
      exact readPBMNumber_old blank number

/-- Nothing else is read with any fuel. -/
theorem NumberAt.unique (number : NumberAt stack calls file value after rest)
    {fuel : Nat} {result : Int × Reader}
    (read : readPBMNumber stack fuel ⟨file, calls⟩ = some result) :
    result = (value, ⟨rest, after⟩) := by
  induction number generalizing fuel with
  | @comment calls _ spaces text rest _ _ blank line behind ih =>
      cases fuel with
      | zero => cases read
      | succ fuel =>
          obtain ⟨length, _, reads⟩ :=
            @readPBMNumber_comment stack calls spaces text rest blank line
          rw [reads] at read
          split at read
          · exact ih read
          · cases read
  | word blank nonempty solid breaks number =>
      cases fuel with
      | zero => cases read
      | succ fuel =>
          rw [readPBMNumber_word blank nonempty solid breaks number] at read
          exact (Option.some.inj read).symm
  | old blank number =>
      cases fuel with
      | zero => cases read
      | succ fuel =>
          rw [readPBMNumber_old blank number] at read
          exact (Option.some.inj read).symm

theorem NumberAt.bind_eq_none {α : Type}
    (number : NumberAt stack calls file value after rest) {fuel : Nat}
    {next : Int × Reader → Option α}
    (never : next (value, ⟨rest, after⟩) = none) :
    (readPBMNumber stack fuel ⟨file, calls⟩).bind next = none := by
  apply Option.bind_eq_none_iff.mpr
  intro result read
  rw [number.unique read]
  exact never

theorem Endless.never (endless : Endless stack calls file) (fuel : Nat) :
    readPBMNumber stack fuel ⟨file, calls⟩ = none := by
  induction endless generalizing fuel with
  | @comment calls spaces text rest blank line behind ih =>
      cases fuel with
      | zero => rfl
      | succ fuel =>
          obtain ⟨length, _, reads⟩ :=
            @readPBMNumber_comment stack calls spaces text rest blank line
          rw [reads, ih, ite_self]
  | cut blank line => exact readPBMNumber_cut blank line
  | old blank comment => exact readPBMNumber_old_comment blank comment

/-- Every stream has a number or keeps `readPBMNumber` for ever. -/
theorem endless_or_number (calls : Nat) (file : Stream) :
    Endless stack calls file ∨
      ∃ value after rest, NumberAt stack calls file value after rest := by
  induction length : file.length using Nat.strong_induction_on
    generalizing calls file with
  | _ _ ih =>
  rcases blank_or_word file with blank |
    ⟨spaces, text, rest, rfl, blank, nonempty, solid, breaks⟩
  · by_cases comment : (stack calls).str.head? = some hash
    · exact .inl (.old blank comment)
    · exact .inr ⟨_, _, _, .old blank comment⟩
  · by_cases comment : text.head? = some hash
    · obtain ⟨tail, rfl⟩ := List.head?_eq_some_iff.mp comment
      by_cases line : newline ∈ tail ++ rest
      · obtain ⟨skipped, behind, parts, first⟩ :=
          List.eq_append_cons_of_mem line
        have whole : spaces ++ (hash :: tail ++ rest) =
            spaces ++ (hash :: skipped ++ newline :: behind) := by
          rw [List.cons_append, parts, List.cons_append]
        rw [whole] at length ⊢
        simp only [List.length_append, List.length_cons] at length
        rcases ih behind.length (by omega) (calls + 1) behind rfl with
          endless | ⟨value, after, file, number⟩
        · exact .inl (.comment blank first endless)
        · exact .inr ⟨value, after, file, .comment blank first number⟩
      · exact .inl (.cut blank line)
    · exact .inr ⟨_, _, _, .word blank nonempty solid breaks comment⟩

theorem numberAt_of_read {fuel : Nat} {reader : Reader}
    (read : readPBMNumber stack fuel ⟨file, calls⟩ = some (value, reader)) :
    NumberAt stack calls file value reader.calls reader.file := by
  rcases @endless_or_number stack calls file with endless |
    ⟨other, after, rest, number⟩
  · exact nomatch (endless.never fuel).symm.trans read
  · cases number.unique read
    exact number

theorem NumberAt.functional {other : Int} {last : Nat} {left : Stream}
    (first : NumberAt stack calls file value after rest)
    (second : NumberAt stack calls file other last left) :
    value = other ∧ after = last ∧ rest = left := by
  cases second.unique (first.returns (Nat.lt_succ_self _))
  exact ⟨rfl, rfl, rfl⟩

end Numbers

theorem magic_iff (file : Stream) :
    ¬((fread 2 file).1.length < 2 ∨ (fread 2 file).1[0]? ≠ some (ascii 'P') ∨
        (fread 2 file).1[1]? ≠ some (ascii '5')) ↔
      file = ascii 'P' :: ascii '5' :: (fread 2 file).2 := by
  rcases file with _ | ⟨first, _ | ⟨second, rest⟩⟩
  · simp [fread]
  · simp [fread]
  · simp [fread]

end SystemsLabs.Pgm
