import Mathlib.Data.List.Induction
import Mathlib.Data.List.TakeWhile
import SystemsLabs.Library.MachineInt

/-!
# Standard input and output of C on a finite stream

A stream is the list of the bytes that are still to be read, in the C locale.
At its end `fgetc` returns `-1` for ever.  The conversions are `%s` with a
width, and `%d`.
-/

namespace SystemsLabs.Stdio

abbrev Stream := List UInt8

/-- The byte of an ASCII character. -/
def ascii (character : Char) : UInt8 := UInt8.ofNat character.toNat

def isspace (character : Int) : Bool :=
  character == 32 || (decide (9 ≤ character) && decide (character ≤ 13))

def isdigit (character : Int) : Bool :=
  decide (48 ≤ character) && decide (character ≤ 57)

def isSpaceByte (byte : UInt8) : Bool := isspace byte.toNat

def isDigitByte (byte : UInt8) : Bool := isdigit byte.toNat

def fgetc : Stream → Int × Stream
  | [] => (-1, [])
  | byte :: rest => (byte.toNat, rest)

/-- `fread` of single bytes returns those that are there. -/
def fread (count : Nat) (file : Stream) : Stream × Stream :=
  (file.take count, file.drop count)

/-- `fscanf(file, "%9s", str)` for a width of 9: what it returns, the bytes that
it puts into `str`, and the rest of the stream.  At the end of the stream it
returns `EOF` and leaves `str` alone. -/
def fscanfString (width : Nat) (file : Stream) : Int × Option Stream × Stream :=
  match file.dropWhile isSpaceByte with
  | [] => (-1, none, [])
  | first :: rest =>
      let token :=
        ((first :: rest).takeWhile fun byte => !isSpaceByte byte).take width
      (1, some token, (first :: rest).drop token.length)

/-- The number that decimal digits denote. -/
def digitsValue (digits : Stream) : Nat :=
  Nat.ofDigitChars 10 (digits.map fun byte => Char.ofNat byte.toNat) 0

/-- `strtol` stops at the bounds of a `long`, and the result is stored in an
`int`. -/
def storedInt (number : Int) : Int :=
  toInt (max (-2 ^ 63) (min number (2 ^ 63 - 1)))

/-- `sscanf(str, "%d", &val)`: what it returns, and what it stores in `val`.  The
string ends in front of the first zero byte.  A string of white space is `EOF`,
one without digits a matching failure. -/
def sscanfInt (str : Stream) : Int × Option Int :=
  let text := (str.takeWhile fun byte => byte != 0).dropWhile isSpaceByte
  match text with
  | [] => (-1, none)
  | first :: rest =>
      let digits :=
        (if first = ascii '-' ∨ first = ascii '+' then rest
          else first :: rest).takeWhile isDigitByte
      if digits = [] then (0, none)
      else if first = ascii '-' then (1, some (storedInt (-digitsValue digits)))
      else (1, some (storedInt (digitsValue digits)))

/-- What `fprintf` writes for `%d`. -/
def decimal (number : Int) : Stream :=
  let digits := (Nat.toDigits 10 number.natAbs).map ascii
  if number < 0 then ascii '-' :: digits else digits

/-- `fputc` converts to `unsigned char`. -/
def fputc (character : Int) : Stream := [UInt8.ofInt character]

/-! ### Reading bytes -/

theorem fgetc_snd (file : Stream) : (fgetc file).2 = file.drop 1 := by
  cases file <;> rfl

/-! ### Words -/

/-- Bytes without white space. -/
def Solid (text : Stream) : Prop := ∀ byte ∈ text, isSpaceByte byte = false

/-- White space only. -/
def Blank (text : Stream) : Prop := ∀ byte ∈ text, isSpaceByte byte = true

/-- A word cannot go on into this stream. -/
def Breaks (rest : Stream) : Prop := ∀ byte ∈ rest.head?, isSpaceByte byte = true

instance (text : Stream) : Decidable (Blank text) :=
  List.decidableBAll _ text

variable {spaces text rest : Stream} {width : Nat}

theorem dropWhile_blank (blank : Blank spaces) (rest : Stream) :
    (spaces ++ rest).dropWhile isSpaceByte = rest.dropWhile isSpaceByte :=
  List.dropWhile_append_of_pos blank

theorem takeWhile_solid (solid : Solid text) (breaks : Breaks rest) :
    (text ++ rest).takeWhile (fun byte => !isSpaceByte byte) = text := by
  rw [List.takeWhile_append_of_pos]
  · cases rest with
    | nil => exact List.append_nil text
    | cons byte rest =>
        have space := breaks byte rfl
        rw [List.takeWhile_cons, space]
        exact List.append_nil text
  · intro byte member
    rw [solid byte member]
    rfl

theorem fscanfString_blank (blank : Blank spaces) :
    fscanfString width spaces = (-1, none, []) := by
  have none := dropWhile_blank blank []
  rw [List.append_nil] at none
  rw [fscanfString, none]
  rfl

theorem fscanfString_word (blank : Blank spaces) (nonempty : text ≠ [])
    (solid : Solid text) (breaks : Breaks rest) :
    fscanfString width (spaces ++ (text ++ rest)) =
      (1, some (text.take width), text.drop width ++ rest) := by
  obtain ⟨first, others, rfl⟩ := List.exists_cons_of_ne_nil nonempty
  have first_solid := solid first List.mem_cons_self
  have starts : (spaces ++ (first :: others ++ rest)).dropWhile isSpaceByte =
      first :: (others ++ rest) := by
    rw [dropWhile_blank blank, List.cons_append, List.dropWhile_cons,
      first_solid]
    rfl
  have behind : (first :: others ++ rest).drop
      ((first :: others).take width).length =
        (first :: others).drop width ++ rest := by
    rw [List.length_take, List.drop_append_of_le_length (Nat.min_le_right _ _),
      ← List.drop_eq_drop_min]
  rw [fscanfString, starts]
  simp only
  rw [← List.cons_append, takeWhile_solid solid breaks, behind]

theorem word_and_break (text : Stream) :
    ∃ word others, text = word ++ others ∧ Solid word ∧ Breaks others := by
  refine ⟨_, _, (@List.takeWhile_append_dropWhile _
    (fun byte => !isSpaceByte byte) text).symm, ?_, ?_⟩
  · intro byte member
    have inside := List.mem_takeWhile_imp member
    exact Bool.not_eq_eq_eq_not.mp inside
  · intro byte member
    have stop := List.head?_dropWhile_not (fun byte => !isSpaceByte byte) text
    rw [Option.mem_def.mp member] at stop
    exact Bool.not_eq_eq_eq_not.mp stop

theorem Breaks.append {others : Stream} (first : Breaks others)
    (second : Breaks rest) : Breaks (others ++ rest) := by
  cases others with
  | nil => exact second
  | cons byte others => exact first

/-- Every stream begins with a word behind white space, or is blank. -/
theorem blank_or_word (file : Stream) :
    Blank file ∨ ∃ spaces text rest, file = spaces ++ (text ++ rest) ∧
      Blank spaces ∧ text ≠ [] ∧ Solid text ∧ Breaks rest := by
  induction file with
  | nil => exact .inl nofun
  | cons byte file ih =>
      by_cases space : isSpaceByte byte = true
      · rcases ih with blank | ⟨spaces, text, rest, rfl, blank, word⟩
        · exact .inl (List.forall_mem_cons.mpr ⟨space, blank⟩)
        · exact .inr ⟨byte :: spaces, text, rest, rfl,
            List.forall_mem_cons.mpr ⟨space, blank⟩, word⟩
      · obtain ⟨word, others, rfl, solid, breaks⟩ := word_and_break file
        exact .inr ⟨[], byte :: word, others, rfl, nofun, List.cons_ne_nil _ _,
          List.forall_mem_cons.mpr ⟨Bool.eq_false_iff.mpr space, solid⟩, breaks⟩

/-! ### Decimal numbers -/

/-- An optional sign and digits. -/
inductive Decimal : Int → Stream → Prop
  | plain {digits : Stream} (nonempty : digits ≠ [])
      (all : ∀ byte ∈ digits, isDigitByte byte = true) :
      Decimal (digitsValue digits) digits
  | plus {digits : Stream} (nonempty : digits ≠ [])
      (all : ∀ byte ∈ digits, isDigitByte byte = true) :
      Decimal (digitsValue digits) (ascii '+' :: digits)
  | minus {digits : Stream} (nonempty : digits ≠ [])
      (all : ∀ byte ∈ digits, isDigitByte byte = true) :
      Decimal (-digitsValue digits) (ascii '-' :: digits)

theorem isDigitByte_bounds {byte : UInt8} :
    isDigitByte byte = true ↔ 48 ≤ byte.toNat ∧ byte.toNat ≤ 57 := by
  simp only [isDigitByte, isdigit, Bool.and_eq_true, decide_eq_true_eq]
  omega

theorem storedInt_of_bounds {number : Int} (low : -2 ^ 31 ≤ number)
    (high : number < 2 ^ 31) : storedInt number = number := by
  have below : number ≤ 2 ^ 63 - 1 := by omega
  have above : -2 ^ 63 ≤ number := by omega
  rw [storedInt, Int.min_eq_left below, Int.max_eq_right above]
  exact toInt_of_bounds low high

section Digits

variable {digits : Stream}
  (all : ∀ byte ∈ digits, isDigitByte byte = true)
include all

theorem digits_solid : Solid digits := by
  intro byte member
  have bounds := isDigitByte_bounds.mp (all byte member)
  simp only [isSpaceByte, isspace, Bool.or_eq_false_iff, beq_eq_false_iff_ne,
    Bool.and_eq_false_iff, decide_eq_false_iff_not]
  omega

theorem digitsValue_lt : digitsValue digits < 10 ^ digits.length := by
  induction digits using List.reverseRecOn with
  | nil => decide
  | append_singleton digits byte ih =>
      have earlier := ih fun other member =>
        all other (List.mem_append_left _ member)
      have bounds := isDigitByte_bounds.mp
        (all byte (List.mem_append_right _ List.mem_cons_self))
      have last : (Char.ofNat byte.toNat).toNat = byte.toNat := by
        have valid : byte.toNat.isValidChar :=
          .inl (Nat.lt_of_le_of_lt bounds.2 (by decide))
        rw [Char.ofNat, dif_pos valid]
        rfl
      have step : digitsValue (digits ++ [byte]) =
          10 * digitsValue digits + (byte.toNat - 48) := by
        rw [digitsValue, List.map_append, Nat.ofDigitChars_append,
          List.map_singleton, Nat.ofDigitChars_cons, Nat.ofDigitChars_nil, last]
        rfl
      rw [step, List.length_append, List.length_singleton, Nat.pow_succ]
      omega

theorem digits_nonzero : ∀ byte ∈ digits, byte ≠ 0 := by
  intro byte member zero
  have bounds := isDigitByte_bounds.mp (all byte member)
  rw [zero] at bounds
  exact absurd bounds.1 (by decide)

theorem storedInt_digits (short : digits.length ≤ 9) :
    storedInt (digitsValue digits) = digitsValue digits ∧
      storedInt (-digitsValue digits) = -digitsValue digits := by
  have value := digitsValue_lt all
  have bound : 10 ^ digits.length ≤ 10 ^ 9 :=
    Nat.pow_le_pow_right (by decide) short
  constructor <;> apply storedInt_of_bounds <;> omega

end Digits

theorem string_of_word {first : UInt8} (solid : Solid (first :: rest))
    (nonzero : ∀ byte ∈ first :: rest, byte ≠ 0) :
    ((first :: rest).takeWhile fun byte => byte != 0).dropWhile isSpaceByte =
      first :: rest := by
  have whole : (first :: rest).takeWhile (fun byte => byte != 0) =
      first :: rest := by
    apply List.takeWhile_eq_self_iff.mpr
    intro byte member
    exact bne_iff_ne.mpr (nonzero byte member)
  rw [whole, List.dropWhile_cons, solid first List.mem_cons_self]
  rfl

/-- The string of a decimal number of at most nine characters gives the number. -/
theorem Decimal.sscanfInt {number : Int} (decimal : Decimal number text)
    (short : text.length ≤ 9) : sscanfInt text = (1, some number) := by
  cases decimal with
  | @plain digits nonempty all =>
      have stored := storedInt_digits all short
      obtain ⟨first, rest, rfl⟩ := List.exists_cons_of_ne_nil nonempty
      have bounds := isDigitByte_bounds.mp (all first List.mem_cons_self)
      have notMinus : first ≠ ascii '-' := by
        rintro rfl
        exact absurd bounds.1 (by decide)
      have notPlus : first ≠ ascii '+' := by
        rintro rfl
        exact absurd bounds.1 (by decide)
      rw [Stdio.sscanfInt, string_of_word (digits_solid all) (digits_nonzero all)]
      dsimp only
      rw [if_neg (not_or.mpr ⟨notMinus, notPlus⟩), if_neg notMinus,
        List.takeWhile_eq_self_iff.mpr all, if_neg nonempty, stored.1]
  | @plus digits nonempty all =>
      have stored := storedInt_digits all (Nat.le_of_succ_le short)
      have solid : Solid (ascii '+' :: digits) :=
        List.forall_mem_cons.mpr ⟨by decide, digits_solid all⟩
      rw [Stdio.sscanfInt, string_of_word solid
        (List.forall_mem_cons.mpr ⟨by decide, digits_nonzero all⟩)]
      dsimp only
      rw [if_pos (Or.inr rfl), List.takeWhile_eq_self_iff.mpr all,
        if_neg nonempty, if_neg (by decide), stored.1]
  | @minus digits nonempty all =>
      have stored := storedInt_digits all (Nat.le_of_succ_le short)
      have solid : Solid (ascii '-' :: digits) :=
        List.forall_mem_cons.mpr ⟨by decide, digits_solid all⟩
      rw [Stdio.sscanfInt, string_of_word solid
        (List.forall_mem_cons.mpr ⟨by decide, digits_nonzero all⟩)]
      dsimp only
      rw [if_pos (Or.inl rfl), if_pos rfl,
        List.takeWhile_eq_self_iff.mpr all, if_neg nonempty, stored.2]

theorem Decimal.solid {number : Int} (decimal : Decimal number text) :
    Solid text := by
  cases decimal with
  | plain nonempty all => exact digits_solid all
  | plus nonempty all =>
      exact List.forall_mem_cons.mpr ⟨by decide, digits_solid all⟩
  | minus nonempty all =>
      exact List.forall_mem_cons.mpr ⟨by decide, digits_solid all⟩

theorem Decimal.ne_nil {number : Int} (decimal : Decimal number text) :
    text ≠ [] := by
  cases decimal with
  | plain nonempty all => exact nonempty
  | plus nonempty all => exact List.cons_ne_nil _ _
  | minus nonempty all => exact List.cons_ne_nil _ _

theorem ascii_digit {character : Char} (digit : character.isDigit = true) :
    (ascii character).toNat = character.toNat ∧
      isDigitByte (ascii character) = true := by
  have bounds := Char.isDigit_iff_toNat.mp digit
  have low : 48 ≤ character.toNat := bounds.1
  have high : character.toNat ≤ 57 := bounds.2
  have same : (ascii character).toNat = character.toNat := by
    exact Nat.mod_eq_of_lt (by omega)
  refine ⟨same, isDigitByte_bounds.mpr ?_⟩
  rw [same]
  exact ⟨low, high⟩

theorem decimal_natCast (number : Nat) : Decimal number (decimal number) := by
  have digits : ∀ character ∈ Nat.toDigits 10 number,
      character.isDigit = true := fun character member =>
    Nat.isDigit_of_mem_toDigits (by decide) (Nat.le_refl 10) member
  have text : decimal number = (Nat.toDigits 10 number).map ascii := by
    rw [decimal, if_neg (Int.not_lt.mpr (Int.natCast_nonneg number)),
      Int.natAbs_natCast]
  have value : digitsValue (decimal number) = number := by
    have back : ((Nat.toDigits 10 number).map ascii).map
        (fun byte => Char.ofNat byte.toNat) = Nat.toDigits 10 number := by
      rw [List.map_map]
      refine (List.map_congr_left fun character member => ?_).trans
        (List.map_id _)
      rw [Function.comp_apply, (ascii_digit (digits character member)).1,
        Char.ofNat_toNat, id]
    rw [text, digitsValue, back, Nat.ofDigitChars_ten_toDigits]
  have decimal_number : Decimal (digitsValue (decimal number))
      (decimal number) := by
    apply Decimal.plain
    · rw [text]
      exact mt List.map_eq_nil_iff.mp Nat.toDigits_ne_nil
    · rw [text]
      intro byte member
      obtain ⟨character, inside, rfl⟩ := List.mem_map.mp member
      exact (ascii_digit (digits character inside)).2
  rwa [value] at decimal_number

theorem length_decimal {number count : Nat} (positive : 0 < count)
    (small : number < 10 ^ count) : (decimal number).length ≤ count := by
  rw [decimal, if_neg (Int.not_lt.mpr (Int.natCast_nonneg number)),
    List.length_map, Int.natAbs_natCast]
  exact (Nat.length_toDigits_le_iff (by decide) positive).mpr small

end SystemsLabs.Stdio
