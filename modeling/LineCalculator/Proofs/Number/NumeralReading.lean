import LineCalculator.Proofs.Token.Spelling

/-!
# Reading numerals

The numeral that is read from the front of a text is well formed, and a
well-formed numeral is read whole when no letter, digit or point follows it.
-/

namespace LineCalculator

open Token (Stops stops_dropWhile takeWhile_append_of_stops
  dropWhile_append_of_stops)

/-- A text that stops the characters of a word stops digits. -/
theorem Token.stops_isDigit
    {text : List Char}
    (stops : Stops Char.isAlphanum text) :
    Stops Char.isDigit text := by
  intro first isFirst
  have here := stops first isFirst
  apply Bool.eq_false_iff.mpr
  intro digit
  simp [isAlphanum_iff.mpr (.inr digit)] at here

/-- The digits in front of a text are digits. -/
theorem isDigit_of_mem_takeWhile
    (text : List Char) :
    ∀ digit ∈ text.takeWhile Char.isDigit, digit.isDigit = true :=
  fun _ => List.mem_takeWhile_imp

/-- A text that does not start with a point has no fraction. -/
theorem Numeral.readFraction_of_ne
    {text : List Char}
    (noPoint : text.head? ≠ some '.') :
    readFraction text = (none, text) := by
  unfold readFraction
  split
  · exact absurd rfl noPoint
  · rfl

/-- A text that starts with neither sign has no sign. -/
theorem ExponentSign.read_of_ne
    {text : List Char}
    (noPlus : text.head? ≠ some '+')
    (noMinus : text.head? ≠ some '-') :
    read text = (.absent, text) := by
  unfold read
  split
  · exact absurd rfl noPlus
  · exact absurd rfl noMinus
  · rfl

namespace Numeral

/-- The sign of an exponent is read back before a text that starts with no
sign. -/
theorem ExponentSign.read_characters_append
    (sign : ExponentSign)
    {text : List Char}
    (first : ∀ character ∈ text.head?, character ≠ '+' ∧ character ≠ '-') :
    ExponentSign.read (sign.characters ++ text) = (sign, text) := by
  cases sign with
  | absent =>
      cases text with
      | nil => rfl
      | cons character text =>
          obtain ⟨notPlus, notMinus⟩ := first character rfl
          simp only [ExponentSign.characters, List.nil_append,
            ExponentSign.read]
          split <;> simp_all
  | plus => rfl
  | minus => rfl

/-- An exponent that is read has a digit, and only digits. -/
theorem Exponent.wellFormed_of_read?
    {text rest : List Char}
    {exponent : Exponent}
    (read : read? text = some (exponent, rest)) :
    exponent.WellFormed := by
  obtain ⟨mark, tail, -, isMark, nonempty, rfl, -⟩ := parts_of_read? read
  exact ⟨isMark, nonempty, isDigit_of_mem_takeWhile _⟩

/-- An exponent in front of a text is read together with the digits that follow
it. -/
theorem Exponent.read?_characters_append_digits
    {exponent : Exponent}
    (wellFormed : exponent.WellFormed)
    (rest : List Char) :
    read? (exponent.characters ++ rest) =
      some ({ exponent with
        digits := exponent.digits ++ rest.takeWhile Char.isDigit },
        rest.dropWhile Char.isDigit) := by
  obtain ⟨mark, sign, digits⟩ := exponent
  obtain ⟨isMark, nonempty, all⟩ := wellFormed
  have first : ∀ character ∈ (digits ++ rest).head?,
      character ≠ '+' ∧ character ≠ '-' := by
    intro character isFirst
    rw [List.head?_append_of_ne_nil _ nonempty] at isFirst
    have digit := all character (List.mem_of_mem_head? isFirst)
    constructor <;> rintro rfl <;> simp at digit
  have signRead := ExponentSign.read_characters_append sign first
  simp only [characters, List.cons_append, List.append_assoc, read?]
  rw [if_pos isMark, signRead]
  simp only
  rw [List.takeWhile_append_of_pos all, List.dropWhile_append_of_pos all]
  simp [nonempty]

/-- An exponent is read whole when no digit follows it. -/
theorem Exponent.read?_characters_append
    {exponent : Exponent}
    {rest : List Char}
    (wellFormed : exponent.WellFormed)
    (stops : Stops Char.isDigit rest) :
    read? (exponent.characters ++ rest) = some (exponent, rest) := by
  have noDigits : rest.takeWhile Char.isDigit = [] :=
    Token.takeWhile_before_stop stops []
  have allLeft : rest.dropWhile Char.isDigit = rest :=
    Token.dropWhile_before_stop stops []
  rw [read?_characters_append_digits wellFormed, noDigits, allLeft,
    List.append_nil]

/-- Nothing that starts otherwise is an exponent. -/
theorem Exponent.read?_eq_none
    {text : List Char}
    (stops : Stops Char.isAlphanum text) :
    read? text = none := by
  cases text with
  | nil => rfl
  | cons first text =>
      have here := stops first rfl
      rw [read?, if_neg]
      rintro (rfl | rfl) <;> revert here <;> decide

/-- A fraction is read back before a text that starts with no digit, and no
fraction before a text that starts with no point. -/
theorem readFraction_characters_append
    {fraction : Option (List Char)}
    {rest : List Char}
    (all : ∀ digits ∈ fraction, ∀ digit ∈ digits, digit.isDigit = true)
    (noPoint : fraction = none → ∀ character ∈ rest.head?, character ≠ '.')
    (stops : Stops Char.isDigit rest) :
    readFraction (fractionCharacters fraction ++ rest) = (fraction, rest) := by
  cases fraction with
  | none =>
      cases rest with
      | nil => rfl
      | cons character rest =>
          have notPoint := noPoint rfl character rfl
          simp only [fractionCharacters, List.nil_append, readFraction]
          split <;> simp_all
  | some digits =>
      have digitsAll := all digits rfl
      simp only [fractionCharacters, List.cons_append, readFraction]
      rw [takeWhile_append_of_stops digitsAll stops,
        dropWhile_append_of_stops digitsAll stops]

/-- A fraction that is read has only digits. -/
theorem digits_of_readFraction (text : List Char) :
    ∀ digits ∈ (readFraction text).1, ∀ digit ∈ digits, digit.isDigit = true := by
  unfold readFraction
  split
  · next text =>
      intro digits isFraction
      simp only [Option.mem_some_iff] at isFraction
      exact isFraction ▸ isDigit_of_mem_takeWhile text
  · simp

/-- The numeral that is read is well formed. -/
theorem wellFormed_of_read?
    {text rest : List Char}
    {numeral : Numeral}
    (read : read? text = some (numeral, rest)) :
    numeral.WellFormed := by
  have wholeDigits := isDigit_of_mem_takeWhile text
  have fractionDigits := digits_of_readFraction (text.dropWhile Char.isDigit)
  obtain ⟨nonempty, rfl, -⟩ := parts_of_read? read
  refine ⟨nonempty, wholeDigits, fractionDigits, ?_⟩
  intro exponent isExponent
  obtain ⟨⟨_, after⟩, found, rfl⟩ := Option.map_eq_some_iff.mp isExponent
  exact Exponent.wellFormed_of_read? found

/-- An optional exponent does not start like more digits or a fraction. -/
theorem Exponent.first_of_characters_append
    {exponent : Option Exponent}
    {rest : List Char}
    (wellFormed : ∀ written ∈ exponent, written.WellFormed)
    (stops : Stops Char.isDigit rest)
    (noPoint : ∀ character ∈ rest.head?, character ≠ '.') :
    ∀ character ∈ ((exponent.map characters).getD [] ++ rest).head?,
      character.isDigit = false ∧ character ≠ '.' := by
  cases exponent with
  | none => exact fun character isFirst =>
      ⟨stops character isFirst, noPoint character isFirst⟩
  | some exponent =>
      intro character isFirst
      obtain ⟨isMark, -⟩ := wellFormed exponent rfl
      have first : exponent.mark = character := by
        simpa [characters] using isFirst
      rw [← first]
      rcases isMark with mark | mark <;> rw [mark] <;> decide

/-- A fraction, or a text behind its absence that does not start with a digit,
does not carry on the digits in front. -/
theorem stops_fractionCharacters_append
    (fraction : Option (List Char))
    {text : List Char}
    (stops : fraction = none → Stops Char.isDigit text) :
    Stops Char.isDigit (fractionCharacters fraction ++ text) := by
  cases fraction with
  | none => exact stops rfl
  | some digits =>
      intro character isFirst
      have point : '.' = character := by
        simpa [fractionCharacters] using isFirst
      rw [← point]
      decide

/-- A well-formed numeral is read whole when nothing follows that could carry it
on. -/
theorem read?_characters_append
    {numeral : Numeral}
    {rest : List Char}
    (wellFormed : numeral.WellFormed)
    (stops : Stops Char.isAlphanum rest)
    (noPoint : ∀ character ∈ rest.head?, character ≠ '.') :
    read? (numeral.characters ++ rest) = some (numeral, rest) := by
  obtain ⟨whole, fraction, exponent⟩ := numeral
  obtain ⟨nonempty, wholeDigits, fractionDigits, exponentWellFormed⟩ := wellFormed
  have digitStops := Token.stops_isDigit stops
  have exponentFirst := Exponent.first_of_characters_append exponentWellFormed
    digitStops noPoint
  have fractionStops := stops_fractionCharacters_append fraction
    fun _ character isFirst => (exponentFirst character isFirst).1
  have fractionRead := readFraction_characters_append fractionDigits
    (fun _ character isFirst => (exponentFirst character isFirst).2)
    (fun character isFirst => (exponentFirst character isFirst).1)
  have exponentRead :
      Exponent.read? ((exponent.map Exponent.characters).getD [] ++ rest) =
        exponent.map fun exponent => (exponent, rest) := by
    cases exponent with
    | none => exact Exponent.read?_eq_none stops
    | some exponent =>
        exact Exponent.read?_characters_append (exponentWellFormed exponent rfl)
          digitStops
  simp only [characters, List.append_assoc, read?]
  rw [takeWhile_append_of_stops wholeDigits fractionStops,
    dropWhile_append_of_stops wholeDigits fractionStops, fractionRead]
  simp only [nonempty, List.isEmpty_iff, if_false]
  rw [exponentRead]
  cases exponent with
  | none => rfl
  | some exponent => rfl

/-- A numeral starts with a digit. -/
theorem WellFormed.exists_first
    {numeral : Numeral}
    (wellFormed : numeral.WellFormed) :
    ∃ first ∈ numeral.characters.head?, first.isDigit = true := by
  obtain ⟨nonempty, wholeDigits, -⟩ := wellFormed
  rcases start : numeral.whole with _ | ⟨first, whole⟩
  · exact absurd start nonempty
  · have member : first ∈ numeral.whole := by simp [start]
    exact ⟨first, by simp [characters, start], wholeDigits first member⟩

/-- A numeral has no blank at its front. -/
theorem WellFormed.visible
    {numeral : Numeral}
    (wellFormed : numeral.WellFormed) :
    Token.Visible numeral.characters := by
  obtain ⟨first, isFirst, digit⟩ := wellFormed.exists_first
  exact ⟨first, isFirst,
    isBlank_eq_false_of_isAlphanum (isAlphanum_iff.mpr (.inr digit))⟩

end Numeral

namespace Token

/-- The number that is read is that of a well-formed numeral behind the
blanks. -/
theorem exists_numeral_of_number
    {text rest : List Char}
    {value : Float}
    (read : number text = some (value, rest)) :
    ∃ numeral : Numeral, numeral.WellFormed ∧ numeral.toFloat = value ∧
      numeral.characters ++ rest = skipBlanks text := by
  simp only [number, Option.map_eq_some_iff] at read
  obtain ⟨⟨numeral, after⟩, found, equal⟩ := read
  simp only [Prod.mk.injEq] at equal
  obtain ⟨rfl, rfl⟩ := equal
  exact ⟨numeral, Numeral.wellFormed_of_read? found, rfl,
    Numeral.characters_append_of_read? found⟩

/-- No number is read from a text that starts with no digit. -/
theorem number_eq_none
    {text : List Char}
    (different : ∀ first ∈ first? text, first.isDigit = false) :
    number text = none := by
  rcases found : number text with _ | ⟨value, rest⟩
  · rfl
  · obtain ⟨numeral, wellFormed, -, split⟩ := exists_numeral_of_number found
    obtain ⟨first, isFirst, digit⟩ := wellFormed.exists_first
    have here := different first (by
      rw [first?, ← split, List.head?_append, isFirst]
      rfl)
    simp [here] at digit

/-- A numeral is read back as its number before a text that starts with no
letter, digit or point. -/
theorem number_eq_some
    {numeral : Numeral}
    {text rest : List Char}
    (wellFormed : numeral.WellFormed)
    (stops : Stops Char.isAlphanum rest)
    (noPoint : ∀ character ∈ rest.head?, character ≠ '.')
    (split : numeral.characters ++ rest = skipBlanks text) :
    number text = some (numeral.toFloat, rest) := by
  rw [number, ← split,
    Numeral.read?_characters_append wellFormed stops noPoint]
  rfl

end Token

end LineCalculator
