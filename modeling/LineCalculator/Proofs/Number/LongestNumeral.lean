import LineCalculator.Proofs.Number.NumeralReading

/-!
# Longest numerals

The numeral that is read from the front of a text is the longest one there.
Each of its parts is taken as far as it goes, and no part starts with a
character that could carry on the one before it. So another numeral in front of
the text stops within a part or between two of them, and nothing that was taken
had to be given up for it. There is a numeral in front of a text exactly where
it starts with a digit.
-/

namespace LineCalculator

open Token (Stops)

namespace Numeral

/-- The longest of the numerals in front of a text. -/
structure IsLongestFront (text : List Char) (numeral : Numeral) : Prop where
  wellFormed : numeral.WellFormed
  front : numeral.characters <+: text
  longest : ∀ other : Numeral, other.WellFormed → other.characters <+: text →
    other.characters.length ≤ numeral.characters.length

variable {text rest : List Char} {numeral : Numeral}

/-- Digits in front of a text, and what follows them in a numeral, are taken
when the digits are taken first and then what follows, since that does not start
with a digit. -/
theorem digits_append_isPrefix
    {digits later taken : List Char}
    (all : ∀ digit ∈ digits, digit.isDigit = true)
    (laterStops : Stops Char.isDigit later)
    (front : digits ++ later <+: text)
    (follows : later <+: text.dropWhile Char.isDigit → later <+: taken) :
    digits ++ later <+: text.takeWhile Char.isDigit ++ taken := by
  obtain ⟨tail, rfl⟩ := front
  cases later with
  | nil =>
      rw [List.append_nil, List.takeWhile_append_of_pos all, List.append_assoc]
      exact List.prefix_append digits _
  | cons first later =>
      have stops : Stops Char.isDigit (first :: later ++ tail) := laterStops
      rw [List.append_assoc, Token.dropWhile_append_of_stops all stops] at follows
      rw [List.append_assoc, Token.takeWhile_append_of_stops all stops,
        List.prefix_append_right_inj]
      exact follows (List.prefix_append _ tail)

/-- The exponent that is read goes as far as any exponent in front of the
text. -/
theorem exponent_isPrefix
    {exponent : Option Exponent}
    (wellFormed : ∀ written ∈ exponent, written.WellFormed)
    (front : (exponent.map Exponent.characters).getD [] <+: text) :
    (exponent.map Exponent.characters).getD [] <+:
      (((Exponent.read? text).map Prod.fst).map Exponent.characters).getD [] := by
  cases exponent with
  | none => exact List.nil_prefix
  | some exponent =>
      obtain ⟨tail, rfl⟩ := front
      simp only [Option.map_some, Option.getD_some]
      rw [Exponent.read?_characters_append_digits (wellFormed exponent rfl)]
      exact ⟨tail.takeWhile Char.isDigit, by simp [Exponent.characters]⟩

/-- The fraction and the exponent that are read go as far as any in front of
the text. The mark of an exponent is no point, so no fraction is taken for
it. -/
theorem fraction_isPrefix
    {fraction : Option (List Char)}
    {exponent : Option Exponent}
    (fractionDigits : ∀ digits ∈ fraction, ∀ digit ∈ digits,
      digit.isDigit = true)
    (wellFormed : ∀ written ∈ exponent, written.WellFormed)
    (exponentStops : Stops Char.isDigit
      ((exponent.map Exponent.characters).getD []))
    (front : fractionCharacters fraction ++
      (exponent.map Exponent.characters).getD [] <+: text) :
    fractionCharacters fraction ++ (exponent.map Exponent.characters).getD [] <+:
      fractionCharacters (readFraction text).1 ++
        (((Exponent.read? (readFraction text).2).map Prod.fst).map
          Exponent.characters).getD [] := by
  cases fraction with
  | some digits =>
      obtain ⟨tail, rfl⟩ := front
      simp only [fractionCharacters, List.cons_append, readFraction,
        List.cons_prefix_cons, true_and]
      refine digits_append_isPrefix (fractionDigits digits rfl) exponentStops
        (List.prefix_append _ tail) ?_
      exact exponent_isPrefix wellFormed
  | none =>
      cases exponent with
      | none => exact List.nil_prefix
      | some exponent =>
          have noPoint : text.head? ≠ some '.' := by
            obtain ⟨tail, rfl⟩ := front
            obtain ⟨isMark, -⟩ := wellFormed exponent rfl
            rcases isMark with mark | mark <;>
              simp [fractionCharacters, Exponent.characters, mark]
          rw [readFraction_of_ne noPoint]
          exact exponent_isPrefix wellFormed front

/-- Every numeral in front of a text is in front of the one that is read. -/
theorem isPrefix_of_read?
    {other : Numeral}
    (read : read? text = some (numeral, rest))
    (wellFormed : other.WellFormed)
    (front : other.characters <+: text) :
    other.characters <+: numeral.characters := by
  obtain ⟨whole, fraction, exponent⟩ := other
  obtain ⟨-, wholeDigits, fractionDigits, exponentWellFormed⟩ := wellFormed
  have exponentStops : Stops Char.isDigit
      ((exponent.map Exponent.characters).getD []) := by
    intro character isFirst
    have first := @Exponent.first_of_characters_append exponent []
      exponentWellFormed nofun nofun
    rw [List.append_nil] at first
    exact (first character isFirst).1
  have fractionStops := stops_fractionCharacters_append fraction
    fun _ => exponentStops
  obtain ⟨-, rfl, -⟩ := parts_of_read? read
  simp only [characters, List.append_assoc] at front ⊢
  refine digits_append_isPrefix wholeDigits fractionStops front ?_
  exact fraction_isPrefix fractionDigits exponentWellFormed exponentStops

/-- A numeral is read exactly where the text starts with a digit. -/
theorem isSome_read?_iff :
    (read? text).isSome ↔ ∃ first ∈ text.head?, first.isDigit = true := by
  cases text with
  | nil => simp [read?]
  | cons first text =>
      by_cases digit : first.isDigit = true
      · simp only [read?, List.takeWhile_cons, if_pos digit, List.isEmpty_cons,
          Bool.false_eq_true, if_false]
        split <;> simp [digit]
      · simp [read?, digit]

/-- The characters of a numeral tell the numeral. -/
theorem WellFormed.eq_of_characters_eq
    {other : Numeral}
    (wellFormed : numeral.WellFormed)
    (wellFormed' : other.WellFormed)
    (same : numeral.characters = other.characters) :
    numeral = other := by
  have alone {written : Numeral} (wellFormed : written.WellFormed) :
      read? (written.characters ++ []) = some (written, []) :=
    read?_characters_append wellFormed nofun nofun
  have read := alone wellFormed
  rw [same, alone wellFormed'] at read
  exact (Prod.mk.inj (Option.some.inj read)).1.symm

/-- There is at most one longest numeral in front of a text. -/
theorem IsLongestFront.unique
    {other : Numeral}
    (longest : numeral.IsLongestFront text)
    (longest' : other.IsLongestFront text) :
    numeral = other := by
  have notLonger := longest'.longest numeral longest.wellFormed longest.front
  have notShorter := longest.longest other longest'.wellFormed longest'.front
  have inside := List.prefix_of_prefix_length_le longest.front longest'.front
    notLonger
  exact longest.wellFormed.eq_of_characters_eq longest'.wellFormed
    (inside.eq_of_length_le notShorter)

/-- The numeral that is read is the longest one in front of the text. -/
theorem isLongestFront_of_read?
    (read : read? text = some (numeral, rest)) :
    numeral.IsLongestFront text where
  wellFormed := wellFormed_of_read? read
  front := ⟨rest, characters_append_of_read? read⟩
  longest _ wellFormed front :=
    (isPrefix_of_read? read wellFormed front).length_le

/-- The numeral that is read is the longest one in front of the text, and the
longest one in front of the text is read. -/
theorem read?_eq_some_iff :
    read? text = some (numeral, rest) ↔
      numeral.IsLongestFront text ∧ numeral.characters ++ rest = text := by
  constructor
  · intro read
    exact ⟨isLongestFront_of_read? read, characters_append_of_read? read⟩
  · rintro ⟨longest, split⟩
    obtain ⟨first, isFirst, digit⟩ := longest.wellFormed.exists_first
    have starts : first ∈ text.head? := by
      rw [← split, List.head?_append, isFirst]
      rfl
    obtain ⟨⟨other, otherRest⟩, read⟩ :=
      Option.isSome_iff_exists.mp (isSome_read?_iff.mpr ⟨first, starts, digit⟩)
    obtain rfl := longest.unique (isLongestFront_of_read? read)
    have rests := split.trans (characters_append_of_read? read).symm
    rw [read, List.append_cancel_left rests]

/-- There is a numeral in front of a text exactly where it starts with a
digit. -/
theorem exists_isLongestFront_iff :
    (∃ numeral : Numeral, numeral.IsLongestFront text) ↔
      ∃ first ∈ text.head?, first.isDigit = true := by
  rw [← isSome_read?_iff, Option.isSome_iff_exists]
  constructor
  · rintro ⟨numeral, longest⟩
    obtain ⟨rest, split⟩ := longest.front
    exact ⟨(numeral, rest), read?_eq_some_iff.mpr ⟨longest, split⟩⟩
  · rintro ⟨⟨numeral, rest⟩, read⟩
    exact ⟨numeral, isLongestFront_of_read? read⟩

end Numeral

end LineCalculator
