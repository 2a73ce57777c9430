import LineCalculator.Proofs.Cursor.Reading
import LineCalculator.Proofs.Cursor.Slices
import LineCalculator.Proofs.Number.LongestNumeral
import LineCalculator.Proofs.Number.NumeralSign

/-!
# Reading numbers

Wherever a cursor stands between characters, it reads a number exactly if the
first character behind the blanks is a digit, and then moves over the longest
numeral there. The length of that numeral is counted in bytes, and no slice that
is cut for it is out of bounds.
-/

namespace LineCalculator

namespace Cursor

variable {cursor : Cursor} {text : List Char} {numeral : Numeral}

/-- The longest numeral behind the blanks is counted and read, and the cursor
moves behind it. -/
theorem runs_of_isLongestFront
    (remains : cursor.rest? = some text)
    (longest : numeral.IsLongestFront (skipBlanks text)) :
    let behind := cursor.moved (byteSize (text.takeWhile isBlank))
    let size := byteSize numeral.characters
    Slicing.numeralLength.run behind = (.ok size, behind) ∧
      Slicing.readNumber.run cursor =
        (.ok (some numeral.toFloat), behind.moved size) := by
  intro behind size
  obtain ⟨rest, split⟩ := longest.front
  have read : Numeral.read? (skipBlanks text) = some (numeral, rest) :=
    Numeral.read?_eq_some_iff.mpr ⟨longest, split⟩
  have found : Token.number text = some (numeral.toFloat, rest) := by
    rw [Token.number, read, Option.map_some]
  constructor
  · rw [Slicing.run_numeralLength (rest?_behindBlanks remains), read]
    rfl
  · rw [Slicing.run_readNumber]
    exact read_of_match remains split found

/-- Where no digit is behind the blanks, no numeral is counted and the cursor
stays where it is. -/
theorem runs_of_not_digit
    (remains : cursor.rest? = some text)
    (noDigit : ¬ ∃ first ∈ Token.first? text, first.isDigit = true) :
    let behind := cursor.moved (byteSize (text.takeWhile isBlank))
    Slicing.numeralLength.run behind = (.ok 0, behind) ∧
      Slicing.readNumber.run cursor = (.ok none, cursor) := by
  intro behind
  have missed : Numeral.read? (skipBlanks text) = none := by
    rw [← Option.not_isSome_iff_eq_none, Numeral.isSome_read?_iff]
    exact noDigit
  have noNumber : Token.number text = none := by
    rw [Token.number, missed, Option.map_none]
  constructor
  · rw [Slicing.run_numeralLength (rest?_behindBlanks remains), missed]
    rfl
  · rw [Slicing.run_readNumber]
    exact read_of_miss remains noNumber

/-- A cursor between two characters reads a number exactly if the first
character behind the blanks is a digit. It then passes the blanks and the one
longest numeral behind them, and gives the number that this numeral denotes,
which has a clear sign bit. Otherwise it stays where it is. The length of the
numeral is counted in bytes, and neither counting it nor reading it cuts a slice
out of bounds. -/
theorem numbers_are_read_by_longest_match (onBoundary : cursor.OnBoundary) :
    ∃ text, cursor.rest? = some text ∧
      let behind := cursor.moved (byteSize (text.takeWhile isBlank))
      let startsWithDigit := ∃ first ∈ Token.first? text, first.isDigit = true
      cursor.read Token.number = Slicing.readNumber.run cursor ∧
      ((∃ value after,
          Slicing.readNumber.run cursor = (.ok (some value), after)) ↔
        startsWithDigit) ∧
      (startsWithDigit → ∃ numeral : Numeral,
        (∀ other : Numeral,
          other.IsLongestFront (skipBlanks text) ↔ other = numeral) ∧
        let size := byteSize numeral.characters
        Slicing.numeralLength.run behind = (.ok size, behind) ∧
        Slicing.readNumber.run cursor =
          (.ok (some numeral.toFloat), behind.moved size) ∧
        numeral.toFloat.isNaN = false ∧
        Number.signBit numeral.toFloat = false) ∧
      (¬ startsWithDigit →
        Slicing.numeralLength.run behind = (.ok 0, behind) ∧
        Slicing.readNumber.run cursor = (.ok none, cursor)) := by
  obtain ⟨text, remains⟩ := onBoundary_iff.mp onBoundary
  refine ⟨text, remains, ?_⟩
  intro behind startsWithDigit
  refine ⟨(Slicing.run_readNumber cursor).symm, ?_⟩
  by_cases digit : startsWithDigit
  · obtain ⟨numeral, longest⟩ := Numeral.exists_isLongestFront_iff.mpr digit
    have runs := runs_of_isLongestFront remains longest
    have longest_iff (other : Numeral) :
        other.IsLongestFront (skipBlanks text) ↔ other = numeral :=
      ⟨fun longest' => longest'.unique longest, fun same => same ▸ longest⟩
    refine ⟨by simp [runs.2, digit], fun _ => ?_,
      fun noDigit => absurd digit noDigit⟩
    exact ⟨numeral, longest_iff, runs.1, runs.2, numeral.toFloat_unsigned⟩
  · have runs := runs_of_not_digit remains digit
    exact ⟨by simp [runs.2, digit], fun isDigit => absurd isDigit digit,
      fun _ => runs⟩

/-- Behind the letter of two bytes and the blank of two bytes, the numeral `7.`
is read. The sign of an exponent follows it, but no digit of one. -/
theorem numbers_are_read_by_longest_match_before_open_exponent :
    let text := "ä\u00a07.e+ä"
    let cursor : Cursor := ⟨text, 2⟩
    let seven : Numeral := ⟨['7'], some [], none⟩
    cursor.OnBoundary ∧
      cursor.rest? = some ['\u00a0', '7', '.', 'e', '+', 'ä'] ∧
      seven.IsLongestFront ['7', '.', 'e', '+', 'ä'] ∧
      cursor.read Token.number = (.ok (some seven.toFloat), ⟨text, 6⟩) ∧
      Slicing.readNumber.run cursor = (.ok (some seven.toFloat), ⟨text, 6⟩) := by
  intro text cursor seven
  have remains : cursor.rest? = some ['\u00a0', '7', '.', 'e', '+', 'ä'] := by
    decide +kernel
  have onBoundary : cursor.OnBoundary := onBoundary_iff.mpr ⟨_, remains⟩
  obtain ⟨_, remains', slices, -, reads, -⟩ :=
    numbers_are_read_by_longest_match onBoundary
  obtain rfl := Option.some.inj (remains.symm.trans remains')
  obtain ⟨numeral, longest_iff, -, run, -⟩ := reads ⟨'7', rfl, rfl⟩
  have read : Numeral.read? ['7', '.', 'e', '+', 'ä'] =
      some (seven, ['e', '+', 'ä']) := rfl
  have longest := Numeral.isLongestFront_of_read? read
  obtain rfl := (longest_iff seven).mp longest
  exact ⟨onBoundary, remains, longest, slices.trans run, run⟩

end Cursor

end LineCalculator
