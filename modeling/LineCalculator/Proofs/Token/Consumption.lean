import LineCalculator.Token
import Mathlib.Data.List.Basic

/-!
# What readers take

A reader takes a nonempty front of the text and gives back what follows it, so
the text gets shorter and stays a suffix of what it was.
-/

namespace LineCalculator

namespace ExponentSign

/-- The sign that is read and the rest make up the text. -/
theorem characters_append_read (text : List Char) :
    (read text).1.characters ++ (read text).2 = text := by
  unfold read
  split <;> rfl

end ExponentSign

namespace Numeral

/-- A fraction and the rest make up the text. -/
theorem fractionCharacters_append_readFraction (text : List Char) :
    fractionCharacters (readFraction text).1 ++ (readFraction text).2 = text := by
  unfold readFraction
  split
  · simp [fractionCharacters, List.takeWhile_append_dropWhile]
  · rfl

/-- An exponent is a mark, what is read of a sign and all digits behind it, of
which there is one at least. -/
theorem Exponent.parts_of_read?
    {text rest : List Char}
    {exponent : Exponent}
    (read : read? text = some (exponent, rest)) :
    ∃ mark tail, text = mark :: tail ∧ (mark = 'e' ∨ mark = 'E') ∧
      (ExponentSign.read tail).2.takeWhile Char.isDigit ≠ [] ∧
      exponent = ⟨mark, (ExponentSign.read tail).1,
        (ExponentSign.read tail).2.takeWhile Char.isDigit⟩ ∧
      rest = (ExponentSign.read tail).2.dropWhile Char.isDigit := by
  cases text with
  | nil => simp [read?] at read
  | cons mark tail =>
      simp only [read?] at read
      split at read
      · next isMark =>
          split at read
          · simp at read
          · next nonempty =>
              obtain ⟨same, left⟩ := Prod.mk.inj (Option.some.inj read)
              exact ⟨mark, tail, rfl, isMark, by simpa using nonempty,
                same.symm, left.symm⟩
      · simp at read

/-- A numeral is all the digits in front, of which there is one at least, and
the fraction and the exponent that are read behind them. -/
theorem parts_of_read?
    {text rest : List Char}
    {numeral : Numeral}
    (read : read? text = some (numeral, rest)) :
    text.takeWhile Char.isDigit ≠ [] ∧
      numeral =
        ⟨text.takeWhile Char.isDigit,
          (readFraction (text.dropWhile Char.isDigit)).1,
          (Exponent.read? (readFraction (text.dropWhile Char.isDigit)).2).map
            Prod.fst⟩ ∧
      rest =
        ((Exponent.read? (readFraction (text.dropWhile Char.isDigit)).2).map
          Prod.snd).getD (readFraction (text.dropWhile Char.isDigit)).2 := by
  simp only [read?] at read
  split at read
  · simp at read
  · next nonempty =>
      refine ⟨by simpa using nonempty, ?_⟩
      split at read
      · next found =>
          obtain ⟨rfl, rfl⟩ := Prod.mk.inj (Option.some.inj read)
          simp [found]
      · next missed =>
          obtain ⟨rfl, rfl⟩ := Prod.mk.inj (Option.some.inj read)
          simp [missed]

/-- An exponent and the rest make up the text. -/
theorem Exponent.characters_append_of_read?
    {text rest : List Char}
    {exponent : Exponent}
    (read : read? text = some (exponent, rest)) :
    exponent.characters ++ rest = text := by
  obtain ⟨mark, tail, rfl, -, -, rfl, rfl⟩ := parts_of_read? read
  simp [characters, List.takeWhile_append_dropWhile,
    ExponentSign.characters_append_read]

/-- A numeral and the rest make up the text. -/
theorem characters_append_of_read?
    {text rest : List Char}
    {numeral : Numeral}
    (read : read? text = some (numeral, rest)) :
    numeral.characters ++ rest = text := by
  have whole := List.takeWhile_append_dropWhile (p := Char.isDigit) (l := text)
  have fraction := fractionCharacters_append_readFraction
    (text.dropWhile Char.isDigit)
  obtain ⟨-, rfl, rfl⟩ := parts_of_read? read
  simp only [characters, List.append_assoc]
  rcases found : Exponent.read? (readFraction (text.dropWhile Char.isDigit)).2
    with _ | ⟨exponent, after⟩
  · simp only [Option.map_none, Option.getD_none, List.nil_append]
    rw [fraction, whole]
  · simp only [Option.map_some, Option.getD_some]
    rw [Exponent.characters_append_of_read? found, fraction, whole]

/-- The numeral that is read starts with a digit. -/
theorem whole_ne_nil_of_read?
    {text rest : List Char}
    {numeral : Numeral}
    (read : read? text = some (numeral, rest)) :
    numeral.whole ≠ [] := by
  obtain ⟨nonempty, rfl, -⟩ := parts_of_read? read
  exact nonempty

end Numeral

namespace Token

/-- What a reader leaves is a proper suffix of the text. -/
structure Leaves (text rest : List Char) : Prop where
  suffix : rest <:+ text
  shorter : rest.length < text.length

/-- A reader that takes at least one character from the front of every text in
which it finds its token. -/
def Consumes (reader : Reader α) : Prop :=
  ∀ text value rest, reader text = some (value, rest) → Leaves text rest

/-- Leaving what follows a nonempty front of the text behind its blanks. -/
theorem Leaves.of_append
    {text front rest : List Char}
    (nonempty : front ≠ [])
    (split : front ++ rest = skipBlanks text) :
    Leaves text rest := by
  have suffix := skipBlanks_suffix text
  rw [← split] at suffix
  refine ⟨(List.suffix_append front rest).trans suffix, ?_⟩
  have bound := suffix.length_le
  have positive := List.length_pos_iff.mpr nonempty
  simp only [List.length_append] at bound
  omega

/-- A number that is read is taken from the front of the text. -/
theorem consumes_number : Consumes number := by
  intro text value rest read
  simp only [number, Option.map_eq_some_iff] at read
  obtain ⟨⟨numeral, after⟩, found, equal⟩ := read
  simp only [Prod.mk.injEq] at equal
  obtain ⟨rfl, rfl⟩ := equal
  have nonempty : numeral.characters ≠ [] := by
    simp [Numeral.characters, Numeral.whole_ne_nil_of_read? found]
  exact .of_append nonempty (Numeral.characters_append_of_read? found)

theorem consumes_identifier : Consumes identifier := by
  intro text value rest read
  simp only [identifier] at read
  split at read
  · simp at read
  · next first after start =>
      split at read
      · simp only [Option.some.injEq, Prod.mk.injEq] at read
        obtain ⟨rfl, rfl⟩ := read
        have nonempty : first :: after.takeWhile Char.isAlphanum ≠ [] := by
          simp
        refine .of_append nonempty ?_
        rw [start, List.cons_append, List.takeWhile_append_dropWhile]
      · simp at read

/-- A character is found exactly when the text shows it behind its blanks. -/
theorem character_eq_some_iff
    {expected : Char}
    {text rest : List Char} :
    character expected text = some ((), rest) ↔
      expected :: rest = skipBlanks text := by
  simp only [character]
  split
  · next nothing => simp [nothing]
  · next first after start =>
      rw [start]
      by_cases same : first = expected
      · simp [same, eq_comm]
      · have different : expected ≠ first := fun equal => same equal.symm
        simp [same, different]

theorem consumes_character (expected : Char) : Consumes (character expected) := by
  intro text _ rest read
  exact .of_append (List.cons_ne_nil expected []) (character_eq_some_iff.mp read)

/-- A word is found exactly where it stands behind the blanks. -/
theorem literal_eq_some_iff
    {word : String}
    {text rest : List Char} :
    literal word text = some ((), rest) ↔
      word.toList ≠ [] ∧ word.toList ++ rest = skipBlanks text := by
  simp only [literal]
  split
  · next empty => simp_all
  · next nonempty =>
      simp only [Option.map_eq_some_iff, Prod.mk.injEq, true_and,
        exists_eq_right]
      rw [List.isPrefixOf?_eq_some_iff_append_eq]
      simp_all

/-- A word that is found is taken from the front of the text, so it was not
empty. -/
theorem consumes_literal (word : String) : Consumes (literal word) := by
  intro text value rest read
  obtain ⟨nonempty, split⟩ := literal_eq_some_iff.mp read
  exact .of_append nonempty split

/-- The value whose spelling is read is one of the values, and its spelling
alone is read in the same way. -/
theorem mem_and_literal_of_anyOf
    {spelling : α → String}
    {values : List α}
    {text rest : List Char}
    {value : α}
    (read : anyOf spelling values text = some (value, rest)) :
    value ∈ values ∧ literal (spelling value) text = some ((), rest) := by
  induction values with
  | nil => simp [anyOf] at read
  | cons first values valuesHypothesis =>
      simp only [anyOf] at read
      split at read
      · next found =>
          simp only [Option.some.injEq, Prod.mk.injEq] at read
          obtain ⟨rfl, rfl⟩ := read
          exact ⟨List.mem_cons_self, found⟩
      · obtain ⟨member, found⟩ := valuesHypothesis read
        exact ⟨List.mem_cons_of_mem first member, found⟩

theorem mem_of_anyOf
    {spelling : α → String}
    {values : List α}
    {text rest : List Char}
    {value : α}
    (read : anyOf spelling values text = some (value, rest)) :
    value ∈ values :=
  (mem_and_literal_of_anyOf read).1

theorem literal_of_anyOf
    {spelling : α → String}
    {values : List α}
    {text rest : List Char}
    {value : α}
    (read : anyOf spelling values text = some (value, rest)) :
    literal (spelling value) text = some ((), rest) :=
  (mem_and_literal_of_anyOf read).2

theorem consumes_anyOf
    (spelling : α → String)
    (values : List α) :
    Consumes (anyOf spelling values) :=
  fun text value rest read =>
    consumes_literal (spelling value) text () rest (literal_of_anyOf read)

end Token

end LineCalculator
