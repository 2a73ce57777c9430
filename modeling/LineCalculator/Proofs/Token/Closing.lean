import LineCalculator.Proofs.Token.Chunk

/-!
# Tokens in front of a closing parenthesis

A closing parenthesis is a token by itself. Every reader of another token finds
at the end of a text what it finds there when a parenthesis closes the text.
-/

namespace LineCalculator

namespace Token

/-- A reader that finds in a text what it finds when a closing parenthesis and
whatever else stand behind the text. -/
def IgnoresClose (reader : Reader α) : Prop :=
  ∀ text after,
    reader (text ++ ')' :: after) = behind (')' :: after) (reader text)

/-- A closing parenthesis behind a text stays where blanks are skipped. -/
theorem skipBlanks_append_close (text after : List Char) :
    skipBlanks (text ++ ')' :: after) = skipBlanks text ++ ')' :: after := by
  apply dropWhile_before_stop
  rintro _ ⟨⟩
  decide

/-- Behind a blank text the parenthesis comes next. -/
theorem first?_append_close (text after : List Char) :
    first? (text ++ ')' :: after) = (first? text).or (some ')') := by
  rw [first?, first?, skipBlanks_append_close]
  cases skipBlanks text <;> rfl

/-- A closing parenthesis behind a text adds no other first character. -/
theorem first?_append_close_ne
    {text : List Char}
    {expected : Char}
    (different : first? text ≠ some expected)
    (notClose : expected ≠ ')')
    (after : List Char) :
    first? (text ++ ')' :: after) ≠ some expected := by
  rw [first?_append_close]
  rcases start : first? text with _ | first
  · simpa using notClose.symm
  · simpa [start] using different

/-- A closing parenthesis stops the characters of a word. -/
theorem stops_append_close
    {text : List Char}
    (stops : Stops Char.isAlphanum text)
    (after : List Char) :
    Stops Char.isAlphanum (text ++ ')' :: after) := by
  cases text with
  | nil =>
      rintro _ ⟨⟩
      decide
  | cons first text => exact stops

/-- A number is read in front of a closing parenthesis as at the end. -/
theorem ignoresClose_number : IgnoresClose number := by
  intro text after
  have ends : EndsNumeral (')' :: after) := by
    rintro _ ⟨⟩
    decide
  simp only [number, skipBlanks_append_close, Numeral.read?_append ends]
  rw [behind, behind, Option.map_map, Option.map_map]
  rfl

theorem ignoresClose_identifier : IgnoresClose identifier := by
  intro text after
  have stops : Stops Char.isAlphanum (')' :: after) := by
    rintro _ ⟨⟩
    decide
  simp only [identifier, skipBlanks_append_close]
  cases skipBlanks text with
  | nil => rfl
  | cons first rest =>
      simp only [List.cons_append, takeWhile_before_stop stops,
        dropWhile_before_stop stops]
      split <;> rfl

theorem ignoresClose_character
    {expected : Char}
    (notClose : expected ≠ ')') :
    IgnoresClose (character expected) := by
  intro text after
  simp only [character, skipBlanks_append_close]
  cases skipBlanks text with
  | nil => exact if_neg notClose.symm
  | cons first rest =>
      simp only [List.cons_append]
      split <;> rfl

theorem ignoresClose_literal
    {word : String}
    (noClose : ')' ∉ word.toList) :
    IgnoresClose (literal word) := by
  intro text after
  have apart : ∀ first ∈ (')' :: after).head?, first ∉ word.toList := by
    rintro _ ⟨⟩
    exact noClose
  simp only [literal, skipBlanks_append_close,
    isPrefixOf?_append_of_apart apart]
  split
  · rfl
  · rw [behind, Option.map_map, Option.map_map]
    rfl

/-- Words without closing parentheses are found in front of one as at the
end. -/
theorem ignoresClose_anyOf
    {spelling : α → String}
    {values : List α}
    (noClose : ∀ value ∈ values, ')' ∉ (spelling value).toList) :
    IgnoresClose (anyOf spelling values) := by
  intro text after
  induction values with
  | nil => rfl
  | cons value values valuesHypothesis =>
      have here := ignoresClose_literal (noClose value List.mem_cons_self)
      have later := valuesHypothesis fun other member =>
        noClose other (List.mem_cons_of_mem value member)
      simp only [anyOf, here text after, later]
      rcases literal (spelling value) text with _ | ⟨_, rest⟩ <;> rfl

end Token

end LineCalculator
