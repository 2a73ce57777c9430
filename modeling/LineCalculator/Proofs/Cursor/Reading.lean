import LineCalculator.Cursor.Bench
import LineCalculator.Proofs.Cursor.Boundary
import LineCalculator.Proofs.Number.NumeralReading

/-!
# Readings

A cursor that reads stays where it is or passes a token, together with all the
blanks in front of it. It fails only inside a character, so a cursor on a
boundary of characters can be read from and is on a boundary again.
-/

namespace LineCalculator

namespace Cursor

/-- The position is the size of a front of the text: the cursor stands between
two characters or at an end of the text. -/
def OnBoundary (cursor : Cursor) : Prop :=
  ∃ front rest,
    front ++ rest = cursor.text.toList ∧ byteSize front = cursor.position

/-- A token behind the position of a cursor, with all the blanks in front of
it. -/
structure Passage (cursor : Cursor) where
  front : List Char
  blanks : List Char
  token : List Char
  rest : List Char
  split : front ++ (blanks ++ (token ++ rest)) = cursor.text.toList
  position_eq : byteSize front = cursor.position
  blank : ∀ character ∈ blanks, isBlank character = true
  maximal : ∀ character ∈ (token ++ rest).head?, isBlank character = false
  nonempty : token ≠ []

variable {cursor : Cursor}

/-- A cursor is on a boundary exactly when there is a rest of the text. -/
theorem onBoundary_iff :
    cursor.OnBoundary ↔ ∃ text, cursor.rest? = some text := by
  simp only [OnBoundary, rest?, dropBytes?_eq_some_iff]
  exact exists_comm

theorem rest?_eq_none_iff : cursor.rest? = none ↔ ¬ cursor.OnBoundary := by
  rw [onBoundary_iff, ← Option.isSome_iff_exists, Option.not_isSome_iff_eq_none]

theorem onBoundary_start (text : String) : (start text).OnBoundary :=
  ⟨[], text.toList, rfl, rfl⟩

/-- A cursor on a boundary is inside its text. -/
theorem OnBoundary.position_le (onBoundary : cursor.OnBoundary) :
    cursor.position ≤ cursor.text.utf8ByteSize := by
  obtain ⟨text, remains⟩ := onBoundary_iff.mp onBoundary
  exact position_le_of_rest? remains

/-- The cursor behind a token, which has moved over the bytes of the blanks and
of the token. -/
def Passage.after (passage : cursor.Passage) : Cursor :=
  cursor.moved (byteSize passage.blanks + byteSize passage.token)

/-- A passage leads strictly further on. -/
theorem Passage.position_lt (passage : cursor.Passage) :
    cursor.position < passage.after.position := by
  have positive := byteSize_pos passage.nonempty
  simp only [after, Cursor.moved]
  omega

/-- A passage ends on a boundary. -/
theorem Passage.onBoundary_after (passage : cursor.Passage) :
    passage.after.OnBoundary := by
  refine ⟨passage.front ++ (passage.blanks ++ passage.token), passage.rest,
    ?_, ?_⟩
  · simpa [after, Cursor.moved] using passage.split
  · simp only [byteSize_append, passage.position_eq, after, Cursor.moved]

/-- The rest of the text is the passage with what stands behind it. -/
theorem Passage.rest?_eq (passage : cursor.Passage) :
    cursor.rest? =
      some (passage.blanks ++ (passage.token ++ passage.rest)) :=
  dropBytes?_eq_some_iff.mpr
    ⟨passage.front, passage.split, passage.position_eq⟩

/-- The token of a passage is what a reader finds behind the blanks. -/
theorem Passage.split_skipBlanks
    {text : List Char}
    (passage : cursor.Passage)
    (remains : cursor.rest? = some text) :
    passage.token ++ passage.rest = skipBlanks text := by
  obtain rfl := Option.some.inj (passage.rest?_eq.symm.trans remains)
  exact (Token.dropWhile_append_of_stops passage.blank passage.maximal).symm

/-- What a reader finds behind the blanks gives a passage. -/
theorem exists_passage
    {text token rest : List Char}
    (remains : cursor.rest? = some text)
    (nonempty : token ≠ [])
    (split : token ++ rest = skipBlanks text) :
    ∃ passage : cursor.Passage, passage.token = token ∧ passage.rest = rest ∧
      passage.after =
        (cursor.moved (byteSize (text.takeWhile isBlank))).moved
          (byteSize token) := by
  obtain ⟨front, inText, position⟩ := dropBytes?_eq_some_iff.mp remains
  refine ⟨⟨front, text.takeWhile isBlank, token, rest, ?_, position, ?_, ?_,
    nonempty⟩, rfl, rfl, ?_⟩
  · rw [split, skipBlanks, List.takeWhile_append_dropWhile, inText]
  · exact fun character => List.mem_takeWhile_imp
  · rw [split]
    exact Token.stops_dropWhile isBlank text
  · simp only [Passage.after, Cursor.moved, Nat.add_assoc]

/-- An action that looks for a token. -/
def Action.Searches : Action → Prop
  | .number | .identifier | .character _ | .literal _ | .anyOf _ => True
  | .atEnd | .position | .mark | .reset _ => False

/-- The answer of a search that finds no token. -/
inductive Action.Misses : Action → Answer → Prop
  | number : Misses .number (.number none)
  | identifier : Misses .identifier (.word none)
  | character : Misses (.character expected) (.truth false)
  | literal : Misses (.literal word) (.truth false)
  | anyOf : Misses (.anyOf words) (.word none)

/-- The token that a search takes in front of the rest of a text, with its
answer. Numerals and names are taken as long as they are. -/
inductive Action.Takes : Action → List Char → List Char → Answer → Prop
  | number
      (wellFormed : Numeral.WellFormed numeral)
      (longest : Numeral.read? (numeral.characters ++ rest) =
        some (numeral, rest)) :
      Takes .number numeral.characters rest (.number (some numeral.toFloat))
  | identifier
      (isIdentifier : Token.IsIdentifier name.toList)
      (longest : Token.Stops Char.isAlphanum rest) :
      Takes .identifier name.toList rest (.word (some name))
  | character :
      Takes (.character expected) [expected] rest (.truth true)
  | literal :
      Takes (.literal word) word.toList rest (.truth true)
  | anyOf (member : word ∈ words) :
      Takes (.anyOf words) word.toList rest (.word (some word))

/-- No token behind the blanks at the position is one that a search takes. -/
def FindsNothing (cursor : Cursor) (action : Action) : Prop :=
  ∀ (passage : cursor.Passage) (answer : Answer),
    ¬ action.Takes passage.token passage.rest answer

/-- An action that takes a token does not answer with an error. -/
theorem Action.Takes.ne_error
    {action : Action}
    {token rest : List Char}
    {answer : Answer}
    (takes : action.Takes token rest answer)
    (error : Error) :
    answer ≠ .error error := by
  cases takes <;> nofun

/-- A word is taken only from a list that has words. -/
theorem Action.Takes.words_ne_nil
    {words : List String}
    {token rest : List Char}
    {answer : Answer}
    (takes : (Action.anyOf words).Takes token rest answer) :
    words ≠ [] := by
  cases takes with
  | anyOf member => exact List.ne_nil_of_mem member

/-- What an action that reads can come to, with the cursor after it. -/
inductive Reading
    (cursor : Cursor)
    (action : Action) : Answer → Cursor → Prop
  | stuck (inside : ¬ cursor.OnBoundary) :
      Reading cursor action (.error .insideCharacter) cursor
  | missed
      (nothing : cursor.FindsNothing action)
      (misses : action.Misses answer) :
      Reading cursor action answer cursor
  | matched
      (passage : cursor.Passage)
      (takes : action.Takes passage.token passage.rest answer) :
      Reading cursor action answer passage.after
  | looked
      (noSearch : ¬ action.Searches)
      (noError : ∀ error, answer ≠ .error error) :
      Reading cursor action answer cursor

variable {action : Action}

/-- A search through a reader is a reading when the reader takes the tokens of
the search from behind the blanks, and takes one wherever there is one. -/
theorem reading_of_reader
    {reader : Token.Reader α}
    (form : Option α → Answer)
    (misses : action.Misses (form none))
    (takes : ∀ text value rest, reader text = some (value, rest) →
      ∃ token, token ≠ [] ∧ token ++ rest = skipBlanks text ∧
        action.Takes token rest (form (some value)))
    (finds : ∀ text token rest answer, token ≠ [] →
      token ++ rest = skipBlanks text → action.Takes token rest answer →
        reader text ≠ none) :
    cursor.Reading action (Bench.answer form (cursor.read reader).1)
      (cursor.read reader).2 := by
  rcases remains : cursor.rest? with _ | text
  · rw [read_of_none remains]
    exact .stuck (rest?_eq_none_iff.mp remains)
  rcases found : reader text with _ | ⟨value, rest⟩
  · rw [read_of_miss remains found]
    refine .missed (fun passage answer taken => ?_) misses
    exact finds text _ _ answer passage.nonempty
      (passage.split_skipBlanks remains) taken found
  · obtain ⟨token, nonempty, split, taken⟩ := takes text value rest found
    obtain ⟨passage, rfl, rfl, after⟩ := exists_passage remains nonempty split
    rw [read_of_match remains split found, ← after]
    exact .matched passage taken

theorem reading_number (cursor : Cursor) :
    cursor.Reading .number (Bench.answer .number (cursor.read Token.number).1)
      (cursor.read Token.number).2 := by
  refine reading_of_reader .number .number ?_ ?_
  · intro text value rest found
    simp only [Token.number, Option.map_eq_some_iff, Prod.mk.injEq] at found
    obtain ⟨⟨numeral, rest⟩, found, rfl, rfl⟩ := found
    have split := Numeral.characters_append_of_read? found
    have nonempty : numeral.characters ≠ [] := by
      simp [Numeral.characters, Numeral.whole_ne_nil_of_read? found]
    have wellFormed := Numeral.wellFormed_of_read? found
    rw [← split] at found
    exact ⟨numeral.characters, nonempty, split, .number wellFormed found⟩
  · intro text token rest answer _ split taken
    cases taken with
    | number wellFormed longest =>
        rw [Token.number, ← split, longest]
        exact Option.some_ne_none _

theorem reading_identifier (cursor : Cursor) :
    cursor.Reading .identifier
      (Bench.answer .word (cursor.read Token.identifier).1)
      (cursor.read Token.identifier).2 := by
  refine reading_of_reader .word .identifier ?_ ?_
  · intro text name rest found
    obtain ⟨isIdentifier, stops, split⟩ :=
      Token.identifier_eq_some_iff.mp found
    exact ⟨name.toList, isIdentifier.ne_nil, split,
      .identifier isIdentifier stops⟩
  · intro text token rest answer _ split taken
    cases taken with
    | identifier isIdentifier longest =>
        rw [Token.identifier_eq_some_iff.mpr ⟨isIdentifier, longest, split⟩]
        exact Option.some_ne_none _

theorem reading_character (expected : Char) (cursor : Cursor) :
    cursor.Reading (.character expected)
      (Bench.answer (.truth ·.isSome) (cursor.read (Token.character expected)).1)
      (cursor.read (Token.character expected)).2 := by
  refine reading_of_reader (.truth ·.isSome) .character ?_ ?_
  · intro text _ rest found
    have split := Token.character_eq_some_iff.mp found
    exact ⟨[expected], List.cons_ne_nil _ _, split, .character⟩
  · intro text token rest answer _ split taken
    cases taken with
    | character =>
        rw [Token.character_eq_some_iff.mpr split]
        exact Option.some_ne_none _

/-- Matching a word is a reading, also when the word is empty and is missed. -/
theorem reading_literal (word : String) (cursor : Cursor) :
    cursor.Reading (.literal word)
      (Bench.answer (.truth ·.isSome) (cursor.read (Token.literal word)).1)
      (cursor.read (Token.literal word)).2 := by
  refine reading_of_reader (.truth ·.isSome) .literal ?_ ?_
  · intro text _ rest found
    obtain ⟨nonempty, split⟩ := Token.literal_eq_some_iff.mp found
    exact ⟨word.toList, nonempty, split, .literal⟩
  · intro text token rest answer nonempty split taken
    cases taken with
    | literal =>
        rw [Token.literal_eq_some_iff.mpr ⟨nonempty, split⟩]
        exact Option.some_ne_none _

/-- Matching any of several words is a reading. No words at all are missed
without a look at the text. -/
theorem reading_anyOf (words : List String) (cursor : Cursor) :
    cursor.Reading (.anyOf words)
      (Bench.answer .word (cursor.readAny words).1)
      (cursor.readAny words).2 := by
  rw [readAny]
  split
  · next noWords =>
      refine .missed ?_ .anyOf
      exact fun passage answer taken =>
        taken.words_ne_nil (List.isEmpty_iff.mp noWords)
  · refine reading_of_reader .word .anyOf ?_ ?_
    · intro text word rest found
      have member := Token.mem_of_anyOf found
      obtain ⟨nonempty, split⟩ :=
        Token.literal_eq_some_iff.mp (Token.literal_of_anyOf found)
      exact ⟨word.toList, nonempty, split, .anyOf member⟩
    · intro text token rest answer nonempty split taken
      cases taken with
      | anyOf member =>
          exact Token.anyOf_ne_none member
            (Token.literal_eq_some_iff.mpr ⟨nonempty, split⟩)

/-- Asking for the end of the text is a reading that never moves. -/
theorem reading_atEnd (cursor : Cursor) :
    cursor.Reading .atEnd (Bench.answer .truth cursor.atEnd) cursor := by
  rw [Cursor.atEnd]
  rcases remains : cursor.rest? with _ | text
  · exact .stuck (rest?_eq_none_iff.mp remains)
  · exact .looked id nofun

/-- Every answer of an action that reads comes from a reading. -/
theorem reading_of_readAnswer
    {answer : Answer}
    {moved : Cursor}
    (read : Bench.readAnswer cursor action = some (answer, moved)) :
    cursor.Reading action answer moved := by
  cases action with
  | number => cases read; exact reading_number cursor
  | identifier => cases read; exact reading_identifier cursor
  | character expected => cases read; exact reading_character expected cursor
  | literal word => cases read; exact reading_literal word cursor
  | anyOf words => cases read; exact reading_anyOf words cursor
  | atEnd => cases read; exact reading_atEnd cursor
  | position => cases read; exact .looked id nofun
  | mark => exact nomatch read
  | reset slot => exact nomatch read

namespace Reading

variable {answer : Answer} {moved : Cursor}

/-- A reading keeps the text of the cursor. -/
theorem text_eq (reading : cursor.Reading action answer moved) :
    moved.text = cursor.text := by
  cases reading <;> rfl

/-- A reading leaves a cursor in its text. -/
theorem position_le
    (reading : cursor.Reading action answer moved)
    (inText : cursor.position ≤ cursor.text.utf8ByteSize) :
    moved.position ≤ moved.text.utf8ByteSize := by
  cases reading with
  | matched passage => exact passage.onBoundary_after.position_le
  | _ => exact inText

/-- A reading does not lead inside a character. -/
theorem onBoundary
    (reading : cursor.Reading action answer moved)
    (onBoundary : cursor.OnBoundary) :
    moved.OnBoundary := by
  cases reading with
  | matched passage => exact passage.onBoundary_after
  | _ => exact onBoundary

/-- Only a cursor inside a character cannot be read from, and it stays there. -/
theorem of_error
    {error : Error}
    (reading : cursor.Reading action (.error error) moved) :
    ¬ cursor.OnBoundary ∧ moved = cursor := by
  cases reading with
  | stuck inside => exact ⟨inside, rfl⟩
  | missed nothing misses => exact nomatch misses
  | matched passage takes => exact absurd rfl (takes.ne_error error)
  | looked noSearch noError => exact absurd rfl (noError error)

end Reading

end Cursor

end LineCalculator
