import LineCalculator.Proofs.Text.Runs
import LineCalculator.Proofs.Token.KnownName

/-!
# Whole words

An identifier is a word of the text when no letter or digit stands directly in
front of it or behind it. A bound name is read as soon as it is found in front,
so it may be a mere part of a word; one that is a whole word is read in every
environment that binds it.
-/

namespace LineCalculator

namespace Token

/-- A spelling with a visible character in front and neither a letter nor a
digit at either end. -/
structure IsSymbol (spelling : List Char) : Prop where
  visible : Visible spelling
  first : ∃ mark ∈ spelling.head?, mark.isAlphanum = false
  last : ∃ mark ∈ spelling.getLast?, mark.isAlphanum = false

/-- A mark that is no blank, letter or digit is a symbol. -/
theorem isSymbol_singleton
    {mark : Char}
    (notBlank : isBlank mark = false)
    (notAlphanumeric : mark.isAlphanum = false) :
    IsSymbol [mark] :=
  ⟨⟨mark, rfl, notBlank⟩, ⟨mark, rfl, notAlphanumeric⟩,
    ⟨mark, rfl, notAlphanumeric⟩⟩

theorem isSymbol_step (step : Step) : IsSymbol step.symbol.toList := by
  cases step <;>
    exact ⟨⟨_, rfl, by decide⟩, ⟨_, rfl, by decide⟩, ⟨_, rfl, by decide⟩⟩

theorem isSymbol_operator (operator : Operator) :
    IsSymbol operator.symbol.toList := by
  cases operator <;> exact isSymbol_singleton (by decide) (by decide)

theorem isSymbol_compound (operator : Operator) :
    IsSymbol operator.compoundSymbol.toList := by
  cases operator <;>
    exact ⟨⟨_, rfl, by decide⟩, ⟨_, rfl, by decide⟩, ⟨_, rfl, by decide⟩⟩

/-- The rest of a text behind a front that does not end in a letter or digit. -/
def StartsWord (text rest : List Char) : Prop :=
  ∃ front, front ++ rest = text ∧
    ∀ last ∈ front.getLast?, last.isAlphanum = false

variable {text rest after : List Char}

theorem startsWord_self (text : List Char) : StartsWord text text :=
  ⟨[], rfl, by simp⟩

theorem StartsWord.suffix
    (startsWord : StartsWord text rest) :
    rest <:+ text := by
  obtain ⟨front, split, -⟩ := startsWord
  exact ⟨front, split⟩

/-- Behind a symbol stands the start of a word. -/
theorem IsSymbol.startsWord
    {spelling : List Char}
    (symbol : IsSymbol spelling)
    (suffix : rest <:+ text)
    (split : spelling ++ after = skipBlanks rest) :
    StartsWord text after := by
  obtain ⟨mark, isLast, notAlphanumeric⟩ := symbol.last
  obtain ⟨front, behind⟩ := (skipBlanks_suffix rest).trans suffix
  refine ⟨front ++ spelling, ?_, ?_⟩
  · rw [List.append_assoc, split, behind]
  · intro last isLast'
    have nonempty : spelling ≠ [] := by
      rintro rfl
      simp at isLast
    rw [List.getLast?_append_of_ne_nil _ nonempty] at isLast'
    exact Option.mem_unique isLast isLast' ▸ notAlphanumeric

/-- A word starts behind a written symbol. -/
theorem IsSymbol.startsWord_of_written
    {spelling word : List Char}
    (symbol : IsSymbol spelling)
    (written : Written spelling word)
    (suffix : word ++ rest <:+ text) :
    StartsWord text rest :=
  symbol.startsWord suffix (written.skipBlanks_append symbol.visible rest).symm

/-- A word starts behind a mark that was read. -/
theorem startsWord_of_character
    {expected : Char}
    (suffix : rest <:+ text)
    (read : character expected rest = some ((), after))
    (notBlank : isBlank expected = false)
    (notAlphanumeric : expected.isAlphanum = false) :
    StartsWord text after :=
  (isSymbol_singleton notBlank notAlphanumeric).startsWord suffix
    (character_eq_some_iff.mp read)

/-- A written symbol does not carry on what stands in front of it. -/
theorem IsSymbol.stops_of_written
    {spelling word : List Char}
    (symbol : IsSymbol spelling)
    (written : Written spelling word)
    (rest : List Char) :
    Stops Char.isAlphanum (word ++ rest) :=
  written.stops symbol.visible symbol.first rest

/-- Of two parts with a symbol between them, the first one is not carried on and
a word starts where the second one starts. -/
theorem IsSymbol.divides
    {spelling leftWord symbolWord rightWord : List Char}
    (symbol : IsSymbol spelling)
    (written : Written spelling symbolWord)
    (startsWord :
      StartsWord text (leftWord ++ (symbolWord ++ rightWord) ++ rest)) :
    StartsWord text (leftWord ++ (symbolWord ++ (rightWord ++ rest))) ∧
      Stops Char.isAlphanum (symbolWord ++ (rightWord ++ rest)) ∧
      StartsWord text (rightWord ++ rest) := by
  rw [List.append_assoc, List.append_assoc] at startsWord
  have suffix : symbolWord ++ (rightWord ++ rest) <:+ text :=
    (List.suffix_append leftWord _).trans startsWord.suffix
  exact ⟨startsWord, symbol.stops_of_written written _,
    symbol.startsWord_of_written written suffix⟩

/-- A word may start behind blanks. -/
theorem StartsWord.behindBlanks
    (startsWord : StartsWord text rest) :
    StartsWord text (skipBlanks rest) := by
  obtain ⟨front, split, ends⟩ := startsWord
  refine ⟨front ++ rest.takeWhile isBlank, ?_, ?_⟩
  · rw [List.append_assoc, skipBlanks, List.takeWhile_append_dropWhile, split]
  · intro last isLast
    rcases blanks : rest.takeWhile isBlank with _ | ⟨first, others⟩
    · exact ends last (by simpa [blanks] using isLast)
    · rw [List.getLast?_append_of_ne_nil _ (by simp [blanks])] at isLast
      have blank := List.mem_takeWhile_imp (List.mem_of_getLast? isLast)
      by_contra alphanumeric
      have notBlank :=
        isBlank_eq_false_of_isAlphanum (by simpa using alphanumeric)
      simp [notBlank] at blank

/-- An identifier at the start of a word that does not go on behind it is a word
of the text. -/
theorem StartsWord.mem_words
    {name : String}
    (startsWord : StartsWord text rest)
    (isIdentifier : IsIdentifier name.toList)
    (stops : Stops Char.isAlphanum after)
    (split : name.toList ++ after = skipBlanks rest) :
    name ∈ words text := by
  obtain ⟨front, whole, ends⟩ := startsWord.behindBlanks
  have isRun : name.toList ∈ runs Char.isAlphanum text := by
    rw [← whole, ← split, runs_append_of_getLast? ends,
      runs_append_of_stops (fun _ => isIdentifier.isAlphanum)
        isIdentifier.ne_nil stops]
    simp
  exact List.mem_map.mpr ⟨name.toList,
    List.mem_filter.mpr ⟨isRun, decide_eq_true isIdentifier⟩,
    String.ofList_toList⟩

end Token

end LineCalculator
