import LineCalculator.Proofs.Number.NumeralReading
import LineCalculator.Proofs.Text.Runs

/-!
# Readers and chunks

A reader of a token without blanks looks at nothing behind the first chunk of
its text: with a blank after a chunk it finds what it would find if the chunk
were all of the text. So readers find the same in two texts with the same
chunks, and what remains has the same chunks again.
-/

namespace LineCalculator

/-- A text without blanks. -/
def Solid (text : List Char) : Prop :=
  ∀ character ∈ text, isBlank character = false

instance : DecidablePred Solid := fun text =>
  decidable_of_iff (text.all isInk = true) (by simp [Solid])

/-- A text without blanks has only ink. -/
theorem Solid.isInk
    {text : List Char}
    (solid : Solid text) :
    ∀ character ∈ text, isInk character = true :=
  fun character member => isInk_eq_true.mpr (solid character member)

theorem Solid.of_suffix
    {text rest : List Char}
    (solid : Solid text)
    (suffix : rest <:+ text) :
    Solid rest :=
  fun character member => solid character (suffix.mem member)

/-- Blanks are skipped once. -/
@[simp] theorem skipBlanks_skipBlanks (text : List Char) :
    skipBlanks (skipBlanks text) = skipBlanks text := by
  have stops := Token.stops_dropWhile isBlank text
  rw [← skipBlanks] at stops
  rcases start : skipBlanks text with _ | ⟨first, rest⟩
  · rfl
  · exact skipBlanks_cons_of_not_isBlank rest (stops first (by rw [start]; rfl))

namespace Token

/-- A text that is empty or starts with a blank. -/
abbrev Breaks (text : List Char) : Prop :=
  Stops isInk text

/-- A text that breaks does not carry on characters that are not blank. -/
theorem Breaks.stops
    {text : List Char}
    (breaks : Breaks text)
    {kind : Char → Bool}
    (notBlank : ∀ character, kind character = true → isBlank character = false) :
    Stops kind text := by
  intro first isFirst
  by_contra isKind
  have blank := breaks first isFirst
  have ink := notBlank first (by simpa using isKind)
  simp [ink] at blank

/-- A text that breaks off does not start with ink. -/
theorem Breaks.first_ne
    {text : List Char}
    (breaks : Breaks text)
    {character : Char}
    (notBlank : isBlank character = false) :
    ∀ first ∈ text.head?, first ≠ character := by
  rintro first isFirst rfl
  have blank := breaks first isFirst
  simp [notBlank] at blank

/-- Skipping the blanks in front leaves the chunks as they are. -/
theorem chunks_skipBlanks (text : List Char) :
    chunks (skipBlanks text) = chunks text := by
  have others : ∀ character ∈ text.takeWhile isBlank,
      isInk character = false := by
    intro character member
    simpa using List.mem_takeWhile_imp member
  have gap := runs_append_of_others others (skipBlanks text)
  rw [skipBlanks, List.takeWhile_append_dropWhile] at gap
  exact gap.symm

/-- A text is blank, or a chunk stands behind its blanks. -/
theorem skipBlanks_eq_nil_or_chunk (text : List Char) :
    (skipBlanks text = [] ∧ chunks text = []) ∨
      ∃ chunk rest, chunk ≠ [] ∧ Solid chunk ∧ Breaks rest ∧
        chunk ++ rest = skipBlanks text ∧ chunks text = chunk :: chunks rest := by
  rw [← chunks_skipBlanks text]
  rcases start : skipBlanks text with _ | ⟨first, after⟩
  · exact .inl ⟨rfl, runs_nil⟩
  · right
    have notBlank : isInk first = true := by
      have stops := stops_dropWhile isBlank text first
      rw [← skipBlanks, start] at stops
      simpa using stops rfl
    have nonempty : (first :: after).takeWhile isInk ≠ [] := by
      simp [notBlank]
    have all : ∀ character ∈ (first :: after).takeWhile isInk,
        isInk character = true := fun _ => List.mem_takeWhile_imp
    have breaks := stops_dropWhile isInk (first :: after)
    have split := List.takeWhile_append_dropWhile
      (p := isInk) (l := first :: after)
    have firstRun := runs_append_of_stops all nonempty breaks
    rw [split] at firstRun
    have solid : Solid ((first :: after).takeWhile isInk) :=
      fun character member => isInk_eq_true.mp (all character member)
    exact ⟨_, _, nonempty, solid, breaks, split, firstRun⟩

/-- Put what stands behind a chunk back to what a reader leaves of the chunk. -/
def behind (rest : List Char) (read : Option (α × List Char)) :
    Option (α × List Char) :=
  read.map fun (value, left) => (value, left ++ rest)

/-- A reader that skips blanks and finds in a chunk what it finds when a text
that breaks stands behind the chunk. -/
structure IsLocal (reader : Reader α) : Prop where
  skips : ∀ text, reader (skipBlanks text) = reader text
  within : ∀ {chunk rest}, chunk ≠ [] → Solid chunk → Breaks rest →
    reader (chunk ++ rest) = behind rest (reader chunk)

theorem isLocal_character (expected : Char) : IsLocal (character expected) where
  skips text := by simp [character]
  within {chunk rest} nonempty solid _ := by
    obtain ⟨first, after, rfl⟩ := List.exists_cons_of_ne_nil nonempty
    have visible := solid first List.mem_cons_self
    simp only [character, List.cons_append,
      skipBlanks_cons_of_not_isBlank _ visible]
    split <;> rfl

theorem isLocal_identifier : IsLocal identifier where
  skips text := by simp [identifier]
  within {chunk rest} nonempty solid breaks := by
    obtain ⟨first, after, rfl⟩ := List.exists_cons_of_ne_nil nonempty
    have visible := solid first List.mem_cons_self
    have stops := breaks.stops fun _ => isBlank_eq_false_of_isAlphanum
    simp only [identifier, List.cons_append,
      skipBlanks_cons_of_not_isBlank _ visible,
      takeWhile_before_stop stops, dropWhile_before_stop stops]
    split <;> rfl

/-- A word that stands at the front of a text and what follows stands in the
text, unless what follows starts with a character of the word. -/
theorem isPrefixOf?_append_of_apart
    {word text rest : List Char}
    (apart : ∀ first ∈ rest.head?, first ∉ word) :
    word.isPrefixOf? (text ++ rest) =
      (word.isPrefixOf? text).map (· ++ rest) := by
  apply Option.ext
  intro left
  rw [Option.map_eq_some_iff]
  simp only [List.isPrefixOf?_eq_some_iff_append_eq]
  constructor
  · intro split
    rcases List.append_eq_append_iff.mp split with
      ⟨after, rfl, rfl⟩ | ⟨beyond, rfl, rfl⟩
    · exact ⟨after, rfl, rfl⟩
    · -- A part of the word behind the text would start what follows.
      cases beyond with
      | nil => exact ⟨[], by simp, rfl⟩
      | cons first beyond => exact absurd (by simp) (apart first rfl)
  · rintro ⟨after, rfl, rfl⟩
    rw [List.append_assoc]

/-- A word without blanks does not go on behind a chunk. -/
theorem Breaks.apart
    {word rest : List Char}
    (breaks : Breaks rest)
    (solid : Solid word) :
    ∀ first ∈ rest.head?, first ∉ word :=
  fun first isFirst member =>
    breaks.first_ne (solid first member) first isFirst rfl

/-- A word without blanks is found in its chunk. -/
theorem isLocal_literal {word : String} (solid : Solid word.toList) :
    IsLocal (literal word) where
  skips text := by simp [literal]
  within {chunk rest} nonempty chunkSolid breaks := by
    obtain ⟨first, after, rfl⟩ := List.exists_cons_of_ne_nil nonempty
    have visible := chunkSolid first List.mem_cons_self
    simp only [literal, List.cons_append,
      skipBlanks_cons_of_not_isBlank _ visible]
    split
    · rfl
    · rw [← List.cons_append, isPrefixOf?_append_of_apart (breaks.apart solid),
        behind, Option.map_map, Option.map_map]
      rfl

/-- Words without blanks are found in their chunk. -/
theorem isLocal_anyOf
    {spelling : α → String}
    {values : List α}
    (solid : ∀ value ∈ values, Solid (spelling value).toList) :
    IsLocal (anyOf spelling values) := by
  induction values with
  | nil => exact ⟨fun _ => rfl, fun _ _ _ => rfl⟩
  | cons value values valuesHypothesis =>
      have first := isLocal_literal (solid value List.mem_cons_self)
      have later := valuesHypothesis fun other member =>
        solid other (List.mem_cons_of_mem value member)
      constructor
      · intro text
        simp only [anyOf, first.skips, later.skips]
      · intro chunk rest nonempty chunkSolid breaks
        simp only [anyOf, first.within nonempty chunkSolid breaks,
          later.within nonempty chunkSolid breaks]
        rcases literal (spelling value) chunk with _ | ⟨_, left⟩ <;> rfl

end Token

/-- A text that starts with no character that could carry on a numeral. -/
def Token.EndsNumeral (text : List Char) : Prop :=
  ∀ first ∈ text.head?, first.isAlphanum = false ∧
    first ≠ '.' ∧ first ≠ '+' ∧ first ≠ '-'

/-- Where a chunk breaks off, a numeral ends. -/
theorem Token.Breaks.endsNumeral
    {text : List Char}
    (breaks : Token.Breaks text) :
    Token.EndsNumeral text := fun first isFirst =>
  ⟨breaks.stops (fun _ => isBlank_eq_false_of_isAlphanum) first isFirst,
    breaks.first_ne (by decide) first isFirst,
    breaks.first_ne (by decide) first isFirst,
    breaks.first_ne (by decide) first isFirst⟩

/-- Where a numeral ends, the characters of a word stop. -/
theorem Token.EndsNumeral.stops
    {text : List Char}
    (ends : Token.EndsNumeral text) :
    Token.Stops Char.isAlphanum text :=
  fun first isFirst => (ends first isFirst).1

/-- The sign of an exponent does not depend on what stands behind the
numeral. -/
theorem ExponentSign.read_append
    {rest : List Char}
    (ends : Token.EndsNumeral rest)
    (text : List Char) :
    read (text ++ rest) = ((read text).1, (read text).2 ++ rest) := by
  cases text with
  | nil =>
      cases rest with
      | nil => rfl
      | cons first rest =>
          obtain ⟨-, -, notPlus, notMinus⟩ := ends first rfl
          rw [List.nil_append]
          unfold read
          split <;> simp_all
  | cons first text =>
      unfold read
      split <;> simp_all

namespace Numeral

open Token (behind)

/-- An exponent does not depend on what stands behind the numeral. -/
theorem Exponent.read?_append
    {rest : List Char}
    (ends : Token.EndsNumeral rest)
    (text : List Char) :
    read? (text ++ rest) = behind rest (read? text) := by
  have digits := Token.stops_isDigit ends.stops
  cases text with
  | nil => exact Exponent.read?_eq_none ends.stops
  | cons mark text =>
      simp only [read?, List.cons_append, ExponentSign.read_append ends,
        Token.takeWhile_before_stop digits,
        Token.dropWhile_before_stop digits]
      split
      · split <;> rfl
      · rfl

/-- A fraction does not depend on what stands behind the numeral. -/
theorem readFraction_append
    {rest : List Char}
    (ends : Token.EndsNumeral rest)
    (text : List Char) :
    readFraction (text ++ rest) =
      ((readFraction text).1, (readFraction text).2 ++ rest) := by
  have digits := Token.stops_isDigit ends.stops
  have other {first : Char} (noPoint : first ≠ '.') (text : List Char) :
      readFraction (first :: text) = (none, first :: text) := by
    rw [readFraction]
    simp [noPoint]
  cases text with
  | nil =>
      cases rest with
      | nil => rfl
      | cons first rest => exact other (ends first rfl).2.1 rest
  | cons first text =>
      by_cases point : first = '.'
      · subst point
        simp only [readFraction, List.cons_append,
          Token.takeWhile_before_stop digits, Token.dropWhile_before_stop digits]
      · rw [List.cons_append, other point, other point]
        rfl

/-- The numeral at the front of a text ends with the text when nothing follows
that could carry it on. -/
theorem read?_append
    {rest : List Char}
    (ends : Token.EndsNumeral rest)
    (text : List Char) :
    read? (text ++ rest) = behind rest (read? text) := by
  have digits := Token.stops_isDigit ends.stops
  simp only [read?, Token.takeWhile_before_stop digits,
    Token.dropWhile_before_stop digits, readFraction_append ends,
    Exponent.read?_append ends]
  split
  · rfl
  · rcases Exponent.read? (readFraction (text.dropWhile Char.isDigit)).2 with
      _ | ⟨exponent, left⟩ <;> rfl

end Numeral

namespace Token

/-- A number is found in its chunk. -/
theorem isLocal_number : IsLocal number where
  skips text := by simp [number]
  within {chunk rest} nonempty solid breaks := by
    obtain ⟨first, after, rfl⟩ := List.exists_cons_of_ne_nil nonempty
    have visible := solid first List.mem_cons_self
    simp only [number, List.cons_append,
      skipBlanks_cons_of_not_isBlank _ visible]
    rw [← List.cons_append, Numeral.read?_append breaks.endsNumeral, behind,
      behind, Option.map_map, Option.map_map]
    rfl

/-- Local readers find the same in texts with the same chunks and leave texts
with the same chunks. -/
theorem IsLocal.agree
    {reader : Reader α}
    (isLocal : IsLocal reader)
    (consumes : Consumes reader)
    {text text' : List Char}
    (same : chunks text = chunks text') :
    Option.Rel
      (fun read read' => read.1 = read'.1 ∧ chunks read.2 = chunks read'.2)
      (reader text) (reader text') := by
  rw [← isLocal.skips text, ← isLocal.skips text']
  rcases skipBlanks_eq_nil_or_chunk text with
      ⟨start, nothing⟩ | ⟨chunk, rest, nonempty, solid, breaks, start, split⟩ <;>
    rcases skipBlanks_eq_nil_or_chunk text' with
      ⟨start', nothing'⟩ |
      ⟨chunk', rest', nonempty', solid', breaks', start', split'⟩
  · rw [start, start']
    rcases reader [] with _ | read
    · exact .none
    · exact .some ⟨rfl, rfl⟩
  · simp [nothing, split'] at same
  · simp [nothing', split] at same
  · simp only [split, split', List.cons.injEq] at same
    obtain ⟨rfl, rests⟩ := same
    rw [← start, ← start', isLocal.within nonempty solid breaks,
      isLocal.within nonempty solid breaks']
    rcases read : reader chunk with _ | ⟨value, left⟩
    · exact .none
    · refine .some ⟨rfl, ?_⟩
      have leftSolid := solid.of_suffix (consumes chunk value left read).suffix
      by_cases whole : left = []
      · simpa [whole] using rests
      · rw [chunks, chunks,
          runs_append_of_stops leftSolid.isInk whole breaks,
          runs_append_of_stops leftSolid.isInk whole breaks']
        exact congrArg _ rests

/-- A text is at its end when it has no chunks. -/
theorem atEnd_iff_chunks {text : List Char} :
    atEnd text = true ↔ chunks text = [] := by
  rw [atEnd, List.isEmpty_iff]
  rcases skipBlanks_eq_nil_or_chunk text with
    ⟨start, nothing⟩ | ⟨chunk, rest, nonempty, -, -, start, split⟩
  · simp [start, nothing]
  · simp [← start, split, nonempty]

end Token

end LineCalculator
