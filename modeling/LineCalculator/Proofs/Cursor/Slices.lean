import LineCalculator.Cursor.Bench
import LineCalculator.Proofs.Number.NumeralReading
import LineCalculator.Proofs.Text.Bytes

/-!
# Reading through slices

The readings of a cursor as programs that cut slices out of its text, count in
bytes and move the cursor as they go. A slice that ends past the text or inside
a character is an error. Only the first slice can be one: every later one is cut
behind characters that were looked at, so the programs do what the readings of
the cursor do, from every position.
-/

namespace LineCalculator

/-- The first bytes of a text; `none` when the cut is past the end or inside a
character. -/
def takeBytes? : Nat → List Char → Option (List Char)
  | 0, _ => some []
  | _ + 1, [] => none
  | count + 1, character :: text =>
      if character.utf8Size ≤ count + 1 then
        (takeBytes? (count + 1 - character.utf8Size) text).map (character :: ·)
      else none

/-- Taking the bytes of a front gives the front. -/
theorem takeBytes?_append (front rest : List Char) :
    takeBytes? (byteSize front) (front ++ rest) = some front := by
  induction front with
  | nil => simp [takeBytes?]
  | cons character front frontHypothesis =>
      have positive := character.utf8Size_pos
      obtain ⟨before, size⟩ :=
        Nat.exists_eq_add_one_of_ne_zero (Nat.ne_of_gt positive)
      rw [byteSize_cons, List.cons_append, size, Nat.add_right_comm,
        takeBytes?, if_pos (by omega)]
      rw [show before + byteSize front + 1 - character.utf8Size =
        byteSize front by omega]
      rw [frontHypothesis, Option.map_some]

namespace Cursor

/-! ## Programs -/

/-- A program that cuts slices out of the text of a cursor and moves the cursor.
After an error the cursor is where it had come to. -/
abbrev Slicing := ExceptT Error (StateM Cursor)

namespace Slicing

/-- What a program gives and the cursor after it. -/
def run (program : Slicing α) (cursor : Cursor) : Except Error α × Cursor :=
  StateT.run (ExceptT.run program) cursor

/-- A slice, unless it is cut out of bounds. -/
def slice (cut : Option α) : Slicing α :=
  match cut with
  | some value => pure value
  | none => throw .insideCharacter

/-- The text from the position on. -/
def view : Slicing (List Char) := do
  slice (← get).rest?

/-- Move behind the blanks at the position. -/
def skip : Slicing Unit := do
  let text ← view
  modify (·.moved (byteSize (text.takeWhile isBlank)))

/-- The number of digits from a byte on. -/
def digitsFrom (bytes : List UInt8) (start : Nat) : Slicing Nat := do
  let behind ←
    slice (if start ≤ bytes.length then some (bytes.drop start) else none)
  pure (behind.takeWhile isDigitByte).length

/-- The length of a numeral with the fraction that may follow. -/
def fractionEnd (bytes : List UInt8) (length : Nat) : Slicing Nat := do
  if bytes[length]? = some '.'.toUInt8 then
    let places ← digitsFrom bytes (length + 1)
    pure (length + (1 + places))
  else pure length

/-- The first byte behind the sign that an exponent may have. -/
def signEnd (bytes : List UInt8) (length : Nat) : Nat :=
  if bytes[length]? = some '+'.toUInt8 ∨ bytes[length]? = some '-'.toUInt8 then
    length + 1
  else length

/-- The length of a numeral with the exponent that may follow. -/
def exponentEnd (bytes : List UInt8) (length : Nat) : Slicing Nat := do
  if bytes[length]? = some 'e'.toUInt8 ∨ bytes[length]? = some 'E'.toUInt8 then
    let start := signEnd bytes (length + 1)
    let digits ← digitsFrom bytes start
    pure (if 0 < digits then start + digits else length)
  else pure length

/-- The number of bytes of the numeral at the position, which is zero when there
is none. -/
def numeralLength : Slicing Nat := do
  let bytes := utf8Bytes (← view)
  let length ← digitsFrom bytes 0
  if length = 0 then pure 0
  else
    let length ← fractionEnd bytes length
    exponentEnd bytes length

/-- The value of a text that is a numeral as a whole. -/
def numeralValue? (text : List Char) : Option Float :=
  match Numeral.read? text with
  | some (numeral, []) => some numeral.toFloat
  | _ => none

/-- Go on behind the blanks at the position, which is kept. -/
def behindBlanks (next : Mark → Slicing α) : Slicing α := do
  let start := (← get).mark
  skip
  next start

/-- Give back what was taken. -/
def giveBack (value : α) (start : Mark) : Slicing α := do
  modify (·.reset start)
  pure value

/-- Read a numeral. -/
def readNumber : Slicing (Option Float) :=
  behindBlanks fun start => do
    let length ← numeralLength
    let lexeme ← slice (takeBytes? length (← view))
    match numeralValue? lexeme with
    | some value =>
        modify (·.moved length)
        pure (some value)
    | none => giveBack none start

/-- Read a name. -/
def readIdentifier : Slicing (Option String) :=
  behindBlanks fun start => do
    match ← view with
    | [] => giveBack none start
    | character :: _ =>
        if character.isAlpha then
          let first := character.utf8Size
          let later ← slice (dropBytes? first (← view))
          let length := first + byteSize (later.takeWhile Char.isAlphanum)
          let name ← slice (takeBytes? length (← view))
          modify (·.moved length)
          pure (some (String.ofList name))
        else giveBack none start

/-- Take a word of a given size when the text starts with it. -/
def matchFront
    (size : Nat)
    (starts : List Char → Bool) : Slicing Bool :=
  behindBlanks fun start => do
    if starts (← view) then
      modify (·.moved size)
      pure true
    else giveBack false start

/-- Take a given character. -/
def matchCharacter (expected : Char) : Slicing Bool :=
  matchFront expected.utf8Size fun text => text.head? = some expected

/-- Take a given word, which is not empty. -/
def matchLiteral (word : String) : Slicing Bool :=
  matchFront word.utf8ByteSize fun text =>
    !word.isEmpty && word.toList.isPrefixOf text

/-- Take the first of several words that the text starts with. -/
def matchAny : List String → Slicing (Option String)
  | [] => pure none
  | word :: words => do
      if ← matchLiteral word then pure (some word) else matchAny words

/-- Whether nothing but blanks remains. -/
def atEnd : Slicing Bool := do
  pure (skipBlanks (← view)).isEmpty

/-! ## Runs of programs -/

variable {cursor : Cursor} {text front rest : List Char}

@[simp] theorem run_pure (value : α) (cursor : Cursor) :
    (pure value : Slicing α).run cursor = (.ok value, cursor) := rfl

@[simp] theorem run_get (cursor : Cursor) :
    (get : Slicing Cursor).run cursor = (.ok cursor, cursor) := rfl

@[simp] theorem run_modify (change : Cursor → Cursor) (cursor : Cursor) :
    (modify change : Slicing PUnit).run cursor = (.ok ⟨⟩, change cursor) := rfl

/-- One program behind another starts at the cursor that the first one leaves,
and not at all when the first one fails. -/
theorem run_bind
    (first : Slicing α)
    (next : α → Slicing β)
    (cursor : Cursor) :
    (first >>= next).run cursor =
      match first.run cursor with
      | (.ok value, cursor) => (next value).run cursor
      | (.error error, cursor) => (.error error, cursor) := by
  simp only [run, ExceptT.run_bind, StateT.run_bind]
  generalize (ExceptT.run first).run cursor = result
  rcases result with ⟨_ | value, cursor⟩ <;> rfl

@[simp] theorem run_slice_some (value : α) (cursor : Cursor) :
    (slice (some value)).run cursor = (.ok value, cursor) := rfl

/-- On a boundary the view is the rest of the text. -/
theorem run_view (remains : cursor.rest? = some text) :
    view.run cursor = (.ok text, cursor) := by
  simp only [view, run_bind, run_get, remains, run_slice_some]

/-- Inside a character there is no view. -/
theorem run_view_of_none (inside : cursor.rest? = none) :
    view.run cursor = (.error .insideCharacter, cursor) := by
  simp only [view, run_bind, run_get, inside]
  rfl

/-- Giving back leads to where the cursor stood, since the mark lies in the
text. -/
theorem run_giveBack
    (remains : cursor.rest? = some text)
    (value : α)
    (count : Nat) :
    (giveBack value cursor.mark).run (cursor.moved count) =
      (.ok value, cursor) := by
  have inText := position_le_of_rest? remains
  simp only [giveBack, run_bind, run_modify, run_pure, moved, reset, mark,
    Nat.min_eq_left inText]

/-- On a boundary a program starts behind the blanks and knows where they
began. -/
theorem run_behindBlanks
    (remains : cursor.rest? = some text)
    (next : Mark → Slicing α) :
    (behindBlanks next).run cursor =
      (next cursor.mark).run
        (cursor.moved (byteSize (text.takeWhile isBlank))) := by
  simp only [behindBlanks, skip, run_bind, run_get, run_view remains,
    run_modify]

/-- Inside a character nothing starts behind the blanks. -/
theorem run_behindBlanks_of_none
    (inside : cursor.rest? = none)
    (next : Mark → Slicing α) :
    (behindBlanks next).run cursor = (.error .insideCharacter, cursor) := by
  simp only [behindBlanks, skip, run_bind, run_get, run_view_of_none inside]

/-- The byte behind the front of a text is that of an ASCII character exactly
where the character comes next. -/
theorem getElem?_utf8Bytes_eq_some_iff
    {expected : Char}
    (ascii : expected.toNat ≤ 127)
    (front rest : List Char) :
    (utf8Bytes (front ++ rest))[byteSize front]? = some expected.toUInt8 ↔
      rest.head? = some expected := by
  rw [utf8Bytes_append, ← length_utf8Bytes, List.getElem?_append_right le_rfl,
    Nat.sub_self, ← List.head?_eq_getElem?, head?_utf8Bytes_eq_some_iff ascii]

/-- The digits that are counted byte by byte are the digits in front of the
rest. -/
theorem run_digitsFrom (front rest : List Char) (cursor : Cursor) :
    (digitsFrom (utf8Bytes (front ++ rest)) (byteSize front)).run cursor =
      (.ok (rest.takeWhile Char.isDigit).length, cursor) := by
  have inBounds :
      byteSize front ≤ (utf8Bytes (front ++ rest)).length := by
    rw [length_utf8Bytes, byteSize_append]
    exact Nat.le_add_right _ _
  have behind : (utf8Bytes (front ++ rest)).drop (byteSize front) =
      utf8Bytes rest := by
    rw [utf8Bytes_append]
    exact List.drop_left' (length_utf8Bytes front)
  simp only [digitsFrom, if_pos inBounds, run_bind, run_slice_some, behind,
    length_takeWhile_isDigitByte, run_pure]

/-- A digit takes one byte. -/
theorem byteSize_takeWhile_isDigit (text : List Char) :
    byteSize (text.takeWhile Char.isDigit) =
      (text.takeWhile Char.isDigit).length := by
  apply byteSize_eq_length
  intro character member
  have digit := isDigit_iff.mp (List.mem_takeWhile_imp member)
  omega

/-- The end of a fraction that is found byte by byte is the end of the fraction
that is read. -/
theorem run_fractionEnd (front rest : List Char) (cursor : Cursor) :
    (fractionEnd (utf8Bytes (front ++ rest)) (byteSize front)).run cursor =
      (.ok (byteSize (front ++
        Numeral.fractionCharacters (Numeral.readFraction rest).1)), cursor) := by
  have isPoint := getElem?_utf8Bytes_eq_some_iff
    (show '.'.toNat ≤ 127 by decide) front rest
  rw [fractionEnd]
  by_cases point : rest.head? = some '.'
  · rw [if_pos (isPoint.mpr point)]
    obtain ⟨tail, rfl⟩ := List.head?_eq_some_iff.mp point
    have behindPoint : byteSize front + 1 = byteSize (front ++ ['.']) := by
      rw [byteSize_append]
      rfl
    have split : front ++ '.' :: tail = front ++ ['.'] ++ tail := by simp
    rw [behindPoint, split, run_bind, run_digitsFrom]
    simp only [run_pure, Numeral.readFraction, Numeral.fractionCharacters,
      byteSize_append, byteSize_cons, byteSize_takeWhile_isDigit]
    rfl
  · rw [if_neg (mt isPoint.mp point), Numeral.readFraction_of_ne point, run_pure,
      Numeral.fractionCharacters, List.append_nil]

/-- The end of a sign that is found byte by byte is the end of the sign that is
read. -/
theorem signEnd_eq (front rest : List Char) :
    signEnd (utf8Bytes (front ++ rest)) (byteSize front) =
      byteSize (front ++ (ExponentSign.read rest).1.characters) := by
  have isPlus := getElem?_utf8Bytes_eq_some_iff
    (show '+'.toNat ≤ 127 by decide) front rest
  have isMinus := getElem?_utf8Bytes_eq_some_iff
    (show '-'.toNat ≤ 127 by decide) front rest
  rw [signEnd, byteSize_append]
  by_cases plus : rest.head? = some '+'
  · rw [if_pos (.inl (isPlus.mpr plus))]
    obtain ⟨tail, rfl⟩ := List.head?_eq_some_iff.mp plus
    rfl
  by_cases minus : rest.head? = some '-'
  · rw [if_pos (.inr (isMinus.mpr minus))]
    obtain ⟨tail, rfl⟩ := List.head?_eq_some_iff.mp minus
    rfl
  · rw [if_neg (not_or.mpr ⟨mt isPlus.mp plus, mt isMinus.mp minus⟩),
      ExponentSign.read_of_ne plus minus]
    rfl

/-- The end of an exponent that is found byte by byte is the end of the
exponent that is read, and there is none when no digit follows. -/
theorem run_exponentEnd (front rest : List Char) (cursor : Cursor) :
    (exponentEnd (utf8Bytes (front ++ rest)) (byteSize front)).run cursor =
      (.ok (byteSize (front ++ ((Numeral.Exponent.read? rest).map
        fun (exponent, _) => exponent.characters).getD [])), cursor) := by
  have isSmall := getElem?_utf8Bytes_eq_some_iff
    (show 'e'.toNat ≤ 127 by decide) front rest
  have isLarge := getElem?_utf8Bytes_eq_some_iff
    (show 'E'.toNat ≤ 127 by decide) front rest
  rw [exponentEnd]
  cases rest with
  | nil =>
      rw [if_neg (not_or.mpr ⟨mt isSmall.mp nofun, mt isLarge.mp nofun⟩)]
      simp [Numeral.Exponent.read?]
  | cons mark tail =>
      simp only [List.head?_cons, Option.some.injEq] at isSmall isLarge
      rw [Numeral.Exponent.read?]
      by_cases isMark : mark = 'e' ∨ mark = 'E'
      · rw [if_pos (isMark.imp isSmall.mpr isLarge.mpr), if_pos isMark]
        have behindMark : byteSize front + 1 = byteSize (front ++ [mark]) := by
          rw [byteSize_append]
          rcases isMark with rfl | rfl <;> rfl
        have split : front ++ mark :: tail = front ++ [mark] ++ tail := by simp
        have signSplit : front ++ [mark] ++ tail =
            front ++ [mark] ++ (ExponentSign.read tail).1.characters ++
              (ExponentSign.read tail).2 := by
          rw [List.append_assoc _ _ (ExponentSign.read tail).2,
            ExponentSign.characters_append_read]
        simp only [behindMark, split, signEnd_eq]
        rw [signSplit, run_bind, run_digitsFrom]
        have size := byteSize_takeWhile_isDigit (ExponentSign.read tail).2
        generalize (ExponentSign.read tail).2.takeWhile Char.isDigit = digits
          at size ⊢
        cases digits with
        | nil => simp
        | cons digit digits =>
            rw [byteSize_cons, List.length_cons] at size
            simp [Numeral.Exponent.characters, byteSize_append]
            omega
      · rw [if_neg isMark, if_neg (mt (Or.imp isSmall.mp isLarge.mp) isMark)]
        simp

/-- The length that is counted is that of the numeral that is read. -/
theorem run_numeralLength (remains : cursor.rest? = some text) :
    numeralLength.run cursor =
      (.ok (((Numeral.read? text).map fun (numeral, _) =>
        byteSize numeral.characters).getD 0), cursor) := by
  have digits := run_digitsFrom [] text cursor
  have split : text.takeWhile Char.isDigit ++ text.dropWhile Char.isDigit =
      text :=
    List.takeWhile_append_dropWhile
  have fraction := run_fractionEnd (text.takeWhile Char.isDigit)
    (text.dropWhile Char.isDigit) cursor
  have exponent := run_exponentEnd
    (text.takeWhile Char.isDigit ++ Numeral.fractionCharacters
      (Numeral.readFraction (text.dropWhile Char.isDigit)).1)
    (Numeral.readFraction (text.dropWhile Char.isDigit)).2 cursor
  rw [List.nil_append, byteSize_nil] at digits
  rw [split, byteSize_takeWhile_isDigit] at fraction
  rw [List.append_assoc _ _ (Numeral.readFraction _).2,
    Numeral.fractionCharacters_append_readFraction, split] at exponent
  simp only [numeralLength, run_bind, run_view remains, digits, Numeral.read?]
  by_cases nothing : text.takeWhile Char.isDigit = []
  · simp [nothing]
  · rw [if_neg (mt List.length_eq_zero_iff.mp nothing),
      if_neg (mt List.isEmpty_iff.mp nothing), run_bind, fraction]
    dsimp only
    rw [exponent]
    rcases Numeral.Exponent.read? _ with _ | ⟨exponent, rest⟩ <;>
      simp [Numeral.characters]

/-- A numeral by itself has its value. -/
theorem numeralValue?_characters
    {numeral : Numeral}
    (wellFormed : numeral.WellFormed) :
    numeralValue? numeral.characters = some numeral.toFloat := by
  have read : Numeral.read? (numeral.characters ++ []) = some (numeral, []) :=
    Numeral.read?_characters_append wellFormed (by simp [Token.Stops]) (by simp)
  rw [List.append_nil] at read
  simp only [numeralValue?, read]

/-- The program for numbers reads as the reader does. -/
theorem run_readNumber (cursor : Cursor) :
    readNumber.run cursor = cursor.read Token.number := by
  rcases remains : cursor.rest? with _ | text
  · rw [readNumber, run_behindBlanks_of_none remains, read_of_none remains]
  · have behind := rest?_behindBlanks remains
    rw [readNumber, run_behindBlanks remains]
    simp only [run_bind, run_numeralLength behind, run_view behind]
    rcases found : Numeral.read? (skipBlanks text) with _ | ⟨numeral, rest⟩
    · have missed : Token.number text = none := by
        rw [Token.number, found, Option.map_none]
      have front : takeBytes? 0 (skipBlanks text) = some [] := by
        rw [takeBytes?]
      have noValue : numeralValue? [] = none := rfl
      simp only [Option.map_none, Option.getD_none, front, run_slice_some,
        noValue, run_giveBack remains, read_of_miss remains missed]
    · have split := Numeral.characters_append_of_read? found
      have wellFormed := Numeral.wellFormed_of_read? found
      have matched : Token.number text = some (numeral.toFloat, rest) := by
        rw [Token.number, found, Option.map_some]
      have front : takeBytes? (byteSize numeral.characters) (skipBlanks text) =
          some numeral.characters := by
        rw [← split, takeBytes?_append]
      simp only [Option.map_some, Option.getD_some, front, run_slice_some,
        numeralValue?_characters wellFormed, run_bind, run_modify, run_pure,
        read_of_match remains split matched]

theorem run_readIdentifier (cursor : Cursor) :
    readIdentifier.run cursor = cursor.read Token.identifier := by
  rcases remains : cursor.rest? with _ | text
  · rw [readIdentifier, run_behindBlanks_of_none remains, read_of_none remains]
  have behind := rest?_behindBlanks remains
  rw [readIdentifier, run_behindBlanks remains]
  simp only [run_bind, run_view behind]
  rcases start : skipBlanks text with _ | ⟨first, later⟩
  · have missed : Token.identifier text = none := by
      simp only [Token.identifier, start]
    simp only [run_giveBack remains, read_of_miss remains missed]
  by_cases alpha : first.isAlpha = true
  · have matched : Token.identifier text = some
        (String.ofList (first :: later.takeWhile Char.isAlphanum),
          later.dropWhile Char.isAlphanum) := by
      simp only [Token.identifier, start, if_pos alpha]
    have split : (first :: later.takeWhile Char.isAlphanum) ++
        later.dropWhile Char.isAlphanum = skipBlanks text := by
      rw [start, List.cons_append, List.takeWhile_append_dropWhile]
    have size : byteSize (first :: later.takeWhile Char.isAlphanum) =
        first.utf8Size + byteSize (later.takeWhile Char.isAlphanum) := rfl
    have behindFirst : dropBytes? first.utf8Size (first :: later) = some later :=
      dropBytes?_append [first] later
    have front := takeBytes?_append (first :: later.takeWhile Char.isAlphanum)
      (later.dropWhile Char.isAlphanum)
    rw [split, start, size] at front
    simp only [if_pos alpha, run_bind, run_view behind, start, behindFirst,
      run_slice_some, front, run_modify, run_pure,
      read_of_match remains split matched, size]
  · have missed : Token.identifier text = none := by
      simp only [Token.identifier, start, if_neg alpha]
    simp only [if_neg alpha, run_giveBack remains, read_of_miss remains missed]

/-- Whether something is read, or an error. -/
def whetherRead
    (result : Except Error (Option α) × Cursor) : Except Error Bool × Cursor :=
  (result.1.map Option.isSome, result.2)

/-- A word is taken in the same way as by a reader that finds it exactly where
the text starts with it. -/
theorem run_matchFront
    {reader : Token.Reader Unit}
    {starts : List Char → Bool}
    (word : List Char)
    (finds : ∀ text, starts (skipBlanks text) = true → ∃ rest,
      word ++ rest = skipBlanks text ∧ reader text = some ((), rest))
    (misses : ∀ text, starts (skipBlanks text) = false → reader text = none)
    (cursor : Cursor) :
    (matchFront (byteSize word) starts).run cursor =
      whetherRead (cursor.read reader) := by
  rcases remains : cursor.rest? with _ | text
  · rw [matchFront, run_behindBlanks_of_none remains, read_of_none remains]
    rfl
  have behind := rest?_behindBlanks remains
  rw [matchFront, run_behindBlanks remains]
  simp only [run_bind, run_view behind]
  rcases start : starts (skipBlanks text) with _ | _
  · rw [read_of_miss remains (misses text start)]
    exact run_giveBack remains false _
  · obtain ⟨rest, split, matched⟩ := finds text start
    rw [read_of_match remains split matched]
    rfl

theorem run_matchCharacter (expected : Char) (cursor : Cursor) :
    (matchCharacter expected).run cursor =
      whetherRead (cursor.read (Token.character expected)) := by
  refine run_matchFront [expected] ?_ ?_ cursor
  · intro text start
    obtain ⟨rest, split⟩ :=
      List.head?_eq_some_iff.mp (of_decide_eq_true start)
    exact ⟨rest, split.symm, Token.character_eq_some_iff.mpr split.symm⟩
  · intro text start
    exact Token.character_eq_none (of_decide_eq_false start)

/-- The program for a word tells whether the reader finds it. An empty word is
found by neither. -/
theorem run_matchLiteral (word : String) (cursor : Cursor) :
    (matchLiteral word).run cursor =
      whetherRead (cursor.read (Token.literal word)) := by
  have nonempty_iff : (!word.isEmpty) = true ↔ word.toList ≠ [] := by
    simp
  rw [matchLiteral, ← byteSize_toList]
  refine run_matchFront word.toList ?_ ?_ cursor
  · intro text start
    rw [Bool.and_eq_true, List.isPrefixOf_iff_prefix, nonempty_iff] at start
    obtain ⟨nonempty, rest, split⟩ := start
    exact ⟨rest, split, Token.literal_eq_some_iff.mpr ⟨nonempty, split⟩⟩
  · intro text start
    rcases found : Token.literal word text with _ | ⟨_, rest⟩
    · rfl
    · obtain ⟨nonempty, split⟩ := Token.literal_eq_some_iff.mp found
      have starts : (!word.isEmpty &&
          word.toList.isPrefixOf (skipBlanks text)) = true := by
        rw [Bool.and_eq_true, List.isPrefixOf_iff_prefix, nonempty_iff]
        exact ⟨nonempty, rest, split⟩
      rw [starts] at start
      exact absurd start (by decide)

/-- On a boundary the program for several words takes the first of them that
the reader takes. -/
theorem run_matchAny_of_rest?
    (remains : cursor.rest? = some text)
    (words : List String) :
    (matchAny words).run cursor = cursor.read (Token.anyOf id words) := by
  induction words with
  | nil => exact (read_of_miss remains rfl).symm
  | cons word words wordsHypothesis =>
      simp only [matchAny, run_bind, run_matchLiteral]
      rcases found : Token.literal word text with _ | ⟨_, rest⟩
      · have same : Token.anyOf id (word :: words) text =
            Token.anyOf id words text := by
          simp only [Token.anyOf, id, found]
        rw [read_of_miss remains found, read_congr remains same]
        exact wordsHypothesis
      · have split := (Token.literal_eq_some_iff.mp found).2
        have matched : Token.anyOf id (word :: words) text =
            some (word, rest) := by
          simp only [Token.anyOf, id, found]
        rw [read_of_match remains split found,
          read_of_match remains split matched]
        rfl

/-- The program for several words reads as the reader does, wherever the cursor
is. -/
theorem run_matchAny (words : List String) (cursor : Cursor) :
    (matchAny words).run cursor = cursor.readAny words := by
  cases words with
  | nil => rfl
  | cons word words =>
      rw [readAny, if_neg (by simp)]
      rcases remains : cursor.rest? with _ | text
      · simp only [matchAny, run_bind, run_matchLiteral, read_of_none remains]
        rfl
      · exact run_matchAny_of_rest? remains (word :: words)

theorem run_atEnd (cursor : Cursor) :
    atEnd.run cursor = (cursor.atEnd, cursor) := by
  rcases remains : cursor.rest? with _ | text
  · simp only [atEnd, run_bind, run_view_of_none remains, Cursor.atEnd, remains]
  · simp only [atEnd, run_bind, run_view remains, run_pure, Cursor.atEnd,
      remains]
    rfl

end Slicing

namespace Bench

/-- The answer of an action that only reads, given by the programs that cut
slices. -/
def sliceAnswer (cursor : Cursor) : Action → Option (Answer × Cursor)
  | .number =>
      let (value, cursor) := Slicing.readNumber.run cursor
      some (answer .number value, cursor)
  | .identifier =>
      let (name, cursor) := Slicing.readIdentifier.run cursor
      some (answer .word name, cursor)
  | .character expected =>
      let (found, cursor) := (Slicing.matchCharacter expected).run cursor
      some (answer .truth found, cursor)
  | .literal word =>
      let (found, cursor) := (Slicing.matchLiteral word).run cursor
      some (answer .truth found, cursor)
  | .anyOf words =>
      let (found, cursor) := (Slicing.matchAny words).run cursor
      some (answer .word found, cursor)
  | .atEnd =>
      let (ended, cursor) := Slicing.atEnd.run cursor
      some (answer .truth ended, cursor)
  | .position => some (.count cursor.position, cursor)
  | .mark | .reset _ => none

/-- To tell whether a token was read, its value is not needed. -/
theorem answer_whetherRead
    (result : Except Error (Option α) × Cursor) :
    answer .truth (Slicing.whetherRead result).1 =
      answer (.truth ·.isSome) result.1 := by
  rcases result with ⟨_ | found, cursor⟩ <;> rfl

/-- The programs answer what the readings of the cursor answer and leave the
cursor where these leave it. -/
theorem sliceAnswer_eq_readAnswer (cursor : Cursor) (action : Action) :
    sliceAnswer cursor action = readAnswer cursor action := by
  cases action with
  | number => simp only [sliceAnswer, readAnswer, Slicing.run_readNumber]
  | identifier => simp only [sliceAnswer, readAnswer, Slicing.run_readIdentifier]
  | character expected =>
      simp only [sliceAnswer, readAnswer, Slicing.run_matchCharacter,
        answer_whetherRead]
      rfl
  | literal word =>
      simp only [sliceAnswer, readAnswer, Slicing.run_matchLiteral,
        answer_whetherRead]
      rfl
  | anyOf words => simp only [sliceAnswer, readAnswer, Slicing.run_matchAny]
  | atEnd => simp only [sliceAnswer, readAnswer, Slicing.run_atEnd]
  | position => rfl
  | mark => rfl
  | reset slot => rfl

end Bench

end Cursor

end LineCalculator
