import LineCalculator.Proofs.Token.Consumption
import Mathlib.Data.List.TakeWhile

/-!
# Spellings of tokens

A word is a token when it is the spelling of that token with blanks in front. A
reader finds a token exactly where its spelling follows the blanks; a name and a
numeral are found whole when no character follows that would carry them on.
-/

namespace LineCalculator

/-- The letters are those of ASCII, in both cases. -/
theorem isAlpha_iff {character : Char} :
    character.isAlpha = true ↔
      (65 ≤ character.toNat ∧ character.toNat ≤ 90) ∨
        (97 ≤ character.toNat ∧ character.toNat ≤ 122) := by
  change (decide (character.val ≥ 'A'.val ∧ character.val ≤ 'Z'.val) ||
    (decide (character.val ≥ 'a'.val) &&
      decide (character.val ≤ 'z'.val))) = true ↔ _
  simp only [Bool.or_eq_true, Bool.and_eq_true, decide_eq_true_eq, ge_iff_le,
    UInt32.le_iff_toNat_le]
  exact Iff.rfl

/-- The digits are those of ASCII. -/
theorem isDigit_iff {character : Char} :
    character.isDigit = true ↔
      48 ≤ character.toNat ∧ character.toNat ≤ 57 := by
  change (decide (character.val ≥ '0'.val) &&
    decide (character.val ≤ '9'.val)) = true ↔ _
  simp only [Bool.and_eq_true, decide_eq_true_eq, ge_iff_le,
    UInt32.le_iff_toNat_le]
  exact Iff.rfl

theorem isAlphanum_iff {character : Char} :
    character.isAlphanum = true ↔
      character.isAlpha = true ∨ character.isDigit = true := by
  change (character.isAlpha || character.isDigit) = true ↔ _
  exact Bool.or_eq_true_iff

theorem isAlpha_eq_false_of_isDigit
    {character : Char}
    (digit : character.isDigit = true) :
    character.isAlpha = false := by
  apply Bool.eq_false_iff.mpr
  rw [Ne, isAlpha_iff]
  rw [isDigit_iff] at digit
  omega

/-- Neither letters nor digits are blank. -/
theorem isBlank_eq_false_of_isAlphanum
    {character : Char}
    (alphanumeric : character.isAlphanum = true) :
    isBlank character = false := by
  rw [isAlphanum_iff, isAlpha_iff, isDigit_iff] at alphanumeric
  simp [isBlank, blankRanges]
  omega

namespace Token

/-- A word is a token of a given spelling when only blanks stand in front of
it. -/
def Written (spelling word : List Char) : Prop :=
  ∃ blanks : List Char,
    (∀ character ∈ blanks, isBlank character = true) ∧
      blanks ++ spelling = word

/-- A spelling that starts with a character that is not blank. -/
def Visible (spelling : List Char) : Prop :=
  ∃ first ∈ spelling.head?, isBlank first = false

/-- The first character of a text that is not blank. -/
def first? (text : List Char) : Option Char :=
  (skipBlanks text).head?

theorem skipBlanks_append_of_isBlank
    {blanks : List Char}
    (blank : ∀ character ∈ blanks, isBlank character = true)
    (text : List Char) :
    skipBlanks (blanks ++ text) = skipBlanks text :=
  List.dropWhile_append_of_pos blank

/-- A spelling that starts visibly stays where blanks are skipped. -/
theorem Visible.skipBlanks_append
    {spelling : List Char}
    (visible : Visible spelling)
    (rest : List Char) :
    skipBlanks (spelling ++ rest) = spelling ++ rest := by
  obtain ⟨first, isFirst, notBlank⟩ := visible
  cases spelling with
  | nil => simp at isFirst
  | cons character spelling =>
      simp only [List.head?_cons, Option.mem_some_iff] at isFirst
      exact skipBlanks_cons_of_not_isBlank _ (isFirst ▸ notBlank)

theorem written_self (spelling : List Char) : Written spelling spelling :=
  ⟨[], by simp, rfl⟩

/-- A spelling may be written behind a space. -/
theorem written_behind_space (spelling : List Char) :
    Written spelling (' ' :: spelling) := by
  have blank : isBlank ' ' = true := by decide
  exact ⟨[' '], List.forall_mem_singleton.mpr blank, rfl⟩

/-- The blanks in front of a spelling stand in front of its first part. -/
theorem Written.exists_front
    {first second word : List Char}
    (written : Written (first ++ second) word) :
    ∃ front, Written first front ∧ front ++ second = word := by
  obtain ⟨blanks, blank, rfl⟩ := written
  exact ⟨blanks ++ first, ⟨blanks, blank, rfl⟩, List.append_assoc _ _ _⟩

/-- A token stands behind the blanks of the text that starts with its word. -/
theorem Written.skipBlanks_append
    {spelling word : List Char}
    (written : Written spelling word)
    (visible : Visible spelling)
    (rest : List Char) :
    skipBlanks (word ++ rest) = spelling ++ rest := by
  obtain ⟨blanks, blank, rfl⟩ := written
  rw [List.append_assoc, skipBlanks_append_of_isBlank blank,
    visible.skipBlanks_append]

/-- A written spelling shows its own first character. -/
theorem Written.first?_append
    {spelling word : List Char}
    (written : Written spelling word)
    (visible : Visible spelling)
    (rest : List Char) :
    first? (word ++ rest) = spelling.head? := by
  rw [first?, written.skipBlanks_append visible]
  obtain ⟨first, isFirst, -⟩ := visible
  cases spelling with
  | nil => simp at isFirst
  | cons character spelling => rfl

theorem first?_cons_of_isAlphanum
    {character : Char}
    (alphanumeric : character.isAlphanum = true)
    (text : List Char) :
    first? (character :: text) = some character := by
  rw [first?, skipBlanks_cons_of_not_isBlank text
    (isBlank_eq_false_of_isAlphanum alphanumeric)]
  rfl

/-- What stands behind the blanks of a text is a token with its word. -/
theorem exists_written
    {spelling text rest : List Char}
    (split : spelling ++ rest = skipBlanks text) :
    ∃ word, Written spelling word ∧ word ++ rest = text := by
  refine ⟨text.takeWhile isBlank ++ spelling,
    ⟨text.takeWhile isBlank, fun character => List.mem_takeWhile_imp, rfl⟩, ?_⟩
  rw [List.append_assoc, split, skipBlanks, List.takeWhile_append_dropWhile]

/-- What blanks and the first character behind them have in common holds of the
first character of a text. -/
theorem forall_head?_of_first?
    {property : Char → Prop}
    {text : List Char}
    (blank : ∀ character, isBlank character = true → property character)
    (first : ∀ character ∈ first? text, property character) :
    ∀ character ∈ text.head?, property character := by
  intro character isHead
  cases text with
  | nil => simp at isHead
  | cons head text =>
      simp only [List.head?_cons, Option.mem_some_iff] at isHead
      subst isHead
      rcases kind : isBlank head with _ | _
      · exact first head (by
          rw [first?, skipBlanks_cons_of_not_isBlank text kind]
          rfl)
      · exact blank head kind

/-! ## Characters and words -/

/-- A text with a first character is not at its end. -/
theorem atEnd_eq_false
    {text : List Char}
    {first : Char}
    (isFirst : first? text = some first) :
    atEnd text = false := by
  rw [atEnd]
  cases start : skipBlanks text with
  | nil => simp [first?, start] at isFirst
  | cons first rest => rfl

/-- A character is not found where another one stands. -/
theorem character_eq_none
    {expected : Char}
    {text : List Char}
    (different : first? text ≠ some expected) :
    character expected text = none := by
  rcases found : character expected text with _ | ⟨value, rest⟩
  · rfl
  · have start := character_eq_some_iff.mp found
    simp [first?, ← start] at different

/-- A word is not found where another first character stands. -/
theorem literal_eq_none
    {word : String}
    {text : List Char}
    (different : first? text ≠ word.toList.head?) :
    literal word text = none := by
  rcases found : literal word text with _ | ⟨value, rest⟩
  · rfl
  · obtain ⟨nonempty, start⟩ := literal_eq_some_iff.mp found
    refine absurd ?_ different
    rw [first?, ← start, List.head?_append_of_ne_nil _ nonempty]

/-- The spelling of the value that is read stands behind the blanks. -/
theorem split_of_anyOf
    {spelling : α → String}
    {values : List α}
    {text rest : List Char}
    {value : α}
    (read : anyOf spelling values text = some (value, rest)) :
    (spelling value).toList ++ rest = skipBlanks text :=
  (literal_eq_some_iff.mp (literal_of_anyOf read)).2

/-- A value is read when its spelling is found and that of no other value before
it is. -/
theorem anyOf_eq_some
    {spelling : α → String}
    {values : List α}
    {text rest : List Char}
    {value : α}
    (member : value ∈ values)
    (found : literal (spelling value) text = some ((), rest))
    (earlier : values.Pairwise fun other later =>
      later = value → literal (spelling other) text = none ∨ other = value) :
    anyOf spelling values text = some (value, rest) := by
  induction values with
  | nil => simp at member
  | cons first values valuesHypothesis =>
      rw [List.pairwise_cons] at earlier
      simp only [anyOf]
      rcases List.mem_cons.mp member with rfl | later
      · rw [found]
      · rcases earlier.1 value later rfl with missing | rfl
        · rw [missing]
          exact valuesHypothesis later earlier.2
        · rw [found]

/-- None of several words is found where another first character stands. -/
theorem anyOf_eq_none
    {spelling : α → String}
    {values : List α}
    {text : List Char}
    (different : ∀ value ∈ values, first? text ≠ (spelling value).toList.head?) :
    anyOf spelling values text = none := by
  rcases found : anyOf spelling values text with _ | ⟨value, rest⟩
  · rfl
  · have start := literal_of_anyOf found
    rw [literal_eq_none (different value (mem_of_anyOf found))] at start
    simp at start

/-- One of several values is read when the spelling of one of them is found. -/
theorem anyOf_ne_none
    {spelling : α → String}
    {values : List α}
    {value : α}
    {text rest : List Char}
    (member : value ∈ values)
    (found : literal (spelling value) text = some ((), rest)) :
    anyOf spelling values text ≠ none := by
  induction values with
  | nil => exact nomatch member
  | cons first values valuesHypothesis =>
      rcases start : literal (spelling first) text with _ | ⟨_, behind⟩
      · rcases List.mem_cons.mp member with rfl | later
        · exact absurd (start.symm.trans found) nofun
        · simpa only [anyOf, start] using valuesHypothesis later
      · simp [anyOf, start]

/-- Two spellings found at the front of one text are such that one starts with
the other. -/
theorem front_or_front_of_literal
    {first second : String}
    {text rest rest' : List Char}
    (firstFound : literal first text = some ((), rest))
    (secondFound : literal second text = some ((), rest')) :
    first.toList <+: second.toList ∨ second.toList <+: first.toList := by
  have firstSplit := (literal_eq_some_iff.mp firstFound).2
  have secondSplit := (literal_eq_some_iff.mp secondFound).2
  exact List.prefix_or_prefix_of_prefix ⟨rest, firstSplit⟩ ⟨rest', secondSplit⟩

/-- Among values of which no spelling starts with another one, the one whose
spelling is found is read. -/
theorem anyOf_eq_some_of_distinct
    {spelling : α → String}
    {values : List α}
    {text rest : List Char}
    {value : α}
    (distinct : values.Pairwise fun first second =>
      ¬ (spelling first).toList <+: (spelling second).toList ∧
        ¬ (spelling second).toList <+: (spelling first).toList)
    (member : value ∈ values)
    (found : literal (spelling value) text = some ((), rest)) :
    anyOf spelling values text = some (value, rest) := by
  refine anyOf_eq_some member found (distinct.imp ?_)
  rintro other _ apart rfl
  rcases otherFound : literal (spelling other) text with _ | ⟨value, rest'⟩
  · exact .inl rfl
  · rcases front_or_front_of_literal otherFound found with before | before
    · exact absurd before apart.1
    · exact absurd before apart.2

/-- A written spelling that starts visibly takes room. -/
theorem Written.length_pos
    {spelling word : List Char}
    (written : Written spelling word)
    (visible : Visible spelling) :
    0 < word.length := by
  obtain ⟨blanks, -, rfl⟩ := written
  obtain ⟨first, isFirst, -⟩ := visible
  cases spelling with
  | nil => simp at isFirst
  | cons character spelling =>
      simp only [List.length_append, List.length_cons]
      omega

/-- A character is found where it is written. -/
theorem Written.character_append
    {expected : Char}
    {word : List Char}
    (written : Written [expected] word)
    (notBlank : isBlank expected = false)
    (rest : List Char) :
    character expected (word ++ rest) = some ((), rest) := by
  rw [character_eq_some_iff,
    written.skipBlanks_append ⟨expected, rfl, notBlank⟩]
  rfl

/-- A word is found where it is written. -/
theorem Written.literal_append
    {spelling : String}
    {word : List Char}
    (written : Written spelling.toList word)
    (visible : Visible spelling.toList)
    (rest : List Char) :
    literal spelling (word ++ rest) = some ((), rest) := by
  rw [literal_eq_some_iff, written.skipBlanks_append visible]
  refine ⟨?_, rfl⟩
  obtain ⟨first, isFirst, -⟩ := visible
  rintro empty
  simp [empty] at isFirst

/-! ## Names -/

/-- A text that does not start with a character of a given kind. -/
def Stops (kind : Char → Bool) (text : List Char) : Prop :=
  ∀ first ∈ text.head?, kind first = false

/-- Characters of a kind in front are found in front of a text that does not
carry them on. -/
theorem takeWhile_before_stop
    {kind : Char → Bool}
    {rest : List Char}
    (stops : Stops kind rest)
    (text : List Char) :
    (text ++ rest).takeWhile kind = text.takeWhile kind := by
  have nothing : rest.takeWhile kind = [] := by
    cases rest with
    | nil => rfl
    | cons first rest => simp [stops first rfl]
  rw [List.takeWhile_append, nothing, List.append_nil]
  split
  · next whole =>
      exact ((List.takeWhile_prefix kind).eq_of_length whole).symm
  · rfl

/-- Characters of a kind are dropped from the part in front of a stop alone. -/
theorem dropWhile_before_stop
    {kind : Char → Bool}
    {rest : List Char}
    (stops : Stops kind rest)
    (text : List Char) :
    (text ++ rest).dropWhile kind = text.dropWhile kind ++ rest := by
  have everything : rest.dropWhile kind = rest := by
    cases rest with
    | nil => rfl
    | cons first rest => simp [stops first rfl]
  rw [List.dropWhile_append, everything]
  split
  · next whole => simp [List.isEmpty_iff.mp whole]
  · rfl

/-- Characters of a kind are taken up to a stop. -/
theorem takeWhile_append_of_stops
    {kind : Char → Bool}
    {front rest : List Char}
    (all : ∀ character ∈ front, kind character = true)
    (stops : Stops kind rest) :
    (front ++ rest).takeWhile kind = front := by
  rw [takeWhile_before_stop stops, List.takeWhile_eq_self_iff.mpr all]

theorem dropWhile_append_of_stops
    {kind : Char → Bool}
    {front rest : List Char}
    (all : ∀ character ∈ front, kind character = true)
    (stops : Stops kind rest) :
    (front ++ rest).dropWhile kind = rest := by
  rw [dropWhile_before_stop stops, List.dropWhile_eq_nil_iff.mpr all,
    List.nil_append]

/-- Where all characters of a kind are dropped, they stop. -/
theorem stops_dropWhile (kind : Char → Bool) (text : List Char) :
    Stops kind (text.dropWhile kind) := by
  intro first isFirst
  induction text with
  | nil => simp at isFirst
  | cons character text textHypothesis =>
      rw [List.dropWhile_cons] at isFirst
      split at isFirst
      · exact textHypothesis isFirst
      · next other =>
          simp only [List.head?_cons, Option.mem_some_iff] at isFirst
          simpa [isFirst] using other

/-- No letter or digit stands in front of a text with blanks or another
character in front. -/
theorem stops_of_first?
    {text : List Char}
    (first : ∀ character ∈ first? text, character.isAlphanum = false) :
    Stops Char.isAlphanum text := by
  refine forall_head?_of_first? ?_ first
  intro character blank
  by_contra alphanumeric
  have notBlank := isBlank_eq_false_of_isAlphanum (by simpa using alphanumeric)
  simp [blank] at notBlank

/-- A written spelling that starts with a symbol stops the characters of a
word. -/
theorem Written.stops
    {spelling word : List Char}
    (written : Written spelling word)
    (visible : Visible spelling)
    (other : ∃ first ∈ spelling.head?, first.isAlphanum = false)
    (rest : List Char) :
    Stops Char.isAlphanum (word ++ rest) := by
  obtain ⟨first, isFirst, notAlphanumeric⟩ := other
  apply stops_of_first?
  intro character isCharacter
  rw [written.first?_append visible] at isCharacter
  exact Option.mem_unique isFirst isCharacter ▸ notAlphanumeric

/-- An identifier starts with a letter. -/
theorem IsIdentifier.exists_first
    {name : List Char}
    (isIdentifier : IsIdentifier name) :
    ∃ first ∈ name.head?, first.isAlpha = true := by
  cases name with
  | nil => exact isIdentifier.elim
  | cons first rest => exact ⟨first, rfl, isIdentifier.1⟩

theorem IsIdentifier.isAlphanum
    {name : List Char}
    (isIdentifier : IsIdentifier name)
    {character : Char}
    (member : character ∈ name) :
    character.isAlphanum = true := by
  cases name with
  | nil => simp at member
  | cons first rest =>
      rcases List.mem_cons.mp member with rfl | later
      · exact isAlphanum_iff.mpr (.inl isIdentifier.1)
      · exact isIdentifier.2 character later

theorem IsIdentifier.visible
    {name : List Char}
    (isIdentifier : IsIdentifier name) :
    Visible name := by
  obtain ⟨first, isFirst, alpha⟩ := isIdentifier.exists_first
  exact ⟨first, isFirst,
    isBlank_eq_false_of_isAlphanum (isAlphanum_iff.mpr (.inl alpha))⟩

theorem IsIdentifier.ne_nil
    {name : List Char}
    (isIdentifier : IsIdentifier name) :
    name ≠ [] := by
  rintro rfl
  exact isIdentifier

/-- The name that is read is the longest one in front. -/
theorem identifier_eq_some_iff
    {name : String}
    {text rest : List Char} :
    identifier text = some (name, rest) ↔
      IsIdentifier name.toList ∧ Stops Char.isAlphanum rest ∧
        name.toList ++ rest = skipBlanks text := by
  simp only [identifier]
  split
  · next nothing =>
      rw [nothing]
      constructor
      · intro read
        simp at read
      · rintro ⟨isIdentifier, -, split⟩
        exact absurd (List.append_eq_nil_iff.mp split).1 isIdentifier.ne_nil
  · next first after start =>
      rw [start]
      constructor
      · intro read
        split at read
        · next alpha =>
            simp only [Option.some.injEq, Prod.mk.injEq] at read
            obtain ⟨rfl, rfl⟩ := read
            rw [String.toList_ofList]
            refine ⟨⟨alpha, fun character => List.mem_takeWhile_imp⟩,
              stops_dropWhile _ _, ?_⟩
            rw [List.cons_append, List.takeWhile_append_dropWhile]
        · simp at read
      · rintro ⟨isIdentifier, stops, split⟩
        have all := fun character => @isIdentifier.isAlphanum _ character
        rcases spelling : name.toList with _ | ⟨character, characters⟩
        · simp [spelling, IsIdentifier] at isIdentifier
        · rw [spelling] at isIdentifier split all
          simp only [List.cons_append, List.cons.injEq] at split
          obtain ⟨rfl, rfl⟩ := split
          have tail : ∀ next ∈ characters, next.isAlphanum = true :=
            isIdentifier.2
          rw [if_pos isIdentifier.1, takeWhile_append_of_stops tail stops,
            dropWhile_append_of_stops tail stops, ← spelling,
            String.ofList_toList]

/-- No identifier is read where no letter stands. -/
theorem identifier_eq_none
    {text : List Char}
    (different : ∀ first ∈ first? text, first.isAlpha = false) :
    identifier text = none := by
  rcases found : identifier text with _ | ⟨name, rest⟩
  · rfl
  · obtain ⟨isIdentifier, -, split⟩ := identifier_eq_some_iff.mp found
    obtain ⟨first, isFirst, alpha⟩ := isIdentifier.exists_first
    have here := different first
    rw [first?, ← split, List.head?_append_of_ne_nil _ isIdentifier.ne_nil] at here
    simp [here isFirst] at alpha

end Token

end LineCalculator
