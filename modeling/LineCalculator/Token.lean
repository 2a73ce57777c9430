import LineCalculator.Number

/-!
# Tokens

A reader takes one token from the front of a text and gives it with the text
that remains. Every reader skips the blanks in front of its token, which are the
characters with the Unicode property White_Space. A reader that finds no token
gives nothing, so that the text can be tried again from its front.
-/

namespace LineCalculator

/-- First and last code points of the ranges that make up White_Space. -/
def blankRanges : List (Nat × Nat) :=
  [(0x0009, 0x000D), (0x0020, 0x0020), (0x0085, 0x0085), (0x00A0, 0x00A0),
   (0x1680, 0x1680), (0x2000, 0x200A), (0x2028, 0x2029), (0x202F, 0x202F),
   (0x205F, 0x205F), (0x3000, 0x3000)]

/-- A character is blank when its code point lies in one of the ranges. -/
def isBlank (character : Char) : Bool :=
  blankRanges.any fun (first, last) =>
    first ≤ character.toNat && character.toNat ≤ last

/-- The text from its first character that is not blank. -/
def skipBlanks (text : List Char) : List Char :=
  text.dropWhile isBlank

@[simp] theorem skipBlanks_nil : skipBlanks [] = [] := rfl

/-- Blanks in front of a text do not change what remains. -/
theorem skipBlanks_cons_of_isBlank
    {character : Char}
    (text : List Char)
    (blank : isBlank character = true) :
    skipBlanks (character :: text) = skipBlanks text := by
  simp [skipBlanks, blank]

/-- A text that starts with another character is left alone. -/
theorem skipBlanks_cons_of_not_isBlank
    {character : Char}
    (text : List Char)
    (notBlank : isBlank character = false) :
    skipBlanks (character :: text) = character :: text := by
  simp [skipBlanks, notBlank]

/-- Skipping removes a leading part of the text and nothing else. -/
theorem skipBlanks_suffix (text : List Char) : skipBlanks text <:+ text :=
  List.dropWhile_suffix isBlank

namespace Token

/-- A reader of one token. -/
abbrev Reader (α : Type) := List Char → Option (α × List Char)

/-- A name is an ASCII letter and the ASCII letters and digits after it. -/
def IsIdentifier : List Char → Prop
  | [] => False
  | first :: rest =>
      first.isAlpha = true ∧ ∀ character ∈ rest, character.isAlphanum = true

instance : DecidablePred IsIdentifier
  | [] => .isFalse id
  | first :: rest => decidable_of_iff
      (first.isAlpha = true ∧ rest.all Char.isAlphanum = true)
      (by simp [IsIdentifier])

/-- Whether nothing but blanks remains. -/
def atEnd (text : List Char) : Bool :=
  (skipBlanks text).isEmpty

/-- Read the longest numeral and take the number it denotes. -/
def number : Reader Float := fun text =>
  (Numeral.read? (skipBlanks text)).map fun (numeral, rest) =>
    (numeral.toFloat, rest)

/-- Read the longest name. -/
def identifier : Reader String := fun text =>
  match skipBlanks text with
  | [] => none
  | first :: rest =>
      if first.isAlpha then
        some (String.ofList (first :: rest.takeWhile Char.isAlphanum),
          rest.dropWhile Char.isAlphanum)
      else none

/-- Read one given character. -/
def character (expected : Char) : Reader Unit := fun text =>
  match skipBlanks text with
  | [] => none
  | first :: rest => if first = expected then some ((), rest) else none

/-- Read a given word, which may stand directly before a letter or digit. An
empty word is never found. -/
def literal (word : String) : Reader Unit := fun text =>
  if word.isEmpty then none
  else
    (word.toList.isPrefixOf? (skipBlanks text)).map fun rest => ((), rest)

/-- Read the spelling of one of several values and give the first value whose
spelling is found. -/
def anyOf (spelling : α → String) : List α → Reader α
  | [], _ => none
  | value :: values, text =>
      match literal (spelling value) text with
      | some (_, rest) => some (value, rest)
      | none => anyOf spelling values text

end Token

end LineCalculator
