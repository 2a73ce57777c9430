import LineCalculator.Token

/-!
# Cursors

A cursor is a text and a position in it, counted in bytes of UTF-8. Reading
from a cursor that stands inside a character is an error and leaves it where it
is. A mark keeps the position of a cursor and can be given to a cursor on
another text, which is how a cursor comes to stand inside a character.
-/

namespace LineCalculator

/-- The number of bytes of a text in UTF-8. -/
def byteSize : List Char → Nat
  | [] => 0
  | character :: text => character.utf8Size + byteSize text

@[simp] theorem byteSize_nil : byteSize [] = 0 := rfl

@[simp] theorem byteSize_cons (character : Char) (text : List Char) :
    byteSize (character :: text) = character.utf8Size + byteSize text := rfl

/-- The text without its first bytes; `none` when the cut is past the end or
inside a character. -/
def dropBytes? : Nat → List Char → Option (List Char)
  | 0, text => some text
  | _ + 1, [] => none
  | count + 1, character :: text =>
      if character.utf8Size ≤ count + 1 then
        dropBytes? (count + 1 - character.utf8Size) text
      else none

/-- A text and a position in it. -/
structure Cursor where
  text : String
  position : Nat

namespace Cursor

/-- A kept position. -/
structure Mark where
  position : Nat

/-- Why a cursor cannot be read from. -/
inductive Error
  | insideCharacter
  deriving DecidableEq

/-- The cursor at the start of a text. -/
def start (text : String) : Cursor :=
  ⟨text, 0⟩

/-- The text that remains, when the cursor stands between characters. -/
def rest? (cursor : Cursor) : Option (List Char) :=
  dropBytes? cursor.position cursor.text.toList

/-- The position of a cursor, for later. -/
def mark (cursor : Cursor) : Mark :=
  ⟨cursor.position⟩

/-- Move to a mark, or to the end of the text when the mark lies beyond it. -/
def reset (cursor : Cursor) (mark : Mark) : Cursor :=
  { cursor with position := min mark.position cursor.text.utf8ByteSize }

/-- Read a token. The cursor moves behind it, and stays where it is when there
is none. -/
def read
    (reader : Token.Reader α)
    (cursor : Cursor) : Except Error (Option α) × Cursor :=
  match cursor.rest? with
  | none => (.error .insideCharacter, cursor)
  | some text =>
      match reader text with
      | none => (.ok none, cursor)
      | some (value, rest) =>
          let read := byteSize text - byteSize rest
          (.ok (some value), { cursor with position := cursor.position + read })

/-- Read the first of several words that is found. Without a word to look for
the text is not looked at. -/
def readAny
    (words : List String)
    (cursor : Cursor) : Except Error (Option String) × Cursor :=
  if words.isEmpty then (.ok none, cursor)
  else cursor.read (Token.anyOf id words)

/-- Whether nothing but blanks remains. -/
def atEnd (cursor : Cursor) : Except Error Bool :=
  match cursor.rest? with
  | none => .error .insideCharacter
  | some text => .ok (Token.atEnd text)

end Cursor

end LineCalculator
