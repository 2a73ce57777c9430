import LineCalculator.Cursor

/-!
# Several cursors

A bench holds cursors on several texts and the marks taken on them, in order.
Every action works on one cursor, and a reset may use the mark of another one.
-/

namespace LineCalculator

namespace Cursor

/-- Something to do with one cursor. -/
inductive Action
  | number
  | identifier
  | character (expected : Char)
  | literal (word : String)
  | anyOf (words : List String)
  | atEnd
  | position
  | mark
  | reset (slot : Nat)

/-- What an action answers. -/
inductive Answer
  | number (value : Option Float)
  | word (found : Option String)
  | truth (value : Bool)
  | count (value : Nat)
  | done
  | error (error : Error)

/-- Cursors and the marks taken on them. -/
structure Bench where
  cursors : List Cursor
  marks : List Mark

namespace Bench

/-- A cursor at the start of each text, and no marks. -/
def start (texts : List String) : Bench :=
  ⟨texts.map Cursor.start, []⟩

/-- The answer to reading, which may fail. -/
def answer (form : α → Answer) : Except Error α → Answer
  | .ok value => form value
  | .error error => .error error

/-- The answer of an action that only reads, with the cursor after it. -/
def readAnswer (cursor : Cursor) : Action → Option (Answer × Cursor)
  | .number =>
      let (value, cursor) := cursor.read Token.number
      some (answer .number value, cursor)
  | .identifier =>
      let (value, cursor) := cursor.read Token.identifier
      some (answer .word value, cursor)
  | .character expected =>
      let (found, cursor) := cursor.read (Token.character expected)
      some (answer (.truth ·.isSome) found, cursor)
  | .literal word =>
      let (found, cursor) := cursor.read (Token.literal word)
      some (answer (.truth ·.isSome) found, cursor)
  | .anyOf words =>
      let (found, cursor) := cursor.readAny words
      some (answer .word found, cursor)
  | .atEnd => some (answer .truth cursor.atEnd, cursor)
  | .position => some (.count cursor.position, cursor)
  | .mark => none
  | .reset _ => none

/-- Do something with the cursor of an index. There is no answer when there is
no such cursor or no such mark. -/
def act
    (bench : Bench)
    (index : Nat)
    (action : Action) : Option (Answer × Bench) := do
  let cursor ← bench.cursors[index]?
  match action with
  | .mark =>
      pure (.count bench.marks.length,
        { bench with marks := bench.marks ++ [cursor.mark] })
  | .reset slot =>
      let mark ← bench.marks[slot]?
      pure (.done,
        { bench with cursors := bench.cursors.set index (cursor.reset mark) })
  | action =>
      let (answer, cursor) ← readAnswer cursor action
      pure (answer, { bench with cursors := bench.cursors.set index cursor })

end Bench

end Cursor

end LineCalculator
