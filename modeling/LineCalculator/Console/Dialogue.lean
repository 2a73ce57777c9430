import LineCalculator.Session

/-!
# Dialogues

Input is bytes. A line ends at a line feed, and one carriage return directly in
front of the line feed belongs to the end of the line. The last line may have no
line feed, and then a carriage return is part of it. A line is a statement when
its bytes are UTF-8.

A dialogue hears one line after another until the first empty line or the end
of the input, and then shows the variables. In batch mode the statements wait
until then. In interactive mode every statement is answered at once. A line
that is no text ends the dialogue with an error.
-/

namespace LineCalculator

namespace Console

/-- The byte that ends a line. -/
def lineFeed : UInt8 := 0x0A

/-- The byte that may stand in front of a line feed. -/
def carriageReturn : UInt8 := 0x0D

/-- The lines of an input, each with the bytes that end it. -/
def rawLines : List UInt8 → List (List UInt8)
  | [] => []
  | byte :: bytes =>
      if byte = lineFeed then [byte] :: rawLines bytes
      else
        match rawLines bytes with
        | [] => [[byte]]
        | line :: lines => (byte :: line) :: lines

/-- A line without the bytes that end it. -/
def lineContent : List UInt8 → List UInt8
  | [] => []
  | [byte] => if byte = lineFeed then [] else [byte]
  | byte :: next :: bytes =>
      if byte = carriageReturn ∧ next = lineFeed ∧ bytes = [] then []
      else byte :: lineContent (next :: bytes)

/-- The lines of an input without the bytes that end them. -/
def lines (input : List UInt8) : List (List UInt8) :=
  (rawLines input).map lineContent

/-- The text of a line, when its bytes are UTF-8. -/
def decodeLine? (line : List UInt8) : Option String :=
  String.fromUTF8? ⟨line.toArray⟩

/-- Why no more lines can be read. -/
inductive ReadError
  | isDirectory
  | invalidText
  deriving DecidableEq

namespace ReadError

/-- The report of an error in reading. -/
def message : ReadError → String
  | .isDirectory => "Is a directory (os error 21)"
  | .invalidText => "stream did not contain valid UTF-8"

end ReadError

/-- What a run of the program leaves behind: its exit code and what it wrote to
both outputs. -/
structure Transcript where
  code : Nat
  output : String
  errors : String
  deriving DecidableEq

namespace Transcript

/-- A run that ends well. -/
def success (output : String) : Transcript :=
  ⟨0, output, ""⟩

/-- A run that ends with a report of what went wrong. -/
def failure (message : String) : Transcript :=
  ⟨1, "", "Error: " ++ message ++ "\n"⟩

/-- The run with something written before. -/
def after (output : String) (transcript : Transcript) : Transcript :=
  { transcript with output := output ++ transcript.output }

end Transcript

/-- When statements are evaluated, and whether their trees are shown. -/
inductive Mode
  | batch
  | interactive (showTree : Bool)
  deriving DecidableEq

namespace Mode

/-- What is written before the first line is read. -/
def opening : Mode → String
  | .batch => "Enter expressions: "
  | .interactive _ => "> "

end Mode

/-- A session in one of the modes. -/
structure Dialogue where
  mode : Mode
  session : Session

/-- How a dialogue goes on after a line. -/
inductive Turn
  | next (output : String) (dialogue : Dialogue)
  | last (transcript : Transcript)

namespace Dialogue

/-- The answer to a statement in interactive mode. -/
def answer
    (showTree : Bool)
    (session : Session)
    (statement : String) : String × Session :=
  match session.parse statement with
  | (none, session) =>
      ("Error, " ++ (StatementError.unparsable statement).message ++ "\n",
        session)
  | (some tree, session) =>
      let (value, session) := session.run tree
      ((if showTree then tree.text ++ "\n" else "") ++
        Number.text value ++ "\n", session)

/-- The end of a dialogue: the statements that wait are evaluated and the
variables shown. -/
def finish (dialogue : Dialogue) : Transcript :=
  let (_, session) := dialogue.session.evaluateAll
  .success (session.environment.text ++ "\n")

/-- Hear a statement. -/
def hearStatement (dialogue : Dialogue) (statement : String) : Turn :=
  match dialogue.mode with
  | .batch =>
      .next "" { dialogue with session := dialogue.session.submit statement }
  | .interactive showTree =>
      let (output, session) := answer showTree dialogue.session statement
      .next (output ++ dialogue.mode.opening) { dialogue with session }

/-- Hear a line. -/
def hear (dialogue : Dialogue) (line : List UInt8) : Turn :=
  if line.isEmpty then .last dialogue.finish
  else
    match decodeLine? line with
    | none => .last (.failure ReadError.invalidText.message)
    | some statement => dialogue.hearStatement statement

/-- Hear lines up to the first empty one. -/
def hearAll (dialogue : Dialogue) : List (List UInt8) → Transcript
  | [] => dialogue.finish
  | line :: lines =>
      match dialogue.hear line with
      | .next output dialogue => (dialogue.hearAll lines).after output
      | .last transcript => transcript

end Dialogue

end Console

end LineCalculator
