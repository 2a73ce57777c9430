import LineCalculator.Console

/-!
# The program

The outer layer of the program: it reads lines, writes what the dialogue says
and returns the exit code.
-/

namespace LineCalculator

namespace Console

/-- Read the bytes of one line and of its end. -/
partial def readRawLine
    (input : IO.FS.Stream)
    (reversed : List UInt8) : IO (List UInt8) := do
  let bytes ← input.read 1
  match bytes.toList with
  | [] => pure reversed.reverse
  | byte :: _ =>
      if byte = lineFeed then pure (byte :: reversed).reverse
      else readRawLine input (byte :: reversed)

/-- Write what is left of a run and give its exit code. -/
def conclude (transcript : Transcript) : IO UInt32 := do
  let output ← IO.getStdout
  output.putStr transcript.output
  output.flush
  let errors ← IO.getStderr
  errors.putStr transcript.errors
  pure (UInt32.ofNat transcript.code)

/-- The report of an error while lines are read. -/
def readErrorMessage : IO.Error → String
  | .inappropriateType .. => ReadError.isDirectory.message
  | error => toString error

/-- Hear lines from an input until the dialogue ends. -/
partial def listen (input : IO.FS.Stream) (dialogue : Dialogue) : IO UInt32 := do
  match ← (readRawLine input []).toBaseIO with
  | .error error => conclude (.failure (readErrorMessage error))
  | .ok [] => conclude dialogue.finish
  | .ok line =>
      match dialogue.hear (lineContent line) with
      | .last transcript => conclude transcript
      | .next text dialogue =>
          let output ← IO.getStdout
          output.putStr text
          output.flush
          listen input dialogue

/-- Write the opening of a mode and start its dialogue. -/
def openDialogue (mode : Mode) (input : IO.FS.Stream) : IO UInt32 := do
  let output ← IO.getStdout
  output.putStr mode.opening
  output.flush
  listen input ⟨mode, .fresh⟩

/-- Why a file cannot be opened, as the system tells it. -/
def openErrorOf : IO.Error → OpenError
  | .noFileOrDirectory .. => .noSuchFile
  | .inappropriateType .. => .notDirectory
  | error => .other (toString error)

end Console

end LineCalculator

open LineCalculator.Console in
/-- Run the program with the arguments of its command line. -/
def main (arguments : List String) : IO UInt32 := do
  match Request.ofArguments arguments with
  | .calculate options =>
      match options.file with
      | none => openDialogue options.mode (← IO.getStdin)
      | some path =>
          match ← (IO.FS.Handle.mk path .read).toBaseIO with
          | .error error =>
              conclude (.failure (path ++ ": " ++ (openErrorOf error).message))
          | .ok handle => openDialogue options.mode (.ofHandle handle)
  | request => conclude (respond request [] ⟨[]⟩)
