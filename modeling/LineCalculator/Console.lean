import LineCalculator.Console.Arguments
import LineCalculator.Console.Dialogue

/-!
# Runs of the program

A run is determined by the arguments, the bytes of the standard input and the
files of the working directory. This module computes what it writes and its exit
code.

The files lie in one directory, and a path is looked up component by component:
empty components and `.` stay where they are. The directories outside are known
to exist and nothing else. A directory can be opened like a file, but its lines
cannot be read.
-/

namespace LineCalculator

namespace Console

/-- Why a file cannot be opened. -/
inductive OpenError
  | noSuchFile
  | notDirectory
  | other (message : String)
  deriving DecidableEq

namespace OpenError

/-- The report of an error in opening. -/
def message : OpenError → String
  | .noSuchFile => "No such file or directory (os error 2)"
  | .notDirectory => "Not a directory (os error 20)"
  | .other message => message

end OpenError

/-- The names and bytes of the files of a directory. -/
structure Directory where
  files : List (String × List UInt8)

namespace Directory

/-- What a path leads to. -/
inductive Place
  | here
  | outside
  | file (content : List UInt8)

/-- The bytes of the file of a name. -/
def file? (directory : Directory) (name : String) : Option (List UInt8) :=
  (directory.files.find? fun file => file.1 = name).map Prod.snd

/-- Go to a component of a path. -/
def enter
    (directory : Directory)
    (component : String) : Place → Except OpenError Place
  | .file _ => .error .notDirectory
  | .outside =>
      if component = "" ∨ component = "." ∨ component = ".." then .ok .outside
      else .error .noSuchFile
  | .here =>
      if component = "" ∨ component = "." then .ok .here
      else if component = ".." then .ok .outside
      else
        match directory.file? component with
        | some content => .ok (.file content)
        | none => .error .noSuchFile

/-- The components of a path between its slashes. -/
def components : List Char → List String
  | [] => [""]
  | character :: path =>
      if character = '/' then "" :: components path
      else
        match components path with
        | [] => [String.singleton character]
        | component :: others =>
            (String.singleton character ++ component) :: others

/-- What a path leads to. An absolute path starts outside. -/
def find (directory : Directory) (path : String) : Except OpenError Place :=
  let start := if path.startsWith "/" then Place.outside else Place.here
  (components path.toList).foldlM
    (fun place component => directory.enter component place) start

end Directory

namespace Options

/-- The mode that the options select. Showing trees matters in interactive mode
only. -/
def mode (options : Options) : Mode :=
  if options.interactive then .interactive options.tree else .batch

end Options

/-- A dialogue with the lines of an input. -/
def converse (mode : Mode) (input : List UInt8) : Transcript :=
  (Dialogue.hearAll ⟨mode, .fresh⟩ (lines input)).after mode.opening

/-- A calculation with the options given. -/
def calculate
    (options : Options)
    (input : List UInt8)
    (directory : Directory) : Transcript :=
  match options.file with
  | none => converse options.mode input
  | some path =>
      match directory.find path with
      | .error error => .failure (path ++ ": " ++ error.message)
      | .ok (.file content) => converse options.mode content
      | .ok _ =>
          (Transcript.failure ReadError.isDirectory.message).after
            options.mode.opening

/-- The run for a request. -/
def respond
    (request : Request)
    (input : List UInt8)
    (directory : Directory) : Transcript :=
  match request with
  | .showVersion => .success versionText
  | .showHelp => .success helpText
  | .refuse misuse => ⟨2, "", misuse.message⟩
  | .calculate options => calculate options input directory

/-- The run for a list of arguments. -/
def run
    (arguments : List String)
    (input : List UInt8)
    (directory : Directory) : Transcript :=
  respond (Request.ofArguments arguments) input directory

end Console

end LineCalculator
