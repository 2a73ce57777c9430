/-!
# Command line arguments

    calc_interp [-i | --interactive] [-t | --tree] [FILE]
    calc_interp -V | --version
    calc_interp -h | --help

Arguments are taken from left to right, and the first one that asks for the
version or for help, or that is not understood, settles the request. Letters
can be joined (`-it`), `--` makes the arguments after it files, and `-` alone
is a file of that name.
-/

namespace LineCalculator

namespace Console

/-- How statements are read and answered. -/
structure Options where
  file : Option String
  interactive : Bool
  tree : Bool
  deriving DecidableEq

/-- Why arguments are not understood. -/
inductive Misuse
  | unexpectedArgument (text : String)
  | repeatedOption (name : String)
  | unexpectedValue (name value : String)
  | emptyFile
  deriving DecidableEq

/-- What the arguments ask for. -/
inductive Request
  | calculate (options : Options)
  | showVersion
  | showHelp
  | refuse (misuse : Misuse)
  deriving DecidableEq

/-- The options that take no value. -/
inductive Flag
  | interactive
  | tree
  | version
  | help
  deriving DecidableEq

namespace Flag

/-- All flags. -/
def all : List Flag :=
  [interactive, tree, version, help]

/-- The letter of a flag. -/
def letter : Flag → Char
  | .interactive => 'i'
  | .tree => 't'
  | .version => 'V'
  | .help => 'h'

/-- The word of a flag. -/
def word : Flag → String
  | .interactive => "interactive"
  | .tree => "tree"
  | .version => "version"
  | .help => "help"

end Flag

namespace Options

/-- The options before any argument. -/
def default : Options :=
  ⟨none, false, false⟩

/-- Take a flag into the options, unless it settles the request. -/
def takeFlag (options : Options) : Flag → Except Request Options
  | .interactive =>
      if options.interactive then
        .error (.refuse (.repeatedOption Flag.interactive.word))
      else .ok { options with interactive := true }
  | .tree =>
      if options.tree then .error (.refuse (.repeatedOption Flag.tree.word))
      else .ok { options with tree := true }
  | .version => .error .showVersion
  | .help => .error .showHelp

/-- Take a file into the options. There is at most one, and it has a name. -/
def takeFile (options : Options) (file : String) : Except Request Options :=
  if options.file.isSome then .error (.refuse (.unexpectedArgument file))
  else if file.isEmpty then .error (.refuse .emptyFile)
  else .ok { options with file := some file }

/-- Take a letter of an argument such as `-it`. -/
def takeLetter (options : Options) (letter : Char) : Except Request Options :=
  match Flag.all.find? fun flag => flag.letter = letter with
  | some flag => options.takeFlag flag
  | none =>
      .error (.refuse (.unexpectedArgument (String.ofList ['-', letter])))

/-- Take the word of an argument such as `--tree`. No flag has a value behind
an equals sign. -/
def takeWord (options : Options) (text : List Char) : Except Request Options :=
  let word := String.ofList (text.takeWhile (· ≠ '='))
  match Flag.all.find? fun flag => flag.word = word with
  | some flag =>
      match text.dropWhile (· ≠ '=') with
      | [] => options.takeFlag flag
      | _ :: value =>
          .error (.refuse (.unexpectedValue word (String.ofList value)))
  | none => .error (.refuse (.unexpectedArgument ("--" ++ word)))

/-- Take one argument in front of `--`. -/
def takeArgument
    (options : Options)
    (argument : String) : Except Request Options :=
  match argument.toList with
  | ['-'] => options.takeFile argument
  | '-' :: '-' :: word => options.takeWord word
  | '-' :: letters => letters.foldlM takeLetter options
  | _ => options.takeFile argument

/-- Take all arguments. -/
def takeArguments
    (options : Options) : List String → Except Request Options
  | [] => .ok options
  | argument :: arguments =>
      if argument = "--" then arguments.foldlM takeFile options
      else do
        let options ← options.takeArgument argument
        options.takeArguments arguments

end Options

namespace Request

/-- What the arguments of a command line ask for. -/
def ofArguments (arguments : List String) : Request :=
  match Options.default.takeArguments arguments with
  | .ok options => .calculate options
  | .error request => request

end Request

/-- The name and version of the program. -/
def versionText : String :=
  "calc_interp 0.1.0\n"

/-- The form of a command line. -/
def usageText : String :=
  "Usage: calc_interp [OPTIONS] [FILE]\n"

/-- What the program does and the arguments it takes. -/
def helpText : String :=
  "Evaluate assignment and calculation statements\n\n" ++ usageText ++ "\n" ++
  "Arguments:\n" ++
  "  [FILE]  Read statements from this file instead of stdin\n\n" ++
  "Options:\n" ++
  "  -i, --interactive  Evaluate each statement as soon as it is read and " ++
  "print its value\n" ++
  "  -t, --tree         With --interactive, also print the parsed expression " ++
  "tree\n" ++
  "  -h, --help         Print help\n" ++
  "  -V, --version      Print version\n"

namespace Misuse

/-- What is wrong with an argument. -/
def reason : Misuse → String
  | .unexpectedArgument text => "unexpected argument '" ++ text ++ "' found"
  | .repeatedOption name =>
      "the argument '--" ++ name ++ "' cannot be used multiple times"
  | .unexpectedValue name value =>
      "unexpected value '" ++ value ++ "' for '--" ++ name ++
        "' found; no more were expected"
  | .emptyFile => "a value is required for '[FILE]' but none was supplied"

/-- The report of arguments that are not understood. -/
def message (misuse : Misuse) : String :=
  "error: " ++ misuse.reason ++ "\n\n" ++ usageText ++
  "\nFor more information, try '--help'.\n"

end Misuse

end Console

end LineCalculator
