import TreeCheck.Command
import TreeCheck.CommandLine.Arguments

namespace TreeCheck.CommandLine

def programName : String := "minilang-analyze"

def help : String :=
  programName ++ "\n\nUsage:\n  $ " ++ programName ++ " <command> [options]\n\nCommands:\n" ++
    "  analyze <file>  Check an AST JSON file and print its usage metrics\n\n" ++
    "For more info, run any command with the `--help` flag:\n" ++
    "  $ " ++ programName ++ " analyze --help\n\nOptions:\n  -h, --help  Display this message \n"

def analyzeHelp : String :=
  programName ++ "\n\nUsage:\n  $ " ++ programName ++ " analyze <file>\n\nOptions:\n" ++
    "  --json      Print metrics as a JSON object \n  -h, --help  Display this message \n"

/-- What a command line asks for. -/
inductive Request where
  | nothing
  | show (text : Text)
  | misuse (misuse : Misuse)
  | analyze (file : Argument) (json : Bool)
deriving DecidableEq, Repr

def helpNames : List Text := ["h", "help"]

/-- The options that the command understands; a double dash never counts as one. -/
def knownNames : List Text := "json" :: "--" :: helpNames

/-- The plain words and the options of a command line. -/
def read (flags words : List Text) : Except Misuse (Option (List Argument) × Options) := do
  let a ← Arguments.parse flags helpNames words
  return (a.words, ← Options.ofValues a.options)

/-- The request of the words after the name of the command. Help comes before everything, and an
unknown option is found before a missing file. -/
def analyzeRequest (rest : List Argument) (options : Options) : Request :=
  if options.isSet "help" then .show analyzeHelp
  else match options.unknown? knownNames with
    | some name => .misuse (.unknownOption name)
    | none =>
      match rest with
      | [] => .misuse .missingFile
      | file :: _ => .analyze file (options.isSet "json")

/-- The request of words that name no command: nothing but perhaps help, and `json` is an option like
any other. -/
def helpRequest (words : List Text) : Request :=
  match read helpNames words with
  | .error misuse => .misuse misuse
  | .ok (_, options) => if options.isSet "help" then .show help else .nothing

/-- The request of a command line. -/
def request (words : List Text) : Request :=
  match read ("json" :: helpNames) words with
  | .error misuse => .misuse misuse
  | .ok (some (command :: rest), options) =>
    if command = .text "analyze" then analyzeRequest rest options else helpRequest words
  | .ok _ => helpRequest words

/-- What a command line comes to: its exit code and the two output texts. -/
structure Outcome where
  exitCode : Nat
  output : Text
  errors : Text
deriving DecidableEq, Repr

/-- Carries out a command line whose error output shows colours or not. -/
def run (files : FileSystem) (refusal : Text → Text) (settings : Settings) (logger : Logger)
    (colored : Bool) (words : List Text) : Except Misuse Outcome :=
  match request words with
  | .nothing => .ok ⟨0, "", ""⟩
  | .show text => .ok ⟨0, text, ""⟩
  | .misuse misuse => .error misuse
  | .analyze file json =>
    let result := Command.analyze files refusal settings logger (some file) json
    .ok ⟨result.exitCode, Text.join result.written, result.errorText colored⟩

end TreeCheck.CommandLine
