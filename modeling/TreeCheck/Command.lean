import TreeCheck.Analyzer
import TreeCheck.Document.Reader
import TreeCheck.Document.Writer
import TreeCheck.Failure
import TreeCheck.Files
import TreeCheck.Settings
import TreeCheck.Utf8

namespace TreeCheck

/-- Why a document could not be loaded. -/
inductive LoadError where
  | problems (problems : List Document.Problem)
  | unreadable (error : ReadError)
deriving DecidableEq, Repr

/-- The tree that bytes hold. -/
def Document.ofBytes (refusal : Text → Text) (bytes : List UInt8) : Except LoadError Node :=
  match Document.parse refusal (Utf8.decode bytes) with
  | .ok program => .ok program
  | .error problems => .error (.problems problems)

/-- The tree in the file at a path. A file that is not there is a problem of the document like any
other. -/
def Document.loadPath (files : FileSystem) (refusal : Text → Text) (path : Text) :
    Except LoadError Node :=
  match files.file path with
  | .missing => .error (.problems [.fileNotFound path])
  | .failed error => .error (.unreadable error)
  | .content bytes => Document.ofBytes refusal bytes

/-- The tree in an open file. -/
def Document.loadOpen (files : FileSystem) (refusal : Text → Text) (number : Int) :
    Except LoadError Node :=
  match files.descriptor number with
  | .error error => .error (.unreadable error)
  | .ok bytes => Document.ofBytes refusal bytes

/-- The tree in the file that an argument names. -/
def Document.load (files : FileSystem) (refusal : Text → Text) (file : Option Argument) :
    Except LoadError Node :=
  match Argument.source file with
  | .error error => .error (.unreadable error)
  | .ok (.path path) => Document.loadPath files refusal path
  | .ok (.descriptor number) => Document.loadOpen files refusal number

def Diagnostic.toJson (d : Diagnostic) : Json :=
  .ofFields
    [("severity", some (.str d.severity.text)), ("code", some (.str d.code.text)),
      ("message", some (.str d.message)), ("span", d.span.map Span.toJson),
      ("data", if d.data.isEmpty then none else some (.ofFields d.data))]

namespace Command

/-- Why the command failed. -/
inductive Error where
  | load (error : LoadError)
  | analysis (error : Analyzer.Error)
deriving DecidableEq, Repr

/-- The message of the error that carries a list of diagnostics. -/
def carrierMessage : Text := "CLI_DIAGNOSTIC_ERROR"

/-- An error that carries diagnostics, which may be any value. -/
def carrier (diagnostics : Json) : Failure := .error carrierMessage none (some diagnostics)

def Error.failure : Error → Failure
  | .load (.problems problems) =>
    carrier (.arr (problems.map fun problem => problem.diagnostic.toJson))
  | .load (.unreadable error) => .error error.message (some (.str error.code)) none
  | .analysis (.rejected finding) =>
    .diagnostic finding.problem.code.text finding.problem.message
  | .analysis .reused => .error Analyzer.Error.reused.message none none

/-- What the command gives: its error if it failed, the texts it writes, and the log. -/
structure Result where
  error : Option Error := none
  written : List Text := []
  log : Text := ""

/-- The counters as a JSON object. -/
def usageJson (usage : Usage) : Json :=
  .obj (usage.entries.map fun (name, n) => (name, .ofInt n))

/-- Analyses the document in a file. An accepted program is summed up on one line, as JSON if that
is wanted. -/
def analyze (files : FileSystem) (refusal : Text → Text) (settings : Settings) (logger : Logger)
    (file : Option Argument) (json : Bool) : Result :=
  match Document.load files refusal file with
  | .error error => { error := some (.load error) }
  | .ok program =>
    let run := analyzeAlone logger settings.traceTypes program
    match run.outcome with
    | .error error => { error := some (.analysis error), log := run.log }
    | .ok analysis =>
      { written := if json then [(usageJson analysis.usage).compact ++ "\n"] else run.written
        log := run.log }

/-- The name under which the analysis logs. -/
def component : Text := "analyzer"

/-- The log, and the report if the command failed. -/
def Result.errorText (r : Result) (colored : Bool) : Text :=
  match r.error with
  | none => r.log
  | some error => r.log ++ (error.failure.handle colored).errors

/-- One for a failed command, zero otherwise. -/
def Result.exitCode (r : Result) : Nat := if r.error.isSome then 1 else 0

end Command

end TreeCheck
