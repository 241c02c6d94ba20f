import TreeCheck.Check.Statement
import TreeCheck.Log

namespace TreeCheck

/-- What an accepted program gives. -/
structure Analysis where
  usage : Usage
  symbols : List (Text × Ty)
deriving DecidableEq, Repr

def Analysis.summary (a : Analysis) : Text := a.usage.summary

/-- An analyzer works once: it owns the state that a run fills. -/
structure Analyzer where
  logger : Logger
  traceTypes : Bool := false
  used : Bool := false
  state : State := {}

/-- Why there is no analysis. -/
inductive Analyzer.Error where
  | reused
  | rejected (finding : Finding)
deriving DecidableEq, Repr

def Analyzer.Error.message : Analyzer.Error → Text
  | .reused => "SemanticAnalyzer instances are single-use; create a new analyzer per run"
  | .rejected finding => finding.problem.message

/-- What a run gives: its outcome, the texts it writes, and its log. -/
structure Run where
  outcome : Except Analyzer.Error Analysis
  written : List Text := []
  log : Text := ""

/-- The log entry of an expression whose type is settled. -/
def Typed.entry (t : Typed) : LogEntry :=
  { level := .debug, message := "表达式类型"
    fields := [("kind", some (.str t.kind.name)), ("type", some (.str t.type.keyword))] }

namespace Analyzer

def startEntry (program : Node) : LogEntry :=
  { level := .debug, message := "开始语义分析"
    fields := [("statements", some (.ofInt program.children.length))] }

def failureEntry (finding : Finding) : LogEntry :=
  { level := .debug, message := "语义分析失败"
    fields := [("code", some (.str finding.problem.code.text)),
      ("message", some (.str finding.problem.message))] }

def successEntry (elapsed : Number) (usage : Usage) : LogEntry :=
  .performance "语义分析" (some (.num elapsed))
    (usage.entries.map fun (name, n) => (name, some (.ofInt n)))

/-- The expressions whose types are logged. -/
def traceEntries (a : Analyzer) (state : State) : List LogEntry :=
  if a.traceTypes then state.trace.map Typed.entry else []

/-- Everything that a run logs: its start, the types if they are traced, and its end. -/
def runEntries (a : Analyzer) (program : Node) (state : State) (last : LogEntry) : List LogEntry :=
  startEntry program :: (a.traceEntries state ++ [last])

/-- Analyses a program. A second program is refused, whatever came of the first. -/
def analyze (a : Analyzer) (program : Node) : Run × Analyzer :=
  if a.used then ({ outcome := .error .reused }, a)
  else if program.kind ≠ .program then
    ({ outcome := .error (.rejected (.malformed (.notProgram program.kind) program.span)) },
      { a with used := true })
  else
    match Check.visit none program a.state with
    | .ok () state =>
      let analysis : Analysis := { usage := state.usage, symbols := state.scope.entries }
      ({ outcome := .ok analysis
         written := [analysis.summary ++ "\n"]
         log := a.logger.writeAll
           (a.runEntries program state (successEntry a.logger.elapsed state.usage)) },
        { a with used := true, state })
    | .error finding state =>
      ({ outcome := .error (.rejected finding)
         log := a.logger.writeAll (a.runEntries program state (failureEntry finding)) },
        { a with used := true, state })

/-- Analyses programs in turn with one analyzer. -/
def analyzeAll (a : Analyzer) : List Node → List Run × Analyzer
  | [] => ([], a)
  | program :: rest =>
    let (run, a) := a.analyze program
    let (runs, a) := analyzeAll a rest
    (run :: runs, a)

end Analyzer

/-- Analyses a program with an analyzer of its own. -/
def analyzeAlone (logger : Logger) (traceTypes : Bool) (program : Node) : Run :=
  (Analyzer.analyze { logger, traceTypes } program).1

end TreeCheck
