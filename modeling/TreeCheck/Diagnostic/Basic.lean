import TreeCheck.Json.Basic
import TreeCheck.Number.Shortest
import TreeCheck.Tree.Basic

namespace TreeCheck

/-- Codes are grouped by letter: `A` for the shape of a tree, `S` for its meaning, `J` for the
document that holds it. -/
inductive Code where
  | malformedTree
  | undefinedIdentifier
  | invalidExpressionType
  | multipleDeclaration
  | invalidConditionType
  | invalidAssignmentType
  | returnTypeMismatch
  | returnOutsideFunction
  | invalidDocument
  | unsupportedVersion
  | fileNotFound
deriving DecidableEq, Repr

namespace Code

def all : List Code :=
  [.malformedTree, .undefinedIdentifier, .invalidExpressionType, .multipleDeclaration,
    .invalidConditionType, .invalidAssignmentType, .returnTypeMismatch, .returnOutsideFunction,
    .invalidDocument, .unsupportedVersion, .fileNotFound]

def text : Code → String
  | .malformedTree => "A001"
  | .undefinedIdentifier => "S001"
  | .invalidExpressionType => "S002"
  | .multipleDeclaration => "S003"
  | .invalidConditionType => "S004"
  | .invalidAssignmentType => "S005"
  | .returnTypeMismatch => "S006"
  | .returnOutsideFunction => "S007"
  | .invalidDocument => "J001"
  | .unsupportedVersion => "J002"
  | .fileNotFound => "J003"

def ofText? (text : Text) : Option Code := all.find? fun code => code.text = text

end Code

/-- How grave a diagnostic is. Every violation ends the run, so there is one degree. -/
inductive Severity where
  | error
deriving DecidableEq, Repr

namespace Severity

def all : List Severity := [.error]

def text : Severity → String
  | .error => "error"

end Severity

structure Diagnostic where
  severity : Severity := .error
  code : Code
  message : Text
  span : Option Span := none
  /-- Named details; a name may be given without a value. -/
  data : Record (Option Json) := []
deriving Repr

/-- The two coordinates with a colon between them. -/
def Position.text (p : Position) : Text :=
  .ofList ((Number.ofInt p.line).text ++ ':' :: (Number.ofInt p.col).text)

namespace Diagnostic

/-- One line: severity, code, message, and the start of the span if there is one. -/
def line (severity code message : Text) (span : Option Span) : Text :=
  let start := severity ++ " " ++ code ++ ": " ++ message
  match span with
  | none => start
  | some span => start ++ " at " ++ span.start.text

def format (d : Diagnostic) : Text := line d.severity.text d.code.text d.message d.span

/-- Where the violation starts. -/
def position? (d : Diagnostic) : Option Position := d.span.map Span.start

end Diagnostic

/-- A diagnostic that is being put together. -/
structure Draft where
  severity : Severity := .error
  code : Option Code := none
  message : Option Text := none
  span : Option Span := none
  data : Record (Option Json) := []

/-- What a draft lacks. -/
inductive Draft.Gap where
  | code
  | message
deriving DecidableEq, Repr

def Draft.Gap.text : Draft.Gap → String
  | .code => "Diagnostic code is required"
  | .message => "Diagnostic message is required"

namespace Draft

def error (code : Code) : Draft := { code := some code }

def setSeverity (d : Draft) (severity : Severity) : Draft := { d with severity }

/-- Sets the code, or takes it back. -/
def setCode (d : Draft) (code : Option Code) : Draft := { d with code }

/-- Sets the message, or takes it back. -/
def setMessage (d : Draft) (message : Option Text) : Draft := { d with message }

/-- Sets the span; without one the draft keeps the span it has. -/
def setSpan (d : Draft) : Option Span → Draft
  | some span => { d with span := some span }
  | none => d

def setPosition (d : Draft) (p : Position) : Draft := { d with span := some (.ofPosition p) }

def setDatum (d : Draft) (name : Text) (value : Option Json) : Draft :=
  { d with data := Record.put name value d.data }

/-- The finished diagnostic. It needs a code and a message that is not empty; the code is missed
first. -/
def finish (d : Draft) : Except Gap Diagnostic :=
  match d.code, d.message with
  | none, _ => .error .code
  | some _, none => .error .message
  | some code, some message =>
    if message.isEmpty then .error .message
    else .ok { severity := d.severity, code, message, span := d.span, data := d.data }

end Draft

end TreeCheck
