import TreeCheck.Json.Writer

namespace TreeCheck

inductive Level where
  | debug
  | info
  | warn
  | error
deriving DecidableEq, Repr

namespace Level

def all : List Level := [.debug, .info, .warn, .error]

def name : Level → String
  | .debug => "DEBUG"
  | .info => "INFO"
  | .warn => "WARN"
  | .error => "ERROR"

def rank : Level → Nat
  | .debug => 0
  | .info => 1
  | .warn => 2
  | .error => 3

def ofName? (name : Text) : Option Level := all.find? fun level => ↑level.name = name

end Level

/-- What is to be logged. A field may be given without a value and is then left out. -/
structure LogEntry where
  level : Level
  message : Text
  fields : Record (Option Json) := []

namespace LogEntry

/-- An error with the text and the trace of what caused it, if that is known. -/
def failure (message : Text) (cause : Option (Text × Option Text))
    (fields : Record (Option Json)) : LogEntry :=
  { level := .error, message
    fields := match cause with
      | none => fields
      | some (text, trace) =>
        Record.putAll [("error", some (.str text)), ("stack", trace.map .str)] fields }

/-- The end of an operation that took a number of milliseconds. -/
def performance (operation : Text) (duration : Option Json)
    (fields : Record (Option Json)) : LogEntry :=
  { level := .info, message := operation ++ "完成"
    fields := Record.putAll [("duration_ms", duration)] fields }

end LogEntry

/-- The beginning of the era, which stamps lines when no clock is at hand. -/
def epoch : Text := "1970-01-01T00:00:00.000Z"

/-- A source of log lines: its name, the lowest level that it lets through, and what its clock shows,
which is the time that it stamps on a line and the milliseconds that an analysis takes. -/
structure Logger where
  component : Text
  minimum : Level := .info
  timestamp : Text := epoch
  elapsed : Number := .ofInt 0
deriving Repr

namespace Logger

def accepts (l : Logger) (level : Level) : Bool := l.minimum.rank ≤ level.rank

/-- The fields of a line, in order. Those of the entry follow the four of every line; one that has
the name of an earlier field takes its place. -/
def fields (l : Logger) (entry : LogEntry) : Record (Option Json) :=
  Record.putAll
    [("level", some (.str entry.level.name)), ("timestamp", some (.str l.timestamp)),
      ("component", some (.str l.component)), ("message", some (.str entry.message))]
    entry.fields

def line (l : Logger) (entry : LogEntry) : Text :=
  (Json.ofFields (l.fields entry)).compact ++ "\n"

/-- What is written for an entry: a line, or nothing below the lowest level. -/
def write (l : Logger) (entry : LogEntry) : Text :=
  if l.accepts entry.level then l.line entry else ""

def writeAll (l : Logger) (entries : List LogEntry) : Text := Text.join (entries.map l.write)

end Logger

end TreeCheck
