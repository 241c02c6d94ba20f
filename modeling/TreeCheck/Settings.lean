import TreeCheck.Log

namespace TreeCheck

inductive Variable where
  | logLevel
  | debugTypes
  | noColor
deriving DecidableEq, Repr

namespace Variable

def all : List Variable := [.logLevel, .debugTypes, .noColor]

def name : Variable → String
  | .logLevel => "LOG_LEVEL"
  | .debugTypes => "MINILANG_DEBUG_TYPES"
  | .noColor => "NO_COLOR"

def ofName? (name : String) : Option Variable := all.find? fun v => v.name = name

end Variable

/-- The variables that are set. -/
structure Environment where
  logLevel : Option String := none
  debugTypes : Option String := none
  noColor : Option String := none
deriving DecidableEq, Repr

/-- Sets a variable, or unsets it. -/
def Environment.set (e : Environment) (name : Variable) (value : Option String) : Environment :=
  match name with
  | .logLevel => { e with logLevel := value }
  | .debugTypes => { e with debugTypes := value }
  | .noColor => { e with noColor := value }

structure Settings where
  level : Level := .info
  traceTypes : Bool := false
deriving DecidableEq, Repr

/-- The level that a text names in any mixture of cases; every other text means the usual level. The
names are ASCII, and no character outside ASCII has one of their letters as its capital. -/
def Level.ofSetting (text : Option String) : Level :=
  match text.map String.toUpper with
  | some "DEBUG" => .debug
  | some "WARN" => .warn
  | some "ERROR" => .error
  | _ => .info

namespace Settings

def ofEnvironment (e : Environment) : Settings :=
  { level := .ofSetting e.logLevel, traceTypes := e.debugTypes = some "1" }

/-- A logger at the level of the settings. -/
def logger (s : Settings) (component : Text) : Logger := { component, minimum := s.level }

/-- An environment and the settings read from it, if they have been read. -/
structure Store where
  environment : Environment := {}
  kept : Option Settings := none

namespace Store

/-- The settings, read now unless they were read before. -/
def get (s : Store) : Settings × Store :=
  let settings := s.kept.getD (ofEnvironment s.environment)
  (settings, { s with kept := some settings })

def reset (s : Store) : Store := { s with kept := none }

def set (s : Store) (name : Variable) (value : Option String) : Store :=
  { s with environment := s.environment.set name value }

end Store

end Settings

end TreeCheck
