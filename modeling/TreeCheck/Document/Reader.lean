import TreeCheck.Document.Problem
import TreeCheck.Json.Reader

namespace TreeCheck

/-- The first field of an object is this one. -/
def Json.leadsWith (name : Text) (value : Json) : Bool :=
  (value.fields.head?.map Prod.fst) = some name

def Position.ofJson? (value : Json) : Option Position := do
  let line ← (value.field? "line").bind Json.int?
  let col ← (value.field? "col").bind Json.int?
  return { line, col, colFirst := value.leadsWith "col" }

def Span.ofJson? (value : Json) : Option Span := do
  let start ← (value.field? "start").bind Position.ofJson?
  let stop ← (value.field? "end").bind Position.ofJson?
  return { start, stop, stopFirst := value.leadsWith "end" }

namespace Document

/-- Reads a field that may be left out. -/
def optional {α : Type} (read : Json → Option α) : Option Json → Option (Option α)
  | none => some none
  | some value => (read value).map some

def texts? (value : Json) : Option (List Text) := value.arr?.bind (·.mapM Json.str?)

mutual

/-- The node that a JSON object describes. Children that are left out are read as none. -/
def node? : Json → Option Node
  | .obj fields => do
    let kind ← ((fields.lookup ↑"kind").bind Json.str?).bind Kind.ofName?
    let children ← childrenOf? fields
    let value ← optional Json.str? (fields.lookup ↑"value")
    let ops ← optional texts? (fields.lookup ↑"ops")
    let span ← optional Span.ofJson? (fields.lookup ↑"span")
    return { kind, children, value, ops, span }
  | _ => none

/-- The children among the fields of a node. -/
def childrenOf? : List (Text × Json) → Option (List Node)
  | [] => some []
  | (name, value) :: rest =>
    if name = "children" then
      match value with
      | .arr items => nodes? items
      | _ => none
    else childrenOf? rest

def nodes? : List Json → Option (List Node)
  | [] => some []
  | item :: rest => do
    let node ← node? item
    let nodes ← nodes? rest
    return node :: nodes

end

/-- The tree that a JSON value holds. Violations of the format come before a wrong version, and that
comes before a wrong root. -/
def ofJson (value : Json) : Except (List Problem) Node :=
  match Format.document.violations value with
  | [] =>
    match (value.field? "version").bind Json.str?, (value.field? "program").bind node? with
    | some given, some program =>
      if given ≠ version then .error [.unsupportedVersion given]
      else if program.kind ≠ .program then .error [.rootKind program.kind]
      else .ok program
    | _, _ => .error [.noDocument]
  | violations => .error (violations.map .violation)

/-- The tree that a text holds. What is said about a text that is not JSON is up to the reader of
JSON, and is given by `refusal`. -/
def parse (refusal : Text → Text) (text : Text) : Except (List Problem) Node :=
  match Json.parse? text with
  | some value => ofJson value
  | none => .error [.notJson (refusal text)]

end Document

end TreeCheck
