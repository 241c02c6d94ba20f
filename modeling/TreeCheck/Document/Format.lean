import TreeCheck.Json.Basic
import TreeCheck.Tree.Basic

namespace TreeCheck

/-- The way from a value to a part of it. -/
inductive Step where
  | field (name : Text)
  | item (index : Nat)
deriving DecidableEq, Repr

def Step.text : Step → Text
  | .field name => "/" ++ name
  | .item index => "/" ++ toString index

/-- What a value must be or have. -/
inductive Rule where
  | object
  | array
  | string
  | integer
  | required (name : Text)
  | closed
  | allowed
  | minimum
deriving DecidableEq, Repr

def Rule.text : Rule → Text
  | .object => "must be object"
  | .array => "must be array"
  | .string => "must be string"
  | .integer => "must be integer"
  | .required name => "must have required property '" ++ name ++ "'"
  | .closed => "must NOT have additional properties"
  | .allowed => "must be equal to one of the allowed values"
  | .minimum => "must be >= 0"

/-- A rule that the part of a value at the end of a path breaks. -/
structure Violation where
  path : List Step := []
  rule : Rule
deriving DecidableEq, Repr

namespace Violation

/-- The violation as seen from a value of which the broken one is a part. -/
def under (step : Step) (v : Violation) : Violation := { v with path := step :: v.path }

/-- The path, a single slash for the whole value, and the rule. -/
def text (v : Violation) : Text :=
  (if v.path.isEmpty then ("/" : Text) else .join (v.path.map Step.text)) ++ " " ++ v.rule.text

end Violation

/-- A format of JSON values. Objects are closed: a field that the format does not know is a violation
of its own. -/
inductive Format where
  | string
  /-- The name of a kind. -/
  | kind
  /-- An integer that is not negative. -/
  | coordinate
  | list (item : Format)
  | object (required : List Text) (fields : List (Text × Format))
  /-- A node, which has nodes as its parts. -/
  | node
deriving Repr

namespace Format

def position : Format :=
  .object ["line", "col"] [("line", .coordinate), ("col", .coordinate)]

def span : Format := .object ["start", "end"] [("start", position), ("end", position)]

def nodeFields : List (Text × Format) :=
  [("kind", .kind), ("value", .string), ("ops", .list .string), ("children", .list .node),
    ("span", span)]

def metadata : Format :=
  .object [] [("generatedAt", .string), ("source", .string), ("parser", .string)]

def document : Format :=
  .object ["version", "program"] [("version", .string), ("program", .node), ("metadata", metadata)]

/-- The format with the recursive one written out. -/
def unfold : Format → Format
  | .node => .object ["kind"] nodeFields
  | format => format

/-- The rules that a value breaks as a whole, whatever its parts. -/
def broken : Format → Json → List Rule
  | .string, .str _ => []
  | .string, _ => [.string]
  | .kind, .str name => if (Kind.ofName? name).isSome then [] else [.allowed]
  | .kind, _ => [.string, .allowed]
  | .coordinate, .num n =>
    (if n.toInt?.isSome then [] else [.integer]) ++ if n.isBelowZero then [.minimum] else []
  | .coordinate, _ => [.integer]
  | .list _, .arr _ => []
  | .list _, _ => [.array]
  | .object required declared, .obj fields =>
    (required.filter fun name => (fields.lookup name).isNone).map .required ++
      (fields.filter fun field => (declared.lookup field.1).isNone).map fun _ => .closed
  | .object _ _, _ => [.object]
  | .node, _ => [.object]

mutual

/-- Every violation of a format by a value: first those of the value as a whole, then those of its
parts. The fields of an object come in the order of the format. -/
def violations (format : Format) : Json → List Violation
  | .obj fields =>
    (format.unfold.broken (.obj fields)).map (fun rule => { rule }) ++
      match format.unfold with
      | .object _ declared =>
        let found := fieldViolations declared fields
        declared.flatMap fun field => (found.lookup field.1).getD []
      | _ => []
  | .arr items =>
    (format.unfold.broken (.arr items)).map (fun rule => { rule }) ++
      match format.unfold with
      | .list item => itemViolations item 0 items
      | _ => []
  | value => (format.unfold.broken value).map fun rule => { rule }

/-- The violations of each declared field, under its name. -/
def fieldViolations (declared : List (Text × Format)) :
    List (Text × Json) → List (Text × List Violation)
  | [] => []
  | (name, value) :: rest =>
    (name, match declared.lookup name with
      | some format => (violations format value).map (Violation.under (.field name))
      | none => []) :: fieldViolations declared rest

/-- The violations of the items of an array, counted from an index. -/
def itemViolations (format : Format) (index : Nat) : List Json → List Violation
  | [] => []
  | item :: rest =>
    (violations format item).map (Violation.under (.item index)) ++
      itemViolations format (index + 1) rest

end

end Format

end TreeCheck
