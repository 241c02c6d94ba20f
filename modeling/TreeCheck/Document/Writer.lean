import TreeCheck.Document.Problem
import TreeCheck.Json.Writer

namespace TreeCheck

/-- Two fields in the order in which they were given. -/
def Json.pair (swapped : Bool) (first second : Text × Json) : Json :=
  .obj (if swapped then [second, first] else [first, second])

def Position.toJson (p : Position) : Json :=
  .pair p.colFirst ("line", .ofInt p.line) ("col", .ofInt p.col)

def Span.toJson (s : Span) : Json :=
  .pair s.stopFirst ("start", s.start.toJson) ("end", s.stop.toJson)

namespace Document

/-- A field that is left out when there is nothing to write. -/
def optionalField (name : Text) : Option Json → List (Text × Json)
  | none => []
  | some value => [(name, value)]

mutual

/-- The JSON object that describes a node; an empty list of children is left out. -/
def nodeJson : Node → Json
  | ⟨kind, children, value, ops, span⟩ =>
    .obj (("kind", .str kind.name) :: (
      optionalField "value" (value.map .str) ++
      optionalField "ops" (ops.map fun ops => .arr (ops.map .str)) ++
      (match children with
        | [] => []
        | child :: rest => [("children", .arr (nodeJson child :: nodesJson rest))]) ++
      optionalField "span" (span.map Span.toJson)))

def nodesJson : List Node → List Json
  | [] => []
  | node :: rest => nodeJson node :: nodesJson rest

end

/-- The document that holds a tree. -/
def toJson (program : Node) (metadata : Option (Record Json)) : Json :=
  .obj (("version", .str version) :: ("program", nodeJson program) ::
    optionalField "metadata" (metadata.map .obj))

def render (program : Node) (metadata : Option (Record Json)) : Text :=
  (toJson program metadata).indented

end Document

end TreeCheck
