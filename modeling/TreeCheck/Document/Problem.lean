import TreeCheck.Diagnostic.Basic
import TreeCheck.Document.Format

namespace TreeCheck.Document

/-- The version of the document format. -/
def version : Text := "1.0"

/-- What can be wrong with a document. -/
inductive Problem where
  /-- The text is not JSON, and this is what its reader says about it. -/
  | notJson (detail : Text)
  | violation (v : Violation)
  /-- The value does not hold a document although it breaks no rule. -/
  | noDocument
  | rootKind (kind : Kind)
  | unsupportedVersion (version : Text)
  | fileNotFound (path : Text)
  | other (detail : Text)
deriving DecidableEq, Repr

namespace Problem

def code : Problem → Code
  | .unsupportedVersion _ => .unsupportedVersion
  | .fileNotFound _ => .fileNotFound
  | _ => .invalidDocument

def message : Problem → Text
  | .notJson detail => "Invalid AST JSON: " ++ detail
  | .violation v => "Invalid AST JSON: " ++ v.text
  | .noDocument => "Invalid AST JSON: schema validation failed"
  | .rootKind kind => "Invalid AST JSON: root node must be Program, found " ++ kind.name
  | .unsupportedVersion version => "Unsupported AST JSON version: " ++ version
  | .fileNotFound path => "AST file not found: " ++ path
  | .other detail => "Invalid AST JSON: " ++ detail

def data : Problem → Record (Option Json)
  | .unsupportedVersion version => [("version", some (.str version))]
  | .fileNotFound path => [("path", some (.str path))]
  | _ => []

/-- A problem of a document has no place in a source text, and is blamed on its origin. -/
def diagnostic (p : Problem) : Diagnostic :=
  { code := p.code, message := p.message, span := some (.ofPosition .origin), data := p.data }

end Problem

end TreeCheck.Document
