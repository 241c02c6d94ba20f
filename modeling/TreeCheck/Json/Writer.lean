import TreeCheck.Json.Basic
import TreeCheck.Number.Shortest

namespace TreeCheck.Json

open Text

/-- Where a text may break: what stands before an item at some depth, and what stands after the
name of a field. -/
structure Layout where
  lineBreak : Nat → List UInt16
  afterName : List UInt16

namespace Layout

/-- Everything on one line. -/
def compact : Layout := ⟨fun _ => [], spelled [':']⟩

/-- One item a line, with an indentation of two. -/
def indented : Layout :=
  ⟨fun depth => spelled ('\n' :: List.replicate (2 * depth) ' '), spelled [':', ' ']⟩

end Layout

/-- A unit inside a string. Quotes, backslashes and control characters are escaped, all else stands
for itself. -/
def escape (u : UInt16) : List UInt16 :=
  match letter u with
  | '"' => spelled ['\\', '"']
  | '\\' => spelled ['\\', '\\']
  | '\x08' => spelled ['\\', 'b']
  | '\x0c' => spelled ['\\', 'f']
  | '\n' => spelled ['\\', 'n']
  | '\r' => spelled ['\\', 'r']
  | '\t' => spelled ['\\', 't']
  | _ => if u.toNat < 0x20 then hexEscape u else [u]

/-- A text in quotes. Half of a pair that stands alone is escaped. -/
def quote (s : Text) : List UInt16 := unit '"' :: rewrite hexEscape escape s.units ++ [unit '"']

mutual

/-- The text of a value that stands at some depth. -/
def write (layout : Layout) (depth : Nat) : Json → List UInt16
  | .null => spelled ['n', 'u', 'l', 'l']
  | .bool true => spelled ['t', 'r', 'u', 'e']
  | .bool false => spelled ['f', 'a', 'l', 's', 'e']
  | .num n => spelled n.text
  | .str s => quote s
  | .arr [] => spelled ['[', ']']
  | .arr (item :: rest) =>
    unit '[' :: layout.lineBreak (depth + 1) ++ write layout (depth + 1) item ++
      writeItems layout (depth + 1) rest ++ layout.lineBreak depth ++ [unit ']']
  | .obj [] => spelled ['{', '}']
  | .obj ((name, value) :: rest) =>
    unit '{' :: layout.lineBreak (depth + 1) ++ quote name ++ layout.afterName ++
      write layout (depth + 1) value ++ writeFields layout (depth + 1) rest ++
      layout.lineBreak depth ++ [unit '}']

/-- Further items of an array. -/
def writeItems (layout : Layout) (depth : Nat) : List Json → List UInt16
  | [] => []
  | item :: rest =>
    unit ',' :: layout.lineBreak depth ++ write layout depth item ++ writeItems layout depth rest

/-- Further fields of an object. -/
def writeFields (layout : Layout) (depth : Nat) : List (Text × Json) → List UInt16
  | [] => []
  | (name, value) :: rest =>
    unit ',' :: layout.lineBreak depth ++ quote name ++ layout.afterName ++
      write layout depth value ++ writeFields layout depth rest

end

/-- The text of a value on one line. -/
def compact (value : Json) : Text := ⟨write .compact 0 value⟩

/-- The text of a value with one item a line. -/
def indented (value : Json) : Text := ⟨write .indented 0 value⟩

end TreeCheck.Json
