import TreeCheck.Number.Reading
import TreeCheck.Number.Shortest

namespace TreeCheck

/-- A value that a word of a command line stands for. -/
inductive Argument where
  | flag (value : Bool)
  | number (value : Number)
  | text (value : Text)
deriving DecidableEq, Repr

namespace Argument

/-- A word that reads as a number is one. -/
def ofWord (word : Text) : Argument :=
  match Number.ofWord? word with
  | some value => .number value
  | none => .text word

/-- Does the value mean yes? Zero and the empty text do not. -/
def isYes : Argument → Bool
  | .flag value => value
  | .number value => value ≠ .ofInt 0
  | .text value => !value.isEmpty

/-- The kind of a value, as messages name it. -/
def kind : Argument → String
  | .flag _ => "boolean"
  | .number _ => "number"
  | .text _ => "string"

/-- The value as messages show it. -/
def shown : Argument → Text
  | .flag value => if value then "true" else "false"
  | .number value => .ofList value.text
  | .text value => value

/-- The whole number below `2 ^ 32 - 1` that a name writes in the shortest way. -/
def index? (name : Text) : Option Nat :=
  match name.units.map Text.letter with
  | ['0'] => some 0
  | '0' :: _ => none
  | digits => (Number.digits? 10 digits).filter (· < 0xFFFFFFFF)

/-- Does the name stand for a part of a text: one of its units, or their number? -/
def hasPart (name : Text) : Argument → Bool
  | .text value => name = "length" || (index? name).any (· < value.units.length)
  | _ => false

end Argument

end TreeCheck
