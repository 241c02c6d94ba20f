import TreeCheck.Record
import TreeCheck.Number.Basic

namespace TreeCheck

inductive Json where
  | null
  | bool (value : Bool)
  | num (value : Number)
  | str (value : Text)
  | arr (items : List Json)
  | obj (fields : List (Text × Json))
deriving Repr, Inhabited

namespace Json

def ofInt (n : Int) : Json := .num (.ofInt n)

/-- An object without the fields that have no value. -/
def ofFields (fields : Record (Option Json)) : Json :=
  .obj (fields.filterMap fun field => field.2.map fun value => (field.1, value))

/-- The fields of an object, in order; other values have none. -/
def fields : Json → Record Json
  | .obj fields => fields
  | _ => []

/-- The field of an object under a name. -/
def field? (name : Text) (value : Json) : Option Json := value.fields.lookup name

def str? : Json → Option Text
  | .str s => some s
  | _ => none

def int? : Json → Option Int
  | .num n => n.toInt?
  | _ => none

def bool? : Json → Option Bool
  | .bool b => some b
  | _ => none

def arr? : Json → Option (List Json)
  | .arr items => some items
  | _ => none

end Json

end TreeCheck
