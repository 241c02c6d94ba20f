import TreeCheck.Json.Token

namespace TreeCheck.Json

/-- An open container. -/
inductive Frame where
  /-- An array and the items read so far, newest first. -/
  | arr (items : List Json)
  /-- An object and the fields read so far. -/
  | obj (fields : List (Text × Json))
  /-- An object whose field of this name has no value yet. -/
  | field (fields : List (Text × Json)) (name : Text)
deriving Repr

/-- What may come next. -/
inductive Expect where
  | value
  /-- The first item of an array, or its end. -/
  | item
  /-- The first name of an object, or its end. -/
  | name
  /-- A further name of an object. -/
  | nextName
  | colon
  /-- A comma, or the end of the container. -/
  | comma
  /-- Nothing: the value is complete. -/
  | done (value : Json)
deriving Repr

/-- Containers that are still open are held in a stack, so a value may be nested to any depth. -/
structure Reader where
  expect : Expect := .value
  stack : List Frame := []
deriving Repr

namespace Reader

/-- Hands a finished value to the container around it. -/
def deliver (value : Json) : List Frame → Option Reader
  | [] => some ⟨.done value, []⟩
  | .arr items :: outer => some ⟨.comma, .arr (value :: items) :: outer⟩
  | .field fields name :: outer => some ⟨.comma, .obj (Record.put name value fields) :: outer⟩
  | .obj _ :: _ => none

/-- A token where a value must stand. -/
def value (stack : List Frame) : Token → Option Reader
  | .null => deliver .null stack
  | .bool b => deliver (.bool b) stack
  | .num n => deliver (.num n) stack
  | .str s => deliver (.str s) stack
  | .openArray => some ⟨.item, .arr [] :: stack⟩
  | .openObject => some ⟨.name, .obj [] :: stack⟩
  | _ => none

/-- Ends the innermost container. -/
def close (stack : List Frame) (token : Token) : Option Reader :=
  match stack, token with
  | .arr items :: outer, .closeArray => deliver (.arr items.reverse) outer
  | .obj fields :: outer, .closeObject => deliver (.obj fields) outer
  | _, _ => none

/-- The name of a field. -/
def name (stack : List Frame) (token : Token) : Option Reader :=
  match stack, token with
  | .obj fields :: outer, .str name => some ⟨.colon, .field fields name :: outer⟩
  | _, _ => none

/-- One more token; `none` if no value goes on like this. -/
def step (r : Reader) (token : Token) : Option Reader :=
  match r.expect with
  | .value => value r.stack token
  | .item => if token = .closeArray then close r.stack token else value r.stack token
  | .name => if token = .closeObject then close r.stack token else name r.stack token
  | .nextName => name r.stack token
  | .colon => if token = .colon then some ⟨.value, r.stack⟩ else none
  | .comma =>
    match r.stack, token with
    | .arr items :: outer, .comma => some ⟨.value, .arr items :: outer⟩
    | .obj fields :: outer, .comma => some ⟨.nextName, .obj fields :: outer⟩
    | stack, token => close stack token
  | .done _ => none

/-- The value, if it is complete. -/
def finish (r : Reader) : Option Json :=
  match r.expect with
  | .done value => some value
  | _ => none

/-- The state after further tokens. -/
def run (r : Reader) (tokens : List Token) : Option Reader := tokens.foldlM step r

end Reader

/-- The value of a sequence of tokens. In an object the last of several fields of one name wins. -/
def ofTokens? (tokens : List Token) : Option Json := (Reader.run {} tokens).bind Reader.finish

/-- The value that a text denotes; `none` if it is not JSON. -/
def parse? (text : Text) : Option Json := (Token.scan text.units).bind ofTokens?

end TreeCheck.Json
