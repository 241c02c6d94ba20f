import TreeCheck.Argument
import TreeCheck.Record

namespace TreeCheck.CommandLine

/-- What is wrong with a command line. -/
inductive Misuse where
  | unknownOption (name : Text)
  | missingFile
  /-- A word came after words had been turned off. -/
  | wordsOff
  /-- An option has a name that options cannot have. -/
  | reservedName
  /-- A name leads into a value as if that were a group. -/
  | notGroup (value : Argument) (name : Text)
deriving DecidableEq, Repr

def Misuse.message : Misuse → Text
  | .unknownOption name =>
    "Unknown option `" ++ (if 1 < name.units.length then "--" else "-") ++ name ++ "`"
  | .missingFile => "missing required args for command `analyze <file>`"
  | .wordsOff => "out._.push is not a function"
  | .reservedName => "arr.shift is not a function"
  | .notGroup value name =>
    if value.hasPart name then
      "Cannot assign to read only property '" ++ name ++ "' of " ++ value.kind ++ " '" ++
        value.shown ++ "'"
    else
      "Cannot create property '" ++ name ++ "' on " ++ value.kind ++ " '" ++ value.shown ++ "'"

/-- What an option stands for. Several values are a group whose names count from zero. -/
inductive Entry where
  | one (value : Argument)
  | group (entries : List (Text × Entry))
deriving Repr

namespace Entry

/-- The name of what all groups share. -/
def sharedName : Text := "__proto__"

def ofValues : List Argument → Entry
  | [value] => .one value
  | values => .group (values.zipIdx.map fun (value, index) => (toString index, .one value))

/-- Does the entry mean yes? A group does. -/
def isYes : Entry → Bool
  | .one value => value.isYes
  | .group _ => true

/-- Puts `entry` where a way of names leads from what is there, making the groups on the way. What
groups share is left alone. -/
def put (entry : Entry) : List Text → Option Entry → Except Misuse Entry
  | [], _ => .ok entry
  | name :: rest, found =>
    let inside (entries : Record Entry) : Except Misuse Entry :=
      if name = sharedName then .ok (.group entries)
      else do return .group (Record.put name (← put entry rest (entries.lookup name)) entries)
    match found with
    | none => inside []
    | some (.group entries) => inside entries
    | some (.one value) =>
      if name = sharedName then .ok (.one value) else .error (.notGroup value name)

end Entry

/-- The options that were given, and the entries that stand in for options that were not. -/
structure Options where
  given : Record Entry := []
  shared : Record Entry := []

namespace Options

def find? (o : Options) (name : Text) : Option Entry :=
  (o.given.lookup name).or (o.shared.lookup name)

/-- Sets what the way from `name` through `rest` leads to. -/
def set (o : Options) (name : Text) (rest : List Text) (entry : Entry) :
    Except Misuse Options :=
  if name = Entry.sharedName then
    match rest with
    | [] => .ok o
    | first :: rest => do
      let inner ← entry.put rest (o.shared.lookup first)
      return { o with shared := Record.put first inner o.shared }
  else do
    let inner ← entry.put rest (o.find? name)
    return { o with given := Record.put name inner o.given }

/-- Is an option given a value that means yes? -/
def isSet (o : Options) (name : Text) : Bool := (o.find? name).any Entry.isYes

/-- Whole numbers come first, the smallest before the others; other names keep their order. -/
def inOrder {α : Type} (fields : Record α) : Record α :=
  let numbered := fields.filterMap fun field =>
    (Argument.index? field.1).map fun index => (index, field)
  (numbered.mergeSort fun a b => a.1 ≤ b.1).map Prod.snd ++
    fields.filter fun field => (Argument.index? field.1).isNone

/-- The first option that is not among the known ones. -/
def unknown? (o : Options) (known : List Text) : Option Text :=
  (inOrder o.given).names.find? fun name => name ∉ known

/-- Capitalises a small letter after a dash that follows a small letter, and drops the dash. -/
def camelCase : List UInt16 → List UInt16
  | first :: dash :: second :: rest =>
    if (Text.letter first).isLower ∧ dash = Text.unit '-' ∧ (Text.letter second).isLower then
      first :: Text.unit (Text.letter second).toUpper :: camelCase rest
    else first :: camelCase (dash :: second :: rest)
  | rest => rest

/-- The names between the dots of an option, the first one in camel case. A name with dots leads
into groups. -/
def way (written : Text) : Text × List Text :=
  match written.split '.' with
  | first :: rest => (⟨camelCase first.units⟩, rest)
  | [] => ("", [])

/-- Options by the names that were written, each with the values it was given. Two spellings of one
name count once: the place of the first, the values of the last. -/
def ofValues (written : Record (List Argument)) : Except Misuse Options :=
  let named := (inOrder written).map fun (name, values) => (way name, values)
  let merged := Record.putAll [] (named.map fun (way, values) =>
    (Text.intercalate "." (way.1 :: way.2), values))
  (inOrder merged).foldlM (fun options (name, values) =>
    let (first, rest) := way name
    options.set first rest (.ofValues values)) {}

end Options

end TreeCheck.CommandLine
