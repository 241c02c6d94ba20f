import TreeCheck.CommandLine.Options

namespace TreeCheck.CommandLine

/-- Sorted words: the plain ones, unless they have been turned off, and options in the order of
their first use, each with the values it was given. -/
structure Arguments where
  words : Option (List Argument) := some []
  options : Record (List Argument) := []
deriving DecidableEq, Repr

namespace Arguments

/-- The name under which an option adds to the plain words. -/
def wordsName : Text := "_"

/-- Names that no option can have. -/
def reservedNames : List Text :=
  ["constructor", "hasOwnProperty", "isPrototypeOf", "propertyIsEnumerable", "__defineGetter__",
    "__defineSetter__", "__lookupGetter__", "__lookupSetter__"]

def addWord (a : Arguments) (word : Argument) : Except Misuse Arguments :=
  match a.words with
  | some words => .ok { a with words := some (words ++ [word]) }
  | none => .error .wordsOff

/-- Gives an option one more value. -/
def addValue (a : Arguments) (name : Text) (value : Argument) : Arguments :=
  { a with options := Record.put name ((a.options.lookup name).getD [] ++ [value]) a.options }

/-- Gives an option a word as its value, or yes if there is none. A flag understands `true` and
`false`; any other word after a flag remains a plain word, and only an empty one means no. -/
def addOption (flags : List Text) (a : Arguments) (name : Text) (word : Option Text) :
    Except Misuse Arguments :=
  let value := (word.map Argument.ofWord).getD (.flag true)
  if name = wordsName then
    .ok { a with words := some (a.words.getD [.flag false] ++ [value]) }
  else if name = Entry.sharedName then .ok a
  else if name ∈ flags then
    match word with
    | none => .ok (a.addValue name (.flag true))
    | some word =>
      if word = "true" then .ok (a.addValue name (.flag true))
      else if word = "false" then .ok (a.addValue name (.flag false))
      else do return (← a.addWord value).addValue name (.flag !word.isEmpty)
  else .ok (a.addValue name value)

/-- Adds options of which the last takes the word. -/
def addOptions (flags : List Text) (a : Arguments) (names : List Text) (word : Option Text) :
    Except Misuse Arguments :=
  match names with
  | [] => .ok a
  | [name] => a.addOption flags name word
  | name :: rest => do addOptions flags (← a.addOption flags name none) rest word

/-- Says no to an option. -/
def negate (a : Arguments) (name : Text) : Arguments :=
  if name = wordsName then { a with words := none }
  else if name = Entry.sharedName then a
  else { a with options := Record.put name [.flag false] a.options }

/-- How a word is to be taken. An option has one name after two dashes, otherwise a name for each
letter, and may hold its value after an equals sign. -/
inductive Word where
  | plain
  | negated (name : Text)
  | option (names : List Text) (value : Option Text)

def isDashed (word : Text) : Bool := word.units.head? = some (Text.unit '-')

def classify (word : Text) : Word :=
  let (dashes, body) := word.units.span (· = Text.unit '-')
  if dashes.isEmpty then .plain
  else if body.take 3 = Text.spelled ['n', 'o', '-'] then .negated ⟨body.drop 3⟩
  else
    let (tail, value) := (body.drop 1).span (· ≠ Text.unit '=')
    let name := body.take 1 ++ tail
    .option (if dashes.length = 2 then [⟨name⟩] else name.map fun u => ⟨[u]⟩)
      (if (value.drop 1).isEmpty then none else some ⟨value.drop 1⟩)

/-- Sorts words. An option without a value of its own takes the next word unless that has a dash. -/
def sort (flags : List Text) (a : Arguments) : List Text → Except Misuse Arguments
  | [] => .ok a
  | word :: rest =>
    match classify word with
    | .plain => do sort flags (← a.addWord (.text word)) rest
    | .negated name => sort flags (a.negate name) rest
    | .option names (some value) => do sort flags (← a.addOptions flags names (some value)) rest
    | .option names none =>
      match rest with
      | next :: others => do
        if isDashed next then sort flags (← a.addOptions flags names none) (next :: others)
        else sort flags (← a.addOptions flags names (some next)) others
      | [] => a.addOptions flags names none

/-- Names that stand for each other share the values of the one that was given first. -/
def share (names : List Text) (a : Arguments) : Arguments :=
  match a.options.find? fun option => option.1 ∈ names with
  | none => a
  | some (_, values) =>
    { a with options := names.foldl (fun options name => Record.put name values options) a.options }

/-- Sorts the words of a command line up to a double dash. -/
def parse (flags names words : List Text) : Except Misuse Arguments := do
  let a ← sort flags {} (words.takeWhile (· ≠ "--"))
  if a.options.names.any (· ∈ reservedNames) then .error .reservedName else return a.share names

end Arguments

end TreeCheck.CommandLine
