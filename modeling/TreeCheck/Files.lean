import TreeCheck.Argument
import TreeCheck.Quoted

namespace TreeCheck

/-- Why a file cannot be read, though it may be there. -/
inductive ReadError where
  /-- The path leads to a directory. -/
  | isDirectory
  /-- The path goes on below a file. -/
  | notDirectory (path : Text)
  /-- The path, or a name on it, is longer than a file system allows. -/
  | nameTooLong (path : Text)
  /-- A number stands for an open file, and this one is not open. -/
  | notOpen
  /-- No path holds the null character. -/
  | nullCharacter (path : Text)
  /-- What was given is not a path at all. -/
  | notPath (given : Option Argument)
  | other (code message : Text)
deriving DecidableEq, Repr

namespace ReadError

def code : ReadError → Text
  | .isDirectory => "EISDIR"
  | .notDirectory _ => "ENOTDIR"
  | .nameTooLong _ => "ENAMETOOLONG"
  | .notOpen => "EBADF"
  | .nullCharacter _ => "ERR_INVALID_ARG_VALUE"
  | .notPath _ => "ERR_INVALID_ARG_TYPE"
  | .other code _ => code

/-- What was given in place of a path. -/
def received : Option Argument → Text
  | none => "undefined"
  | some given => "type " ++ given.kind ++ " (" ++ given.shown ++ ")"

def message : ReadError → Text
  | .isDirectory => "EISDIR: illegal operation on a directory, read"
  | .notDirectory path => "ENOTDIR: not a directory, open '" ++ path ++ "'"
  | .nameTooLong path => "ENAMETOOLONG: name too long, open '" ++ path ++ "'"
  | .notOpen => "EBADF: bad file descriptor, read"
  | .nullCharacter path =>
    "The argument 'path' must be a string, Uint8Array, or URL without null bytes. Received " ++
      Quoted.excerpt path
  | .notPath given =>
    "The \"path\" argument must be of type string or an instance of Buffer or URL. Received " ++
      received given
  | .other _ message => message

end ReadError

/-- What reading a path gives. -/
inductive ReadResult where
  | content (bytes : List UInt8)
  | missing
  | failed (error : ReadError)
deriving DecidableEq, Repr

/-- Whatever can be read: files by their paths, and open files by their numbers. -/
structure FileSystem where
  file : Text → ReadResult
  descriptor : Int → Except ReadError (List UInt8)

/-- The number of an open file, which has 32 bits. -/
def Number.descriptor? (n : Number) : Option Int :=
  n.toInt?.filter fun value => -0x80000000 ≤ value && value < 0x80000000

/-- What is to be read. -/
inductive Source where
  | path (path : Text)
  | descriptor (number : Int)
deriving DecidableEq, Repr

/-- What an argument says is to be read. -/
def Argument.source : Option Argument → Except ReadError Source
  | some (.text path) =>
    if Text.unit '\x00' ∈ path.units then .error (.nullCharacter path) else .ok (.path path)
  | some (.number n) =>
    match n.descriptor? with
    | some value => .ok (.descriptor value)
    | none => .error (.notPath (some (.number n)))
  | given => .error (.notPath given)

/-- A small tree of files, by their paths from the current directory; a path without content is a
directory. Paths are resolved as an operating system does. -/
structure Directory where
  entries : List (List Text × Option (List UInt8)) := []

namespace Directory

/-- The most bytes of a name. -/
def longestName : Nat := 255

/-- The most bytes of a path. -/
def longestPath : Nat := 4095

/-- What stands at a path: a file with its bytes, or a directory, which may be there only as the way
to another entry. -/
def find? (d : Directory) (path : List Text) : Option (Option (List UInt8)) :=
  match d.entries.lookup path with
  | some found => some found
  | none => if d.entries.any fun entry => path.isPrefixOf entry.1 then some none else none

/-- Does a name stay at a directory? -/
def isHere (name : Text) : Bool := name = "" || name = "."

/-- What names lead to outside the current directory, where nothing is known but directories on the
way up. -/
def outside (path : Text) : List Text → ReadResult
  | [] => .failed .isDirectory
  | name :: rest =>
    if isHere name || name = ".." then outside path rest
    else if longestName < name.utf8Size then .failed (.nameTooLong path)
    else .missing

/-- Follows the names of a path from a directory, innermost name first in `here`. -/
def follow (d : Directory) (path : Text) (here : List Text) : List Text → ReadResult
  | [] => .failed .isDirectory
  | name :: rest =>
    if isHere name then follow d path here rest
    else if name = ".." then
      match here with
      | [] => outside path rest
      | _ :: outer => follow d path outer rest
    else if longestName < name.utf8Size then .failed (.nameTooLong path)
    else
      match d.find? (name :: here).reverse with
      | none => .missing
      | some none => follow d path (name :: here) rest
      | some (some bytes) =>
        if rest.isEmpty then .content bytes else .failed (.notDirectory path)

/-- The names of a path, in order. -/
def names (path : Text) : List Text := path.split '/'

/-- Reads a path; the empty path leads nowhere. -/
def read (d : Directory) (path : Text) : ReadResult :=
  let path := path.wellFormed
  if path.isEmpty then .missing
  else if longestPath < path.utf8Size then .failed (.nameTooLong path)
  else if path.units.head? = some (Text.unit '/') then outside path (names path)
  else d.follow path [] (names path)

/-- The directory as a file system without open files. -/
def files (d : Directory) : FileSystem := { file := d.read, descriptor := fun _ => .error .notOpen }

/-- The names of a place in the directory: steps that stay are dropped, and one that goes up takes
back the name before it. -/
def place (path : Text) : List Text :=
  let step (here : List Text) (name : Text) : List Text :=
    if isHere name then here else if name = ".." then here.drop 1 else name :: here
  ((names path).foldl step []).reverse

/-- A directory with these files; of two at one place the later is there. -/
def ofList (files : List (Text × Option (List UInt8))) : Directory :=
  ⟨(files.map fun (path, content) => (place path, content)).reverse⟩

end Directory

end TreeCheck
