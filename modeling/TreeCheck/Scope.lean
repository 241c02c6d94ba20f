import TreeCheck.Diagnostic.Finding

namespace TreeCheck

/-- A declared name. -/
structure Symbol where
  name : Text
  type : Ty
  span : Option Span := none
deriving DecidableEq, Repr

structure Scope where
  symbols : List Symbol := []
deriving DecidableEq, Repr

namespace Scope

def find? (s : Scope) (name : Text) : Option Symbol :=
  s.symbols.find? fun symbol => symbol.name = name

/-- The type of a name, if it is declared. -/
def lookup (s : Scope) (name : Text) : Option Ty := (s.find? name).map Symbol.type

def contains (s : Scope) (name : Text) : Bool := (s.find? name).isSome

/-- Adds a name at the end; a name already declared is refused. -/
def declare (s : Scope) (symbol : Symbol) : Except Finding Scope :=
  if s.contains symbol.name then .error ⟨.redeclared symbol.name, symbol.span⟩
  else .ok ⟨s.symbols ++ [symbol]⟩

/-- The type of a name that is read or assigned at a span. -/
def require (s : Scope) (name : Text) (span : Option Span) : Except Finding Ty :=
  match s.lookup name with
  | some type => .ok type
  | none => .error ⟨.undefined name, span⟩

def size (s : Scope) : Nat := s.symbols.length

/-- Names and types, in order of declaration. -/
def entries (s : Scope) : List (Text × Ty) :=
  s.symbols.map fun symbol => (symbol.name, symbol.type)

/-- What a scope can be asked to do. -/
inductive Call where
  | declare (symbol : Symbol)
  | lookup (name : Text)
  | require (name : Text) (span : Option Span)
  | contains (name : Text)
  | size
  | entries
deriving DecidableEq, Repr

/-- What a call gives. -/
inductive Answer where
  | declared (symbol : Symbol)
  | lookup (type : Option Ty)
  | required (type : Ty)
  | contains (known : Bool)
  | size (size : Nat)
  | entries (entries : List (Text × Ty))
deriving DecidableEq, Repr

/-- Carries out a call. The scope stays as it is when the call is refused. -/
def call (s : Scope) : Call → Except Finding Answer × Scope
  | .declare symbol =>
    match s.declare symbol with
    | .ok next => (.ok (.declared symbol), next)
    | .error finding => (.error finding, s)
  | .lookup name => (.ok (.lookup (s.lookup name)), s)
  | .require name span => ((s.require name span).map .required, s)
  | .contains name => (.ok (.contains (s.contains name)), s)
  | .size => (.ok (.size s.size), s)
  | .entries => (.ok (.entries s.entries), s)

end Scope

end TreeCheck
