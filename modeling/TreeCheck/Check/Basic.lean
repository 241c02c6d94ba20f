import TreeCheck.Scope
import TreeCheck.Usage

namespace TreeCheck

/-- An expression whose type is settled. -/
structure Typed where
  kind : Kind
  type : Ty
deriving DecidableEq, Repr

/-- What the checker knows: the names declared so far, the counters, and the expressions in the
order in which their types were settled. -/
structure State where
  scope : Scope := {}
  usage : Usage := {}
  trace : List Typed := []
deriving DecidableEq, Repr

abbrev Check := EStateM Finding State

namespace Check

variable {α : Type}

def lift : Except Finding α → Check α
  | .ok value => pure value
  | .error finding => throw finding

def malformed (defect : Defect) (span : Option Span) : Check α := throw (.malformed defect span)

/-- Advances a counter by one. -/
def count (counter : Counter) : Check Unit :=
  modify fun s => { s with usage := s.usage.add counter 1 }

def declare (symbol : Symbol) : Check Unit := fun s =>
  match s.scope.declare symbol with
  | .ok scope => .ok () { s with scope }
  | .error finding => .error finding s

/-- The type of a name that is read or assigned at a span. -/
def require (name : Text) (span : Option Span) : Check Ty := fun s =>
  match s.scope.require name span with
  | .ok type => .ok type s
  | .error finding => .error finding s

/-- Notes the type of an expression once it is settled. -/
def traced (kind : Kind) (check : Check Ty) : Check Ty := do
  let type ← check
  modify fun s => { s with trace := s.trace ++ [⟨kind, type⟩] }
  return type

section Runs

variable {β : Type} {check : Check α} {next : α → Check β} {s t : State} {name : Text}
  {span : Option Span} {symbol : Symbol} {type : Ty}

theorem bind_of_ok {a : α} (h : check s = .ok a t) : (check >>= next) s = next a t := by
  change EStateM.bind check next s = _
  rw [EStateM.bind, h]

theorem bind_of_error {f : Finding} (h : check s = .error f t) :
    (check >>= next) s = .error f t := by
  change EStateM.bind check next s = _
  rw [EStateM.bind, h]

theorem require_of_some (h : s.scope.lookup name = some type) :
    require name span s = .ok type s := by
  simp [require, Scope.require, h]

theorem require_of_none (h : s.scope.lookup name = none) :
    require name span s = .error ⟨.undefined name, span⟩ s := by
  simp [require, Scope.require, h]

theorem declare_of_none (h : s.scope.lookup symbol.name = none) :
    declare symbol s = .ok () { s with scope := ⟨s.scope.symbols ++ [symbol]⟩ } := by
  have hfind : s.scope.find? symbol.name = none := by simpa [Scope.lookup] using h
  simp [declare, Scope.declare, Scope.contains, hfind]

theorem declare_of_some (h : s.scope.lookup symbol.name = some type) :
    declare symbol s = .error ⟨.redeclared symbol.name, symbol.span⟩ s := by
  obtain ⟨found, hfind, -⟩ := Option.map_eq_some_iff.mp h
  simp [declare, Scope.declare, Scope.contains, hfind]

end Runs

end Check

namespace Node

/-- The child at an index. -/
def child (n : Node) (index : Int) : Except Finding Node :=
  match if 0 ≤ index then n.children[index.toNat]? else none with
  | some child => .ok child
  | none => .error (.malformed (.missingChild n.kind index) n.span)

/-- The value, which must be given but may be empty. -/
def readValue (n : Node) : Except Finding Text :=
  match n.value with
  | some value => .ok value
  | none => .error (.malformed (.noValue n.kind) n.span)

/-- The name of an identifier. -/
def readName (n : Node) : Except Finding Text :=
  if n.kind = .identifier then n.readValue
  else .error (.malformed (.notIdentifier n.kind) n.span)

end Node

/-- The type that a keyword names; a keyword that is not given counts as an empty one. -/
def Ty.ofKeyword (keyword : Option Text) (span : Option Span) : Except Finding Ty :=
  let keyword := keyword.getD ""
  match Ty.ofKeyword? keyword with
  | some type => .ok type
  | none => .error (.malformed (.unknownKeyword keyword) span)

end TreeCheck
