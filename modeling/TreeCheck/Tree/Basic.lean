import TreeCheck.Text

namespace TreeCheck

/-- The kinds of nodes in the tree of a small imperative language with numbers and truth values. -/
inductive Kind where
  | program
  | declaration
  | block
  | stmt
  | ifStmt
  | whileStmt
  | functionStmt
  | functionBlock
  | returnStmt
  | assignStmt
  | expr
  | compExpr
  | addExpr
  | mulExpr
  | boolExpr
  | notExpr
  | unaExpr
  | genValue
  | boolValue
  | intValue
  | identifier
deriving DecidableEq, Repr

namespace Kind

/-- Every kind, from the whole program to a name. -/
def all : List Kind :=
  [.program, .declaration, .block, .stmt, .ifStmt, .whileStmt, .functionStmt, .functionBlock,
    .returnStmt, .assignStmt, .expr, .compExpr, .addExpr, .mulExpr, .boolExpr, .notExpr, .unaExpr,
    .genValue, .boolValue, .intValue, .identifier]

def name : Kind → String
  | .program => "Program"
  | .declaration => "Declaration"
  | .block => "Block"
  | .stmt => "Stmt"
  | .ifStmt => "IfStmt"
  | .whileStmt => "WhileStmt"
  | .functionStmt => "FunctionStmt"
  | .functionBlock => "FunctionBlock"
  | .returnStmt => "ReturnStmt"
  | .assignStmt => "AssignStmt"
  | .expr => "Expr"
  | .compExpr => "CompExpr"
  | .addExpr => "AddExpr"
  | .mulExpr => "MulExpr"
  | .boolExpr => "BoolExpr"
  | .notExpr => "NotExpr"
  | .unaExpr => "UnaExpr"
  | .genValue => "GenValue"
  | .boolValue => "BoolValue"
  | .intValue => "IntValue"
  | .identifier => "Identifier"

def ofName? (name : Text) : Option Kind := all.find? fun kind => kind.name = name

/-- The ten kinds that have a type of their own. -/
def isExpression : Kind → Bool
  | .expr | .compExpr | .addExpr | .mulExpr | .boolExpr | .notExpr | .unaExpr | .genValue
  | .boolValue | .intValue => true
  | _ => false

end Kind

/-- A place in the source text. The order in which a document gives the two coordinates is kept, so
that the place can be written back as it came. -/
structure Position where
  line : Int
  col : Int
  colFirst : Bool := false
deriving DecidableEq, Repr

/-- A stretch of the source text. The order in which a document gives the two ends is kept. -/
structure Span where
  start : Position
  stop : Position
  stopFirst : Bool := false
deriving DecidableEq, Repr

/-- The stretch that is a single place. -/
def Span.ofPosition (p : Position) : Span := { start := p, stop := p }

/-- The place given to what has none in the source text. -/
def Position.origin : Position := { line := 1, col := 1 }

/-- A node. Its `value` is a type keyword, a name, an operator or the text of a literal; its `ops`
are the prefix operators of a `notExpr` or `unaExpr`. -/
structure Node where
  kind : Kind
  children : List Node := []
  value : Option Text := none
  ops : Option (List Text) := none
  span : Option Span := none
deriving Repr

instance : Inhabited Node := ⟨{ kind := .program }⟩

/-- The two types of the language. -/
inductive Ty where
  | number
  | bool
deriving DecidableEq, Repr

namespace Ty

def all : List Ty := [.number, .bool]

def name : Ty → String
  | .number => "Number"
  | .bool => "Bool"

def ofName? (name : Text) : Option Ty := all.find? fun type => type.name = name

/-- The keyword that declares a variable or function of the type. -/
def keyword : Ty → Text
  | .number => "num"
  | .bool => "bool"

def ofKeyword? (keyword : Text) : Option Ty := all.find? fun type => type.keyword = keyword

end Ty

end TreeCheck
