import TreeCheck.Tree.Basic

namespace TreeCheck.Node

def identifier (name : Text) : Node := { kind := .identifier, value := some name }

def program (children : List Node) : Node := { kind := .program, children }

/-- A variable of the type that the keyword names. -/
def declaration (keyword name : Text) : Node :=
  { kind := .declaration, children := [identifier name], value := some keyword }

def block (children : List Node) : Node := { kind := .block, children }

def stmt (child : Node) : Node := { kind := .stmt, children := [child] }

def ifStmt (condition : Node) (branches : List Node) : Node :=
  { kind := .ifStmt, children := condition :: branches }

def whileStmt (condition : Node) (body : List Node) : Node :=
  { kind := .whileStmt, children := condition :: body }

def functionBlock (children : List Node) : Node := { kind := .functionBlock, children }

/-- A function whose result has the type that the keyword names. -/
def functionStmt (keyword name : Text) (body : List Node) : Node :=
  { kind := .functionStmt, children := [identifier name, functionBlock body]
    value := some keyword }

def returnStmt (value : Node) : Node := { kind := .returnStmt, children := [value] }

def assignStmt (name : Text) (value : Node) : Node :=
  { kind := .assignStmt, children := [identifier name, value] }

def expr (child : Node) : Node := { kind := .expr, children := [child] }

/-- A comparison, or the plain left side unless both operator and right side are given. -/
def compExpr (left : Node) : Option Text → Option Node → Node
  | some op, some right => { kind := .compExpr, children := [left, right], value := some op }
  | _, _ => { kind := .compExpr, children := [left] }

/-- One of the layers that join any number of operands; an empty list of operators is left out. -/
def layer (kind : Kind) (operands : List Node) (ops : List Text) : Node :=
  { kind, children := operands, ops := if ops.isEmpty then none else some ops }

def addExpr : List Node → List Text → Node := layer .addExpr

def mulExpr : List Node → List Text → Node := layer .mulExpr

def boolExpr : List Node → List Text → Node := layer .boolExpr

/-- A child under a number of equal operators; a negative number means none. -/
def repeated (kind : Kind) (op : Text) (child : Node) (count : Int) : Node :=
  { kind, children := [child], ops := some (List.replicate count.toNat op) }

def notExpr : Node → Int → Node := repeated .notExpr "!"

def unaExpr : Node → Int → Node := repeated .unaExpr "-"

def genValue (child : Node) : Node := { kind := .genValue, children := [child] }

def boolValue (value : Bool) : Node :=
  { kind := .boolValue, value := some (if value then "true" else "false") }

def intValue (value : Int) : Node := { kind := .intValue, value := some (toString value) }

/-- A variable that is read. -/
def reference (name : Text) : Node := genValue (identifier name)

end TreeCheck.Node
