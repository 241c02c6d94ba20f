import TreeCheck.Tree.Basic

namespace TreeCheck

/-- What a node is to a walker: statements and names by their kind, all expressions alike. -/
inductive Role where
  | program
  | declaration
  | block
  | stmt
  | ifStmt
  | whileStmt
  | functionStmt
  | functionBlock
  | returnStmt
  | assignStmt
  | expression
  | identifier
deriving DecidableEq, Repr

namespace Role

def all : List Role :=
  [.program, .declaration, .block, .stmt, .ifStmt, .whileStmt, .functionStmt, .functionBlock,
    .returnStmt, .assignStmt, .expression, .identifier]

/-- The name of the visit that a node of the role receives. -/
def visitName : Role → String
  | .program => "visitProgram"
  | .declaration => "visitDeclaration"
  | .block => "visitBlock"
  | .stmt => "visitStmt"
  | .ifStmt => "visitIfStmt"
  | .whileStmt => "visitWhileStmt"
  | .functionStmt => "visitFunctionStmt"
  | .functionBlock => "visitFunctionBlock"
  | .returnStmt => "visitReturnStmt"
  | .assignStmt => "visitAssignStmt"
  | .expression => "visitExpression"
  | .identifier => "visitIdentifier"

def ofVisitName? (name : String) : Option Role := all.find? fun role => role.visitName = name

end Role

def Kind.role : Kind → Role
  | .program => .program
  | .declaration => .declaration
  | .block => .block
  | .stmt => .stmt
  | .ifStmt => .ifStmt
  | .whileStmt => .whileStmt
  | .functionStmt => .functionStmt
  | .functionBlock => .functionBlock
  | .returnStmt => .returnStmt
  | .assignStmt => .assignStmt
  | .identifier => .identifier
  | .expr | .compExpr | .addExpr | .mulExpr | .boolExpr | .notExpr | .unaExpr | .genValue
  | .boolValue | .intValue => .expression

/-- What a walker is told. -/
inductive Sighting where
  /-- A node is reached. -/
  | reached (node : Node)
  /-- A node is visited in a role. -/
  | visited (role : Role) (node : Node)
deriving Repr

/-- A line that tells of the sighting; a node without a value shows a dash. -/
def Sighting.describe : Sighting → Text
  | .reached node => "visitNode " ++ node.kind.name
  | .visited role node =>
    role.visitName ++ " " ++ node.kind.name ++ " " ++ node.value.getD "-"

/-- How a walker walks: the roles at which it stops, and whether it is told of nodes it reaches. -/
structure Walker where
  stop : List Role := []
  announce : Bool := false

namespace Walker

/-- Are the children of a node of the role left out? -/
def skips (w : Walker) (role : Role) : Bool := role = .identifier || w.stop.contains role

/-- What is told of a node itself. -/
def tell (w : Walker) (node : Node) : List Sighting :=
  (if w.announce then [.reached node] else []) ++ [.visited node.kind.role node]

mutual

/-- What the walker is told on its way through a tree. -/
def walk (w : Walker) : Node → List Sighting
  | ⟨kind, children, value, ops, span⟩ =>
    w.tell ⟨kind, children, value, ops, span⟩ ++
      if w.skips kind.role then [] else walkAll w children

def walkAll (w : Walker) : List Node → List Sighting
  | [] => []
  | node :: rest => walk w node ++ walkAll w rest

end

end Walker

end TreeCheck
