import TreeCheck.Diagnostic.Basic

namespace TreeCheck

/-- How the shape of a tree is wrong. -/
inductive Defect where
  | unknownKeyword (keyword : Text)
  | missingChild (kind : Kind) (index : Int)
  | noValue (kind : Kind)
  | notIdentifier (kind : Kind)
  | notExpression (kind : Kind)
  | unknownComparison (operator : Text)
  | noOperands (kind : Kind)
  | foreignOperator (kind : Kind) (own : Text)
  | notProgram (kind : Kind)
  | other (detail : Text)
deriving DecidableEq, Repr

def Defect.text : Defect → Text
  | .unknownKeyword keyword => "unknown type keyword '" ++ keyword ++ "'"
  | .missingChild kind index => kind.name ++ " is missing child " ++ toString index
  | .noValue kind => kind.name ++ " has no value"
  | .notIdentifier kind => "expected Identifier, found " ++ kind.name
  | .notExpression kind => kind.name ++ " cannot appear in expression position"
  | .unknownComparison operator => "unknown comparison operator '" ++ operator ++ "'"
  | .noOperands kind => kind.name ++ " has no operands"
  | .foreignOperator kind own => kind.name ++ " only accepts '" ++ own ++ "' operators"
  | .notProgram kind => "expected Program root, found " ++ kind.name
  | .other detail => detail

/-- What is wrong with a tree. -/
inductive Problem where
  | malformed (defect : Defect)
  | undefined (name : Text)
  | expressionType
  | redeclared (name : Text)
  | conditionType
  | assignmentType (name : Text)
  | returnType
  | returnOutside
deriving DecidableEq, Repr

namespace Problem

def code : Problem → Code
  | .malformed _ => .malformedTree
  | .undefined _ => .undefinedIdentifier
  | .expressionType => .invalidExpressionType
  | .redeclared _ => .multipleDeclaration
  | .conditionType => .invalidConditionType
  | .assignmentType _ => .invalidAssignmentType
  | .returnType => .returnTypeMismatch
  | .returnOutside => .returnOutsideFunction

def message : Problem → Text
  | .malformed defect => "Malformed tree: " ++ defect.text
  | .undefined name => "Invalid use of undefined Identifier " ++ name
  | .expressionType => "Invalid type in expression"
  | .redeclared name => "Identifier " ++ name ++ " has multiple declarations"
  | .conditionType => "Invalid type in condition"
  | .assignmentType name => "Invalid type in assignation of Identifier " ++ name
  | .returnType => "Return type does not match function type"
  | .returnOutside => "Return statement outside of function"

/-- The name that the problem is about. -/
def name? : Problem → Option Text
  | .undefined name | .redeclared name | .assignmentType name => some name
  | _ => none

end Problem

structure Finding where
  problem : Problem
  span : Option Span
deriving DecidableEq, Repr

namespace Finding

/-- The name that the problem is about, as the details of a diagnostic. -/
def data (f : Finding) : Record (Option Json) :=
  match f.problem.name? with
  | some name => [("name", some (.str name))]
  | none => []

def diagnostic (f : Finding) : Diagnostic :=
  { code := f.problem.code, message := f.problem.message, span := f.span, data := f.data }

def malformed (defect : Defect) (span : Option Span) : Finding := ⟨.malformed defect, span⟩

end Finding

end TreeCheck
