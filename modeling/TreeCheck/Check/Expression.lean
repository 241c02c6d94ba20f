import TreeCheck.Check.Basic

namespace TreeCheck

/-- The two families of comparison operators. -/
inductive Comparison where
  | ordering
  | equality
deriving DecidableEq, Repr

namespace Comparison

def operators : Comparison → List Text
  | .ordering => ["<", ">", "<=", ">="]
  | .equality => ["==", "!="]

def ofOperator? (operator : Text) : Option Comparison :=
  [ordering, equality].find? fun comparison => operator ∈ comparison.operators

/-- Numbers can be ordered; equality joins operands of one type. -/
def accepts : Comparison → Ty → Ty → Bool
  | .ordering, left, right => left = .number ∧ right = .number
  | .equality, left, right => left = right

end Comparison

namespace Check

/-- The family of the comparison operator that a node with several operands carries. -/
def comparison (kind : Kind) (operator : Option Text) (span : Option Span) : Check Comparison :=
  match operator with
  | none => malformed (.noValue kind) span
  | some operator =>
    match Comparison.ofOperator? operator with
    | some comparison => pure comparison
    | none => malformed (.unknownComparison operator) span

/-- Applies prefix operators to an operand: all must be the kind's own, and together they count as
one application. Without operators the operand passes through. -/
def applyOperators (kind : Kind) (own : Text) (operand : Ty) (ops : Option (List Text))
    (span : Option Span) (type : Ty) : Check Ty :=
  let ops := ops.getD []
  if ops.isEmpty then pure type
  else if ops.any (· ≠ own) then malformed (.foreignOperator kind own) span
  else if type ≠ operand then throw ⟨.expressionType, span⟩
  else do
    count .op
    return type

/-- The type of every operand of a layer, and of the layer itself. -/
def operandType : Kind → Ty
  | .boolExpr => .bool
  | _ => .number

/-- A variable that is read. -/
def read (identifier : Node) : Check Ty := do
  let name ← lift identifier.readName
  require name identifier.span

mutual

/-- The type of an expression. A layer with a single child passes its type on. -/
def typeOf : Node → Check Ty
  | ⟨kind, children, value, ops, span⟩ => traced kind <|
    match kind with
    | .expr =>
      match children with
      | child :: _ => typeOf child
      | [] => malformed (.missingChild kind 0) span
    | .genValue =>
      match children with
      | child :: _ => if child.kind = .identifier then read child else typeOf child
      | [] => malformed (.missingChild kind 0) span
    | .compExpr =>
      match children with
      | [child] => typeOf child
      | [] => do
        let _ ← comparison kind value span
        malformed (.missingChild kind 0) span
      | first :: rest => do
        let comparison ← comparison kind value span
        let left ← typeOf first
        compareWith comparison span left rest
        count .op
        return .bool
    | .addExpr | .mulExpr | .boolExpr =>
      match children with
      | [] => malformed (.noOperands kind) span
      | [child] => typeOf child
      | several => do
        operands span (operandType kind) several
        count .op
        return operandType kind
    | .notExpr =>
      match children with
      | child :: _ => do
        let type ← typeOf child
        applyOperators kind "!" .bool ops span type
      | [] => malformed (.missingChild kind 0) span
    | .unaExpr =>
      match children with
      | child :: _ => do
        let type ← typeOf child
        applyOperators kind "-" .number ops span type
      | [] => malformed (.missingChild kind 0) span
    | .boolValue => pure .bool
    | .intValue => pure .number
    | _ => malformed (.notExpression kind) span

/-- Every operand must have the given type. -/
def operands (span : Option Span) (operand : Ty) : List Node → Check Unit
  | [] => pure ()
  | child :: rest => do
    let type ← typeOf child
    if type = operand then operands span operand rest else throw ⟨.expressionType, span⟩

/-- Compares a left operand with the further ones in turn; the outcome of each comparison is the
left operand of the next. -/
def compareWith (comparison : Comparison) (span : Option Span) (left : Ty) :
    List Node → Check Unit
  | [] => pure ()
  | child :: rest => do
    let right ← typeOf child
    if comparison.accepts left right then compareWith comparison span .bool rest
    else throw ⟨.expressionType, span⟩

end

theorem typeOf_of_not_expression {n : Node} (h : n.kind.isExpression = false) :
    typeOf n = traced n.kind (malformed (.notExpression n.kind) n.span) := by
  obtain ⟨kind, children, value, ops, span⟩ := n
  cases kind <;> simp [Kind.isExpression] at h <;> simp only [typeOf]

section Layers

variable {kind : Kind} {rest : List Node} {c d : Node} {value : Option Text}
  {ops : Option (List Text)} {span : Option Span}

theorem typeOf_joined_nil (hk : kind = .addExpr ∨ kind = .mulExpr ∨ kind = .boolExpr) :
    typeOf ⟨kind, [], value, ops, span⟩ = traced kind (malformed (.noOperands kind) span) := by
  rcases hk with h | h | h <;> subst h <;> rw [typeOf]

theorem typeOf_joined_single (hk : kind = .addExpr ∨ kind = .mulExpr ∨ kind = .boolExpr) :
    typeOf ⟨kind, [c], value, ops, span⟩ = traced kind (typeOf c) := by
  rcases hk with h | h | h <;> subst h <;> rw [typeOf]

theorem typeOf_joined_several (hk : kind = .addExpr ∨ kind = .mulExpr ∨ kind = .boolExpr) :
    typeOf ⟨kind, c :: d :: rest, value, ops, span⟩ = traced kind (do
      operands span (operandType kind) (c :: d :: rest)
      count .op
      return operandType kind) := by
  rcases hk with h | h | h <;> subst h <;> simp [typeOf]

theorem typeOf_compared_nil :
    typeOf ⟨.compExpr, [], value, ops, span⟩ = traced .compExpr (do
      let _ ← comparison .compExpr value span
      malformed (.missingChild .compExpr 0) span) := by
  rw [typeOf]

theorem typeOf_compared_several :
    typeOf ⟨.compExpr, c :: d :: rest, value, ops, span⟩ = traced .compExpr (do
      let family ← comparison .compExpr value span
      let left ← typeOf c
      compareWith family span left (d :: rest)
      count .op
      return .bool) := by
  simp [typeOf]

end Layers

end Check

end TreeCheck
