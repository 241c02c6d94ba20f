import TreeCheck.Check.Expression

namespace TreeCheck.Check

def declaration (node : Node) : Check Unit := do
  let type ← lift (Ty.ofKeyword node.value node.span)
  let target ← lift (node.child 0)
  let name ← lift target.readName
  declare { name, type, span := target.span.or node.span }
  count .var

/-- The condition of a branch or loop. -/
def condition (node : Node) (span : Option Span) : Check Unit := do
  let type ← typeOf node
  if type ≠ .bool then throw ⟨.conditionType, node.span.or span⟩

def returned (context : Option Ty) (node : Node) : Check Unit :=
  match context with
  | none => throw ⟨.returnOutside, node.span⟩
  | some expected => do
    let result ← lift (node.child 0)
    let type ← typeOf result
    if type ≠ expected then throw ⟨.returnType, node.span⟩

/-- The new value is checked before the name that it goes to. -/
def assignment (node : Node) : Check Unit := do
  let target ← lift (node.child 0)
  let name ← lift target.readName
  let value ← lift (node.child 1)
  let type ← typeOf value
  let declared ← require name (target.span.or node.span)
  if declared ≠ type then throw ⟨.assignmentType name, node.span⟩

mutual

/-- Checks a node in statement position. An expression there is checked and its type dropped; a name
there means nothing. -/
def visit (context : Option Ty) : Node → Check Unit
  | ⟨kind, children, value, ops, span⟩ =>
    match kind with
    | .program | .block | .stmt | .functionBlock => visitAll context children
    | .declaration => declaration ⟨kind, children, value, ops, span⟩
    | .ifStmt =>
      match children with
      | test :: branches => do
        condition test span
        visitAll context branches
        count .branch
      | [] => malformed (.missingChild kind 0) span
    | .whileStmt =>
      match children with
      | test :: body => do
        condition test span
        visitAll context body
        count .loop
      | [] => malformed (.missingChild kind 0) span
    | .functionStmt => do
      let type ← lift (Ty.ofKeyword value span)
      visitAll (some type) children
      count .func
    | .returnStmt => returned context ⟨kind, children, value, ops, span⟩
    | .assignStmt => assignment ⟨kind, children, value, ops, span⟩
    | .identifier => pure ()
    | _ => do
      let _ ← typeOf ⟨kind, children, value, ops, span⟩
      return ()

def visitAll (context : Option Ty) : List Node → Check Unit
  | [] => pure ()
  | node :: rest => do
    visit context node
    visitAll context rest

end

section Equations

variable {context : Option Ty} {n : Node}

theorem visit_declaration (hn : n.kind = .declaration) : visit context n = declaration n := by
  obtain ⟨kind, children, value, ops, span⟩ := n
  cases hn
  rw [visit]

theorem visit_return (hn : n.kind = .returnStmt) : visit context n = returned context n := by
  obtain ⟨kind, children, value, ops, span⟩ := n
  cases hn
  rw [visit]

theorem visit_assign (hn : n.kind = .assignStmt) : visit context n = assignment n := by
  obtain ⟨kind, children, value, ops, span⟩ := n
  cases hn
  rw [visit]

theorem visit_expression (hn : n.kind.isExpression = true) :
    visit context n = (do let _ ← typeOf n; return ()) := by
  obtain ⟨kind, children, value, ops, span⟩ := n
  cases kind <;> simp [Kind.isExpression] at hn <;> simp only [visit]

end Equations

end TreeCheck.Check
