import TreeCheck.Proofs.Check.Runs
import TreeCheck.Proofs.Check.Coverage
import TreeCheck.Tree.Build

namespace TreeCheck

/-- The kinds that only hold statements. -/
def Kind.isGroup : Kind → Bool
  | .program | .block | .stmt | .functionBlock => true
  | _ => false

namespace Node

mutual

/-- The tree without the groups that stand as statements below it. -/
def flat : Node → Node
  | ⟨kind, children, value, ops, span⟩ =>
    { kind, value, ops, span
      children :=
        match kind, children with
        | .program, all | .block, all | .stmt, all | .functionBlock, all | .functionStmt, all =>
          flatAll all
        | .ifStmt, test :: rest | .whileStmt, test :: rest => test :: flatAll rest
        | _, all => all }

/-- The statements of a list, those of a group in its place. -/
def flatAll : List Node → List Node
  | [] => []
  | node :: rest =>
    (if node.kind.isGroup then (flat node).children else [flat node]) ++ flatAll rest

end

section Kinds

variable {n : Node}

/-- The statements below the node are all its children. -/
theorem flat_of_holder (hn : n.kind.isGroup = true ∨ n.kind = .functionStmt) :
    n.flat = { n with children := flatAll n.children } := by
  obtain ⟨kind, children, value, ops, span⟩ := n
  cases kind <;> simp [Kind.isGroup] at hn <;> rw [flat]

theorem flat_conditional {test : Node} {rest : List Node}
    (hn : n.kind = .ifStmt ∨ n.kind = .whileStmt) (hr : n.children = test :: rest) :
    n.flat = { n with children := test :: flatAll rest } := by
  obtain ⟨kind, children, value, ops, span⟩ := n
  subst hr
  rcases hn with hk | hk <;> cases hk <;> rw [flat]

@[simp]
theorem flat_kind (n : Node) : n.flat.kind = n.kind := by
  obtain ⟨kind, children, value, ops, span⟩ := n
  rfl

end Kinds

end Node

section Positions

variable {context : Option Ty} {n : Node}

/-- What becomes of a position: a group that stands as a statement is gone. -/
def Visit.flat? (v : Visit) : Option Visit :=
  match v.place with
  | .statement _ => if v.node.kind.isGroup then none else some ⟨v.place, v.node.flat⟩
  | .expression => some v

theorem filterMap_flat?_expressions {list : List Visit} (h : ∀ v ∈ list, v.place = .expression) :
    list.filterMap Visit.flat? = list := by
  induction list with
  | nil => rfl
  | cons v rest ih =>
    have hv : v.flat? = some v := by rw [Visit.flat?, h v List.mem_cons_self]
    rw [List.filterMap_cons_some hv, ih fun w hw => h w (List.mem_cons_of_mem v hw)]

/-- Below a statement whose parts are all expressions there are only expressions. -/
theorem visits_tail_expressions
    (h : ∀ i k inner, Place.child (.statement context) n.kind n.value i k = some inner →
      inner = .expression) :
    ∀ v ∈ (visits (.statement context) n).tail, v.place = .expression := by
  intro v hv
  rw [visits_eq, List.tail_cons] at hv
  obtain ⟨i, c, inner, -, hplace, hv⟩ := mem_visitsFrom.mp hv
  obtain rfl := h _ _ inner hplace
  exact visits_expression_place c v hv

theorem visits_isGroup (context : Option Ty) (hn : n.kind.isGroup = true) :
    visits (.statement context) n =
      ⟨.statement context, n⟩ :: visitsAll (.statement context) n.children := by
  refine visits_group context ?_
  cases hk : n.kind <;> simp [hk, Kind.isGroup] at hn ⊢

theorem visitsAll_flatAll (context : Option Ty) (nodes : List Node)
    (ih : ∀ c ∈ nodes, visits (.statement context) c.flat =
      ⟨.statement context, c.flat⟩ ::
        (visits (.statement context) c).tail.filterMap Visit.flat?) :
    visitsAll (.statement context) (Node.flatAll nodes) =
      (visitsAll (.statement context) nodes).filterMap Visit.flat? := by
  induction nodes with
  | nil => rfl
  | cons c rest hr =>
    have hrest := hr fun d hd => ih d (List.mem_cons_of_mem c hd)
    have hc := ih c List.mem_cons_self
    unfold visitsAll at hrest ⊢
    rw [Node.flatAll, List.flatMap_append, hrest, List.flatMap_cons, List.filterMap_append]
    congr 1
    -- a group and its flat form stand above the same statements; only the group itself is left out
    rw [visits_eq (.statement context) c, List.tail_cons] at hc
    rw [visits_eq (.statement context) c]
    by_cases hg : c.kind.isGroup = true
    · have hflat : c.flat.kind.isGroup = true := by rwa [Node.flat_kind]
      have hgone : Visit.flat? ⟨.statement context, c⟩ = none := if_pos hg
      rw [visits_isGroup context hflat] at hc
      rw [if_pos hg, List.filterMap_cons_none hgone]
      exact (List.cons.inj hc).2
    · have hkept : Visit.flat? ⟨.statement context, c⟩ = some ⟨.statement context, c.flat⟩ :=
        if_neg hg
      rw [if_neg hg, List.flatMap_singleton, hc, List.filterMap_cons_some hkept]

/-- A flat tree has the positions of the tree without the groups below it. -/
theorem visits_flat (context : Option Ty) (n : Node) :
    visits (.statement context) n.flat =
      ⟨.statement context, n.flat⟩ ::
        (visits (.statement context) n).tail.filterMap Visit.flat? := by
  induction n using Node.childInduction generalizing context with
  | step n ih =>
    obtain ⟨kind, children, value, ops, span⟩ := n
    simp only at ih
    have hall (inner : Option Ty) := visitsAll_flatAll inner children fun c hc => ih c hc inner
    cases kind with
    | program | block | stmt | functionBlock =>
      rw [Node.flat_of_holder (.inl rfl), visits_isGroup context rfl, visits_isGroup context rfl,
        List.tail_cons, ← hall context]
    | functionStmt =>
      rw [Node.flat_of_holder (.inr rfl), visits_function context rfl, visits_function context rfl,
        List.tail_cons, ← hall (value.bind Ty.ofKeyword?)]
    | ifStmt | whileStmt =>
      cases children with
      | nil => rfl
      | cons test rest =>
        have hrest := visitsAll_flatAll context rest fun c hc =>
          ih c (List.mem_cons_of_mem test hc) context
        rw [Node.flat_conditional (by simp) rfl, visits_conditional context (by simp) rfl,
          visits_conditional context (by simp) rfl, List.tail_cons, List.filterMap_append, hrest,
          filterMap_flat?_expressions (visits_expression_place test)]
    | _ =>
      rw [filterMap_flat?_expressions, visits_eq]
      · rfl
      · exact visits_tail_expressions fun i k inner hplace => by grind [Place.child]

end Positions

namespace Check

variable {context : Option Ty} {n : Node}

theorem visit_group (context : Option Ty) (hn : n.kind.isGroup = true) :
    visit context n = visitAll context n.children := by
  obtain ⟨kind, children, value, ops, span⟩ := n
  cases kind <;> simp [Kind.isGroup] at hn <;> rw [visit]

theorem visitAll_append (context : Option Ty) (first second : List Node) :
    visitAll context (first ++ second) =
      (do visitAll context first; visitAll context second) := by
  induction first with
  | nil => rw [List.nil_append, visitAll, pure_bind]
  | cons c rest ih => rw [List.cons_append, visitAll, ih, visitAll, bind_assoc]

theorem visitAll_singleton (context : Option Ty) (n : Node) :
    visitAll context [n] = visit context n := by
  rw [visitAll, visitAll]
  exact bind_pure_unit

theorem visitAll_flatAll (context : Option Ty) (nodes : List Node)
    (ih : ∀ c ∈ nodes, visit context c.flat = visit context c) :
    visitAll context (Node.flatAll nodes) = visitAll context nodes := by
  induction nodes with
  | nil => rfl
  | cons c rest hr =>
    have hc : visitAll context (if c.kind.isGroup then c.flat.children else [c.flat]) =
        visit context c := by
      by_cases hg : c.kind.isGroup = true
      · have hflat : c.flat.kind.isGroup = true := by rwa [Node.flat_kind]
        rw [if_pos hg, ← visit_group context hflat, ih c List.mem_cons_self]
      · rw [if_neg hg, visitAll_singleton, ih c List.mem_cons_self]
    rw [Node.flatAll, visitAll_append, hc, hr fun d hd => ih d (List.mem_cons_of_mem c hd),
      visitAll]

/-- A flat tree is checked as the tree is, from every state and with every outcome. -/
theorem visit_flat (context : Option Ty) (n : Node) : visit context n.flat = visit context n := by
  induction n using Node.childInduction generalizing context with
  | step n ih =>
    obtain ⟨kind, children, value, ops, span⟩ := n
    simp only at ih
    have hall (context : Option Ty) := visitAll_flatAll context children fun c hc => ih c hc context
    cases kind with
    | program | block | stmt | functionBlock =>
      rw [Node.flat_of_holder (.inl rfl)]
      simp only [visit, hall]
    | functionStmt =>
      rw [Node.flat_of_holder (.inr rfl)]
      simp only [visit, hall]
    | ifStmt | whileStmt =>
      cases children with
      | nil => rfl
      | cons test rest =>
        have hrest := visitAll_flatAll context rest fun c hc =>
          ih c (List.mem_cons_of_mem test hc) context
        rw [Node.flat_conditional (by simp) rfl]
        simp only [visit, hrest]
    | _ => rfl

end Check

/-- A program and the flat one have the same outcome, the same output and the same state at the end,
with its trace of types; their logs differ in the number of statements alone that they start with.
The flat program has the positions of the other but for the groups, in the same order. -/
theorem analyze_flat (a : Analyzer) (ha : a.used = false) (p : Node) (hp : p.kind = .program) :
    visits (.statement none) p.flat = ⟨.statement none, p.flat⟩ ::
      (visits (.statement none) p).tail.filterMap Visit.flat? ∧
    (a.analyze p.flat).1.outcome = (a.analyze p).1.outcome ∧
    (a.analyze p.flat).1.written = (a.analyze p).1.written ∧
    (a.analyze p.flat).2 = (a.analyze p).2 ∧
    ∃ last,
      (a.analyze p).1.log = a.logger.writeAll (a.runEntries p (a.analyze p).2.state last) ∧
      (a.analyze p.flat).1.log =
        a.logger.writeAll (a.runEntries p.flat (a.analyze p).2.state last) := by
  refine ⟨visits_flat none p, ?_⟩
  have hflat : p.flat.kind = .program := by rwa [Node.flat_kind]
  cases hvisit : Check.visit none p a.state with
  | ok value state =>
    have hsame : Check.visit none p.flat a.state = .ok () state := by rwa [Check.visit_flat]
    rw [Analyzer.analyze_ok ha hp hvisit, Analyzer.analyze_ok ha hflat hsame]
    exact ⟨rfl, rfl, rfl, Analyzer.successEntry a.logger.elapsed state.usage, rfl, rfl⟩
  | error finding state =>
    have hsame : Check.visit none p.flat a.state = .error finding state := by
      rwa [Check.visit_flat]
    rw [Analyzer.analyze_error ha hp hvisit, Analyzer.analyze_error ha hflat hsame]
    exact ⟨rfl, rfl, rfl, Analyzer.failureEntry finding, rfl, rfl⟩

/-- A name is declared in a block of a branch, and again behind the branch in an inner program: the
second declaration is refused at its place with the groups and without them. -/
theorem analyze_flat_branch :
    let logger : Logger := { component := "analyzer", minimum := .debug }
    let a : Analyzer := { logger, traceTypes := true }
    let place : Span := .ofPosition { line := 3, col := 5 }
    let second : Node := { Node.declaration "bool" "a" with span := some place }
    let inner := Node.block [Node.stmt (Node.declaration "num" "a"), Node.block []]
    let p := Node.program [Node.ifStmt (Node.boolValue true) [inner], Node.program [second]]
    p.flat = Node.program
      [Node.ifStmt (Node.boolValue true) [Node.declaration "num" "a"], second] ∧
    (a.analyze p).1.outcome = .error (.rejected ⟨.redeclared "a", some place⟩) ∧
    (a.analyze p.flat).1.outcome = (a.analyze p).1.outcome := by
  intro logger a place second inner p
  exact ⟨rfl, rfl, (analyze_flat a rfl p rfl).2.1⟩

end TreeCheck
