import Mathlib.Logic.Equiv.Basic
import TreeCheck.Analyzer
import TreeCheck.Proofs.Check.Coverage
import TreeCheck.Proofs.Check.Simulation
import TreeCheck.Tree.Build

namespace TreeCheck

variable {f : Text → Text}

namespace Node

mutual

/-- The tree with every identifier renamed. -/
def rename (f : Text → Text) : Node → Node
  | ⟨kind, children, value, ops, span⟩ =>
    ⟨kind, renameAll f children, if kind = .identifier then value.map f else value, ops, span⟩

def renameAll (f : Text → Text) : List Node → List Node
  | [] => []
  | node :: rest => rename f node :: renameAll f rest

end

theorem renameAll_eq (list : List Node) : renameAll f list = list.map (rename f) := by
  induction list with
  | nil => rfl
  | cons node rest ih => rw [renameAll, ih, List.map_cons]

theorem rename_mk {kind : Kind} (hk : kind ≠ .identifier) (children : List Node)
    (value : Option Text) (ops : Option (List Text)) (span : Option Span) :
    rename f ⟨kind, children, value, ops, span⟩ =
      ⟨kind, children.map (rename f), value, ops, span⟩ := by
  rw [rename, renameAll_eq, if_neg hk]

theorem rename_kind (n : Node) : (n.rename f).kind = n.kind := by
  obtain ⟨kind, children, value, ops, span⟩ := n
  rw [rename]

theorem rename_span (n : Node) : (n.rename f).span = n.span := by
  obtain ⟨kind, children, value, ops, span⟩ := n
  rw [rename]

theorem rename_children (n : Node) : (n.rename f).children = n.children.map (rename f) := by
  obtain ⟨kind, children, value, ops, span⟩ := n
  rw [rename, renameAll_eq]

theorem rename_value (n : Node) :
    (n.rename f).value = if n.kind = .identifier then n.value.map f else n.value := by
  obtain ⟨kind, children, value, ops, span⟩ := n
  rw [rename]

end Node

def Problem.rename (f : Text → Text) : Problem → Problem
  | .undefined name => .undefined (f name)
  | .redeclared name => .redeclared (f name)
  | .assignmentType name => .assignmentType (f name)
  | problem => problem

def Finding.rename (f : Text → Text) (g : Finding) : Finding := ⟨g.problem.rename f, g.span⟩

def Symbol.rename (f : Text → Text) (s : Symbol) : Symbol := { s with name := f s.name }

def Scope.rename (f : Text → Text) (s : Scope) : Scope := ⟨s.symbols.map (Symbol.rename f)⟩

def State.rename (f : Text → Text) (s : State) : State := { s with scope := s.scope.rename f }

theorem Scope.find?_rename (hf : Function.Injective f) (s : Scope) (name : Text) :
    (s.rename f).find? (f name) = (s.find? name).map (Symbol.rename f) := by
  unfold find? rename
  rw [List.find?_map]
  congr 2
  funext symbol
  simp [Symbol.rename, hf.eq_iff]

theorem Scope.lookup_rename (hf : Function.Injective f) (s : Scope) (name : Text) :
    (s.rename f).lookup (f name) = s.lookup name := by
  rw [lookup, find?_rename hf, Option.map_map]
  rfl

theorem Scope.contains_rename (hf : Function.Injective f) (s : Scope) (name : Text) :
    (s.rename f).contains (f name) = s.contains name := by
  rw [contains, find?_rename hf, Option.isSome_map, contains]

namespace Check

/-- The second run is the first one with its names renamed. -/
def byName (f : Text → Text) : Link where
  state s t := t = s.rename f
  finding g h := h = g.rename f

abbrev Renames (f : Text → Text) (check other : Check α) : Prop :=
  Simulates (byName f) Eq check other

section Steps

theorem count_renames (counter : Counter) : Renames f (count counter) (count counter) := by
  rintro s t rfl
  exact .ok rfl rfl

theorem layered_renames (span : Option Span) : (byName f).Layered span span where
  defect _ := rfl
  mismatch := rfl
  count := count_renames .op
  note typed := by
    rintro s t rfl
    exact .ok rfl rfl

theorem require_renames (hf : Function.Injective f) (name : Text) (span : Option Span) :
    Renames f (require name span) (require (f name) span) := by
  rintro s t rfl
  have hlookup : (s.rename f).scope.lookup (f name) = s.scope.lookup name :=
    Scope.lookup_rename hf s.scope name
  unfold require Scope.require
  rw [hlookup]
  cases s.scope.lookup name with
  | none => exact .error rfl rfl
  | some type => exact .ok rfl rfl

theorem declare_renames (hf : Function.Injective f) (symbol : Symbol) :
    Renames f (declare symbol) (declare (symbol.rename f)) := by
  rintro s t rfl
  have hcontains : (s.rename f).scope.contains (f symbol.name) = s.scope.contains symbol.name :=
    Scope.contains_rename hf s.scope symbol.name
  unfold declare Scope.declare
  rw [show (symbol.rename f).name = f symbol.name from rfl, hcontains]
  cases s.scope.contains symbol.name with
  | true => exact .error rfl rfl
  | false =>
    refine .ok rfl ?_
    change State.mk _ _ _ = State.mk _ _ _
    simp [State.rename, Scope.rename]

/-- The lookups in a tree give the renamed parts. -/
theorem child_found (n : Node) (index : Int) :
    (byName f).Found (fun c d => d = c.rename f) (n.child index) ((n.rename f).child index) := by
  unfold Node.child
  rw [Node.rename_children, Node.rename_kind, Node.rename_span]
  by_cases hi : 0 ≤ index
  · rw [if_pos hi, if_pos hi, List.getElem?_map]
    cases n.children[index.toNat]? with
    | none => exact .error rfl
    | some c => exact .ok rfl
  · rw [if_neg hi, if_neg hi]
    exact .error rfl

theorem readName_found (n : Node) :
    (byName f).Found (fun name other => other = f name) n.readName (n.rename f).readName := by
  unfold Node.readName Node.readValue
  rw [Node.rename_kind, Node.rename_span, Node.rename_value]
  by_cases hk : n.kind = .identifier
  · rw [if_pos hk, if_pos hk, if_pos hk]
    cases n.value with
    | none => exact .error rfl
    | some name => exact .ok rfl
  · rw [if_neg hk, if_neg hk]
    exact .error rfl

theorem ofKeyword_found (keyword : Option Text) (span : Option Span) :
    (byName f).Found (fun type other => other = type) (Ty.ofKeyword keyword span)
      (Ty.ofKeyword keyword span) := by
  unfold Ty.ofKeyword
  dsimp only
  split
  · exact .ok rfl
  · exact .error rfl

theorem malformed_renames {α : Type} (defect : Defect) (span : Option Span) :
    Renames f (malformed defect span : Check α) (malformed defect span) :=
  Simulates.throw rfl

theorem read_renames (hf : Function.Injective f) (n : Node) :
    Renames f (read n) (read (n.rename f)) := by
  refine Simulates.lift_bind (readName_found n) fun name => ?_
  rw [Node.rename_span]
  exact require_renames hf name n.span

end Steps

section Expressions

theorem typeOf_renames (hf : Function.Injective f) (n : Node) :
    Renames f (typeOf n) (typeOf (n.rename f)) := by
  induction n using Node.childInduction with
  | step n ih =>
    obtain ⟨kind, children, value, ops, span⟩ := n
    simp only at ih
    have hlayer := layered_renames (f := f) span
    by_cases hx : kind.isExpression = false
    · rw [typeOf_of_not_expression hx, typeOf_of_not_expression (by rwa [Node.rename_kind]),
        Node.rename_kind, Node.rename_span]
      exact hlayer.traced kind (hlayer.malformed _)
    · have hk : kind ≠ .identifier := by
        rintro rfl
        exact hx rfl
      rw [Node.rename_mk hk]
      cases kind with
      | expr =>
        cases children with
        | nil =>
          rw [List.map_nil, typeOf]
          exact hlayer.traced _ (hlayer.malformed _)
        | cons c rest =>
          rw [List.map_cons, typeOf, typeOf]
          exact hlayer.traced _ (ih c List.mem_cons_self)
      | genValue =>
        cases children with
        | nil =>
          rw [List.map_nil, typeOf]
          exact hlayer.traced _ (hlayer.malformed _)
        | cons c rest =>
          rw [List.map_cons, typeOf, typeOf, Node.rename_kind]
          refine hlayer.traced _ (Simulates.ite (fun _ => ?_) fun _ => ?_)
          · exact read_renames hf c
          · exact ih c List.mem_cons_self
      | compExpr => exact hlayer.compared (fun _ => rfl) ih
      | addExpr => exact hlayer.joined (.inl rfl) ih
      | mulExpr => exact hlayer.joined (.inr (.inl rfl)) ih
      | boolExpr => exact hlayer.joined (.inr (.inr rfl)) ih
      | notExpr | unaExpr =>
        cases children with
        | nil =>
          rw [List.map_nil, typeOf]
          exact hlayer.traced _ (hlayer.malformed _)
        | cons c rest =>
          rw [List.map_cons, typeOf, typeOf]
          exact hlayer.prefixed _ _ (ih c List.mem_cons_self)
      | boolValue | intValue =>
        rw [typeOf, typeOf]
        exact hlayer.traced _ (Simulates.pure rfl)
      | _ => exact absurd rfl hx

end Expressions

section Statements

theorem condition_renames (hf : Function.Injective f) (test : Node) (span : Option Span) :
    Renames f (condition test span) (condition (test.rename f) span) := by
  refine (typeOf_renames hf test).bind_eq fun type => ?_
  rw [Node.rename_span]
  exact Simulates.guard rfl

theorem declaration_renames (hf : Function.Injective f) {n : Node} (hk : n.kind ≠ .identifier) :
    Renames f (declaration n) (declaration (n.rename f)) := by
  unfold declaration
  rw [Node.rename_value, if_neg hk, Node.rename_span]
  refine Simulates.lift_bind (ofKeyword_found n.value n.span) fun type => ?_
  refine Simulates.lift_bind (child_found n 0) fun target => ?_
  refine Simulates.lift_bind (readName_found target) fun name => ?_
  rw [Node.rename_span]
  have hdeclare := declare_renames hf { name, type, span := target.span.or n.span }
  exact hdeclare.bind_eq fun _ => count_renames .var

theorem returned_renames (hf : Function.Injective f) (context : Option Ty) (n : Node) :
    Renames f (returned context n) (returned context (n.rename f)) := by
  unfold returned
  rw [Node.rename_span]
  cases context with
  | none => exact Simulates.throw rfl
  | some expected =>
    refine Simulates.lift_bind (child_found n 0) fun result => ?_
    refine (typeOf_renames hf result).bind_eq fun type => ?_
    exact Simulates.guard rfl

theorem assignment_renames (hf : Function.Injective f) (n : Node) :
    Renames f (assignment n) (assignment (n.rename f)) := by
  unfold assignment
  rw [Node.rename_span]
  refine Simulates.lift_bind (child_found n 0) fun target => ?_
  refine Simulates.lift_bind (readName_found target) fun name => ?_
  refine Simulates.lift_bind (child_found n 1) fun value => ?_
  refine (typeOf_renames hf value).bind_eq fun type => ?_
  rw [Node.rename_span]
  refine (require_renames hf name _).bind_eq fun declared => ?_
  exact Simulates.guard rfl

theorem visitAll_renames {context : Option Ty} {nodes : List Node}
    (ih : ∀ c ∈ nodes, Renames f (visit context c) (visit context (c.rename f))) :
    Renames f (visitAll context nodes) (visitAll context (nodes.map (Node.rename f))) :=
  Simulates.visitAll ih

theorem visit_renames (hf : Function.Injective f) (context : Option Ty) (n : Node) :
    Renames f (visit context n) (visit context (n.rename f)) := by
  induction n using Node.childInduction generalizing context with
  | step n ih =>
    obtain ⟨kind, children, value, ops, span⟩ := n
    simp only at ih
    have hall (context : Option Ty) :
        Renames f (visitAll context children) (visitAll context (children.map (Node.rename f))) :=
      visitAll_renames fun c hc => ih c hc context
    by_cases hk : kind = .identifier
    · subst hk
      rw [Node.rename, visit, visit]
      exact Simulates.pure rfl
    have hrename := Node.rename_mk (f := f) hk children value ops span
    have htype := typeOf_renames hf ⟨kind, children, value, ops, span⟩
    cases kind with
    | program | block | stmt | functionBlock =>
      rw [hrename]
      simp only [visit]
      exact hall context
    | declaration =>
      have hdeclaration :=
        declaration_renames hf (n := ⟨.declaration, children, value, ops, span⟩) hk
      rw [hrename] at hdeclaration ⊢
      simpa only [visit] using hdeclaration
    | ifStmt | whileStmt =>
      rw [hrename]
      cases children with
      | nil =>
        rw [List.map_nil, visit]
        exact malformed_renames _ _
      | cons test rest =>
        rw [List.map_cons, visit, visit]
        have hrest :
            Renames f (visitAll context rest) (visitAll context (rest.map (Node.rename f))) :=
          visitAll_renames fun c hc => ih c (List.mem_cons_of_mem test hc) context
        exact (condition_renames hf test span).bind_eq fun _ => hrest.bind_eq fun _ =>
          count_renames _
    | functionStmt =>
      rw [hrename, visit, visit]
      refine Simulates.lift_bind (ofKeyword_found value span) fun type => ?_
      exact (hall (some type)).bind_eq fun _ => count_renames .func
    | returnStmt =>
      have hreturned := returned_renames hf context ⟨.returnStmt, children, value, ops, span⟩
      rw [hrename] at hreturned ⊢
      simpa only [visit] using hreturned
    | assignStmt =>
      have hassignment := assignment_renames hf ⟨.assignStmt, children, value, ops, span⟩
      rw [hrename] at hassignment ⊢
      simpa only [visit] using hassignment
    | identifier => exact absurd rfl hk
    | _ =>
      rw [hrename] at htype ⊢
      simp only [visit]
      exact htype.bind_eq fun _ => Simulates.pure rfl

end Statements

end Check

/-- What comes of a program, in terms of the check of its tree. -/
theorem analyzeAlone_outcome (logger : Logger) (traceTypes : Bool) (p : Node) :
    (analyzeAlone logger traceTypes p).outcome =
      if p.kind ≠ .program then .error (.rejected (.malformed (.notProgram p.kind) p.span))
      else match Check.visit none p {} with
        | .ok _ t => .ok ⟨t.usage, t.scope.entries⟩
        | .error g _ => .error (.rejected g) := by
  unfold analyzeAlone Analyzer.analyze
  simp only [Bool.false_eq_true, if_false]
  split
  · rfl
  · cases Check.visit none p {} <;> rfl

def Analysis.rename (f : Text → Text) (a : Analysis) : Analysis :=
  { a with symbols := a.symbols.map fun (name, type) => (f name, type) }

theorem Scope.entries_rename (s : Scope) :
    (s.rename f).entries = s.entries.map fun (name, type) => (f name, type) := by
  simp [entries, rename, Symbol.rename]

/-- The two runs have the same outcome up to names. -/
theorem outcome_rename (hf : Function.Injective f) (logger : Logger) (traceTypes : Bool)
    (p : Node) :
    (∃ a, (analyzeAlone logger traceTypes p).outcome = .ok a ∧
      (analyzeAlone logger traceTypes (p.rename f)).outcome = .ok (a.rename f)) ∨
    ∃ g, (analyzeAlone logger traceTypes p).outcome = .error (.rejected g) ∧
      (analyzeAlone logger traceTypes (p.rename f)).outcome = .error (.rejected (g.rename f)) := by
  rw [analyzeAlone_outcome, analyzeAlone_outcome, Node.rename_kind, Node.rename_span]
  by_cases hk : p.kind ≠ .program
  · rw [if_pos hk, if_pos hk]
    exact .inr ⟨_, rfl, rfl⟩
  · rw [if_neg hk, if_neg hk]
    have hends := Check.visit_renames hf none p {} {} rfl
    generalize Check.visit none p {} = first at hends
    generalize Check.visit none (p.rename f) {} = second at hends
    cases hends with
    | ok _ hs =>
      subst hs
      refine .inl ⟨_, rfl, ?_⟩
      rw [Analysis.rename, ← Scope.entries_rename]
      rfl
    | error hg _ =>
      subst hg
      exact .inr ⟨_, rfl, rfl⟩

/-- The words before and after the name in a message that is about one. -/
def Code.frame? : Code → Option (Text × Text)
  | .undefinedIdentifier => some ("Invalid use of undefined Identifier ", "")
  | .multipleDeclaration => some ("Identifier ", " has multiple declarations")
  | .invalidAssignmentType => some ("Invalid type in assignation of Identifier ", "")
  | _ => none

/-- The second diagnostic is the first with its name renamed, if it is about one. -/
structure Diagnostic.Renamed (f : Text → Text) (d e : Diagnostic) : Prop where
  code : e.code = d.code
  span : e.span = d.span
  named : ∀ before after, d.code.frame? = some (before, after) → ∃ name,
    d.data = [(("name" : Text), some (Json.str name))] ∧ d.message = before ++ name ++ after ∧
      e.data = [(("name" : Text), some (Json.str (f name)))] ∧ e.message = before ++ f name ++ after
  unnamed : d.code.frame? = none → d.data = [] ∧ e.data = [] ∧ e.message = d.message

theorem Finding.diagnostic_renamed (g : Finding) :
    Diagnostic.Renamed f g.diagnostic (g.rename f).diagnostic := by
  obtain ⟨problem, span⟩ := g
  cases problem with
  | undefined name | assignmentType name =>
    refine ⟨rfl, rfl, fun before after hframe => ?_, nofun⟩
    cases hframe
    exact ⟨name, rfl, Text.append_empty.symm, rfl, Text.append_empty.symm⟩
  | redeclared name =>
    refine ⟨rfl, rfl, fun before after hframe => ?_, nofun⟩
    cases hframe
    exact ⟨name, rfl, rfl, rfl, rfl⟩
  | _ => exact ⟨rfl, rfl, nofun, fun _ => ⟨rfl, rfl, rfl⟩⟩

/-- Renaming identifiers, distinct ones to distinct ones, changes the outcome of a program in its
names only: the counters are the same and the symbols come in the same order, and a rejected program
is rejected for the same reason at the same place. -/
theorem analyzeAlone_rename (f : Text → Text) (hf : Function.Injective f) (logger : Logger)
    (traceTypes : Bool) (p : Node) :
    ((∃ b, (analyzeAlone logger traceTypes (p.rename f)).outcome = .ok b) ↔
      ∃ a, (analyzeAlone logger traceTypes p).outcome = .ok a) ∧
    (∀ a, (analyzeAlone logger traceTypes p).outcome = .ok a →
      ∃ b, (analyzeAlone logger traceTypes (p.rename f)).outcome = .ok b ∧
        b.usage = a.usage ∧ b.summary = a.summary ∧
        b.symbols = a.symbols.map fun (name, type) => (f name, type)) ∧
    ∀ e, (analyzeAlone logger traceTypes p).outcome = .error e →
      ∃ g h, e = .rejected g ∧
        (analyzeAlone logger traceTypes (p.rename f)).outcome = .error (.rejected h) ∧
        Diagnostic.Renamed f g.diagnostic h.diagnostic := by
  rcases outcome_rename hf logger traceTypes p with ⟨a, ha, hb⟩ | ⟨g, hg, hh⟩
  · refine ⟨⟨fun _ => ⟨a, ha⟩, fun _ => ⟨_, hb⟩⟩, fun b hb' => ?_, fun e he => ?_⟩
    · rw [ha] at hb'
      cases hb'
      exact ⟨_, hb, rfl, rfl, rfl⟩
    · rw [ha] at he
      cases he
  · refine ⟨⟨fun ⟨b, hb⟩ => ?_, fun ⟨a, ha⟩ => ?_⟩, fun a ha => ?_, fun e he => ?_⟩
    · rw [hh] at hb
      cases hb
    · rw [hg] at ha
      cases ha
    · rw [hg] at ha
      cases ha
    · rw [hg] at he
      cases he
      exact ⟨g, _, rfl, hh, g.diagnostic_renamed⟩

/-- A keyword is a name like any other: a variable takes the name `num`, and its second declaration
is refused as before. -/
theorem analyzeAlone_rename_keyword :
    let f := Equiv.swap ("a" : Text) "num"
    let p := Node.program [Node.declaration "num" "a", Node.assignStmt "a" (Node.intValue 1),
      Node.declaration "bool" "a"]
    let logger : Logger := { component := "analyzer" }
    Function.Injective f ∧
    (analyzeAlone logger false p).outcome = .error (.rejected ⟨.redeclared "a", none⟩) ∧
    ∃ h, (analyzeAlone logger false (p.rename f)).outcome = .error (.rejected h) ∧
      h.diagnostic.message = "Identifier num has multiple declarations" := by
  intro f p logger
  have hp : (analyzeAlone logger false p).outcome =
      .error (.rejected ⟨.redeclared "a", none⟩) := rfl
  obtain ⟨g, h, hg, hh, hrenamed⟩ :=
    (analyzeAlone_rename f f.injective logger false p).2.2 _ hp
  cases hg
  obtain ⟨name, hdata, -, -, hmessage⟩ := hrenamed.named _ _ rfl
  have hname : name = "a" := by
    simpa [Finding.diagnostic, Finding.data, Problem.name?] using hdata.symm
  refine ⟨f.injective, hp, h, hh, ?_⟩
  rw [hmessage, hname, Equiv.swap_apply_left]
  rfl

end TreeCheck
