import TreeCheck.Proofs.Check.Counting
import TreeCheck.Proofs.Check.Renaming

namespace TreeCheck

/-- The first child of a node of the kind is looked at for its name, if it has no place. -/
def Place.named : Place → Kind → Bool
  | .statement _, .declaration => true
  | .statement _, .assignStmt => true
  | _, .genValue => true
  | _, _ => false

namespace Node

/-- The value of a node with so many children matters, be it where it may. A comparison of a single
child passes that child through. -/
def valued (kind : Kind) (count : Nat) : Bool :=
  match kind with
  | .declaration => true
  | .functionStmt => true
  | .compExpr => count ≠ 1
  | _ => false

/-- The node over other children, without its span and without what is never looked at. -/
def bare (n : Node) (children : List Node) : Node :=
  { kind := n.kind
    children
    value := if valued n.kind n.children.length then n.value else none
    ops := if n.kind = .notExpr ∨ n.kind = .unaExpr then n.ops else none }

/-- What is left of a node that is looked at for its name. -/
def nameCore (n : Node) : Node :=
  if n.kind = .identifier then { kind := .identifier, value := n.value } else n.bare []

mutual

/-- What the checker reads of a tree in a place. Below a node that may not stand there it reads
nothing, since no child has a place. -/
def core (place : Place) : Node → Node
  | ⟨kind, children, value, ops, span⟩ =>
    bare ⟨kind, children, value, ops, span⟩
      (coreFrom (place.child kind value) (place.named kind) 0 children)

/-- What it reads of children that are counted from an index. -/
def coreFrom (child : Nat → Kind → Option Place) (named : Bool) (index : Nat) :
    List Node → List Node
  | [] => []
  | node :: rest =>
    (match child index node.kind with
      | some place => [core place node]
      | none => if named ∧ index = 0 then [nameCore node] else []) ++
        coreFrom child named (index + 1) rest

end

theorem core_eq (place : Place) (n : Node) :
    n.core place =
      n.bare (coreFrom (place.child n.kind n.value) (place.named n.kind) 0 n.children) := by
  obtain ⟨kind, children, value, ops, span⟩ := n
  rw [core]

@[simp]
theorem core_kind (place : Place) (n : Node) : (n.core place).kind = n.kind := by
  rw [core_eq, bare]

@[simp]
theorem core_span (place : Place) (n : Node) : (n.core place).span = none := by
  rw [core_eq, bare]

/-- Children that all have one place. -/
theorem coreFrom_of_some {child : Nat → Kind → Option Place} {place : Place} (named : Bool)
    (index : Nat) (nodes : List Node) (h : ∀ i kind, index ≤ i → child i kind = some place) :
    coreFrom child named index nodes = nodes.map (core place) := by
  induction nodes generalizing index with
  | nil => rfl
  | cons node rest ih =>
    rw [coreFrom, h index node.kind (Nat.le_refl index),
      ih (index + 1) fun i kind hi => h i kind (Nat.le_of_succ_le hi)]
    rfl

/-- Children that are all passed over. -/
theorem coreFrom_of_none {child : Nat → Kind → Option Place} {named : Bool} {index : Nat}
    (nodes : List Node) (hn : named = true → index ≠ 0)
    (h : ∀ i kind, index ≤ i → child i kind = none) :
    coreFrom child named index nodes = [] := by
  induction nodes generalizing index with
  | nil => rfl
  | cons node rest ih =>
    have hname : ¬ (named = true ∧ index = 0) := fun hboth => hn hboth.1 hboth.2
    rw [coreFrom, h index node.kind (Nat.le_refl index),
      ih (fun _ => Nat.succ_ne_zero index) fun i kind hi => h i kind (Nat.le_of_succ_le hi)]
    simp only [if_neg hname, List.append_nil]

/-- Children beyond the limit of their parent have no place. -/
theorem child_beyond {place : Place} {kind inner : Kind} {value : Option Text} {limit i : Nat}
    (hl : childLimit kind = some limit) (hi : limit ≤ i) :
    place.child kind value i inner = none := by
  cases place <;> cases kind <;> cases hl <;> simp [Place.child] <;> omega

section Kinds

variable {kind : Kind} {children rest : List Node} {c d : Node} {value : Option Text}
  {ops : Option (List Text)} {span : Option Span} {place inner : Place}

theorem core_nil : core place ⟨kind, [], value, ops, span⟩ =
    bare ⟨kind, [], value, ops, span⟩ [] := by
  rw [core, coreFrom]

/-- All children have one place. -/
theorem core_of_all (h : ∀ i k, place.child kind value i k = some inner) :
    core place ⟨kind, children, value, ops, span⟩ =
      bare ⟨kind, children, value, ops, span⟩ (children.map (core inner)) := by
  rw [core, coreFrom_of_some _ 0 children fun i k _ => h i k]

/-- The first child has a place of its own, and all others have another one. -/
theorem core_of_test {others : Place} (hc : place.child kind value 0 c.kind = some inner)
    (hr : ∀ i k, 1 ≤ i → place.child kind value i k = some others) :
    core place ⟨kind, c :: rest, value, ops, span⟩ =
      bare ⟨kind, c :: rest, value, ops, span⟩ (core inner c :: rest.map (core others)) := by
  rw [core, coreFrom, hc, coreFrom_of_some _ 1 rest hr]
  rfl

/-- Only the first child is read, as a part. -/
theorem core_of_first (hl : childLimit kind = some 1)
    (hc : place.child kind value 0 c.kind = some inner) :
    core place ⟨kind, c :: rest, value, ops, span⟩ =
      bare ⟨kind, c :: rest, value, ops, span⟩ [core inner c] := by
  rw [core, coreFrom, hc, coreFrom_of_none rest (fun _ => Nat.one_ne_zero) fun i k hi =>
    child_beyond hl hi]
  rfl

/-- Only the first child is read, for its name. -/
theorem core_of_name (hl : childLimit kind = some 1) (hn : place.named kind = true)
    (hc : place.child kind value 0 c.kind = none) :
    core place ⟨kind, c :: rest, value, ops, span⟩ =
      bare ⟨kind, c :: rest, value, ops, span⟩ [c.nameCore] := by
  rw [core, coreFrom, hc, coreFrom_of_none rest (fun _ => Nat.one_ne_zero) fun i k hi =>
    child_beyond hl hi]
  simp [hn]

theorem core_conditional (context : Option Ty) (hk : kind = .ifStmt ∨ kind = .whileStmt) :
    core (.statement context) ⟨kind, c :: rest, value, ops, span⟩ =
      ⟨kind, core .expression c :: rest.map (core (.statement context)), none, none, none⟩ := by
  have hplace : ∀ i k, 1 ≤ i → Place.child (.statement context) kind value i k =
      some (.statement context) := by
    intro i k hi
    rcases hk with rfl | rfl <;> simp [Place.child] <;> omega
  rcases hk with rfl | rfl <;> exact core_of_test rfl hplace

/-- An expression as a statement is read like one inside another. -/
theorem core_statement_of_expression (context : Option Ty) (hk : kind.isExpression = true) :
    core (.statement context) ⟨kind, children, value, ops, span⟩ =
      core .expression ⟨kind, children, value, ops, span⟩ := by
  rw [core, core]
  cases kind <;> simp [Kind.isExpression] at hk <;> rfl

end Kinds

section Lookups

variable {place inner : Place} {n : Node}

theorem core_children (place : Place) (n : Node) :
    (n.core place).children =
      coreFrom (place.child n.kind n.value) (place.named n.kind) 0 n.children := by
  rw [core_eq, bare]

/-- The first child, where it has a place. -/
theorem core_first (h : ∀ k, place.child n.kind n.value 0 k = some inner) :
    (n.core place).children[0]? = n.children[0]?.map (core inner) := by
  rw [core_children]
  cases n.children with
  | nil => rfl
  | cons c rest =>
    rw [coreFrom, h c.kind]
    rfl

/-- The first child, where it is looked at for its name. -/
theorem core_target (hn : place.named n.kind = true)
    (h : ∀ k, place.child n.kind n.value 0 k = none) :
    (n.core place).children[0]? = n.children[0]?.map nameCore := by
  rw [core_children]
  cases n.children with
  | nil => rfl
  | cons c rest =>
    rw [coreFrom, h c.kind]
    simp [hn]

/-- The second child, where it has a place behind a name. -/
theorem core_second (hn : place.named n.kind = true)
    (h : ∀ k, place.child n.kind n.value 0 k = none)
    (hs : ∀ k, place.child n.kind n.value 1 k = some inner) :
    (n.core place).children[1]? = n.children[1]?.map (core inner) := by
  rw [core_children]
  match n.children with
  | [] => rfl
  | [c] =>
    rw [coreFrom, h c.kind, coreFrom]
    simp [hn]
  | c :: d :: rest =>
    rw [coreFrom, h c.kind, coreFrom, hs d.kind]
    simp [hn]

end Lookups

end Node

/-- The position in the core. -/
def Visit.core (v : Visit) : Visit := ⟨v.place, v.node.core v.place⟩

section Positions

variable {child : Nat → Kind → Option Place} {named : Bool}

@[simp]
theorem Node.nameCore_kind (n : Node) : n.nameCore.kind = n.kind := by
  unfold nameCore
  split
  · next hk => exact hk.symm
  · rfl

/-- Once a child is passed over, so are all behind it. -/
theorem Place.child_passed {place : Place} {kind inner other : Kind} {value : Option Text}
    {i j : Nat} (h : place.child kind value i inner = none)
    (hn : ¬ (place.named kind = true ∧ i = 0)) (hj : i ≤ j) :
    place.child kind value j other = none := by
  cases place <;> cases kind <;> simp [Place.child, Place.named] at h hn ⊢ <;> omega

/-- A value decides the place of a child only if it is kept. -/
theorem Place.child_core (place : Place) (n : Node) :
    place.child n.kind (n.core place).value = place.child n.kind n.value := by
  rw [Node.core_eq, Node.bare]
  cases place <;> cases hk : n.kind <;> rfl

theorem visitsFrom_core (nodes : List Node) (index : Nat)
    (hpassed : ∀ i j k l, child i k = none → ¬ (named = true ∧ i = 0) → i ≤ j → child j l = none)
    (ih : ∀ c ∈ nodes, ∀ place, visits place (c.core place) = (visits place c).map Visit.core) :
    visitsFrom child index (Node.coreFrom child named index nodes) =
      (visitsFrom child index nodes).map Visit.core := by
  induction nodes generalizing index with
  | nil => rfl
  | cons c rest hr =>
    have hrest := hr (index + 1) fun d hd => ih d (List.mem_cons_of_mem c hd)
    rw [Node.coreFrom, visitsFrom]
    cases hc : child index c.kind with
    | some place =>
      simp only [List.singleton_append, visitsFrom, Node.core_kind, hc, List.map_append, hrest]
      rw [ih c List.mem_cons_self place]
    | none =>
      by_cases hname : named = true ∧ index = 0
      · simp only [if_pos hname, List.singleton_append, visitsFrom, Node.nameCore_kind, hc, hrest,
          List.nil_append]
      · have hbehind : ∀ i k, index + 1 ≤ i → child i k = none :=
          fun i k hi => hpassed index i c.kind k hc hname (by omega)
        simp only [if_neg hname, List.nil_append]
        rw [Node.coreFrom_of_none rest (fun _ => Nat.succ_ne_zero index) hbehind,
          visitsFrom_of_none (index + 1) rest hbehind]
        rfl

/-- The core keeps the positions of a tree. -/
theorem visits_core (place : Place) (n : Node) :
    visits place (n.core place) = (visits place n).map Visit.core := by
  induction n using Node.childInduction generalizing place with
  | step n ih =>
    have hpassed : ∀ i j k l, place.child n.kind n.value i k = none →
        ¬ (place.named n.kind = true ∧ i = 0) → i ≤ j → place.child n.kind n.value j l = none :=
      fun i j k l => Place.child_passed
    rw [visits_eq, visits_eq place n, Node.core_kind, Place.child_core, Node.core_children,
      visitsFrom_core n.children 0 hpassed ih, List.map_cons]
    rfl

end Positions

/-- The symbol without the place of its declaration. -/
def Symbol.unplaced (s : Symbol) : Symbol := { s with span := none }

def Scope.unplaced (s : Scope) : Scope := ⟨s.symbols.map Symbol.unplaced⟩

def State.unplaced (s : State) : State := { s with scope := s.scope.unplaced }

namespace Scope

theorem find?_unplaced (s : Scope) (name : Text) :
    s.unplaced.find? name = (s.find? name).map Symbol.unplaced := by
  unfold find? unplaced
  rw [List.find?_map]
  rfl

theorem lookup_unplaced (s : Scope) (name : Text) : s.unplaced.lookup name = s.lookup name := by
  rw [lookup, find?_unplaced, Option.map_map]
  rfl

theorem contains_unplaced (s : Scope) (name : Text) :
    s.unplaced.contains name = s.contains name := by
  rw [contains, find?_unplaced, Option.isSome_map, contains]

theorem entries_unplaced (s : Scope) : s.unplaced.entries = s.entries := by
  simp [entries, unplaced, Symbol.unplaced]

end Scope

namespace Check

/-- The second run is the first one without places. -/
def byProblem : Link where
  state s t := t = s.unplaced
  finding f g := g.problem = f.problem

abbrev Matches {α : Type} (check other : Check α) : Prop := Simulates byProblem Eq check other

section Steps

theorem count_matches (counter : Counter) : Matches (count counter) (count counter) := by
  rintro s t rfl
  exact .ok rfl rfl

theorem layered_matches (span other : Option Span) : byProblem.Layered span other where
  defect _ := rfl
  mismatch := rfl
  count := count_matches .op
  note typed := by
    rintro s t rfl
    exact .ok rfl rfl

theorem require_matches (name : Text) (span other : Option Span) :
    Matches (require name span) (require name other) := by
  rintro s t rfl
  have hlookup : s.unplaced.scope.lookup name = s.scope.lookup name :=
    Scope.lookup_unplaced s.scope name
  unfold require Scope.require
  rw [hlookup]
  cases s.scope.lookup name with
  | none => exact .error rfl rfl
  | some type => exact .ok rfl rfl

theorem declare_matches (symbol : Symbol) : Matches (declare symbol) (declare symbol.unplaced) := by
  rintro s t rfl
  have hcontains : s.unplaced.scope.contains symbol.name = s.scope.contains symbol.name :=
    Scope.contains_unplaced s.scope symbol.name
  unfold declare Scope.declare
  rw [show symbol.unplaced.name = symbol.name from rfl, hcontains]
  cases s.scope.contains symbol.name with
  | true => exact .error rfl rfl
  | false =>
    refine .ok rfl ?_
    change State.mk _ _ _ = State.mk _ _ _
    simp [State.unplaced, Scope.unplaced]

theorem malformed_matches {α : Type} (defect : Defect) (span other : Option Span) :
    Matches (malformed defect span : Check α) (malformed defect other) :=
  Simulates.throw rfl

/-- The lookups in a tree find the same in its core. -/
theorem child_matches {n m : Node} {image : Node → Node} {i : Nat} (hk : m.kind = n.kind)
    (h : m.children[i]? = n.children[i]?.map image) :
    byProblem.Found (fun c d => d = image c) (n.child i) (m.child i) := by
  have hi : (0 : Int) ≤ i := Int.natCast_nonneg i
  unfold Node.child
  rw [if_pos hi, if_pos hi, Int.toNat_natCast, h, hk]
  cases n.children[i]? with
  | none => exact .error rfl
  | some c => exact .ok rfl

theorem readName_matches (n : Node) :
    byProblem.Found (fun name other => other = name) n.readName n.nameCore.readName := by
  unfold Node.nameCore Node.readName Node.readValue
  by_cases hk : n.kind = .identifier
  · rw [if_pos hk, if_pos hk, if_pos rfl]
    cases n.value with
    | none =>
      rw [hk]
      exact .error rfl
    | some name => exact .ok rfl
  · have hbare : (n.bare []).kind ≠ .identifier := hk
    rw [if_neg hk, if_neg hk, if_neg hbare]
    exact .error rfl

theorem ofKeyword_matches (keyword : Option Text) (span other : Option Span) :
    byProblem.Found (fun type found => found = type) (Ty.ofKeyword keyword span)
      (Ty.ofKeyword keyword other) := by
  unfold Ty.ofKeyword
  dsimp only
  cases Ty.ofKeyword? (keyword.getD "") with
  | none => exact .error rfl
  | some type => exact .ok rfl

theorem read_matches (n : Node) : Matches (read n) (read n.nameCore) :=
  Simulates.lift_bind (readName_matches n) fun name => require_matches name n.span _

end Steps

section Expressions

variable {kind : Kind} {children : List Node} {value : Option Text}
  {ops : Option (List Text)} {span : Option Span}

private theorem joined_matches (hk : kind = .addExpr ∨ kind = .mulExpr ∨ kind = .boolExpr)
    (ih : ∀ c ∈ children, Matches (typeOf c) (typeOf (c.core .expression))) :
    Matches (typeOf ⟨kind, children, value, ops, span⟩)
      (typeOf (Node.core .expression ⟨kind, children, value, ops, span⟩)) := by
  have hcore : Node.core .expression ⟨kind, children, value, ops, span⟩ =
      ⟨kind, children.map (Node.core .expression), none, none, none⟩ := by
    rcases hk with rfl | rfl | rfl <;> exact Node.core_of_all fun i k => rfl
  rw [hcore]
  exact (layered_matches span none).joined hk ih

private theorem compared_matches
    (ih : ∀ c ∈ children, Matches (typeOf c) (typeOf (c.core .expression))) :
    Matches (typeOf ⟨.compExpr, children, value, ops, span⟩)
      (typeOf (Node.core .expression ⟨.compExpr, children, value, ops, span⟩)) := by
  rw [Node.core_of_all fun i k => rfl]
  refine (layered_matches span none).compared (fun hl => ?_) ih
  simp [Node.valued, hl]

theorem typeOf_matches (n : Node) : Matches (typeOf n) (typeOf (n.core .expression)) := by
  induction n using Node.childInduction with
  | step n ih =>
    obtain ⟨kind, children, value, ops, span⟩ := n
    simp only at ih
    have hlayer := layered_matches span none
    by_cases hx : kind.isExpression = false
    · rw [typeOf_of_not_expression hx, typeOf_of_not_expression (by rwa [Node.core_kind]),
        Node.core_kind]
      exact hlayer.traced kind (malformed_matches _ _ _)
    cases kind with
    | expr =>
      cases children with
      | nil =>
        rw [Node.core_nil, Node.bare, typeOf, typeOf]
        exact hlayer.traced _ (hlayer.malformed _)
      | cons c rest =>
        rw [Node.core_of_first rfl rfl, Node.bare, typeOf, typeOf]
        exact hlayer.traced _ (ih c List.mem_cons_self)
    | genValue =>
      cases children with
      | nil =>
        rw [Node.core_nil, Node.bare, typeOf, typeOf]
        exact hlayer.traced _ (hlayer.malformed _)
      | cons c rest =>
        by_cases hc : c.kind = .identifier
        · rw [Node.core_of_name rfl rfl (by simp [Place.child, hc]), Node.bare, typeOf, typeOf]
          have hname : c.nameCore.kind = .identifier := by
            rw [Node.nameCore, if_pos hc]
          rw [if_pos hc, if_pos hname]
          exact hlayer.traced _ (read_matches c)
        · have hplace : Place.expression.child .genValue value 0 c.kind = some .expression := by
            simp [Place.child, hc]
          rw [Node.core_of_first rfl hplace, Node.bare, typeOf, typeOf, Node.core_kind, if_neg hc,
            if_neg hc]
          exact hlayer.traced _ (ih c List.mem_cons_self)
    | compExpr => exact compared_matches ih
    | addExpr => exact joined_matches (.inl rfl) ih
    | mulExpr => exact joined_matches (.inr (.inl rfl)) ih
    | boolExpr => exact joined_matches (.inr (.inr rfl)) ih
    | notExpr | unaExpr =>
      cases children with
      | nil =>
        rw [Node.core_nil, Node.bare, typeOf, typeOf]
        exact hlayer.traced _ (hlayer.malformed _)
      | cons c rest =>
        rw [Node.core_of_first rfl rfl, Node.bare, typeOf, typeOf]
        exact hlayer.prefixed _ _ (ih c List.mem_cons_self)
    | boolValue | intValue =>
      rw [Node.core_eq, Node.bare, typeOf, typeOf]
      exact hlayer.traced _ (Simulates.pure rfl)
    | _ => exact absurd rfl hx

end Expressions

section Statements

variable {context : Option Ty} {n : Node}

theorem condition_matches (test : Node) (span other : Option Span) :
    Matches (condition test span) (condition (test.core .expression) other) :=
  (typeOf_matches test).bind_eq fun _ => Simulates.guard rfl

theorem declaration_matches (hn : n.kind = .declaration) :
    Matches (declaration n) (declaration (n.core (.statement context))) := by
  have hchild : (n.core (.statement context)).children[0]? = n.children[0]?.map Node.nameCore :=
    Node.core_target (by rw [hn]; rfl) fun k => by rw [hn]; rfl
  have hvalue : (n.core (.statement context)).value = n.value := by
    rw [Node.core_eq, Node.bare, hn]
    rfl
  unfold declaration
  rw [hvalue]
  refine Simulates.lift_bind (ofKeyword_matches n.value n.span _) fun type => ?_
  refine Simulates.lift_bind (child_matches (i := 0) (Node.core_kind _ n) hchild) fun target => ?_
  refine Simulates.lift_bind (readName_matches target) fun name => ?_
  have hspan : target.nameCore.span = none := by
    unfold Node.nameCore
    split <;> rfl
  rw [hspan, Node.core_span]
  have hdeclare := declare_matches { name, type, span := target.span.or n.span }
  exact hdeclare.bind_eq fun _ => count_matches .var

theorem returned_matches (hn : n.kind = .returnStmt) :
    Matches (returned context n) (returned context (n.core (.statement context))) := by
  have hchild : (n.core (.statement context)).children[0]? =
      n.children[0]?.map (Node.core .expression) :=
    Node.core_first fun k => by rw [hn]; rfl
  unfold returned
  cases context with
  | none => exact Simulates.throw rfl
  | some expected =>
    refine Simulates.lift_bind (child_matches (i := 0) (Node.core_kind _ n) hchild) fun result => ?_
    exact (typeOf_matches result).bind_eq fun _ => Simulates.guard rfl

theorem assignment_matches (hn : n.kind = .assignStmt) :
    Matches (assignment n) (assignment (n.core (.statement context))) := by
  have htarget : (n.core (.statement context)).children[0]? = n.children[0]?.map Node.nameCore :=
    Node.core_target (by rw [hn]; rfl) fun k => by rw [hn]; rfl
  have hvalue : (n.core (.statement context)).children[1]? =
      n.children[1]?.map (Node.core .expression) :=
    Node.core_second (by rw [hn]; rfl) (fun k => by rw [hn]; rfl) fun k => by rw [hn]; rfl
  unfold assignment
  refine Simulates.lift_bind (child_matches (i := 0) (Node.core_kind _ n) htarget) fun target => ?_
  refine Simulates.lift_bind (readName_matches target) fun name => ?_
  refine Simulates.lift_bind (child_matches (i := 1) (Node.core_kind _ n) hvalue) fun value => ?_
  refine (typeOf_matches value).bind_eq fun type => ?_
  exact (require_matches name _ _).bind_eq fun declared => Simulates.guard rfl

theorem visit_matches (context : Option Ty) (n : Node) :
    Matches (visit context n) (visit context (n.core (.statement context))) := by
  induction n using Node.childInduction generalizing context with
  | step n ih =>
    obtain ⟨kind, children, value, ops, span⟩ := n
    simp only at ih
    have hall (context : Option Ty) : Matches (visitAll context children)
        (visitAll context (children.map (Node.core (.statement context)))) :=
      Simulates.visitAll fun c hc => ih c hc context
    cases kind with
    | program | block | stmt | functionBlock =>
      rw [Node.core_of_all fun i k => rfl, Node.bare]
      simp only [visit]
      exact hall context
    | declaration =>
      rw [visit_declaration rfl, visit_declaration (Node.core_kind _ _)]
      exact declaration_matches rfl
    | ifStmt | whileStmt =>
      cases children with
      | nil =>
        rw [Node.core_nil, Node.bare, visit, visit]
        exact malformed_matches _ _ _
      | cons test rest =>
        rw [Node.core_conditional context (by simp), visit, visit]
        have hrest : Matches (visitAll context rest)
            (visitAll context (rest.map (Node.core (.statement context)))) :=
          Simulates.visitAll fun c hc => ih c (List.mem_cons_of_mem test hc) context
        exact (condition_matches test span _).bind_eq fun _ => hrest.bind_eq fun _ =>
          count_matches _
    | functionStmt =>
      rw [Node.core_of_all fun i k => rfl, Node.bare, visit, visit]
      refine Simulates.lift_bind_ok (ofKeyword_matches value span _) fun type ht => ?_
      have hkeyword := Ty.ofKeyword_eq_ok.mp ht
      simp only [hkeyword, Option.bind_some, Ty.ofKeyword?_eq_some.mpr rfl]
      exact (hall (some type)).bind_eq fun _ => count_matches .func
    | returnStmt =>
      rw [visit_return rfl, visit_return (Node.core_kind _ _)]
      exact returned_matches rfl
    | assignStmt =>
      rw [visit_assign rfl, visit_assign (Node.core_kind _ _)]
      exact assignment_matches rfl
    | identifier =>
      rw [Node.core_eq, Node.bare, visit, visit]
      exact Simulates.pure rfl
    | _ =>
      rw [Node.core_statement_of_expression context rfl, visit_expression rfl,
        visit_expression (by rw [Node.core_kind]; rfl)]
      exact (typeOf_matches _).bind_eq fun _ => Simulates.pure rfl

end Statements

end Check

/-- A program and its core have the same positions and the same outcome: the same analysis, or a
rejection with the same code, message and data. -/
theorem analyzeAlone_core (logger : Logger) (traceTypes : Bool) (p : Node) :
    visits (.statement none) (p.core (.statement none)) =
      (visits (.statement none) p).map Visit.core ∧
    ((∃ a, (analyzeAlone logger traceTypes p).outcome = .ok a ∧
      (analyzeAlone logger traceTypes (p.core (.statement none))).outcome = .ok a) ∨
    ∃ f g, (analyzeAlone logger traceTypes p).outcome = .error (.rejected f) ∧
      (analyzeAlone logger traceTypes (p.core (.statement none))).outcome =
        .error (.rejected g) ∧
      g.diagnostic.code = f.diagnostic.code ∧ g.diagnostic.message = f.diagnostic.message ∧
      g.diagnostic.data = f.diagnostic.data) := by
  refine ⟨visits_core _ p, ?_⟩
  rw [analyzeAlone_outcome, analyzeAlone_outcome, Node.core_kind, Node.core_span]
  by_cases hk : p.kind ≠ .program
  · rw [if_pos hk, if_pos hk]
    exact .inr ⟨_, _, rfl, rfl, rfl, rfl, rfl⟩
  · rw [if_neg hk, if_neg hk]
    have hends := Check.visit_matches none p {} {} rfl
    generalize Check.visit none p {} = first at hends
    generalize Check.visit none (p.core (.statement none)) {} = second at hends
    cases hends with
    | @ok _ _ s t _ hs =>
      have hanalysis : (⟨t.usage, t.scope.entries⟩ : Analysis) = ⟨s.usage, s.scope.entries⟩ := by
        rw [show t = s.unplaced from hs, ← Scope.entries_unplaced s.scope]
        rfl
      exact .inl ⟨_, rfl, congrArg Except.ok hanalysis⟩
    | @error f g s t hf _ =>
      have hproblem : g.problem = f.problem := hf
      refine .inr ⟨f, g, rfl, rfl, ?_⟩
      simp only [Finding.diagnostic, Finding.data, hproblem, and_self]

example :
    let spare : Node := { kind := .intValue, value := some "7", span := some (.ofPosition .origin) }
    let declares : Node := { Node.declaration "num" "a" with
      children := [Node.identifier "a", spare], ops := some ["-"] }
    let sets := Node.assignStmt "a" spare
    (Node.program [declares, sets]).core (.statement none) =
      Node.program [Node.declaration "num" "a", Node.assignStmt "a" { kind := .intValue }] := rfl

end TreeCheck
