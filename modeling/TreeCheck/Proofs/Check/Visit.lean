import TreeCheck.Check.Statement
import TreeCheck.Proofs.Tree.Nodes

namespace TreeCheck

/-- Where a node stands: as a statement, in a function of this type if in any, or as an
expression. -/
inductive Place where
  | statement (context : Option Ty)
  | expression
deriving DecidableEq, Repr

namespace Place

/-- The place of the child at an index, or `none` for a child that is passed over. An expression
has its parts in the same places whether it stands as a statement or inside another expression. -/
def child (place : Place) (kind : Kind) (value : Option Text) (index : Nat) (child : Kind) :
    Option Place :=
  match place, kind with
  | .statement context, .program => some (.statement context)
  | .statement context, .block => some (.statement context)
  | .statement context, .stmt => some (.statement context)
  | .statement context, .functionBlock => some (.statement context)
  | .statement _, .functionStmt => some (.statement (value.bind Ty.ofKeyword?))
  | .statement context, .ifStmt => some (if index = 0 then .expression else .statement context)
  | .statement context, .whileStmt => some (if index = 0 then .expression else .statement context)
  | .statement _, .returnStmt => if index = 0 then some .expression else none
  | .statement _, .assignStmt => if index = 1 then some .expression else none
  | _, .expr => if index = 0 then some .expression else none
  | _, .notExpr => if index = 0 then some .expression else none
  | _, .unaExpr => if index = 0 then some .expression else none
  | _, .genValue => if index = 0 ∧ child ≠ .identifier then some .expression else none
  | _, .compExpr => some .expression
  | _, .addExpr => some .expression
  | _, .mulExpr => some .expression
  | _, .boolExpr => some .expression
  | _, _ => none

/-- The parts of an expression are expressions. -/
theorem child_expression {kind inner : Kind} {value : Option Text} {index : Nat} {place : Place}
    (h : Place.expression.child kind value index inner = some place) : place = .expression := by
  unfold Place.child at h
  split at h <;> simp_all

end Place

/-- A node with the place where it stands. -/
structure Visit where
  place : Place
  node : Node
deriving Repr

mutual

/-- The nodes that the checker descends into, from a node in a place, in preorder. -/
def visits (place : Place) : Node → List Visit
  | ⟨kind, children, value, ops, span⟩ =>
    ⟨place, ⟨kind, children, value, ops, span⟩⟩ :: visitsFrom (place.child kind value) 0 children

/-- Those of children that are counted from an index. -/
def visitsFrom (child : Nat → Kind → Option Place) (index : Nat) : List Node → List Visit
  | [] => []
  | node :: rest =>
    (match child index node.kind with
      | some place => visits place node
      | none => []) ++ visitsFrom child (index + 1) rest

end

/-- All nodes of a list in one place. -/
def visitsAll (place : Place) (nodes : List Node) : List Visit := nodes.flatMap (visits place)

theorem visits_eq (place : Place) (n : Node) :
    visits place n = ⟨place, n⟩ :: visitsFrom (place.child n.kind n.value) 0 n.children := by
  obtain ⟨kind, children, value, ops, span⟩ := n
  rw [visits]

theorem mem_visits_self (place : Place) (n : Node) : ⟨place, n⟩ ∈ visits place n := by
  rw [visits_eq]
  exact List.mem_cons_self

/-- Lists for the children from an index on: each has what is picked from the first child, if it has a
place, and then the list for the others. -/
structure PartsOf {β : Type} (child : Nat → Kind → Option Place) (pick : Place → Node → List β)
    (parts : Nat → List Node → List β) : Prop where
  nil : ∀ index, parts index [] = []
  cons : ∀ index node rest, parts index (node :: rest) =
    (match child index node.kind with
      | some place => pick place node
      | none => []) ++ parts (index + 1) rest

namespace PartsOf

variable {β : Type} {child : Nat → Kind → Option Place} {pick : Place → Node → List β}
  {parts : Nat → List Node → List β} {index : Nat} {place : Place}

/-- Children that all have one place. -/
theorem of_some (h : PartsOf child pick parts) (nodes : List Node)
    (hs : ∀ i kind, index ≤ i → child i kind = some place) :
    parts index nodes = nodes.flatMap (pick place) := by
  induction nodes generalizing index with
  | nil => rw [h.nil, List.flatMap_nil]
  | cons node rest ih =>
    rw [h.cons, hs index node.kind (Nat.le_refl index),
      ih fun i kind hi => hs i kind (Nat.le_of_succ_le hi), List.flatMap_cons]

/-- Children that are all passed over. -/
theorem of_none (h : PartsOf child pick parts) (nodes : List Node)
    (hn : ∀ i kind, index ≤ i → child i kind = none) : parts index nodes = [] := by
  induction nodes generalizing index with
  | nil => exact h.nil index
  | cons node rest ih =>
    rw [h.cons, hn index node.kind (Nat.le_refl index),
      ih fun i kind hi => hn i kind (Nat.le_of_succ_le hi), List.append_nil]

/-- What is in a list was picked from a child that has a place. -/
theorem mem_iff (h : PartsOf child pick parts) {nodes : List Node} {v : β} :
    v ∈ parts index nodes ↔
      ∃ i c place, nodes[i]? = some c ∧ child (index + i) c.kind = some place ∧
        v ∈ pick place c := by
  induction nodes generalizing index with
  | nil => simp [h.nil]
  | cons node rest ih =>
    rw [h.cons, List.mem_append, ih]
    constructor
    · rintro (h | ⟨i, c, place, hc, hp, hv⟩)
      · cases hp : child index node.kind with
        | none => simp [hp] at h
        | some place => exact ⟨0, node, place, rfl, hp, by simpa [hp] using h⟩
      · exact ⟨i + 1, c, place, hc, by rw [← hp]; congr 1; omega, hv⟩
    · rintro ⟨i, c, place, hc, hp, hv⟩
      cases i with
      | zero =>
        cases hc
        exact .inl (by rw [Nat.add_zero] at hp; simpa [hp] using hv)
      | succ i =>
        exact .inr ⟨i, c, place, hc, by rw [← hp]; congr 1; omega, hv⟩

/-- Lists for the same children are related if what is picked for them is, child by child. -/
theorem rel {γ : Type} {other : Place → Node → List γ} {others : Nat → List Node → List γ}
    (R : List β → List γ → Prop) (h : PartsOf child pick parts) (h' : PartsOf child other others)
    (hnil : R [] []) (happend : ∀ {a b c d}, R a b → R c d → R (a ++ c) (b ++ d))
    {nodes : List Node} (hpick : ∀ c ∈ nodes, ∀ place, R (pick place c) (other place c))
    (index : Nat) :
    R (parts index nodes) (others index nodes) := by
  induction nodes generalizing index with
  | nil =>
    rw [h.nil, h'.nil]
    exact hnil
  | cons node rest ih =>
    rw [List.forall_mem_cons] at hpick
    rw [h.cons, h'.cons]
    refine happend ?_ (ih hpick.2 (index + 1))
    cases child index node.kind with
    | none => exact hnil
    | some place => exact hpick.1 place

end PartsOf

theorem visitsFrom_parts (child : Nat → Kind → Option Place) :
    PartsOf child visits (visitsFrom child) :=
  ⟨fun _ => by rw [visitsFrom], fun _ _ _ => by rw [visitsFrom]⟩

/-- Children that all have one place. -/
theorem visitsFrom_of_some {child : Nat → Kind → Option Place} {place : Place} (index : Nat)
    (nodes : List Node) (h : ∀ i kind, index ≤ i → child i kind = some place) :
    visitsFrom child index nodes = visitsAll place nodes :=
  (visitsFrom_parts child).of_some nodes h

/-- Children that are all passed over. -/
theorem visitsFrom_of_none {child : Nat → Kind → Option Place} (index : Nat) (nodes : List Node)
    (h : ∀ i kind, index ≤ i → child i kind = none) : visitsFrom child index nodes = [] :=
  (visitsFrom_parts child).of_none nodes h

/-- The positions below children are those of each child that has a place. -/
theorem mem_visitsFrom {child : Nat → Kind → Option Place} {index : Nat} {nodes : List Node}
    {v : Visit} :
    v ∈ visitsFrom child index nodes ↔
      ∃ i c place, nodes[i]? = some c ∧ child (index + i) c.kind = some place ∧
        v ∈ visits place c :=
  (visitsFrom_parts child).mem_iff

theorem visits_child_subset {place inner : Place} {n c : Node} {i : Nat}
    (hc : n.children[i]? = some c) (hp : place.child n.kind n.value i c.kind = some inner) :
    visits inner c ⊆ visits place n := by
  intro v hv
  rw [visits_eq, List.mem_cons]
  right
  exact mem_visitsFrom.mpr ⟨i, c, inner, hc, by rwa [Nat.zero_add], hv⟩

section Shapes

variable {place inner : Place} {n c d : Node} {rest : List Node}

/-- Only the first child has a place. -/
theorem visits_of_first (hn : n.children = c :: rest)
    (hc : place.child n.kind n.value 0 c.kind = some inner)
    (hr : ∀ i kind, 1 ≤ i → place.child n.kind n.value i kind = none) :
    visits place n = ⟨place, n⟩ :: visits inner c := by
  rw [visits_eq, hn, visitsFrom, hc, visitsFrom_of_none 1 rest hr, List.append_nil]

/-- Only the second child has a place. -/
theorem visits_of_second (hn : n.children = c :: d :: rest)
    (hc : place.child n.kind n.value 0 c.kind = none)
    (hd : place.child n.kind n.value 1 d.kind = some inner)
    (hr : ∀ i kind, 2 ≤ i → place.child n.kind n.value i kind = none) :
    visits place n = ⟨place, n⟩ :: visits inner d := by
  rw [visits_eq, hn, visitsFrom, hc, visitsFrom, hd, visitsFrom_of_none 2 rest hr,
    List.append_nil, List.nil_append]

/-- The first child has a place of its own, and all others have another one. -/
theorem visits_of_test {others : Place} (hn : n.children = c :: rest)
    (hc : place.child n.kind n.value 0 c.kind = some inner)
    (hr : ∀ i kind, 1 ≤ i → place.child n.kind n.value i kind = some others) :
    visits place n = ⟨place, n⟩ :: (visits inner c ++ visitsAll others rest) := by
  rw [visits_eq, hn, visitsFrom, hc, visitsFrom_of_some 1 rest hr]

/-- The first child is passed over like all others. -/
theorem visits_of_passed (hn : n.children = c :: rest)
    (hc : place.child n.kind n.value 0 c.kind = none)
    (hr : ∀ i kind, 1 ≤ i → place.child n.kind n.value i kind = none) :
    visits place n = [⟨place, n⟩] := by
  rw [visits_eq, hn, visitsFrom, hc, visitsFrom_of_none 1 rest hr, List.append_nil]

/-- All children have one place. -/
theorem visits_of_all (h : ∀ i kind, place.child n.kind n.value i kind = some inner) :
    visits place n = ⟨place, n⟩ :: visitsAll inner n.children := by
  rw [visits_eq, visitsFrom_of_some 0 n.children fun i kind _ => h i kind]

/-- No child has a place. -/
theorem visits_of_none (h : ∀ i kind, place.child n.kind n.value i kind = none) :
    visits place n = [⟨place, n⟩] := by
  rw [visits_eq, visitsFrom_of_none 0 n.children fun i kind _ => h i kind]

theorem visits_group (context : Option Ty)
    (hn : n.kind = .program ∨ n.kind = .block ∨ n.kind = .stmt ∨ n.kind = .functionBlock) :
    visits (.statement context) n =
      ⟨.statement context, n⟩ :: visitsAll (.statement context) n.children := by
  apply visits_of_all
  intro i kind
  rcases hn with h | h | h | h <;> rw [h] <;> rfl

theorem visits_conditional (context : Option Ty) (hn : n.kind = .ifStmt ∨ n.kind = .whileStmt)
    (hr : n.children = c :: rest) :
    visits (.statement context) n = ⟨.statement context, n⟩ ::
      (visits .expression c ++ visitsAll (.statement context) rest) := by
  apply visits_of_test hr
  · rcases hn with h | h <;> rw [h] <;> rfl
  · intro i kind hi
    rcases hn with h | h <;> simp [h, Place.child] <;> omega

theorem visits_function (context : Option Ty) (hn : n.kind = .functionStmt) :
    visits (.statement context) n = ⟨.statement context, n⟩ ::
      visitsAll (.statement (n.value.bind Ty.ofKeyword?)) n.children := by
  apply visits_of_all
  intro i kind
  rw [hn]
  rfl

theorem visits_return (context : Option Ty) (hn : n.kind = .returnStmt)
    (hr : n.children = c :: rest) :
    visits (.statement context) n = ⟨.statement context, n⟩ :: visits .expression c := by
  apply visits_of_first hr
  · rw [hn]
    rfl
  · intro i kind hi
    simp [hn, Place.child]
    omega

theorem visits_assign (context : Option Ty) (hn : n.kind = .assignStmt)
    (hr : n.children = c :: d :: rest) :
    visits (.statement context) n = ⟨.statement context, n⟩ :: visits .expression d := by
  apply visits_of_second hr
  · rw [hn]
    rfl
  · rw [hn]
    rfl
  · intro i kind hi
    simp [hn, Place.child]
    omega

/-- The kinds whose first child is the only part. -/
theorem visits_first (hn : n.kind = .expr ∨ n.kind = .notExpr ∨ n.kind = .unaExpr)
    (hr : n.children = c :: rest) :
    visits .expression n = ⟨.expression, n⟩ :: visits .expression c := by
  apply visits_of_first hr
  · rcases hn with h | h | h <;> rw [h] <;> rfl
  · intro i kind hi
    rcases hn with h | h | h <;> simp [h, Place.child] <;> omega

theorem visits_value (hn : n.kind = .genValue) (hr : n.children = c :: rest)
    (hc : c.kind ≠ .identifier) :
    visits .expression n = ⟨.expression, n⟩ :: visits .expression c := by
  apply visits_of_first hr
  · simp [hn, Place.child, hc]
  · intro i kind hi
    simp [hn, Place.child]
    omega

theorem visits_read (hn : n.kind = .genValue) (hr : n.children = c :: rest)
    (hc : c.kind = .identifier) : visits .expression n = [⟨.expression, n⟩] := by
  apply visits_of_passed hr
  · simp [hn, Place.child, hc]
  · intro i kind hi
    simp [hn, Place.child]
    omega

theorem visits_layer
    (hn : n.kind = .compExpr ∨ n.kind = .addExpr ∨ n.kind = .mulExpr ∨ n.kind = .boolExpr) :
    visits .expression n = ⟨.expression, n⟩ :: visitsAll .expression n.children := by
  apply visits_of_all
  intro i kind
  rcases hn with h | h | h | h <;> rw [h] <;> rfl

/-- An expression that stands as a statement has the positions that it has as an expression. -/
theorem visits_statement_of_expression (context : Option Ty) (hn : n.kind.isExpression = true) :
    visits (.statement context) n = ⟨.statement context, n⟩ :: (visits .expression n).tail := by
  have hc : Place.child (.statement context) n.kind n.value =
      Place.child .expression n.kind n.value := by
    funext i kind
    cases hk : n.kind <;> simp [hk, Kind.isExpression] at hn <;> rfl
  rw [visits_eq, visits_eq, hc, List.tail_cons]

end Shapes

theorem Ty.ofKeyword?_eq_some {keyword : Text} {type : Ty} :
    Ty.ofKeyword? keyword = some type ↔ keyword = type.keyword := by
  constructor
  · intro h
    have hf := List.find?_some h
    simpa using Eq.symm (of_decide_eq_true hf)
  · intro h
    subst h
    cases type <;> decide

theorem Ty.ofKeyword_eq_ok {value : Option Text} {span : Option Span} {type : Ty} :
    Ty.ofKeyword value span = .ok type ↔ value = some type.keyword := by
  unfold Ty.ofKeyword
  cases value with
  | none =>
    have he : Ty.ofKeyword? "" = none := by decide
    simp [he]
  | some keyword =>
    simp only [Option.getD_some, Option.some.injEq]
    rw [← Ty.ofKeyword?_eq_some]
    cases Ty.ofKeyword? keyword <;> simp

namespace Node

theorem child_eq_ok {n c : Node} (i : Nat) : n.child i = .ok c ↔ n.children[i]? = some c := by
  unfold Node.child
  have hi : (0 : Int) ≤ i := Int.natCast_nonneg i
  rw [if_pos hi, Int.toNat_natCast]
  cases n.children[i]? <;> simp

theorem children_eq_cons {n c : Node} (h : n.children[0]? = some c) :
    ∃ rest, n.children = c :: rest := by
  cases hl : n.children with
  | nil => simp [hl] at h
  | cons d rest => exact ⟨rest, by simpa [hl] using h⟩

/-- The name that an identifier carries; other nodes carry none. -/
def name? (n : Node) : Option Text := if n.kind = .identifier then n.value else none

theorem kind_of_name? {n : Node} {name : Text} (h : n.name? = some name) :
    n.kind = .identifier := by
  unfold name? at h
  split at h
  · assumption
  · cases h

/-- The name that a declaration or an assignment is about. -/
def target? (n : Node) : Option Text := n.children[0]?.bind name?

theorem readName_eq_ok {n : Node} {name : Text} :
    n.readName = .ok name ↔ n.name? = some name := by
  unfold readName readValue name?
  split
  · cases n.value <;> simp
  · simp

theorem target?_eq_some {n : Node} {name : Text} (h : n.target? = some name) :
    ∃ c rest, n.children = c :: rest ∧ c.name? = some name := by
  obtain ⟨c, hc, hm⟩ := Option.bind_eq_some_iff.mp h
  obtain ⟨rest, hr⟩ := children_eq_cons hc
  exact ⟨c, rest, hr, hm⟩

/-- What a declaration declares, if it has its shape. -/
def symbol? (n : Node) : Option Symbol := do
  let type ← n.value.bind Ty.ofKeyword?
  let target ← n.children[0]?
  let name ← target.name?
  return { name, type, span := target.span.or n.span }

theorem symbol?_eq_some {n : Node} {symbol : Symbol} :
    n.symbol? = some symbol ↔
      ∃ type target name, n.value = some (Ty.keyword type) ∧ n.children[0]? = some target ∧
        target.name? = some name ∧ symbol = { name, type, span := target.span.or n.span } := by
  simp only [symbol?, Option.bind_eq_bind, Option.bind_eq_some_iff, Ty.ofKeyword?_eq_some,
    Option.pure_def, Option.some.injEq]
  grind

/-- The node is one that a counter counts. A layer that joins several operands is one operator
application, and so is a run of prefix operators. -/
def counts (n : Node) : Counter → Bool
  | .var => n.kind = .declaration
  | .loop => n.kind = .whileStmt
  | .branch => n.kind = .ifStmt
  | .func => n.kind = .functionStmt
  | .op =>
    match n.kind with
    | .compExpr | .addExpr | .mulExpr | .boolExpr => 2 ≤ n.children.length
    | .notExpr | .unaExpr => n.ops.getD [] ≠ []
    | _ => false

/-- How many nodes of a list a counter counts. -/
def tally (nodes : List Node) (counter : Counter) : Nat := nodes.countP (·.counts counter)

end Node

namespace Visit

/-- The node has the shape that its kind needs where it stands, whatever is declared. -/
def Shaped (v : Visit) : Prop :=
  let n := v.node
  match v.place, n.kind with
  | .statement _, .program | .statement _, .block | .statement _, .stmt
  | .statement _, .functionBlock | .statement _, .identifier => True
  | .statement _, .declaration => (∃ type : Ty, n.value = some type.keyword) ∧ n.target?.isSome
  | .statement _, .functionStmt => ∃ type : Ty, n.value = some type.keyword
  | .statement _, .ifStmt | .statement _, .whileStmt | .statement _, .returnStmt =>
    n.children ≠ []
  | .statement _, .assignStmt => n.target?.isSome ∧ 2 ≤ n.children.length
  | _, .expr => n.children ≠ []
  | _, .genValue => ∃ c, n.children[0]? = some c ∧ (c.kind = .identifier → c.value.isSome)
  | _, .compExpr =>
    n.children.length = 1 ∨
      2 ≤ n.children.length ∧ ∃ family : Comparison, ∃ op ∈ family.operators, n.value = some op
  | _, .addExpr | _, .mulExpr | _, .boolExpr => n.children ≠ []
  | _, .notExpr => n.children ≠ [] ∧ ∀ op ∈ n.ops.getD [], op = "!"
  | _, .unaExpr => n.children ≠ [] ∧ ∀ op ∈ n.ops.getD [], op = "-"
  | _, .boolValue | _, .intValue => True
  | .expression, _ => False

/-- The names that must be declared where the node stands: the one that a value reads, or the one
that an assignment sets. -/
def uses (v : Visit) : List Text :=
  match v.place, v.node.kind with
  | .statement _, .assignStmt => v.node.target?.toList
  | _, .genValue => v.node.target?.toList
  | _, _ => []

/-- The position declares a name: only a statement can. -/
def declares (v : Visit) : Bool := v.place ≠ .expression && v.node.kind = .declaration

/-- What the position counts for: an expression counts as an operator or not at all. -/
def counts (v : Visit) (counter : Counter) : Bool :=
  match v.place with
  | .statement _ => v.node.counts counter
  | .expression => counter = .op && v.node.counts .op

end Visit

theorem visits_expression_place (n : Node) : ∀ v ∈ visits .expression n, v.place = .expression := by
  induction n using Node.childInduction with
  | step n ih =>
    intro v hv
    rw [visits_eq, List.mem_cons] at hv
    rcases hv with rfl | hv
    · rfl
    · obtain ⟨i, c, place, hc, hp, hv⟩ := mem_visitsFrom.mp hv
      rw [Place.child_expression hp] at hv
      exact ih c (List.mem_of_getElem? hc) v hv

/-- What positions declare, in order. -/
def declared (vs : List Visit) : List Symbol :=
  (vs.filter Visit.declares).filterMap (·.node.symbol?)

theorem declared_append (vs ws : List Visit) : declared (vs ++ ws) = declared vs ++ declared ws := by
  simp [declared]

theorem declared_cons (v : Visit) (vs : List Visit) :
    declared (v :: vs) = declared [v] ++ declared vs :=
  declared_append [v] vs

theorem mem_declared {vs : List Visit} {symbol : Symbol} :
    symbol ∈ declared vs ↔ ∃ v ∈ vs, symbol ∈ declared [v] := by
  induction vs with
  | nil => simp [declared]
  | cons v rest ih =>
    rw [declared_cons, List.mem_append, ih]
    simp

theorem declared_of_not {v : Visit} (hv : v.declares = false) : declared [v] = [] := by
  simp [declared, hv]

theorem filter_declares_expression (n : Node) :
    (visits .expression n).filter Visit.declares = [] := by
  rw [List.filter_eq_nil_iff]
  intro v hv
  simp [Visit.declares, visits_expression_place n v hv]

theorem declared_expression (n : Node) : declared (visits .expression n) = [] := by
  rw [declared, filter_declares_expression, List.filterMap_nil]

end TreeCheck
