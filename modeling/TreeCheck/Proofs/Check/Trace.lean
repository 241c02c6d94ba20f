import Mathlib.Data.List.Forall2
import TreeCheck.Proofs.Check.Admission

namespace TreeCheck

mutual

/-- The expressions that the checker meets from a node in a place, each one after its parts. -/
def settled (place : Place) : Node → List Node
  | ⟨kind, children, value, ops, span⟩ =>
    settledFrom (place.child kind value) 0 children ++
      if kind.isExpression then [⟨kind, children, value, ops, span⟩] else []

/-- Those of children that are counted from an index. -/
def settledFrom (child : Nat → Kind → Option Place) (index : Nat) : List Node → List Node
  | [] => []
  | node :: rest =>
    (match child index node.kind with
      | some place => settled place node
      | none => []) ++ settledFrom child (index + 1) rest

end

section Settled

variable {child : Nat → Kind → Option Place} {place inner : Place} {n c : Node} {rest : List Node}

theorem settled_eq (place : Place) (n : Node) : settled place n =
    settledFrom (place.child n.kind n.value) 0 n.children ++
      if n.kind.isExpression then [n] else [] := by
  obtain ⟨kind, children, value, ops, span⟩ := n
  rw [settled]

theorem settled_statement (hn : n.kind.isExpression = false) : settled place n =
    settledFrom (place.child n.kind n.value) 0 n.children := by
  rw [settled_eq, hn, if_neg Bool.false_ne_true, List.append_nil]

theorem settledFrom_parts (child : Nat → Kind → Option Place) :
    PartsOf child settled (settledFrom child) :=
  ⟨fun _ => rfl, fun _ _ _ => rfl⟩

/-- Children that all have one place. -/
theorem settledFrom_of_some (index : Nat) (nodes : List Node)
    (h : ∀ i kind, index ≤ i → child i kind = some place) :
    settledFrom child index nodes = nodes.flatMap (settled place) :=
  (settledFrom_parts child).of_some nodes h

/-- Children that are all passed over. -/
theorem settledFrom_of_none (index : Nat) (nodes : List Node)
    (h : ∀ i kind, index ≤ i → child i kind = none) : settledFrom child index nodes = [] :=
  (settledFrom_parts child).of_none nodes h

/-- Only the first child has a place. -/
theorem settledFrom_first (hc : child 0 c.kind = some inner)
    (hr : ∀ i kind, 1 ≤ i → child i kind = none) :
    settledFrom child 0 (c :: rest) = settled inner c := by
  rw [settledFrom, hc, settledFrom_of_none 1 rest hr, List.append_nil]

/-- An expression is settled alike wherever it stands. -/
theorem settled_of_expression (context : Option Ty) (hn : n.kind.isExpression = true) :
    settled (.statement context) n = settled .expression n := by
  have hchild : Place.child (.statement context) n.kind n.value =
      Place.child .expression n.kind n.value := by
    funext i kind
    cases hk : n.kind <;> simp [hk, Kind.isExpression] at hn <;> rfl
  rw [settled_eq, settled_eq, hchild]

end Settled

mutual

/-- The nodes that the checker descends into from a node in a place, each one after its parts. -/
def postorder (place : Place) : Node → List Node
  | ⟨kind, children, value, ops, span⟩ =>
    postorderFrom (place.child kind value) 0 children ++ [⟨kind, children, value, ops, span⟩]

/-- Those of children that are counted from an index. -/
def postorderFrom (child : Nat → Kind → Option Place) (index : Nat) : List Node → List Node
  | [] => []
  | node :: rest =>
    (match child index node.kind with
      | some place => postorder place node
      | none => []) ++ postorderFrom child (index + 1) rest

end

section Postorder

variable {kind : Kind} {value : Option Text} {c : Node} {nodes rest : List Node}

theorem postorder_eq (place : Place) (n : Node) : postorder place n =
    postorderFrom (place.child n.kind n.value) 0 n.children ++ [n] := by
  obtain ⟨kind, children, value, ops, span⟩ := n
  rw [postorder]

theorem postorderFrom_parts (child : Nat → Kind → Option Place) :
    PartsOf child postorder (postorderFrom child) :=
  ⟨fun _ => rfl, fun _ _ _ => rfl⟩

/-- The kinds that join any number of operands. -/
theorem postorderFrom_layer
    (hk : kind = .compExpr ∨ kind = .addExpr ∨ kind = .mulExpr ∨ kind = .boolExpr) :
    postorderFrom (Place.expression.child kind value) 0 nodes =
      nodes.flatMap (postorder .expression) := by
  apply (postorderFrom_parts _).of_some
  intro i inner _
  rcases hk with h | h | h | h <;> rw [h] <;> rfl

/-- The kinds whose first child is the only part. -/
theorem postorderFrom_part
    (hk : kind = .expr ∨ kind = .notExpr ∨ kind = .unaExpr ∨
      kind = .genValue ∧ c.kind ≠ .identifier) :
    postorderFrom (Place.expression.child kind value) 0 (c :: rest) = postorder .expression c := by
  have hc : Place.expression.child kind value 0 c.kind = some .expression := by
    rcases hk with h | h | h | ⟨h, hc⟩ <;> simp [h, Place.child]
    exact hc
  have hr : postorderFrom (Place.expression.child kind value) 1 rest = [] := by
    apply (postorderFrom_parts _).of_none
    intro i inner hi
    rcases hk with h | h | h | ⟨h, -⟩ <;> simp [h, Place.child] <;> omega
  rw [postorderFrom, hc, hr, List.append_nil]

/-- A name that is read is no part. -/
theorem postorderFrom_read (hc : c.kind = .identifier) :
    postorderFrom (Place.expression.child .genValue value) 0 (c :: rest) = [] := by
  have hr : postorderFrom (Place.expression.child .genValue value) 1 rest = [] := by
    apply (postorderFrom_parts _).of_none
    intro i inner hi
    simp [Place.child]
    omega
  rw [postorderFrom, hr, hc]
  rfl

theorem postorderFrom_leaf (hk : kind = .boolValue ∨ kind = .intValue) :
    postorderFrom (Place.expression.child kind value) 0 nodes = [] := by
  apply (postorderFrom_parts _).of_none
  intro i inner _
  rcases hk with h | h <;> rw [h] <;> rfl

/-- What is settled are the expressions among the nodes. -/
theorem settled_eq_filter (place : Place) (n : Node) :
    settled place n = (postorder place n).filter (·.kind.isExpression) := by
  induction n using Node.childInduction generalizing place with
  | step n ih =>
    have hparts := (settledFrom_parts (place.child n.kind n.value)).rel
      (fun a b => a = b.filter (·.kind.isExpression)) (postorderFrom_parts _) rfl
      (fun h h' => by rw [List.filter_append, h, h']) ih 0
    rw [settled_eq, postorder_eq, List.filter_append, hparts, List.filter_singleton,
      Bool.cond_eq_ite]

/-- Every node that the checker descends into is there once. -/
theorem postorder_perm (place : Place) (n : Node) :
    (postorder place n).Perm ((visits place n).map Visit.node) := by
  induction n using Node.childInduction generalizing place with
  | step n ih =>
    have hparts := (postorderFrom_parts (place.child n.kind n.value)).rel
      (fun a b => a.Perm (b.map Visit.node)) (visitsFrom_parts _) .nil
      (fun h h' => by rw [List.map_append]; exact h.append h') ih 0
    rw [postorder_eq, visits_eq, List.map_cons]
    exact (List.perm_append_singleton n _).trans (hparts.cons n)

end Postorder

/-- The record of an expression has its kind, and its type in the scope. -/
structure Typed.Describes (scope : Scope) (n : Node) (t : Typed) : Prop where
  kind : t.kind = n.kind
  type : HasType scope.lookup n t.type

/-- An expression keeps its type in a scope with more names. -/
theorem Typed.Describes.mono {scope more : Scope} {n : Node} {t : Typed}
    (h : t.Describes scope n) (he : Extends more.lookup scope) : t.Describes more n where
  kind := h.kind
  type := (hasType_table_iff he (fits_of_hasType he h.type).1).mpr h.type

namespace Check

variable {α β : Type}

/-- From the first state to the second the trace has got a record of each of these expressions, and
no name is lost. -/
structure Recorded (s : State) (nodes : List Node) (t : State) : Prop where
  scope : Extends t.scope.lookup s.scope
  trace : ∃ records, t.trace = s.trace ++ records ∧
    List.Forall₂ (Typed.Describes t.scope) nodes records

namespace Recorded

variable {s t u : State} {first second : List Node}

theorem of_silent (hscope : Extends t.scope.lookup s.scope) (htrace : t.trace = s.trace) :
    Recorded s [] t :=
  ⟨hscope, [], by rw [htrace, List.append_nil], .nil⟩

theorem refl (s : State) : Recorded s [] s := of_silent (fun _ _ h => h) rfl

theorem trans (h : Recorded s first t) (h' : Recorded t second u) :
    Recorded s (first ++ second) u := by
  obtain ⟨records, htrace, hall⟩ := h.trace
  obtain ⟨more, htrace', hall'⟩ := h'.trace
  refine ⟨fun name type hn => h'.scope name type (h.scope name type hn), records ++ more, ?_, ?_⟩
  · rw [htrace', htrace, List.append_assoc]
  · -- the earlier records still hold where later names have been declared
    exact List.rel_append (hall.imp fun _ _ hd => hd.mono h'.scope) hall'

end Recorded

/-- A check that records these expressions when it succeeds, and the first of them when it fails. -/
structure Records (check : Check α) (nodes : List Node) : Prop where
  ok : ∀ {s t a}, check s = .ok a t → Recorded s nodes t
  error : ∀ {s t f}, check s = .error f t → ∃ part, part <+: nodes ∧ Recorded s part t

namespace Records

variable {nodes first second : List Node}

theorem pure (a : α) : Records (Pure.pure a : Check α) [] where
  ok {s t b} h := by
    cases h
    exact .refl s
  error h := by cases h

theorem throw (f : Finding) : Records (throw f : Check α) nodes where
  ok h := by cases h
  error {s t g} h := by
    cases h
    exact ⟨[], List.nil_prefix, .refl s⟩

theorem bind {check : Check α} {next : α → Check β} (hc : Records check first)
    (hn : ∀ a, Records (next a) second) : Records (check >>= next) (first ++ second) where
  ok h := by
    obtain ⟨a, u, ha, hb⟩ := bind_eq_ok.mp h
    exact (hc.ok ha).trans ((hn a).ok hb)
  error h := by
    rcases bind_eq_error.mp h with ha | ⟨a, u, ha, hb⟩
    · obtain ⟨part, hp, hr⟩ := hc.error ha
      exact ⟨part, hp.trans (List.prefix_append first second), hr⟩
    · obtain ⟨part, hp, hr⟩ := (hn a).error hb
      exact ⟨first ++ part, (List.prefix_append_right_inj first).mpr hp, (hc.ok ha).trans hr⟩

/-- What follows records nothing. -/
theorem bind_silent {check : Check α} {next : α → Check β} (hc : Records check nodes)
    (hn : ∀ a, Records (next a) []) : Records (check >>= next) nodes := by
  have h := hc.bind hn
  rwa [List.append_nil] at h

/-- A lookup in the tree records nothing, and what follows may depend on what was found. -/
theorem lift_bind {result : Except Finding α} {next : α → Check β}
    (h : ∀ a, result = .ok a → Records (next a) nodes) :
    Records (lift result >>= next) nodes := by
  cases result with
  | ok a => exact h a rfl
  | error f => exact throw f

/-- A step that leaves the trace alone and loses no name. -/
theorem of_silent {check : Check α}
    (hok : ∀ {s t a}, check s = .ok a t → Extends t.scope.lookup s.scope ∧ t.trace = s.trace)
    (herror : ∀ {s t f}, check s = .error f t → t = s) : Records check [] where
  ok h := .of_silent (hok h).1 (hok h).2
  error {s _ _} h := ⟨[], List.nil_prefix, herror h ▸ .refl s⟩

theorem count (counter : Counter) : Records (Check.count counter) [] := by
  refine of_silent (fun h => ?_) fun h => by cases h
  cases h
  exact ⟨fun _ _ hn => hn, rfl⟩

theorem declare (symbol : Symbol) : Records (Check.declare symbol) [] := by
  refine of_silent (fun {s t a} h => ?_) fun {s t f} h => ?_
  · unfold Check.declare at h
    split at h
    · next hd =>
      cases h
      refine ⟨fun name type hn => ?_, rfl⟩
      unfold Scope.declare at hd
      split at hd
      · cases hd
      · cases hd
        rw [Scope.lookup_append, hn, Option.some_or]
    · cases h
  · unfold Check.declare at h
    split at h
    · cases h
    · cases h
      rfl

theorem require (name : Text) (span : Option Span) : Records (Check.require name span) [] := by
  refine of_silent (fun {s t a} h => ?_) fun {s t f} h => ?_
  · unfold Check.require at h
    split at h
    · cases h
      exact ⟨fun _ _ hn => hn, rfl⟩
    · cases h
  · unfold Check.require at h
    split at h
    · cases h
    · cases h
      rfl

theorem ite {p : Prop} [Decidable p] {check other : Check α} (h : Records check nodes)
    (h' : Records other nodes) : Records (if p then check else other) nodes := by
  split
  · exact h
  · exact h'

/-- A condition that ends the walk when it is met. -/
theorem guard (p : Prop) [Decidable p] (f : Finding) :
    Records (if p then MonadExcept.throw f else Pure.pure () : Check Unit) [] :=
  ite (throw f) (pure ())

end Records

section Expressions

theorem operands_records (span : Option Span) (operand : Ty) (nodes : List Node)
    (ih : ∀ c ∈ nodes, Records (typeOf c) (postorder .expression c)) :
    Records (operands span operand nodes) (nodes.flatMap (postorder .expression)) := by
  induction nodes with
  | nil =>
    rw [operands]
    exact .pure ()
  | cons c rest hr =>
    have hrest := hr fun d hd => ih d (List.mem_cons_of_mem c hd)
    rw [operands, List.flatMap_cons]
    refine (ih c List.mem_cons_self).bind fun type => ?_
    split
    · exact hrest
    · exact .throw _

theorem compareWith_records (comparison : Comparison) (span : Option Span) (left : Ty)
    (nodes : List Node) (ih : ∀ c ∈ nodes, Records (typeOf c) (postorder .expression c)) :
    Records (compareWith comparison span left nodes) (nodes.flatMap (postorder .expression)) := by
  induction nodes generalizing left with
  | nil =>
    rw [compareWith]
    exact .pure ()
  | cons c rest hr =>
    have hrest := hr .bool fun d hd => ih d (List.mem_cons_of_mem c hd)
    rw [compareWith, List.flatMap_cons]
    refine (ih c List.mem_cons_self).bind fun right => ?_
    split
    · exact hrest
    · exact .throw _

theorem comparison_records (kind : Kind) (operator : Option Text) (span : Option Span) :
    Records (comparison kind operator span) [] := by
  unfold comparison
  split
  · exact .throw _
  · split
    · exact .pure _
    · exact .throw _

theorem applyOperators_records (kind : Kind) (own : Text) (operand : Ty)
    (ops : Option (List Text)) (span : Option Span) (type : Ty) :
    Records (applyOperators kind own operand ops span type) [] := by
  unfold applyOperators
  refine .ite (.pure _) (.ite (.throw _) (.ite (.throw _) ?_))
  exact (Records.count .op).bind fun _ => .pure type

/-- The record of an expression comes after those of its parts. -/
theorem typeOf_records_of {n : Node} {check : Check Ty} (ht : typeOf n = traced n.kind check)
    (h : Records check (postorderFrom (Place.expression.child n.kind n.value) 0 n.children)) :
    Records (typeOf n) (postorder .expression n) where
  ok {s t type} hok := by
    -- an expression changes no scope, so its type can be taken in the one that is left
    have htype : HasType t.scope.lookup n type := by
      rw [typeOf_scope hok]
      exact (typeOf_agrees n s type).mp ⟨t, hok⟩
    rw [ht] at hok
    obtain ⟨type, u, hu, hlast⟩ := bind_eq_ok.mp hok
    cases hlast
    rw [postorder_eq]
    exact (h.ok hu).trans ⟨fun _ _ hn => hn, _, rfl, .cons ⟨rfl, htype⟩ .nil⟩
  error {s t f} herror := by
    rw [ht] at herror
    rcases bind_eq_error.mp herror with hu | ⟨type, u, -, hlast⟩
    · obtain ⟨part, hp, hr⟩ := h.error hu
      rw [postorder_eq]
      exact ⟨part, hp.trans (List.prefix_append _ _), hr⟩
    · cases hlast

section Layers

variable {kind : Kind} {children : List Node} {value : Option Text}
  {ops : Option (List Text)} {span : Option Span}

/-- The layers that want all operands of one type. -/
theorem joined_records (hk : kind = .addExpr ∨ kind = .mulExpr ∨ kind = .boolExpr)
    (ih : ∀ c ∈ children, Records (typeOf c) (postorder .expression c)) :
    Records (typeOf ⟨kind, children, value, ops, span⟩)
      (postorder .expression ⟨kind, children, value, ops, span⟩) := by
  match children with
  | [] => exact typeOf_records_of (typeOf_joined_nil hk) (.throw _)
  | [c] =>
    refine typeOf_records_of (typeOf_joined_single hk) ?_
    rw [postorderFrom_layer (.inr hk), List.flatMap_singleton]
    exact ih c List.mem_cons_self
  | c :: d :: rest =>
    refine typeOf_records_of (typeOf_joined_several hk) ?_
    rw [postorderFrom_layer (.inr hk)]
    refine (operands_records span (operandType kind) (c :: d :: rest) ih).bind_silent fun _ => ?_
    exact (Records.count .op).bind fun _ => .pure (operandType kind)

theorem compared_records (ih : ∀ c ∈ children, Records (typeOf c) (postorder .expression c)) :
    Records (typeOf ⟨.compExpr, children, value, ops, span⟩)
      (postorder .expression ⟨.compExpr, children, value, ops, span⟩) := by
  match children with
  | [] =>
    refine typeOf_records_of typeOf_compared_nil ?_
    exact (comparison_records .compExpr value span).bind fun _ => .throw _
  | [c] =>
    refine typeOf_records_of (by rw [typeOf]) ?_
    rw [postorderFrom_layer (.inl rfl), List.flatMap_singleton]
    exact ih c List.mem_cons_self
  | c :: d :: rest =>
    have hrest : ∀ e ∈ d :: rest, Records (typeOf e) (postorder .expression e) :=
      fun e he => ih e (List.mem_cons_of_mem c he)
    refine typeOf_records_of typeOf_compared_several ?_
    rw [postorderFrom_layer (.inl rfl), List.flatMap_cons]
    refine (comparison_records .compExpr value span).bind fun family => ?_
    refine (ih c List.mem_cons_self).bind fun left => ?_
    refine (compareWith_records family span left (d :: rest) hrest).bind_silent fun _ => ?_
    exact (Records.count .op).bind fun _ => .pure Ty.bool

end Layers

/-- An expression records its parts and then itself. -/
theorem typeOf_records_all (n : Node) : Records (typeOf n) (postorder .expression n) := by
  induction n using Node.childInduction with
  | step n ih =>
    obtain ⟨kind, children, value, ops, span⟩ := n
    simp only at ih
    -- Nothing is recorded of a node that may not stand here or lacks what it needs.
    cases kind with
    | expr =>
      cases children with
      | nil =>
        rw [typeOf]
        exact .throw _
      | cons c rest =>
        refine typeOf_records_of (by rw [typeOf]) ?_
        rw [postorderFrom_part (.inl rfl)]
        exact ih c List.mem_cons_self
    | genValue =>
      cases children with
      | nil =>
        rw [typeOf]
        exact .throw _
      | cons c rest =>
        refine typeOf_records_of (by rw [typeOf]) ?_
        split
        · next hc =>
          rw [postorderFrom_read hc]
          exact .lift_bind fun name _ => .require name c.span
        · next hc =>
          rw [postorderFrom_part (by simp [hc])]
          exact ih c List.mem_cons_self
    | compExpr => exact compared_records ih
    | addExpr => exact joined_records (.inl rfl) ih
    | mulExpr => exact joined_records (.inr (.inl rfl)) ih
    | boolExpr => exact joined_records (.inr (.inr rfl)) ih
    | notExpr | unaExpr =>
      cases children with
      | nil =>
        rw [typeOf]
        exact .throw _
      | cons c rest =>
        refine typeOf_records_of (by rw [typeOf]) ?_
        rw [postorderFrom_part (by simp)]
        exact (ih c List.mem_cons_self).bind_silent (applyOperators_records _ _ _ ops span)
    | boolValue | intValue =>
      refine typeOf_records_of (by rw [typeOf]) ?_
      rw [postorderFrom_leaf (by simp)]
      exact .pure _
    | _ => exact typeOf_records_of (typeOf_of_not_expression rfl) (.throw _)

/-- Nodes that have records have types. -/
theorem Recorded.hasType {s t : State} {nodes : List Node} (h : Recorded s nodes t) :
    ∀ n ∈ nodes, ∃ type, HasType t.scope.lookup n type := by
  obtain ⟨records, -, hall⟩ := h.trace
  clear h
  induction hall with
  | nil => simp
  | cons hd _ ih => exact List.forall_mem_cons.mpr ⟨⟨_, hd.type⟩, ih⟩

theorem Recorded.filter_eq {s t : State} {nodes : List Node} (h : Recorded s nodes t) :
    nodes.filter (·.kind.isExpression) = nodes := by
  rw [List.filter_eq_self]
  intro n hn
  obtain ⟨type, htype⟩ := h.hasType n hn
  exact htype.isExpression

theorem typeOf_records (n : Node) : Records (typeOf n) (settled .expression n) where
  ok h := by
    have hall := (typeOf_records_all n).ok h
    rwa [settled_eq_filter, hall.filter_eq]
  error h := by
    obtain ⟨part, hp, hr⟩ := (typeOf_records_all n).error h
    refine ⟨part, ?_, hr⟩
    rw [settled_eq_filter, ← hr.filter_eq]
    exact hp.filter _

end Expressions

section Statements

variable {context : Option Ty} {n : Node}

theorem declaration_records (n : Node) : Records (declaration n) [] := by
  unfold declaration
  refine .lift_bind fun type _ => .lift_bind fun target _ => .lift_bind fun name _ => ?_
  exact (Records.declare _).bind fun _ => .count .var

theorem condition_records (test : Node) (span : Option Span) :
    Records (condition test span) (settled .expression test) :=
  (typeOf_records test).bind_silent fun _ => .guard _ _

theorem returned_records (hn : n.kind = .returnStmt) :
    Records (returned context n) (settled (.statement context) n) := by
  unfold returned
  cases context with
  | none => exact .throw _
  | some expected =>
    refine .lift_bind fun c hc => ?_
    obtain ⟨rest, hr⟩ := Node.children_eq_cons ((Node.child_eq_ok 0).mp hc)
    have hparts : settled (.statement (some expected)) n = settled .expression c := by
      rw [settled_statement (by rw [hn]; rfl), hn, hr]
      refine settledFrom_first rfl fun i kind hi => ?_
      simp [Place.child]
      omega
    rw [hparts]
    exact (typeOf_records c).bind_silent fun _ => .guard _ _

theorem assignment_records (hn : n.kind = .assignStmt) :
    Records (assignment n) (settled (.statement context) n) := by
  unfold assignment
  refine .lift_bind fun target ht => .lift_bind fun name _ => .lift_bind fun c hc => ?_
  obtain ⟨rest, hr⟩ := Node.children_eq_cons ((Node.child_eq_ok 0).mp ht)
  obtain ⟨more, rfl⟩ : ∃ more, rest = c :: more := by
    have hg := (Node.child_eq_ok 1).mp hc
    cases rest with
    | nil => simp [hr] at hg
    | cons d more => exact ⟨more, by simpa [hr] using hg⟩
  have hparts : settled (.statement context) n = settled .expression c := by
    rw [settled_statement (by rw [hn]; rfl), hn, hr, settledFrom, settledFrom,
      settledFrom_of_none 2 more, List.append_nil]
    · rfl
    · intro i kind hi
      simp [Place.child]
      omega
  rw [hparts]
  refine (typeOf_records c).bind_silent fun type => ?_
  exact (Records.require name _).bind fun _ => .guard _ _

theorem visitAll_records (nodes : List Node)
    (ih : ∀ c ∈ nodes, Records (visit context c) (settled (.statement context) c)) :
    Records (visitAll context nodes) (nodes.flatMap (settled (.statement context))) := by
  induction nodes with
  | nil =>
    rw [visitAll]
    exact .pure ()
  | cons c rest hr =>
    have hrest := hr fun d hd => ih d (List.mem_cons_of_mem c hd)
    rw [visitAll, List.flatMap_cons]
    exact (ih c List.mem_cons_self).bind fun _ => hrest

/-- Branches and loops. -/
theorem conditional_records {counter : Counter} {test : Node} {rest : List Node}
    (hn : n.kind = .ifStmt ∨ n.kind = .whileStmt) (hr : n.children = test :: rest)
    (ih : ∀ c ∈ rest, Records (visit context c) (settled (.statement context) c)) :
    Records (do condition test n.span; visitAll context rest; count counter)
      (settled (.statement context) n) := by
  have hparts : settled (.statement context) n =
      settled .expression test ++ rest.flatMap (settled (.statement context)) := by
    have hkind : n.kind.isExpression = false := by rcases hn with h | h <;> rw [h] <;> rfl
    have htest : Place.child (.statement context) n.kind n.value 0 test.kind = some .expression := by
      rcases hn with h | h <;> rw [h] <;> rfl
    have hothers : ∀ i kind, 1 ≤ i →
        Place.child (.statement context) n.kind n.value i kind = some (.statement context) := by
      intro i kind hi
      rcases hn with h | h <;> simp [h, Place.child] <;> omega
    rw [settled_statement hkind, hr, settledFrom, htest, settledFrom_of_some 1 rest hothers]
  rw [hparts]
  refine (condition_records test n.span).bind fun _ => ?_
  exact (visitAll_records rest ih).bind_silent fun _ => .count counter

/-- A walk records the expressions among its positions, each one after its parts. -/
theorem visit_records (context : Option Ty) (n : Node) :
    Records (visit context n) (settled (.statement context) n) := by
  induction n using Node.childInduction generalizing context with
  | step n ih =>
    obtain ⟨kind, children, value, ops, span⟩ := n
    simp only at ih
    have hall (context : Option Ty) :
        Records (visitAll context children) (children.flatMap (settled (.statement context))) :=
      visitAll_records children fun c hc => ih c hc context
    cases kind with
    | program | block | stmt | functionBlock =>
      simp only [visit]
      rw [settled_statement rfl, settledFrom_of_some 0 children]
      · exact hall context
      · intro i kind _
        rfl
    | declaration =>
      simp only [visit]
      rw [settled_statement rfl, settledFrom_of_none 0 children]
      · exact declaration_records _
      · intro i kind _
        rfl
    | ifStmt | whileStmt =>
      cases children with
      | nil =>
        rw [visit]
        exact .throw _
      | cons test rest =>
        rw [visit]
        have hrest := fun c hc => ih c (List.mem_cons_of_mem test hc) context
        exact conditional_records (n := ⟨_, test :: rest, value, ops, span⟩) (by simp) rfl hrest
    | functionStmt =>
      rw [visit]
      refine .lift_bind fun type ht => ?_
      rw [settled_statement rfl, settledFrom_of_some 0 children]
      · exact (hall (some type)).bind_silent fun _ => .count .func
      · intro i kind _
        rw [Ty.ofKeyword_eq_ok.mp ht, Place.child, Option.bind_some,
          Ty.ofKeyword?_eq_some.mpr rfl]
    | returnStmt =>
      rw [visit]
      exact returned_records rfl
    | assignStmt =>
      rw [visit]
      exact assignment_records rfl
    | identifier =>
      rw [visit, settled_statement rfl, settledFrom_of_none 0 children]
      · exact .pure ()
      · intro i kind _
        rfl
    | _ =>
      simp only [visit]
      rw [settled_of_expression context rfl]
      exact (typeOf_records _).bind_silent fun _ => .pure ()

end Statements

end Check

end TreeCheck
