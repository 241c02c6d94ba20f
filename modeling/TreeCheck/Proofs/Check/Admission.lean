import TreeCheck.Analyzer
import TreeCheck.Proofs.Check.Typing
import TreeCheck.Tree.Build

namespace TreeCheck

/-- The types fit, for the types that `env` gives to names: a condition is a truth value, a return
stands in a function and has its type, an assigned value has the type of the name, and every
expression has a type. -/
def Visit.Typed (env : Text → Option Ty) (v : Visit) : Prop :=
  match v.place, v.node.kind with
  | .statement _, .program | .statement _, .block | .statement _, .stmt
  | .statement _, .functionBlock | .statement _, .identifier | .statement _, .declaration
  | .statement _, .functionStmt => True
  | .statement _, .ifStmt | .statement _, .whileStmt =>
    ∀ test ∈ v.node.children[0]?, HasType env test .bool
  | .statement context, .returnStmt =>
    ∃ type, context = some type ∧ ∀ result ∈ v.node.children[0]?, HasType env result type
  | .statement _, .assignStmt =>
    ∀ name ∈ v.node.target?, ∀ value ∈ v.node.children[1]?,
      ∃ type, env name = some type ∧ HasType env value type
  | _, _ => ∃ type, HasType env v.node type

/-- The conditions under which positions are accepted. -/
structure Admissible (vs : List Visit) : Prop where
  shaped : ∀ v ∈ vs, v.Shaped
  distinct : ((declared vs).map Symbol.name).Nodup
  declaredFirst : ∀ before v after, vs = before ++ v :: after →
    ∀ name ∈ v.uses, name ∈ (declared before).map Symbol.name
  typed : ∀ v ∈ vs, v.Typed (Scope.mk (declared vs)).lookup

namespace Scope

/-- The scope after positions whose declarations have been added. -/
def after (scope : Scope) (vs : List Visit) : Scope := ⟨scope.symbols ++ declared vs⟩

theorem lookup_isSome {scope : Scope} {name : Text} :
    (scope.lookup name).isSome ↔ name ∈ scope.symbols.map Symbol.name := by
  simp [lookup, find?, List.find?_isSome]

theorem lookup_eq_none {scope : Scope} {name : Text} :
    scope.lookup name = none ↔ name ∉ scope.symbols.map Symbol.name := by
  rw [← lookup_isSome]
  simp

theorem lookup_append (first second : List Symbol) (name : Text) :
    lookup ⟨first ++ second⟩ name = (lookup ⟨first⟩ name).or (lookup ⟨second⟩ name) := by
  unfold lookup find?
  rw [List.find?_append]
  cases List.find? (fun symbol => decide (symbol.name = name)) first <;> rfl

/-- Types are settled by the first declaration, so later ones change nothing. -/
theorem lookup_after {scope : Scope} {name : Text} {type : Ty} (vs : List Visit)
    (h : scope.lookup name = some type) : (scope.after vs).lookup name = some type := by
  obtain ⟨symbol, hs, ht⟩ := Option.map_eq_some_iff.mp h
  have hf : (scope.after vs).find? name = some symbol := by
    unfold find? at hs ⊢
    rw [after, List.find?_append, hs]
    rfl
  rw [lookup, hf, Option.map_some, ht]

end Scope

theorem Scope.after_append (scope : Scope) (vs ws : List Visit) :
    scope.after (vs ++ ws) = (scope.after vs).after ws := by
  simp [Scope.after, declared_append]

theorem Scope.after_of_declared_nil {scope : Scope} {vs : List Visit} (h : declared vs = []) :
    scope.after vs = scope := by
  simp [Scope.after, h]

/-- Every position has its shape, uses names of the scope that it meets, and declares a new one. -/
def Ready (scope : Scope) : List Visit → Prop
  | [] => True
  | v :: rest =>
    v.Shaped ∧ (∀ name ∈ v.uses, (scope.lookup name).isSome) ∧
      (∀ symbol ∈ declared [v], scope.lookup symbol.name = none) ∧ Ready (scope.after [v]) rest

theorem ready_append {scope : Scope} {vs ws : List Visit} :
    Ready scope (vs ++ ws) ↔ Ready scope vs ∧ Ready (scope.after vs) ws := by
  induction vs generalizing scope with
  | nil => simp [Ready, Scope.after, declared]
  | cons v rest ih =>
    rw [List.cons_append, Ready, Ready, ih, ← Scope.after_append]
    simp [and_assoc]

/-- Expressions declare nothing, so all of their positions meet one scope. -/
theorem ready_expression {scope : Scope} {vs : List Visit}
    (hp : ∀ v ∈ vs, v.place = .expression) :
    Ready scope vs ↔
      ∀ v ∈ vs, v.Shaped ∧ ∀ name ∈ v.uses, (scope.lookup name).isSome := by
  induction vs with
  | nil => simp [Ready]
  | cons v rest ih =>
    have hv : declared [v] = [] :=
      declared_of_not (by simp [Visit.declares, hp v List.mem_cons_self])
    have hr := ih fun w hw => hp w (List.mem_cons_of_mem v hw)
    rw [Ready, hv, Scope.after_of_declared_nil hv, hr, List.forall_mem_cons]
    simp [and_assoc]

/-- Each position of a list is met after those before it. -/
theorem ready_iff_split {scope : Scope} {vs : List Visit} :
    Ready scope vs ↔ ∀ before v after, vs = before ++ v :: after →
      v.Shaped ∧ (∀ name ∈ v.uses, ((scope.after before).lookup name).isSome) ∧
        ∀ symbol ∈ declared [v], (scope.after before).lookup symbol.name = none := by
  induction vs generalizing scope with
  | nil => simp [Ready]
  | cons v rest ih =>
    rw [Ready, ih]
    constructor
    · rintro ⟨hshape, huses, hfresh, hrest⟩ before w after heq
      cases before with
      | nil =>
        cases heq
        rw [Scope.after_of_declared_nil rfl]
        exact ⟨hshape, huses, hfresh⟩
      | cons u before =>
        obtain ⟨rfl, htail⟩ := List.cons.inj heq
        rw [← List.singleton_append, Scope.after_append]
        exact hrest before w after htail
    · intro h
      obtain ⟨hshape, huses, hfresh⟩ := h [] v rest rfl
      rw [Scope.after_of_declared_nil rfl] at huses hfresh
      refine ⟨hshape, huses, hfresh, fun before w after heq => ?_⟩
      have hw := h (v :: before) w after (by rw [heq, List.cons_append])
      rwa [← List.singleton_append, Scope.after_append] at hw

/-- Names are declared once, and none of those seen before, if each is new where it is declared. -/
theorem nodup_declared_iff (seen : List Text) (vs : List Visit) :
    ((declared vs).map Symbol.name).Nodup ∧ (∀ symbol ∈ declared vs, symbol.name ∉ seen) ↔
      ∀ before v after, vs = before ++ v :: after →
        ∀ symbol ∈ declared [v], symbol.name ∉ seen ++ (declared before).map Symbol.name := by
  induction vs generalizing seen with
  | nil => simp [declared]
  | cons v rest ih =>
    have hsingle : ((declared [v]).map Symbol.name).Nodup := by
      cases hd : v.declares <;> cases hs : v.node.symbol? <;> simp [declared, hd, hs]
    have hrest := ih (seen ++ (declared [v]).map Symbol.name)
    constructor
    · rintro ⟨hnodup, hfresh⟩ before w after heq
      rw [declared_cons v, List.map_append, List.nodup_append] at hnodup
      cases before with
      | nil =>
        cases heq
        intro symbol hs
        have hn := hfresh symbol (by rw [declared_cons v]; exact List.mem_append_left _ hs)
        simpa [declared] using hn
      | cons u before =>
        obtain ⟨rfl, htail⟩ := List.cons.inj heq
        rw [declared_cons v, List.map_append, ← List.append_assoc]
        refine hrest.mp ⟨hnodup.2.1, fun symbol hs => ?_⟩ before w after htail
        rw [List.mem_append, not_or]
        refine ⟨hfresh symbol (by rw [declared_cons v]; exact List.mem_append_right _ hs), fun hmem => ?_⟩
        exact hnodup.2.2 _ hmem _ (List.mem_map_of_mem hs) rfl
    · intro h
      have hhead := h [] v rest rfl
      obtain ⟨hnodup, hfresh⟩ := hrest.mpr fun before w after heq => by
        have hw := h (v :: before) w after (by rw [heq, List.cons_append])
        rwa [declared_cons v, List.map_append, ← List.append_assoc] at hw
      rw [declared_cons v, List.map_append, List.nodup_append]
      refine ⟨⟨hsingle, hnodup, ?_⟩, ?_⟩
      · rintro name hname other hother rfl
        obtain ⟨symbol, hs, rfl⟩ := List.mem_map.mp hother
        exact hfresh symbol hs (List.mem_append_right seen hname)
      · intro symbol hs
        rcases List.mem_append.mp hs with hs | hs
        · simpa [declared] using hhead symbol hs
        · exact fun hmem => hfresh symbol hs (List.mem_append_left _ hmem)

/-- The table agrees with the scope on the names that the scope has. -/
def Extends (env : Text → Option Ty) (scope : Scope) : Prop :=
  ∀ name type, scope.lookup name = some type → env name = some type

theorem Extends.before {env : Text → Option Ty} {scope : Scope} {vs : List Visit}
    (h : Extends env (scope.after vs)) : Extends env scope :=
  fun name type hn => h name type (Scope.lookup_after vs hn)

/-- Positions that can be met one after another from a scope, with types that fit in a table. -/
def Fits (env : Text → Option Ty) (scope : Scope) (vs : List Visit) : Prop :=
  Ready scope vs ∧ ∀ v ∈ vs, v.Typed env

section Fits

variable {env : Text → Option Ty} {scope : Scope} {v : Visit} {vs ws : List Visit}

theorem fits_append : Fits env scope (vs ++ ws) ↔
    Fits env scope vs ∧ Fits env (scope.after vs) ws := by
  unfold Fits
  rw [ready_append, List.forall_mem_append]
  grind

theorem fits_cons (hd : v.declares = false) (hu : v.uses = []) :
    Fits env scope (v :: vs) ↔ v.Shaped ∧ v.Typed env ∧ Fits env scope vs := by
  have hv := declared_of_not hd
  unfold Fits
  rw [Ready, hv, Scope.after_of_declared_nil hv, hu, List.forall_mem_cons]
  grind

theorem typed_expression (hp : v.place = .expression) :
    v.Typed env ↔ ∃ type, HasType env v.node type := by
  cases hk : v.node.kind <;> simp [Visit.Typed, hp, hk]

/-- In a table that agrees with the scope, an expression that uses names of the scope has the types
that it has in the scope. -/
theorem hasType_table_iff {n : Node} {type : Ty} (he : Extends env scope)
    (hr : Ready scope (visits .expression n)) :
    HasType env n type ↔ HasType scope.lookup n type := by
  have hagree : ∀ v ∈ visits .expression n, ∀ name ∈ v.uses, env name = scope.lookup name := by
    intro v hv name hn
    have hs := ((ready_expression (visits_expression_place n)).mp hr v hv).2 name hn
    obtain ⟨found, hf⟩ := Option.isSome_iff_exists.mp hs
    rw [hf]
    exact he name found hf
  constructor
  · intro h
    exact h.congr fun v hv name hn => (hagree v hv name hn).symm
  · intro h
    exact h.congr hagree

/-- An expression that has a type in the scope fits with all its parts. -/
theorem fits_of_hasType {n : Node} {type : Ty} (he : Extends env scope)
    (h : HasType scope.lookup n type) : Fits env scope (visits .expression n) := by
  have hplace := visits_expression_place n
  have hr : Ready scope (visits .expression n) := by
    rw [ready_expression hplace]
    intro v hv
    obtain ⟨inner, hi⟩ := h.visits v hv
    exact ⟨hi.shaped v.place, hi.uses v.place⟩
  refine ⟨hr, fun v hv => (typed_expression (hplace v hv)).mpr ?_⟩
  have ht := (hasType_table_iff he hr).mpr h
  exact ht.visits v hv

/-- An expression has a type in the scope exactly if its positions fit. -/
theorem fits_expression_iff {n : Node} (he : Extends env scope) :
    Fits env scope (visits .expression n) ↔ ∃ type, HasType scope.lookup n type := by
  constructor
  · rintro ⟨hr, ht⟩
    obtain ⟨type, h⟩ := (typed_expression rfl).mp (ht _ (mem_visits_self .expression n))
    exact ⟨type, (hasType_table_iff he hr).mp h⟩
  · rintro ⟨type, h⟩
    exact fits_of_hasType he h

/-- The same with the type that the context wants. -/
theorem fits_and_hasType_iff {n : Node} {type : Ty} (he : Extends env scope) :
    Fits env scope (visits .expression n) ∧ HasType env n type ↔
      HasType scope.lookup n type := by
  constructor
  · rintro ⟨hf, h⟩
    exact (hasType_table_iff he hf.1).mp h
  · intro h
    have hf := fits_of_hasType he h
    exact ⟨hf, (hasType_table_iff he hf.1).mpr h⟩

theorem shaped_statement_of_expression {n : Node} (context : Option Ty)
    (hn : n.kind.isExpression = true) :
    Visit.Shaped ⟨.statement context, n⟩ = Visit.Shaped ⟨.expression, n⟩ := by
  cases hk : n.kind <;> simp [hk, Kind.isExpression] at hn <;> simp [Visit.Shaped, hk]

/-- An expression needs the same as a statement and as part of another expression. -/
theorem fits_statement_of_expression {n : Node} (context : Option Ty)
    (hn : n.kind.isExpression = true) :
    Fits env scope (visits (.statement context) n) ↔ Fits env scope (visits .expression n) := by
  have hs := shaped_statement_of_expression context hn
  have hu : Visit.uses ⟨.statement context, n⟩ = Visit.uses ⟨.expression, n⟩ := by
    cases hk : n.kind <;> simp [hk, Kind.isExpression] at hn <;> simp [Visit.uses, hk]
  have ht : Visit.Typed env ⟨.statement context, n⟩ = Visit.Typed env ⟨.expression, n⟩ := by
    cases hk : n.kind <;> simp [hk, Kind.isExpression] at hn <;> simp [Visit.Typed, hk]
  have hd : declared [⟨.statement context, n⟩] = [] := by
    apply declared_of_not
    cases hk : n.kind <;> simp [hk, Kind.isExpression] at hn <;> simp [Visit.declares, hk]
  have hd' : declared [⟨.expression, n⟩] = [] := declared_of_not rfl
  rw [visits_statement_of_expression context hn, visits_eq .expression n, List.tail_cons]
  unfold Fits
  rw [Ready, Ready, List.forall_mem_cons, List.forall_mem_cons, hs, hu, ht,
    Scope.after_of_declared_nil hd, Scope.after_of_declared_nil hd', hd, hd']

end Fits

namespace Check

variable {s : State} {env : Text → Option Ty} {context : Option Ty} {n : Node}

theorem visit_scope {t : State} (h : visit context n s = .ok () t) :
    t.scope = s.scope.after (visits (.statement context) n) := by
  have hs := ((visit_covers context n).ok h).scope
  rw [hs, Scope.after, entriesOf, List.filterMap_map]
  rfl

theorem gives_count {counter : Counter} : Gives (count counter) s () := ⟨_, rfl⟩

theorem gives_declare {symbol : Symbol} :
    Gives (declare symbol) s () ↔ s.scope.lookup symbol.name = none := by
  unfold Gives declare Scope.declare Scope.contains Scope.lookup
  cases s.scope.find? symbol.name <;> simp

theorem gives_guard {p : Prop} [Decidable p] {f : Finding} :
    Gives (if p then MonadExcept.throw f else Pure.pure () : Check Unit) s () ↔ ¬ p := by
  by_cases hp : p
  · rw [if_pos hp]
    exact ⟨fun h => absurd h not_gives_throw, fun h => absurd hp h⟩
  · rw [if_neg hp]
    exact ⟨fun _ => hp, fun _ => gives_pure.mpr rfl⟩

/-- An expression that must have a given type. -/
theorem gives_expected {c : Node} {expected : Ty} {f : Finding} :
    Gives (do
      let type ← typeOf c
      if type ≠ expected then throw f) s () ↔ HasType s.scope.lookup c expected := by
  rw [Agrees.bind (typeOf_agrees c) fun type t _ => gives_guard]
  simp

theorem gives_condition {test : Node} {span : Option Span} :
    Gives (condition test span) s () ↔ HasType s.scope.lookup test .bool := gives_expected

theorem condition_scope {test : Node} {span : Option Span} {t : State}
    (h : condition test span s = .ok () t) : t.scope = s.scope := by
  have hs := ((condition_covers test span).ok h).scope
  rwa [entriesOf, filter_declares_expression, List.map_nil, List.filterMap_nil,
    List.append_nil] at hs

theorem gives_returned :
    Gives (returned context n) s () ↔
      ∃ type, context = some type ∧ ∃ c, n.children[0]? = some c ∧
        HasType s.scope.lookup c type := by
  unfold returned
  cases context with
  | none => simp [not_gives_throw]
  | some expected =>
    rw [gives_lift_bind]
    constructor
    · rintro ⟨c, hc, h⟩
      exact ⟨expected, rfl, c, (Node.child_eq_ok 0).mp hc, gives_expected.mp h⟩
    · rintro ⟨type, ht, c, hc, h⟩
      cases ht
      exact ⟨c, (Node.child_eq_ok 0).mpr hc, gives_expected.mpr h⟩

theorem gives_require_bind {α : Type} {name : Text} {span : Option Span} {next : Ty → Check α}
    {a : α} : Gives (require name span >>= next) s a ↔
      ∃ type, s.scope.lookup name = some type ∧ Gives (next type) s a := by
  constructor
  · rintro ⟨t, h⟩
    obtain ⟨type, u, hr, hn⟩ := bind_eq_ok.mp h
    have hu : s = u := by
      unfold require at hr
      split at hr <;> cases hr
      rfl
    subst hu
    exact ⟨type, gives_require.mp ⟨s, hr⟩, t, hn⟩
  · rintro ⟨type, hl, t, hn⟩
    refine ⟨t, bind_eq_ok.mpr ⟨type, s, ?_, hn⟩⟩
    simp [require, Scope.require, hl]

theorem gives_assignment :
    Gives (assignment n) s () ↔
      ∃ name, n.target? = some name ∧ ∃ c, n.children[1]? = some c ∧
        ∃ type, s.scope.lookup name = some type ∧ HasType s.scope.lookup c type := by
  have hvalue (name : Text) (c : Node) (span : Option Span) :
      Gives (do
        let type ← typeOf c
        let declared ← require name span
        if declared ≠ type then throw ⟨.assignmentType name, n.span⟩) s () ↔
      ∃ type, HasType s.scope.lookup c type ∧ s.scope.lookup name = some type := by
    apply Agrees.bind (typeOf_agrees c)
    intro type t ht
    rw [gives_require_bind, ht]
    simp only [gives_guard, Decidable.not_not, exists_eq_right]
  unfold assignment
  rw [gives_lift_bind]
  constructor
  · rintro ⟨target, ht, h⟩
    obtain ⟨name, hm, h⟩ := gives_lift_bind.mp h
    obtain ⟨c, hc, h⟩ := gives_lift_bind.mp h
    obtain ⟨type, hv, hl⟩ := (hvalue name c _).mp h
    refine ⟨name, ?_, c, (Node.child_eq_ok 1).mp hc, type, hl, hv⟩
    rw [Node.target?, (Node.child_eq_ok 0).mp ht]
    exact Node.readName_eq_ok.mp hm
  · rintro ⟨name, hm, c, hc, type, hl, hv⟩
    obtain ⟨target, ht, hm⟩ := Option.bind_eq_some_iff.mp hm
    refine ⟨target, (Node.child_eq_ok 0).mpr ht, gives_lift_bind.mpr
      ⟨name, Node.readName_eq_ok.mpr hm, gives_lift_bind.mpr ⟨c, (Node.child_eq_ok 1).mpr hc, ?_⟩⟩⟩
    exact (hvalue name c _).mpr ⟨type, hv, hl⟩

theorem gives_declaration :
    Gives (declaration n) s () ↔
      ∃ symbol, n.symbol? = some symbol ∧
        s.scope.lookup symbol.name = none := by
  have hlast (symbol : Symbol) :
      Gives (do declare symbol; count .var) s () ↔ s.scope.lookup symbol.name = none := by
    rw [gives_bind_unit (P := True) fun t _ => by simp [gives_count], gives_declare, and_true]
  unfold declaration
  rw [gives_lift_bind]
  constructor
  · rintro ⟨type, ht, h⟩
    obtain ⟨target, hg, h⟩ := gives_lift_bind.mp h
    obtain ⟨name, hm, h⟩ := gives_lift_bind.mp h
    refine ⟨_, Node.symbol?_eq_some.mpr ⟨type, target, name, Ty.ofKeyword_eq_ok.mp ht,
      (Node.child_eq_ok 0).mp hg, Node.readName_eq_ok.mp hm, rfl⟩, (hlast _).mp h⟩
  · rintro ⟨symbol, hs, hl⟩
    obtain ⟨type, target, name, ht, hg, hm, rfl⟩ := Node.symbol?_eq_some.mp hs
    exact ⟨type, Ty.ofKeyword_eq_ok.mpr ht, gives_lift_bind.mpr ⟨target,
      (Node.child_eq_ok 0).mpr hg, gives_lift_bind.mpr ⟨name, Node.readName_eq_ok.mpr hm,
        (hlast _).mpr hl⟩⟩⟩

/-- The checker accepts a node in statement position exactly when its positions fit, in any table
that agrees with the scope that it would leave. -/
def Admits (context : Option Ty) (n : Node) : Prop :=
  ∀ s env, Extends env (s.scope.after (visits (.statement context) n)) →
    (Gives (visit context n) s () ↔ Fits env s.scope (visits (.statement context) n))

theorem visitAll_gives_iff {nodes : List Node} (ih : ∀ c ∈ nodes, Admits context c)
    (he : Extends env (s.scope.after (visitsAll (.statement context) nodes))) :
    Gives (visitAll context nodes) s () ↔
      Fits env s.scope (visitsAll (.statement context) nodes) := by
  induction nodes generalizing s with
  | nil =>
    rw [visitAll]
    exact ⟨fun _ => ⟨trivial, fun v hv => by simp [visitsAll] at hv⟩, fun _ => gives_pure.mpr rfl⟩
  | cons c rest hr =>
    have hv : visitsAll (.statement context) (c :: rest) =
        visits (.statement context) c ++ visitsAll (.statement context) rest := rfl
    rw [hv] at he ⊢
    rw [Scope.after_append] at he
    rw [visitAll, fits_append, gives_bind_unit (P := Fits env
      (s.scope.after (visits (.statement context) c)) (visitsAll (.statement context) rest))]
    · rw [ih c List.mem_cons_self s env he.before]
    · intro t ht
      have hs := visit_scope ht
      rw [← hs] at he ⊢
      exact hr (fun d hd => ih d (List.mem_cons_of_mem c hd)) he

section Kinds

private theorem declaration_admits (hn : n.kind = .declaration)
    (hv : visit context n = declaration n) : Admits context n := by
  intro s env he
  have hvs : visits (.statement context) n = [⟨.statement context, n⟩] := by
    apply visits_of_none
    intro i kind
    rw [hn]
    rfl
  have hd : declared [⟨.statement context, n⟩] =
      n.symbol?.toList := by
    cases hs : n.symbol? <;> simp [declared, Visit.declares, hn, hs]
  have hshape : Visit.Shaped ⟨.statement context, n⟩ ↔
      ∃ symbol, n.symbol? = some symbol := by
    simp only [Visit.Shaped, hn, Node.symbol?_eq_some, Node.target?, Option.isSome_iff_exists,
      Option.bind_eq_some_iff]
    grind
  have hu : Visit.uses ⟨.statement context, n⟩ = [] := by simp [Visit.uses, hn]
  have ht : Visit.Typed env ⟨.statement context, n⟩ := by simp [Visit.Typed, hn]
  rw [hv, gives_declaration, hvs]
  unfold Fits
  rw [Ready, hd, hu, hshape]
  constructor
  · rintro ⟨symbol, hs, hl⟩
    refine ⟨⟨⟨symbol, hs⟩, by simp, ?_, trivial⟩, by simpa using ht⟩
    simpa [hs] using hl
  · rintro ⟨⟨⟨symbol, hs⟩, -, hl, -⟩, -⟩
    exact ⟨symbol, hs, hl symbol (by simp [hs])⟩

private theorem conditional_admits {counter : Counter} {test : Node} {rest : List Node}
    (hn : n.kind = .ifStmt ∨ n.kind = .whileStmt) (hr : n.children = test :: rest)
    (hv : visit context n = do condition test n.span; visitAll context rest; count counter)
    (ih : ∀ c ∈ rest, Admits context c) : Admits context n := by
  intro s env he
  have hd : Visit.declares ⟨.statement context, n⟩ = false := by
    rcases hn with h | h <;> simp [Visit.declares, h]
  have hu : Visit.uses ⟨.statement context, n⟩ = [] := by
    rcases hn with h | h <;> simp [Visit.uses, h]
  have hshape : Visit.Shaped ⟨.statement context, n⟩ := by
    rcases hn with h | h <;> simp [Visit.Shaped, h, hr]
  have htyped : Visit.Typed env ⟨.statement context, n⟩ ↔ HasType env test .bool := by
    rcases hn with h | h <;> simp [Visit.Typed, h, hr]
  have hscope : s.scope.after (visits .expression test) = s.scope :=
    Scope.after_of_declared_nil (declared_expression test)
  rw [visits_conditional _ hn hr, ← List.singleton_append, Scope.after_append, Scope.after_append,
    Scope.after_of_declared_nil (declared_of_not hd), hscope] at he
  rw [hv, visits_conditional _ hn hr, fits_cons hd hu, fits_append, hscope, htyped,
    gives_bind_unit (P := Fits env s.scope (visitsAll (.statement context) rest)), gives_condition,
    ← fits_and_hasType_iff he.before]
  · grind
  · intro t ht
    have hs := condition_scope ht
    rw [gives_bind_unit (P := True) fun u _ => by simp [gives_count], and_true]
    rw [← hs] at he ⊢
    exact visitAll_gives_iff ih he

private theorem function_admits (hn : n.kind = .functionStmt)
    (hv : visit context n = do
      let type ← lift (Ty.ofKeyword n.value n.span)
      visitAll (some type) n.children
      count .func)
    (ih : ∀ c ∈ n.children, ∀ context, Admits context c) : Admits context n := by
  intro s env he
  have hd : Visit.declares ⟨.statement context, n⟩ = false := by simp [Visit.declares, hn]
  have hu : Visit.uses ⟨.statement context, n⟩ = [] := by simp [Visit.uses, hn]
  have hshape : Visit.Shaped ⟨.statement context, n⟩ ↔ ∃ type : Ty, n.value = some type.keyword := by
    simp [Visit.Shaped, hn]
  have htyped : Visit.Typed env ⟨.statement context, n⟩ := by simp [Visit.Typed, hn]
  rw [visits_function _ hn, ← List.singleton_append, Scope.after_append,
    Scope.after_of_declared_nil (declared_of_not hd)] at he
  rw [hv, visits_function _ hn, fits_cons hd hu, hshape, gives_lift_bind]
  have hbody (type : Ty) (ht : n.value = some type.keyword) :
      Gives (do visitAll (some type) n.children; count .func) s () ↔
        Fits env s.scope (visitsAll (.statement (n.value.bind Ty.ofKeyword?)) n.children) := by
    have hk : n.value.bind Ty.ofKeyword? = some type := by
      rw [ht, Option.bind_some]
      exact Ty.ofKeyword?_eq_some.mpr rfl
    rw [hk] at he ⊢
    rw [gives_bind_unit (P := True) fun u _ => by simp [gives_count], and_true]
    exact visitAll_gives_iff (fun c hc => ih c hc (some type)) he
  constructor
  · rintro ⟨type, ht, h⟩
    have ht := Ty.ofKeyword_eq_ok.mp ht
    exact ⟨⟨type, ht⟩, htyped, (hbody type ht).mp h⟩
  · rintro ⟨⟨type, ht⟩, -, h⟩
    exact ⟨type, Ty.ofKeyword_eq_ok.mpr ht, (hbody type ht).mpr h⟩

private theorem return_admits (hn : n.kind = .returnStmt)
    (hv : visit context n = returned context n) : Admits context n := by
  intro s env he
  have hd : Visit.declares ⟨.statement context, n⟩ = false := by simp [Visit.declares, hn]
  have hu : Visit.uses ⟨.statement context, n⟩ = [] := by simp [Visit.uses, hn]
  have hshape : Visit.Shaped ⟨.statement context, n⟩ ↔ n.children ≠ [] := by
    simp [Visit.Shaped, hn]
  have htyped : Visit.Typed env ⟨.statement context, n⟩ ↔
      ∃ type, context = some type ∧ ∀ c ∈ n.children[0]?, HasType env c type := by
    simp [Visit.Typed, hn]
  rw [hv, gives_returned]
  cases hr : n.children with
  | nil =>
    rw [visits_eq, fits_cons hd hu, hshape, hr]
    simp
  | cons c rest =>
    rw [visits_return _ hn hr, fits_cons hd hu, hshape, htyped, hr]
    simp only [List.getElem?_cons_zero, Option.some.injEq, exists_eq_left', Option.mem_def,
      forall_eq', ne_eq, reduceCtorEq, not_false_eq_true, true_and]
    rw [and_comm]
    constructor
    · rintro ⟨type, hc, h⟩
      have hb := (fits_and_hasType_iff he.before).mpr h
      exact ⟨hb.1, type, hc, hb.2⟩
    · rintro ⟨hf, type, hc, h⟩
      exact ⟨type, hc, (fits_and_hasType_iff he.before).mp ⟨hf, h⟩⟩

private theorem assign_admits (hn : n.kind = .assignStmt)
    (hv : visit context n = assignment n) : Admits context n := by
  intro s env he
  have hd := declared_of_not (v := ⟨.statement context, n⟩) (by simp [Visit.declares, hn])
  have hu : Visit.uses ⟨.statement context, n⟩ = n.target?.toList := by simp [Visit.uses, hn]
  have hshape : Visit.Shaped ⟨.statement context, n⟩ ↔
      n.target?.isSome ∧ 2 ≤ n.children.length := by
    simp [Visit.Shaped, hn]
  have htyped : Visit.Typed env ⟨.statement context, n⟩ ↔
      ∀ name ∈ n.target?, ∀ c ∈ n.children[1]?,
        ∃ type, env name = some type ∧ HasType env c type := by
    simp [Visit.Typed, hn]
  rw [hv, gives_assignment]
  have hshort (hlen : n.children.length < 2) :
      ¬ Fits env s.scope (visits (.statement context) n) := by
    have hno : ¬ Visit.Shaped ⟨.statement context, n⟩ := by
      rw [hshape]
      omega
    rw [visits_eq]
    unfold Fits
    rw [Ready]
    simp [hno]
  rcases hr : n.children with _ | ⟨target, _ | ⟨c, rest⟩⟩
  · simp [hshort (by simp [hr])]
  · simp [hshort (by simp [hr])]
  · have hbefore : Extends env s.scope := he.before
    rw [visits_assign _ hn hr]
    unfold Fits
    rw [Ready, hd, Scope.after_of_declared_nil hd, hu, hshape, List.forall_mem_cons, htyped, hr]
    simp only [List.getElem?_cons_succ, List.getElem?_cons_zero, Option.some.injEq,
      exists_eq_left']
    constructor
    · rintro ⟨name, hm, type, hl, h⟩
      obtain ⟨hf, ht⟩ := (fits_and_hasType_iff hbefore).mpr h
      refine ⟨⟨⟨by simp [hm], by simp⟩, by simp [hm, hl], by simp, hf.1⟩, ?_, hf.2⟩
      intro other ho value hc
      rw [hm] at ho
      cases ho
      cases hc
      exact ⟨type, hbefore name type hl, ht⟩
    · rintro ⟨⟨⟨hm, -⟩, hl, -, hready⟩, htype, hrest⟩
      obtain ⟨name, hm⟩ := Option.isSome_iff_exists.mp hm
      obtain ⟨found, hfound⟩ := Option.isSome_iff_exists.mp (hl name (by simp [hm]))
      obtain ⟨type, het, ht⟩ := htype name hm c rfl
      have hsame : found = type := by
        have hf := hbefore name found hfound
        rw [het] at hf
        exact (Option.some.inj hf).symm
      subst hsame
      exact ⟨name, hm, found, hfound, (fits_and_hasType_iff hbefore).mp ⟨⟨hready, hrest⟩, ht⟩⟩

end Kinds

theorem visit_admits (context : Option Ty) (n : Node) : Admits context n := by
  induction n using Node.childInduction generalizing context with
  | step n ih =>
    obtain ⟨kind, children, value, ops, span⟩ := n
    simp only at ih
    cases kind with
    | program | block | stmt | functionBlock =>
      intro s env he
      rw [visits_group _ (by simp), ← List.singleton_append, Scope.after_append,
        Scope.after_of_declared_nil (declared_of_not rfl)] at he
      rw [visits_group _ (by simp), fits_cons rfl rfl]
      simp only [visit, Visit.Shaped, Visit.Typed, true_and]
      exact visitAll_gives_iff (fun c hc => ih c hc context) he
    | declaration => exact declaration_admits rfl (by rw [visit])
    | ifStmt | whileStmt =>
      cases children with
      | nil =>
        intro s env he
        rw [visit, visits_eq, fits_cons rfl rfl]
        simp [not_gives_malformed, Visit.Shaped]
      | cons test rest =>
        exact conditional_admits (by simp) rfl (by rw [visit])
          fun c hc => ih c (List.mem_cons_of_mem test hc) context
    | functionStmt => exact function_admits rfl (by rw [visit]) ih
    | returnStmt => exact return_admits rfl (by rw [visit])
    | assignStmt => exact assign_admits rfl (by rw [visit])
    | identifier =>
      intro s env he
      rw [visit, visits_of_none fun i kind => rfl, fits_cons rfl rfl]
      simp only [Visit.Shaped, Visit.Typed, true_and]
      exact ⟨fun _ => ⟨trivial, by simp⟩, fun _ => gives_pure.mpr rfl⟩
    | _ =>
      intro s env he
      rw [fits_statement_of_expression context rfl, fits_expression_iff he.before]
      simp only [visit]
      rw [Agrees.bind (typeOf_agrees _) (P := fun _ => True) fun type t _ => by simp [gives_pure]]
      simp

/-- Only a tree of the right shape is accepted. -/
theorem visit_ok_shaped {t : State} (h : visit context n s = .ok () t) :
    ∀ v ∈ visits (.statement context) n, v.Shaped := by
  intro v hv
  have hfits := (visit_admits context n s _ fun _ _ h => h).mp ⟨t, h⟩
  obtain ⟨before, after, heq⟩ := List.append_of_mem hv
  exact (ready_iff_split.mp hfits.1 before v after heq).1

end Check

/-- The empty scope is left as the table of all declarations. -/
theorem fits_empty_iff {vs : List Visit} :
    Fits (Scope.mk (declared vs)).lookup {} vs ↔ Admissible vs := by
  have hscope (before : List Visit) : Scope.after {} before = ⟨declared before⟩ := by
    simp [Scope.after]
  have hnames := nodup_declared_iff [] vs
  simp only [List.not_mem_nil, not_false_eq_true, implies_true, and_true,
    List.nil_append] at hnames
  unfold Fits
  rw [ready_iff_split]
  simp only [hscope, Scope.lookup_isSome, Scope.lookup_eq_none]
  constructor
  · rintro ⟨hready, htyped⟩
    refine ⟨?_, hnames.mpr fun before v after heq => (hready before v after heq).2.2,
      fun before v after heq => (hready before v after heq).2.1, htyped⟩
    intro v hv
    obtain ⟨before, after, heq⟩ := List.append_of_mem hv
    exact (hready before v after heq).1
  · intro h
    refine ⟨fun before v after heq => ⟨?_, h.declaredFirst before v after heq,
      hnames.mp h.distinct before v after heq⟩, h.typed⟩
    exact h.shaped v (by rw [heq]; simp)

/-- A program is accepted exactly if its positions are admissible. -/
theorem analyzeAlone_accepts_iff (logger : Logger) (traceTypes : Bool) (p : Node)
    (hp : p.kind = .program) :
    (∃ analysis, (analyzeAlone logger traceTypes p).outcome = .ok analysis) ↔
      Admissible (visits (.statement none) p) := by
  have hvisit := Check.visit_admits none p {} (Scope.mk (declared (visits (.statement none) p))).lookup
    (fun name type h => by simpa [Scope.after] using h)
  rw [← fits_empty_iff, ← hvisit]
  unfold analyzeAlone Analyzer.analyze Check.Gives
  simp only [Bool.false_eq_true, if_false, hp, ne_eq, not_true_eq_false]
  cases Check.visit none p {} with
  | ok value state => simp
  | error finding state => simp

/-- A name must be declared before it is assigned: one order of two statements is accepted and the
other is not, although the declarations are the same. -/
theorem analyzeAlone_accepts_in_order :
    let declares := Node.declaration "num" "a"
    let assigns := Node.ifStmt (Node.notExpr (Node.boolValue true) 2)
      [Node.assignStmt "a" (Node.addExpr [Node.reference "a", Node.intValue 1] ["+"])]
    (Node.program [declares, assigns]).kind = .program ∧
      Admissible (visits (.statement none) (Node.program [declares, assigns])) ∧
      ¬ Admissible (visits (.statement none) (Node.program [assigns, declares])) := by
  refine ⟨rfl, ?_, ?_⟩
  · exact (analyzeAlone_accepts_iff { component := "analyzer" } false _ rfl).mp ⟨_, rfl⟩
  · intro h
    obtain ⟨analysis, ha⟩ :=
      (analyzeAlone_accepts_iff { component := "analyzer" } false _ rfl).mpr h
    cases ha

end TreeCheck
