import TreeCheck.Proofs.Check.Coverage

namespace TreeCheck

/-- The typing rules, for the types that `env` gives to names. A comparison joins two numbers, or
two operands of one type, whose outcome can then be compared with further truth values. -/
inductive HasType (env : Text → Option Ty) : Node → Ty → Prop
  | boolValue {n : Node} (hk : n.kind = .boolValue) : HasType env n .bool
  | intValue {n : Node} (hk : n.kind = .intValue) : HasType env n .number
  | read {n c : Node} {rest : List Node} {name : Text} {type : Ty} (hk : n.kind = .genValue)
      (hc : n.children = c :: rest) (hm : c.name? = some name) (ht : env name = some type) :
      HasType env n type
  | value {n c : Node} {rest : List Node} {type : Ty} (hk : n.kind = .genValue)
      (hc : n.children = c :: rest) (hi : c.kind ≠ .identifier) (h : HasType env c type) :
      HasType env n type
  | expr {n c : Node} {rest : List Node} {type : Ty} (hk : n.kind = .expr)
      (hc : n.children = c :: rest) (h : HasType env c type) : HasType env n type
  | single {n c : Node} {type : Ty}
      (hk : n.kind = .compExpr ∨ n.kind = .addExpr ∨ n.kind = .mulExpr ∨ n.kind = .boolExpr)
      (hc : n.children = [c]) (h : HasType env c type) : HasType env n type
  | ordering {n c d : Node} {op : Text} (hk : n.kind = .compExpr) (hc : n.children = [c, d])
      (hv : n.value = some op) (ho : op ∈ Comparison.ordering.operators)
      (hl : HasType env c .number) (hr : HasType env d .number) : HasType env n .bool
  | equality {n c d : Node} {rest : List Node} {op : Text} {type : Ty} (hk : n.kind = .compExpr)
      (hc : n.children = c :: d :: rest) (hv : n.value = some op)
      (ho : op ∈ Comparison.equality.operators) (hl : HasType env c type)
      (hr : HasType env d type) (hs : ∀ e ∈ rest, HasType env e .bool) : HasType env n .bool
  | arithmetic {n : Node} (hk : n.kind = .addExpr ∨ n.kind = .mulExpr)
      (hl : 2 ≤ n.children.length) (h : ∀ c ∈ n.children, HasType env c .number) :
      HasType env n .number
  | logic {n : Node} (hk : n.kind = .boolExpr) (hl : 2 ≤ n.children.length)
      (h : ∀ c ∈ n.children, HasType env c .bool) : HasType env n .bool
  | bare {n c : Node} {rest : List Node} {type : Ty} (hk : n.kind = .notExpr ∨ n.kind = .unaExpr)
      (hc : n.children = c :: rest) (ho : n.ops.getD [] = []) (h : HasType env c type) :
      HasType env n type
  | negation {n c : Node} {rest : List Node} (hk : n.kind = .notExpr)
      (hc : n.children = c :: rest) (hn : n.ops.getD [] ≠ [])
      (ho : ∀ op ∈ n.ops.getD [], op = "!") (h : HasType env c .bool) : HasType env n .bool
  | minus {n c : Node} {rest : List Node} (hk : n.kind = .unaExpr)
      (hc : n.children = c :: rest) (hn : n.ops.getD [] ≠ [])
      (ho : ∀ op ∈ n.ops.getD [], op = "-") (h : HasType env c .number) : HasType env n .number

section Inversion

variable {env : Text → Option Ty} {n c d : Node} {rest : List Node} {type : Ty}

theorem hasType_expr (hk : n.kind = .expr) (hc : n.children = c :: rest) :
    HasType env n type ↔ HasType env c type := by
  constructor
  · intro h
    cases h <;> simp_all
  · exact .expr hk hc

theorem hasType_value (hk : n.kind = .genValue) (hc : n.children = c :: rest)
    (hi : c.kind ≠ .identifier) : HasType env n type ↔ HasType env c type := by
  constructor
  · intro h
    cases h <;> simp_all [Node.name?]
  · exact .value hk hc hi

theorem hasType_read (hk : n.kind = .genValue) (hc : n.children = c :: rest)
    (hi : c.kind = .identifier) :
    HasType env n type ↔ ∃ name, c.value = some name ∧ env name = some type := by
  constructor
  · intro h
    cases h <;> simp_all [Node.name?]
  · rintro ⟨name, hv, ht⟩
    exact .read hk hc (by simp [Node.name?, hi, hv]) ht

theorem hasType_single
    (hk : n.kind = .compExpr ∨ n.kind = .addExpr ∨ n.kind = .mulExpr ∨ n.kind = .boolExpr)
    (hc : n.children = [c]) : HasType env n type ↔ HasType env c type := by
  constructor
  · intro h
    cases h <;> simp_all
  · exact .single hk hc

theorem hasType_joined (hk : n.kind = .addExpr ∨ n.kind = .mulExpr ∨ n.kind = .boolExpr)
    (hl : 2 ≤ n.children.length) :
    HasType env n type ↔
      type = Check.operandType n.kind ∧ ∀ c ∈ n.children, HasType env c type := by
  constructor
  · intro h
    cases h with
    | arithmetic hk' _ h => exact ⟨by rcases hk' with h | h <;> simp [h, Check.operandType], h⟩
    | logic hk' _ h => exact ⟨by simp [hk', Check.operandType], h⟩
    | _ => grind
  · rintro ⟨rfl, h⟩
    rcases hk with hk | hk | hk
    · simp only [hk, Check.operandType] at h ⊢
      exact .arithmetic (.inl hk) hl h
    · simp only [hk, Check.operandType] at h ⊢
      exact .arithmetic (.inr hk) hl h
    · simp only [hk, Check.operandType] at h ⊢
      exact .logic hk hl h

theorem hasType_bare (hk : n.kind = .notExpr ∨ n.kind = .unaExpr) (hc : n.children = c :: rest)
    (ho : n.ops.getD [] = []) : HasType env n type ↔ HasType env c type := by
  constructor
  · intro h
    cases h <;> simp_all
  · exact .bare hk hc ho

/-- The operators of a prefixed expression, and the type of its operand and of itself. -/
def Prefixed (kind : Kind) (own : Text) (operand : Ty) : Prop :=
  kind = .notExpr ∧ own = "!" ∧ operand = .bool ∨ kind = .unaExpr ∧ own = "-" ∧ operand = .number

theorem hasType_prefixed {own : Text} {operand : Ty} (hk : Prefixed n.kind own operand)
    (hc : n.children = c :: rest) (hn : n.ops.getD [] ≠ []) :
    HasType env n type ↔
      type = operand ∧ (∀ op ∈ n.ops.getD [], op = own) ∧ HasType env c operand := by
  rcases hk with ⟨hk, rfl, rfl⟩ | ⟨hk, rfl, rfl⟩
  · constructor
    · intro h
      cases h with
      | negation _ hc' _ ho h => exact ⟨rfl, ho, by simp_all⟩
      | _ => simp_all
    · rintro ⟨rfl, ho, h⟩
      exact .negation hk hc hn ho h
  · constructor
    · intro h
      cases h with
      | minus _ hc' _ ho h => exact ⟨rfl, ho, by simp_all⟩
      | _ => simp_all
    · rintro ⟨rfl, ho, h⟩
      exact .minus hk hc hn ho h

/-- Operands that can follow the outcome of a comparison. -/
def Chained (env : Text → Option Ty) : Comparison → List Node → Prop
  | .ordering, nodes => nodes = []
  | .equality, nodes => ∀ e ∈ nodes, HasType env e .bool

theorem hasType_compared (hk : n.kind = .compExpr) (hc : n.children = c :: d :: rest) :
    HasType env n type ↔
      ∃ family : Comparison, (∃ op ∈ family.operators, n.value = some op) ∧
        ∃ left, HasType env c left ∧ (∃ right, HasType env d right ∧
          family.accepts left right = true ∧ Chained env family rest) ∧ type = .bool := by
  constructor
  · intro h
    cases h with
    | @ordering _ c' d' op hk hc' hv ho hl hr =>
      rw [hc] at hc'
      simp only [List.cons.injEq] at hc'
      obtain ⟨rfl, rfl, rfl⟩ := hc'
      exact ⟨.ordering, ⟨op, ho, hv⟩, .number, hl, ⟨.number, hr, rfl, rfl⟩, rfl⟩
    | @equality _ c' d' rest' op both hk hc' hv ho hl hr hs =>
      rw [hc] at hc'
      simp only [List.cons.injEq] at hc'
      obtain ⟨rfl, rfl, rfl⟩ := hc'
      exact ⟨.equality, ⟨op, ho, hv⟩, both, hl, ⟨both, hr, by simp [Comparison.accepts], hs⟩, rfl⟩
    | _ => simp_all
  · rintro ⟨family, ⟨op, ho, hv⟩, left, hl, ⟨right, hr, ha, hs⟩, rfl⟩
    cases family with
    | ordering =>
      simp only [Comparison.accepts, decide_eq_true_eq] at ha
      obtain ⟨rfl, rfl⟩ := ha
      cases (hs : rest = [])
      exact .ordering hk hc hv ho hl hr
    | equality =>
      simp only [Comparison.accepts, decide_eq_true_eq] at ha
      subst ha
      exact .equality hk hc hv ho hl hr hs

theorem not_hasType_nil (hc : n.children = [])
    (hk : n.kind ≠ .boolValue ∧ n.kind ≠ .intValue) : ¬ HasType env n type := by
  intro h
  cases h <;> simp_all

theorem HasType.isExpression (h : HasType env n type) : n.kind.isExpression = true := by
  cases h <;> grind [Kind.isExpression]

/-- The parts of an expression that has a type have types. -/
theorem HasType.part {i : Nat} (h : HasType env n type) (hc : n.children[i]? = some c)
    (hp : Place.expression.child n.kind n.value i c.kind = some .expression) :
    ∃ inner, HasType env c inner := by
  have hmem : c ∈ n.children := List.mem_of_getElem? hc
  cases h with
  | ordering _ hn _ _ hl hr =>
    rw [hn] at hmem
    simp only [List.mem_cons, List.not_mem_nil, or_false] at hmem
    rcases hmem with rfl | rfl
    · exact ⟨.number, hl⟩
    · exact ⟨.number, hr⟩
  | equality _ hn _ _ hl hr hs =>
    rw [hn] at hmem
    simp only [List.mem_cons] at hmem
    rcases hmem with rfl | rfl | hmem
    · exact ⟨_, hl⟩
    · exact ⟨_, hr⟩
    · exact ⟨.bool, hs c hmem⟩
  | single _ hn h =>
    rw [hn, List.mem_singleton] at hmem
    exact ⟨type, hmem ▸ h⟩
  | arithmetic _ _ h => exact ⟨.number, h c hmem⟩
  | logic _ _ h => exact ⟨.bool, h c hmem⟩
  | boolValue hk => simp [Place.child, hk] at hp
  | intValue hk => simp [Place.child, hk] at hp
  | read hk hn hm _ =>
    simp only [Place.child, hk] at hp
    split at hp
    · obtain ⟨rfl, hi⟩ := ‹i = 0 ∧ _›
      rw [hn] at hc
      simp_all [Node.name?]
    · cases hp
  | value hk hn _ h | expr hk hn h | negation hk hn _ _ h | minus hk hn _ _ h =>
    have hi : i = 0 := by
      simp only [Place.child, hk] at hp
      split at hp
      · simp_all
      · cases hp
    rw [hn, hi] at hc
    cases hc
    exact ⟨_, h⟩
  | bare hk hn _ h =>
    have hi : i = 0 := by
      rcases hk with hk | hk <;> simp only [Place.child, hk] at hp <;> split at hp <;> simp_all
    rw [hn, hi] at hc
    cases hc
    exact ⟨type, h⟩

theorem HasType.visits (h : HasType env n type) :
    ∀ v ∈ visits .expression n, ∃ inner, HasType env v.node inner := by
  induction n using Node.childInduction generalizing type with
  | step n ih =>
    intro v hv
    rw [visits_eq, List.mem_cons] at hv
    rcases hv with rfl | hv
    · exact ⟨type, h⟩
    · obtain ⟨i, c, place, hc, hp, hv⟩ := mem_visitsFrom.mp hv
      rw [Nat.zero_add] at hp
      have hplace : place = .expression := Place.child_expression hp
      rw [hplace] at hp hv
      obtain ⟨inner, hi⟩ := h.part hc hp
      exact ih c (List.mem_of_getElem? hc) hi v hv

/-- A typing looks up the names that the expression reads, and no others. -/
theorem HasType.congr {env' : Text → Option Ty} (h : HasType env n type)
    (he : ∀ v ∈ TreeCheck.visits .expression n, ∀ name ∈ v.uses, env' name = env name) :
    HasType env' n type := by
  -- What is assumed of the positions of a node holds of the positions of its parts.
  have below {n c : Node} {i : Nat} (hc : n.children[i]? = some c)
      (hp : Place.expression.child n.kind n.value i c.kind = some .expression)
      (he : ∀ v ∈ TreeCheck.visits .expression n, ∀ name ∈ v.uses, env' name = env name) :
      ∀ v ∈ TreeCheck.visits .expression c, ∀ name ∈ v.uses, env' name = env name :=
    fun v hv => he v (visits_child_subset hc hp hv)
  have first {n c : Node} {rest : List Node} (hc : n.children = c :: rest) :
      n.children[0]? = some c := by rw [hc]; rfl
  induction h with
  | boolValue hk => exact .boolValue hk
  | intValue hk => exact .intValue hk
  | @read n c rest name type hk hc hm ht =>
    have hu : name ∈ Visit.uses ⟨.expression, n⟩ := by
      simp [Visit.uses, hk, Node.target?, hc, hm]
    exact .read hk hc hm ((he _ (mem_visits_self .expression n) name hu).trans ht)
  | value hk hc hi _ ih =>
    exact .value hk hc hi (ih (below (first hc) (by simp [Place.child, hk, hi]) he))
  | expr hk hc _ ih => exact .expr hk hc (ih (below (first hc) (by simp [Place.child, hk]) he))
  | single hk hc _ ih =>
    refine .single hk hc (ih (below (first hc) ?_ he))
    rcases hk with hk | hk | hk | hk <;> simp [Place.child, hk]
  | @ordering n c d op hk hc hv ho _ _ ihl ihr =>
    have hd : n.children[1]? = some d := by rw [hc]; rfl
    exact .ordering hk hc hv ho (ihl (below (first hc) (by simp [Place.child, hk]) he))
      (ihr (below hd (by simp [Place.child, hk]) he))
  | @equality n c d rest op both hk hc hv ho _ _ _ ihl ihr ihs =>
    have hd : n.children[1]? = some d := by rw [hc]; rfl
    refine .equality hk hc hv ho (ihl (below (first hc) (by simp [Place.child, hk]) he))
      (ihr (below hd (by simp [Place.child, hk]) he)) fun e hmem => ?_
    have hin : e ∈ n.children := by simp [hc, hmem]
    obtain ⟨i, hi⟩ := List.mem_iff_getElem?.mp hin
    exact ihs e hmem (below hi (by simp [Place.child, hk]) he)
  | arithmetic hk hl _ ih =>
    refine .arithmetic hk hl fun c hmem => ?_
    obtain ⟨i, hi⟩ := List.mem_iff_getElem?.mp hmem
    refine ih c hmem (below hi ?_ he)
    rcases hk with hk | hk <;> simp [Place.child, hk]
  | logic hk hl _ ih =>
    refine .logic hk hl fun c hmem => ?_
    obtain ⟨i, hi⟩ := List.mem_iff_getElem?.mp hmem
    exact ih c hmem (below hi (by simp [Place.child, hk]) he)
  | bare hk hc ho _ ih =>
    refine .bare hk hc ho (ih (below (first hc) ?_ he))
    rcases hk with hk | hk <;> simp [Place.child, hk]
  | negation hk hc hn ho _ ih =>
    exact .negation hk hc hn ho (ih (below (first hc) (by simp [Place.child, hk]) he))
  | minus hk hc hn ho _ ih =>
    exact .minus hk hc hn ho (ih (below (first hc) (by simp [Place.child, hk]) he))

theorem HasType.shaped (h : HasType env n type) (place : Place) : Visit.Shaped ⟨place, n⟩ := by
  cases h with
  | boolValue hk => cases place <;> simp [Visit.Shaped, hk]
  | intValue hk => cases place <;> simp [Visit.Shaped, hk]
  | read hk hc hm _ =>
    have hv : ∃ c, n.children[0]? = some c ∧ (c.kind = .identifier → c.value.isSome) := by
      refine ⟨_, by rw [hc]; rfl, fun hi => ?_⟩
      simp only [Node.name?, hi, if_true] at hm
      simp [hm]
    cases place <;> simpa [Visit.Shaped, hk] using hv
  | value hk hc hi _ =>
    have hv : ∃ c, n.children[0]? = some c ∧ (c.kind = .identifier → c.value.isSome) :=
      ⟨_, by rw [hc]; rfl, fun h => absurd h hi⟩
    cases place <;> simpa [Visit.Shaped, hk] using hv
  | expr hk hc _ => cases place <;> simp [Visit.Shaped, hk, hc]
  | single hk hc _ =>
    rcases hk with hk | hk | hk | hk <;> cases place <;> simp [Visit.Shaped, hk, hc]
  | ordering hk hc hv ho _ _ =>
    have hf : ∃ family : Comparison, ∃ op ∈ family.operators, n.value = some op :=
      ⟨.ordering, _, ho, hv⟩
    cases place <;> simp [Visit.Shaped, hk, hc, hf]
  | equality hk hc hv ho _ _ _ =>
    have hf : ∃ family : Comparison, ∃ op ∈ family.operators, n.value = some op :=
      ⟨.equality, _, ho, hv⟩
    cases place <;> simp [Visit.Shaped, hk, hc, hf]
  | arithmetic hk hl _ =>
    have hne : n.children ≠ [] := by
      intro he
      simp [he] at hl
    rcases hk with hk | hk <;> cases place <;> simp [Visit.Shaped, hk, hne]
  | logic hk hl _ =>
    have hne : n.children ≠ [] := by
      intro he
      simp [he] at hl
    cases place <;> simp [Visit.Shaped, hk, hne]
  | bare hk hc ho _ =>
    rcases hk with hk | hk <;> cases place <;> simp [Visit.Shaped, hk, hc, ho]
  | negation hk hc _ ho _ => cases place <;> simpa [Visit.Shaped, hk, hc] using ho
  | minus hk hc _ ho _ => cases place <;> simpa [Visit.Shaped, hk, hc] using ho

/-- The names that an expression reads have types if it has one. -/
theorem HasType.uses (h : HasType env n type) (place : Place) :
    ∀ name ∈ Visit.uses ⟨place, n⟩, (env name).isSome := by
  intro name hu
  have hk := h.isExpression
  cases h with
  | read hk hc hm ht =>
    cases place <;> simp only [Visit.uses, hk, Node.target?, hc] at hu <;> simp_all
  | value hk hc hi _ =>
    cases place <;> simp [Visit.uses, hk, Node.target?, hc, Node.name?, hi] at hu
  | _ => cases place <;> grind [Visit.uses]

end Inversion

namespace Check

variable {α β : Type} {s : State}

/-- The check succeeds with this result. -/
def Gives (check : Check α) (s : State) (a : α) : Prop := ∃ t, check s = .ok a t

theorem gives_pure {a b : α} : Gives (pure a) s b ↔ b = a := by
  constructor
  · rintro ⟨t, h⟩
    cases h
    rfl
  · rintro rfl
    exact ⟨s, rfl⟩

theorem not_gives_throw {f : Finding} {a : α} : ¬ Gives (throw f : Check α) s a := by
  rintro ⟨t, h⟩
  cases h

theorem gives_traced {kind : Kind} {check : Check Ty} {type : Ty} :
    Gives (traced kind check) s type ↔ Gives check s type := by
  constructor
  · rintro ⟨t, h⟩
    obtain ⟨b, u, hb, hu⟩ := bind_eq_ok.mp h
    cases hu
    exact ⟨u, hb⟩
  · rintro ⟨t, h⟩
    exact ⟨_, bind_eq_ok.mpr ⟨type, t, h, rfl⟩⟩

theorem gives_lift_bind {result : Except Finding α} {next : α → Check β} {b : β} :
    Gives (lift result >>= next) s b ↔ ∃ a, result = .ok a ∧ Gives (next a) s b := by
  constructor
  · rintro ⟨t, h⟩
    obtain ⟨a, u, ha, hb⟩ := bind_eq_ok.mp h
    obtain ⟨hr, rfl⟩ := lift_eq_ok.mp ha
    exact ⟨a, hr, t, hb⟩
  · rintro ⟨a, ha, t, hb⟩
    exact ⟨t, bind_eq_ok.mpr ⟨a, s, lift_eq_ok.mpr ⟨ha, rfl⟩, hb⟩⟩

theorem gives_require {name : Text} {span : Option Span} {type : Ty} :
    Gives (require name span) s type ↔ s.scope.lookup name = some type := by
  unfold Gives require Scope.require
  cases s.scope.lookup name <;> simp

/-- What follows a check of which it only needs the success. -/
theorem gives_bind_unit {check : Check Unit} {next : Unit → Check β} {b : β} {P : Prop}
    (hn : ∀ t, check s = .ok () t → (Gives (next ()) t b ↔ P)) :
    Gives (check >>= next) s b ↔ Gives check s () ∧ P := by
  constructor
  · rintro ⟨t, h⟩
    obtain ⟨a, u, ha, hb⟩ := bind_eq_ok.mp h
    exact ⟨⟨u, ha⟩, (hn u ha).mp ⟨t, hb⟩⟩
  · rintro ⟨⟨u, ha⟩, hp⟩
    obtain ⟨t, hb⟩ := (hn u ha).mpr hp
    exact ⟨t, bind_eq_ok.mpr ⟨(), u, ha, hb⟩⟩

theorem gives_count_then {counter : Counter} {a b : α} :
    Gives (do count counter; return a) s b ↔ b = a := by
  constructor
  · rintro ⟨t, h⟩
    obtain ⟨u, v, -, hb⟩ := bind_eq_ok.mp h
    cases hb
    rfl
  · rintro rfl
    exact ⟨_, rfl⟩

/-- The check of an expression leaves the scope alone. -/
theorem typeOf_scope {n : Node} {t : State} {type : Ty} (h : typeOf n s = .ok type t) :
    t.scope = s.scope := by
  have hs := ((typeOf_covers n).ok h).scope
  rwa [entriesOf, filter_declares_expression, List.map_nil, List.filterMap_nil,
    List.append_nil] at hs

/-- The checker gives an expression the types that it has in the scope. -/
def Agrees (n : Node) : Prop :=
  ∀ s type, Gives (typeOf n) s type ↔ HasType s.scope.lookup n type

/-- What follows the check of an expression sees its type and the same scope. -/
theorem Agrees.bind {c : Node} (ih : Agrees c) {next : Ty → Check β} {b : β} {P : Ty → Prop}
    (hn : ∀ type t, t.scope = s.scope → (Gives (next type) t b ↔ P type)) :
    Gives (typeOf c >>= next) s b ↔ ∃ type, HasType s.scope.lookup c type ∧ P type := by
  constructor
  · rintro ⟨t, h⟩
    obtain ⟨type, u, ha, hb⟩ := bind_eq_ok.mp h
    exact ⟨type, (ih s type).mp ⟨u, ha⟩, (hn type u (typeOf_scope ha)).mp ⟨t, hb⟩⟩
  · rintro ⟨type, ht, hp⟩
    obtain ⟨u, ha⟩ := (ih s type).mpr ht
    obtain ⟨t, hb⟩ := (hn type u (typeOf_scope ha)).mpr hp
    exact ⟨t, bind_eq_ok.mpr ⟨type, u, ha, hb⟩⟩

theorem gives_operands {span : Option Span} {operand : Ty} {nodes : List Node}
    (ih : ∀ c ∈ nodes, Agrees c) :
    Gives (operands span operand nodes) s () ↔
      ∀ c ∈ nodes, HasType s.scope.lookup c operand := by
  induction nodes generalizing s with
  | nil =>
    rw [operands]
    exact ⟨fun _ c hc => by simp at hc, fun _ => gives_pure.mpr rfl⟩
  | cons c rest hr =>
    rw [operands, Agrees.bind (ih c List.mem_cons_self) (P := fun type =>
      type = operand ∧ ∀ d ∈ rest, HasType s.scope.lookup d operand)]
    · rw [List.forall_mem_cons]
      constructor
      · rintro ⟨type, h, rfl, hs⟩
        exact ⟨h, hs⟩
      · rintro ⟨h, hs⟩
        exact ⟨operand, h, rfl, hs⟩
    · intro type t ht
      have hrest : Gives (operands span operand rest) t () ↔ _ :=
        hr fun d hd => ih d (List.mem_cons_of_mem c hd)
      rw [ht] at hrest
      split
      · rw [hrest]
        simp [*]
      · exact ⟨fun h => absurd h not_gives_throw, fun h => by simp_all⟩

/-- After a first comparison, the left operand is a truth value. -/
theorem gives_compareWith_bool {family : Comparison} {span : Option Span} {nodes : List Node}
    (ih : ∀ c ∈ nodes, Agrees c) :
    Gives (compareWith family span .bool nodes) s () ↔ Chained s.scope.lookup family nodes := by
  induction nodes generalizing s with
  | nil =>
    rw [compareWith]
    cases family with
    | ordering => exact ⟨fun _ => rfl, fun _ => gives_pure.mpr rfl⟩
    | equality => exact ⟨fun _ c hc => by simp at hc, fun _ => gives_pure.mpr rfl⟩
  | cons c rest hr =>
    rw [compareWith, Agrees.bind (ih c List.mem_cons_self) (P := fun right =>
      family.accepts .bool right = true ∧ Chained s.scope.lookup family rest)]
    · cases family with
      | ordering => simp [Comparison.accepts, Chained]
      | equality =>
        simp only [Comparison.accepts, Chained, decide_eq_true_eq, List.forall_mem_cons]
        constructor
        · rintro ⟨type, h, rfl, hs⟩
          exact ⟨h, hs⟩
        · rintro ⟨h, hs⟩
          exact ⟨.bool, h, rfl, hs⟩
    · intro type t ht
      have hrest : Gives (compareWith family span .bool rest) t () ↔ _ :=
        hr fun d hd => ih d (List.mem_cons_of_mem c hd)
      rw [ht] at hrest
      split
      · rw [hrest]
        simp [*]
      · exact ⟨fun h => absurd h not_gives_throw, fun h => by simp_all⟩

theorem comparison_eq_ok {kind : Kind} {operator : Option Text} {span : Option Span}
    {family : Comparison} {t : State} :
    comparison kind operator span s = .ok family t ↔
      (∃ op ∈ family.operators, operator = some op) ∧ s = t := by
  have hfind (op : Text) :
      Comparison.ofOperator? op = some family ↔ op ∈ family.operators := by
    constructor
    · intro h
      have hf := List.find?_some h
      exact of_decide_eq_true hf
    · intro h
      unfold Comparison.ofOperator?
      cases family with
      | ordering => simp [h]
      | equality =>
        have hn : op ∉ Comparison.ordering.operators := by
          simp only [Comparison.operators, List.mem_cons, List.not_mem_nil, or_false] at h ⊢
          rcases h with rfl | rfl <;> decide
        simp [h, hn]
  unfold comparison
  cases operator with
  | none =>
    constructor
    · intro h
      cases h
    · simp
  | some op =>
    simp only [Option.some.injEq, exists_eq_right', ← hfind]
    cases hf : Comparison.ofOperator? op with
    | none =>
      constructor
      · intro h
        cases h
      · simp
    | some found =>
      constructor
      · intro h
        cases h
        exact ⟨rfl, rfl⟩
      · rintro ⟨hfound, rfl⟩
        cases hfound
        rfl

theorem gives_applyOperators {n : Node} {own : Text} {operand type result : Ty} :
    Gives (applyOperators n.kind own operand n.ops n.span type) s result ↔
      result = type ∧ (n.ops.getD [] = [] ∨
        (∀ op ∈ n.ops.getD [], op = own) ∧ type = operand) := by
  unfold applyOperators
  by_cases he : n.ops.getD [] = []
  · simp [he, gives_pure]
  · have hne : (n.ops.getD []).isEmpty = false := by simpa using he
    simp only [hne, Bool.false_eq_true, if_false, he, false_or]
    by_cases ho : ∀ op ∈ n.ops.getD [], op = own
    · have hany : (n.ops.getD []).any (· ≠ own) = false := by simpa using ho
      rw [hany, if_neg Bool.false_ne_true]
      by_cases ht : type = operand
      · rw [if_neg (not_not_intro ht), gives_count_then]
        exact ⟨fun h => ⟨h, ho, ht⟩, fun h => h.1⟩
      · rw [if_pos ht]
        exact ⟨fun h => absurd h not_gives_throw, fun h => absurd h.2.2 ht⟩
    · have hany : (n.ops.getD []).any (· ≠ own) = true := by simpa using ho
      rw [hany, if_pos rfl]
      exact ⟨fun h => absurd h not_gives_throw, fun h => absurd h.2.1 ho⟩

theorem not_gives_malformed {defect : Defect} {span : Option Span} {a : α} :
    ¬ Gives (malformed defect span : Check α) s a := not_gives_throw

section Kinds

variable {kind : Kind} {children rest : List Node} {c d : Node} {value : Option Text}
  {ops : Option (List Text)} {span : Option Span}

/-- A check that is refused agrees with the absence of a derivation. -/
private theorem refused_agrees {n : Node} {defect : Defect}
    (he : typeOf n = traced n.kind (malformed defect n.span))
    (hn : ∀ env type, ¬ HasType env n type) : Agrees n := by
  intro s type
  rw [he, gives_traced]
  exact ⟨fun h => absurd h not_gives_malformed, fun h => absurd h (hn _ type)⟩

private theorem value_agrees (ih : Agrees c) :
    Agrees ⟨.genValue, c :: rest, value, ops, span⟩ := by
  intro s type
  rw [typeOf, gives_traced]
  by_cases hc : c.kind = .identifier
  · rw [if_pos hc, hasType_read rfl rfl hc, read, gives_lift_bind]
    simp only [Node.readName_eq_ok, Node.name?, hc, if_true, gives_require]
  · rw [if_neg hc, hasType_value rfl rfl hc]
    exact ih s type

private theorem compared_agrees (ih : ∀ e ∈ children, Agrees e) :
    Agrees ⟨.compExpr, children, value, ops, span⟩ := by
  match children with
  | [] =>
    intro s type
    rw [typeOf_compared_nil, gives_traced]
    constructor
    · rintro ⟨t, h⟩
      obtain ⟨family, u, -, hu⟩ := bind_eq_ok.mp h
      exact absurd ⟨t, hu⟩ not_gives_malformed
    · intro h
      exact absurd h (not_hasType_nil rfl (by simp))
  | [c] =>
    intro s type
    rw [typeOf, gives_traced, hasType_single (.inl rfl) rfl]
    exact ih c List.mem_cons_self s type
  | c :: d :: rest =>
    intro s type
    have hd : ∀ e ∈ rest, Agrees e := fun e he => ih e (by simp [he])
    have hcompare (family : Comparison) (left : Ty) (u : State) :
        Gives (compareWith family span left (d :: rest)) u () ↔
          ∃ right, HasType u.scope.lookup d right ∧ family.accepts left right = true ∧
            Chained u.scope.lookup family rest := by
      rw [compareWith]
      apply Agrees.bind (ih d (by simp))
      intro right t ht
      split
      · rw [gives_compareWith_bool hd, ht]
        simp [*]
      · exact ⟨fun h => absurd h not_gives_throw, fun h => by simp_all⟩
    have hall (family : Comparison) :
        Gives (do
            let left ← typeOf c
            compareWith family span left (d :: rest)
            count .op
            return Ty.bool) s type ↔
          ∃ left, HasType s.scope.lookup c left ∧ (∃ right, HasType s.scope.lookup d right ∧
            family.accepts left right = true ∧ Chained s.scope.lookup family rest) ∧
            type = .bool := by
      apply Agrees.bind (ih c (by simp))
      intro left v hv
      rw [gives_bind_unit fun w _ => gives_count_then, hcompare, hv]
    rw [typeOf_compared_several, gives_traced, hasType_compared rfl rfl]
    constructor
    · rintro ⟨t, h⟩
      obtain ⟨family, u, hf, hu⟩ := bind_eq_ok.mp h
      obtain ⟨ho, rfl⟩ := comparison_eq_ok.mp hf
      exact ⟨family, ho, (hall family).mp ⟨t, hu⟩⟩
    · rintro ⟨family, ho, h⟩
      obtain ⟨t, ht⟩ := (hall family).mpr h
      exact ⟨t, bind_eq_ok.mpr ⟨family, s, comparison_eq_ok.mpr ⟨ho, rfl⟩, ht⟩⟩

private theorem joined_agrees (hk : kind = .addExpr ∨ kind = .mulExpr ∨ kind = .boolExpr)
    (ih : ∀ e ∈ children, Agrees e) : Agrees ⟨kind, children, value, ops, span⟩ := by
  match children with
  | [] =>
    apply refused_agrees (typeOf_joined_nil hk)
    intro env type
    apply not_hasType_nil rfl
    rcases hk with h | h | h <;> simp [h]
  | [c] =>
    intro s type
    rw [typeOf_joined_single hk, gives_traced, hasType_single (.inr hk) rfl]
    exact ih c List.mem_cons_self s type
  | c :: d :: rest =>
    intro s type
    rw [typeOf_joined_several hk, gives_traced, hasType_joined hk (by simp),
      gives_bind_unit fun t _ => gives_count_then, gives_operands ih, and_comm]
    constructor
    · rintro ⟨rfl, h⟩
      exact ⟨rfl, h⟩
    · rintro ⟨rfl, h⟩
      exact ⟨rfl, h⟩

private theorem prefixed_agrees {own : Text} {operand : Ty} (hk : Prefixed kind own operand)
    (he : typeOf ⟨kind, c :: rest, value, ops, span⟩ =
      traced kind (typeOf c >>= applyOperators kind own operand ops span)) (ih : Agrees c) :
    Agrees ⟨kind, c :: rest, value, ops, span⟩ := by
  intro s type
  rw [he, gives_traced, Agrees.bind ih fun operandType t _ =>
    gives_applyOperators (n := ⟨kind, c :: rest, value, ops, span⟩)]
  by_cases hn : ops.getD [] = []
  · have hkind : kind = .notExpr ∨ kind = .unaExpr := Or.imp And.left And.left hk
    rw [hasType_bare hkind rfl hn]
    constructor
    · rintro ⟨inner, h, rfl, -⟩
      exact h
    · intro h
      exact ⟨type, h, rfl, .inl hn⟩
  · rw [hasType_prefixed hk rfl hn]
    constructor
    · rintro ⟨inner, h, rfl, ho | ⟨ho, rfl⟩⟩
      · exact absurd ho hn
      · exact ⟨rfl, ho, h⟩
    · rintro ⟨rfl, ho, h⟩
      exact ⟨type, h, rfl, .inr ⟨ho, rfl⟩⟩

end Kinds

theorem typeOf_agrees (n : Node) : Agrees n := by
  induction n using Node.childInduction with
  | step n ih =>
    obtain ⟨kind, children, value, ops, span⟩ := n
    simp only at ih
    cases kind with
    | expr =>
      cases children with
      | nil => exact refused_agrees (by rw [typeOf]) fun _ _ => not_hasType_nil rfl (by simp)
      | cons c rest =>
        intro s type
        rw [typeOf, gives_traced, hasType_expr rfl rfl]
        exact ih c List.mem_cons_self s type
    | genValue =>
      cases children with
      | nil => exact refused_agrees (by rw [typeOf]) fun _ _ => not_hasType_nil rfl (by simp)
      | cons c rest => exact value_agrees (ih c List.mem_cons_self)
    | compExpr => exact compared_agrees ih
    | addExpr => exact joined_agrees (.inl rfl) ih
    | mulExpr => exact joined_agrees (.inr (.inl rfl)) ih
    | boolExpr => exact joined_agrees (.inr (.inr rfl)) ih
    | notExpr =>
      cases children with
      | nil => exact refused_agrees (by rw [typeOf]) fun _ _ => not_hasType_nil rfl (by simp)
      | cons c rest =>
        exact prefixed_agrees (.inl ⟨rfl, rfl, rfl⟩) (by rw [typeOf]) (ih c List.mem_cons_self)
    | unaExpr =>
      cases children with
      | nil => exact refused_agrees (by rw [typeOf]) fun _ _ => not_hasType_nil rfl (by simp)
      | cons c rest =>
        exact prefixed_agrees (.inr ⟨rfl, rfl, rfl⟩) (by rw [typeOf]) (ih c List.mem_cons_self)
    | boolValue =>
      intro s type
      rw [typeOf, gives_traced, gives_pure]
      constructor
      · rintro rfl
        exact .boolValue rfl
      · intro h
        cases h <;> simp_all
    | intValue =>
      intro s type
      rw [typeOf, gives_traced, gives_pure]
      constructor
      · rintro rfl
        exact .intValue rfl
      · intro h
        cases h <;> simp_all
    | _ =>
      apply refused_agrees (typeOf_of_not_expression rfl)
      intro env type h
      exact absurd h.isExpression (by simp [Kind.isExpression])

end Check

end TreeCheck
