import TreeCheck.Proofs.Check.Admission

namespace TreeCheck

namespace Visit

/-- What can be wrong at a position when these names are declared. -/
inductive Objects (scope : Scope) (v : Visit) : Problem → Prop
  | malformed {defect : Defect} (hv : ¬ v.Shaped) : Objects scope v (.malformed defect)
  | undefined {name : Text} (hu : name ∈ v.uses) (hs : scope.contains name = false) :
      Objects scope v (.undefined name)
  | redeclared {name : Text} (hd : v.declares = true) (ht : v.node.target? = some name)
      (hs : scope.contains name = true) : Objects scope v (.redeclared name)
  | assignmentType {name : Text} (hk : v.node.kind = .assignStmt)
      (ht : v.node.target? = some name) (hs : scope.contains name = true) :
      Objects scope v (.assignmentType name)
  | expressionType (hk : v.node.kind.isExpression = true) : Objects scope v .expressionType
  | conditionType (hk : v.node.kind = .ifStmt ∨ v.node.kind = .whileStmt) :
      Objects scope v .conditionType
  | returnType (hk : v.node.kind = .returnStmt) : Objects scope v .returnType
  | returnOutside (hk : v.node.kind = .returnStmt) : Objects scope v .returnOutside

/-- The span is that of the node at the position or of its first child. -/
def Blames (v : Visit) (span : Option Span) : Prop :=
  span = v.node.span ∨ ∃ c, v.node.children[0]? = some c ∧ span = c.span

theorem blames_first_or {v : Visit} {c : Node} (hc : v.node.children[0]? = some c) :
    v.Blames (c.span.or v.node.span) := by
  cases hs : c.span with
  | none => exact .inl rfl
  | some span => exact .inr ⟨c, hc, hs.symm⟩

/-- The finding is right about the position. -/
structure Licenses (v : Visit) (scope : Scope) (f : Finding) : Prop where
  problem : v.Objects scope f.problem
  span : v.Blames f.span

end Visit

/-- A finding about the shape of a tree, blamed on this span. -/
def Finding.IsDefect (f : Finding) (span : Option Span) : Prop :=
  ∃ defect, f = .malformed defect span

theorem Visit.licenses_defect {v : Visit} {f : Finding} {span : Option Span} (scope : Scope)
    (hf : f.IsDefect span) (hv : ¬ v.Shaped) (hs : v.Blames span) : v.Licenses scope f := by
  obtain ⟨defect, rfl⟩ := hf
  exact ⟨.malformed hv, hs⟩

-- What a lookup in the tree says when it fails.

theorem Ty.ofKeyword_eq_error {value : Option Text} {span : Option Span} {f : Finding}
    (h : Ty.ofKeyword value span = .error f) :
    f.IsDefect span ∧ ¬ ∃ type : Ty, value = some type.keyword := by
  constructor
  · unfold Ty.ofKeyword at h
    dsimp only at h
    split at h
    · cases h
    · cases h
      exact ⟨_, rfl⟩
  · rintro ⟨type, hv⟩
    rw [Ty.ofKeyword_eq_ok.mpr hv] at h
    cases h

namespace Node

theorem child_eq_error {n : Node} {i : Nat} {f : Finding} (h : n.child i = .error f) :
    f.IsDefect n.span ∧ n.children[i]? = none := by
  cases hc : n.children[i]? with
  | some c =>
    rw [(child_eq_ok i).mpr hc] at h
    cases h
  | none =>
    have hi : (0 : Int) ≤ i := Int.natCast_nonneg i
    unfold child at h
    rw [if_pos hi, Int.toNat_natCast, hc] at h
    cases h
    exact ⟨⟨_, rfl⟩, rfl⟩

theorem readName_eq_error {n : Node} {f : Finding} (h : n.readName = .error f) :
    f.IsDefect n.span ∧ n.name? = none := by
  unfold readName readValue at h
  unfold name?
  split at h
  · next hk =>
    rw [if_pos hk]
    cases hv : n.value with
    | none =>
      rw [hv] at h
      cases h
      exact ⟨⟨_, rfl⟩, rfl⟩
    | some value =>
      rw [hv] at h
      cases h
  · next hk =>
    rw [if_neg hk]
    cases h
    exact ⟨⟨_, rfl⟩, rfl⟩

theorem target?_eq {n c : Node} (hc : n.children[0]? = some c) : n.target? = c.name? := by
  rw [target?, hc, Option.bind_some]

end Node

namespace Check

variable {α β : Type} {vs ws : List Visit} {v : Visit}

/-- Whatever the check stops at is right about one of the positions, as the scope then stands. -/
def Located (check : Check α) (vs : List Visit) : Prop :=
  ∀ s f t, check s = .error f t → ∃ v ∈ vs, v.Licenses t.scope f

namespace Located

theorem pure (a : α) : Located (Pure.pure a : Check α) vs := by
  intro s f t h
  cases h

theorem throw {f : Finding} (hv : v ∈ vs) (h : ∀ scope, v.Licenses scope f) :
    Located (throw f : Check α) vs := by
  intro s g t ht
  cases ht
  exact ⟨v, hv, h _⟩

theorem mono {check : Check α} (h : Located check vs) (hs : vs ⊆ ws) : Located check ws := by
  intro s f t ht
  obtain ⟨v, hv, hl⟩ := h s f t ht
  exact ⟨v, hs hv, hl⟩

theorem bind {check : Check α} {next : α → Check β} (hc : Located check vs)
    (hn : ∀ a, Located (next a) vs) : Located (check >>= next) vs := by
  intro s f t h
  rcases bind_eq_error.mp h with ha | ⟨a, u, -, hb⟩
  · exact hc s f t ha
  · exact hn a u f t hb

/-- A lookup in the tree that fails finds a defect, and what follows may depend on what is found. -/
theorem lift_bind {result : Except Finding α} {next : α → Check β} (hv : v ∈ vs)
    (he : ∀ f, result = .error f → ∀ scope, v.Licenses scope f)
    (hn : ∀ a, result = .ok a → Located (next a) vs) : Located (lift result >>= next) vs := by
  intro s f t h
  rcases bind_eq_error.mp h with ha | ⟨a, u, ha, hb⟩
  · obtain ⟨hr, -⟩ := lift_eq_error.mp ha
    exact ⟨v, hv, he f hr _⟩
  · obtain ⟨hr, -⟩ := lift_eq_ok.mp ha
    exact hn a hr u f t hb

theorem guard {p : Prop} [Decidable p] {f : Finding} (hv : v ∈ vs)
    (h : ∀ scope, v.Licenses scope f) :
    Located (if p then MonadExcept.throw f else Pure.pure () : Check Unit) vs := by
  split
  · exact throw hv h
  · exact pure ()

theorem count (counter : Counter) : Located (Check.count counter) vs := by
  intro s f t h
  cases h

theorem count_then (counter : Counter) (a : α) :
    Located (do Check.count counter; return a) vs :=
  (count counter).bind fun _ => pure a

theorem traced {check : Check Ty} (kind : Kind) (h : Located check vs) :
    Located (Check.traced kind check) vs := by
  refine h.bind fun type s f t ht => ?_
  cases ht

theorem malformed {defect : Defect} {span : Option Span} (hv : v ∈ vs) (hd : ¬ v.Shaped)
    (hs : v.Blames span) : Located (Check.malformed defect span : Check α) vs :=
  throw hv fun _ => ⟨.malformed hd, hs⟩

end Located

section Expressions

/-- The operands of a layer are positions of its tree. -/
private theorem layer_subset {n c : Node}
    (hk : n.kind = .compExpr ∨ n.kind = .addExpr ∨ n.kind = .mulExpr ∨ n.kind = .boolExpr)
    (hc : c ∈ n.children) : visits .expression c ⊆ visits .expression n := by
  obtain ⟨i, hi⟩ := List.mem_iff_getElem?.mp hc
  apply visits_child_subset hi
  rcases hk with hk | hk | hk | hk <;> rw [hk] <;> rfl

theorem operands_located {span : Option Span} {operand : Ty} {nodes : List Node} (hv : v ∈ vs)
    (h : ∀ scope, v.Licenses scope ⟨.expressionType, span⟩)
    (ih : ∀ c ∈ nodes, Located (typeOf c) vs) : Located (operands span operand nodes) vs := by
  induction nodes with
  | nil =>
    rw [operands]
    exact Located.pure ()
  | cons c rest hr =>
    rw [operands]
    refine (ih c List.mem_cons_self).bind fun type => ?_
    split
    · exact hr fun d hd => ih d (List.mem_cons_of_mem c hd)
    · exact Located.throw hv h

theorem compareWith_located {comparison : Comparison} {span : Option Span} {left : Ty}
    {nodes : List Node} (hv : v ∈ vs) (h : ∀ scope, v.Licenses scope ⟨.expressionType, span⟩)
    (ih : ∀ c ∈ nodes, Located (typeOf c) vs) :
    Located (compareWith comparison span left nodes) vs := by
  induction nodes generalizing left with
  | nil =>
    rw [compareWith]
    exact Located.pure ()
  | cons c rest hr =>
    rw [compareWith]
    refine (ih c List.mem_cons_self).bind fun right => ?_
    split
    · exact hr fun d hd => ih d (List.mem_cons_of_mem c hd)
    · exact Located.throw hv h

/-- An operator is refused only if it is of no family. -/
theorem comparison_located {kind : Kind} {operator : Option Text} {span : Option Span}
    (hv : v ∈ vs) (hs : v.Blames span)
    (hd : (¬ ∃ family : Comparison, ∃ op ∈ family.operators, operator = some op) → ¬ v.Shaped) :
    Located (comparison kind operator span) vs := by
  intro s f t h
  have hnone : ¬ ∃ family : Comparison, ∃ op ∈ family.operators, operator = some op := by
    rintro ⟨family, hfamily⟩
    rw [comparison_eq_ok.mpr ⟨hfamily, rfl⟩] at h
    cases h
  have hdefect : f.IsDefect span := by
    unfold comparison at h
    cases operator with
    | none =>
      cases h
      exact ⟨_, rfl⟩
    | some op =>
      cases hfound : Comparison.ofOperator? op with
      | some family =>
        simp only [hfound] at h
        cases h
      | none =>
        simp only [hfound] at h
        cases h
        exact ⟨_, rfl⟩
  exact ⟨v, hv, Visit.licenses_defect _ hdefect (hd hnone) hs⟩

theorem applyOperators_located {kind : Kind} {own : Text} {operand type : Ty}
    {ops : Option (List Text)} {span : Option Span} (hv : v ∈ vs) (hs : v.Blames span)
    (hk : v.node.kind.isExpression = true)
    (hd : (¬ ∀ op ∈ ops.getD [], op = own) → ¬ v.Shaped) :
    Located (applyOperators kind own operand ops span type) vs := by
  unfold applyOperators
  by_cases hempty : (ops.getD []).isEmpty = true
  · rw [if_pos hempty]
    exact Located.pure type
  rw [if_neg hempty]
  by_cases hany : (ops.getD []).any (· ≠ own) = true
  · rw [if_pos hany]
    exact Located.malformed hv (hd (by simpa using hany)) hs
  rw [if_neg hany]
  split
  · exact Located.throw hv fun _ => ⟨.expressionType hk, hs⟩
  · exact Located.count_then .op type

/-- A name that is read. -/
theorem require_located {name : Text} {span : Option Span} (hv : v ∈ vs) (hu : name ∈ v.uses)
    (hs : v.Blames span) : Located (require name span) vs := by
  intro s f t h
  unfold require Scope.require Scope.lookup at h
  cases hf : s.scope.find? name with
  | some symbol => simp [hf] at h
  | none =>
    simp only [hf, Option.map_none] at h
    cases h
    exact ⟨v, hv, .undefined hu (by simp [Scope.contains, hf]), hs⟩

section Kinds

variable {kind : Kind} {children rest : List Node} {c : Node} {value : Option Text}
  {ops : Option (List Text)} {span : Option Span}

private theorem joined_located (hk : kind = .addExpr ∨ kind = .mulExpr ∨ kind = .boolExpr)
    (ih : ∀ c ∈ children, Located (typeOf c) (visits .expression c)) :
    Located (typeOf ⟨kind, children, value, ops, span⟩)
      (visits .expression ⟨kind, children, value, ops, span⟩) := by
  have hself := mem_visits_self .expression ⟨kind, children, value, ops, span⟩
  have hbelow : ∀ c ∈ children, Located (typeOf c)
      (visits .expression ⟨kind, children, value, ops, span⟩) :=
    fun c hc => (ih c hc).mono (layer_subset (.inr hk) hc)
  match children with
  | [] =>
    rw [typeOf_joined_nil hk]
    refine Located.traced kind (Located.malformed hself ?_ (.inl rfl))
    rcases hk with rfl | rfl | rfl <;> simp [Visit.Shaped]
  | [c] =>
    rw [typeOf_joined_single hk]
    exact Located.traced kind (hbelow c List.mem_cons_self)
  | c :: d :: rest =>
    rw [typeOf_joined_several hk]
    refine Located.traced kind (Located.bind ?_ fun _ => Located.count_then .op _)
    refine operands_located hself (fun _ => ⟨.expressionType ?_, .inl rfl⟩) hbelow
    rcases hk with rfl | rfl | rfl <;> rfl

private theorem compared_located
    (ih : ∀ c ∈ children, Located (typeOf c) (visits .expression c)) :
    Located (typeOf ⟨.compExpr, children, value, ops, span⟩)
      (visits .expression ⟨.compExpr, children, value, ops, span⟩) := by
  have hself := mem_visits_self .expression ⟨.compExpr, children, value, ops, span⟩
  have hbelow : ∀ c ∈ children, Located (typeOf c)
      (visits .expression ⟨.compExpr, children, value, ops, span⟩) :=
    fun c hc => (ih c hc).mono (layer_subset (.inl rfl) hc)
  match children with
  | [] =>
    rw [typeOf_compared_nil]
    refine Located.traced _ (Located.bind ?_ fun _ => ?_)
    · exact comparison_located hself (.inl rfl) fun _ => by simp [Visit.Shaped]
    · exact Located.malformed hself (by simp [Visit.Shaped]) (.inl rfl)
  | [c] =>
    rw [typeOf]
    exact Located.traced _ (hbelow c List.mem_cons_self)
  | c :: d :: rest =>
    rw [typeOf_compared_several]
    refine Located.traced _ (Located.bind ?_ fun family => ?_)
    · refine comparison_located hself (.inl rfl) fun hnone => ?_
      simp only [Visit.Shaped, List.length_cons]
      rintro (hone | ⟨-, hsome⟩)
      · omega
      · exact hnone hsome
    · refine (hbelow c List.mem_cons_self).bind fun left => ?_
      refine Located.bind ?_ fun _ => Located.count_then .op _
      exact compareWith_located hself (fun _ => ⟨.expressionType rfl, .inl rfl⟩)
        fun e he => hbelow e (List.mem_cons_of_mem c he)

/-- The kinds with prefix operators. -/
private theorem prefixed_located {own : Text} {operand : Ty} (hk : Prefixed kind own operand)
    (ih : Located (typeOf c) (visits .expression c)) :
    Located (typeOf c >>= applyOperators kind own operand ops span)
      (visits .expression ⟨kind, c :: rest, value, ops, span⟩) := by
  have hkind : kind = .notExpr ∨ kind = .unaExpr := Or.imp And.left And.left hk
  have hself := mem_visits_self .expression ⟨kind, c :: rest, value, ops, span⟩
  refine Located.bind (ih.mono ?_) fun type => ?_
  · refine visits_child_subset (i := 0) rfl ?_
    rcases hkind with rfl | rfl <;> rfl
  · refine applyOperators_located hself (.inl rfl) ?_ fun hforeign => ?_
    · rcases hkind with rfl | rfl <;> rfl
    · rcases hk with ⟨rfl, rfl, -⟩ | ⟨rfl, rfl, -⟩ <;>
        simpa [Visit.Shaped] using hforeign

/-- A value is a name that is read, or passes on what stands in it. -/
private theorem value_located (ih : Located (typeOf c) (visits .expression c)) :
    Located (if c.kind = .identifier then read c else typeOf c)
      (visits .expression ⟨.genValue, c :: rest, value, ops, span⟩) := by
  have hself := mem_visits_self .expression ⟨.genValue, c :: rest, value, ops, span⟩
  have hblames : Visit.Blames ⟨.expression, ⟨.genValue, c :: rest, value, ops, span⟩⟩ c.span :=
    .inr ⟨c, rfl, rfl⟩
  by_cases hc : c.kind = .identifier
  · rw [if_pos hc]
    refine Located.lift_bind hself (fun f hf scope => ?_) fun name hm => ?_
    · obtain ⟨hdefect, hnone⟩ := Node.readName_eq_error hf
      refine Visit.licenses_defect scope hdefect ?_ hblames
      rw [Node.name?, if_pos hc] at hnone
      simp [Visit.Shaped, hc, hnone]
    · have hname := Node.readName_eq_ok.mp hm
      exact require_located hself (by simp [Visit.uses, Node.target?, hname]) hblames
  · rw [if_neg hc]
    exact ih.mono (visits_child_subset (i := 0) rfl (by simp [Place.child, hc]))

end Kinds

theorem typeOf_located (n : Node) : Located (typeOf n) (visits .expression n) := by
  induction n using Node.childInduction with
  | step n ih =>
    obtain ⟨kind, children, value, ops, span⟩ := n
    simp only at ih
    have hself := mem_visits_self .expression ⟨kind, children, value, ops, span⟩
    have hrefused (defect : Defect)
        (hd : ¬ Visit.Shaped ⟨.expression, ⟨kind, children, value, ops, span⟩⟩)
        (h : typeOf ⟨kind, children, value, ops, span⟩ = traced kind (malformed defect span)) :
        Located (typeOf ⟨kind, children, value, ops, span⟩)
          (visits .expression ⟨kind, children, value, ops, span⟩) := by
      rw [h]
      exact Located.traced kind (Located.malformed hself hd (.inl rfl))
    cases kind with
    | expr =>
      cases children with
      | nil => exact hrefused _ (by simp [Visit.Shaped]) (by rw [typeOf])
      | cons c rest =>
        rw [typeOf]
        have hc := ih c List.mem_cons_self
        exact Located.traced _ (hc.mono (visits_child_subset (i := 0) rfl rfl))
    | genValue =>
      cases children with
      | nil => exact hrefused _ (by simp [Visit.Shaped]) (by rw [typeOf])
      | cons c rest =>
        rw [typeOf]
        exact Located.traced _ (value_located (ih c List.mem_cons_self))
    | compExpr => exact compared_located ih
    | addExpr => exact joined_located (.inl rfl) ih
    | mulExpr => exact joined_located (.inr (.inl rfl)) ih
    | boolExpr => exact joined_located (.inr (.inr rfl)) ih
    | notExpr =>
      cases children with
      | nil => exact hrefused _ (by simp [Visit.Shaped]) (by rw [typeOf])
      | cons c rest =>
        rw [typeOf]
        have hc := ih c List.mem_cons_self
        exact Located.traced _ (prefixed_located (.inl ⟨rfl, rfl, rfl⟩) hc)
    | unaExpr =>
      cases children with
      | nil => exact hrefused _ (by simp [Visit.Shaped]) (by rw [typeOf])
      | cons c rest =>
        rw [typeOf]
        have hc := ih c List.mem_cons_self
        exact Located.traced _ (prefixed_located (.inr ⟨rfl, rfl, rfl⟩) hc)
    | boolValue | intValue =>
      rw [typeOf]
      exact Located.traced _ (Located.pure _)
    | _ => exact hrefused _ (by simp [Visit.Shaped]) (typeOf_of_not_expression rfl)

end Expressions

section Statements

variable {context : Option Ty} {n : Node}

/-- The name that a declaration or an assignment is about. -/
private theorem target_licenses {target : Node} {f : Finding} (hv : v.node = n)
    (ht : n.children[0]? = some target) (hf : target.readName = .error f)
    (hs : v.Shaped → n.target?.isSome) (scope : Scope) : v.Licenses scope f := by
  obtain ⟨hdefect, hnone⟩ := Node.readName_eq_error hf
  refine Visit.licenses_defect scope hdefect (fun hshaped => ?_) (.inr ⟨target, hv ▸ ht, rfl⟩)
  have hsome := hs hshaped
  rw [Node.target?_eq ht, hnone] at hsome
  cases hsome

theorem declare_located {symbol : Symbol} (hv : v ∈ vs) (hd : v.declares = true)
    (ht : v.node.target? = some symbol.name) (hs : v.Blames symbol.span) :
    Located (declare symbol) vs := by
  intro s f t h
  unfold declare Scope.declare at h
  by_cases hc : s.scope.contains symbol.name = true
  · simp only [hc, if_true] at h
    cases h
    exact ⟨v, hv, .redeclared hd ht hc, hs⟩
  · simp only [hc] at h
    cases h

theorem declaration_located (hn : n.kind = .declaration) :
    Located (declaration n) [⟨.statement context, n⟩] := by
  have hself : ⟨.statement context, n⟩ ∈ [(⟨.statement context, n⟩ : Visit)] := List.mem_cons_self
  have hshape : Visit.Shaped ⟨.statement context, n⟩ →
      (∃ type : Ty, n.value = some type.keyword) ∧ n.target?.isSome := by
    intro h
    simpa only [Visit.Shaped, hn] using h
  refine Located.lift_bind hself (fun f hf scope => ?_) fun type _ => ?_
  · obtain ⟨hdefect, hnone⟩ := Ty.ofKeyword_eq_error hf
    exact Visit.licenses_defect scope hdefect (fun h => hnone (hshape h).1) (.inl rfl)
  refine Located.lift_bind hself (fun f hf scope => ?_) fun target hg => ?_
  · obtain ⟨hdefect, hnone⟩ := Node.child_eq_error (i := 0) hf
    refine Visit.licenses_defect scope hdefect (fun h => ?_) (.inl rfl)
    simpa [Node.target?, hnone] using (hshape h).2
  have htarget := (Node.child_eq_ok 0).mp hg
  refine Located.lift_bind hself (fun f hf scope => ?_) fun name hm => ?_
  · exact target_licenses rfl htarget hf (fun h => (hshape h).2) scope
  refine Located.bind (declare_located hself ?_ ?_ ?_) fun _ => Located.count .var
  · simp [Visit.declares, hn]
  · rw [Node.target?_eq htarget]
    exact Node.readName_eq_ok.mp hm
  · exact Visit.blames_first_or htarget

theorem condition_located {test : Node} (hn : n.kind = .ifStmt ∨ n.kind = .whileStmt)
    (hc : n.children[0]? = some test) :
    Located (condition test n.span) (visits (.statement context) n) := by
  refine Located.bind ((typeOf_located test).mono (visits_child_subset hc ?_)) fun type => ?_
  · rcases hn with h | h <;> rw [h] <;> rfl
  · exact Located.guard (mem_visits_self _ n) fun _ =>
      ⟨.conditionType hn, Visit.blames_first_or hc⟩

theorem returned_located (hn : n.kind = .returnStmt) :
    Located (returned context n) (visits (.statement context) n) := by
  have hself := mem_visits_self (.statement context) n
  unfold returned
  cases context with
  | none => exact Located.throw hself fun _ => ⟨.returnOutside hn, .inl rfl⟩
  | some expected =>
    refine Located.lift_bind hself (fun f hf scope => ?_) fun c hc => ?_
    · obtain ⟨hdefect, hnone⟩ := Node.child_eq_error (i := 0) hf
      refine Visit.licenses_defect scope hdefect (fun h => ?_) (.inl rfl)
      have hne : n.children ≠ [] := by simpa only [Visit.Shaped, hn] using h
      exact hne (by simpa using hnone)
    have hresult := (Node.child_eq_ok 0).mp hc
    have hpart : visits .expression c ⊆ visits (.statement (some expected)) n :=
      visits_child_subset hresult (by rw [hn]; rfl)
    refine ((typeOf_located c).mono hpart).bind fun type => ?_
    exact Located.guard hself fun _ => ⟨.returnType hn, .inl rfl⟩

/-- An assignment is refused for its name, or, once the name is known to be declared, for its
type. -/
private theorem assigned_located {name : Text} {type : Ty} {span : Option Span} (hv : v ∈ vs)
    (hk : v.node.kind = .assignStmt) (hp : v.place ≠ .expression)
    (ht : v.node.target? = some name) (hs : v.Blames span) :
    Located (do
      let declared ← require name span
      if declared ≠ type then throw ⟨.assignmentType name, v.node.span⟩) vs := by
  have hu : name ∈ v.uses := by
    obtain ⟨place, node⟩ := v
    cases place with
    | expression => exact absurd rfl hp
    | statement context =>
      simp only at hk ht
      simp [Visit.uses, hk, ht]
  intro s f t h
  rcases bind_eq_error.mp h with hr | ⟨declared, u, hr, hg⟩
  · exact require_located hv hu hs s f t hr
  · have hlookup := gives_require.mp ⟨u, hr⟩
    have husame : u = s := by
      unfold require at hr
      split at hr <;> cases hr
      rfl
    have hcontains : s.scope.contains name = true := by
      rw [Scope.contains]
      simpa [Scope.lookup] using congrArg Option.isSome hlookup
    subst husame
    split at hg
    · cases hg
      exact ⟨v, hv, .assignmentType hk ht hcontains, .inl rfl⟩
    · cases hg

theorem assignment_located (hn : n.kind = .assignStmt) :
    Located (assignment n) (visits (.statement context) n) := by
  have hself := mem_visits_self (.statement context) n
  have hshape : Visit.Shaped ⟨.statement context, n⟩ →
      n.target?.isSome ∧ 2 ≤ n.children.length := by
    intro h
    simpa only [Visit.Shaped, hn] using h
  refine Located.lift_bind hself (fun f hf scope => ?_) fun target hg => ?_
  · obtain ⟨hdefect, hnone⟩ := Node.child_eq_error (i := 0) hf
    refine Visit.licenses_defect scope hdefect (fun h => ?_) (.inl rfl)
    simpa [Node.target?, hnone] using (hshape h).1
  have htarget := (Node.child_eq_ok 0).mp hg
  refine Located.lift_bind hself (fun f hf scope => ?_) fun name hm => ?_
  · exact target_licenses rfl htarget hf (fun h => (hshape h).1) scope
  have hname : n.target? = some name := by
    rw [Node.target?_eq htarget]
    exact Node.readName_eq_ok.mp hm
  refine Located.lift_bind hself (fun f hf scope => ?_) fun c hc => ?_
  · obtain ⟨hdefect, hnone⟩ := Node.child_eq_error (i := 1) hf
    refine Visit.licenses_defect scope hdefect (fun h => ?_) (.inl rfl)
    have hlong := (hshape h).2
    have hshort := List.getElem?_eq_none_iff.mp hnone
    omega
  have hpart : visits .expression c ⊆ visits (.statement context) n :=
    visits_child_subset ((Node.child_eq_ok 1).mp hc) (by rw [hn]; rfl)
  refine ((typeOf_located c).mono hpart).bind fun type => ?_
  have hplace : Place.statement context ≠ .expression := by simp
  exact assigned_located hself hn hplace hname (Visit.blames_first_or htarget)

theorem visitAll_located {nodes : List Node} (ih : ∀ c ∈ nodes, Located (visit context c) vs) :
    Located (visitAll context nodes) vs := by
  induction nodes with
  | nil =>
    rw [visitAll]
    exact Located.pure ()
  | cons c rest hr =>
    rw [visitAll]
    exact (ih c List.mem_cons_self).bind fun _ => hr fun d hd => ih d (List.mem_cons_of_mem c hd)

/-- What is right about an expression is right about it as a statement. -/
private theorem licenses_statement {scope : Scope} {f : Finding} (hk : n.kind.isExpression = true)
    (h : Visit.Licenses ⟨.expression, n⟩ scope f) :
    Visit.Licenses ⟨.statement context, n⟩ scope f := by
  have hshaped := shaped_statement_of_expression context hk
  have huses : Visit.uses ⟨.statement context, n⟩ = Visit.uses ⟨.expression, n⟩ := by
    cases hkind : n.kind <;> simp [hkind, Kind.isExpression] at hk <;> simp [Visit.uses, hkind]
  obtain ⟨problem, span⟩ := f
  obtain ⟨hproblem, hspan⟩ := h
  refine ⟨?_, hspan⟩
  cases hproblem with
  | malformed hv => exact .malformed (hshaped ▸ hv)
  | undefined hu hs => exact .undefined (huses ▸ hu) hs
  | redeclared hd => cases hd
  | assignmentType hk' ht hs => exact .assignmentType hk' ht hs
  | expressionType hk' => exact .expressionType hk'
  | conditionType hk' => exact .conditionType hk'
  | returnType hk' => exact .returnType hk'
  | returnOutside hk' => exact .returnOutside hk'

private theorem expression_located (hk : n.kind.isExpression = true) :
    Located (typeOf n) (visits (.statement context) n) := by
  intro s f t h
  obtain ⟨v, hv, hl⟩ := typeOf_located n s f t h
  rw [visits_eq, List.mem_cons] at hv
  rcases hv with rfl | hv
  · exact ⟨_, mem_visits_self _ n, licenses_statement hk hl⟩
  · refine ⟨v, ?_, hl⟩
    rw [visits_statement_of_expression context hk, visits_eq, List.tail_cons]
    exact List.mem_cons_of_mem _ hv

theorem visit_located (context : Option Ty) (n : Node) :
    Located (visit context n) (visits (.statement context) n) := by
  induction n using Node.childInduction generalizing context with
  | step n ih =>
    obtain ⟨kind, children, value, ops, span⟩ := n
    simp only at ih
    have hself := mem_visits_self (.statement context) ⟨kind, children, value, ops, span⟩
    -- The children from an index on stand as statements.
    have hbelow (inner : Option Ty) {c : Node} (hc : c ∈ children)
        (hp : ∀ i, children[i]? = some c → Place.child (.statement context) kind value i c.kind =
          some (.statement inner)) :
        Located (visit inner c)
          (visits (.statement context) ⟨kind, children, value, ops, span⟩) := by
      obtain ⟨i, hi⟩ := List.mem_iff_getElem?.mp hc
      exact (ih c hc inner).mono (visits_child_subset hi (hp i hi))
    cases kind with
    | program | block | stmt | functionBlock =>
      simp only [visit]
      exact visitAll_located fun c hc => hbelow context hc fun _ _ => rfl
    | declaration =>
      rw [visit, visits_of_none fun i kind => rfl]
      exact declaration_located rfl
    | ifStmt | whileStmt =>
      cases children with
      | nil =>
        rw [visit]
        exact Located.malformed hself (by simp [Visit.Shaped]) (.inl rfl)
      | cons test rest =>
        rw [visit]
        refine Located.bind (condition_located (n := ⟨_, test :: rest, value, ops, span⟩)
          (by simp) rfl) fun _ => Located.bind (visitAll_located fun c hc => ?_) fun _ =>
            Located.count _
        obtain ⟨i, hi⟩ := List.mem_iff_getElem?.mp hc
        have hpart : (test :: rest)[i + 1]? = some c := hi
        exact (ih c (List.mem_cons_of_mem test hc) context).mono
          (visits_child_subset hpart rfl)
    | functionStmt =>
      rw [visit]
      refine Located.lift_bind hself (fun f hf scope => ?_) fun type ht => ?_
      · obtain ⟨hdefect, hnone⟩ := Ty.ofKeyword_eq_error hf
        exact Visit.licenses_defect scope hdefect (by simpa [Visit.Shaped] using hnone) (.inl rfl)
      · refine Located.bind (visitAll_located fun c hc => ?_) fun _ => Located.count .func
        have hkeyword := Ty.ofKeyword_eq_ok.mp ht
        refine hbelow (some type) hc fun _ _ => ?_
        simp [Place.child, hkeyword, Ty.ofKeyword?_eq_some.mpr rfl]
    | returnStmt =>
      rw [visit]
      exact returned_located rfl
    | assignStmt =>
      rw [visit]
      exact assignment_located rfl
    | identifier =>
      rw [visit]
      exact Located.pure ()
    | _ =>
      simp only [visit]
      exact (expression_located rfl).bind fun _ => Located.pure ()

end Statements

end Check

end TreeCheck
