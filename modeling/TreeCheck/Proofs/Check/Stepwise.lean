import TreeCheck.Proofs.Check.Visit

namespace TreeCheck.Check

/-- The property is kept by sequencing, and each step of a walk over the positions has it. -/
structure Stepwise (P : ∀ {α : Type}, Check α → Prop) (vs : List Visit) : Prop where
  pure : ∀ {α : Type} (a : α), P (Pure.pure a : Check α)
  throw : ∀ {α : Type} (f : Finding), P (throw f : Check α)
  bind : ∀ {α β : Type} {check : Check α} {next : α → Check β},
    P check → (∀ a, P (next a)) → P (check >>= next)
  count : ∀ counter, counter ≠ .var → P (count counter)
  note : ∀ typed : Typed, P (modify fun s => { s with trace := s.trace ++ [typed] } : Check Unit)
  require : ∀ v ∈ vs, ∀ name ∈ v.uses, ∀ span, P (require name span)
  declare : ∀ symbol ∈ declared vs, P (do declare symbol; Check.count .var)

variable {P : ∀ {α : Type}, Check α → Prop}

namespace Stepwise

variable {α β : Type} {vs ws : List Visit} {n : Node}

theorem mono (h : Stepwise P vs) (hs : ws ⊆ vs) : Stepwise P ws where
  pure := h.pure
  throw := h.throw
  bind := h.bind
  count := h.count
  note := h.note
  require v hv := h.require v (hs hv)
  declare symbol hm := by
    obtain ⟨w, hw, hd⟩ := mem_declared.mp hm
    exact h.declare symbol (mem_declared.mpr ⟨w, hs hw, hd⟩)

/-- Parts of a node are positions of the node. -/
theorem part {place inner : Place} {c : Node} {i : Nat} (h : Stepwise P (visits place n))
    (hc : n.children[i]? = some c) (hp : place.child n.kind n.value i c.kind = some inner) :
    Stepwise P (visits inner c) :=
  h.mono (visits_child_subset hc hp)

/-- An expression that stands as a statement uses the names that it uses elsewhere. -/
theorem expression {context : Option Ty} (h : Stepwise P (visits (.statement context) n))
    (hn : n.kind.isExpression = true) : Stepwise P (visits .expression n) where
  pure := h.pure
  throw := h.throw
  bind := h.bind
  count := h.count
  note := h.note
  require v hv := by
    rw [visits_statement_of_expression context hn] at h
    rw [visits_eq, List.mem_cons] at hv
    rcases hv with rfl | hv
    · have huses : Visit.uses ⟨.expression, n⟩ = Visit.uses ⟨.statement context, n⟩ := by
        cases hk : n.kind <;> simp [hk, Kind.isExpression] at hn <;> simp [Visit.uses, hk]
      rw [huses]
      exact h.require _ List.mem_cons_self
    · rw [visits_eq, List.tail_cons] at h
      exact h.require v (List.mem_cons_of_mem _ hv)
  declare symbol hm := by
    rw [declared_expression] at hm
    cases hm

theorem malformed (h : Stepwise P vs) (defect : Defect) (span : Option Span) :
    P (malformed defect span : Check α) :=
  h.throw _

theorem traced (h : Stepwise P vs) {check : Check Ty} (kind : Kind) (hc : P check) :
    P (traced kind check) :=
  h.bind hc fun type => h.bind (h.note ⟨kind, type⟩) fun _ => h.pure type

theorem count_then (h : Stepwise P vs) {counter : Counter} (hk : counter ≠ .var) (a : α) :
    P (do Check.count counter; return a) :=
  h.bind (h.count counter hk) fun _ => h.pure a

theorem ite {p : Prop} [Decidable p] {check other : Check α} (hc : p → P check)
    (ho : ¬ p → P other) : P (if p then check else other) := by
  split
  · next hp => exact hc hp
  · next hp => exact ho hp

/-- A condition that ends the walk when it is met. -/
theorem guard (h : Stepwise P vs) (p : Prop) [Decidable p] (f : Finding) :
    P (if p then MonadExcept.throw f else Pure.pure () : Check Unit) :=
  ite (fun _ => h.throw f) fun _ => h.pure ()

/-- What follows a lookup in the tree may depend on what was found. -/
theorem lift_bind (h : Stepwise P vs) {result : Except Finding α} {next : α → Check β}
    (hn : ∀ a, result = .ok a → P (next a)) : P (lift result >>= next) := by
  cases result with
  | ok a => exact hn a rfl
  | error f => exact h.throw f

theorem comparison (h : Stepwise P vs) (kind : Kind) (operator : Option Text)
    (span : Option Span) : P (comparison kind operator span) := by
  unfold Check.comparison
  split
  · exact h.malformed _ _
  · split
    · exact h.pure _
    · exact h.malformed _ _

theorem applyOperators (h : Stepwise P vs) (kind : Kind) (own : Text) (operand : Ty)
    (ops : Option (List Text)) (span : Option Span) (type : Ty) :
    P (applyOperators kind own operand ops span type) := by
  unfold Check.applyOperators
  refine ite (fun _ => h.pure type) fun _ => ite (fun _ => h.malformed _ _) fun _ => ?_
  exact ite (fun _ => h.throw _) fun _ => h.count_then (by decide) type

theorem operands (h : Stepwise P vs) (span : Option Span) (operand : Ty) {nodes : List Node}
    (ih : ∀ c ∈ nodes, P (typeOf c)) : P (operands span operand nodes) := by
  induction nodes with
  | nil =>
    rw [Check.operands]
    exact h.pure ()
  | cons c rest hr =>
    have hrest := hr fun d hd => ih d (List.mem_cons_of_mem c hd)
    rw [Check.operands]
    exact h.bind (ih c List.mem_cons_self) fun type => ite (fun _ => hrest) fun _ => h.throw _

theorem compareWith (h : Stepwise P vs) (family : Comparison) (span : Option Span) (left : Ty)
    {nodes : List Node} (ih : ∀ c ∈ nodes, P (typeOf c)) :
    P (compareWith family span left nodes) := by
  induction nodes generalizing left with
  | nil =>
    rw [Check.compareWith]
    exact h.pure ()
  | cons c rest hr =>
    have hrest := hr .bool fun d hd => ih d (List.mem_cons_of_mem c hd)
    rw [Check.compareWith]
    exact h.bind (ih c List.mem_cons_self) fun right => ite (fun _ => hrest) fun _ => h.throw _

theorem visitAll (h : Stepwise P vs) {context : Option Ty} {nodes : List Node}
    (ih : ∀ c ∈ nodes, P (visit context c)) : P (visitAll context nodes) := by
  induction nodes with
  | nil =>
    rw [Check.visitAll]
    exact h.pure ()
  | cons c rest hr =>
    rw [Check.visitAll]
    exact h.bind (ih c List.mem_cons_self) fun _ => hr fun d hd => ih d (List.mem_cons_of_mem c hd)

end Stepwise

section Expressions

variable {kind : Kind} {children : List Node} {value : Option Text}
  {ops : Option (List Text)} {span : Option Span} {vs : List Visit}

private theorem joined_stepwise (h : Stepwise P vs)
    (hk : kind = .addExpr ∨ kind = .mulExpr ∨ kind = .boolExpr)
    (ih : ∀ c ∈ children, P (typeOf c)) : P (typeOf ⟨kind, children, value, ops, span⟩) := by
  match children with
  | [] =>
    rw [typeOf_joined_nil hk]
    exact h.traced kind (h.malformed _ _)
  | [c] =>
    rw [typeOf_joined_single hk]
    exact h.traced kind (ih c List.mem_cons_self)
  | c :: d :: rest =>
    rw [typeOf_joined_several hk]
    exact h.traced kind (h.bind (h.operands span _ ih) fun _ => h.count_then (by decide) _)

private theorem compared_stepwise (h : Stepwise P vs) (ih : ∀ c ∈ children, P (typeOf c)) :
    P (typeOf ⟨.compExpr, children, value, ops, span⟩) := by
  have hfamily := h.comparison .compExpr value span
  match children with
  | [] =>
    rw [typeOf_compared_nil]
    exact h.traced _ (h.bind hfamily fun _ => h.malformed _ _)
  | [c] =>
    rw [typeOf]
    exact h.traced _ (ih c List.mem_cons_self)
  | c :: d :: rest =>
    have hrest : ∀ e ∈ d :: rest, P (typeOf e) := fun e he => ih e (List.mem_cons_of_mem c he)
    rw [typeOf_compared_several]
    refine h.traced _ (h.bind hfamily fun family => ?_)
    refine h.bind (ih c List.mem_cons_self) fun left => ?_
    exact h.bind (h.compareWith family span left hrest) fun _ => h.count_then (by decide) _

/-- The check of an expression has the property if the steps over its positions have it. -/
theorem typeOf_stepwise (n : Node) (h : Stepwise P (visits .expression n)) : P (typeOf n) := by
  induction n using Node.childInduction with
  | step n ih =>
    obtain ⟨kind, children, value, ops, span⟩ := n
    simp only at ih
    -- the parts of a layer, which are all of its children
    have hlayer (hk : kind = .compExpr ∨ kind = .addExpr ∨ kind = .mulExpr ∨ kind = .boolExpr) :
        ∀ c ∈ children, P (typeOf c) := by
      intro c hc
      obtain ⟨i, hi⟩ := List.mem_iff_getElem?.mp hc
      refine ih c hc (h.part hi ?_)
      rcases hk with h | h | h | h <;> rw [h] <;> rfl
    cases kind with
    | expr =>
      cases children with
      | nil =>
        rw [typeOf]
        exact h.traced _ (h.malformed _ _)
      | cons c rest =>
        rw [typeOf]
        exact h.traced _ (ih c List.mem_cons_self (h.part (i := 0) rfl rfl))
    | genValue =>
      cases children with
      | nil =>
        rw [typeOf]
        exact h.traced _ (h.malformed _ _)
      | cons c rest =>
        rw [typeOf]
        refine h.traced _ (Stepwise.ite (fun hc => ?_) fun hc => ?_)
        · refine h.lift_bind fun name hname => ?_
          refine h.require _ (mem_visits_self _ _) name ?_ c.span
          simp [Visit.uses, Node.target?, Node.readName_eq_ok.mp hname]
        · exact ih c List.mem_cons_self (h.part (i := 0) rfl (by simp [Place.child, hc]))
    | compExpr => exact compared_stepwise h (hlayer (by simp))
    | addExpr => exact joined_stepwise h (.inl rfl) (hlayer (by simp))
    | mulExpr => exact joined_stepwise h (.inr (.inl rfl)) (hlayer (by simp))
    | boolExpr => exact joined_stepwise h (.inr (.inr rfl)) (hlayer (by simp))
    | notExpr | unaExpr =>
      cases children with
      | nil =>
        rw [typeOf]
        exact h.traced _ (h.malformed _ _)
      | cons c rest =>
        rw [typeOf]
        refine h.traced _ (h.bind (ih c List.mem_cons_self (h.part (i := 0) rfl rfl)) ?_)
        exact h.applyOperators _ _ _ ops span
    | boolValue | intValue =>
      rw [typeOf]
      exact h.traced _ (h.pure _)
    | _ =>
      rw [typeOf_of_not_expression rfl]
      exact h.traced _ (h.malformed _ _)

end Expressions

section Statements

variable {context : Option Ty} {n : Node}

theorem declaration_stepwise (h : Stepwise P (visits (.statement context) n))
    (hn : n.kind = .declaration) : P (declaration n) := by
  unfold declaration
  refine h.lift_bind fun type ht => h.lift_bind fun target hg => h.lift_bind fun name hm => ?_
  refine h.declare _ ?_
  have hsymbol : n.symbol? = some { name, type, span := target.span.or n.span } :=
    Node.symbol?_eq_some.mpr ⟨type, target, name, Ty.ofKeyword_eq_ok.mp ht,
      (Node.child_eq_ok 0).mp hg, Node.readName_eq_ok.mp hm, rfl⟩
  refine mem_declared.mpr ⟨_, mem_visits_self _ n, ?_⟩
  simp [declared, Visit.declares, hn, hsymbol]

theorem returned_stepwise (h : Stepwise P (visits (.statement context) n))
    (hn : n.kind = .returnStmt) : P (returned context n) := by
  unfold returned
  cases context with
  | none => exact h.throw _
  | some expected =>
    refine h.lift_bind fun c hc => ?_
    have hpart : Stepwise P (visits .expression c) :=
      h.part ((Node.child_eq_ok 0).mp hc) (by rw [hn]; rfl)
    exact h.bind (typeOf_stepwise c hpart) fun _ => h.guard _ _

theorem assignment_stepwise (h : Stepwise P (visits (.statement context) n))
    (hn : n.kind = .assignStmt) : P (assignment n) := by
  unfold assignment
  refine h.lift_bind fun target ht => h.lift_bind fun name hm => h.lift_bind fun c hc => ?_
  have hpart : Stepwise P (visits .expression c) :=
    h.part ((Node.child_eq_ok 1).mp hc) (by rw [hn]; rfl)
  refine h.bind (typeOf_stepwise c hpart) fun type => ?_
  have huses : name ∈ Visit.uses ⟨.statement context, n⟩ := by
    have htarget := (Node.child_eq_ok 0).mp ht
    simp [Visit.uses, hn, Node.target?, htarget, Node.readName_eq_ok.mp hm]
  exact h.bind (h.require _ (mem_visits_self _ n) name huses _) fun declared => h.guard _ _

/-- The check of a statement has the property if the steps over its positions have it. -/
theorem visit_stepwise (context : Option Ty) (n : Node)
    (h : Stepwise P (visits (.statement context) n)) : P (visit context n) := by
  induction n using Node.childInduction generalizing context with
  | step n ih =>
    obtain ⟨kind, children, value, ops, span⟩ := n
    simp only at ih
    cases kind with
    | program | block | stmt | functionBlock =>
      simp only [visit]
      refine h.visitAll fun c hc => ?_
      obtain ⟨i, hi⟩ := List.mem_iff_getElem?.mp hc
      exact ih c hc context (h.part hi rfl)
    | declaration =>
      simp only [visit]
      exact declaration_stepwise h rfl
    | ifStmt | whileStmt =>
      cases children with
      | nil =>
        rw [visit]
        exact h.malformed _ _
      | cons test rest =>
        have htest := typeOf_stepwise test (h.part (i := 0) rfl rfl)
        rw [visit]
        refine h.bind (h.bind htest fun _ => h.guard _ _) fun _ => ?_
        refine h.bind (h.visitAll fun c hc => ?_) fun _ => h.count _ (by decide)
        obtain ⟨i, hi⟩ := List.mem_iff_getElem?.mp hc
        exact ih c (List.mem_cons_of_mem test hc) context (h.part (i := i + 1) hi rfl)
    | functionStmt =>
      rw [visit]
      refine h.lift_bind fun type ht => ?_
      refine h.bind (h.visitAll fun c hc => ?_) fun _ => h.count .func (by decide)
      obtain ⟨i, hi⟩ := List.mem_iff_getElem?.mp hc
      refine ih c hc (some type) (h.part hi ?_)
      rw [Ty.ofKeyword_eq_ok.mp ht, Place.child, Option.bind_some, Ty.ofKeyword?_eq_some.mpr rfl]
    | returnStmt =>
      rw [visit]
      exact returned_stepwise h rfl
    | assignStmt =>
      rw [visit]
      exact assignment_stepwise h rfl
    | identifier =>
      rw [visit]
      exact h.pure ()
    | _ =>
      simp only [visit]
      exact h.bind (typeOf_stepwise _ (h.expression rfl)) fun _ => h.pure ()

end Statements

end TreeCheck.Check
