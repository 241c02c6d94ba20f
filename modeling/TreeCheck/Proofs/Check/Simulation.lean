import TreeCheck.Check.Statement

namespace TreeCheck.Check

/-- How two runs are linked: by their states, and by their findings when they stop. -/
structure Link where
  state : State → State → Prop
  finding : Finding → Finding → Prop

variable {α β γ δ : Type} {link : Link}

/-- Two ends of a run that are alike. -/
inductive Link.Ends (link : Link) (value : α → β → Prop) :
    EStateM.Result Finding State α → EStateM.Result Finding State β → Prop
  | ok {a : α} {b : β} {s t : State} (hv : value a b) (hs : link.state s t) :
      Ends link value (.ok a s) (.ok b t)
  | error {f g : Finding} {s t : State} (hf : link.finding f g) (hs : link.state s t) :
      Ends link value (.error f s) (.error g t)

/-- Two lookups in a tree that come out alike. -/
inductive Link.Found (link : Link) (value : α → β → Prop) :
    Except Finding α → Except Finding β → Prop
  | ok {a : α} {b : β} (hv : value a b) : Found link value (.ok a) (.ok b)
  | error {f g : Finding} (hf : link.finding f g) : Found link value (.error f) (.error g)

/-- From linked states the two checks end alike. -/
def Simulates (link : Link) (value : α → β → Prop) (check : Check α) (other : Check β) : Prop :=
  ∀ s t, link.state s t → link.Ends value (check s) (other t)

namespace Simulates

variable {value : α → β → Prop} {next : γ → δ → Prop}

theorem pure {a : α} {b : β} (h : value a b) :
    Simulates link value (Pure.pure a) (Pure.pure b) :=
  fun _ _ hs => .ok h hs

theorem throw {f g : Finding} (h : link.finding f g) :
    Simulates link value (throw f) (throw g) :=
  fun _ _ hs => .error h hs

theorem bind {check : Check α} {other : Check β} {rest : α → Check γ} {more : β → Check δ}
    (hc : Simulates link value check other)
    (hn : ∀ a b, value a b → Simulates link next (rest a) (more b)) :
    Simulates link next (check >>= rest) (other >>= more) := by
  intro s t hs
  have hends := hc s t hs
  change link.Ends next (EStateM.bind check rest s) (EStateM.bind other more t)
  unfold EStateM.bind
  generalize check s = first at hends
  generalize other t = second at hends
  cases hends with
  | ok hv hs => exact hn _ _ hv _ _ hs
  | error hf hs => exact .error hf hs

/-- Both checks give the same value. -/
theorem bind_eq {check other : Check α} {rest : α → Check γ} {more : α → Check δ}
    (hc : Simulates link Eq check other) (hn : ∀ a, Simulates link next (rest a) (more a)) :
    Simulates link next (check >>= rest) (other >>= more) :=
  hc.bind fun a _ h => h ▸ hn a

/-- What one lookup finds is an image of what the other one finds, and what follows may depend on
what is found. -/
theorem lift_bind_ok {image : α → β} {result : Except Finding α} {found : Except Finding β}
    {rest : α → Check γ} {more : β → Check δ}
    (h : link.Found (fun a b => b = image a) result found)
    (hn : ∀ a, result = .ok a → Simulates link next (rest a) (more (image a))) :
    Simulates link next (lift result >>= rest) (lift found >>= more) := by
  cases h with
  | ok hv =>
    subst hv
    exact hn _ rfl
  | error hf => exact throw hf

theorem lift_bind {image : α → β} {result : Except Finding α} {found : Except Finding β}
    {rest : α → Check γ} {more : β → Check δ}
    (h : link.Found (fun a b => b = image a) result found)
    (hn : ∀ a, Simulates link next (rest a) (more (image a))) :
    Simulates link next (lift result >>= rest) (lift found >>= more) :=
  lift_bind_ok h fun a _ => hn a

/-- Both runs take the same branch. -/
theorem ite {p : Prop} [Decidable p] {check check' : Check α} {other other' : Check β}
    (h : p → Simulates link value check other) (h' : ¬ p → Simulates link value check' other') :
    Simulates link value (if p then check else check') (if p then other else other') := by
  split
  · next hp => exact h hp
  · next hp => exact h' hp

theorem guard {p : Prop} [Decidable p] {f g : Finding} (h : link.finding f g) :
    Simulates link Eq (if p then MonadExcept.throw f else Pure.pure () : Check Unit)
      (if p then MonadExcept.throw g else Pure.pure ()) :=
  ite (fun _ => throw h) fun _ => pure rfl

/-- Operators of a comparison are read alike if their defects are linked. -/
theorem comparison {kind : Kind} {operator : Option Text} {span other : Option Span}
    (h : ∀ defect, link.finding (.malformed defect span) (.malformed defect other)) :
    Simulates link Eq (Check.comparison kind operator span)
      (Check.comparison kind operator other) := by
  unfold Check.comparison
  cases operator with
  | none => exact throw (h _)
  | some operator =>
    cases hfamily : Comparison.ofOperator? operator with
    | none =>
      simp only [hfamily]
      exact throw (h _)
    | some family =>
      simp only [hfamily]
      exact pure rfl

theorem applyOperators {kind : Kind} {own : Text} {operand type : Ty}
    {ops : Option (List Text)} {span other : Option Span}
    (hd : ∀ defect, link.finding (.malformed defect span) (.malformed defect other))
    (ht : link.finding ⟨.expressionType, span⟩ ⟨.expressionType, other⟩)
    (hc : Simulates link Eq (count .op) (count .op)) :
    Simulates link Eq (Check.applyOperators kind own operand ops span type)
      (Check.applyOperators kind own operand ops other type) := by
  unfold Check.applyOperators
  refine ite (fun _ => pure rfl) fun _ => ite (fun _ => throw (hd _)) fun _ => ?_
  exact ite (fun _ => throw ht) fun _ => hc.bind_eq fun _ => pure rfl

section Lists

variable {image : Node → Node} {nodes : List Node} {span other : Option Span}

/-- Operands go side by side with their images. -/
theorem operands {operand : Ty}
    (ht : link.finding ⟨.expressionType, span⟩ ⟨.expressionType, other⟩)
    (ih : ∀ c ∈ nodes, Simulates link Eq (typeOf c) (typeOf (image c))) :
    Simulates link Eq (Check.operands span operand nodes)
      (Check.operands other operand (nodes.map image)) := by
  induction nodes with
  | nil =>
    rw [List.map_nil, Check.operands, Check.operands]
    exact pure rfl
  | cons c rest hr =>
    have hrest := hr fun d hd => ih d (List.mem_cons_of_mem c hd)
    rw [List.map_cons, Check.operands, Check.operands]
    refine (ih c List.mem_cons_self).bind_eq fun type => ?_
    exact ite (fun _ => hrest) fun _ => throw ht

theorem compareWith {family : Comparison} {left : Ty}
    (ht : link.finding ⟨.expressionType, span⟩ ⟨.expressionType, other⟩)
    (ih : ∀ c ∈ nodes, Simulates link Eq (typeOf c) (typeOf (image c))) :
    Simulates link Eq (Check.compareWith family span left nodes)
      (Check.compareWith family other left (nodes.map image)) := by
  induction nodes generalizing left with
  | nil =>
    rw [List.map_nil, Check.compareWith, Check.compareWith]
    exact pure rfl
  | cons c rest hr =>
    have hrest : Simulates link Eq (Check.compareWith family span .bool rest)
        (Check.compareWith family other .bool (rest.map image)) :=
      hr fun d hd => ih d (List.mem_cons_of_mem c hd)
    rw [List.map_cons, Check.compareWith, Check.compareWith]
    refine (ih c List.mem_cons_self).bind_eq fun right => ?_
    exact ite (fun _ => hrest) fun _ => throw ht

theorem visitAll {context : Option Ty}
    (ih : ∀ c ∈ nodes, Simulates link Eq (visit context c) (visit context (image c))) :
    Simulates link Eq (Check.visitAll context nodes)
      (Check.visitAll context (nodes.map image)) := by
  induction nodes with
  | nil =>
    rw [List.map_nil, Check.visitAll]
    exact pure rfl
  | cons c rest hr =>
    rw [List.map_cons, Check.visitAll, Check.visitAll]
    exact (ih c List.mem_cons_self).bind_eq fun _ =>
      hr fun d hd => ih d (List.mem_cons_of_mem c hd)

end Lists

end Simulates

/-- What two expressions side by side need of the link for what they do apart from their parts:
findings at their spans, the count of an operator, and the note of a type. -/
structure Link.Layered (link : Link) (span other : Option Span) : Prop where
  defect : ∀ defect, link.finding (.malformed defect span) (.malformed defect other)
  mismatch : link.finding ⟨.expressionType, span⟩ ⟨.expressionType, other⟩
  count : Simulates link Eq (count .op) (count .op)
  note : ∀ typed : Typed, Simulates link Eq
    (modify fun s => { s with trace := s.trace ++ [typed] } : Check Unit)
    (modify fun s => { s with trace := s.trace ++ [typed] })

namespace Link.Layered

variable {kind : Kind} {image : Node → Node} {children : List Node} {value value' : Option Text}
  {ops ops' : Option (List Text)} {span other : Option Span}

theorem malformed (h : link.Layered span other) (defect : Defect) :
    Simulates link Eq (malformed defect span : Check α) (malformed defect other) :=
  .throw (h.defect defect)

theorem traced (h : link.Layered span other) {check check' : Check Ty} (kind : Kind)
    (hc : Simulates link Eq check check') :
    Simulates link Eq (traced kind check) (traced kind check') :=
  hc.bind_eq fun type => (h.note ⟨kind, type⟩).bind_eq fun _ => .pure rfl

theorem count_then (h : link.Layered span other) (type : Ty) :
    Simulates link Eq (do Check.count .op; return type) (do Check.count .op; return type) :=
  h.count.bind_eq fun _ => .pure rfl

/-- Layers that join operands of one type. -/
theorem joined (h : link.Layered span other)
    (hk : kind = .addExpr ∨ kind = .mulExpr ∨ kind = .boolExpr)
    (ih : ∀ c ∈ children, Simulates link Eq (typeOf c) (typeOf (image c))) :
    Simulates link Eq (typeOf ⟨kind, children, value, ops, span⟩)
      (typeOf ⟨kind, children.map image, value', ops', other⟩) := by
  match children with
  | [] =>
    rw [List.map_nil, typeOf_joined_nil hk, typeOf_joined_nil hk]
    exact h.traced kind (h.malformed _)
  | [c] =>
    rw [List.map_singleton, typeOf_joined_single hk, typeOf_joined_single hk]
    exact h.traced kind (ih c List.mem_cons_self)
  | c :: d :: rest =>
    rw [List.map_cons, List.map_cons, typeOf_joined_several hk, typeOf_joined_several hk]
    have hoperands : Simulates link Eq (operands span (operandType kind) (c :: d :: rest))
        (operands other (operandType kind) ((c :: d :: rest).map image)) :=
      .operands h.mismatch ih
    exact h.traced kind (hoperands.bind_eq fun _ => h.count_then _)

/-- Comparisons: the operator is not read if there is one operand. -/
theorem compared (h : link.Layered span other) (hv : children.length ≠ 1 → value' = value)
    (ih : ∀ c ∈ children, Simulates link Eq (typeOf c) (typeOf (image c))) :
    Simulates link Eq (typeOf ⟨.compExpr, children, value, ops, span⟩)
      (typeOf ⟨.compExpr, children.map image, value', ops', other⟩) := by
  have hfamily : Simulates link Eq (comparison .compExpr value span)
      (comparison .compExpr value other) := .comparison h.defect
  match children with
  | [] =>
    rw [hv (by simp), List.map_nil, typeOf_compared_nil, typeOf_compared_nil]
    exact h.traced _ (hfamily.bind_eq fun _ => h.malformed _)
  | [c] =>
    rw [List.map_singleton, typeOf, typeOf]
    exact h.traced _ (ih c List.mem_cons_self)
  | c :: d :: rest =>
    rw [hv (by simp), List.map_cons, List.map_cons, typeOf_compared_several,
      typeOf_compared_several]
    refine h.traced _ (hfamily.bind_eq fun family => ?_)
    refine (ih c List.mem_cons_self).bind_eq fun left => ?_
    have hrest : Simulates link Eq (compareWith family span left (d :: rest))
        (compareWith family other left ((d :: rest).map image)) :=
      .compareWith h.mismatch fun e he => ih e (List.mem_cons_of_mem c he)
    exact hrest.bind_eq fun _ => h.count_then _

/-- Operands under prefix operators. -/
theorem prefixed (h : link.Layered span other) {c d : Node} (own : Text) (operand : Ty)
    (hc : Simulates link Eq (typeOf c) (typeOf d)) :
    Simulates link Eq (Check.traced kind (typeOf c >>= applyOperators kind own operand ops span))
      (Check.traced kind (typeOf d >>= applyOperators kind own operand ops other)) :=
  h.traced kind (hc.bind_eq fun _ => .applyOperators h.defect h.mismatch h.count)

end Link.Layered

end TreeCheck.Check
