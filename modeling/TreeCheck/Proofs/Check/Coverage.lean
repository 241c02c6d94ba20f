import TreeCheck.Proofs.Check.Effect

namespace TreeCheck.Check

variable {α : Type}

section Expressions

theorem operands_covers (span : Option Span) (operand : Ty) (nodes : List Node)
    (ih : ∀ c ∈ nodes, Covers (typeOf c) (visits .expression c)) :
    Covers (operands span operand nodes) (visitsAll .expression nodes) := by
  induction nodes with
  | nil =>
    rw [operands]
    exact Effect.pure ()
  | cons c rest hr =>
    have hc := ih c List.mem_cons_self
    have hrest := hr fun d hd => ih d (List.mem_cons_of_mem c hd)
    rw [operands]
    refine Covers.bind hc fun type => ?_
    split
    · exact hrest
    · exact Effect.throw _

theorem compareWith_covers (comparison : Comparison) (span : Option Span) (left : Ty)
    (nodes : List Node) (ih : ∀ c ∈ nodes, Covers (typeOf c) (visits .expression c)) :
    Covers (compareWith comparison span left nodes) (visitsAll .expression nodes) := by
  induction nodes generalizing left with
  | nil =>
    rw [compareWith]
    exact Effect.pure ()
  | cons c rest hr =>
    have hc := ih c List.mem_cons_self
    have hrest := hr .bool fun d hd => ih d (List.mem_cons_of_mem c hd)
    rw [compareWith]
    refine Covers.bind hc fun right => ?_
    split
    · exact hrest
    · exact Effect.throw _

theorem comparison_effect (kind : Kind) (operator : Option Text) (span : Option Span) :
    Effect (comparison kind operator span) [] fun _ => 0 := by
  unfold comparison
  split
  · exact Effect.throw _
  · split
    · exact Effect.pure _
    · exact Effect.throw _

/-- Prefix operators count once if there are any. -/
theorem applyOperators_effect (kind : Kind) (own : Text) (operand : Ty)
    (ops : Option (List Text)) (span : Option Span) (type : Ty) :
    Effect (applyOperators kind own operand ops span type) []
      fun k => if ops.getD [] ≠ [] ∧ k = .op then 1 else 0 := by
  unfold applyOperators
  by_cases he : ops.getD [] = []
  · simpa [he] using Effect.pure type
  · have hne : (ops.getD []).isEmpty = false := by simpa using he
    simp only [hne, he, ne_eq, not_false_eq_true, true_and, Bool.false_eq_true, if_false]
    split
    · exact Effect.throw _
    · split
      · exact Effect.throw _
      · exact count_then .op type

/-- A layer passes a single operand on, and counts once when it joins several. -/
private theorem layer_covers {n : Node} {check : Check Ty}
    (hk : n.kind = .compExpr ∨ n.kind = .addExpr ∨ n.kind = .mulExpr ∨ n.kind = .boolExpr)
    (h : Effect check (entriesOf (visitsAll .expression n.children)) fun k =>
      costOf (visitsAll .expression n.children) k +
        if 2 ≤ n.children.length ∧ k = .op then 1 else 0) :
    Covers check (visits .expression n) := by
  rw [visits_layer hk]
  apply Covers.own rfl
  have hc : ∀ k, Visit.counts ⟨.expression, n⟩ k =
      decide (2 ≤ n.children.length ∧ k = .op) := by
    intro k
    rcases hk with h | h | h | h <;> cases k <;> simp [Visit.counts, Node.counts, h]
  simpa [hc] using h

section Layers

variable {kind : Kind} {children : List Node} {value : Option Text}
  {ops : Option (List Text)} {span : Option Span}

/-- The layers that want all operands of one type. -/
private theorem joined_covers (hk : kind = .addExpr ∨ kind = .mulExpr ∨ kind = .boolExpr)
    (ih : ∀ c ∈ children, Covers (typeOf c) (visits .expression c)) :
    Covers (typeOf ⟨kind, children, value, ops, span⟩)
      (visits .expression ⟨kind, children, value, ops, span⟩) := by
  apply layer_covers (.inr hk)
  match children with
  | [] =>
    rw [typeOf_joined_nil hk]
    exact Effect.traced kind (Effect.throw _)
  | [c] =>
    rw [typeOf_joined_single hk]
    refine Effect.traced kind ?_
    simpa [visitsAll] using ih c List.mem_cons_self
  | c :: d :: rest =>
    rw [typeOf_joined_several hk]
    have ho := operands_covers span (operandType kind) (c :: d :: rest) ih
    have hb := Effect.bind ho fun _ => count_then .op (operandType kind)
    refine Effect.traced kind ?_
    simpa [once] using hb

private theorem compared_covers (ih : ∀ c ∈ children, Covers (typeOf c) (visits .expression c)) :
    Covers (typeOf ⟨.compExpr, children, value, ops, span⟩)
      (visits .expression ⟨.compExpr, children, value, ops, span⟩) := by
  apply layer_covers (.inl rfl)
  match children with
  | [] =>
    rw [typeOf_compared_nil]
    have hb := Effect.bind (comparison_effect .compExpr value span) fun _ =>
      (Effect.throw (.malformed (.missingChild .compExpr 0) span) :
        Effect (malformed _ span : Check Ty) [] fun _ => 0)
    exact Effect.traced _ hb
  | [c] =>
    rw [typeOf]
    refine Effect.traced _ ?_
    simpa [visitsAll] using ih c List.mem_cons_self
  | c :: d :: rest =>
    rw [typeOf_compared_several]
    have hc := ih c List.mem_cons_self
    have hrest : ∀ e ∈ d :: rest, Covers (typeOf e) (visits .expression e) :=
      fun e he => ih e (List.mem_cons_of_mem c he)
    have ho (family : Comparison) :
        Covers (do let left ← typeOf c; compareWith family span left (d :: rest))
          (visitsAll .expression (c :: d :: rest)) :=
      Covers.bind hc fun left => compareWith_covers family span left (d :: rest) hrest
    have hb (family : Comparison) :=
      Effect.bind (ho family) fun _ => count_then .op Ty.bool
    have hf := Effect.bind (comparison_effect .compExpr value span) hb
    refine Effect.traced _ ?_
    simpa [once] using hf

end Layers

/-- The kinds with prefix operators. -/
private theorem prefixed_covers {kind : Kind} {own : Text} {operand : Ty} {c : Node}
    {rest : List Node} {value : Option Text} {ops : Option (List Text)} {span : Option Span}
    (hk : kind = .notExpr ∨ kind = .unaExpr)
    (ih : Covers (typeOf c) (visits .expression c)) :
    Covers (typeOf c >>= applyOperators kind own operand ops span)
      (visits .expression ⟨kind, c :: rest, value, ops, span⟩) := by
  rw [visits_first (.inr hk) rfl]
  apply Covers.own rfl
  have hb := Effect.bind ih fun type => applyOperators_effect kind own operand ops span type
  have hc : ∀ k, Visit.counts ⟨.expression, ⟨kind, c :: rest, value, ops, span⟩⟩ k =
      decide (ops.getD [] ≠ [] ∧ k = .op) := by
    intro k
    rcases hk with h | h <;> subst h <;> cases k <;> simp [Visit.counts, Node.counts]
  simpa [hc] using hb

theorem typeOf_covers (n : Node) : Covers (typeOf n) (visits .expression n) := by
  induction n using Node.childInduction with
  | step n ih =>
    obtain ⟨kind, children, value, ops, span⟩ := n
    simp only at ih
    -- A node that may not stand here, or lacks what it needs, is refused before anything changes.
    have refused : ∀ {check : Check Ty} {vs : List Visit} (defect : Defect),
        check = traced kind (malformed defect span) → Covers check vs := by
      intro check vs defect h
      rw [h]
      exact Effect.traced kind (Effect.throw _)
    cases kind with
    | expr =>
      cases children with
      | nil => exact refused _ (by rw [typeOf])
      | cons c rest =>
        rw [typeOf, visits_first (.inl rfl) rfl]
        refine Effect.traced _ (Covers.below rfl (fun k => ?_) (ih c List.mem_cons_self))
        cases k <;> rfl
    | genValue =>
      cases children with
      | nil => exact refused _ (by rw [typeOf])
      | cons c rest =>
        rw [typeOf]
        refine Effect.traced _ ?_
        by_cases hc : c.kind = .identifier
        · rw [visits_read rfl rfl hc, if_pos hc]
          refine Covers.below rfl (fun k => by cases k <;> rfl) ?_
          exact Effect.lift_bind fun name _ => Effect.require name c.span
        · rw [visits_value rfl rfl hc, if_neg hc]
          exact Covers.below rfl (fun k => by cases k <;> rfl) (ih c List.mem_cons_self)
    | compExpr => exact compared_covers ih
    | addExpr => exact joined_covers (.inl rfl) ih
    | mulExpr => exact joined_covers (.inr (.inl rfl)) ih
    | boolExpr => exact joined_covers (.inr (.inr rfl)) ih
    | notExpr =>
      cases children with
      | nil => exact refused _ (by rw [typeOf])
      | cons c rest =>
        rw [typeOf]
        exact Effect.traced _ (prefixed_covers (.inl rfl) (ih c List.mem_cons_self))
    | unaExpr =>
      cases children with
      | nil => exact refused _ (by rw [typeOf])
      | cons c rest =>
        rw [typeOf]
        exact Effect.traced _ (prefixed_covers (.inr rfl) (ih c List.mem_cons_self))
    | boolValue =>
      rw [typeOf, visits_of_none fun i kind => rfl]
      exact Effect.traced _ (Covers.below rfl (fun k => by cases k <;> rfl) (Effect.pure _))
    | intValue =>
      rw [typeOf, visits_of_none fun i kind => rfl]
      exact Effect.traced _ (Covers.below rfl (fun k => by cases k <;> rfl) (Effect.pure _))
    | _ =>
      rw [typeOf_of_not_expression rfl]
      exact Effect.traced _ (Effect.throw _)

end Expressions

section Statements

variable {context : Option Ty} {n : Node}

theorem declaration_covers (hn : n.kind = .declaration) :
    Covers (declaration n) [⟨.statement context, n⟩] := by
  have hc : costOf [⟨.statement context, n⟩] = once .var := by
    funext k
    cases k <;> simp [costOf, Visit.counts, Node.counts, hn, once]
  have he : entriesOf [⟨.statement context, n⟩] = [n.symbol?] := by
    simp [entriesOf, Visit.declares, hn]
  unfold Covers declaration
  rw [hc, he]
  refine Effect.lift_bind fun type ht => Effect.lift_bind fun target hg =>
    Effect.lift_bind fun name hm => ?_
  have hs : n.symbol? =
      some { name, type, span := target.span.or n.span } := by
    have hv := Ty.ofKeyword_eq_ok.mp ht
    have hg := (Node.child_eq_ok 0).mp hg
    have hm := Node.readName_eq_ok.mp hm
    simp [Node.symbol?, hv, hg, hm, Ty.ofKeyword?_eq_some.mpr rfl]
  rw [hs]
  have hb := Effect.bind (Effect.declare { name, type, span := target.span.or n.span }) fun _ =>
    Effect.count .var
  simpa using hb

theorem condition_covers (test : Node) (span : Option Span) :
    Covers (condition test span) (visits .expression test) :=
  Covers.bind_idle (typeOf_covers test) fun _ => Effect.guard _ _

theorem returned_covers (hn : n.kind = .returnStmt) :
    Covers (returned context n) (visits (.statement context) n) := by
  unfold returned
  cases context with
  | none => exact Effect.throw _
  | some expected =>
    refine Effect.lift_bind fun c hc => ?_
    obtain ⟨rest, hr⟩ := Node.children_eq_cons ((Node.child_eq_ok 0).mp hc)
    rw [visits_return _ hn hr]
    refine Covers.below (by simp [Visit.declares, hn])
      (fun k => by cases k <;> simp [Visit.counts, Node.counts, hn]) ?_
    exact Covers.bind_idle (typeOf_covers c) fun _ => Effect.guard _ _

theorem assignment_covers (hn : n.kind = .assignStmt) :
    Covers (assignment n) (visits (.statement context) n) := by
  unfold assignment
  refine Effect.lift_bind fun target ht => Effect.lift_bind fun name _ =>
    Effect.lift_bind fun c hc => ?_
  obtain ⟨rest, hr⟩ := Node.children_eq_cons ((Node.child_eq_ok 0).mp ht)
  obtain ⟨more, hm⟩ : ∃ more, rest = c :: more := by
    have hg := (Node.child_eq_ok 1).mp hc
    cases rest with
    | nil => simp [hr] at hg
    | cons d more => exact ⟨more, by simpa [hr] using hg⟩
  rw [visits_assign _ hn (hm ▸ hr)]
  refine Covers.below (by simp [Visit.declares, hn])
      (fun k => by cases k <;> simp [Visit.counts, Node.counts, hn]) ?_
  refine Covers.bind_idle (typeOf_covers c) fun type => ?_
  exact Effect.bind (Effect.require name _) fun _ => Effect.guard _ _

theorem visitAll_covers (nodes : List Node)
    (ih : ∀ c ∈ nodes, Covers (visit context c) (visits (.statement context) c)) :
    Covers (visitAll context nodes) (visitsAll (.statement context) nodes) := by
  induction nodes with
  | nil =>
    rw [visitAll]
    exact Effect.pure ()
  | cons c rest hr =>
    have hc := ih c List.mem_cons_self
    have hrest := hr fun d hd => ih d (List.mem_cons_of_mem c hd)
    rw [visitAll]
    exact Covers.bind hc fun _ => hrest

/-- Branches and loops. -/
private theorem conditional_covers {counter : Counter} {test : Node} {rest : List Node}
    (hn : n.kind = .ifStmt ∨ n.kind = .whileStmt) (hr : n.children = test :: rest)
    (hk : ∀ k, Visit.counts ⟨.statement context, n⟩ k = decide (k = counter))
    (ih : ∀ c ∈ rest, Covers (visit context c) (visits (.statement context) c)) :
    Covers (do condition test n.span; visitAll context rest; count counter)
      (visits (.statement context) n) := by
  have hd : Visit.declares ⟨.statement context, n⟩ = false := by
    rcases hn with h | h <;> simp [Visit.declares, h]
  have ht := Covers.bind (condition_covers test n.span) fun _ => visitAll_covers rest ih
  rw [visits_conditional _ hn hr]
  have hc : Covers ((do condition test n.span; visitAll context rest) >>= fun _ => count counter)
      (⟨.statement context, n⟩ ::
        (visits .expression test ++ visitsAll (.statement context) rest)) :=
    Covers.counted hd hk ht fun _ => Effect.count counter
  simpa using hc

/-- An expression as a statement does what it does inside another one. -/
private theorem expression_covers (hn : n.kind.isExpression = true) :
    Covers (do let _ ← typeOf n; return ()) (visits (.statement context) n) := by
  have hd : Visit.declares ⟨.statement context, n⟩ = false := by
    cases hk : n.kind <;> simp [hk, Kind.isExpression] at hn <;> simp [Visit.declares, hk]
  have ho : ∀ k, Visit.counts ⟨.statement context, n⟩ k = Visit.counts ⟨.expression, n⟩ k := by
    intro k
    cases hk : n.kind <;> simp [hk, Kind.isExpression] at hn <;> cases k <;>
      simp [Visit.counts, Node.counts, hk]
  have he : entriesOf (visits (.statement context) n) = entriesOf (visits .expression n) := by
    rw [visits_statement_of_expression context hn, entriesOf_cons_of_not _ hd, visits_eq,
      List.tail_cons, entriesOf_cons_of_not _ rfl]
  have hc : costOf (visits (.statement context) n) = costOf (visits .expression n) := by
    funext k
    rw [visits_statement_of_expression context hn, visits_eq, List.tail_cons, costOf_cons,
      costOf_cons, ho]
  unfold Covers
  rw [he, hc]
  exact Covers.bind_idle (typeOf_covers n) fun _ => Effect.pure ()

theorem visit_covers (context : Option Ty) (n : Node) :
    Covers (visit context n) (visits (.statement context) n) := by
  induction n using Node.childInduction generalizing context with
  | step n ih =>
    obtain ⟨kind, children, value, ops, span⟩ := n
    simp only at ih
    have hall (context : Option Ty) :
        Covers (visitAll context children) (visitsAll (.statement context) children) :=
      visitAll_covers children fun c hc => ih c hc context
    cases kind with
    | program | block | stmt | functionBlock =>
      simp only [visit]
      rw [visits_group _ (by simp)]
      exact Covers.below rfl (fun k => by cases k <;> rfl) (hall context)
    | declaration =>
      simp only [visit]
      rw [visits_of_none fun i kind => rfl]
      exact declaration_covers rfl
    | ifStmt | whileStmt =>
      cases children with
      | nil =>
        rw [visit]
        exact Effect.throw _
      | cons test rest =>
        rw [visit]
        have hrest := fun c hc => ih c (List.mem_cons_of_mem test hc) context
        refine conditional_covers (n := ⟨_, test :: rest, value, ops, span⟩) ?_ rfl ?_ hrest
        · simp
        · intro k
          cases k <;> rfl
    | functionStmt =>
      rw [visit, visits_function _ rfl]
      refine Effect.lift_bind fun type ht => ?_
      rw [Ty.ofKeyword_eq_ok.mp ht]
      have hk := Ty.ofKeyword?_eq_some.mpr (rfl : type.keyword = type.keyword)
      simp only [Option.bind_some, hk]
      exact Covers.counted rfl (fun k => by cases k <;> rfl) (hall (some type))
        fun _ => Effect.count .func
    | returnStmt =>
      rw [visit]
      exact returned_covers rfl
    | assignStmt =>
      rw [visit]
      exact assignment_covers rfl
    | identifier =>
      rw [visit, visits_of_none fun i kind => rfl]
      exact Covers.below rfl (fun k => by cases k <;> rfl) (Effect.pure ())
    | _ =>
      simp only [visit]
      exact expression_covers rfl

end Statements

end TreeCheck.Check
