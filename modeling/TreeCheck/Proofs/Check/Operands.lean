import Mathlib.Algebra.Ring.Int.Defs
import Mathlib.Data.List.Forall2
import TreeCheck.Proofs.Check.Locality
import TreeCheck.Proofs.Check.Typing

namespace TreeCheck

/-- The comparisons of a chain, as the types of their two sides: the outcome of each one is the left
side of the next. -/
def comparisons : List Ty → List (Ty × Ty)
  | left :: right :: rest => (left, right) :: rest.map (Ty.bool, ·)
  | _ => []

theorem comparisons_cons (left right : Ty) (rest : List Ty) :
    comparisons (left :: right :: rest) = (left, right) :: comparisons (.bool :: rest) := by
  cases rest <;> rfl

theorem Node.eta (n : Node) : (⟨n.kind, n.children, n.value, n.ops, n.span⟩ : Node) = n := by
  cases n
  rfl

namespace Check

variable {α : Type}

/-- The state that a check leaves behind, however it ends. -/
def leaves (check : Check α) (s : State) : State :=
  match check s with
  | .ok _ t => t
  | .error _ t => t

/-- How many operators an expression counts by itself. -/
def ownOps (s : State) (e : Node) : Int := (leaves (typeOf e) s).usage.op - s.usage.op

/-- The state after expressions that are checked in turn. -/
def afterAll (s : State) (nodes : List Node) : State :=
  nodes.foldl (fun t e => leaves (typeOf e) t) s

/-- The expressions have these types. -/
abbrev Types (s : State) (nodes : List Node) (types : List Ty) : Prop :=
  List.Forall₂ (fun e type => Gives (typeOf e) s type) nodes types

theorem traced_congr {check other : Check Ty} {s : State} (kind : Kind) (h : check s = other s) :
    traced kind check s = traced kind other s := by
  change EStateM.bind check _ s = EStateM.bind other _ s
  rw [EStateM.bind, EStateM.bind, h]

section Single

variable {s t : State} {e : Node} {type : Ty}

/-- What one operand does where another one has been checked before: an expression leaves the scope
alone, and nothing else in the state matters to its type. -/
theorem typeOf_later (h : Gives (typeOf e) s type) (hs : t.scope = s.scope) :
    typeOf e t = .ok type (leaves (typeOf e) t) ∧ (leaves (typeOf e) t).scope = s.scope ∧
      (leaves (typeOf e) t).usage.op = t.usage.op + ownOps s e := by
  obtain ⟨u, hu⟩ := h
  have hagree : Scope.Agree (visits .expression e) s.scope t.scope := by
    intro v _ name _
    rw [hs]
  have hends := typeOf_agreeing e s t hagree
  rw [hu] at hends
  generalize ht : typeOf e t = second at hends
  cases hends with
  | @ok _ _ _ w hv hmoves =>
    subst hv
    have hleft : leaves (typeOf e) t = w := by rw [leaves, ht]
    have hown : leaves (typeOf e) s = u := by rw [leaves, hu]
    have hop : w.usage.op - t.usage.op = u.usage.op - s.usage.op := hmoves.2.usage .op
    refine ⟨by rw [hleft], ?_, ?_⟩
    · rw [hleft, typeOf_scope ht, hs]
    · rw [hleft, ownOps, hown]
      omega

end Single

/-- Operands that have types count what each of them counts by itself. -/
theorem op_afterAll {s t : State} {nodes : List Node} {types : List Ty} (h : Types s nodes types)
    (hs : t.scope = s.scope) :
    (afterAll t nodes).usage.op = t.usage.op + (nodes.map (ownOps s)).sum := by
  induction h generalizing t with
  | nil => simp [afterAll]
  | @cons e type rest types he _ ih =>
    obtain ⟨-, hscope, hop⟩ := typeOf_later he hs
    have hrest := ih hscope
    change (afterAll (leaves (typeOf e) t) rest).usage.op = _
    rw [hrest, hop, List.map_cons, List.sum_cons]
    omega

/-- Checks operands in turn, each with what stands on its left; after an operand that is accepted, this
is a truth value. -/
def inTurn (span : Option Span) (accepts : Ty → Ty → Bool) (left : Ty) : List Node → Check Unit
  | [] => pure ()
  | e :: rest => do
    let right ← typeOf e
    if accepts left right then inTurn span accepts .bool rest else throw ⟨.expressionType, span⟩

theorem compareWith_eq_inTurn (family : Comparison) (span : Option Span) (left : Ty)
    (nodes : List Node) :
    compareWith family span left nodes = inTurn span family.accepts left nodes := by
  induction nodes generalizing left with
  | nil => rw [compareWith, inTurn]
  | cons e rest ih =>
    rw [compareWith, inTurn]
    simp only [ih]

theorem operands_eq_inTurn (span : Option Span) (operand left : Ty) (nodes : List Node) :
    operands span operand nodes = inTurn span (fun _ right => right = operand) left nodes := by
  induction nodes generalizing left with
  | nil => rw [operands, inTurn]
  | cons e rest ih =>
    rw [operands, inTurn, ← ih .bool]
    simp only [decide_eq_true_eq]

section Loop

variable {s t : State} {span : Option Span} {accepts : Ty → Ty → Bool} {left : Ty}
  {nodes : List Node} {types : List Ty}

theorem inTurn_of_accepts {e : Node} {rest : List Node} {right : Ty} {u : State}
    (he : typeOf e t = .ok right u) (ha : accepts left right = true) :
    inTurn span accepts left (e :: rest) t = inTurn span accepts .bool rest u := by
  rw [inTurn, bind_of_ok he, if_pos ha]

theorem inTurn_of_refuses {e : Node} {rest : List Node} {right : Ty} {u : State}
    (he : typeOf e t = .ok right u) (ha : accepts left right = false) :
    inTurn span accepts left (e :: rest) t = .error ⟨.expressionType, span⟩ u := by
  have hno : ¬ accepts left right = true := by simp [ha]
  rw [inTurn, bind_of_ok he, if_neg hno]
  rfl

/-- All comparisons are accepted, and all operands are checked. -/
theorem inTurn_ok (h : Types s nodes types) (hs : t.scope = s.scope)
    (ha : ∀ pair ∈ comparisons (left :: types), accepts pair.1 pair.2 = true) :
    inTurn span accepts left nodes t = .ok () (afterAll t nodes) := by
  induction h generalizing t left with
  | nil => rfl
  | @cons e right rest types he _ ih =>
    obtain ⟨hrun, hscope, -⟩ := typeOf_later he hs
    rw [comparisons_cons, List.forall_mem_cons] at ha
    rw [inTurn_of_accepts hrun ha.1]
    exact ih hscope ha.2

/-- The operand on the right of the first comparison that is not accepted is the last one that is
checked; it does not matter what comes after it. -/
theorem inTurn_error (h : Types s nodes types) (hs : t.scope = s.scope) (others : List Node)
    {stop : Nat}
    (hstop : stop = (comparisons (left :: types)).findIdx fun pair => !accepts pair.1 pair.2)
    (ha : ∃ pair ∈ comparisons (left :: types), accepts pair.1 pair.2 = false) :
    inTurn span accepts left (nodes.take (stop + 1) ++ others) t =
      .error ⟨.expressionType, span⟩ (afterAll t (nodes.take (stop + 1))) := by
  induction h generalizing t left stop with
  | nil => simp [comparisons] at ha
  | @cons e right rest types he _ ih =>
    obtain ⟨hrun, hscope, -⟩ := typeOf_later he hs
    rw [comparisons_cons, List.findIdx_cons] at hstop
    cases hright : accepts left right with
    | true =>
      obtain ⟨pair, hmem, hpair⟩ := ha
      rw [comparisons_cons, List.mem_cons] at hmem
      have hlater : ∃ pair ∈ comparisons (.bool :: types), accepts pair.1 pair.2 = false := by
        rcases hmem with rfl | hmem
        · rw [hright] at hpair
          cases hpair
        · exact ⟨pair, hmem, hpair⟩
      simp only [hright, Bool.not_true, cond_false] at hstop
      subst hstop
      rw [List.take_succ_cons, List.cons_append, inTurn_of_accepts hrun hright]
      exact ih hscope rfl hlater
    | false =>
      simp only [hright, Bool.not_false, cond_true] at hstop
      subst hstop
      rw [List.take_succ_cons, List.take_zero, List.cons_append, inTurn_of_refuses hrun hright]
      rfl

end Loop

/-- How a node with operands ends: it is accepted under a condition, with a type of its own and one
operator more than its operands count by themselves. Otherwise a first part of the operands has been
checked and has counted what it counts by itself, and the rest was not looked at: the node ends in the
same way with any other operands in its place. -/
structure Folds (n : Node) (s : State) (result : Ty) (accepted : Prop) (ran : Nat) : Prop where
  succeeds : (∃ type t, typeOf n s = .ok type t) ↔ accepted
  success : ∀ type t, typeOf n s = .ok type t →
    type = result ∧ t.usage.op = s.usage.op + (n.children.map (ownOps s)).sum + 1
  failure : ∀ f t, typeOf n s = .error f t →
    f.diagnostic.code.text = "S002" ∧ f.diagnostic.span = n.span ∧ ran ≤ n.children.length ∧
    t.usage.op = s.usage.op + ((n.children.take ran).map (ownOps s)).sum ∧
    ∀ others, 2 ≤ ran + others.length →
      typeOf { n with children := n.children.take ran ++ others } s = .error f t

section Nodes

variable {n : Node} {s : State} {result : Ty} {accepted : Prop} {ran : Nat} {types : List Ty}

theorem Folds.congr {closed : Prop} {count : Nat} (h : Folds n s result accepted ran)
    (hclosed : accepted ↔ closed) (hcount : ran = count) : Folds n s result closed count := by
  rwa [← propext hclosed, ← hcount]

/-- A node with several operands runs a loop over them, and then counts itself. -/
theorem Folds.of_loop (loop : List Node → Check Unit) (hl : 2 ≤ n.children.length)
    (ht : Types s n.children types)
    (heq : ∀ nodes, 2 ≤ nodes.length → typeOf { n with children := nodes } s =
      traced n.kind (do loop nodes; count .op; return result) s)
    (hok : accepted → loop n.children s = .ok () (afterAll s n.children))
    (herror : ¬ accepted → ran ≤ n.children.length ∧ ∀ others,
      loop (n.children.take ran ++ others) s =
        .error ⟨.expressionType, n.span⟩ (afterAll s (n.children.take ran))) :
    Folds n s result accepted ran := by
  have hself : typeOf n s = traced n.kind (do loop n.children; count .op; return result) s := by
    rw [← heq n.children hl, n.eta]
  by_cases ha : accepted
  · let counted : State :=
      { afterAll s n.children with usage := (afterAll s n.children).usage.add .op 1 }
    have hbody : (do loop n.children; count .op; return result : Check Ty) s =
        .ok result counted := by
      rw [bind_of_ok (hok ha)]
      rfl
    obtain ⟨u, hrun, husage⟩ : ∃ u, typeOf n s = .ok result u ∧ u.usage = counted.usage := by
      rw [hself, traced, bind_of_ok hbody]
      exact ⟨_, rfl, rfl⟩
    have hop := op_afterAll ht (rfl : s.scope = s.scope)
    refine ⟨⟨fun _ => ha, fun _ => ⟨result, u, hrun⟩⟩, ?_, ?_⟩
    · intro type t h
      rw [hrun] at h
      cases h
      refine ⟨rfl, ?_⟩
      rw [husage, ← hop]
      rfl
    · intro f t h
      rw [hrun] at h
      cases h
  · obtain ⟨hran, hloop⟩ := herror ha
    have hrun (others : List Node) (ho : 2 ≤ ran + others.length) :
        typeOf { n with children := n.children.take ran ++ others } s =
          .error ⟨.expressionType, n.span⟩ (afterAll s (n.children.take ran)) := by
      rw [heq, traced, bind_of_error (bind_of_error (hloop others))]
      rw [List.length_append, List.length_take]
      omega
    have hthis : typeOf n s =
        .error ⟨.expressionType, n.span⟩ (afterAll s (n.children.take ran)) := by
      have h := hrun (n.children.drop ran) (by rw [List.length_drop]; omega)
      rwa [List.take_append_drop, n.eta] at h
    have hop := op_afterAll (List.forall₂_take ran ht) (rfl : s.scope = s.scope)
    refine ⟨⟨?_, fun h => absurd h ha⟩, ?_, ?_⟩
    · intro hsucceeds
      obtain ⟨type, t, h⟩ := hsucceeds
      rw [hthis] at h
      cases h
    · intro type t h
      rw [hthis] at h
      cases h
    · intro f t h
      rw [hthis] at h
      cases h
      exact ⟨rfl, rfl, hran, hop, hrun⟩

theorem comparisons_snd (left : Ty) (types : List Ty) :
    (comparisons (left :: types)).map Prod.snd = types := by
  cases types with
  | nil => rfl
  | cons right rest => simp [comparisons, Function.comp_def]

/-- The layers that want all operands of one type check them up to the first of another one. -/
theorem joined_folds (hk : n.kind = .addExpr ∨ n.kind = .mulExpr ∨ n.kind = .boolExpr)
    (hl : 2 ≤ n.children.length) (ht : Types s n.children types) :
    Folds n s (operandType n.kind) (∀ type ∈ types, type = operandType n.kind)
      (types.findIdx (· ≠ operandType n.kind) + 1) := by
  -- the operands do not depend on what stands on their left, so any type will do there
  let left := operandType n.kind
  have hsnd := comparisons_snd left types
  have hindex : types.findIdx (· ≠ operandType n.kind) = (comparisons (left :: types)).findIdx
      fun pair => !(decide (pair.2 = operandType n.kind)) := by
    conv_lhs => rw [← hsnd]
    rw [List.findIdx_map]
    simp [Function.comp_def]
  apply Folds.of_loop (operands n.span (operandType n.kind)) hl ht
  · intro nodes hn
    obtain ⟨kind, children, value, ops, span⟩ := n
    match nodes with
    | c :: d :: rest => rw [typeOf_joined_several hk]
  · intro ha
    rw [operands_eq_inTurn _ _ left]
    apply inTurn_ok ht rfl
    intro pair hp
    have hmem : pair.2 ∈ types := by
      rw [← hsnd]
      exact List.mem_map_of_mem hp
    exact decide_eq_true (ha pair.2 hmem)
  · intro ha
    obtain ⟨type, htype, hne⟩ : ∃ type ∈ types, type ≠ operandType n.kind := by
      simpa using ha
    have hlt : types.findIdx (· ≠ operandType n.kind) < types.length :=
      List.findIdx_lt_length_of_exists ⟨type, htype, by simpa using hne⟩
    rw [← ht.length_eq] at hlt
    refine ⟨hlt, fun others => ?_⟩
    rw [operands_eq_inTurn _ _ left]
    apply inTurn_error ht rfl others hindex
    rw [← hsnd] at htype
    obtain ⟨pair, hpair, rfl⟩ := List.mem_map.mp htype
    exact ⟨pair, hpair, by simpa using hne⟩

/-- A chain of comparisons: the first operand stands on the left of all others. -/
def chain (family : Comparison) (span : Option Span) : List Node → Check Unit
  | [] => pure ()
  | first :: rest => do
    let left ← typeOf first
    compareWith family span left rest

/-- A comparison checks its operands up to the right side of the first one that is not accepted. -/
theorem compared_folds {family : Comparison} {op : Text} (hk : n.kind = .compExpr)
    (hop : op ∈ family.operators) (hv : n.value = some op) (hl : 2 ≤ n.children.length)
    (ht : Types s n.children types) :
    Folds n s .bool (∀ pair ∈ comparisons types, family.accepts pair.1 pair.2 = true)
      ((comparisons types).findIdx (fun pair => !family.accepts pair.1 pair.2) + 2) := by
  have hfamily : comparison .compExpr n.value n.span s = .ok family s :=
    comparison_eq_ok.mpr ⟨⟨op, hop, hv⟩, rfl⟩
  obtain ⟨first, rest, hn⟩ : ∃ first rest, n.children = first :: rest := by
    cases hn : n.children with
    | nil => simp [hn] at hl
    | cons first rest => exact ⟨first, rest, rfl⟩
  have htypes := ht
  rw [hn] at htypes
  cases htypes with
  | @cons _ left _ types hfirst hrest =>
    obtain ⟨hrun, hscope, -⟩ := typeOf_later hfirst (rfl : s.scope = s.scope)
    have hchain (nodes : List Node) : chain family n.span (first :: nodes) s =
        inTurn n.span family.accepts left nodes (leaves (typeOf first) s) := by
      rw [chain, bind_of_ok hrun, compareWith_eq_inTurn]
    apply Folds.of_loop (chain family n.span) hl ht
    · intro nodes hnodes
      obtain ⟨kind, children, value, ops, span⟩ := n
      simp only at hk
      subst hk
      match nodes with
      | c :: d :: more =>
        rw [typeOf_compared_several]
        apply traced_congr
        rw [bind_of_ok hfamily, chain, bind_assoc]
    · intro ha
      rw [hn, hchain, inTurn_ok hrest hscope ha]
      rfl
    · intro ha
      have hbad : ∃ pair ∈ comparisons (left :: types), family.accepts pair.1 pair.2 = false := by
        simpa using ha
      obtain ⟨pair, hpair, hno⟩ := hbad
      have hlt := List.findIdx_lt_length_of_exists
        (p := fun pair => !family.accepts pair.1 pair.2) ⟨pair, hpair, by simp [hno]⟩
      have hlength : (comparisons (left :: types)).length = rest.length := by
        rw [← List.length_map Prod.snd, comparisons_snd, hrest.length_eq]
      rw [hn]
      refine ⟨?_, fun others => ?_⟩
      · rw [List.length_cons]
        omega
      · rw [List.take_succ_cons, List.cons_append, hchain,
          inTurn_error hrest hscope others rfl ⟨pair, hpair, hno⟩]
        rfl

end Nodes

section Closed

variable {types : List Ty}

theorem exists_two (h : 2 ≤ types.length) : ∃ left right rest, types = left :: right :: rest := by
  match types with
  | left :: right :: rest => exact ⟨left, right, rest, rfl⟩

/-- Only two numbers can be ordered: what follows would be compared with a truth value. -/
theorem ordering_closed (h : 2 ≤ types.length) :
    (∀ pair ∈ comparisons types, Comparison.ordering.accepts pair.1 pair.2 = true) ↔
      types = [.number, .number] := by
  obtain ⟨left, right, rest, rfl⟩ := exists_two h
  cases rest with
  | nil => simp [comparisons, Comparison.accepts]
  | cons next rest => simp [comparisons, Comparison.accepts]

/-- The first two operands have one type, and all others are truth values as their left sides are. -/
theorem equality_closed (h : 2 ≤ types.length) :
    (∀ pair ∈ comparisons types, Comparison.equality.accepts pair.1 pair.2 = true) ↔
      ∃ type rest, types = type :: type :: rest ∧ ∀ other ∈ rest, other = .bool := by
  obtain ⟨left, right, rest, rfl⟩ := exists_two h
  simp only [comparisons, Comparison.accepts, List.forall_mem_cons, List.forall_mem_map,
    decide_eq_true_eq, List.cons.injEq]
  constructor
  · intro haccepts
    obtain ⟨hsame, hrest⟩ := haccepts
    exact ⟨left, rest, ⟨rfl, hsame.symm, rfl⟩, fun other ho => (hrest other ho).symm⟩
  · intro hclosed
    obtain ⟨type, more, ⟨hleft, hright, hmore⟩, hrest⟩ := hclosed
    subst hmore
    exact ⟨hleft.trans hright.symm, fun other ho => (hrest other ho).symm⟩

end Closed

/-- An operator of neither family is a defect of the node. -/
theorem comparison_refused (kind : Kind) {operator : Option Text} (span : Option Span)
    (h : ∀ family : Comparison, ∀ op ∈ family.operators, operator ≠ some op) :
    ∃ defect, comparison kind operator span = malformed defect span := by
  cases operator with
  | none => exact ⟨.noValue kind, rfl⟩
  | some op =>
    have hnone : Comparison.ofOperator? op = none := by
      rw [Comparison.ofOperator?, List.find?_eq_none]
      intro family _ hop
      exact h family op (of_decide_eq_true hop) rfl
    refine ⟨.unknownComparison op, ?_⟩
    rw [comparison, hnone]

/-- A comparison with such an operator stops before its operands. -/
theorem compared_refused {n : Node} {s : State} (hk : n.kind = .compExpr)
    (hv : ∀ family : Comparison, ∀ op ∈ family.operators, n.value ≠ some op) :
    ∃ f, f.diagnostic.code.text = "A001" ∧ ∀ nodes, 2 ≤ nodes.length →
      typeOf { n with children := nodes } s = .error f s := by
  obtain ⟨defect, hdefect⟩ := comparison_refused .compExpr n.span hv
  refine ⟨.malformed defect n.span, rfl, ?_⟩
  intro nodes hn
  match nodes with
  | c :: d :: rest =>
    rw [hk, typeOf_compared_several, hdefect]
    rfl

/-- Nodes with two or more operands, each of which has a type. An ordering joins two numbers and no
more; an equality joins two operands of one type and then truth values; a sum or a product joins
numbers, and a connective truth values. What is counted is told by `Folds`, and so is how many
operands are checked when one does not fit: all up to the right side of the first comparison that
fails, or up to the first operand of another type. A comparison with any other operator stops before
its operands, whatever they are. -/
theorem typeOf_operators (n : Node) (s : State) (hl : 2 ≤ n.children.length) :
    (∀ types, Types s n.children types →
      (n.kind = .compExpr → n.value ∈ [some ("<" : Text), some ">", some "<=", some ">="] →
        Folds n s .bool (types = [.number, .number])
          ((comparisons types).findIdx (fun (left, right) => left = .bool ∨ right = .bool) + 2)) ∧
      (n.kind = .compExpr → n.value ∈ [some ("==" : Text), some "!="] →
        Folds n s .bool (∃ type rest, types = type :: type :: rest ∧ ∀ other ∈ rest, other = .bool)
          ((comparisons types).findIdx (fun (left, right) => left ≠ right) + 2)) ∧
      (n.kind = .addExpr ∨ n.kind = .mulExpr →
        Folds n s .number (∀ type ∈ types, type = .number) (types.findIdx (· ≠ .number) + 1)) ∧
      (n.kind = .boolExpr →
        Folds n s .bool (∀ type ∈ types, type = .bool) (types.findIdx (· ≠ .bool) + 1))) ∧
    (n.kind = .compExpr →
      n.value ∉ [some ("<" : Text), some ">", some "<=", some ">=", some "==", some "!="] →
      ∃ f, f.diagnostic.code.text = "A001" ∧ typeOf n s = .error f s ∧
        ∀ others, 2 ≤ others.length → typeOf { n with children := others } s = .error f s) := by
  refine ⟨fun types ht => ?_, ?_⟩
  · have htypes : 2 ≤ types.length := by rw [← ht.length_eq]; exact hl
    refine ⟨?_, ?_, ?_, ?_⟩
    · intro hk hv
      obtain ⟨op, hop, hv⟩ : ∃ op ∈ Comparison.ordering.operators, n.value = some op := by
        simpa [Comparison.operators] using hv
      refine (compared_folds hk hop hv hl ht).congr (ordering_closed htypes) ?_
      congr 2
      funext pair
      obtain ⟨left, right⟩ := pair
      cases left <;> cases right <;> rfl
    · intro hk hv
      obtain ⟨op, hop, hv⟩ : ∃ op ∈ Comparison.equality.operators, n.value = some op := by
        simpa [Comparison.operators] using hv
      refine (compared_folds hk hop hv hl ht).congr (equality_closed htypes) ?_
      congr 2
      funext pair
      obtain ⟨left, right⟩ := pair
      cases left <;> cases right <;> rfl
    · intro hk
      have h := joined_folds (or_assoc.mp (.inl hk)) hl ht
      have htype : operandType n.kind = .number := by rcases hk with hk | hk <;> rw [hk] <;> rfl
      rwa [htype] at h
    · intro hk
      have h := joined_folds (.inr (.inr hk)) hl ht
      have htype : operandType n.kind = .bool := by rw [hk]; rfl
      rwa [htype] at h
  · intro hk hv
    obtain ⟨f, hcode, hrun⟩ := compared_refused (s := s) hk fun family op hop hvalue => by
      rw [hvalue] at hv
      cases family <;> simp [Comparison.operators] at hop hv <;> simp [hv] at hop
    have hself := hrun n.children hl
    rw [n.eta] at hself
    exact ⟨f, hcode, hself, hrun⟩

/-- Four sums are not ordered: the third one is the last that is checked. Two sums are equal or not,
and this can be compared with a truth value. A connective stops at a sum, whatever comes after it. -/
theorem typeOf_operators_sums :
    let sum := Node.addExpr [Node.intValue 1, Node.intValue 2] ["+"]
    let yes := Node.boolValue true
    let span := Span.ofPosition ⟨2, 3, false⟩
    let compare (op : Text) (operands : List Node) : Node :=
      { kind := .compExpr, children := operands, value := some op, span := some span }
    let ordered := compare "<" [sum, sum, sum, sum]
    let equal := compare "==" [sum, sum, yes]
    let mixed := Node.boolExpr [yes, sum, yes] ["&&", "&&"]
    let unknown := compare "=" [sum, sum]
    (∀ n ∈ [ordered, equal, mixed, unknown], 2 ≤ n.children.length) ∧
    Types {} ordered.children [.number, .number, .number, .number] ∧
    Types {} equal.children [.number, .number, .bool] ∧
    Types {} mixed.children [.bool, .number, .bool] ∧
    (∃ f t, typeOf ordered {} = .error f t ∧ f.diagnostic.code.text = "S002" ∧
      f.diagnostic.span = some span ∧ t.usage.op = 3) ∧
    (∃ t, typeOf equal {} = .ok .bool t ∧ t.usage.op = 3) ∧
    (∃ f t, t.usage.op = 1 ∧ ∀ others,
      typeOf { mixed with children := yes :: sum :: others } {} = .error f t) ∧
    ∃ f, typeOf unknown {} = .error f {} ∧ f.diagnostic.code.text = "A001" := by
  intro sum yes span compare ordered equal mixed unknown
  have hlength : ∀ n ∈ [ordered, equal, mixed, unknown], 2 ≤ n.children.length := by decide
  have hsum : Gives (typeOf sum) {} .number := ⟨_, rfl⟩
  have hyes : Gives (typeOf yes) {} .bool := ⟨_, rfl⟩
  have hordered : Types {} ordered.children [.number, .number, .number, .number] :=
    .cons hsum (.cons hsum (.cons hsum (.cons hsum .nil)))
  have hequal : Types {} equal.children [.number, .number, .bool] :=
    .cons hsum (.cons hsum (.cons hyes .nil))
  have hmixed : Types {} mixed.children [.bool, .number, .bool] :=
    .cons hyes (.cons hsum (.cons hyes .nil))
  refine ⟨hlength, hordered, hequal, hmixed, ?_, ?_, ?_, ?_⟩
  · have hfolds := ((typeOf_operators ordered {} (hlength _ (by simp))).1 _ hordered).1 rfl (by decide)
    obtain ⟨f, t, hrun⟩ : ∃ f t, typeOf ordered {} = .error f t := ⟨_, _, rfl⟩
    obtain ⟨hcode, hspan, -, hop, -⟩ := hfolds.failure f t hrun
    exact ⟨f, t, hrun, hcode, hspan, hop⟩
  · have hfolds := ((typeOf_operators equal {} (hlength _ (by simp))).1 _ hequal).2.1 rfl (by decide)
    obtain ⟨type, t, hrun⟩ := hfolds.succeeds.mpr ⟨.number, [.bool], rfl, by simp⟩
    obtain ⟨htype, hop⟩ := hfolds.success type t hrun
    exact ⟨t, htype ▸ hrun, hop⟩
  · have hfolds := ((typeOf_operators mixed {} (hlength _ (by simp))).1 _ hmixed).2.2.2 rfl
    obtain ⟨f, t, hrun⟩ : ∃ f t, typeOf mixed {} = .error f t := ⟨_, _, rfl⟩
    obtain ⟨-, -, -, hop, hothers⟩ := hfolds.failure f t hrun
    exact ⟨f, t, hop, fun others => hothers others (Nat.le_add_right 2 others.length)⟩
  · obtain ⟨f, hcode, hrun, -⟩ := (typeOf_operators unknown {} (hlength _ (by simp))).2 rfl (by decide)
    exact ⟨f, hrun, hcode⟩

end Check

end TreeCheck
