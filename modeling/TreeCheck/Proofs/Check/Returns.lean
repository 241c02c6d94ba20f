import TreeCheck.Proofs.Check.Admission

namespace TreeCheck

mutual

/-- The positions of a tree that stand in no function of it, in preorder: a function is met, and
nothing below it. -/
def outerVisits (place : Place) : Node → List Visit
  | ⟨kind, children, value, ops, span⟩ =>
    ⟨place, ⟨kind, children, value, ops, span⟩⟩ ::
      if kind = .functionStmt then [] else outerVisitsFrom (place.child kind value) 0 children

/-- Those of children that are counted from an index. -/
def outerVisitsFrom (child : Nat → Kind → Option Place) (index : Nat) : List Node → List Visit
  | [] => []
  | node :: rest =>
    (match child index node.kind with
      | some place => outerVisits place node
      | none => []) ++ outerVisitsFrom child (index + 1) rest

end

section Outer

variable {place inner : Place} {n c : Node} {v : Visit}

theorem mem_outerVisitsFrom {child : Nat → Kind → Option Place} {index : Nat} {nodes : List Node} :
    v ∈ outerVisitsFrom child index nodes ↔
      ∃ i c place, nodes[i]? = some c ∧ child (index + i) c.kind = some place ∧
        v ∈ outerVisits place c :=
  PartsOf.mem_iff ⟨fun _ => rfl, fun _ _ _ => rfl⟩

/-- An outer position is the node itself, or an outer position of a part if the node is no
function. -/
theorem mem_outerVisits :
    v ∈ outerVisits place n ↔ v = ⟨place, n⟩ ∨ n.kind ≠ .functionStmt ∧
      ∃ i c inner, n.children[i]? = some c ∧ place.child n.kind n.value i c.kind = some inner ∧
        v ∈ outerVisits inner c := by
  obtain ⟨kind, children, value, ops, span⟩ := n
  rw [outerVisits, List.mem_cons]
  by_cases hk : kind = .functionStmt
  · simp [hk]
  · rw [if_neg hk, mem_outerVisitsFrom]
    simp [hk]

theorem outerVisits_part (hk : n.kind ≠ .functionStmt) {i : Nat} (hc : n.children[i]? = some c)
    (hp : place.child n.kind n.value i c.kind = some inner) :
    outerVisits inner c ⊆ outerVisits place n := by
  intro v hv
  exact mem_outerVisits.mpr (.inr ⟨hk, i, c, inner, hc, hp, hv⟩)

end Outer

/-- The same place in a function of another type. -/
def Place.within (context : Option Ty) : Place → Place
  | .statement _ => .statement context
  | .expression => .expression

/-- Only a function decides in which context its parts stand. -/
theorem Place.child_within (context : Option Ty) {place : Place} {kind inner : Kind}
    {value : Option Text} {index : Nat} (hk : kind ≠ .functionStmt) :
    (place.within context).child kind value index inner =
      (place.child kind value index inner).map (Place.within context) := by
  cases place <;> cases kind <;> simp [Place.within, Place.child] at hk ⊢ <;> split <;> rfl

/-- An outer position of a tree is one of its positions, in whatever context the tree stands. -/
theorem outerVisits_within (context : Option Ty) {place : Place} {n : Node} {v : Visit}
    (h : v ∈ outerVisits place n) :
    ⟨v.place.within context, v.node⟩ ∈ visits (place.within context) n := by
  induction n using Node.childInduction generalizing place with
  | step n ih =>
    rcases mem_outerVisits.mp h with rfl | ⟨hk, i, c, inner, hc, hp, hv⟩
    · exact mem_visits_self _ n
    · have hchild : (place.within context).child n.kind n.value i c.kind =
          some (inner.within context) := by
        rw [Place.child_within context hk, hp, Option.map_some]
      exact visits_child_subset hc hchild (ih c (List.mem_of_getElem? hc) hv)

theorem declared_visitsAll_congr {place other : Place} {nodes : List Node}
    (h : ∀ c ∈ nodes, declared (visits place c) = declared (visits other c)) :
    declared (visitsAll place nodes) = declared (visitsAll other nodes) := by
  induction nodes with
  | nil => rfl
  | cons c rest ih =>
    rw [List.forall_mem_cons] at h
    rw [visitsAll, visitsAll, List.flatMap_cons, List.flatMap_cons, declared_append,
      declared_append, h.1]
    exact congrArg _ (ih h.2)

/-- What a tree declares does not depend on the context. -/
theorem declared_statement (context other : Option Ty) (n : Node) :
    declared (visits (.statement context) n) = declared (visits (.statement other) n) := by
  induction n using Node.childInduction with
  | step n ih =>
    have hself : declared [⟨.statement context, n⟩] = declared [⟨.statement other, n⟩] := by
      by_cases hk : n.kind = .declaration <;>
        simp [declared, Visit.declares, hk, List.filterMap_cons]
    obtain ⟨kind, children, value, ops, span⟩ := n
    simp only at ih
    cases kind with
    | program | block | stmt | functionBlock =>
      rw [visits_group _ (by simp), visits_group _ (by simp), declared_cons, hself,
        declared_visitsAll_congr ih, ← declared_cons]
    | ifStmt | whileStmt =>
      cases children with
      | nil => rfl
      | cons test rest =>
        rw [List.forall_mem_cons] at ih
        rw [visits_conditional _ (by simp) rfl, visits_conditional _ (by simp) rfl, declared_cons,
          hself, declared_append, declared_visitsAll_congr ih.2, ← declared_append,
          ← declared_cons]
    | _ =>
      -- all parts have places of their own
      rw [visits_eq, visits_eq, declared_cons, hself, ← declared_cons]
      rfl

theorem HasType.unique {scope : Scope} {n : Node} {type other : Ty}
    (h : HasType scope.lookup n type) (h' : HasType scope.lookup n other) : type = other := by
  obtain ⟨t, ht⟩ := (Check.typeOf_agrees n { scope } type).mpr h
  obtain ⟨u, hu⟩ := (Check.typeOf_agrees n { scope } other).mpr h'
  rw [ht] at hu
  injection hu

namespace Check

theorem visitAll_congr {context other : Option Ty} {nodes : List Node}
    (h : ∀ c ∈ nodes, visit context c = visit other c) :
    visitAll context nodes = visitAll other nodes := by
  induction nodes with
  | nil => rfl
  | cons c rest ih =>
    rw [List.forall_mem_cons] at h
    rw [visitAll, visitAll, h.1, ih h.2]

/-- The context is read by the returns that stand in no function of the tree, and by nothing else. -/
theorem visit_eq_of_no_return {n : Node}
    (h : ∀ v ∈ outerVisits (.statement none) n, v.node.kind = .returnStmt → v.place = .expression)
    (context other : Option Ty) : visit context n = visit other n := by
  induction n using Node.childInduction with
  | step n ih =>
    -- the parts that stand in the same context
    have hpart (c : Node) (hk : n.kind ≠ .functionStmt) (i : Nat) (hc : n.children[i]? = some c)
        (hp : Place.child (.statement none) n.kind n.value i c.kind = some (.statement none)) :
        visit context c = visit other c :=
      ih c (List.mem_of_getElem? hc) fun v hv => h v (outerVisits_part hk hc hp hv)
    obtain ⟨kind, children, value, ops, span⟩ := n
    simp only at hpart
    cases kind with
    | program | block | stmt | functionBlock =>
      rw [visit, visit]
      apply visitAll_congr
      intro c hc
      obtain ⟨i, hi⟩ := List.getElem?_of_mem hc
      exact hpart c (by simp) i hi rfl
    | ifStmt | whileStmt =>
      cases children with
      | nil => rfl
      | cons test rest =>
        have hrest : visitAll context rest = visitAll other rest := by
          apply visitAll_congr
          intro c hc
          obtain ⟨i, hi⟩ := List.getElem?_of_mem hc
          exact hpart c (by simp) (i + 1) hi rfl
        rw [visit, visit, hrest]
    | returnStmt =>
      have hself := h _ (mem_outerVisits.mpr (.inl rfl)) rfl
      cases hself
    | declaration | functionStmt | assignStmt | identifier => rw [visit, visit]
    | _ => rw [visit_expression rfl, visit_expression rfl]

/-- A return outside the functions of an accepted tree stands as a statement, and its value has the
type that the context wants. -/
theorem visit_ok_return {context : Option Ty} {n : Node} {s t : State} {v : Visit}
    (h : visit context n s = .ok () t) (hv : v ∈ outerVisits (.statement none) n)
    (hk : v.node.kind = .returnStmt) :
    ∃ type result, context = some type ∧ v.node.children[0]? = some result ∧
      HasType t.scope.lookup result type := by
  have hmem := outerVisits_within context hv
  have hshaped := visit_ok_shaped h _ hmem
  have hleft : Extends t.scope.lookup (s.scope.after (visits (.statement context) n)) := by
    rw [← visit_scope h]
    exact fun _ _ hl => hl
  have htyped := ((visit_admits context n s _ hleft).mp ⟨t, h⟩).2 _ hmem
  obtain ⟨place, node⟩ := v
  simp only at hk
  cases place with
  | expression => simp [Place.within, Visit.Shaped, hk] at hshaped
  | statement _ =>
    simp only [Place.within, Visit.Shaped, Visit.Typed, hk] at hshaped htyped
    obtain ⟨type, hc, hr⟩ := htyped
    obtain ⟨result, rest, hn⟩ := List.exists_cons_of_ne_nil hshaped
    have hfirst : node.children[0]? = some result := by rw [hn]; rfl
    exact ⟨type, result, hc, hfirst, hr result hfirst⟩

/-- A tree whose returns all stand in functions of it ends alike in all contexts, and so does every
function. With a return outside them a tree is accepted in one context at most, and not where there
is no function at all. A return in the place of an expression never takes effect: it does not make
contexts differ, but no tree is accepted with it. -/
theorem visit_returns (n : Node) (s : State) :
    ((∀ v ∈ outerVisits (.statement none) n, v.node.kind = .returnStmt → v.place = .expression) →
      ∀ context other, visit context n s = visit other n s) ∧
    (n.kind = .functionStmt → ∀ context other, visit context n s = visit other n s) ∧
    ((∃ v ∈ outerVisits (.statement none) n, v.node.kind = .returnStmt) →
      (∀ t, visit none n s ≠ .ok () t) ∧
      ∀ context other t u, visit context n s = .ok () t → visit other n s = .ok () u →
        context = other) := by
  refine ⟨?_, ?_, ?_⟩
  · intro h context other
    rw [visit_eq_of_no_return h context other]
  · intro hk context other
    refine congrFun (visit_eq_of_no_return (fun v hv hr => ?_) context other) s
    rcases mem_outerVisits.mp hv with rfl | ⟨hn, -⟩
    · rw [hk] at hr
      cases hr
    · exact absurd hk hn
  · rintro ⟨v, hv, hk⟩
    constructor
    · intro t ht
      obtain ⟨type, result, hc, -⟩ := visit_ok_return ht hv hk
      cases hc
    · intro context other t u ht hu
      obtain ⟨type, result, rfl, hr, htype⟩ := visit_ok_return ht hv hk
      obtain ⟨type', result', rfl, hr', htype'⟩ := visit_ok_return hu hv hk
      have hscope : u.scope = t.scope := by
        rw [visit_scope ht, visit_scope hu, Scope.after, Scope.after,
          declared_statement (some type') (some type) n]
      cases hr.symm.trans hr'
      rw [hscope] at htype'
      rw [htype.unique htype']

/-- A function of numbers holds one of truth values, each with a return of its own: a block of them
is accepted in every context. With a branch that returns a number after them it is accepted where a
number is wanted and nowhere else. -/
theorem visit_returns_nested :
    let f := Node.functionStmt "num" "f"
      [Node.functionStmt "bool" "g" [Node.returnStmt (Node.boolValue true)],
        Node.returnStmt (Node.intValue 1)]
    let closed := Node.block [f]
    let opened := Node.block [f, Node.ifStmt (Node.boolValue false)
      [Node.block [Node.returnStmt (Node.intValue 2)]]]
    (∀ v ∈ outerVisits (.statement none) closed,
      v.node.kind = .returnStmt → v.place = .expression) ∧
    (∃ v ∈ outerVisits (.statement none) opened, v.node.kind = .returnStmt) ∧
    (∃ t, ∀ context, visit context f {} = .ok () t) ∧
    (∃ t, ∀ context, visit context closed {} = .ok () t) ∧
    (∃ t, visit (some .number) opened {} = .ok () t) ∧
    ∀ context t, context ≠ some .number → visit context opened {} ≠ .ok () t := by
  intro f closed opened
  have hclosed : ∀ v ∈ outerVisits (.statement none) closed,
      v.node.kind = .returnStmt → v.place = .expression := by decide
  have hopened : ∃ v ∈ outerVisits (.statement none) opened, v.node.kind = .returnStmt := by decide
  obtain ⟨t, ht⟩ : ∃ t, visit none f {} = .ok () t := ⟨_, rfl⟩
  obtain ⟨u, hu⟩ : ∃ t, visit none closed {} = .ok () t := ⟨_, rfl⟩
  obtain ⟨w, hw⟩ : ∃ t, visit (some .number) opened {} = .ok () t := ⟨_, rfl⟩
  refine ⟨hclosed, hopened, ⟨t, fun context => ?_⟩, ⟨u, fun context => ?_⟩, ⟨w, hw⟩, ?_⟩
  · rw [(visit_returns f {}).2.1 rfl context none, ht]
  · rw [(visit_returns closed {}).1 hclosed context none, hu]
  · intro context t hne h
    exact hne (((visit_returns opened {}).2.2 hopened).2 context (some .number) t w h hw)

end Check

end TreeCheck
