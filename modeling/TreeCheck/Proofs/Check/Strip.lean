import TreeCheck.Proofs.Check.Alike
import TreeCheck.Tree.Build

namespace TreeCheck

namespace Node

/-- The node passes on its first child, an expression: it has no operator and no other operand. -/
def passes (n : Node) : Bool :=
  n.children.head?.any (·.kind.isExpression) &&
    match n.kind with
    | .expr | .genValue => true
    | .compExpr | .addExpr | .mulExpr | .boolExpr => n.children.length = 1
    | .notExpr | .unaExpr => n.ops.getD [] = []
    | _ => false

mutual

/-- The expression with every node that passes on its first child replaced by that child. -/
def strip : Node → Node
  | ⟨kind, children, value, ops, span⟩ =>
    match children with
    | [] => ⟨kind, [], value, ops, span⟩
    | child :: rest =>
      if passes ⟨kind, child :: rest, value, ops, span⟩ then strip child
      else ⟨kind, stripFrom (Place.expression.child kind value) 0 (child :: rest), value, ops, span⟩

/-- Of children that are counted from an index, those that have a place are stripped. -/
def stripFrom (child : Nat → Kind → Option Place) (index : Nat) : List Node → List Node
  | [] => []
  | node :: rest =>
    (if (child index node.kind).isSome then strip node else node) ::
      stripFrom child (index + 1) rest

end

section Children

variable {child : Nat → Kind → Option Place} {index : Nat} {nodes rest : List Node} {c : Node}

theorem getElem?_stripFrom (i : Nat) :
    (stripFrom child index nodes)[i]? =
      nodes[i]?.map fun c => if (child (index + i) c.kind).isSome then c.strip else c := by
  induction nodes generalizing index i with
  | nil => simp [stripFrom]
  | cons node rest ih =>
    rw [stripFrom]
    cases i with
    | zero => rfl
    | succ i =>
      rw [List.getElem?_cons_succ, List.getElem?_cons_succ, ih, Nat.add_right_comm]
      rfl

theorem length_stripFrom : (stripFrom child index nodes).length = nodes.length := by
  induction nodes generalizing index with
  | nil => rfl
  | cons node rest ih => rw [stripFrom, List.length_cons, List.length_cons, ih]

theorem stripFrom_of_all (h : ∀ i kind, (child i kind).isSome) :
    stripFrom child index nodes = nodes.map strip := by
  apply List.ext_getElem?
  intro i
  rw [getElem?_stripFrom, List.getElem?_map]
  simp [h]

theorem stripFrom_of_none (h : ∀ i kind, index ≤ i → child i kind = none) :
    stripFrom child index nodes = nodes := by
  apply List.ext_getElem?
  intro i
  rw [getElem?_stripFrom]
  simp [h (index + i) _ (Nat.le_add_right index i)]

/-- Only the first child has a place. -/
theorem stripFrom_of_first (hc : (child 0 c.kind).isSome)
    (hr : ∀ i kind, 1 ≤ i → child i kind = none) :
    stripFrom child 0 (c :: rest) = c.strip :: rest := by
  rw [stripFrom, if_pos hc, stripFrom_of_none hr]

end Children

section Strip

variable {n c : Node} {rest : List Node}

theorem passes_first (h : n.passes = true) :
    ∃ c rest, n.children = c :: rest ∧ c.kind.isExpression = true := by
  cases hn : n.children with
  | nil => simp [passes, hn] at h
  | cons c rest =>
    have hc : c.kind.isExpression = true := by
      simp only [passes, hn, Bool.and_eq_true] at h
      exact h.1
    exact ⟨c, rest, rfl, hc⟩

theorem passes_isExpression (h : n.passes = true) : n.kind.isExpression = true := by
  cases hk : n.kind <;> simp [passes, hk] at h <;> rfl

theorem strip_of_passes (h : n.passes = true) (hc : n.children = c :: rest) :
    n.strip = c.strip := by
  obtain ⟨kind, children, value, ops, span⟩ := n
  subst hc
  rw [strip, if_pos h]

theorem strip_of_not_passes (h : n.passes = false) :
    n.strip = ⟨n.kind, stripFrom (Place.expression.child n.kind n.value) 0 n.children, n.value,
      n.ops, n.span⟩ := by
  obtain ⟨kind, children, value, ops, span⟩ := n
  cases children with
  | nil => rw [strip, stripFrom]
  | cons c rest =>
    have hno : ¬ passes ⟨kind, c :: rest, value, ops, span⟩ = true := by simp [h]
    rw [strip, if_neg hno]

/-- A node stays as it is if all of its parts do. -/
theorem strip_eq_self (h : n.passes = false)
    (hparts : ∀ i c, n.children[i]? = some c →
      (Place.expression.child n.kind n.value i c.kind).isSome → c.strip = c) : n.strip = n := by
  have hchildren : stripFrom (Place.expression.child n.kind n.value) 0 n.children = n.children := by
    apply List.ext_getElem?
    intro i
    rw [getElem?_stripFrom, Nat.zero_add]
    cases hc : n.children[i]? with
    | none => rfl
    | some c =>
      rw [Option.map_some]
      split
      · next hplace => rw [hparts i c hc hplace]
      · rfl
  rw [strip_of_not_passes h, hchildren]
  cases n
  rfl

theorem strip_of_not_expression (h : n.kind.isExpression = false) : n.strip = n := by
  have hp : n.passes = false := by
    apply Bool.eq_false_iff.mpr
    intro hp
    rw [passes_isExpression hp] at h
    cases h
  apply strip_eq_self hp
  intro i c _ hplace
  cases hk : n.kind <;> simp [hk, Kind.isExpression] at h <;> simp [hk, Place.child] at hplace

/-- The layers around one part stay only if the part is no expression. -/
theorem strip_of_wrapper (h : n.passes = false) (hk : n.kind = .expr ∨ n.kind = .genValue) :
    n.strip = n := by
  apply strip_eq_self h
  intro i c hc hplace
  apply strip_of_not_expression
  have hi : i = 0 := by
    rcases hk with hk | hk <;> simp [hk, Place.child] at hplace
    · exact hplace
    · exact hplace.1
  subst hi
  rw [← List.head?_eq_getElem?] at hc
  rcases hk with hk | hk <;> simpa [passes, hk, hc] using h

/-- What is inside a layer that is taken away is an expression as well. -/
theorem isExpression_strip (n : Node) : n.strip.kind.isExpression = n.kind.isExpression := by
  induction n using Node.childInduction with
  | step n ih =>
    cases hp : n.passes with
    | false => rw [strip_of_not_passes hp]
    | true =>
      obtain ⟨c, rest, hn, hc⟩ := passes_first hp
      have hmem : c ∈ n.children := by simp [hn]
      rw [strip_of_passes hp hn, ih c hmem, hc, passes_isExpression hp]

/-- No node is left that passes on its first child. -/
theorem strip_not_passes (n : Node) : ∀ v ∈ visits .expression n.strip, v.node.passes = false := by
  induction n using Node.childInduction with
  | step n ih =>
    cases hp : n.passes with
    | true =>
      obtain ⟨c, rest, hn, -⟩ := passes_first hp
      have hmem : c ∈ n.children := by simp [hn]
      rw [strip_of_passes hp hn]
      exact ih c hmem
    | false =>
      have hstrip := strip_of_not_passes hp
      have hhead : n.strip.children.head?.any (·.kind.isExpression) =
          n.children.head?.any (·.kind.isExpression) := by
        rw [hstrip, List.head?_eq_getElem?, List.head?_eq_getElem?, getElem?_stripFrom]
        cases n.children[0]? with
        | none => rfl
        | some c =>
          simp only [Option.map_some, Option.any_some]
          split
          · exact isExpression_strip c
          · rfl
      have hself : n.strip.passes = n.passes := by
        rw [passes, hhead, hstrip, passes]
        simp only [length_stripFrom]
      intro v hv
      rw [visits_eq, List.mem_cons] at hv
      rcases hv with rfl | hv
      · exact hself.trans hp
      · obtain ⟨i, d, place, hd, hplace, hv⟩ := mem_visitsFrom.mp hv
        have hexpression := Place.child_expression hplace
        subst hexpression
        simp only [hstrip, getElem?_stripFrom, Option.map_eq_some_iff, Nat.zero_add] at hd hplace
        obtain ⟨c, hc, rfl⟩ := hd
        by_cases hsome : (Place.expression.child n.kind n.value i c.kind).isSome = true
        · rw [if_pos hsome] at hv
          exact ih c (List.mem_of_getElem? hc) v hv
        · -- a child without a place was left as it is, and has none afterwards
          rw [if_neg hsome] at hplace
          rw [hplace] at hsome
          exact absurd rfl hsome

end Strip

end Node

namespace Check

variable {n c : Node} {rest : List Node}

theorem typeOf_of_passes (h : n.passes = true) (hc : n.children = c :: rest) :
    typeOf n = traced n.kind (typeOf c) := by
  obtain ⟨d, others, hn, hd⟩ := Node.passes_first h
  obtain ⟨rfl, rfl⟩ := List.cons.inj (hc.symm.trans hn)
  obtain ⟨kind, children, value, ops, span⟩ := n
  subst hc
  cases kind with
  | expr => rw [typeOf]
  | genValue =>
    have hi : c.kind ≠ .identifier := by
      intro hi
      rw [hi] at hd
      cases hd
    rw [typeOf, if_neg hi]
  | compExpr =>
    have hrest : rest = [] := by simpa [Node.passes, hd] using h
    rw [hrest, typeOf]
  | addExpr | mulExpr | boolExpr =>
    have hrest : rest = [] := by simpa [Node.passes, hd] using h
    rw [hrest, typeOf_joined_single (by simp)]
  | notExpr | unaExpr =>
    have hops : ops.getD [] = [] := by simpa [Node.passes, hd] using h
    have hnone (own : Text) (operand : Ty) (kind : Kind) :
        applyOperators kind own operand ops span = pure := by
      funext type
      simp [applyOperators, hops]
    rw [typeOf, hnone, bind_pure]
  | _ => simp [Node.passes] at h

/-- A note of a type more does not matter. -/
theorem untraced_traced {check other : Check Ty} (kind : Kind)
    (h : Simulates untraced Eq check other) : Simulates untraced Eq (traced kind check) other := by
  intro s t hs
  have hends := h s t hs
  generalize other t = second at hends ⊢
  cases hc : check s with
  | ok type u =>
    have htraced : traced kind check s =
        .ok type { u with trace := u.trace ++ [⟨kind, type⟩] } := by
      rw [traced, bind_of_ok hc]
      rfl
    rw [hc] at hends
    rw [htraced]
    cases hends with
    | ok hv hu => exact .ok hv hu
  | error f u =>
    have htraced : traced kind check s = .error f u := by
      rw [traced, bind_of_error hc]
    rw [hc] at hends
    rw [htraced]
    exact hends

private theorem strip_prefixed {kind : Kind} {value : Option Text} {ops : Option (List Text)}
    {span : Option Span} (hp : Node.passes ⟨kind, c :: rest, value, ops, span⟩ = false)
    (hk : kind = .notExpr ∨ kind = .unaExpr) :
    Node.strip ⟨kind, c :: rest, value, ops, span⟩ = ⟨kind, c.strip :: rest, value, ops, span⟩ := by
  have hfirst : (Place.expression.child kind value 0 c.kind).isSome := by
    rcases hk with rfl | rfl <;> rfl
  have hothers (i : Nat) (inner : Kind) (hi : 1 ≤ i) :
      Place.expression.child kind value i inner = none := by
    have hne : i ≠ 0 := by omega
    rcases hk with rfl | rfl <;> simp [Place.child, hne]
  rw [Node.strip_of_not_passes hp, Node.stripFrom_of_first hfirst hothers]

private theorem strip_layer {kind : Kind} {children : List Node} {value : Option Text}
    {ops : Option (List Text)} {span : Option Span}
    (hp : Node.passes ⟨kind, children, value, ops, span⟩ = false)
    (hk : kind = .compExpr ∨ kind = .addExpr ∨ kind = .mulExpr ∨ kind = .boolExpr) :
    Node.strip ⟨kind, children, value, ops, span⟩ =
      ⟨kind, children.map Node.strip, value, ops, span⟩ := by
  rw [Node.strip_of_not_passes hp, Node.stripFrom_of_all]
  intro i inner
  rcases hk with rfl | rfl | rfl | rfl <;> rfl

/-- The two checks go side by side; only the notes of types that the layers leave differ. -/
theorem strip_simulates (n : Node) : Simulates untraced Eq (typeOf n) (typeOf n.strip) := by
  induction n using Node.childInduction with
  | step n ih =>
    cases hp : n.passes with
    | true =>
      obtain ⟨c, rest, hn, -⟩ := Node.passes_first hp
      have hmem : c ∈ n.children := by simp [hn]
      rw [typeOf_of_passes hp hn, Node.strip_of_passes hp hn]
      exact untraced_traced n.kind (ih c hmem)
    | false =>
      have hsame (h : n.strip = n) : Simulates untraced Eq (typeOf n) (typeOf n.strip) := by
        rw [h]
        exact typeOf_alike n (untraced_bears _)
      obtain ⟨kind, children, value, ops, span⟩ := n
      have hlayer := (untraced_bears []).layered span
      simp only at ih
      cases kind with
      | compExpr =>
        rw [strip_layer hp (by simp)]
        exact hlayer.compared (fun _ => rfl) ih
      | addExpr | mulExpr | boolExpr =>
        rw [strip_layer hp (by simp)]
        exact hlayer.joined (by simp) ih
      | notExpr | unaExpr =>
        cases children with
        | nil => exact hsame (Node.strip_of_not_passes hp)
        | cons c rest =>
          rw [strip_prefixed hp (by simp), typeOf, typeOf]
          exact hlayer.prefixed _ _ (ih c List.mem_cons_self)
      | expr | genValue => exact hsame (Node.strip_of_wrapper hp (by simp))
      | _ =>
        apply hsame
        apply Node.strip_eq_self hp
        intro i c _ hplace
        simp [Place.child] at hplace

/-- An expression and what is left without its layers have the same type or the same finding, and
leave the same scope and counters behind. No layer is left that could be taken away. -/
theorem typeOf_strip (n : Node) (s : State) :
    (∀ type t, typeOf n s = .ok type t →
      ∃ u, typeOf n.strip s = .ok type u ∧ u.scope = t.scope ∧ u.usage = t.usage) ∧
    (∀ f t, typeOf n s = .error f t →
      ∃ u, typeOf n.strip s = .error f u ∧ u.scope = t.scope ∧ u.usage = t.usage) ∧
    ∀ v ∈ visits .expression n.strip, v.node.passes = false := by
  have hends := strip_simulates n s s ⟨rfl, rfl⟩
  generalize typeOf n s = first at hends
  generalize typeOf n.strip s = second at hends
  refine ⟨?_, ?_, Node.strip_not_passes n⟩
  · rintro type t rfl
    cases hends with
    | @ok _ other _ u hv hs =>
      subst hv
      exact ⟨u, rfl, hs⟩
  · rintro f t rfl
    cases hends with
    | @error _ g _ u hf hs =>
      have hfg : f = g := hf
      subst hfg
      exact ⟨u, rfl, hs⟩

/-- A comparison of a name with a number, with eight layers around the whole and around each side.
The comparison is left, with the number and with the name in the layer that reads it. It is a truth
value where the name is declared, and the name is the finding where it is not. -/
theorem typeOf_strip_layers :
    let wrap := fun n => Node.expr (Node.boolExpr [Node.compExpr (Node.addExpr [Node.mulExpr
      [Node.notExpr (Node.unaExpr (Node.genValue n) 0) 0] []] []) none none] [])
    let n := wrap (Node.compExpr (wrap (Node.reference "x")) (some "<")
      (some (wrap (Node.intValue 3))))
    let m := Node.compExpr (Node.reference "x") (some "<") (some (Node.intValue 3))
    let s : State := { scope := ⟨[{ name := "x", type := .number }]⟩ }
    n.strip = m ∧ n.passes = true ∧ m.passes = false ∧
    (∃ t u, typeOf n s = .ok .bool t ∧ typeOf m s = .ok .bool u ∧ u.usage = t.usage ∧
      t.usage.op = 1) ∧
    ∃ t u, typeOf n {} = .error ⟨.undefined "x", none⟩ t ∧
      typeOf m {} = .error ⟨.undefined "x", none⟩ u ∧ u.usage = t.usage := by
  intro wrap n m s
  have hstrip : n.strip = m := rfl
  obtain ⟨t, ht, hop⟩ : ∃ t, typeOf n s = .ok .bool t ∧ t.usage.op = 1 := ⟨_, rfl, rfl⟩
  obtain ⟨t', ht'⟩ : ∃ t, typeOf n {} = .error ⟨.undefined "x", none⟩ t := ⟨_, rfl⟩
  obtain ⟨hok, -, hpasses⟩ := typeOf_strip n s
  obtain ⟨-, herror, -⟩ := typeOf_strip n {}
  obtain ⟨u, hu, -, husage⟩ := hok .bool t ht
  obtain ⟨u', hu', -, husage'⟩ := herror _ t' ht'
  rw [hstrip] at hu hu' hpasses
  exact ⟨hstrip, rfl, hpasses ⟨.expression, m⟩ (mem_visits_self _ m),
    ⟨t, u, ht, hu, husage, hop⟩, t', u', ht', hu', husage'⟩

end Check

end TreeCheck
