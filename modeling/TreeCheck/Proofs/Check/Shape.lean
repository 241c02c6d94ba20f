import TreeCheck.Proofs.Check.Findings

namespace TreeCheck

/-- Every position of the tree has the shape that its kind needs there. -/
def Node.Shape (n : Node) : Prop := ∀ v ∈ visits (.statement none) n, v.Shaped

/-- The function around a node decides neither which of its children have a place nor whether they
stand there as statements. -/
theorem Place.child_of_context {c d : Option Ty} {kind inner : Kind} {value : Option Text}
    {index : Nat} {place : Place}
    (h : Place.child (.statement c) kind value index inner = some place) :
    Place.child (.statement d) kind value index inner = some place ∨
      ∃ outer other, place = .statement outer ∧
        Place.child (.statement d) kind value index inner = some (.statement other) := by
  cases kind with
  | program | block | stmt | functionBlock =>
    cases h
    exact .inr ⟨c, d, rfl, rfl⟩
  | ifStmt | whileStmt =>
    by_cases hi : index = 0
    · simp only [Place.child, hi, if_true] at h ⊢
      exact .inl h
    · simp only [Place.child, hi, if_false] at h ⊢
      cases h
      exact .inr ⟨c, d, rfl, rfl⟩
  | _ => exact .inl h

theorem Visit.shaped_context (c d : Option Ty) (n : Node) :
    Visit.Shaped ⟨.statement c, n⟩ = Visit.Shaped ⟨.statement d, n⟩ := by
  cases hk : n.kind <;> simp only [Visit.Shaped, hk]

/-- Shape does not depend on the function in which a tree stands. -/
theorem shaped_visits_of_context {c d : Option Ty} {n : Node}
    (h : ∀ v ∈ visits (.statement c) n, v.Shaped) : ∀ v ∈ visits (.statement d) n, v.Shaped := by
  induction n using Node.childInduction generalizing c d with
  | step n ih =>
    intro v hv
    rw [visits_eq, List.mem_cons] at hv
    rcases hv with rfl | hv
    · rw [Visit.shaped_context d c]
      exact h _ (mem_visits_self _ n)
    · obtain ⟨i, child, place, hi, hp, hv⟩ := mem_visitsFrom.mp hv
      rw [Nat.zero_add] at hp
      rcases Place.child_of_context (d := c) hp with hsame | ⟨outer, other, rfl, hother⟩
      · exact h v (visits_child_subset hi hsame hv)
      · have hbelow : ∀ w ∈ visits (.statement other) child, w.Shaped :=
          fun w hw => h w (visits_child_subset hi hother hw)
        exact ih child (List.mem_of_getElem? hi) hbelow v hv

theorem Node.shape_iff {context : Option Ty} {n : Node} :
    n.Shape ↔ ∀ v ∈ visits (.statement context) n, v.Shaped :=
  ⟨shaped_visits_of_context, shaped_visits_of_context⟩

/-- A finding about a tree of the right shape is about its meaning. -/
theorem Visit.Licenses.code {v : Visit} {scope : Scope} {f : Finding} (h : v.Licenses scope f)
    (hv : v.Shaped) :
    f.diagnostic.code.text ∈ ["S001", "S002", "S003", "S004", "S005", "S006", "S007"] := by
  obtain ⟨problem, span⟩ := f
  cases h.problem with
  | malformed hmalformed => exact absurd hv hmalformed
  | _ => simp [Finding.diagnostic, Problem.code, Code.text]

/-- A tree of the right shape is accepted or refused for its meaning, never as malformed, from every
state and in every context; and what is accepted has the right shape. -/
theorem visit_separates_shape (n : Node) (context : Option Ty) (s : State) :
    (n.Shape →
      (∃ t, Check.visit context n s = .ok () t) ∨
      ∃ f t, Check.visit context n s = .error f t ∧
        f.diagnostic.code.text ∈ ["S001", "S002", "S003", "S004", "S005", "S006", "S007"]) ∧
    ∀ t, Check.visit context n s = .ok () t → n.Shape := by
  constructor
  · intro hshape
    cases hvisit : Check.visit context n s with
    | ok value t => exact .inl ⟨t, rfl⟩
    | error f t =>
      obtain ⟨v, hv, hlicenses⟩ := Check.visit_located context n s f t hvisit
      exact .inr ⟨f, t, rfl, hlicenses.code (Node.shape_iff.mp hshape v hv)⟩
  · intro t ht
    exact Node.shape_iff.mpr (Check.visit_ok_shaped ht)

/-- A loop is accepted where its names are declared, so it has the right shape; where they are not,
it is refused for its meaning. -/
theorem visit_separates_shape_loop :
    let sets := Node.assignStmt "a" (Node.addExpr [Node.reference "a", Node.intValue 1] ["+"])
    let loop := Node.whileStmt (Node.notExpr (Node.reference "b") 1) [sets]
    loop.Shape ∧ ∃ f t, Check.visit none loop {} = .error f t ∧
      f.diagnostic.code.text ∈ ["S001", "S002", "S003", "S004", "S005", "S006", "S007"] := by
  intro sets loop
  have hshape : loop.Shape :=
    (visit_separates_shape loop none { scope := ⟨[⟨"a", .number, none⟩, ⟨"b", .bool, none⟩]⟩ }).2 _
      rfl
  refine ⟨hshape, ?_⟩
  rcases (visit_separates_shape loop none {}).1 hshape with ⟨t, ht⟩ | hrefused
  · cases ht
  · exact hrefused

end TreeCheck
