import TreeCheck.Proofs.Check.Findings
import TreeCheck.Proofs.Check.Renaming

namespace TreeCheck

/-- The draft from which the diagnostic of a finding is made. -/
def Finding.draft (f : Finding) : Draft :=
  let draft := ((Draft.error f.problem.code).setMessage (some f.problem.message)).setSpan f.span
  match f.problem.name? with
  | some name => draft.setDatum "name" (some (.str name))
  | none => draft

theorem Problem.message_ne_empty (problem : Problem) : problem.message ≠ "" := by
  cases problem with
  | malformed defect | undefined name | assignmentType name =>
    exact fun h => absurd (Text.append_eq_empty_iff.mp h).1 (by decide)
  | redeclared name => exact fun h => absurd (Text.append_eq_empty_iff.mp h).2 (by decide)
  | _ => decide

/-- No draft of a finding lacks a code or a message. -/
theorem Finding.draft_finish (f : Finding) : f.draft.finish = .ok f.diagnostic := by
  obtain ⟨problem, span⟩ := f
  have hmessage : problem.message.isEmpty = false :=
    Text.isEmpty_eq_false_iff.mpr problem.message_ne_empty
  have hspan : ∀ draft : Draft, draft.span = none → draft.setSpan span = { draft with span } := by
    rintro ⟨severity, code, message, _, data⟩ rfl
    cases span <;> rfl
  unfold draft
  rw [hspan _ rfl]
  cases problem <;> simp [Problem.name?, Draft.finish, Draft.setDatum, Draft.setMessage,
    Draft.error, hmessage, Finding.diagnostic, Finding.data, Record.put]

/-- A position belongs to the tree. -/
theorem nodes_visits_subset {place : Place} {n : Node} {v : Visit} (hv : v ∈ visits place n) :
    v.node.nodes ⊆ n.nodes := by
  induction n using Node.childInduction generalizing place with
  | step n ih =>
    rw [visits_eq, List.mem_cons] at hv
    rcases hv with rfl | hv
    · exact List.Subset.refl _
    · obtain ⟨i, c, inner, hi, -, hv⟩ := mem_visitsFrom.mp hv
      have hc := List.mem_of_getElem? hi
      exact List.Subset.trans (ih c hc hv) (Node.nodes_child_subset hc)

theorem Node.mem_nodes_first {n c : Node} (hc : n.children[0]? = some c) : c ∈ n.nodes :=
  nodes_child_subset (List.mem_of_getElem? hc) c.mem_nodes_self

namespace Visit

variable {v : Visit} {n : Node} {scope : Scope} {name : Text}

/-- The span that a position blames is the span of a node. -/
theorem Blames.exists_node {span : Option Span} (h : v.Blames span) :
    ∃ m ∈ v.node.nodes, m.span = span := by
  rcases h with rfl | ⟨c, hc, rfl⟩
  · exact ⟨v.node, v.node.mem_nodes_self, rfl⟩
  · exact ⟨c, Node.mem_nodes_first hc, rfl⟩

/-- A name that is used at a position is that of its first child. -/
theorem target?_of_uses (h : name ∈ v.uses) : v.node.target? = some name := by
  unfold uses at h
  split at h
  · simpa using h
  · simpa using h
  · cases h

end Visit

theorem Node.exists_identifier {n : Node} {name : Text} (h : n.target? = some name) :
    ∃ m ∈ n.nodes, m.kind = .identifier ∧ m.value = some name := by
  obtain ⟨c, rest, hc, hname⟩ := Node.target?_eq_some h
  have hkind := Node.kind_of_name? hname
  refine ⟨c, Node.mem_nodes_first (by rw [hc]; rfl), hkind, ?_⟩
  rwa [Node.name?, if_pos hkind] at hname

/-- The diagnostic is right about a tree, with these names declared. -/
structure Diagnostic.Truthful (n : Node) (scope : Scope) (d : Diagnostic) : Prop where
  code : d.code.text ∈ ["A001", "S001", "S002", "S003", "S004", "S005", "S006", "S007"]
  span : ∀ span, d.span = some span → ∃ m ∈ n.nodes, m.span = some span
  placed : (∀ m ∈ n.nodes, m.span.isSome) → d.span.isSome
  data : d.data ≠ [] ↔ d.code.text ∈ ["S001", "S003", "S005"]
  named : d.data ≠ [] → ∃ name before after,
    d.data = [(("name" : Text), some (Json.str name))] ∧
    (∃ m ∈ n.nodes, m.kind = .identifier ∧ m.value = some name) ∧
    d.code.frame? = some (before, after) ∧ d.message = before ++ name ++ after ∧
    (d.code.text = "S001" → scope.contains name = false) ∧
    (d.code.text = "S003" ∨ d.code.text = "S005" → scope.contains name = true)

/-- A finding that is right about a position gives a diagnostic that is right about its node. -/
theorem Visit.Licenses.truthful {v : Visit} {scope : Scope} {f : Finding}
    (h : v.Licenses scope f) : f.diagnostic.Truthful v.node scope := by
  obtain ⟨problem, span⟩ := f
  obtain ⟨hproblem, hspan⟩ := h
  obtain ⟨m, hm, hms⟩ := hspan.exists_node
  refine ⟨?_, fun given hgiven => ⟨m, hm, hms.trans hgiven⟩, fun hall => ?_, ?_, ?_⟩
  · cases problem <;> simp [Finding.diagnostic, Problem.code, Code.text]
  · have hsome := hall m hm
    rwa [hms] at hsome
  · cases problem <;>
      simp [Finding.diagnostic, Finding.data, Problem.name?, Problem.code, Code.text]
  · intro hdata
    cases hproblem with
    | @undefined name hu hs =>
      exact ⟨name, _, _, rfl, Node.exists_identifier (Visit.target?_of_uses hu), rfl,
        Text.append_empty.symm, fun _ => hs,
        by simp [Finding.diagnostic, Problem.code, Code.text]⟩
    | @redeclared name hd ht hs =>
      exact ⟨name, _, _, rfl, Node.exists_identifier ht, rfl, rfl,
        by simp [Finding.diagnostic, Problem.code, Code.text], fun _ => hs⟩
    | @assignmentType name hk ht hs =>
      exact ⟨name, _, _, rfl, Node.exists_identifier ht, rfl, Text.append_empty.symm,
        by simp [Finding.diagnostic, Problem.code, Code.text], fun _ => hs⟩
    | _ => exact absurd rfl hdata

/-- What is right about a part of a tree is right about the tree. -/
theorem Diagnostic.Truthful.mono {n m : Node} {scope : Scope} {d : Diagnostic}
    (h : d.Truthful m scope) (hs : m.nodes ⊆ n.nodes) : d.Truthful n scope where
  code := h.code
  span span hspan := by
    obtain ⟨k, hk, hks⟩ := h.span span hspan
    exact ⟨k, hs hk, hks⟩
  placed hall := h.placed fun k hk => hall k (hs hk)
  data := h.data
  named hdata := by
    obtain ⟨name, before, after, hname, ⟨k, hk, hident⟩, hrest⟩ := h.named hdata
    exact ⟨name, before, after, hname, ⟨k, hs hk, hident⟩, hrest⟩

/-- When a check stops, its diagnostic can be made and is right about the tree, with the names that
are declared when it stops. -/
theorem visit_error_truthful (context : Option Ty) (n : Node) (s t : State) (f : Finding)
    (h : Check.visit context n s = .error f t) :
    f.draft.finish = .ok f.diagnostic ∧ f.diagnostic.Truthful n t.scope := by
  obtain ⟨v, hv, hlicenses⟩ := Check.visit_located context n s f t h
  exact ⟨f.draft_finish, hlicenses.truthful.mono (nodes_visits_subset hv)⟩

/-- A name is declared inside a branch and then again: the second declaration is blamed on its
identifier, and the name is declared by then. -/
theorem visit_error_truthful_branch :
    let place : Span := .ofPosition { line := 3, col := 5 }
    let name : Node := { kind := .identifier, value := some "a", span := some place }
    let second : Node := { kind := .declaration, value := some "bool", children := [name] }
    let n := Node.program [Node.ifStmt (Node.boolValue true) [Node.declaration "num" "a"], second]
    ∃ f t, Check.visit none n {} = .error f t ∧ f.diagnostic.span = some place ∧
      f.diagnostic.code.text = "S003" ∧ f.diagnostic.Truthful n t.scope := by
  intro place name second n
  obtain ⟨f, t, h, hspan, hcode⟩ : ∃ f t, Check.visit none n {} = .error f t ∧
      f.diagnostic.span = some place ∧ f.diagnostic.code.text = "S003" := ⟨_, _, rfl, rfl, rfl⟩
  exact ⟨f, t, h, hspan, hcode, (visit_error_truthful none n {} t f h).2⟩

end TreeCheck
