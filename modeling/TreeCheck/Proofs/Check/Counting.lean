import TreeCheck.Proofs.Check.Admission

namespace TreeCheck

namespace Node

/-- How many children of a node of the kind are ever looked at; `none` if all are. -/
def childLimit : Kind → Option Nat
  | .declaration | .returnStmt | .expr | .genValue | .notExpr | .unaExpr => some 1
  | .assignStmt => some 2
  | .boolValue | .intValue | .identifier => some 0
  | _ => none

/-- No node of the tree has more children than are looked at. -/
def NoSurplus (n : Node) : Prop :=
  ∀ m ∈ n.nodes, ∀ limit ∈ childLimit m.kind, m.children.length ≤ limit

theorem NoSurplus.child {n c : Node} (h : n.NoSurplus) (hc : c ∈ n.children) : c.NoSurplus :=
  fun m hm => h m (nodes_child_subset hc hm)

theorem NoSurplus.self {n : Node} (h : n.NoSurplus) {limit : Nat}
    (hl : childLimit n.kind = some limit) : n.children.length ≤ limit :=
  h n (by rw [nodes_eq]; exact List.mem_cons_self) limit hl

/-- The nodes of a list that are not names. -/
def unnamed (list : List Node) : List Node := list.filter (·.kind ≠ .identifier)

theorem unnamed_append (list more : List Node) :
    unnamed (list ++ more) = unnamed list ++ unnamed more := List.filter_append ..

theorem unnamed_cons (n : Node) (list : List Node) :
    unnamed (n :: list) = unnamed [n] ++ unnamed list := unnamed_append [n] list

/-- A name without children leaves nothing. -/
theorem unnamed_identifier {n : Node} (hk : n.kind = .identifier) (h : n.NoSurplus) :
    unnamed n.nodes = [] := by
  have hl : n.children.length ≤ 0 := h.self (by rw [hk]; rfl)
  have hc : n.children = [] := List.eq_nil_of_length_eq_zero (by omega)
  rw [nodes_eq, hc]
  simp [unnamed, hk]

/-- Names count for nothing. -/
theorem tally_unnamed (list : List Node) (counter : Counter) :
    tally (unnamed list) counter = tally list counter := by
  unfold tally unnamed
  rw [List.countP_filter]
  congr 1
  funext n
  cases hk : n.kind <;> cases counter <;> simp [counts, hk]

end Node

/-- The nodes at positions. -/
def nodesAt (vs : List Visit) : List Node := vs.map Visit.node

section Positions

variable {n c : Node} {rest : List Node}

/-- All nodes of the tree but names are met at these positions. -/
def Met (n : Node) (vs : List Visit) : Prop := Node.unnamed n.nodes = Node.unnamed (nodesAt vs)

theorem met_all {place : Place} {list : List Node} (h : ∀ c ∈ list, Met c (visits place c)) :
    Node.unnamed (list.flatMap Node.nodes) = Node.unnamed (nodesAt (visitsAll place list)) := by
  induction list with
  | nil => rfl
  | cons c rest ih =>
    have hc := h c List.mem_cons_self
    have hr := ih fun d hd => h d (List.mem_cons_of_mem c hd)
    have hv : nodesAt (visitsAll place (c :: rest)) =
        nodesAt (visits place c) ++ nodesAt (visitsAll place rest) := by
      simp [nodesAt, visitsAll]
    rw [List.flatMap_cons, hv, Node.unnamed_append, Node.unnamed_append, hr, hc]

/-- A node is met if its children are. -/
theorem met_cons {place : Place} {vs : List Visit}
    (h : Node.unnamed (n.children.flatMap Node.nodes) = Node.unnamed (nodesAt vs)) :
    Met n (⟨place, n⟩ :: vs) := by
  unfold Met
  have hn : nodesAt (⟨place, n⟩ :: vs) = n :: nodesAt vs := rfl
  rw [Node.nodes_eq, hn, Node.unnamed_cons, h, ← Node.unnamed_cons]

theorem met_of_all {place inner : Place} (hv : visits place n = ⟨place, n⟩ :: visitsAll inner n.children)
    (h : ∀ c ∈ n.children, Met c (visits inner c)) : Met n (visits place n) := by
  rw [hv]
  exact met_cons (met_all h)

theorem met_of_single {place inner : Place} (hc : n.children = [c])
    (hv : visits place n = ⟨place, n⟩ :: visits inner c) (h : Met c (visits inner c)) :
    Met n (visits place n) := by
  rw [hv]
  apply met_cons
  rw [hc, List.flatMap_cons, List.flatMap_nil, List.append_nil]
  exact h

/-- A node whose first child is a name that is not met. -/
theorem met_of_name {place : Place} (hc : n.children = [c]) (hk : c.kind = .identifier)
    (hn : n.NoSurplus) (hv : visits place n = [⟨place, n⟩]) : Met n (visits place n) := by
  rw [hv]
  apply met_cons
  rw [hc, List.flatMap_cons, List.flatMap_nil, List.append_nil]
  exact Node.unnamed_identifier hk (hn.child (by simp [hc]))

/-- A node whose first child is met in one sort of place and the others in another. -/
theorem met_of_test {place first inner : Place} (hc : n.children = c :: rest)
    (hv : visits place n = ⟨place, n⟩ :: (visits first c ++ visitsAll inner rest))
    (htest : Met c (visits first c)) (hrest : ∀ d ∈ rest, Met d (visits inner d)) :
    Met n (visits place n) := by
  have hnodes : nodesAt (visits first c ++ visitsAll inner rest) =
      nodesAt (visits first c) ++ nodesAt (visitsAll inner rest) := List.map_append
  rw [hv]
  apply met_cons
  rw [hc, List.flatMap_cons, Node.unnamed_append, hnodes, Node.unnamed_append, met_all hrest, htest]

/-- A node with a name that is not met and a value that is. -/
theorem met_of_named {place inner : Place} {target : Node} (hc : n.children = [target, c])
    (hk : target.kind = .identifier) (hn : n.NoSurplus)
    (hv : visits place n = ⟨place, n⟩ :: visits inner c) (h : Met c (visits inner c)) :
    Met n (visits place n) := by
  have htarget := Node.unnamed_identifier hk (hn.child (by simp [hc]))
  rw [hv]
  apply met_cons
  rw [hc, List.flatMap_cons, List.flatMap_cons, List.flatMap_nil, List.append_nil,
    Node.unnamed_append, htarget, List.nil_append]
  exact h

/-- A node of which there is nothing more to see. -/
theorem met_of_leaf {place : Place} (hn : n.NoSurplus) (hl : Node.childLimit n.kind = some 0)
    (hv : visits place n = [⟨place, n⟩]) : Met n (visits place n) := by
  have hlength := hn.self hl
  have hc : n.children = [] := List.eq_nil_of_length_eq_zero (by omega)
  rw [hv]
  apply met_cons
  rw [hc]
  rfl

theorem children_eq_single (hne : n.children ≠ []) (hl : n.children.length ≤ 1) :
    ∃ c, n.children = [c] := by
  match hc : n.children with
  | [] => exact absurd hc hne
  | [c] => exact ⟨c, rfl⟩
  | _ :: _ :: _ => simp [hc] at hl

theorem met_expression (n : Node) (hs : ∀ v ∈ visits .expression n, v.Shaped)
    (hn : n.NoSurplus) : Met n (visits .expression n) := by
  induction n using Node.childInduction with
  | step n ih =>
    have hself := hs _ (mem_visits_self .expression n)
    have hall (hv : visits .expression n = ⟨.expression, n⟩ :: visitsAll .expression n.children) :
        Met n (visits .expression n) := by
      refine met_of_all hv fun c hc => ih c hc (fun v hvc => hs v ?_) (hn.child hc)
      rw [hv]
      exact List.mem_cons_of_mem _ (List.mem_flatMap.mpr ⟨c, hc, hvc⟩)
    have hone {c : Node} (hc : n.children = [c])
        (hv : visits .expression n = ⟨.expression, n⟩ :: visits .expression c) :
        Met n (visits .expression n) := by
      have hmem : c ∈ n.children := by simp [hc]
      refine met_of_single hc hv (ih c hmem (fun v hvc => hs v ?_) (hn.child hmem))
      rw [hv]
      exact List.mem_cons_of_mem _ hvc
    cases hk : n.kind with
    | expr | notExpr | unaExpr =>
      have hne : n.children ≠ [] := by
        intro he
        simp [Visit.Shaped, hk, he] at hself
      obtain ⟨c, hc⟩ := children_eq_single hne (hn.self (by rw [hk]; rfl))
      exact hone hc (visits_first (by simp [hk]) hc)
    | genValue =>
      have hne : n.children ≠ [] := by
        intro he
        simp [Visit.Shaped, hk, he] at hself
      obtain ⟨c, hc⟩ := children_eq_single hne (hn.self (by rw [hk]; rfl))
      by_cases hi : c.kind = .identifier
      · exact met_of_name hc hi hn (visits_read hk hc hi)
      · exact hone hc (visits_value hk hc hi)
    | compExpr | addExpr | mulExpr | boolExpr => exact hall (visits_layer (by simp [hk]))
    | boolValue | intValue =>
      exact met_of_leaf hn (by rw [hk]; rfl) (visits_of_none fun i kind => by rw [hk]; rfl)
    | _ => simp [Visit.Shaped, hk] at hself

/-- An expression in the place of a statement. -/
theorem met_of_expression (context : Option Ty) (hx : n.kind.isExpression = true)
    (hs : ∀ v ∈ visits (.statement context) n, v.Shaped) (hn : n.NoSurplus) :
    Met n (visits (.statement context) n) := by
  have hself := hs _ (mem_visits_self (.statement context) n)
  have hv := visits_statement_of_expression context hx
  have hve := visits_eq .expression n
  have hm : Met n (visits .expression n) := by
    refine met_expression n (fun v hvn => ?_) hn
    rw [hve, List.mem_cons] at hvn
    rcases hvn with rfl | hvn
    · rwa [← shaped_statement_of_expression context hx]
    · exact hs v (by rw [hv, hve, List.tail_cons]; exact List.mem_cons_of_mem _ hvn)
  rw [hv]
  unfold Met at hm ⊢
  rw [hm, hve]
  rfl

theorem met_statement (context : Option Ty) (n : Node)
    (hs : ∀ v ∈ visits (.statement context) n, v.Shaped) (hn : n.NoSurplus) :
    Met n (visits (.statement context) n) := by
  induction n using Node.childInduction generalizing context with
  | step n ih =>
    have hself := hs _ (mem_visits_self (.statement context) n)
    have hall {inner : Option Ty} (hv : visits (.statement context) n =
        ⟨.statement context, n⟩ :: visitsAll (.statement inner) n.children) :
        Met n (visits (.statement context) n) := by
      refine met_of_all hv fun c hc => ih c hc inner (fun v hvc => hs v ?_) (hn.child hc)
      rw [hv]
      exact List.mem_cons_of_mem _ (List.mem_flatMap.mpr ⟨c, hc, hvc⟩)
    cases hk : n.kind with
    | program | block | stmt | functionBlock => exact hall (visits_group context (by simp [hk]))
    | functionStmt => exact hall (visits_function context hk)
    | declaration =>
      simp only [Visit.Shaped, hk] at hself
      obtain ⟨name, ht⟩ := Option.isSome_iff_exists.mp hself.2
      obtain ⟨c, rest, hr, hm⟩ := Node.target?_eq_some ht
      have hl : n.children.length ≤ 1 := hn.self (by rw [hk]; rfl)
      rw [hr, List.length_cons] at hl
      have hnil : rest = [] := List.eq_nil_of_length_eq_zero (by omega)
      exact met_of_name (hnil ▸ hr) (Node.kind_of_name? hm) hn
        (visits_of_none fun i kind => by rw [hk]; rfl)
    | ifStmt | whileStmt =>
      obtain ⟨test, rest, hr⟩ : ∃ test rest, n.children = test :: rest := by
        cases hc : n.children with
        | nil => simp [Visit.Shaped, hk, hc] at hself
        | cons test rest => exact ⟨test, rest, rfl⟩
      have hv := visits_conditional context (by simp [hk]) hr
      rw [hv] at hs
      have htest : Met test (visits .expression test) :=
        met_expression test (fun v hvt => hs v (by simp [hvt])) (hn.child (by simp [hr]))
      refine met_of_test hr hv htest fun c hc => ?_
      have hmem : c ∈ n.children := by simp [hr, hc]
      refine ih c hmem context (fun v hvc => hs v ?_) (hn.child hmem)
      simp only [List.mem_cons, List.mem_append]
      exact .inr (.inr (List.mem_flatMap.mpr ⟨c, hc, hvc⟩))
    | returnStmt =>
      have hne : n.children ≠ [] := by
        intro he
        simp [Visit.Shaped, hk, he] at hself
      obtain ⟨c, hc⟩ := children_eq_single hne (hn.self (by rw [hk]; rfl))
      have hv := visits_return context hk hc
      rw [hv] at hs
      exact met_of_single hc hv
        (met_expression c (fun v hvc => hs v (by simp [hvc])) (hn.child (by simp [hc])))
    | assignStmt =>
      simp only [Visit.Shaped, hk] at hself
      obtain ⟨name, ht⟩ := Option.isSome_iff_exists.mp hself.1
      obtain ⟨target, rest, hr, hm⟩ := Node.target?_eq_some ht
      have hl : n.children.length ≤ 2 := hn.self (by rw [hk]; rfl)
      obtain ⟨c, hc⟩ : ∃ c, n.children = [target, c] := by
        rcases rest with _ | ⟨c, _ | ⟨next, rest⟩⟩
        · simp [hr] at hself
        · exact ⟨c, hr⟩
        · simp [hr] at hl
      have hv := visits_assign context hk hc
      rw [hv] at hs
      have hvalue : Met c (visits .expression c) :=
        met_expression c (fun v hvc => hs v (by simp [hvc])) (hn.child (by simp [hc]))
      exact met_of_named hc (Node.kind_of_name? hm) hn hv hvalue
    | identifier =>
      exact met_of_leaf hn (by rw [hk]; rfl) (visits_of_none fun i kind => by rw [hk]; rfl)
    | _ => exact met_of_expression context (by rw [hk]; rfl) hs hn

end Positions

/-- The declarations of a list, in order. -/
def declarations (list : List Node) : List Node := list.filter (·.kind = .declaration)

section Shapes

variable {v : Visit} {vs : List Visit}

/-- A position of the right shape counts for what its node counts for. -/
theorem counts_of_shaped (h : v.Shaped) (counter : Counter) :
    v.counts counter = v.node.counts counter := by
  obtain ⟨place, node⟩ := v
  cases place with
  | statement context => rfl
  | expression =>
    cases hk : node.kind <;> simp [Visit.Shaped, hk] at h <;> cases counter <;>
      simp [Visit.counts, Node.counts, hk]

theorem declares_of_shaped (h : v.Shaped) : v.declares = decide (v.node.kind = .declaration) := by
  obtain ⟨place, node⟩ := v
  cases place with
  | statement context => simp [Visit.declares]
  | expression =>
    cases hk : node.kind <;> simp [Visit.Shaped, hk] at h <;> simp [Visit.declares]

theorem costOf_eq_tally (h : ∀ v ∈ vs, v.Shaped) (counter : Counter) :
    Check.costOf vs counter = Node.tally (nodesAt vs) counter := by
  rw [Check.costOf, Node.tally, nodesAt, List.countP_map]
  exact List.countP_congr fun v hv => by simp [counts_of_shaped (h v hv)]

/-- Whatever the shapes, positions count for no more than their nodes. -/
theorem costOf_le_tally (vs : List Visit) (counter : Counter) :
    Check.costOf vs counter ≤ Node.tally (nodesAt vs) counter := by
  rw [Check.costOf, Node.tally, nodesAt, List.countP_map]
  refine List.countP_mono_left fun v _ hv => ?_
  unfold Visit.counts at hv
  split at hv
  · exact hv
  · simp only [Bool.and_eq_true, decide_eq_true_eq] at hv
    obtain ⟨rfl, hop⟩ := hv
    exact hop

theorem entriesOf_eq (h : ∀ v ∈ vs, v.Shaped) :
    Check.entriesOf vs = (declarations (nodesAt vs)).map Node.symbol? := by
  have hf : vs.filter Visit.declares = vs.filter fun v => decide (v.node.kind = .declaration) :=
    List.filter_congr fun v hv => declares_of_shaped (h v hv)
  rw [Check.entriesOf, hf, declarations, nodesAt, List.filter_map, List.map_map]
  rfl

end Shapes

/-- A run that succeeds has gone through the whole tree. -/
theorem analyzeAlone_ok {logger : Logger} {traceTypes : Bool} {p : Node} {analysis : Analysis}
    (h : (analyzeAlone logger traceTypes p).outcome = .ok analysis) :
    ∃ t, Check.visit none p {} = .ok () t ∧ analysis = ⟨t.usage, t.scope.entries⟩ := by
  unfold analyzeAlone Analyzer.analyze at h
  simp only [Bool.false_eq_true, if_false] at h
  split at h
  · cases h
  · cases hv : Check.visit none p {} with
    | ok value t =>
      rw [hv] at h
      cases h
      exact ⟨t, rfl, rfl⟩
    | error finding t =>
      rw [hv] at h
      cases h

/-- The declarations of a tree without spare children are those at its positions. -/
theorem declarations_of_met {n : Node} {vs : List Visit} (h : Met n vs) :
    declarations n.nodes = declarations (nodesAt vs) := by
  have hun (list : List Node) : declarations (Node.unnamed list) = declarations list := by
    rw [declarations, declarations, Node.unnamed, List.filter_filter]
    refine List.filter_congr fun m _ => ?_
    cases hk : m.kind <;> simp
  rw [← hun, h, hun]

/-- A success, over the positions of the tree. -/
theorem visit_ok_counts {context : Option Ty} {n : Node} {s t : State}
    (h : Check.visit context n s = .ok () t) :
    (∃ added, t.scope.symbols = s.scope.symbols ++ added ∧ added.map some =
      (declarations (nodesAt (visits (.statement context) n))).map Node.symbol?) ∧
    ∀ k, t.usage.get k =
      s.usage.get k + Node.tally (nodesAt (visits (.statement context) n)) k := by
  have hreached := (Check.visit_covers context n).ok h
  have hshaped := Check.visit_ok_shaped h
  constructor
  · obtain ⟨kept, added, hsplit, hkept, hadded⟩ := List.map_eq_append_iff.mp hreached.symbols
    have hsome : kept = s.scope.symbols :=
      (List.map_inj_right fun _ _ heq => Option.some.inj heq).mp hkept
    refine ⟨added, by rw [hsplit, hsome], ?_⟩
    rw [hadded, entriesOf_eq hshaped]
  · intro k
    rw [hreached.usage k, costOf_eq_tally hshaped]

theorem tally_of_met {n : Node} {vs : List Visit} (h : Met n vs) (k : Counter) :
    Node.tally n.nodes k = Node.tally (nodesAt vs) k := by
  rw [← Node.tally_unnamed, h, Node.tally_unnamed]

/-- A check that succeeds adds one entry for each declaration that it meets, in preorder, and moves
each counter by the number of nodes that it counts. A check that fails has moved no counter
further. The counters of an accepted program without spare children are counts over all its
nodes. -/
theorem visit_counts_exactly :
    (∀ (context : Option Ty) (n : Node) (s t : State), Check.visit context n s = .ok () t →
      (∃ added, t.scope.symbols = s.scope.symbols ++ added ∧ added.map some =
        (declarations (nodesAt (visits (.statement context) n))).map Node.symbol?) ∧
      ∀ k, t.usage.get k =
        s.usage.get k + Node.tally (nodesAt (visits (.statement context) n)) k) ∧
    (∀ (context : Option Ty) (n : Node) (s t : State) (f : Finding),
      Check.visit context n s = .error f t → ∀ k, s.usage.get k ≤ t.usage.get k ∧
        t.usage.get k ≤ s.usage.get k + Node.tally (nodesAt (visits (.statement context) n)) k) ∧
    (∀ (logger : Logger) (traceTypes : Bool) (p : Node) (analysis : Analysis),
      (analyzeAlone logger traceTypes p).outcome = .ok analysis → p.NoSurplus →
      (∀ k, analysis.usage.get k = Node.tally p.nodes k) ∧
      ∃ added : List Symbol, added.map some = (declarations p.nodes).map Node.symbol? ∧
        analysis.symbols = added.map fun symbol => (symbol.name, symbol.type)) := by
  refine ⟨fun context n s t h => ?_, fun context n s t f h k => ?_,
    fun logger traceTypes p analysis h hp => ?_⟩
  · exact visit_ok_counts h
  · have hstopped := (Check.visit_covers context n).error h
    have hle := costOf_le_tally (visits (.statement context) n) k
    have hk := hstopped.usage k
    omega
  · obtain ⟨t, ht, rfl⟩ := analyzeAlone_ok h
    obtain ⟨⟨added, hsymbols, hadded⟩, husage⟩ := visit_ok_counts ht
    have hmet := met_statement none p (Check.visit_ok_shaped ht) hp
    refine ⟨fun k => ?_, added, ?_, ?_⟩
    · rw [husage k, tally_of_met hmet]
      cases k <;> simp [Usage.get]
    · rw [hadded, declarations_of_met hmet]
    · simp [Scope.entries, hsymbols]

/-- A name is set to a sum under two signs: one layer passes its operand through and counts for
nothing, the sum, the signs and the negation count for one each. A second declaration of the name
stops the check, with the first one counted. -/
theorem visit_counts_sample :
    let sum := Node.addExpr [Node.mulExpr [Node.reference "a"] [], Node.intValue 1] ["+"]
    let sets := Node.assignStmt "a" (Node.unaExpr sum 2)
    let guarded := Node.ifStmt (Node.notExpr (Node.boolValue true) 2) [sets]
    let p := Node.program [Node.declaration "num" "a", guarded]
    let twice := Node.program [p, Node.declaration "bool" "a"]
    (∃ t, Check.visit none p {} = .ok () t ∧ t.usage.get .op = 0 + 3) ∧
    (∃ f t, Check.visit none twice {} = .error f t ∧ t.usage.get .var ≤ 0 + 2) ∧
    p.NoSurplus ∧ ∃ analysis,
      (analyzeAlone { component := "analyzer" } false p).outcome = .ok analysis ∧
      analysis.usage.get .op = 3 := by
  intro sum sets guarded p twice
  have hp : p.NoSurplus := by
    unfold Node.NoSurplus
    decide
  obtain ⟨t, ht⟩ : ∃ t, Check.visit none p {} = .ok () t := ⟨_, rfl⟩
  obtain ⟨f, u, hu⟩ : ∃ f u, Check.visit none twice {} = .error f u := ⟨_, _, rfl⟩
  obtain ⟨analysis, ha⟩ : ∃ analysis,
    (analyzeAlone { component := "analyzer" } false p).outcome = .ok analysis := ⟨_, rfl⟩
  exact ⟨⟨t, ht, (visit_counts_exactly.1 none p {} t ht).2 .op⟩,
    ⟨f, u, hu, (visit_counts_exactly.2.1 none twice {} u f hu .var).2⟩, hp, analysis, ha,
    (visit_counts_exactly.2.2 _ false p analysis ha hp).1 .op⟩

end TreeCheck
