import TreeCheck.Proofs.Document.Parse
import TreeCheck.Proofs.Json.Print
import TreeCheck.Proofs.Tree.Nodes

namespace TreeCheck

section Located

/-- A coordinate and the way to it from a value of which it is a part. -/
abbrev Located := List Step × Int

/-- The same coordinate, seen from further out. -/
def Located.under (step : Step) (c : Located) : Located := (step :: c.1, c.2)

def Position.located (p : Position) : List Located :=
  [([.field "line"], p.line), ([.field "col"], p.col)]

def Span.located (s : Span) : List Located :=
  s.start.located.map (.under (.field "start")) ++ s.stop.located.map (.under (.field "end"))

namespace Node

mutual

/-- The coordinates of a tree and the ways to them, those of the children first. -/
def located : Node → List Located
  | ⟨_, children, _, _, span⟩ =>
    (locatedAll 0 children).map (.under (.field "children")) ++
      (span.elim [] Span.located).map (.under (.field "span"))

/-- The coordinates of a list of nodes, counted from an index. -/
def locatedAll (index : Nat) : List Node → List Located
  | [] => []
  | node :: rest => (located node).map (.under (.item index)) ++ locatedAll (index + 1) rest

end

theorem located_eq (n : Node) :
    n.located = (locatedAll 0 n.children).map (.under (.field "children")) ++
      (n.span.elim [] Span.located).map (.under (.field "span")) := by
  obtain ⟨kind, children, value, ops, span⟩ := n
  rw [located]

end Node

/-- The violations by coordinates below zero, one for each. -/
def belowZero (cs : List Located) : List Violation :=
  (cs.filter (·.2 < 0)).map fun c => ⟨c.1, .minimum⟩

theorem belowZero_append (cs ds : List Located) : belowZero (cs ++ ds) = belowZero cs ++ belowZero ds := by
  rw [belowZero, List.filter_append, List.map_append]
  rfl

theorem belowZero_under (step : Step) (cs : List Located) :
    belowZero (cs.map (.under step)) = (belowZero cs).map (.under step) := by
  rw [belowZero, belowZero, List.filter_map, List.map_map, List.map_map]
  rfl

end Located

namespace Format

theorem violations_coordinate (x : Int) :
    coordinate.violations (.ofInt x) = belowZero [([], x)] := by
  by_cases hx : x < 0
  · simp [violations, Json.ofInt, unfold, broken, Number.ofInt, Number.toInt?, Number.isBelowZero,
      belowZero, hx]
  · simp [violations, Json.ofInt, unfold, broken, Number.ofInt, Number.toInt?, Number.isBelowZero,
      belowZero, hx]

theorem violations_pair {first second : Text} (hne : first ≠ second) (format : Format)
    (swapped : Bool) (a b : Json) :
    (object [first, second] [(first, format), (second, format)]).violations
        (.pair swapped (first, a) (second, b)) =
      (format.violations a).map (.under (.field first)) ++
        (format.violations b).map (.under (.field second)) := by
  have hforth : (first == second) = false := beq_eq_false_iff_ne.mpr hne
  have hback : (second == first) = false := beq_eq_false_iff_ne.mpr (Ne.symm hne)
  have hdeclared : (Record.names [(first, format), (second, format)]).Nodup := by
    simpa [Record.names] using hne
  rw [Json.pair, violations_fields rfl hdeclared]
  · cases swapped <;> simp [partOf, List.lookup_cons, hforth, hback]
  · cases swapped <;> simp [List.lookup_cons, hforth, hback]
  · cases swapped <;> simp [List.lookup_cons, hback]

theorem violations_position (p : Position) : position.violations p.toJson = belowZero p.located := by
  rw [position, Position.toJson, violations_pair (by decide), violations_coordinate,
    violations_coordinate, ← belowZero_under, ← belowZero_under, ← belowZero_append]
  rfl

theorem violations_span (s : Span) : span.violations s.toJson = belowZero s.located := by
  rw [span, Span.toJson, violations_pair (by decide), violations_position, violations_position,
    ← belowZero_under, ← belowZero_under, ← belowZero_append]
  rfl

end Format

namespace Document

section Fields

variable {name : Text} {given : Option Json}

theorem lookup_optionalField (other : Text) :
    (optionalField name given).lookup other = if other = name then given else none := by
  cases given with
  | none => simp [optionalField]
  | some value =>
    by_cases h : other = name
    · rw [if_pos h, h]
      exact List.lookup_cons_self
    · rw [if_neg h]
      exact Record.lookup_cons_of_ne h

theorem mem_optionalField {field : Text × Json} :
    field ∈ optionalField name given ↔ field.1 = name ∧ given = some field.2 := by
  obtain ⟨key, value⟩ := field
  cases given with
  | none => simp [optionalField]
  | some found => simp [optionalField, eq_comm]

theorem names_optionalField : (Record.names (optionalField name given)).Sublist [name] := by
  cases given with
  | none => exact List.nil_sublist _
  | some value => exact List.Sublist.refl _

end Fields

/-- The children as a field, left out if there are none. -/
def childrenJson (n : Node) : Option Json :=
  if n.children = [] then none else some (.arr (n.children.map nodeJson))

/-- The fields of a node, in the order in which they are written. -/
def nodeRecord (n : Node) : Record Json :=
  ("kind", .str n.kind.name) :: (
    optionalField "value" (n.value.map .str) ++
    optionalField "ops" (n.ops.map fun ops => .arr (ops.map .str)) ++
    optionalField "children" (childrenJson n) ++ optionalField "span" (n.span.map Span.toJson))

theorem nodesJson_eq (nodes : List Node) : nodesJson nodes = nodes.map nodeJson := by
  induction nodes with
  | nil => rfl
  | cons node rest ih => rw [nodesJson, ih, List.map_cons]

theorem nodeJson_eq (n : Node) : nodeJson n = .obj (nodeRecord n) := by
  obtain ⟨kind, children, value, ops, span⟩ := n
  cases children with
  | nil => rfl
  | cons child rest =>
    rw [nodeJson, nodesJson_eq]
    rfl

theorem names_nodeRecord (n : Node) :
    (nodeRecord n).names.Sublist ["kind", "value", "ops", "children", "span"] := by
  rw [nodeRecord, Record.names, List.map_cons, List.map_append, List.map_append, List.map_append]
  exact .cons_cons _
    (((names_optionalField.append names_optionalField).append names_optionalField).append
      names_optionalField)

theorem lookup_nodeRecord (n : Node) (name : Text) :
    (nodeRecord n).lookup name =
      if name = "kind" then some (.str n.kind.name)
      else if name = "value" then n.value.map .str
      else if name = "ops" then n.ops.map fun ops => .arr (ops.map .str)
      else if name = "children" then childrenJson n
      else if name = "span" then n.span.map Span.toJson
      else none := by
  by_cases hkind : name = "kind"
  · rw [if_pos hkind, hkind, nodeRecord, List.lookup_cons_self]
  · rw [if_neg hkind, nodeRecord, Record.lookup_cons_of_ne hkind]
    simp only [List.lookup_append, lookup_optionalField]
    grind

theorem childrenJson_cases (n : Node) :
    childrenJson n = some (.arr (n.children.map nodeJson)) ∨
      childrenJson n = none ∧ n.children.map nodeJson = [] := by
  rw [childrenJson]
  split
  · next h => exact .inr ⟨rfl, by rw [h, List.map_nil]⟩
  · exact .inl rfl

theorem describes_nodeJson (n : Node) : Describes (nodeJson n) n := by
  induction n using Node.childInduction with
  | step n ih =>
    have hchildren : ∀ pair ∈ (n.children.map nodeJson).zip n.children, Describes pair.1 pair.2 := by
      intro pair hp
      rw [List.zip_eq_zipWith, List.zipWith_map_left, List.zipWith_self] at hp
      obtain ⟨child, hchild, rfl⟩ := List.mem_map.mp hp
      exact ih child hchild
    rw [nodeJson_eq]
    exact .mk (n.children.map nodeJson) (lookup_nodeRecord n "kind") (lookup_nodeRecord n "value")
      (lookup_nodeRecord n "ops") (lookup_nodeRecord n "span")
      (lookup_nodeRecord n "children" ▸ childrenJson_cases n) (List.length_map _) hchildren

section Violations

theorem itemViolations_nodes {nodes : List Node}
    (h : ∀ n ∈ nodes, Format.node.violations (nodeJson n) = belowZero n.located) (index : Nat) :
    Format.itemViolations .node index (nodes.map nodeJson) =
      belowZero (Node.locatedAll index nodes) := by
  induction nodes generalizing index with
  | nil => rfl
  | cons n rest ih =>
    have hn := h n List.mem_cons_self
    have hrest := ih (fun m hm => h m (List.mem_cons_of_mem n hm)) (index + 1)
    rw [List.map_cons, Format.itemViolations, hn, hrest, Node.locatedAll, belowZero_append,
      belowZero_under]

theorem isSome_lookup_nodeFields {n : Node} {field : Text × Json} (hf : field ∈ nodeRecord n) :
    (Format.nodeFields.lookup field.1).isSome := by
  have hname := (names_nodeRecord n).subset (List.mem_map_of_mem hf)
  simp only [List.mem_cons, List.not_mem_nil, or_false] at hname
  rcases hname with h | h | h | h | h <;> rw [h] <;> rfl

section Parts

variable (n : Node)

theorem partOf_kind : Format.partOf .kind "kind" ((nodeRecord n).lookup ↑"kind") = [] := by
  refine Format.partOf_eq_nil fun value hv => ?_
  rw [lookup_nodeRecord] at hv
  obtain rfl := Option.some.inj hv
  exact .kind n.kind

theorem partOf_value : Format.partOf .string "value" ((nodeRecord n).lookup ↑"value") = [] := by
  refine Format.partOf_eq_nil fun value hv => ?_
  rw [lookup_nodeRecord] at hv
  obtain ⟨s, _, rfl⟩ := Option.map_eq_some_iff.mp hv
  exact .string s

theorem partOf_ops : Format.partOf (.list .string) "ops" ((nodeRecord n).lookup ↑"ops") = [] := by
  refine Format.partOf_eq_nil fun value hv => ?_
  rw [lookup_nodeRecord] at hv
  obtain ⟨ops, _, rfl⟩ := Option.map_eq_some_iff.mp hv
  refine .list fun part hp => ?_
  obtain ⟨s, _, rfl⟩ := List.mem_map.mp hp
  exact .string s

theorem partOf_children
    (h : ∀ c ∈ n.children, Format.node.violations (nodeJson c) = belowZero c.located) :
    Format.partOf (.list .node) "children" ((nodeRecord n).lookup ↑"children") =
      belowZero ((Node.locatedAll 0 n.children).map (.under (.field "children"))) := by
  have hfound : (nodeRecord n).lookup ↑"children" = childrenJson n := lookup_nodeRecord n "children"
  rw [hfound, belowZero_under, ← itemViolations_nodes h 0]
  rcases childrenJson_cases n with hc | ⟨hc, hnil⟩
  · rw [hc]
    rfl
  · rw [hc, hnil]
    rfl

theorem partOf_span : Format.partOf .span "span" ((nodeRecord n).lookup ↑"span") =
    belowZero ((n.span.elim [] Span.located).map (.under (.field "span"))) := by
  have hfound : (nodeRecord n).lookup ↑"span" = n.span.map Span.toJson := lookup_nodeRecord n "span"
  rw [hfound, belowZero_under]
  cases n.span with
  | none => rfl
  | some span =>
    rw [Option.map_some, Format.partOf, Option.elim_some, Format.violations_span]
    rfl

end Parts

/-- A written node breaks the format exactly where a coordinate is negative. -/
theorem violations_nodeJson (n : Node) :
    Format.node.violations (nodeJson n) = belowZero n.located := by
  induction n using Node.childInduction with
  | step n ih =>
    have hrequired : ∀ name ∈ (["kind"] : List Text), ((nodeRecord n).lookup name).isSome := by
      simp [lookup_nodeRecord]
    rw [nodeJson_eq, Format.violations_fields rfl (by decide) hrequired
      fun field hf => isSome_lookup_nodeFields hf]
    simp only [Format.nodeFields, List.flatMap_cons, List.flatMap_nil, partOf_kind, partOf_value,
      partOf_ops, partOf_children n ih, partOf_span, List.nil_append, List.append_nil]
    rw [Node.located_eq, belowZero_append]

end Violations

section Plain

theorem plain_pair {swapped : Bool} {first second : Text} {a b : Json} (hne : first ≠ second)
    (ha : a.Plain) (hb : b.Plain) : (Json.pair swapped (first, a) (second, b)).Plain := by
  cases swapped with
  | false => exact .obj (by simpa [Record.names] using hne) (by simp [ha, hb])
  | true => exact .obj (by simpa [Record.names] using hne.symm) (by simp [ha, hb])

/-- Every coordinate is an integer that a double holds exactly, as is its neighbour. -/
def Safe (cs : List Located) : Prop := ∀ c ∈ cs, c.2.natAbs < 2 ^ 53

theorem Safe.of_under {step : Step} {cs : List Located} (h : Safe (cs.map (.under step))) : Safe cs :=
  fun c hc => h (c.under step) (List.mem_map_of_mem hc)

theorem safe_append {cs ds : List Located} : Safe (cs ++ ds) ↔ Safe cs ∧ Safe ds := by
  exact List.forall_mem_append

theorem plain_position {p : Position} (h : Safe p.located) : p.toJson.Plain := by
  have hline := h ([.field "line"], p.line) (by simp [Position.located])
  have hcol := h ([.field "col"], p.col) (by simp [Position.located])
  exact plain_pair (by decide) (.ofInt (Nat.le_of_lt hline)) (.ofInt (Nat.le_of_lt hcol))

theorem plain_span {s : Span} (h : Safe s.located) : s.toJson.Plain := by
  obtain ⟨hstart, hstop⟩ := safe_append.mp h
  exact plain_pair (by decide) (plain_position hstart.of_under) (plain_position hstop.of_under)

theorem Safe.of_mem {index : Nat} {nodes : List Node} (h : Safe (Node.locatedAll index nodes))
    {n : Node} (hn : n ∈ nodes) : Safe n.located := by
  induction nodes generalizing index with
  | nil => cases hn
  | cons first rest ih =>
    rw [Node.locatedAll, safe_append] at h
    rcases List.mem_cons.mp hn with rfl | hrest
    · exact h.1.of_under
    · exact ih h.2 hrest

theorem plain_nodeJson {n : Node} (h : Safe n.located) : (nodeJson n).Plain := by
  induction n using Node.childInduction with
  | step n ih =>
    rw [Node.located_eq, safe_append] at h
    have hchildren : ∀ child ∈ n.children, (nodeJson child).Plain :=
      fun child hc => ih child hc (h.1.of_under.of_mem hc)
    rw [nodeJson_eq]
    refine .obj ((names_nodeRecord n).nodup (by decide)) fun field hf => ?_
    simp only [nodeRecord, List.mem_cons, List.mem_append, mem_optionalField] at hf
    rcases hf with rfl | ((⟨_, hv⟩ | ⟨_, hv⟩) | ⟨_, hv⟩) | ⟨_, hv⟩
    · exact .str n.kind.name
    · obtain ⟨s, _, hs⟩ := Option.map_eq_some_iff.mp hv
      exact hs ▸ .str s
    · obtain ⟨ops, _, hs⟩ := Option.map_eq_some_iff.mp hv
      rw [← hs]
      refine .arr fun item hi => ?_
      obtain ⟨s, _, rfl⟩ := List.mem_map.mp hi
      exact .str s
    · rcases childrenJson_cases n with hc | ⟨hc, _⟩
      · rw [← Option.some.inj (hc.symm.trans hv)]
        refine .arr fun item hi => ?_
        obtain ⟨child, hchild, rfl⟩ := List.mem_map.mp hi
        exact hchildren child hchild
      · rw [hc] at hv
        cases hv
    · obtain ⟨span, hs, hspan⟩ := Option.map_eq_some_iff.mp hv
      rw [hs] at h
      exact hspan ▸ plain_span h.2.of_under

end Plain

section Metadata

/-- An object that has any of the three fields of metadata, all of them strings. -/
def IsMetadata (fields : Record Json) : Prop :=
  fields.names.Nodup ∧ ∀ field ∈ fields,
    field.1 ∈ (["generatedAt", "source", "parser"] : List Text) ∧ ∃ s, field.2 = .str s

variable {fields : Record Json}

theorem IsMetadata.plain (h : IsMetadata fields) : (Json.obj fields).Plain := by
  refine .obj h.1 fun field hf => ?_
  obtain ⟨_, s, hs⟩ := h.2 field hf
  exact hs ▸ .str s

theorem IsMetadata.accepts (h : IsMetadata fields) : Format.metadata.Accepts (.obj fields) := by
  refine .object (by simp) (fun field hf => ?_) fun name format value hd hv => ?_
  · have hname := (h.2 field hf).1
    simp only [List.mem_cons, List.not_mem_nil, or_false] at hname
    rcases hname with h | h | h <;> rw [h] <;> rfl
  · obtain ⟨_, s, rfl⟩ := h.2 (name, value) (Record.mem_of_lookup hv)
    obtain rfl : format = .string := by
      have hmem := Record.mem_of_lookup hd
      simp only [List.mem_cons, Prod.mk.injEq, List.not_mem_nil, or_false] at hmem
      rcases hmem with h | h | h <;> exact h.2
    exact .string s

end Metadata

section Documents

variable {program : Node} {metadata : Option (Record Json)}

/-- The fields of a document, in the order in which they are written. -/
def record (program : Node) (metadata : Option (Record Json)) : Record Json :=
  ("version", .str version) :: ("program", nodeJson program) ::
    optionalField "metadata" (metadata.map .obj)

theorem toJson_eq : toJson program metadata = .obj (record program metadata) := rfl

theorem names_record :
    (record program metadata).names.Sublist ["version", "program", "metadata"] :=
  .cons_cons _ (.cons_cons _ names_optionalField)

theorem lookup_metadata :
    (record program metadata).lookup ↑"metadata" = metadata.map .obj := by
  rw [record, Record.lookup_cons_of_ne (by decide), Record.lookup_cons_of_ne (by decide),
    lookup_optionalField, if_pos rfl]

/-- A written document breaks the format exactly where a coordinate is negative. -/
theorem violations_toJson (hmeta : ∀ fields ∈ metadata, IsMetadata fields) :
    Format.document.violations (toJson program metadata) =
      belowZero (program.located.map (.under (.field "program"))) := by
  have hversion : Format.partOf .string "version" (some (.str version)) = [] :=
    Format.partOf_eq_nil fun value hv => Option.some.inj hv ▸ .string version
  have hprogram : Format.partOf .node "program" (some (nodeJson program)) =
      belowZero (program.located.map (.under (.field "program"))) := by
    rw [Format.partOf, Option.elim_some, violations_nodeJson, belowZero_under]
  have hmetadata : Format.partOf .metadata "metadata" (metadata.map .obj) = [] :=
    Format.partOf_eq_nil fun value hv => by
      obtain ⟨fields, hfields, rfl⟩ := Option.map_eq_some_iff.mp hv
      exact (hmeta fields hfields).accepts
  have hclosed : ∀ field ∈ record program metadata,
      (List.lookup field.1
        [(("version" : Text), Format.string), ("program", .node), ("metadata", .metadata)]).isSome := by
    intro field hf
    have hname := names_record.subset (List.mem_map_of_mem hf)
    simp only [List.mem_cons, List.not_mem_nil, or_false] at hname
    rcases hname with h | h | h <;> rw [h] <;> rfl
  have hrequired : ∀ name ∈ (["version", "program"] : List Text),
      ((record program metadata).lookup name).isSome := by
    intro name hn
    simp only [List.mem_cons, List.not_mem_nil, or_false] at hn
    rcases hn with rfl | rfl <;> rfl
  rw [toJson_eq, Format.violations_fields rfl (by decide) hrequired hclosed]
  simp only [List.flatMap_cons, List.flatMap_nil, lookup_metadata, hmetadata, List.append_nil]
  change Format.partOf .string "version" (some (.str version)) ++
    Format.partOf .node "program" (some (nodeJson program)) = _
  rw [hversion, hprogram, List.nil_append]

theorem plain_toJson (hsafe : Safe program.located)
    (hmeta : ∀ fields ∈ metadata, IsMetadata fields) : (toJson program metadata).Plain := by
  refine .obj (names_record.nodup (by decide)) fun field hf => ?_
  simp only [List.mem_cons, mem_optionalField] at hf
  rcases hf with rfl | rfl | ⟨_, hv⟩
  · exact .str version
  · exact plain_nodeJson hsafe
  · obtain ⟨fields, hfields, hobj⟩ := Option.map_eq_some_iff.mp hv
    exact hobj ▸ (hmeta fields hfields).plain

/-- What is written is read as the value that was written. -/
theorem parse_render_eq (refusal : Text → Text) (hsafe : Safe program.located)
    (hmeta : ∀ fields ∈ metadata, IsMetadata fields) :
    parse refusal (render program metadata) = ofJson (toJson program metadata) :=
  parse_denoted ((plain_toJson hsafe hmeta).denotes Json.Layout.indented_blank 0)

theorem ofJson_toJson (hmeta : ∀ fields ∈ metadata, IsMetadata fields)
    (h : belowZero program.located = []) :
    ofJson (toJson program metadata) =
      if program.kind ≠ .program then .error [.rootKind program.kind] else .ok program := by
  have haccepts : Format.document.Accepts (toJson program metadata) := by
    rw [← Format.violations_eq_nil, violations_toJson hmeta, belowZero_under, h, List.map_nil]
  rw [ofJson_accepted haccepts rfl rfl (describes_nodeJson program), if_neg (by simp)]

theorem belowZero_eq_nil {cs : List Located} : belowZero cs = [] ↔ cs.filter (·.2 < 0) = [] :=
  List.map_eq_nil_iff

/-- What is reported of a coordinate of the program below zero. -/
theorem message_below (path : List Step) :
    (Problem.violation ⟨.field "program" :: path, .minimum⟩).message =
      "Invalid AST JSON: /program" ++ Text.join (path.map Step.text) ++ " must be >= 0" := by
  have hstart : Text.ofString "Invalid AST JSON: /program" =
      "Invalid AST JSON: " ++ ("/" ++ "program") := by decide +kernel
  have hend : Text.ofString " must be >= 0" = " " ++ "must be >= 0" := by decide +kernel
  have htext : (Violation.mk (.field "program" :: path) .minimum).text =
      "/" ++ "program" ++ Text.join (path.map Step.text) ++ " " ++ "must be >= 0" := by
    rw [Violation.text, List.isEmpty_cons, if_neg Bool.false_ne_true, List.map_cons, Text.join_cons]
    rfl
  rw [Problem.message, htext, hstart, hend]
  simp only [Text.append_assoc]

/-- A tree that is written and read again is the same tree, whatever the metadata, if its root is a
program and no coordinate is negative. Otherwise each negative coordinate is reported, with the way
to it, or if there is none, the kind of the root. -/
theorem parse_render (refusal : Text → Text) (program : Node) (metadata : Option (Record Json))
    (hsafe : Safe program.located) (hmeta : ∀ fields ∈ metadata, IsMetadata fields) :
    let negative := program.located.filter (·.2 < 0)
    (negative = [] → program.kind = .program →
      parse refusal (render program metadata) = .ok program) ∧
    (negative ≠ [] → ∃ problems, parse refusal (render program metadata) = .error problems ∧
      problems.map (fun p => (p.diagnostic.code.text, p.diagnostic.message)) =
        negative.map fun c => ("J001",
          "Invalid AST JSON: /program" ++ Text.join (c.1.map Step.text) ++ " must be >= 0")) ∧
    (negative = [] → program.kind ≠ .program →
      ∃ p, parse refusal (render program metadata) = .error [p] ∧
      p.diagnostic.code.text = "J001" ∧ p.diagnostic.message =
        "Invalid AST JSON: root node must be Program, found " ++ program.kind.name) := by
  intro negative
  rw [parse_render_eq refusal hsafe hmeta]
  refine ⟨fun hnone hkind => ?_, fun hsome => ?_, fun hnone hkind => ?_⟩
  · rw [ofJson_toJson hmeta (belowZero_eq_nil.mpr hnone), if_neg (not_not_intro hkind)]
  · have hbelow : Format.document.violations (toJson program metadata) =
        (belowZero program.located).map (.under (.field "program")) := by
      rw [violations_toJson hmeta, belowZero_under]
    have hne : Format.document.violations (toJson program metadata) ≠ [] := by
      rw [hbelow, Ne, List.map_eq_nil_iff, belowZero_eq_nil]
      exact hsome
    refine ⟨_, ofJson_violations hne, ?_⟩
    rw [hbelow, belowZero, List.map_map, List.map_map, List.map_map]
    refine List.map_congr_left fun c _ => ?_
    exact Prod.ext rfl (message_below c.1)
  · refine ⟨.rootKind program.kind, ?_, rfl, rfl⟩
    rw [ofJson_toJson hmeta (belowZero_eq_nil.mpr hnone), if_pos hkind]

/-- A tree with escapes and characters outside the first plane in its texts, an empty text beside an
absent one and an empty list of operators, and the same tree with a position before the first line. -/
def sampleTree (line : Int) : Node :=
  ⟨.program, [⟨.stmt, [], some "\"\n\u0001\\😀", some [], none⟩,
    ⟨.identifier, [], some "", some ["-", "é"], some ⟨⟨line, 0, true⟩, ⟨2 ^ 53 - 1, 7, false⟩, true⟩⟩],
    none, none, none⟩

def sampleMetadata : Record Json := [("parser", .str "\t"), ("source", .str "")]

theorem parse_render_sample :
    parse id (render (sampleTree 3) (some sampleMetadata)) = .ok (sampleTree 3) ∧
      ∃ problems, parse id (render (sampleTree (-3)) none) = .error problems ∧
        problems.map (fun p => (p.diagnostic.code.text, p.diagnostic.message)) =
          [("J001", ↑"Invalid AST JSON: /program/children/1/span/start/line must be >= 0")] := by
  have hmeta : ∀ fields ∈ some sampleMetadata, IsMetadata fields := by
    intro fields hf
    obtain rfl := Option.some.inj hf
    exact ⟨by decide, by simp [sampleMetadata]⟩
  have hkept := parse_render id (sampleTree 3) (some sampleMetadata) (by unfold Safe; decide) hmeta
  have hrefused := parse_render id (sampleTree (-3)) none (by unfold Safe; decide) nofun
  refine ⟨hkept.1 (by decide) rfl, ?_⟩
  obtain ⟨problems, hproblems, htexts⟩ := hrefused.2.1 (by decide)
  refine ⟨problems, hproblems, htexts.trans ?_⟩
  decide +kernel

end Documents

end Document

end TreeCheck
