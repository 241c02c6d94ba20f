import TreeCheck.Document.Reader
import TreeCheck.Document.Writer
import TreeCheck.Proofs.Document.Conform

namespace TreeCheck

namespace Document

/-- The object describes the node: each field is present exactly if the node has it, and then holds
what the node has. Children may be left out if there are none. -/
inductive Describes : Json → Node → Prop where
  | mk {fields : Record Json} {n : Node} (items : List Json) :
    fields.lookup ↑"kind" = some (.str n.kind.name) →
    fields.lookup ↑"value" = n.value.map .str →
    fields.lookup ↑"ops" = n.ops.map (fun ops => .arr (ops.map .str)) →
    fields.lookup ↑"span" = n.span.map Span.toJson →
    (fields.lookup ↑"children" = some (.arr items) ∨ fields.lookup ↑"children" = none ∧ items = []) →
    items.length = n.children.length →
    (∀ pair ∈ items.zip n.children, Describes pair.1 pair.2) →
    Describes (.obj fields) n

end Document

section Spans

theorem Position.ofJson?_toJson (p : Position) : Position.ofJson? p.toJson = some p := by
  obtain ⟨line, col, colFirst⟩ := p
  cases colFirst <;> rfl

theorem Span.ofJson?_toJson (s : Span) : Span.ofJson? s.toJson = some s := by
  obtain ⟨start, stop, stopFirst⟩ := s
  cases stopFirst <;> simp [Span.ofJson?, Span.toJson, Json.pair, Json.field?, Json.fields,
    Json.leadsWith, Position.ofJson?_toJson, List.lookup_cons]

/-- A closed object with two distinct names and no others is a pair, in one order or the other. -/
theorem eq_pair {first second : Text} {a b : Json} {fields : Record Json}
    (hnames : fields.names.Nodup) (hclosed : ∀ field ∈ fields, field.1 = first ∨ field.1 = second)
    (hne : first ≠ second) (ha : fields.lookup first = some a) (hb : fields.lookup second = some b) :
    ∃ swapped, .obj fields = Json.pair swapped (first, a) (second, b) := by
  rcases fields with _ | ⟨⟨k, u⟩, _ | ⟨⟨l, v⟩, _ | ⟨⟨m, w⟩, rest⟩⟩⟩
  · cases ha
  · grind
  · have hk := hclosed (k, u) (by simp)
    have hl := hclosed (l, v) (by simp)
    have hkl : k ≠ l := by simpa [Record.names] using hnames
    rcases hk with rfl | rfl
    · obtain rfl : l = second := hl.resolve_left (Ne.symm hkl)
      rw [Record.lookup_cons_of_ne (Ne.symm hkl)] at hb
      rw [List.lookup_cons_self] at ha hb
      exact ⟨false, by rw [Option.some.inj ha, Option.some.inj hb]; rfl⟩
    · obtain rfl : l = first := hl.resolve_right (Ne.symm hkl)
      rw [Record.lookup_cons_of_ne (Ne.symm hkl)] at ha
      rw [List.lookup_cons_self] at ha hb
      exact ⟨true, by rw [Option.some.inj ha, Option.some.inj hb]; rfl⟩
  · have hk := hclosed (k, u) (by simp)
    have hl := hclosed (l, v) (by simp)
    have hm := hclosed (m, w) (by simp)
    simp only [Record.names, List.map_cons, List.nodup_cons, List.mem_cons, not_or] at hnames
    grind

theorem Format.accepts_coordinate {value : Json} (h : Format.coordinate.Accepts value) :
    ∃ n : Int, value = .ofInt n := by
  cases h with
  | coordinate n => exact ⟨n, rfl⟩

/-- An object of the format with exactly two fields, both required. -/
theorem Format.accepts_pair {first second : Text} {format : Format} {value : Json}
    (h : (Format.object [first, second] [(first, format), (second, format)]).Accepts value)
    (hd : value.Distinct) (hne : first ≠ second) :
    ∃ swapped a b, value = Json.pair swapped (first, a) (second, b) ∧ format.Accepts a ∧
      format.Accepts b ∧ a.Distinct ∧ b.Distinct := by
  cases h with
  | @object required declared fields hrequired hclosed hfields =>
    obtain ⟨a, ha⟩ := Option.isSome_iff_exists.mp (hrequired first (by simp))
    obtain ⟨b, hb⟩ := Option.isSome_iff_exists.mp (hrequired second (by simp))
    have hnames : ∀ field ∈ fields, field.1 = first ∨ field.1 = second := by
      intro field hf
      obtain ⟨part, hpart⟩ := Option.isSome_iff_exists.mp (hclosed field hf)
      have hmem := Record.mem_of_lookup hpart
      simp only [List.mem_cons, Prod.mk.injEq, List.not_mem_nil, or_false] at hmem
      exact hmem.imp And.left And.left
    have hfirst : List.lookup first [(first, format), (second, format)] = some format :=
      List.lookup_cons_self
    have hsecond : List.lookup second [(first, format), (second, format)] = some format := by
      rw [Record.lookup_cons_of_ne (Ne.symm hne), List.lookup_cons_self]
    have hda := hd.field ha
    have hdb := hd.field hb
    cases hd with
    | mk hnodup _ =>
      obtain ⟨swapped, heq⟩ := eq_pair hnodup hnames hne ha hb
      exact ⟨swapped, a, b, heq, hfields first format a hfirst ha, hfields second format b hsecond hb,
        hda, hdb⟩

theorem Position.exists_toJson {value : Json} (h : Format.position.Accepts value)
    (hd : value.Distinct) : ∃ p : Position, value = p.toJson := by
  obtain ⟨swapped, a, b, rfl, ha, hb, _, _⟩ := Format.accepts_pair h hd (by decide)
  obtain ⟨line, rfl⟩ := Format.accepts_coordinate ha
  obtain ⟨col, rfl⟩ := Format.accepts_coordinate hb
  exact ⟨⟨line, col, swapped⟩, rfl⟩

theorem Span.exists_toJson {value : Json} (h : Format.span.Accepts value)
    (hd : value.Distinct) : ∃ s : Span, value = s.toJson := by
  obtain ⟨swapped, a, b, rfl, ha, hb, hda, hdb⟩ := Format.accepts_pair h hd (by decide)
  obtain ⟨start, rfl⟩ := Position.exists_toJson ha hda
  obtain ⟨stop, rfl⟩ := Position.exists_toJson hb hdb
  exact ⟨⟨start, stop, swapped⟩, rfl⟩

end Spans

namespace Document

section Reads

theorem texts?_strings (ops : List Text) : texts? (.arr (ops.map .str)) = some ops := by
  change (ops.map Json.str).mapM Json.str? = some ops
  induction ops with
  | nil => rfl
  | cons op rest ih => simp [Json.str?, ih]

theorem optional_map {α : Type} {read : Json → Option α} {write : α → Json}
    (h : ∀ a, read (write a) = some a) (given : Option α) :
    optional read (given.map write) = some given := by
  cases given with
  | none => rfl
  | some a => simp [optional, h]

-- The definition is by recursion through the value, so it opens only for a known constructor.
theorem childrenOf?_cons (name : Text) (value : Json) (rest : Record Json) :
    childrenOf? ((name, value) :: rest) =
      if name = "children" then
        match value with
        | .arr items => nodes? items
        | _ => none
      else childrenOf? rest := by
  cases value <;> rfl

theorem childrenOf?_arr {fields : Record Json} {items : List Json}
    (h : fields.lookup ↑"children" = some (.arr items) ∨
      fields.lookup ↑"children" = none ∧ items = []) :
    childrenOf? fields = nodes? items := by
  induction fields with
  | nil =>
    obtain ⟨_, rfl⟩ := h.resolve_left (by simp)
    rfl
  | cons field rest ih =>
    obtain ⟨name, value⟩ := field
    by_cases hname : name = "children"
    · rw [hname, List.lookup_cons_self] at h
      obtain rfl : value = .arr items := Option.some.inj (h.resolve_right (by simp))
      rw [childrenOf?_cons, if_pos hname]
    · rw [Record.lookup_cons_of_ne (Ne.symm hname)] at h
      rw [childrenOf?_cons, if_neg hname]
      exact ih h

theorem nodes?_zip {items : List Json} {nodes : List Node} (hlen : items.length = nodes.length)
    (h : ∀ pair ∈ items.zip nodes, node? pair.1 = some pair.2) : nodes? items = some nodes := by
  induction items generalizing nodes with
  | nil =>
    obtain rfl : nodes = [] := List.eq_nil_of_length_eq_zero hlen.symm
    rfl
  | cons item items ih =>
    cases nodes with
    | nil => cases hlen
    | cons node nodes =>
      have hitem : node? item = some node := h (item, node) (by simp)
      have hitems := ih (Nat.succ.inj hlen) fun pair hp => h pair (by simp [hp])
      simp [nodes?, hitem, hitems]

theorem Describes.node?_eq {value : Json} {n : Node} (h : Describes value n) :
    node? value = some n := by
  induction h with
  | @mk fields n items hkind hvalue hops hspan hchildren hlen _ ih =>
    have hname : Kind.ofName? n.kind.name = some n.kind := Kind.ofName?_eq_some.mpr rfl
    have hnodes : childrenOf? fields = some n.children := by
      rw [childrenOf?_arr hchildren, nodes?_zip hlen ih]
    have hv : optional Json.str? (n.value.map .str) = some n.value := by
      cases n.value <;> rfl
    have ho := optional_map texts?_strings n.ops
    have hs := optional_map Span.ofJson?_toJson n.span
    obtain ⟨kind, children, text, ops, span⟩ := n
    simp [node?, hkind, hvalue, hops, hspan, hnodes, hv, ho, hs, Json.str?, hname]

end Reads

section Exists

variable {α : Type}

/-- A field that may be left out. -/
theorem exists_optional {write : α → Json} {found : Option Json}
    (h : ∀ value, found = some value → ∃ a, value = write a) :
    ∃ given : Option α, found = given.map write := by
  cases found with
  | none => exact ⟨none, rfl⟩
  | some value =>
    obtain ⟨a, rfl⟩ := h value rfl
    exact ⟨some a, rfl⟩

theorem exists_list {write : α → Json} {items : List Json}
    (h : ∀ value ∈ items, ∃ a, value = write a) : ∃ given : List α, items = given.map write := by
  induction items with
  | nil => exact ⟨[], rfl⟩
  | cons item rest ih =>
    obtain ⟨a, rfl⟩ := h item List.mem_cons_self
    obtain ⟨given, rfl⟩ := ih fun value hv => h value (List.mem_cons_of_mem _ hv)
    exact ⟨a :: given, rfl⟩

theorem exists_nodes {items : List Json} (h : ∀ value ∈ items, ∃ n, Describes value n) :
    ∃ nodes : List Node, items.length = nodes.length ∧
      ∀ pair ∈ items.zip nodes, Describes pair.1 pair.2 := by
  induction items with
  | nil => exact ⟨[], rfl, by simp⟩
  | cons item rest ih =>
    obtain ⟨n, hn⟩ := h item List.mem_cons_self
    obtain ⟨nodes, hlen, hnodes⟩ := ih fun value hv => h value (List.mem_cons_of_mem _ hv)
    refine ⟨n :: nodes, congrArg Nat.succ hlen, fun pair hp => ?_⟩
    cases List.mem_cons.mp hp with
    | inl h => exact h ▸ hn
    | inr h => exact hnodes pair h

theorem exists_string {value : Json} (h : Format.string.Accepts value) : ∃ s, value = .str s := by
  cases h with
  | string s => exact ⟨s, rfl⟩

theorem exists_items {item : Format} {value : Json} (h : (Format.list item).Accepts value) :
    ∃ items, value = .arr items ∧ ∀ part ∈ items, item.Accepts part := by
  cases h with
  | list h => exact ⟨_, rfl, h⟩

/-- A value that conforms to the format of nodes describes one. -/
theorem exists_describes {value : Json} (h : Format.node.Accepts value) (hd : value.Distinct) :
    ∃ n, Describes value n := by
  induction value using Json.innerInduction with
  | step value ih =>
    cases h with
    | node h =>
      cases h with
      | @object _ _ fields hrequired hclosed hfields =>
        obtain ⟨kindValue, hk⟩ := Option.isSome_iff_exists.mp (hrequired "kind" (by simp))
        obtain ⟨kind, rfl⟩ : ∃ kind : Kind, kindValue = .str kind.name := by
          cases hfields "kind" .kind kindValue rfl hk with
          | kind k => exact ⟨k, rfl⟩
        obtain ⟨text, hvalue⟩ : ∃ text : Option Text, fields.lookup ↑"value" = text.map .str :=
          exists_optional fun v hv => exists_string (hfields "value" .string v rfl hv)
        obtain ⟨ops, hops⟩ : ∃ ops : Option (List Text),
            fields.lookup ↑"ops" = ops.map fun ops => .arr (ops.map .str) := by
          refine exists_optional fun v hv => ?_
          obtain ⟨items, rfl, hitems⟩ := exists_items (hfields "ops" (.list .string) v rfl hv)
          obtain ⟨given, rfl⟩ := exists_list fun part hp => exists_string (hitems part hp)
          exact ⟨given, rfl⟩
        obtain ⟨span, hspan⟩ : ∃ span : Option Span, fields.lookup ↑"span" = span.map Span.toJson :=
          exists_optional fun v hv =>
            Span.exists_toJson (hfields "span" .span v rfl hv) (hd.field hv)
        obtain ⟨items, hchildren, hitems⟩ : ∃ items,
            (fields.lookup ↑"children" = some (.arr items) ∨
              fields.lookup ↑"children" = none ∧ items = []) ∧
            ∀ item ∈ items, ∃ n, Describes item n := by
          cases hc : fields.lookup ↑"children" with
          | none => exact ⟨[], .inr ⟨rfl, rfl⟩, by simp⟩
          | some v =>
            obtain ⟨items, rfl, hitems⟩ := exists_items (hfields "children" (.list .node) v rfl hc)
            refine ⟨items, .inl rfl, fun item hi => ?_⟩
            exact ih _ (Json.part_of_lookup hc) item hi (hitems item hi) ((hd.field hc).part hi)
        obtain ⟨nodes, hlen, hnodes⟩ := exists_nodes hitems
        exact ⟨⟨kind, nodes, text, ops, span⟩,
          .mk items hk hvalue hops hspan hchildren hlen hnodes⟩

end Exists

end Document

end TreeCheck
