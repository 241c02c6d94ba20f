import Mathlib.Data.List.Forall2
import TreeCheck.Proofs.Document.Faults
import TreeCheck.Proofs.Json.Print

namespace TreeCheck

namespace Json

/-- The values are equal up to the order of the fields in their objects, at any depth. -/
inductive Reordered : Json → Json → Prop where
  | same (value : Json) : Reordered value value
  | arr {items others : List Json} : items.length = others.length →
    (∀ pair ∈ items.zip others, Reordered pair.1 pair.2) → Reordered (.arr items) (.arr others)
  | obj {fields others : Record Json} : fields.names.Perm others.names →
    (∀ name value other, fields.lookup name = some value → others.lookup name = some other →
      Reordered value other) →
    Reordered (.obj fields) (.obj others)

end Json

namespace Record

variable {α : Type} {R : α → α → Prop} {fields others : Record α}

/-- Records with the same names, whatever their order, are looked up alike. -/
theorem lookup_rel (hnames : fields.names.Perm others.names)
    (h : ∀ name value other, fields.lookup name = some value → others.lookup name = some other →
      R value other) (name : Text) : Option.Rel R (fields.lookup name) (others.lookup name) := by
  have hnone : (fields.lookup name).isNone ↔ (others.lookup name).isNone := by
    rw [lookup_isNone, lookup_isNone, hnames.mem_iff]
  cases hf : fields.lookup name with
  | none =>
    rw [hf] at hnone
    rw [Option.isNone_iff_eq_none.mp (hnone.mp rfl)]
    exact .none
  | some value =>
    cases ho : others.lookup name with
    | none => simp [hf, ho] at hnone
    | some other => exact .some (h name value other hf ho)

/-- What is made of a value that was looked up, or of none. -/
theorem found_congr {β : Type} {a b : Option α} (read : Option α → β) (h : Option.Rel R a b)
    (hread : ∀ {v w}, R v w → read (some v) = read (some w)) : read a = read b := by
  cases h with
  | none => rfl
  | some h => exact hread h

end Record

namespace Json.Reordered

variable {v w : Json}

theorem of_fields {fields others : Record Json} (hnames : fields.names.Perm others.names)
    (h : ∀ field ∈ fields, ∀ other ∈ others, field.1 = other.1 → Reordered field.2 other.2) :
    Reordered (.obj fields) (.obj others) :=
  .obj hnames fun _ _ _ hv hw => h _ (Record.mem_of_lookup hv) _ (Record.mem_of_lookup hw) rfl

theorem field_rel (h : v.Reordered w) (name : Text) :
    Option.Rel Reordered (v.field? name) (w.field? name) := by
  cases h with
  | same =>
    cases v.field? name with
    | none => exact .none
    | some value => exact .some (.same value)
  | arr => exact .none
  | obj hnames hfields => exact Record.lookup_rel hnames hfields name

/-- A field is read alike, if this holds of all values. -/
theorem bind_field {α : Type} {read : Json → Option α} (h : v.Reordered w) (name : Text)
    (hread : ∀ {v w : Json}, v.Reordered w → read v = read w) :
    (v.field? name).bind read = (w.field? name).bind read :=
  Record.found_congr (Option.bind · read) (h.field_rel name) hread

theorem str?_eq (h : v.Reordered w) : v.str? = w.str? := by
  cases h <;> rfl

theorem int?_eq (h : v.Reordered w) : v.int? = w.int? := by
  cases h <;> rfl

end Json.Reordered

namespace Format

open Json

/-- The rules that an object breaks as a whole depend on its names only: those that are missing come
in the order of the format, and each unknown name counts once. -/
theorem broken_names (format : Format) {fields others : Record Json}
    (h : fields.names.Perm others.names) :
    format.broken (.obj fields) = format.broken (.obj others) := by
  cases format with
  | object required declared =>
    have hmissing (name : Text) : (fields.lookup name).isNone = (others.lookup name).isNone := by
      rw [Bool.eq_iff_iff, Record.lookup_isNone, Record.lookup_isNone, h.mem_iff]
    have hunknown (record : Record Json) :
        (record.filter fun field => (declared.lookup field.1).isNone).length =
          record.names.countP fun name => (declared.lookup name).isNone := by
      rw [← List.countP_eq_length_filter, Record.names, List.countP_map]
      rfl
    simp only [broken, hmissing, List.map_const', hunknown, h.countP_eq]
  | _ => rfl

theorem broken_items (format : Format) (items others : List Json) :
    format.broken (.arr items) = format.broken (.arr others) := by
  cases format <;> rfl

theorem itemViolations_congr {item : Format} {items others : List Json} {index : Nat}
    (h : List.Forall₂ (fun v w => item.violations v = item.violations w) items others) :
    itemViolations item index items = itemViolations item index others := by
  induction h generalizing index with
  | nil => rfl
  | cons hitem _ ih => rw [itemViolations, itemViolations, hitem, ih]

theorem partViolations_congr {declared : List (Text × Format)} {fields others : Record Json}
    (h : ∀ name, Option.Rel (fun v w => ∀ format : Format, format.violations v = format.violations w)
      (fields.lookup name) (others.lookup name)) :
    partViolations declared fields = partViolations declared others := by
  refine List.flatMap_congr fun field _ => ?_
  have hfield := h field.1
  generalize fields.lookup field.1 = a at hfield
  generalize others.lookup field.1 = b at hfield
  cases declared.lookup field.1 with
  | none => rfl
  | some format =>
    cases hfield with
    | none => rfl
    | some hvalue => exact congrArg (List.map _) (hvalue format)

/-- The violations do not depend on the order of the fields. -/
theorem violations_reordered {v w : Json} (h : v.Reordered w) (format : Format) :
    format.violations v = format.violations w := by
  induction h generalizing format with
  | same => rfl
  | @arr items others hlength _ ih =>
    rw [violations, violations, broken_items _ items others]
    cases format.unfold with
    | list item =>
      have hitems : List.Forall₂ (fun v w => item.violations v = item.violations w) items others :=
        List.forall₂_iff_zip.mpr ⟨hlength, fun hp => ih _ hp item⟩
      simp only [itemViolations_congr hitems]
    | _ => rfl
  | @obj fields others hnames _ ih =>
    cases hu : format.unfold with
    | object required declared =>
      rw [violations_obj hu, violations_obj hu, broken_names _ hnames,
        partViolations_congr (Record.lookup_rel hnames ih)]
    | _ => simp only [violations, hu, broken_names _ hnames]

end Format

/-- The place with its line before its column. -/
def Position.inOrder (p : Position) : Position := { p with colFirst := false }

/-- The stretch with its start before its end, and both in order. -/
def Span.inOrder (s : Span) : Span := ⟨s.start.inOrder, s.stop.inOrder, false⟩

mutual

/-- The tree with all its places in the usual order. -/
def Node.inOrder : Node → Node
  | ⟨kind, children, value, ops, span⟩ =>
    ⟨kind, Node.inOrderAll children, value, ops, span.map Span.inOrder⟩

def Node.inOrderAll : List Node → List Node
  | [] => []
  | node :: rest => node.inOrder :: Node.inOrderAll rest

end

theorem Node.kind_inOrder (n : Node) : n.inOrder.kind = n.kind := by
  obtain ⟨kind, children, value, ops, span⟩ := n
  rfl

section Places

variable {v w : Json}

theorem Position.ofJson?_reordered (h : v.Reordered w) :
    (ofJson? v).map inOrder = (ofJson? w).map inOrder := by
  have hline := h.bind_field "line" Json.Reordered.int?_eq
  have hcol := h.bind_field "col" Json.Reordered.int?_eq
  simp only [ofJson?, hline, hcol]
  cases (w.field? "line").bind Json.int? with
  | none => rfl
  | some line => cases (w.field? "col").bind Json.int? <;> rfl

/-- Of a stretch only its two ends count, once all is in order. -/
theorem Span.ofJson?_inOrder (v : Json) :
    (ofJson? v).map inOrder =
      ((v.field? "start").bind fun start => (Position.ofJson? start).map Position.inOrder).bind
        fun start =>
          ((v.field? "end").bind fun stop => (Position.ofJson? stop).map Position.inOrder).map
            fun stop => ⟨start, stop, false⟩ := by
  rw [ofJson?]
  cases v.field? "start" with
  | none => rfl
  | some a =>
    cases ha : Position.ofJson? a with
    | none => simp [ha]
    | some start =>
      cases v.field? "end" with
      | none => simp [ha]
      | some b => cases hb : Position.ofJson? b <;> simp [ha, hb, inOrder]

theorem Span.ofJson?_reordered (h : v.Reordered w) :
    (ofJson? v).map inOrder = (ofJson? w).map inOrder := by
  rw [ofJson?_inOrder, ofJson?_inOrder, h.bind_field "start" Position.ofJson?_reordered,
    h.bind_field "end" Position.ofJson?_reordered]

end Places

namespace Document

open Json

variable {v w : Json}

section Reads

variable {α β : Type} {a b : Option Json}

theorem optional_congr {read : Json → Option α} (h : Option.Rel Reordered a b)
    (hread : ∀ {v w : Json}, v.Reordered w → read v = read w) : optional read a = optional read b :=
  Record.found_congr (optional read) h fun h => congrArg (Option.map some) (hread h)

theorem optional_comp (read : Json → Option α) (f : α → β) (found : Option Json) :
    (optional read found).map (Option.map f) = optional (fun v => (read v).map f) found := by
  cases found with
  | none => rfl
  | some v => cases h : read v <;> simp [optional, h]

theorem texts?_reordered (h : v.Reordered w) : texts? v = texts? w := by
  cases h with
  | same => rfl
  | obj => rfl
  | @arr items others hlength hpairs =>
    have hitems : List.Forall₂ Reordered items others :=
      List.forall₂_iff_zip.mpr ⟨hlength, fun hp => hpairs _ hp⟩
    clear hlength hpairs
    change items.mapM Json.str? = others.mapM Json.str?
    induction hitems with
    | nil => rfl
    | cons hitem _ ih => rw [List.mapM_cons, List.mapM_cons, hitem.str?_eq, ih]

end Reads

section Nodes

/-- The nodes that an array describes. -/
def listed? : Json → Option (List Node)
  | .arr items => nodes? items
  | _ => none

theorem childrenOf?_eq (fields : Record Json) :
    childrenOf? fields = (fields.lookup ↑"children").elim (some []) listed? := by
  induction fields with
  | nil => rfl
  | cons field rest ih =>
    obtain ⟨name, value⟩ := field
    rw [childrenOf?_cons]
    by_cases hname : name = "children"
    · rw [if_pos hname, hname, List.lookup_cons_self]
      cases value <;> rfl
    · rw [if_neg hname, Record.lookup_cons_of_ne (Ne.symm hname), ih]

/-- Once all is in order, a node is read from the values of its fields, wherever these stand. -/
theorem node?_inOrder (fields : Record Json) :
    (node? (.obj fields)).map Node.inOrder =
      ((((fields.lookup ↑"kind").bind Json.str?).bind Kind.ofName?).bind fun kind =>
      ((fields.lookup ↑"children").elim (some []) fun v => (listed? v).map Node.inOrderAll).bind
        fun children =>
      (optional Json.str? (fields.lookup ↑"value")).bind fun value =>
      (optional texts? (fields.lookup ↑"ops")).bind fun ops =>
      (optional (fun v => (Span.ofJson? v).map Span.inOrder) (fields.lookup ↑"span")).map fun span =>
        ⟨kind, children, value, ops, span⟩) := by
  have hchildren : ((fields.lookup ↑"children").elim (some []) fun v =>
      (listed? v).map Node.inOrderAll) = (childrenOf? fields).map Node.inOrderAll := by
    rw [childrenOf?_eq]
    cases fields.lookup ↑"children" <;> rfl
  rw [node?, hchildren, ← optional_comp]
  cases ((fields.lookup ↑"kind").bind Json.str?).bind Kind.ofName? with
  | none => rfl
  | some kind =>
    cases childrenOf? fields with
    | none => rfl
    | some children =>
      cases optional Json.str? (fields.lookup ↑"value") with
      | none => rfl
      | some value =>
        cases optional texts? (fields.lookup ↑"ops") with
        | none => rfl
        | some ops => cases optional Span.ofJson? (fields.lookup ↑"span") <;> rfl

theorem nodes?_congr {items others : List Json}
    (h : List.Forall₂ (fun v w => (node? v).map Node.inOrder = (node? w).map Node.inOrder)
      items others) :
    (nodes? items).map Node.inOrderAll = (nodes? others).map Node.inOrderAll := by
  have hcons (item : Json) (rest : List Json) : (nodes? (item :: rest)).map Node.inOrderAll =
      ((node? item).map Node.inOrder).bind fun node =>
        ((nodes? rest).map Node.inOrderAll).map (node :: ·) := by
    rw [nodes?]
    cases node? item with
    | none => rfl
    | some node => cases nodes? rest <;> rfl
  induction h with
  | nil => rfl
  | cons hitem _ ih => rw [hcons, hcons, hitem, ih]

/-- A value is read alike as a node, and as the children of one. -/
theorem node?_reordered (h : v.Reordered w) :
    (node? v).map Node.inOrder = (node? w).map Node.inOrder ∧
      (listed? v).map Node.inOrderAll = (listed? w).map Node.inOrderAll := by
  induction h with
  | same => exact ⟨rfl, rfl⟩
  | arr hlength _ ih =>
    exact ⟨rfl, nodes?_congr (List.forall₂_iff_zip.mpr ⟨hlength, fun hp => (ih _ hp).1⟩)⟩
  | @obj fields others hnames hfields ih =>
    refine ⟨?_, rfl⟩
    have hsame := Record.lookup_rel hnames hfields
    have hkind : (fields.lookup ↑"kind").bind Json.str? = (others.lookup ↑"kind").bind Json.str? :=
      (Reordered.obj hnames hfields).bind_field "kind" Reordered.str?_eq
    have hchildren : ((fields.lookup ↑"children").elim (some []) fun v =>
        (listed? v).map Node.inOrderAll) =
        (others.lookup ↑"children").elim (some []) fun v => (listed? v).map Node.inOrderAll :=
      Record.found_congr (Option.elim · (some []) fun v => (listed? v).map Node.inOrderAll)
        (Record.lookup_rel hnames ih "children") And.right
    rw [node?_inOrder, node?_inOrder, hkind, hchildren,
      optional_congr (hsame "value") Reordered.str?_eq, optional_congr (hsame "ops") texts?_reordered,
      optional_congr (hsame "span") Span.ofJson?_reordered]

end Nodes

/-- Values that are equal up to the order of their fields hold the same tree, or have the same
problems. -/
theorem ofJson_reordered (h : v.Reordered w) :
    (ofJson v).map Node.inOrder = (ofJson w).map Node.inOrder := by
  have hversion := h.bind_field "version" Reordered.str?_eq
  have hprogram : ((v.field? "program").bind node?).map Node.inOrder =
      ((w.field? "program").bind node?).map Node.inOrder := by
    rw [Option.map_bind, Option.map_bind]
    exact h.bind_field "program" fun h => (node?_reordered h).1
  rw [ofJson, ofJson, Format.violations_reordered h, hversion]
  cases Format.document.violations w with
  | cons => rfl
  | nil =>
    cases (w.field? "version").bind Json.str? with
    | none => rfl
    | some given =>
      generalize (v.field? "program").bind node? = a at hprogram
      generalize (w.field? "program").bind node? = b at hprogram
      cases a with
      | none =>
        rw [Option.map_eq_none_iff.mp hprogram.symm]
      | some n =>
        obtain ⟨m, rfl, hsame⟩ := Option.map_eq_some_iff.mp hprogram.symm
        have hkind : n.kind = m.kind := by
          rw [← n.kind_inOrder, ← hsame, m.kind_inOrder]
        simp only [hkind]
        split
        · rfl
        · split
          · rfl
          · exact congrArg Except.ok hsame.symm

/-- Two texts whose values are equal up to the order of the fields in their objects, at any depth, are
both read, and as the same tree, or both refused, and for the same problems in the same order. -/
theorem parse_reordered (refusal : Text → Text) (text other : Text) (v w : Json)
    (hv : Denotes text v) (hw : Denotes other w) (h : v.Reordered w) :
    (∃ n m, parse refusal text = .ok n ∧ parse refusal other = .ok m ∧ n.inOrder = m.inOrder) ∨
      ∃ problems, parse refusal text = .error problems ∧ parse refusal other = .error problems := by
  have hsame := ofJson_reordered h
  rw [parse_denoted hv, parse_denoted hw]
  generalize ofJson v = first at hsame
  generalize ofJson w = second at hsame
  cases first with
  | ok n =>
    cases second with
    | ok m => exact .inl ⟨n, m, rfl, rfl, Except.ok.inj hsame⟩
    | error problems => cases hsame
  | error problems =>
    cases second with
    | ok m => cases hsame
    | error others =>
      cases Except.error.inj hsame
      exact .inr ⟨problems, rfl, rfl⟩

/-- A document that gives the fields of the whole, of the node, of its stretch and of a place the other
way round, and one that has unknown, missing and ill-typed fields side by side. The names of two
unknown fields are halves of a pair. -/
theorem parse_reordered_sample :
    let start : Record Json := [("line", .ofInt 1), ("col", .ofInt 2)]
    let stop : Record Json := [("line", .ofInt 3), ("col", .ofInt 4)]
    let span : Record Json := [("start", .obj start), ("end", .obj stop)]
    let span' : Record Json := [("end", .obj stop), ("start", .obj start.reverse)]
    let program : Record Json := [("kind", .str "Program"), ("span", .obj span)]
    let program' : Record Json := [("span", .obj span'), ("kind", .str "Program")]
    let faulty : Record Json := [(⟨[0xD800]⟩, .null), ("value", .ofInt 3), (⟨[0xD801]⟩, .arr [])]
    let v := Json.obj [("version", .str "1.0"), ("program", .obj program)]
    let w := Json.obj [("program", .obj program'), ("version", .str "1.0")]
    let bad := Json.obj [("x", .null), ("version", .ofInt 1), ("program", .obj faulty)]
    let bad' := Json.obj [("program", .obj faulty.reverse), ("version", .ofInt 1), ("x", .null)]
    (∀ value ∈ [v, w, bad, bad'], Denotes value.indented value) ∧
    v.Reordered w ∧ bad.Reordered bad' ∧
    (∃ n m, parse id v.indented = .ok n ∧ parse id w.indented = .ok m ∧ n.inOrder = m.inOrder) ∧
    ∃ problems, problems.length = 6 ∧ parse id bad.indented = .error problems ∧
      parse id bad'.indented = .error problems := by
  intro start stop span span' program program' faulty v w bad bad'
  have hstart : Reordered (.obj start) (.obj start.reverse) :=
    .of_fields (by decide) (by simp [start, Reordered.same])
  have hspan : Reordered (.obj span) (.obj span') :=
    .of_fields (by decide) (by simp [span, span', Reordered.same, hstart])
  have hprogram : Reordered (.obj program) (.obj program') :=
    .of_fields (by decide) (by simp [program, program', Reordered.same, hspan])
  have hhalf (u : UInt16) : Text.mk [u] ≠ "value" := fun h =>
    absurd (congrArg (fun name : Text => name.units.length) h) (show ¬ 1 = 5 by decide)
  have hfaulty : Reordered (.obj faulty) (.obj faulty.reverse) :=
    .of_fields (by decide) (by simp [faulty, Reordered.same, hhalf, (hhalf _).symm])
  have hv : v.Reordered w := .of_fields (by decide) (by simp [Reordered.same, hprogram])
  have hbad : bad.Reordered bad' := .of_fields (by decide) (by simp [Reordered.same, hfaulty])
  have hplain : ∀ value ∈ [v, w, bad, bad'], value.Plain := by
    have hstart : (Json.obj start).Plain := .obj (by decide) (by simp [start, Plain.ofInt])
    have hturned : (Json.obj start.reverse).Plain := .obj (by decide) (by simp [start, Plain.ofInt])
    have hstop : (Json.obj stop).Plain := .obj (by decide) (by simp [stop, Plain.ofInt])
    have hspan : (Json.obj span).Plain := .obj (by decide) (by simp [span, hstart, hstop])
    have hspan' : (Json.obj span').Plain := .obj (by decide) (by simp [span', hturned, hstop])
    have hprogram : (Json.obj program).Plain :=
      .obj (by decide) (by simp [program, Plain.str, hspan])
    have hprogram' : (Json.obj program').Plain :=
      .obj (by decide) (by simp [program', Plain.str, hspan'])
    have hempty : (Json.arr []).Plain := .arr (by simp)
    have hfaulty : (Json.obj faulty).Plain :=
      .obj (by decide) (by simp [faulty, Plain.null, Plain.ofInt, hempty])
    have hfaulty' : (Json.obj faulty.reverse).Plain :=
      .obj (by decide) (by simp [faulty, Plain.null, Plain.ofInt, hempty])
    simp only [List.forall_mem_cons, List.not_mem_nil, false_imp_iff, implies_true, and_true]
    refine ⟨.obj (by decide) ?_, .obj (by decide) ?_, .obj (by decide) ?_, .obj (by decide) ?_⟩ <;>
      simp [Plain.null, Plain.ofInt, Plain.str, hprogram, hprogram', hfaulty, hfaulty']
  have hdenotes : ∀ value ∈ [v, w, bad, bad'], Denotes value.indented value := fun value h =>
    (hplain value h).denotes Layout.indented_blank 0
  refine ⟨hdenotes, hv, hbad, ?_, ?_⟩
  · have htext := hdenotes v (by simp)
    have hok : (ofJson v).toOption.isSome = true := by decide +kernel
    rcases parse_reordered id v.indented w.indented v w htext (hdenotes w (by simp)) hv with
      hsame | ⟨problems, hp, -⟩
    · exact hsame
    · rw [← parse_denoted htext, hp] at hok
      cases hok
  · have htext := hdenotes bad (by simp)
    have hcount : (Format.document.violations bad).length = 6 := by decide +kernel
    have hrefused : ofJson bad = .error ((Format.document.violations bad).map .violation) := by
      apply ofJson_violations
      intro hnil
      rw [hnil] at hcount
      cases hcount
    rcases parse_reordered id bad.indented bad'.indented bad bad' htext (hdenotes bad' (by simp))
      hbad with ⟨n, m, hn, -, -⟩ | ⟨problems, hp, hp'⟩
    · rw [parse_denoted htext, hrefused] at hn
      cases hn
    · have hproblems := hp
      rw [parse_denoted htext, hrefused] at hproblems
      have hlength := congrArg List.length (Except.error.inj hproblems)
      rw [List.length_map, hcount] at hlength
      exact ⟨problems, hlength.symm, hp, hp'⟩

end Document

end TreeCheck
