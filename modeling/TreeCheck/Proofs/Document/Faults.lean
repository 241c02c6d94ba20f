import Mathlib.Tactic.MkIffOfInductiveProp
import TreeCheck.Proofs.Document.Parse
import TreeCheck.Proofs.Document.Pointer

namespace TreeCheck

/-- A way to break a format, told apart from all others at the same place. Every unknown field is a
breach of its own. -/
inductive Breach where
  | notObject
  | notArray
  | notString
  | notInteger
  | missing (name : Text)
  | unknown (name : Text)
  | notAllowed
  | belowZero
deriving DecidableEq, Repr

/-- The rule that is broken. -/
def Breach.rule : Breach → Rule
  | .notObject => .object
  | .notArray => .array
  | .notString => .string
  | .notInteger => .integer
  | .missing name => .required name
  | .unknown _ => .closed
  | .notAllowed => .allowed
  | .belowZero => .minimum

/-- A breach, and the path to the part of a value that commits it. -/
structure Fault where
  path : List Step
  breach : Breach
deriving DecidableEq, Repr

namespace Fault

def violation (x : Fault) : Violation := ⟨x.path, x.breach.rule⟩

def under (step : Step) (x : Fault) : Fault := { x with path := step :: x.path }

theorem under_inj {step other : Step} {x y : Fault} (h : x.under step = y.under other) :
    step = other ∧ x = y := by
  obtain ⟨path, breach⟩ := x
  obtain ⟨more, also⟩ := y
  simpa [under, and_assoc] using h

end Fault

theorem Record.lookup_isNone {α : Type} {fields : Record α} {name : Text} :
    (fields.lookup name).isNone ↔ name ∉ fields.names := by
  rw [Option.isNone_iff_eq_none, List.lookup_eq_none_iff, names, List.mem_map]
  constructor
  · rintro h ⟨field, hf, rfl⟩
    simpa using h field hf
  · intro h field hf
    exact bne_iff_ne.mpr fun heq => h ⟨field, hf, heq.symm⟩

namespace Format

/-- The value breaks the format as a whole, whatever its parts. A rule for objects, arrays or finite
numbers says nothing of other values. -/
@[mk_iff]
inductive Breaks : Format → Json → Breach → Prop where
  | notString {value : Json} : (∀ s, value ≠ .str s) → Breaks .string value .notString
  | kindNotString {value : Json} : (∀ s, value ≠ .str s) → Breaks .kind value .notString
  | notAllowed {value : Json} : (∀ k : Kind, value ≠ .str k.name) → Breaks .kind value .notAllowed
  | notInteger {value : Json} : (∀ n : Int, value ≠ .ofInt n) → Breaks .coordinate value .notInteger
  | belowZero {numerator : Int} {scale : Nat} : numerator < 0 →
    Breaks .coordinate (.num (.finite numerator scale)) .belowZero
  | notArray {item : Format} {value : Json} : (∀ items, value ≠ .arr items) →
    Breaks (.list item) value .notArray
  | notObject {required : List Text} {declared : Record Format} {value : Json} :
    (∀ fields, value ≠ .obj fields) → Breaks (.object required declared) value .notObject
  | missing {required : List Text} {declared : Record Format} {fields : Record Json}
    {name : Text} : name ∈ required → name ∉ fields.names →
    Breaks (.object required declared) (.obj fields) (.missing name)
  | unknown {required : List Text} {declared : Record Format} {fields : Record Json}
    {name : Text} : name ∈ fields.names → name ∉ declared.names →
    Breaks (.object required declared) (.obj fields) (.unknown name)
  | node {value : Json} {breach : Breach} : Breaks (.object ["kind"] nodeFields) value breach →
    Breaks .node value breach

/-- The format that applies to a part of a value, one step down. -/
inductive Applies : Format → Json → Step → Format → Json → Prop where
  | field {format inner : Format} {required : List Text} {declared : Record Format}
    {fields : Record Json} {name : Text} {part : Json} :
    format.unfold = .object required declared → declared.lookup name = some inner →
    fields.lookup name = some part → Applies format (.obj fields) (.field name) inner part
  | item {format inner : Format} {items : List Json} {index : Nat} {part : Json} :
    format.unfold = .list inner → items[index]? = some part →
    Applies format (.arr items) (.item index) inner part

/-- The format that applies at the end of a path, and the part of the value that is there. -/
inductive Reaches : Format → Json → List Step → Format → Json → Prop where
  | here {format : Format} {value : Json} : Reaches format value [] format value
  | down {format inner last : Format} {value part final : Json} {step : Step} {path : List Step} :
    Applies format value step inner part → Reaches inner part path last final →
    Reaches format value (step :: path) last final

/-- A fault of the value: at the end of its path the format that applies there is broken. -/
def Faulty (format : Format) (value : Json) (x : Fault) : Prop :=
  ∃ last part, Reaches format value x.path last part ∧ Breaks last part x.breach

/-- A fault of a part of the value, seen from the value. -/
def Within (format : Format) (value : Json) (x : Fault) : Prop :=
  ∃ step inner part y, Applies format value step inner part ∧ inner.Faulty part y ∧ x = y.under step

section Places

variable {format inner last : Format} {value part : Json} {path : List Step} {x : Fault}

theorem breaks_unfold {breach : Breach} :
    format.unfold.Breaks value breach ↔ format.Breaks value breach := by
  cases format with
  | node => exact ⟨.node, fun h => by cases h with | node h => exact h⟩
  | _ => exact Iff.rfl

/-- A fault is one of the value as a whole, or one of a part of it. -/
theorem faulty_iff : format.Faulty value x ↔
    (x.path = [] ∧ format.Breaks value x.breach) ∨ format.Within value x := by
  obtain ⟨path, breach⟩ := x
  constructor
  · rintro ⟨last, part, hreaches, hbreaks⟩
    cases hreaches with
    | here => exact .inl ⟨rfl, hbreaks⟩
    | @down _ inner _ _ part _ step path ha hreaches =>
      exact .inr ⟨step, inner, part, ⟨path, breach⟩, ha, ⟨_, _, hreaches, hbreaks⟩, rfl⟩
  · rintro (⟨rfl, hbreaks⟩ | ⟨step, inner, part, y, ha, ⟨last, final, hreaches, hbreaks⟩, hx⟩)
    · exact ⟨format, value, .here, hbreaks⟩
    · cases hx
      exact ⟨last, final, .down ha hreaches, hbreaks⟩

end Places

/-- The violations report the faults with a property, each of them once. -/
def Reports (P : Fault → Prop) (violations : List Violation) : Prop :=
  ∃ faults : List Fault, faults.Nodup ∧ (∀ x, x ∈ faults ↔ P x) ∧
    violations = faults.map Fault.violation

namespace Reports

variable {P Q : Fault → Prop} {violations more : List Violation}

theorem congr (h : Reports P violations) (hPQ : ∀ x, P x ↔ Q x) : Reports Q violations := by
  obtain ⟨faults, hnodup, hmem, hmap⟩ := h
  exact ⟨faults, hnodup, fun x => (hmem x).trans (hPQ x), hmap⟩

theorem nil (h : ∀ x, ¬ P x) : Reports P [] :=
  ⟨[], List.nodup_nil, fun x => by simp [h x], rfl⟩

theorem append (h : Reports P violations) (hmore : Reports Q more) (hdisjoint : ∀ x, P x → ¬ Q x) :
    Reports (fun x => P x ∨ Q x) (violations ++ more) := by
  obtain ⟨faults, hnodup, hmem, rfl⟩ := h
  obtain ⟨others, hnodup', hmem', rfl⟩ := hmore
  refine ⟨faults ++ others, ?_, fun x => ?_, by rw [List.map_append]⟩
  · rw [List.nodup_append]
    refine ⟨hnodup, hnodup', fun x hx y hy hxy => ?_⟩
    subst hxy
    exact hdisjoint x ((hmem x).mp hx) ((hmem' x).mp hy)
  · rw [List.mem_append, hmem, hmem']

/-- The faults of a part, seen from the whole. -/
theorem under (h : Reports P violations) (step : Step) :
    Reports (fun x => ∃ y, P y ∧ x = y.under step) (violations.map (.under step)) := by
  obtain ⟨faults, hnodup, hmem, rfl⟩ := h
  refine ⟨faults.map (Fault.under step), ?_, fun x => ?_, ?_⟩
  · exact hnodup.map fun x y hxy => (Fault.under_inj hxy).2
  · rw [List.mem_map]
    constructor
    · rintro ⟨y, hy, rfl⟩
      exact ⟨y, (hmem y).mp hy, rfl⟩
    · rintro ⟨y, hy, rfl⟩
      exact ⟨y, (hmem y).mpr hy, rfl⟩
  · rw [List.map_map, List.map_map]
    rfl

/-- The faults of parts to which different steps lead. -/
theorem parts {α : Type} {list : List α} {step : α → Step} {P : α → Fault → Prop}
    {found : α → List Violation} (hsteps : (list.map step).Nodup)
    (h : ∀ a ∈ list, Reports (P a) (found a)) :
    Reports (fun x => ∃ a ∈ list, ∃ y, P a y ∧ x = y.under (step a))
      (list.flatMap fun a => (found a).map (.under (step a))) := by
  induction list with
  | nil => exact nil fun x ⟨a, ha, _⟩ => List.not_mem_nil ha
  | cons first rest ih =>
    rw [List.map_cons, List.nodup_cons] at hsteps
    have hrest := ih hsteps.2 fun a ha => h a (List.mem_cons_of_mem first ha)
    rw [List.flatMap_cons]
    refine (((h first List.mem_cons_self).under (step first)).append hrest ?_).congr fun x => ?_
    · rintro x ⟨y, _, rfl⟩ ⟨a, ha, z, _, hx⟩
      have hstep : step first = step a := (Fault.under_inj hx).1
      exact hsteps.1 (hstep ▸ List.mem_map_of_mem ha)
    · simp

end Reports

/-- No name is given twice in the format, and no declared name holds a character that is written
otherwise in a pointer. -/
inductive Regular : Format → Prop where
  | string : Regular .string
  | kind : Regular .kind
  | coordinate : Regular .coordinate
  | list {item : Format} : Regular item → Regular (.list item)
  | object {required : List Text} {declared : Record Format} : required.Nodup →
    declared.names.Nodup → (∀ name ∈ declared.names, Pointer.Bare name.units) →
    (∀ field ∈ declared, Regular field.2) → Regular (.object required declared)
  | node : Regular .node

theorem regular_position : position.Regular :=
  .object (by decide) (by decide) (by decide) fun field hf => by
    simp only [List.mem_cons, List.not_mem_nil, or_false] at hf
    rcases hf with rfl | rfl <;> exact .coordinate

theorem regular_span : span.Regular :=
  .object (by decide) (by decide) (by decide) fun field hf => by
    simp only [List.mem_cons, List.not_mem_nil, or_false] at hf
    rcases hf with rfl | rfl <;> exact regular_position

theorem Regular.unfold {format : Format} (h : format.Regular) : format.unfold.Regular := by
  cases h with
  | node =>
    refine .object (by decide) (by decide) (by decide) fun field hf => ?_
    simp only [nodeFields, List.mem_cons, List.not_mem_nil, or_false] at hf
    rcases hf with rfl | rfl | rfl | rfl | rfl
    · exact .kind
    · exact .string
    · exact .list .string
    · exact .list .node
    · exact regular_span
  | string => exact .string
  | kind => exact .kind
  | coordinate => exact .coordinate
  | list h => exact .list h
  | object hrequired hdeclared hbare hfields => exact .object hrequired hdeclared hbare hfields

theorem regular_document : document.Regular := by
  have hmetadata : metadata.Regular :=
    .object (by decide) (by decide) (by decide) fun field hf => by
      simp only [List.mem_cons, List.not_mem_nil, or_false] at hf
      rcases hf with rfl | rfl | rfl <;> exact .string
  refine .object (by decide) (by decide) (by decide) fun field hf => ?_
  simp only [List.mem_cons, List.not_mem_nil, or_false] at hf
  rcases hf with rfl | rfl | rfl
  · exact .string
  · exact .node
  · exact hmetadata

section Resolving

variable {format inner last : Format} {value part : Json} {step : Step} {path : List Step}

theorem Applies.resolves (h : Applies format value step inner part) (hformat : format.Regular) :
    Text.unit '/' ∉ step.token ∧ Pointer.part? step.token value = some part ∧ inner.Regular := by
  have hregular := hformat.unfold
  cases h with
  | field hu hinner hpart =>
    rw [hu] at hregular
    cases hregular with
    | object _ _ hbare hfields =>
      have hmem := Record.mem_of_lookup hinner
      obtain ⟨hslash, htilde⟩ := hbare _ (List.mem_map_of_mem hmem)
      exact ⟨hslash, by rw [Pointer.part?_field htilde, hpart], hfields _ hmem⟩
  | item hu hpart =>
    rw [hu] at hregular
    cases hregular with
    | list hinner =>
      exact ⟨Step.slash_not_mem_item _, by rw [Pointer.part?_item, hpart], hinner⟩

/-- A place that a format reaches can be found in the value by the text of its path. -/
theorem Reaches.resolves (h : Reaches format value path last part) (hformat : format.Regular) :
    Pointer.resolve? (Text.join (path.map Step.text)) value = some part := by
  have hpath : (∀ step ∈ path, Text.unit '/' ∉ step.token) ∧
      path.foldlM (fun part step => Pointer.part? step.token part) value = some part := by
    induction h with
    | here => exact ⟨by simp, rfl⟩
    | down ha _ ih =>
      obtain ⟨hslash, hpart, hinner⟩ := ha.resolves hformat
      obtain ⟨hslashes, hparts⟩ := ih hinner
      refine ⟨List.forall_mem_cons.mpr ⟨hslash, hslashes⟩, ?_⟩
      rw [List.foldlM_cons, hpart]
      exact hparts
  rw [Pointer.resolve?_path hpath.1, hpath.2]

end Resolving

section Whole

/-- The validator finds the breaches of the value as a whole, each of them once. -/
def Told (format : Format) (value : Json) : Prop :=
  ∃ breaches : List Breach, breaches.Nodup ∧ (∀ b, b ∈ breaches ↔ format.Breaks value b) ∧
    format.broken value = breaches.map Breach.rule

variable {required : List Text} {declared : Record Format} {fields : Record Json}

theorem told_string (value : Json) : Told .string value := by
  cases value with
  | str s => exact ⟨[], List.nodup_nil, fun b => by rw [breaks_iff]; simp, rfl⟩
  | _ => exact ⟨[.notString], by simp, fun b => by rw [breaks_iff]; simp, rfl⟩

theorem told_list (item : Format) (value : Json) : Told (.list item) value := by
  cases value with
  | arr items => exact ⟨[], List.nodup_nil, fun b => by rw [breaks_iff]; simp, rfl⟩
  | _ => exact ⟨[.notArray], by simp, fun b => by rw [breaks_iff]; simp, rfl⟩

theorem told_kind (value : Json) : Told .kind value := by
  cases value with
  | str name =>
    by_cases hk : ∃ k : Kind, name = k.name
    · refine ⟨[], List.nodup_nil, fun b => ?_, broken_kind_eq_nil.mpr hk⟩
      rw [breaks_iff]
      obtain ⟨k, rfl⟩ := hk
      simp
    · have hne : broken .kind (.str name) ≠ [] := fun h => hk (broken_kind_eq_nil.mp h)
      refine ⟨[.notAllowed], by simp, fun b => ?_, ?_⟩
      · rw [breaks_iff]
        simpa using fun _ => hk
      · rw [broken] at hne ⊢
        by_cases h : (Kind.ofName? name).isSome
        · exact absurd (if_pos h) hne
        · exact if_neg h
  | _ => exact ⟨[.notString, .notAllowed], by simp, fun b => by rw [breaks_iff]; simp, rfl⟩

theorem told_coordinate (value : Json) : Told .coordinate value := by
  cases value with
  | num n =>
    refine ⟨(if n.toInt?.isSome then [] else [.notInteger]) ++
      if n.isBelowZero then [.belowZero] else [], ?_, fun b => ?_, ?_⟩
    · split <;> split <;> simp
    · rw [breaks_iff]
      cases n with
      | finite numerator scale =>
        cases scale <;> by_cases h : numerator < 0 <;>
          simp [Json.ofInt, Number.ofInt, Number.toInt?, Number.isBelowZero, h]
      | infinite negative => simp [Json.ofInt, Number.ofInt, Number.toInt?, Number.isBelowZero]
    · rw [broken]
      split <;> split <;> rfl
  | _ => exact ⟨[.notInteger], by simp, fun b => by rw [breaks_iff]; simp [Json.ofInt], rfl⟩

/-- The names that are missing, and those that are not declared. -/
theorem told_object (hrequired : required.Nodup) (hfields : fields.names.Nodup) :
    Told (.object required declared) (.obj fields) := by
  let missing := required.filter fun name => (fields.lookup name).isNone
  let unknown := fields.filter fun field => (declared.lookup field.1).isNone
  have hunknown : (unknown.map Prod.fst).Nodup :=
    hfields.sublist (List.filter_sublist.map Prod.fst)
  refine ⟨missing.map .missing ++ (unknown.map Prod.fst).map .unknown, ?_, fun b => ?_, ?_⟩
  · rw [List.nodup_append]
    refine ⟨?_, ?_, fun b hb c hc hbc => ?_⟩
    · exact (hrequired.filter _).map fun _ _ h => Breach.missing.inj h
    · exact hunknown.map fun _ _ h => Breach.unknown.inj h
    · obtain ⟨_, _, rfl⟩ := List.mem_map.mp hb
      obtain ⟨_, _, rfl⟩ := List.mem_map.mp hc
      cases hbc
  · constructor
    · intro hb
      cases List.mem_append.mp hb with
      | inl hb =>
        obtain ⟨name, hname, rfl⟩ := List.mem_map.mp hb
        obtain ⟨hmem, hnone⟩ := List.mem_filter.mp hname
        exact .missing hmem (Record.lookup_isNone.mp hnone)
      | inr hb =>
        obtain ⟨name, hname, rfl⟩ := List.mem_map.mp hb
        obtain ⟨field, hfield, rfl⟩ := List.mem_map.mp hname
        obtain ⟨hmem, hnone⟩ := List.mem_filter.mp hfield
        exact .unknown (List.mem_map_of_mem hmem) (Record.lookup_isNone.mp hnone)
    · intro hb
      rw [List.mem_append]
      cases hb with
      | notObject h => exact absurd rfl (h fields)
      | missing hmem hnone =>
        exact .inl (List.mem_map_of_mem (List.mem_filter.mpr
          ⟨hmem, Record.lookup_isNone.mpr hnone⟩))
      | unknown hmem hnone =>
        obtain ⟨field, hfield, rfl⟩ := List.mem_map.mp hmem
        exact .inr (List.mem_map_of_mem (List.mem_map_of_mem (List.mem_filter.mpr
          ⟨hfield, Record.lookup_isNone.mpr hnone⟩)))
  · rw [broken, List.map_append, List.map_map, List.map_map, List.map_map]
    rfl

theorem told {format : Format} {value : Json} (hformat : format.Regular)
    (hvalue : value.fields.names.Nodup) : Told format.unfold value := by
  cases hu : format.unfold with
  | string => exact told_string value
  | kind => exact told_kind value
  | coordinate => exact told_coordinate value
  | list item => exact told_list item value
  | node => exact absurd hu (unfold_ne_node format)
  | object required declared =>
    have hregular := hformat.unfold
    rw [hu] at hregular
    cases hregular with
    | object hrequired _ _ _ =>
      cases value with
      | obj fields => exact told_object hrequired hvalue
      | _ => exact ⟨[.notObject], by simp, fun b => by rw [breaks_iff]; simp, rfl⟩

end Whole

section Parts

variable {format : Format}

theorem Told.reports {value : Json} (h : Told format.unfold value) :
    Reports (fun x => x.path = [] ∧ format.Breaks value x.breach)
      ((format.unfold.broken value).map (Violation.mk [])) := by
  obtain ⟨breaches, hnodup, hmem, hbroken⟩ := h
  refine ⟨breaches.map (Fault.mk []), ?_, fun x => ?_, ?_⟩
  · exact hnodup.map fun b c hbc => (Fault.mk.inj hbc).2
  · obtain ⟨path, breach⟩ := x
    simp [hmem, breaks_unfold, eq_comm, and_comm]
  · rw [hbroken, List.map_map, List.map_map]
    rfl

theorem partViolations_eq {declared : Record Format} (h : declared.names.Nodup)
    (fields : Record Json) :
    partViolations declared fields = declared.flatMap fun field =>
      ((fields.lookup field.1).elim [] field.2.violations).map (.under (.field field.1)) := by
  refine List.flatMap_congr fun field hf => ?_
  rw [Record.lookup_of_mem h hf]
  cases fields.lookup field.1 <;> rfl

theorem itemViolations_eq (item : Format) (index : Nat) (items : List Json) :
    itemViolations item index items = (items.zipIdx index).flatMap fun place =>
      (item.violations place.1).map (.under (.item place.2)) := by
  induction items generalizing index with
  | nil => rfl
  | cons first rest ih => rw [itemViolations, ih, List.zipIdx_cons, List.flatMap_cons]

theorem reports_fields {required : List Text} {declared : Record Format}
    {fields : Record Json} (hu : format.unfold = .object required declared)
    (hdeclared : declared.names.Nodup)
    (h : ∀ field ∈ declared, ∀ part, fields.lookup field.1 = some part →
      Reports (field.2.Faulty part) (field.2.violations part)) :
    Reports (format.Within (.obj fields)) (partViolations declared fields) := by
  have hsteps : (declared.map fun field => Step.field field.1).Nodup := by
    have hmap := hdeclared.map (f := Step.field) fun _ _ h => Step.field.inj h
    rwa [Record.names, List.map_map] at hmap
  rw [partViolations_eq hdeclared]
  refine (Reports.parts (P := fun field x => ∃ part, fields.lookup field.1 = some part ∧
    field.2.Faulty part x) hsteps fun field hf => ?_).congr fun x => ?_
  · cases hl : fields.lookup field.1 with
    | none =>
      refine .nil fun x hx => ?_
      obtain ⟨part, hpart, -⟩ := hx
      cases hpart
    | some part => simpa using h field hf part hl
  · constructor
    · rintro ⟨field, hf, y, ⟨part, hpart, hy⟩, rfl⟩
      exact ⟨.field field.1, field.2, part, y,
        .field hu (Record.lookup_of_mem hdeclared hf) hpart, hy, rfl⟩
    · rintro ⟨step, inner, part, y, ha, hy, rfl⟩
      cases ha with
      | field hu' hinner hpart =>
        rw [hu] at hu'
        cases hu'
        exact ⟨_, Record.mem_of_lookup hinner, y, ⟨part, hpart, hy⟩, rfl⟩

theorem reports_items {item : Format} {items : List Json} (hu : format.unfold = .list item)
    (h : ∀ part ∈ items, Reports (item.Faulty part) (item.violations part)) :
    Reports (format.Within (.arr items)) (itemViolations item 0 items) := by
  have hsteps : (items.zipIdx.map fun place => Step.item place.2).Nodup := by
    have hindices : (items.zipIdx.map Prod.snd).Nodup := by
      rw [List.zipIdx_map_snd]
      exact List.nodup_range'
    have hmap := hindices.map (f := Step.item) fun _ _ h => Step.item.inj h
    rwa [List.map_map] at hmap
  rw [itemViolations_eq]
  refine (Reports.parts (P := fun place => item.Faulty place.1) hsteps fun place hp =>
    h place.1 (List.fst_mem_of_mem_zipIdx hp)).congr fun x => ?_
  constructor
  · rintro ⟨place, hp, y, hy, rfl⟩
    exact ⟨.item place.2, item, place.1, y, .item hu (List.mem_zipIdx_iff_getElem?.mp hp), hy, rfl⟩
  · rintro ⟨step, inner, part, y, ha, hy, rfl⟩
    cases ha with
    | item hu' hpart =>
      rw [hu] at hu'
      cases hu'
      exact ⟨(part, _), List.mem_zipIdx_iff_getElem?.mpr hpart, y, hy, rfl⟩

/-- The violations of a value are those of the value as a whole, and then those of its parts. -/
theorem exists_parts {value : Json} (hformat : format.Regular)
    (h : ∀ part ∈ value.parts, ∀ inner : Format, inner.Regular →
      Reports (inner.Faulty part) (inner.violations part)) :
    ∃ parts, format.violations value =
        (format.unfold.broken value).map (Violation.mk []) ++ parts ∧
      Reports (format.Within value) parts := by
  have hregular := hformat.unfold
  cases value with
  | obj fields =>
    cases hu : format.unfold with
    | object required declared =>
      rw [hu] at hregular
      cases hregular with
      | object _ hdeclared _ hinner =>
        refine ⟨_, by rw [violations_obj hu, hu], reports_fields hu hdeclared ?_⟩
        intro field hf part hpart
        exact h part (Json.part_of_lookup hpart) field.2 (hinner field hf)
    | _ =>
      refine ⟨[], by simp only [violations, hu], .nil ?_⟩
      rintro x ⟨step, inner, part, y, ha, _⟩
      cases ha with
      | field hu' => rw [hu] at hu'; cases hu'
  | arr items =>
    cases hu : format.unfold with
    | list item =>
      rw [hu] at hregular
      cases hregular with
      | list hitem =>
        refine ⟨_, by simp only [violations, hu], reports_items hu fun part hp => ?_⟩
        exact h part hp item hitem
    | _ =>
      refine ⟨[], by simp only [violations, hu], .nil ?_⟩
      rintro x ⟨step, inner, part, y, ha, _⟩
      cases ha with
      | item hu' => rw [hu] at hu'; cases hu'
  | _ =>
    refine ⟨[], by simp only [violations, List.append_nil], .nil ?_⟩
    rintro x ⟨step, inner, part, y, ha, _⟩
    cases ha

/-- Every fault of a value is reported, and reported once. -/
theorem reports {format : Format} {value : Json} (hformat : format.Regular)
    (hvalue : value.Distinct) : Reports (format.Faulty value) (format.violations value) := by
  induction value using Json.partInduction generalizing format with
  | step value ih =>
    cases hvalue with
    | mk hnames hparts =>
      obtain ⟨parts, heq, hreports⟩ := exists_parts hformat fun part hp inner hinner =>
        ih part hp hinner (hparts part hp)
      rw [heq]
      refine ((told hformat hnames).reports.append hreports ?_).congr fun x => faulty_iff.symm
      -- A fault of a part has a path that is not empty.
      rintro x ⟨hempty, _⟩ ⟨step, inner, part, y, _, _, rfl⟩
      cases hempty

end Parts

end Format

namespace Document

open Format (Reaches Breaks)

theorem text_eq_pointer (v : Violation) :
    v.text = (if Text.join (v.path.map Step.text) = "" then ("/" : Text)
      else Text.join (v.path.map Step.text)) ++ " " ++ v.rule.text := by
  rw [Violation.text]
  cases hpath : v.path with
  | nil => rfl
  | cons step rest =>
    have hne : Text.join ((step :: rest).map Step.text) ≠ "" := by
      intro h
      have hunits := Step.join_units (step :: rest)
      rw [h] at hunits
      cases hunits
    rw [if_neg hne, List.isEmpty_cons, if_neg Bool.false_ne_true]

/-- A text of which the value has no violation is refused, if at all, for another reason. -/
theorem not_violation_mem {refusal : Text → Text} {text : Text} {value : Json}
    (h : Json.Denotes text value) (hnil : Format.document.violations value = [])
    {problems : List Problem} (hp : parse refusal text = .error problems) (v : Violation) : .violation v ∉ problems := by
  rw [parse_denoted h, ofJson, hnil] at hp
  dsimp only at hp
  split at hp
  · split at hp
    · cases hp; simp
    · split at hp <;> cases hp; simp
  · cases hp; simp

/-- The violations of a value are none exactly if it conforms. Each is at a place that the format
reaches, and the pointer that is shown, a single slash for the whole value, leads to a part that
breaks the rule there. Every fault is reported, and reported once: as many diagnostics as faults,
all under one code. -/
theorem violations_exact (refusal : Text → Text) (value : Json) (hvalue : value.Distinct) :
    (Format.document.violations value = [] ↔ Format.document.Accepts value) ∧
    (∀ v ∈ Format.document.violations value, ∃ last part breach pointer,
      Reaches .document value v.path last part ∧ Breaks last part breach ∧
        breach.rule = v.rule ∧ Pointer.resolve? pointer value = some part ∧
        v.text = (if pointer = "" then ("/" : Text) else pointer) ++ " " ++ v.rule.text) ∧
    ∃ faults : List Fault, faults.Nodup ∧
      (∀ x, x ∈ faults ↔
        ∃ last part, Reaches .document value x.path last part ∧ Breaks last part x.breach) ∧
      Format.document.violations value = faults.map Fault.violation ∧
      ∀ text, Json.Denotes text value →
        (faults ≠ [] → ∃ problems, parse refusal text = .error problems ∧
          problems.length = faults.length ∧
          problems.map (fun p => (p.diagnostic.code.text, p.diagnostic.message)) =
            faults.map fun x : Fault => ("J001", "Invalid AST JSON: " ++ x.violation.text)) ∧
        (faults = [] → ∀ problems, parse refusal text = .error problems →
          ∀ v, .violation v ∉ problems) := by
  obtain ⟨faults, hnodup, hmem, hmap⟩ := Format.reports Format.regular_document hvalue
  refine ⟨Format.violations_eq_nil, ?_, faults, hnodup, hmem, hmap, fun text htext => ⟨?_, ?_⟩⟩
  · rw [hmap]
    intro v hv
    obtain ⟨x, hx, rfl⟩ := List.mem_map.mp hv
    obtain ⟨last, part, hreaches, hbreaks⟩ := (hmem x).mp hx
    exact ⟨last, part, x.breach, Text.join (x.path.map Step.text), hreaches, hbreaks, rfl,
      hreaches.resolves Format.regular_document, text_eq_pointer x.violation⟩
  · intro hne
    have hviolations : Format.document.violations value ≠ [] := by
      rw [hmap]
      exact fun h => hne (List.map_eq_nil_iff.mp h)
    refine ⟨_, by rw [parse_denoted htext, ofJson_violations hviolations], ?_, ?_⟩
    · rw [List.length_map, hmap, List.length_map]
    · rw [hmap, List.map_map, List.map_map]
      rfl
  · rintro rfl problems hp v
    exact not_violation_mem htext hmap hp v

/-- A kind that is no string and a coordinate of -1.5 are wrong in two ways each, and two names are
unknown, of which each is half of a pair. -/
theorem violations_exact_sample :
    let text : Text := "\x7b\"version\":1,\"program\":" ++
      "\x7b\"kind\":3,\"\\ud800\":0,\"\\ud801\":0," ++
      "\"children\":[\x7b\"kind\":\"\"\x7d],\"span\":\x7b\"start\":\x7b\"line\":-1.5,\"col\":0\x7d\x7d\x7d\x7d"
    let line := [Step.field "program", .field "span", .field "start", .field "line"]
    let violations : List Violation :=
      [⟨[.field "version"], .string⟩, ⟨[.field "program"], .closed⟩,
        ⟨[.field "program"], .closed⟩, ⟨[.field "program", .field "kind"], .string⟩,
        ⟨[.field "program", .field "kind"], .allowed⟩,
        ⟨[.field "program", .field "children", .item 0, .field "kind"], .allowed⟩,
        ⟨[.field "program", .field "span"], .required "end"⟩, ⟨line, .integer⟩, ⟨line, .minimum⟩]
    ∃ (value : Json) (faults : List Fault) (problems : List Problem),
      Json.Denotes text value ∧ value.Distinct ∧ faults.Nodup ∧
      (∀ x, x ∈ faults ↔ Format.document.Faulty value x) ∧
      faults.map Fault.violation = violations ∧
      parse id text = .error problems ∧ problems.length = 9 := by
  intro text line violations
  have hread : (Json.parse? text).map Format.document.violations = some violations := by
    decide +kernel
  obtain ⟨value, hparse, hviolations⟩ := Option.map_eq_some_iff.mp hread
  have hvalue := Json.parse?_eq_some.mp hparse
  obtain ⟨_, _, faults, hnodup, hmem, hmap, hreports⟩ := violations_exact id value hvalue.distinct
  rw [hviolations] at hmap
  have hlength : faults.length = 9 := by rw [← List.length_map Fault.violation, ← hmap]; rfl
  have hne : faults ≠ [] := List.length_pos_iff.mp (by omega)
  obtain ⟨problems, hp, hcount, _⟩ := (hreports text hvalue).1 hne
  exact ⟨value, faults, problems, hvalue, hvalue.distinct, hnodup, hmem, hmap.symm, hp,
    hcount.trans hlength⟩

end Document

end TreeCheck
