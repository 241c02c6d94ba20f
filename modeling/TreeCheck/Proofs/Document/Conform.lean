import TreeCheck.Document.Format
import TreeCheck.Proofs.Json.Parts

namespace TreeCheck

theorem Kind.ofName?_eq_some {name : Text} {k : Kind} : ofName? name = some k ↔ k.name = name := by
  constructor
  · intro h
    simpa using List.find?_some h
  · rintro rfl
    cases k <;> rfl

namespace Format

/-- The value conforms to the format. An object has the required fields and no field that is not
declared, and each of its fields conforms to the format that is declared for it. -/
inductive Accepts : Format → Json → Prop where
  | string (s : Text) : Accepts .string (.str s)
  | kind (k : Kind) : Accepts .kind (.str k.name)
  | coordinate (n : Nat) : Accepts .coordinate (.ofInt n)
  | list {item : Format} {items : List Json} : (∀ value ∈ items, Accepts item value) →
    Accepts (.list item) (.arr items)
  | object {required : List Text} {declared : List (Text × Format)} {fields : Record Json} :
    (∀ name ∈ required, (fields.lookup name).isSome) →
    (∀ field ∈ fields, (declared.lookup field.1).isSome) →
    (∀ name format value, declared.lookup name = some format → fields.lookup name = some value →
      Accepts format value) →
    Accepts (.object required declared) (.obj fields)
  | node {value : Json} : Accepts (.object ["kind"] nodeFields) value → Accepts .node value

theorem accepts_unfold {format : Format} {value : Json} :
    format.unfold.Accepts value ↔ format.Accepts value := by
  cases format with
  | node => exact ⟨.node, fun h => by cases h with | node h => exact h⟩
  | _ => exact Iff.rfl

/-- The violations of the fields of an object, one declared field after another. -/
def partViolations (declared : List (Text × Format)) (fields : Record Json) : List Violation :=
  declared.flatMap fun field =>
    match declared.lookup field.1, fields.lookup field.1 with
    | some format, some value => (format.violations value).map (.under (.field field.1))
    | _, _ => []

theorem lookup_fieldViolations (declared : List (Text × Format)) (fields : Record Json)
    (name : Text) :
    (fieldViolations declared fields).lookup name = (fields.lookup name).map fun value =>
      match declared.lookup name with
      | some format => (violations format value).map (.under (.field name))
      | none => [] := by
  induction fields with
  | nil => rfl
  | cons field rest ih =>
    obtain ⟨key, value⟩ := field
    rw [fieldViolations, List.lookup_cons, List.lookup_cons]
    cases hk : name == key with
    | true =>
      rw [← eq_of_beq hk]
      rfl
    | false => exact ih

/-- The violations of an object, with its fields looked up by name. -/
theorem violations_obj {format : Format} {required : List Text}
    {declared : List (Text × Format)} (h : format.unfold = .object required declared)
    (fields : Record Json) :
    format.violations (.obj fields) =
      (format.unfold.broken (.obj fields)).map (Violation.mk []) ++
        partViolations declared fields := by
  rw [violations, h]
  congr 1
  refine congrArg (declared.flatMap ·) (funext fun field => ?_)
  rw [lookup_fieldViolations]
  cases fields.lookup field.1 with
  | none => cases declared.lookup field.1 <;> rfl
  | some value => cases declared.lookup field.1 <;> rfl

theorem itemViolations_eq_nil {format : Format} {items : List Json} (index : Nat) :
    itemViolations format index items = [] ↔ ∀ value ∈ items, format.violations value = [] := by
  induction items generalizing index with
  | nil => simp [itemViolations]
  | cons item rest ih => simp [itemViolations, ih]

theorem partViolations_eq_nil {declared : List (Text × Format)} {fields : Record Json} :
    partViolations declared fields = [] ↔ ∀ name format value, declared.lookup name = some format →
      fields.lookup name = some value → format.violations value = [] := by
  rw [partViolations, List.flatMap_eq_nil_iff]
  constructor
  · intro h name format value hf hv
    have hempty := h (name, format) (Record.mem_of_lookup hf)
    simp only [hf, hv] at hempty
    exact List.map_eq_nil_iff.mp hempty
  · intro h field _
    split
    · next format value hf hv => rw [h field.1 format value hf hv, List.map_nil]
    · rfl

theorem broken_kind_eq_nil {name : Text} :
    broken .kind (.str name) = [] ↔ ∃ k : Kind, name = k.name := by
  have hfound : (Kind.ofName? name).isSome ↔ ∃ k : Kind, name = k.name := by
    rw [Option.isSome_iff_exists]
    constructor
    · rintro ⟨k, h⟩
      exact ⟨k, (Kind.ofName?_eq_some.mp h).symm⟩
    · rintro ⟨k, rfl⟩
      exact ⟨k, Kind.ofName?_eq_some.mpr rfl⟩
  rw [← hfound, broken]
  split <;> simp_all

theorem broken_coordinate_eq_nil {n : Number} :
    broken .coordinate (.num n) = [] ↔ ∃ k : Nat, n = .ofInt k := by
  rw [broken, List.append_eq_nil_iff]
  constructor
  · rintro ⟨hint, hmin⟩
    cases n with
    | finite numerator scale =>
      cases scale with
      | zero =>
        have hpos : 0 ≤ numerator := by simpa [Number.isBelowZero] using hmin
        exact ⟨numerator.toNat, by rw [Int.toNat_of_nonneg hpos]; rfl⟩
      | succ scale => simp [Number.toInt?] at hint
    | infinite negative => simp [Number.toInt?] at hint
  · rintro ⟨k, rfl⟩
    simp [Number.ofInt, Number.toInt?, Number.isBelowZero]

theorem broken_object_eq_nil {required : List Text} {declared : List (Text × Format)}
    {fields : Record Json} :
    broken (.object required declared) (.obj fields) = [] ↔
      (∀ name ∈ required, (fields.lookup name).isSome) ∧
        ∀ field ∈ fields, (declared.lookup field.1).isSome := by
  rw [broken, List.append_eq_nil_iff, List.map_eq_nil_iff, List.map_eq_nil_iff,
    List.filter_eq_nil_iff, List.filter_eq_nil_iff]
  simp [Option.isSome_iff_ne_none]

theorem unfold_ne_node (format : Format) : format.unfold ≠ .node := by
  cases format <;> nofun

/-- A value conforms to a format exactly if it has no violation. -/
theorem violations_eq_nil {format : Format} {value : Json} :
    format.violations value = [] ↔ format.Accepts value := by
  induction value using Json.partInduction generalizing format with
  | step value ih =>
    rw [← accepts_unfold]
    cases value with
    | obj fields =>
      cases hf : format.unfold with
      | object required declared =>
        rw [violations_obj hf, List.append_eq_nil_iff, List.map_eq_nil_iff, hf,
          broken_object_eq_nil, partViolations_eq_nil]
        have hparts (name : Text) (part : Format) (value : Json)
            (hv : fields.lookup name = some value) :
            part.violations value = [] ↔ part.Accepts value :=
          ih value (Json.part_of_lookup hv)
        constructor
        · rintro ⟨⟨hrequired, hclosed⟩, hfields⟩
          exact .object hrequired hclosed fun name part value hd hv =>
            (hparts name part value hv).mp (hfields name part value hd hv)
        · intro h
          cases h with
          | object hrequired hclosed hfields =>
            exact ⟨⟨hrequired, hclosed⟩, fun name part value hd hv =>
              (hparts name part value hv).mpr (hfields name part value hd hv)⟩
      | node => exact absurd hf (unfold_ne_node format)
      | string | kind | coordinate | list =>
        simp only [violations, hf, broken]
        exact ⟨nofun, nofun⟩
    | arr items =>
      rw [violations]
      cases hf : format.unfold with
      | list item =>
        simp only [broken, List.map_nil, List.nil_append]
        rw [itemViolations_eq_nil]
        constructor
        · exact fun h => .list fun value hv => (ih value hv).mp (h value hv)
        · intro h value hv
          cases h with
          | list h => exact (ih value hv).mpr (h value hv)
      | node => exact absurd hf (unfold_ne_node format)
      | string | kind | coordinate | object =>
        simp only [broken]
        exact ⟨nofun, nofun⟩
    | num n =>
      simp only [violations, List.map_eq_nil_iff]
      cases hf : format.unfold with
      | coordinate =>
        rw [broken_coordinate_eq_nil]
        constructor
        · rintro ⟨k, rfl⟩
          exact .coordinate k
        · intro h
          cases h with
          | coordinate k => exact ⟨k, rfl⟩
      | node => exact absurd hf (unfold_ne_node format)
      | string | kind | list | object => exact ⟨nofun, nofun⟩
    | str s =>
      simp only [violations, List.map_eq_nil_iff]
      cases hf : format.unfold with
      | string => exact ⟨fun _ => .string s, fun _ => rfl⟩
      | kind =>
        rw [broken_kind_eq_nil]
        constructor
        · rintro ⟨k, rfl⟩
          exact .kind k
        · intro h
          cases h with
          | kind k => exact ⟨k, rfl⟩
      | node => exact absurd hf (unfold_ne_node format)
      | coordinate | list | object => exact ⟨nofun, nofun⟩
    | null | bool =>
      simp only [violations, List.map_eq_nil_iff]
      cases hf : format.unfold with
      | node => exact absurd hf (unfold_ne_node format)
      | _ => exact ⟨nofun, nofun⟩

/-- The violations of one declared field. -/
def partOf (format : Format) (name : Text) (found : Option Json) : List Violation :=
  found.elim [] fun value => (format.violations value).map (.under (.field name))

/-- An object with the right fields violates its format only in them. -/
theorem violations_fields {format : Format} {required : List Text}
    {declared : List (Text × Format)} (h : format.unfold = .object required declared)
    (hdeclared : (Record.names declared).Nodup) {fields : Record Json}
    (hrequired : ∀ name ∈ required, (fields.lookup name).isSome)
    (hclosed : ∀ field ∈ fields, (declared.lookup field.1).isSome) :
    format.violations (.obj fields) =
      declared.flatMap fun field => partOf field.2 field.1 (fields.lookup field.1) := by
  have hbroken : format.unfold.broken (.obj fields) = [] := by
    rw [h]
    exact broken_object_eq_nil.mpr ⟨hrequired, hclosed⟩
  rw [violations_obj h, hbroken, List.map_nil, List.nil_append]
  refine List.flatMap_congr fun field hf => ?_
  rw [Record.lookup_of_mem hdeclared hf]
  cases fields.lookup field.1 <;> rfl

theorem partOf_eq_nil {format : Format} {name : Text} {found : Option Json}
    (h : ∀ value ∈ found, format.Accepts value) : partOf format name found = [] := by
  cases found with
  | none => rfl
  | some value =>
    have haccepts := h value rfl
    rw [partOf, Option.elim_some, violations_eq_nil.mpr haccepts, List.map_nil]

end Format

end TreeCheck
