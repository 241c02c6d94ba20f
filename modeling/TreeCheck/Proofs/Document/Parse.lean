import TreeCheck.Proofs.Document.Describe

namespace TreeCheck.Document

variable {refusal : Text → Text} {value program : Json} {given : Text} {n : Node}

/-- What a value of the document format has. -/
theorem exists_document (h : Format.document.Accepts value) (hd : value.Distinct) :
    ∃ given program n, value.field? "version" = some (.str given) ∧
      value.field? "program" = some program ∧ Describes program n := by
  cases h with
  | @object _ _ fields hrequired _ hfields =>
    obtain ⟨versionValue, hv⟩ := Option.isSome_iff_exists.mp (hrequired "version" (by simp))
    obtain ⟨program, hp⟩ := Option.isSome_iff_exists.mp (hrequired "program" (by simp))
    obtain ⟨given, rfl⟩ := exists_string (hfields "version" .string versionValue rfl hv)
    obtain ⟨n, hn⟩ := exists_describes (hfields "program" .node program rfl hp) (hd.field hp)
    exact ⟨given, program, n, hv, hp, hn⟩

/-- A value of the format: the version is looked at before the root. -/
theorem ofJson_accepted (h : Format.document.Accepts value)
    (hv : value.field? "version" = some (.str given)) (hp : value.field? "program" = some program)
    (hn : Describes program n) :
    ofJson value =
      if given ≠ version then .error [.unsupportedVersion given]
      else if n.kind ≠ .program then .error [.rootKind n.kind]
      else .ok n := by
  rw [ofJson, Format.violations_eq_nil.mpr h]
  simp only [hv, hp, Option.bind_some, Json.str?, hn.node?_eq]

theorem ofJson_violations (h : Format.document.violations value ≠ []) :
    ofJson value = .error ((Format.document.violations value).map .violation) := by
  rw [ofJson]
  cases hviolations : Format.document.violations value with
  | nil => exact absurd hviolations h
  | cons v rest => rfl

theorem ofJson_refused (h : ¬ Format.document.Accepts value) :
    ∃ (v : Violation) (rest : List Violation),
      ofJson value = .error (.violation v :: rest.map .violation) := by
  have hne : Format.document.violations value ≠ [] := fun hnil => h (Format.violations_eq_nil.mp hnil)
  obtain ⟨v, rest, hviolations⟩ := List.exists_cons_of_ne_nil hne
  refine ⟨v, rest, ?_⟩
  rw [ofJson_violations hne, hviolations, List.map_cons]

theorem parse_denoted {text : Text} (h : Json.Denotes text value) :
    parse refusal text = ofJson value := by
  rw [parse, Json.parse?_eq_some.mpr h]

theorem parse_undenoted {text : Text} (h : ¬ ∃ value, Json.Denotes text value) :
    parse refusal text = .error [.notJson (refusal text)] := by
  rw [parse]
  cases hp : Json.parse? text with
  | none => rfl
  | some value => exact absurd ⟨value, Json.parse?_eq_some.mp hp⟩ h

theorem Describes.kind_eq (h : Describes program n) :
    program.field? "kind" = some (.str n.kind.name) := by
  cases h with
  | mk _ hkind => exact hkind

/-- The text is JSON of the document format and has this version and this program. -/
def IsDocument (text given : Text) (program : Json) : Prop :=
  ∃ value, Json.Denotes text value ∧ Format.document.Accepts value ∧
    value.field? "version" = some (.str given) ∧ value.field? "program" = some program

theorem IsDocument.exists_describes {text : Text} (h : IsDocument text given program) :
    ∃ n, Describes program n := by
  obtain ⟨value, hvalue, hformat, _, hp⟩ := h
  obtain ⟨_, found, n, _, hfound, hn⟩ := exists_document hformat hvalue.distinct
  rw [hp] at hfound
  exact ⟨n, Option.some.inj hfound ▸ hn⟩

theorem IsDocument.parse_eq {text : Text} (h : IsDocument text given program)
    (hn : Describes program n) :
    parse refusal text =
      if given ≠ version then .error [.unsupportedVersion given]
      else if n.kind ≠ .program then .error [.rootKind n.kind]
      else .ok n := by
  obtain ⟨value, hvalue, hformat, hv, hp⟩ := h
  rw [parse_denoted hvalue, ofJson_accepted hformat hv hp hn]

/-- Every text is of one of three sorts. -/
theorem text_cases (text : Text) :
    (¬ ∃ value, Json.Denotes text value) ∨
      (∃ value, Json.Denotes text value ∧ ¬ Format.document.Accepts value) ∨
      ∃ given program n, IsDocument text given program ∧ Describes program n := by
  cases hp : Json.parse? text with
  | none =>
    refine .inl fun ⟨value, hv⟩ => ?_
    rw [Json.parse?_eq_some.mpr hv] at hp
    cases hp
  | some value =>
    have hvalue := Json.parse?_eq_some.mp hp
    by_cases h : Format.document.Accepts value
    · obtain ⟨given, program, n, hv, hp, hn⟩ := exists_document h hvalue.distinct
      exact .inr (.inr ⟨given, program, n, ⟨value, hvalue, h, hv, hp⟩, hn⟩)
    · exact .inr (.inl ⟨value, hvalue, h⟩)

theorem kind_name_eq_program {kind : Kind} : kind.name = "Program" ↔ kind = .program := by
  cases kind <;> decide

theorem parse_eq_ok {text : Text} :
    parse refusal text = .ok n ↔ ∃ program, IsDocument text version program ∧
      program.field? "kind" = some (.str "Program") ∧ Describes program n := by
  constructor
  · intro h
    rcases text_cases text with hnone | ⟨value, hvalue, hformat⟩ | ⟨given, program, m, hdoc, hm⟩
    · rw [parse_undenoted hnone] at h
      cases h
    · obtain ⟨v, rest, hrefused⟩ := ofJson_refused hformat
      rw [parse_denoted hvalue, hrefused] at h
      cases h
    · rw [hdoc.parse_eq hm] at h
      split at h
      · cases h
      · next hversion =>
        split at h
        · cases h
        · next hkind =>
          cases h
          rw [Decidable.not_not.mp hversion] at hdoc
          refine ⟨program, hdoc, ?_, hm⟩
          rw [hm.kind_eq, Decidable.not_not.mp hkind]
          rfl
  · rintro ⟨program, hdoc, hkind, hn⟩
    rw [hn.kind_eq] at hkind
    have hprogram : n.kind = .program := by
      rw [← kind_name_eq_program]
      simpa using hkind
    rw [hdoc.parse_eq hn, if_neg (by simp), if_neg (by simp [hprogram])]

/-- A refusal reports something, and all of it at the origin. -/
theorem parse_eq_error {text : Text} {problems : List Problem}
    (h : parse refusal text = .error problems) :
    problems ≠ [] ∧ ∀ p ∈ problems, p.diagnostic.span = some (.ofPosition .origin) := by
  refine ⟨fun hnil => ?_, fun p _ => rfl⟩
  rw [hnil] at h
  rcases text_cases text with hnone | ⟨value, hvalue, hformat⟩ | ⟨given, program, m, hdoc, hm⟩
  · rw [parse_undenoted hnone] at h
    cases h
  · obtain ⟨v, rest, hrefused⟩ := ofJson_refused hformat
    rw [parse_denoted hvalue, hrefused] at h
    cases h
  · rw [hdoc.parse_eq hm] at h
    split at h
    · cases h
    · split at h <;> cases h

/-- A text holds a tree exactly if it is JSON of the document format, of the right version and with
a program as its root, and the tree is what the text describes. For any other text there is
something to report, at the first place of the source, and the first reason that applies is the only
one. -/
theorem parse_exact (refusal : Text → Text) (text : Text) :
    (∀ n, parse refusal text = .ok n ↔ ∃ program, IsDocument text "1.0" program ∧
      program.field? "kind" = some (.str "Program") ∧ Describes program n) ∧
    (∀ problems, parse refusal text = .error problems → problems ≠ [] ∧
      ∀ p ∈ problems, p.diagnostic.span = some ⟨⟨1, 1, false⟩, ⟨1, 1, false⟩, false⟩) ∧
    ((¬ ∃ value, Json.Denotes text value) →
      ∃ p, parse refusal text = .error [p] ∧ p.diagnostic.code.text = "J001" ∧
        p.diagnostic.message = "Invalid AST JSON: " ++ refusal text) ∧
    (∀ value, Json.Denotes text value → ¬ Format.document.Accepts value →
      ∃ problems, parse refusal text = .error problems ∧
        ∀ p ∈ problems, p.diagnostic.code.text = "J001") ∧
    (∀ given program, IsDocument text given program → given ≠ "1.0" →
      ∃ p, parse refusal text = .error [p] ∧ p.diagnostic.code.text = "J002" ∧
        p.diagnostic.data = [(("version" : Text), some (Json.str given))]) ∧
    (∀ program kind, IsDocument text "1.0" program → program.field? "kind" = some (.str kind) →
      kind ≠ "Program" → ∃ p, parse refusal text = .error [p] ∧ p.diagnostic.code.text = "J001") := by
  refine ⟨fun n => parse_eq_ok, fun problems h => parse_eq_error h, ?_, ?_, ?_, ?_⟩
  · intro hnone
    exact ⟨.notJson (refusal text), parse_undenoted hnone, rfl, rfl⟩
  · intro value hvalue hformat
    obtain ⟨v, rest, hrefused⟩ := ofJson_refused hformat
    refine ⟨.violation v :: rest.map .violation, by rw [parse_denoted hvalue, hrefused], ?_⟩
    rw [← List.map_cons]
    intro p hp
    obtain ⟨w, _, rfl⟩ := List.mem_map.mp hp
    rfl
  · intro given program hdoc hgiven
    obtain ⟨n, hn⟩ := hdoc.exists_describes
    refine ⟨.unsupportedVersion given, ?_, rfl, rfl⟩
    rw [hdoc.parse_eq hn]
    exact if_pos hgiven
  · intro program kind hdoc hkind hne
    obtain ⟨n, hn⟩ := hdoc.exists_describes
    have hroot : n.kind ≠ .program := by
      intro h
      rw [hn.kind_eq, h] at hkind
      exact hne (by simpa [Kind.name] using hkind.symm)
    refine ⟨.rootKind n.kind, ?_, rfl⟩
    rw [hdoc.parse_eq hn, if_neg (by simp [version]), if_pos hroot]

/-- A field given twice counts as the last one, a string may be written with escapes, and an escaped
half of a pair is kept. -/
theorem parse_exact_duplicate :
    let text : Text := "\x7b\"version\":\"0\",\"version\":\"1.\\u0030\",\"program\":" ++
      "\x7b\"value\":\"\\ud800\",\"kind\":\"Program\"\x7d\x7d"
    ∃ n program, parse id text = .ok n ∧ n.value = some ⟨[0xD800]⟩ ∧ IsDocument text "1.0" program ∧
      program.field? "kind" = some (.str "Program") ∧ Describes program n := by
  intro text
  have hok : (parse id text).toOption.map Node.value = some (some ⟨[0xD800]⟩) := by decide +kernel
  cases hp : parse id text with
  | error problems =>
    rw [hp] at hok
    cases hok
  | ok n =>
    rw [hp] at hok
    obtain ⟨program, hdoc, hkind, hn⟩ := ((parse_exact id text).1 n).mp hp
    exact ⟨n, program, rfl, Option.some.inj hok, hdoc, hkind, hn⟩

end TreeCheck.Document
