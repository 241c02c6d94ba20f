import TreeCheck.Proofs.Json.Scan

namespace TreeCheck

namespace Json

/-- The items of an array or the values of an object. -/
def parts : Json → List Json
  | .arr items => items
  | .obj fields => fields.map Prod.snd
  | _ => []

theorem sizeOf_part {value part : Json} (h : part ∈ value.parts) : sizeOf part < sizeOf value := by
  cases value with
  | arr items =>
    have hlt : sizeOf part < sizeOf items := List.sizeOf_lt_of_mem h
    simp only [Json.arr.sizeOf_spec]
    omega
  | obj fields =>
    obtain ⟨field, hf, rfl⟩ := List.mem_map.mp h
    have hlt : sizeOf field < sizeOf fields := List.sizeOf_lt_of_mem hf
    obtain ⟨name, value⟩ := field
    simp only [Json.obj.sizeOf_spec, Prod.mk.sizeOf_spec] at hlt ⊢
    omega
  | null | bool | num | str => cases h

/-- To show something of every value, show it of a value with parts of which it holds. -/
@[elab_as_elim]
theorem partInduction {P : Json → Prop} (step : ∀ value, (∀ part ∈ value.parts, P part) → P value)
    (value : Json) : P value :=
  step value fun part h =>
    have := sizeOf_part h
    partInduction step part
termination_by sizeOf value

/-- The same for what is two levels down, as the children of a node are. -/
@[elab_as_elim]
theorem innerInduction {P : Json → Prop}
    (step : ∀ value, (∀ part ∈ value.parts, ∀ inner ∈ part.parts, P inner) → P value)
    (value : Json) : P value :=
  step value fun _ hp inner hi =>
    have := Nat.lt_trans (sizeOf_part hi) (sizeOf_part hp)
    innerInduction step inner
termination_by sizeOf value

/-- The names of every object in the value are distinct. -/
inductive Distinct : Json → Prop where
  | mk {value : Json} : value.fields.names.Nodup → (∀ part ∈ value.parts, Distinct part) →
    Distinct value

end Json

namespace Record

variable {α : Type} {name other : Text} {value : α} {fields : Record α}

theorem lookup_cons_of_ne (h : other ≠ name) :
    List.lookup other ((name, value) :: fields) = fields.lookup other := by
  rw [List.lookup_cons, beq_eq_false_iff_ne.mpr h]

theorem mem_of_lookup (h : fields.lookup name = some value) : (name, value) ∈ fields := by
  obtain ⟨before, after, rfl, _⟩ := List.lookup_eq_some_iff.mp h
  simp

theorem lookup_of_mem (h : fields.names.Nodup) {field : Text × α} (hf : field ∈ fields) :
    fields.lookup field.1 = some field.2 := by
  induction fields with
  | nil => cases hf
  | cons first rest ih =>
    rw [names, List.map_cons, List.nodup_cons] at h
    rcases List.mem_cons.mp hf with rfl | hrest
    · exact List.lookup_cons_self
    · have hne : field.1 ≠ first.1 := fun heq => h.1 (heq ▸ List.mem_map_of_mem hrest)
      rw [lookup_cons_of_ne hne]
      exact ih h.2 hrest

theorem mem_names_put (h : other ∈ (put name value fields).names) :
    other = name ∨ other ∈ fields.names := by
  induction fields with
  | nil => exact .inl (List.mem_singleton.mp h)
  | cons field rest ih =>
    obtain ⟨key, old⟩ := field
    rw [put] at h
    split at h
    · exact .inr h
    · cases List.mem_cons.mp h with
      | inl h => exact .inr (h ▸ List.mem_cons_self)
      | inr h =>
        cases ih h with
        | inl h => exact .inl h
        | inr h => exact .inr (List.mem_cons_of_mem key h)

theorem names_put : (put name value fields).names =
    if name ∈ fields.names then fields.names else fields.names ++ [name] := by
  induction fields with
  | nil => rfl
  | cons field rest ih =>
    obtain ⟨key, old⟩ := field
    by_cases hk : key = name
    · simp [put, hk, names]
    · have hcons : (put name value ((key, old) :: rest)).names =
          key :: (put name value rest).names := by
        rw [put, if_neg hk]
        rfl
      have hmem : name ∈ names ((key, old) :: rest) ↔ name ∈ names rest := by
        simp [names, Ne.symm hk]
      rw [hcons, ih, if_congr hmem rfl rfl]
      split <;> rfl

theorem nodup_put (h : fields.names.Nodup) : (put name value fields).names.Nodup := by
  induction fields with
  | nil => simp [put, names]
  | cons field rest ih =>
    obtain ⟨key, old⟩ := field
    obtain ⟨hkey, hrest⟩ := List.nodup_cons.mp h
    rw [put]
    split
    · exact h
    · next hne =>
      refine List.nodup_cons.mpr ⟨fun hmem => ?_, ih hrest⟩
      cases mem_names_put hmem with
      | inl h => exact hne h
      | inr h => exact hkey h

theorem mem_put {field : Text × α} (h : field ∈ put name value fields) :
    field.2 = value ∨ field ∈ fields := by
  induction fields with
  | nil => exact .inl (congrArg Prod.snd (List.mem_singleton.mp h))
  | cons first rest ih =>
    obtain ⟨key, old⟩ := first
    rw [put] at h
    split at h
    · cases List.mem_cons.mp h with
      | inl h => exact .inl (congrArg Prod.snd h)
      | inr h => exact .inr (List.mem_cons_of_mem _ h)
    · cases List.mem_cons.mp h with
      | inl h => exact .inr (h ▸ List.mem_cons_self)
      | inr h =>
        cases ih h with
        | inl h => exact .inl h
        | inr h => exact .inr (List.mem_cons_of_mem _ h)

theorem put_of_not_mem (h : name ∉ fields.names) :
    put name value fields = fields ++ [(name, value)] := by
  induction fields with
  | nil => rfl
  | cons field rest ih =>
    obtain ⟨hne, hrest⟩ := not_or.mp fun hmem => h (List.mem_cons.mpr hmem)
    rw [put, if_neg (Ne.symm hne), ih hrest]
    rfl

/-- Distinct fields are put one after another. -/
theorem putAll_of_nodup {more : Record α} (h : (names (fields ++ more)).Nodup) :
    putAll fields more = fields ++ more := by
  induction more generalizing fields with
  | nil => exact (List.append_nil fields).symm
  | cons field rest ih =>
    have hsplit : fields ++ field :: rest = fields ++ [field] ++ rest := by simp
    have hnew : field.1 ∉ fields.names := by
      rw [names, List.map_append, List.nodup_append] at h
      intro hmem
      exact h.2.2 field.1 hmem field.1 (by simp) rfl
    have hput : putAll fields (field :: rest) = putAll (fields ++ [field]) rest := by
      rw [← put_of_not_mem hnew]
      rfl
    rw [hput, hsplit]
    exact ih (hsplit ▸ h)

/-- Names already present keep their places, and new ones follow in their order. -/
theorem names_putAll {more : Record α} (h : more.names.Nodup) :
    (putAll fields more).names = fields.names ++ more.names.filter (· ∉ fields.names) := by
  induction more generalizing fields with
  | nil => simp [putAll, names]
  | cons field rest ih =>
    obtain ⟨hnew, hrest⟩ := List.nodup_cons.mp h
    have hput : (putAll fields (field :: rest)).names =
        (putAll (put field.1 field.2 fields) rest).names := rfl
    rw [hput, ih hrest, names_put]
    change _ = _ ++ (field.1 :: names rest).filter _
    by_cases hmem : field.1 ∈ fields.names
    · rw [if_pos hmem, List.filter_cons_of_neg (by simpa using hmem)]
    · have hkeep : (names rest).filter (· ∉ fields.names ++ [field.1]) =
          (names rest).filter (· ∉ fields.names) := by
        refine List.filter_congr fun name hn => ?_
        have hne : name ≠ field.1 := fun heq => hnew (heq ▸ hn)
        simp [hne]
      rw [if_neg hmem, hkeep, List.filter_cons_of_pos (by simpa using hmem), List.append_assoc]
      rfl

theorem lookup_eq_none (h : name ∉ fields.names) : fields.lookup name = none := by
  rw [List.lookup_eq_none_iff]
  intro field hf
  have hne : name ≠ field.1 := by
    rintro rfl
    exact h (List.mem_map_of_mem hf)
  exact bne_iff_ne.mpr hne

/-- Fields that are picked out by name and value, as names. -/
theorem names_filter (h : fields.names.Nodup) (p : Text × α → Bool) :
    names (fields.filter p) =
      fields.names.filter fun name => (fields.lookup name).any fun value => p (name, value) := by
  induction fields with
  | nil => rfl
  | cons field rest ih =>
    obtain ⟨key, value⟩ := field
    obtain ⟨hnew, hrest⟩ := List.nodup_cons.mp h
    have hsame : (names rest).filter (fun name =>
          (List.lookup name ((key, value) :: rest)).any fun value => p (name, value)) =
        names (rest.filter p) := by
      rw [ih hrest]
      refine List.filter_congr fun name hn => ?_
      have hne : name ≠ key := fun heq => hnew (heq ▸ hn)
      rw [lookup_cons_of_ne hne]
    change _ = (key :: names rest).filter _
    rw [List.filter_cons, List.filter_cons, hsame, List.lookup_cons_self, Option.any_some]
    split <;> rfl

/-- What is set last counts. -/
theorem lookup_putAll {more : Record α} (h : more.names.Nodup) :
    (putAll fields more).lookup name = (more.lookup name).or (fields.lookup name) := by
  induction more generalizing fields with
  | nil => rfl
  | cons field rest ih =>
    obtain ⟨key, value⟩ := field
    obtain ⟨hnew, hrest⟩ := List.nodup_cons.mp h
    have hput : (putAll fields ((key, value) :: rest)).lookup name =
        (putAll (put key value fields) rest).lookup name := rfl
    rw [hput, ih hrest]
    by_cases hk : name = key
    · subst hk
      rw [lookup_eq_none hnew, lookup_put_self, List.lookup_cons_self]
      rfl
    · rw [lookup_put_of_ne hk, lookup_cons_of_ne hk]

theorem nodup_putAll (h : fields.names.Nodup) (more : Record α) :
    (putAll fields more).names.Nodup := by
  induction more generalizing fields with
  | nil => exact h
  | cons field rest ih => exact ih (nodup_put h)

/-- What is in the record was in one of the two. -/
theorem mem_putAll {more : Record α} {field : Text × α} (h : field ∈ putAll fields more) :
    field ∈ fields ∨ ∃ given ∈ more, field.2 = given.2 := by
  induction more generalizing fields with
  | nil => exact .inl h
  | cons given rest ih =>
    cases ih h with
    | inl h =>
      cases mem_put h with
      | inl h => exact .inr ⟨given, List.mem_cons_self, h⟩
      | inr h => exact .inl h
    | inr h =>
      obtain ⟨other, ho, heq⟩ := h
      exact .inr ⟨other, List.mem_cons_of_mem given ho, heq⟩

end Record

namespace Json

theorem Value.distinct {tokens : List Token} {value : Json} (h : Value tokens value) :
    value.Distinct := by
  induction h with
  | null | bool | num | str => exact .mk List.nodup_nil (by simp [parts])
  | arr items _ ih =>
    refine .mk List.nodup_nil fun part hp => ?_
    obtain ⟨item, hi, rfl⟩ := List.mem_map.mp hp
    exact ih item hi
  | obj members _ ih =>
    have hnil : (Record.names ([] : Record Json)).Nodup := List.nodup_nil
    refine .mk (Record.nodup_putAll hnil _) fun part hp => ?_
    obtain ⟨field, hf, rfl⟩ := List.mem_map.mp hp
    cases Record.mem_putAll hf with
    | inl h => cases h
    | inr h =>
      obtain ⟨given, hg, heq⟩ := h
      obtain ⟨m, hm, rfl⟩ := List.mem_map.mp hg
      rw [heq]
      exact ih m hm

theorem Denotes.distinct {text : Text} {value : Json} (h : Denotes text value) :
    value.Distinct := by
  obtain ⟨tokens, _, hv⟩ := h
  exact hv.distinct

theorem Distinct.part {value part : Json} (h : value.Distinct) (hp : part ∈ value.parts) :
    part.Distinct := by
  cases h with
  | mk _ hparts => exact hparts part hp

theorem part_of_lookup {fields : Record Json} {name : Text} {value : Json}
    (h : fields.lookup name = some value) : value ∈ parts (.obj fields) :=
  List.mem_map.mpr ⟨_, Record.mem_of_lookup h, rfl⟩

theorem Distinct.field {fields : Record Json} (h : Distinct (.obj fields)) {name : Text}
    {value : Json} (hv : fields.lookup name = some value) : value.Distinct :=
  h.part (part_of_lookup hv)

end Json

end TreeCheck
