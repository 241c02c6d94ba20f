import TreeCheck.Text

namespace TreeCheck

/-- Named values, in the order in which the names were first given. -/
abbrev Record (α : Type) := List (Text × α)

namespace Record

variable {α : Type}

/-- Sets a name: one already present keeps its place and takes the new value, a new one goes last.
-/
def put (name : Text) (value : α) : Record α → Record α
  | [] => [(name, value)]
  | (key, old) :: rest =>
    if key = name then (key, value) :: rest else (key, old) :: put name value rest

/-- Sets the names of `more` in turn. -/
def putAll (fields more : Record α) : Record α :=
  more.foldl (fun record field => put field.1 field.2 record) fields

/-- The names, in order. -/
def names (fields : Record α) : List Text := fields.map Prod.fst

theorem lookup_put_self (name : Text) (value : α) (fields : Record α) :
    (put name value fields).lookup name = some value := by
  induction fields with
  | nil => simp [put]
  | cons field rest ih =>
    obtain ⟨key, old⟩ := field
    by_cases h : key = name
    · simp [put, h]
    · simp [put, h, List.lookup_cons, ih, beq_eq_false_iff_ne.mpr (Ne.symm h)]

theorem lookup_put_of_ne {name other : Text} (h : other ≠ name) (value : α) (fields : Record α) :
    (put name value fields).lookup other = fields.lookup other := by
  induction fields with
  | nil => simp [put, List.lookup_cons, beq_eq_false_iff_ne.mpr h]
  | cons field rest ih =>
    obtain ⟨key, old⟩ := field
    by_cases hk : key = name
    · simp [put, hk, List.lookup_cons, beq_eq_false_iff_ne.mpr h]
    · simp [put, hk, List.lookup_cons, ih]

end Record

end TreeCheck
