import TreeCheck.Proofs.Json.Print

namespace TreeCheck

open Text

section Numbers

/-- An ASCII character that leaves a mark on its line. -/
def IsVisible (c : Char) : Prop := 0x20 < c.toNat ∧ c.toNat < 0x80

instance (c : Char) : Decidable (IsVisible c) := inferInstanceAs (Decidable (_ ∧ _))

theorem Decimal.visible_ofNat (n : Nat) : ∀ c ∈ Decimal.ofNat n, IsVisible c := by
  intro c hc
  have hdigit : c.isDigit = true := Nat.isDigit_of_mem_toDigits (by decide) (by decide) hc
  obtain ⟨hlow, hhigh⟩ := Json.isDigit_bounds hdigit
  exact ⟨by omega, by omega⟩

theorem Decimal.visible_text (d : Decimal) : ∀ c ∈ d.text, IsVisible c := by
  have hdigits := Decimal.visible_ofNat d.digits
  have htake (n : Nat) : ∀ c ∈ (Decimal.ofNat d.digits).take n, IsVisible c :=
    fun c hc => hdigits c (List.mem_of_mem_take hc)
  have hdrop (n : Nat) : ∀ c ∈ (Decimal.ofNat d.digits).drop n, IsVisible c :=
    fun c hc => hdigits c (List.mem_of_mem_drop hc)
  have hzeros (n : Nat) : ∀ c ∈ List.replicate n '0', IsVisible c :=
    fun c hc => List.eq_of_mem_replicate hc ▸ by decide
  have hpower (n : Nat) := Decimal.visible_ofNat n
  have hmarks : IsVisible '.' ∧ IsVisible '0' ∧ IsVisible 'e' ∧ IsVisible '-' ∧ IsVisible '+' := by
    decide
  unfold Decimal.text
  dsimp only
  split
  · exact List.forall_mem_append.mpr ⟨hdigits, hzeros _⟩
  · split
    · exact List.forall_mem_append.mpr ⟨htake _, List.forall_mem_cons.mpr ⟨hmarks.1, hdrop _⟩⟩
    · split
      · refine List.forall_mem_append.mpr ⟨?_, hdigits⟩
        exact List.forall_mem_cons.mpr ⟨hmarks.2.1, List.forall_mem_cons.mpr ⟨hmarks.1, hzeros _⟩⟩
      · refine List.forall_mem_append.mpr ⟨List.forall_mem_append.mpr ⟨htake _, ?_⟩, ?_⟩
        · split
          · exact fun c hc => absurd hc List.not_mem_nil
          · exact List.forall_mem_cons.mpr ⟨hmarks.1, hdrop _⟩
        · refine List.forall_mem_cons.mpr ⟨hmarks.2.2.1, List.forall_mem_cons.mpr ⟨?_, hpower _⟩⟩
          split
          · exact hmarks.2.2.2.1
          · exact hmarks.2.2.2.2

theorem Number.visible_text (n : Number) : ∀ c ∈ n.text, IsVisible c := by
  have hminus : IsVisible '-' := by decide
  unfold Number.text
  split
  · simp [IsVisible]
  · next n scale =>
    have hint := Decimal.visible_ofNat n.natAbs
    have hmagnitude := Decimal.visible_text (Decimal.shortest n.natAbs scale)
    split
    · unfold Number.intText
      split
      · exact List.forall_mem_cons.mpr ⟨hminus, hint⟩
      · exact hint
    · dsimp only
      split
      · exact List.forall_mem_cons.mpr ⟨hminus, hmagnitude⟩
      · exact hmagnitude

theorem newline_not_mem_spelled {chars : List Char} (h : ∀ c ∈ chars, IsVisible c) :
    unit '\n' ∉ spelled chars := by
  intro hn
  obtain ⟨c, hc, hunit⟩ := List.mem_map.mp hn
  obtain ⟨hlow, hhigh⟩ := h c hc
  have hnat := congrArg UInt16.toNat hunit
  rw [toNat_unit (by omega), toNat_unit (by decide)] at hnat
  have hline : '\n'.toNat = 0x0A := rfl
  omega

end Numbers

namespace Json

@[simp]
theorem Layout.compact_lineBreak (depth : Nat) : Layout.compact.lineBreak depth = [] := rfl

@[simp]
theorem Layout.compact_afterName : Layout.compact.afterName = [unit ':'] := rfl

/-- The line end as a unit, against the marks around values. -/
theorem newline_ne_mark : unit '\n' ≠ unit ',' ∧ unit '\n' ≠ unit ':' ∧ unit '\n' ≠ unit '"' ∧
    unit '\n' ≠ unit '[' ∧ unit '\n' ≠ unit ']' ∧ unit '\n' ≠ unit '{' ∧ unit '\n' ≠ unit '}' := by
  decide

theorem newline_not_mem_hexEscape (u : UInt16) : unit '\n' ∉ hexEscape u := by
  have hhex : ∀ digit < 16, IsVisible digit.digitChar := by decide
  have hlt : u.toNat < 0x10000 := u.toNat_lt
  refine newline_not_mem_spelled ?_
  simp only [List.forall_mem_cons, List.not_mem_nil, false_implies, implies_true, and_true]
  exact ⟨by decide, by decide, hhex _ (by omega), hhex _ (by omega), hhex _ (by omega),
    hhex _ (by omega)⟩

theorem newline_not_mem_escape (u : UInt16) : unit '\n' ∉ escape u := by
  unfold escape
  split
  case h_8 hline _ _ =>
    split
    · exact newline_not_mem_hexEscape u
    · intro h
      rw [List.mem_singleton] at h
      exact hline (h ▸ rfl)
  all_goals decide

theorem newline_not_mem_rewrite (units : List UInt16) :
    unit '\n' ∉ rewrite hexEscape escape units := by
  have hhalf {u : UInt16} (h : IsHigh u ∨ IsLow u) : unit '\n' ≠ u := by
    intro hu
    exact absurd (hu ▸ h) (by decide)
  fun_induction rewrite hexEscape escape units with
  | case1 => exact List.not_mem_nil
  | case2 u h => exact newline_not_mem_hexEscape u
  | case3 u h => exact newline_not_mem_escape u
  | case4 u next rest h ih => simp [hhalf (.inl h.1), hhalf (.inr h.2), ih]
  | case5 u next rest h ih =>
    refine List.not_mem_append ?_ ih
    split
    · exact newline_not_mem_hexEscape u
    · exact newline_not_mem_escape u

theorem newline_not_mem_quote (s : Text) : unit '\n' ∉ quote s := by
  have hbody := newline_not_mem_rewrite s.units
  simp [quote, hbody, newline_ne_mark]

theorem newline_not_mem_writeItems {items : List Json}
    (h : ∀ item ∈ items, ∀ depth, unit '\n' ∉ write .compact depth item) (depth : Nat) :
    unit '\n' ∉ writeItems .compact depth items := by
  induction items with
  | nil => simp [writeItems]
  | cons item rest ih =>
    have hitem := h item List.mem_cons_self depth
    have hrest := ih fun other ho => h other (List.mem_cons_of_mem item ho)
    simp [writeItems, newline_ne_mark, hitem, hrest]

theorem newline_not_mem_writeFields {fields : Record Json}
    (h : ∀ field ∈ fields, ∀ depth, unit '\n' ∉ write .compact depth field.2) (depth : Nat) :
    unit '\n' ∉ writeFields .compact depth fields := by
  induction fields with
  | nil => simp [writeFields]
  | cons field rest ih =>
    have hvalue := h field List.mem_cons_self depth
    have hrest := ih fun other ho => h other (List.mem_cons_of_mem field ho)
    simp [writeFields, newline_ne_mark, newline_not_mem_quote, hvalue, hrest]

theorem newline_not_mem_write (value : Json) : ∀ depth, unit '\n' ∉ write .compact depth value := by
  induction value using Json.partInduction with
  | step value ih =>
    intro depth
    cases value with
    | null => exact newline_not_mem_spelled (by simp [IsVisible])
    | bool b => cases b <;> exact newline_not_mem_spelled (by simp [IsVisible])
    | num n => exact newline_not_mem_spelled n.visible_text
    | str s => exact newline_not_mem_quote s
    | arr items =>
      cases items with
      | nil => exact newline_not_mem_spelled (by simp [IsVisible])
      | cons item rest =>
        have hitem := ih item List.mem_cons_self (depth + 1)
        have hrest := newline_not_mem_writeItems
          (fun other ho => ih other (List.mem_cons_of_mem item ho)) (depth + 1)
        simp [write, newline_ne_mark, hitem, hrest]
    | obj fields =>
      cases fields with
      | nil => exact newline_not_mem_spelled (by simp [IsVisible])
      | cons field rest =>
        have hvalue := ih field.2 List.mem_cons_self (depth + 1)
        have hrest := newline_not_mem_writeFields
          (fun other ho => ih other.2 (List.mem_cons_of_mem _ (List.mem_map_of_mem ho))) (depth + 1)
        simp [write, newline_ne_mark, newline_not_mem_quote, hvalue, hrest]

theorem Layout.compact_blank : Layout.compact.Blank :=
  ⟨fun _ _ hc => absurd hc List.not_mem_nil, [], rfl, fun _ hc => absurd hc List.not_mem_nil⟩

/-- A plain value is read back from its text on one line. -/
theorem Plain.parse?_compact {value : Json} (h : value.Plain) : parse? value.compact = some value :=
  parse?_eq_some.mpr (h.denotes Layout.compact_blank 0)

end Json

/-- The pieces of a text between its line ends; the last one is empty if every line is ended. -/
def pieces (text : Text) : List Text := (text.units.splitOn (unit '\n')).map Text.mk

theorem splitOn_lines {lines : List (List UInt16)} (h : ∀ line ∈ lines, unit '\n' ∉ line) :
    (lines.flatMap (· ++ [unit '\n'])).splitOn (unit '\n') = lines ++ [[]] := by
  induction lines with
  | nil => exact List.splitOn_nil (unit '\n')
  | cons line rest ih =>
    rw [List.flatMap_cons, List.append_assoc, List.singleton_append,
      List.splitOn_append_cons_self_of_not_mem (h line List.mem_cons_self),
      ih fun other ho => h other (List.mem_cons_of_mem line ho), List.cons_append]

namespace Json

/-- Values one a line. -/
def lines (values : List Json) : Text := Text.join (values.map fun value => value.compact ++ "\n")

/-- The values that the lines of a text denote: each line is ended and holds one value. -/
def readLines? (text : Text) : Option (List Json) :=
  if (pieces text).getLast? = some ("" : Text) then (pieces text).dropLast.mapM parse? else none

theorem pieces_lines (values : List Json) :
    pieces (lines values) = values.map compact ++ [("" : Text)] := by
  have htext : (lines values).units =
      (values.map fun value => write .compact 0 value).flatMap (· ++ [unit '\n']) := by
    rw [lines, Text.join, List.flatMap_map, List.flatMap_map]
    rfl
  have hlines : ∀ line ∈ values.map (fun value => write .compact 0 value), unit '\n' ∉ line := by
    intro line hl
    obtain ⟨value, _, rfl⟩ := List.mem_map.mp hl
    exact newline_not_mem_write value 0
  rw [pieces, htext, splitOn_lines hlines, List.map_append, List.map_map]
  rfl

theorem mapM_parse?_compact {values : List Json} (h : ∀ value ∈ values, value.Plain) :
    (values.map compact).mapM parse? = some values := by
  induction values with
  | nil => rfl
  | cons value rest ih =>
    have hvalue := (h value List.mem_cons_self).parse?_compact
    have hrest := ih fun other ho => h other (List.mem_cons_of_mem value ho)
    simp [hvalue, hrest]

/-- Plain values are read back from the lines that they are written on. -/
theorem readLines?_lines {values : List Json} (h : ∀ value ∈ values, value.Plain) :
    readLines? (lines values) = some values := by
  rw [readLines?, pieces_lines, List.getLast?_concat, if_pos rfl, List.dropLast_concat,
    mapM_parse?_compact h]

end Json

end TreeCheck
