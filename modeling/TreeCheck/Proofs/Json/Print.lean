import TreeCheck.Json.Writer
import TreeCheck.Proofs.Json.Numerals
import TreeCheck.Proofs.Json.Parts

namespace TreeCheck.Json

open Text

section Strings

theorem IsBody.append {body more read next : List UInt16} (h : IsBody body read)
    (hm : IsBody more next) : IsBody (body ++ more) (read ++ next) := by
  induction hm with
  | nil => simpa using h
  | snoc _ he ih =>
    rw [← List.append_assoc, ← List.append_assoc]
    exact ih.snoc he

theorem IsElement.isBody {element : List UInt16} {u : UInt16} (h : IsElement element u) :
    IsBody element [u] := IsBody.nil.snoc h

theorem hexEscape_isElement (u : UInt16) : IsElement (hexEscape u) u := by
  have hex (digit : Nat) (h : digit < 16) : IsHex digit.digitChar digit := ⟨h, .inl rfl⟩
  have hlt : u.toNat < 0x10000 := u.toNat_lt
  have hhexes := (((IsHexes.nil.snoc (hex (u.toNat / 0x1000) (by omega))).snoc
    (hex (u.toNat / 0x100 % 16) (by omega))).snoc (hex (u.toNat / 16 % 16) (by omega))).snoc
    (hex (u.toNat % 16) (by omega))
  have hvalue : (((0 * 16 + u.toNat / 0x1000) * 16 + u.toNat / 0x100 % 16) * 16 +
      u.toNat / 16 % 16) * 16 + u.toNat % 16 = u.toNat := by omega
  rw [hvalue] at hhexes
  have helement := IsElement.unit hhexes rfl
  rwa [UInt16.ofNat_toNat] at helement

theorem plain_isElement {u : UInt16} (hquote : letter u ≠ '"') (hslash : letter u ≠ '\\')
    (hcontrol : 0x20 ≤ u.toNat) : IsElement [u] u := by
  refine .plain ?_ ?_ hcontrol
  · intro h
    exact hquote (h ▸ letter_unit (by decide))
  · intro h
    exact hslash (h ▸ letter_unit (by decide))

theorem escape_isElement (u : UInt16) : IsElement (escape u) u := by
  have hshort {c letter : Char} (hu : Text.letter u = c) (hc : (letter, c) ∈ shortEscapes) :
      IsElement (spelled ['\\', letter]) u := by
    have hnull : ∀ e ∈ shortEscapes, e.2 ≠ '\x00' := by decide
    have hunit : unit c = u := hu ▸ unit_letter (hu ▸ hnull _ hc)
    exact hunit ▸ .short hc
  unfold escape
  split
  case h_8 hquote hslash _ _ _ _ _ =>
    split
    · exact hexEscape_isElement u
    · next hcontrol => exact plain_isElement hquote hslash (Nat.le_of_not_lt hcontrol)
  all_goals
    next hu => exact hshort hu (by decide)

/-- Half of a pair stands for itself, whatever stands beside it. -/
theorem half_isElement {u : UInt16} (h : IsHigh u ∨ IsLow u) : IsElement [u] u := by
  have hlarge : 0xD800 ≤ u.toNat := by
    simp only [IsHigh, IsLow] at h
    omega
  have hsmall (c : Char) (hc : c.toNat < 0xD800) : u ≠ unit c := by
    intro hu
    rw [hu, toNat_unit (by omega)] at hlarge
    omega
  exact .plain (hsmall '"' (by decide)) (hsmall '\\' (by decide)) (by omega)

theorem escapes_isElement (u : UInt16) :
    IsElement (if IsHigh u ∨ IsLow u then hexEscape u else escape u) u := by
  split
  · exact hexEscape_isElement u
  · exact escape_isElement u

theorem rewrite_isBody (units : List UInt16) : IsBody (rewrite hexEscape escape units) units := by
  fun_induction rewrite hexEscape escape units with
  | case1 => exact .nil
  | case2 u h => exact (hexEscape_isElement u).isBody
  | case3 u h => exact (escape_isElement u).isBody
  | case4 u next rest h ih =>
    have hpair := (half_isElement (.inl h.1)).isBody.append (half_isElement (.inr h.2)).isBody
    exact hpair.append ih
  | case5 u next rest h ih => exact (escapes_isElement u).isBody.append ih

theorem quote_lexeme (s : Text) : Lexeme (quote s) (.str s) := .str (rewrite_isBody s.units)

end Strings

section Values

/-- A layout that breaks with blanks only. -/
structure Layout.Blank (layout : Layout) : Prop where
  lineBreak : ∀ depth, ∀ u ∈ layout.lineBreak depth, IsBlank u
  afterName : ∃ blanks, layout.afterName = unit ':' :: blanks ∧ ∀ u ∈ blanks, IsBlank u

theorem Layout.indented_blank : Layout.indented.Blank := by
  refine ⟨fun depth u hu => ?_, [unit ' '], rfl, by simp [IsBlank]⟩
  obtain ⟨c, hc, rfl⟩ := List.mem_map.mp hu
  cases List.mem_cons.mp hc with
  | inl hc => exact .inr (.inr (.inl (congrArg unit hc)))
  | inr hc => exact .inl (congrArg unit (List.eq_of_mem_replicate hc))

/-- A value that can be written and read back: its numbers can be stored, and the names of an object
are distinct. -/
inductive Plain : Json → Prop where
  | null : Plain .null
  | bool (b : Bool) : Plain (.bool b)
  | num {n : Number} : n.Storable → Plain (.num n)
  | str (s : Text) : Plain (.str s)
  | arr {items : List Json} : (∀ item ∈ items, Plain item) → Plain (.arr items)
  | obj {fields : Record Json} : fields.names.Nodup → (∀ field ∈ fields, Plain field.2) →
    Plain (.obj fields)

theorem Plain.ofInt {n : Int} (h : n.natAbs ≤ 2 ^ 53) : Plain (.ofInt n) :=
  .num (Number.storable_ofInt h)

theorem lexed_blanks {blanks : List UInt16} (h : ∀ u ∈ blanks, IsBlank u) : Lexed blanks [] := by
  induction blanks with
  | nil => exact .nil
  | cons u rest ih =>
    exact .blank (h u List.mem_cons_self) (ih fun v hv => h v (List.mem_cons_of_mem u hv))

theorem Lexeme.lexed {text : List UInt16} {token : Token} (h : Lexeme text token) :
    Lexed text [token] := by
  simpa using Lexed.token h .nil

/-- The text of a value is made up of tokens of the value. -/
def Writes (layout : Layout) (value : Json) : Prop :=
  ∀ depth, ∃ tokens, Lexed (write layout depth value) tokens ∧ Value tokens value

variable {layout : Layout}

theorem writeItems_lexed (hl : layout.Blank) {items : List Json}
    (h : ∀ item ∈ items, Writes layout item) (depth : Nat) :
    ∃ parts : List (List Token × Json), parts.map Prod.snd = items ∧
      (∀ part ∈ parts, Value part.1 part.2) ∧
      Lexed (writeItems layout depth items) ((parts.map Prod.fst).flatMap (.comma :: ·)) := by
  induction items with
  | nil => exact ⟨[], rfl, by simp, .nil⟩
  | cons item items ih =>
    obtain ⟨tokens, hlexed, hvalue⟩ := h item List.mem_cons_self depth
    obtain ⟨parts, hparts, hvalues, hrest⟩ := ih fun other ho => h other (List.mem_cons_of_mem item ho)
    refine ⟨(tokens, item) :: parts, by simp [hparts], ?_, ?_⟩
    · intro part hp
      cases List.mem_cons.mp hp with
      | inl hp => exact hp ▸ hvalue
      | inr hp => exact hvalues part hp
    · have hbreak := lexed_blanks (hl.lineBreak depth)
      have htext := (Lexeme.comma.lexed.append hbreak).append (hlexed.append hrest)
      simpa [writeItems] using htext

/-- A name and its value. -/
theorem writeField_lexed (hl : layout.Blank) (name : Text) {value : Json} {depth : Nat}
    {tokens : List Token} (h : Lexed (write layout depth value) tokens) :
    Lexed (quote name ++ layout.afterName ++ write layout depth value)
      (.str name :: .colon :: tokens) := by
  obtain ⟨blanks, hafter, hblank⟩ := hl.afterName
  have hcolon := Lexeme.colon.lexed.append (lexed_blanks hblank)
  have htext := ((quote_lexeme name).lexed.append hcolon).append h
  rw [hafter]
  simpa using htext

theorem writeFields_lexed (hl : layout.Blank) {fields : Record Json}
    (h : ∀ field ∈ fields, Writes layout field.2) (depth : Nat) :
    ∃ members : List Member, members.map Member.field = fields ∧
      (∀ m ∈ members, Value m.tokens m.value) ∧
      Lexed (writeFields layout depth fields) ((members.map Member.text).flatMap (.comma :: ·)) := by
  induction fields with
  | nil => exact ⟨[], rfl, by simp, .nil⟩
  | cons field fields ih =>
    obtain ⟨tokens, hlexed, hvalue⟩ := h field List.mem_cons_self depth
    obtain ⟨members, hmembers, hvalues, hrest⟩ :=
      ih fun other ho => h other (List.mem_cons_of_mem field ho)
    refine ⟨⟨field.1, tokens, field.2⟩ :: members, by simp [hmembers, Member.field], ?_, ?_⟩
    · intro m hm
      cases List.mem_cons.mp hm with
      | inl hm => exact hm ▸ hvalue
      | inr hm => exact hvalues m hm
    · have hbreak := lexed_blanks (hl.lineBreak depth)
      have hfield := writeField_lexed hl field.1 hlexed
      have htext := (Lexeme.comma.lexed.append hbreak).append (hfield.append hrest)
      simpa [writeFields, Member.text] using htext

theorem Plain.writes (hl : layout.Blank) {value : Json} (h : Plain value) :
    Writes layout value := by
  induction h with
  | null => exact fun _ => ⟨_, Lexeme.null.lexed, .null⟩
  | bool b =>
    cases b with
    | true => exact fun _ => ⟨_, Lexeme.isTrue.lexed, .bool true⟩
    | false => exact fun _ => ⟨_, Lexeme.isFalse.lexed, .bool false⟩
  | num hn => exact fun _ => ⟨_, (Lexeme.num (text_isNumber hn)).lexed, .num _⟩
  | str s => exact fun _ => ⟨_, (quote_lexeme s).lexed, .str s⟩
  | @arr items _ ih =>
    intro depth
    cases items with
    | nil => exact ⟨_, Lexeme.openArray.lexed.append Lexeme.closeArray.lexed, .arr [] (by simp)⟩
    | cons item rest =>
      obtain ⟨tokens, hlexed, hvalue⟩ := ih item List.mem_cons_self (depth + 1)
      obtain ⟨parts, hparts, hvalues, hrest⟩ := writeItems_lexed hl
        (fun other ho => ih other (List.mem_cons_of_mem item ho)) (depth + 1)
      have hopen := Lexeme.openArray.lexed.append (lexed_blanks (hl.lineBreak (depth + 1)))
      have hclose := (lexed_blanks (hl.lineBreak depth)).append Lexeme.closeArray.lexed
      have htext := (hopen.append (hlexed.append hrest)).append hclose
      have harr := Value.arr ((tokens, item) :: parts) (List.forall_mem_cons.mpr ⟨hvalue, hvalues⟩)
      rw [List.map_cons, List.map_cons, hparts] at harr
      refine ⟨_, ?_, harr⟩
      simpa [write, separated] using htext
  | @obj fields hnodup _ ih =>
    intro depth
    cases fields with
    | nil => exact ⟨_, Lexeme.openObject.lexed.append Lexeme.closeObject.lexed, .obj [] (by simp)⟩
    | cons field rest =>
      obtain ⟨name, value⟩ := field
      obtain ⟨tokens, hlexed, hvalue⟩ := ih (name, value) List.mem_cons_self (depth + 1)
      obtain ⟨members, hmembers, hvalues, hrest⟩ := writeFields_lexed hl
        (fun other ho => ih other (List.mem_cons_of_mem _ ho)) (depth + 1)
      have hfield := writeField_lexed hl name hlexed
      have hopen := Lexeme.openObject.lexed.append (lexed_blanks (hl.lineBreak (depth + 1)))
      have hclose := (lexed_blanks (hl.lineBreak depth)).append Lexeme.closeObject.lexed
      have htext := (hopen.append (hfield.append hrest)).append hclose
      have hobj := Value.obj (⟨name, tokens, value⟩ :: members)
        (List.forall_mem_cons.mpr ⟨hvalue, hvalues⟩)
      have hall : List.map Member.field (⟨name, tokens, value⟩ :: members) = (name, value) :: rest := by
        rw [List.map_cons, hmembers]
        rfl
      have hput : Record.putAll [] ((name, value) :: rest) = (name, value) :: rest :=
        Record.putAll_of_nodup hnodup
      rw [hall, hput] at hobj
      refine ⟨_, ?_, hobj⟩
      simpa [write, separated, Member.text] using htext

/-- What is written denotes the value. -/
theorem Plain.denotes (hl : layout.Blank) {value : Json} (h : Plain value) (depth : Nat) :
    Denotes ⟨write layout depth value⟩ value := h.writes hl depth

end Values

end TreeCheck.Json
