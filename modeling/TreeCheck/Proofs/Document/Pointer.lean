import TreeCheck.Document.Format
import TreeCheck.Proofs.Json.Lexemes

namespace TreeCheck

open Text

namespace Step

def token : Step → List UInt16
  | .field name => name.units
  | .item index => spelled (Nat.toDigits 10 index)

theorem digit_of_mem_toDigits {index : Nat} {c : Char} (h : c ∈ Nat.toDigits 10 index) :
    c.toNat < 0x10000 ∧ c ≠ '/' := by
  have hdigit : c.isDigit = true := Nat.isDigit_of_mem_toDigits (by decide) (by decide) h
  refine ⟨?_, fun hc => absurd hdigit (by rw [hc]; decide)⟩
  have hbound := (Json.isDigit_bounds hdigit).2
  omega

theorem text_units (step : Step) : step.text.units = unit '/' :: step.token := by
  cases step with
  | field name => rfl
  | item index =>
    have hdigits : (ofString (toString index)).units = spelled (Nat.toDigits 10 index) := by
      rw [ofString, Nat.toString_eq_repr, Nat.toList_repr]
      exact ofList_units fun c hc => (digit_of_mem_toDigits hc).1
    exact congrArg (unit '/' :: ·) hdigits

theorem join_units (path : List Step) :
    (Text.join (path.map text)).units = path.flatMap fun step => unit '/' :: step.token := by
  induction path with
  | nil => rfl
  | cons step rest ih =>
    rw [List.map_cons, Text.join_cons, Text.units_append, ih, text_units, List.flatMap_cons]

theorem slash_not_mem_item (index : Nat) : unit '/' ∉ (item index).token := by
  intro h
  obtain ⟨c, hc, hunit⟩ := List.mem_map.mp h
  obtain ⟨hsmall, hslash⟩ := digit_of_mem_toDigits hc
  have hletter := congrArg letter hunit
  rw [letter_unit hsmall, letter_unit (by decide)] at hletter
  exact hslash hletter

end Step

namespace Pointer

/-- The name that a token stands for: `~1` is a slash and `~0` a tilde. -/
def unescape : List UInt16 → List UInt16
  | tilde :: mark :: rest =>
    if tilde = unit '~' ∧ mark = unit '1' then unit '/' :: unescape rest
    else if tilde = unit '~' ∧ mark = unit '0' then unit '~' :: unescape rest
    else tilde :: unescape (mark :: rest)
  | token => token

/-- The token stands for itself. -/
def Bare (token : List UInt16) : Prop := unit '/' ∉ token ∧ unit '~' ∉ token

instance (token : List UInt16) : Decidable (Bare token) := inferInstanceAs (Decidable (_ ∧ _))

theorem unescape_bare {token : List UInt16} (h : unit '~' ∉ token) : unescape token = token := by
  fun_induction unescape token with
  | case1 _ _ _ hc => exact absurd (hc.1 ▸ List.mem_cons_self) h
  | case2 _ _ _ _ hc => exact absurd (hc.1 ▸ List.mem_cons_self) h
  | case3 u mark rest _ _ ih => rw [ih fun hmem => h (List.mem_cons_of_mem u hmem)]
  | case4 => rfl

/-- The part of a value under a token: a name, or an index in decimal digits and without leading
zeros. -/
def part? (token : List UInt16) : Json → Option Json
  | .obj fields => fields.lookup (Text.mk (unescape token))
  | .arr items =>
    let index := Nat.ofDigitChars 10 (token.map letter) 0
    if spelled (Nat.toDigits 10 index) = token then items[index]? else none
  | _ => none

/-- The part of a value at a pointer, which has a slash before each of its tokens. -/
def resolve? (pointer : Text) (value : Json) : Option Json :=
  match pointer.units.splitOn (unit '/') with
  | [] :: tokens => tokens.foldlM (fun part token => part? token part) value
  | _ => none

theorem splitOn_path {token : List UInt16} (ht : unit '/' ∉ token) {path : List Step}
    (h : ∀ step ∈ path, unit '/' ∉ step.token) :
    (token ++ path.flatMap fun step => unit '/' :: step.token).splitOn (unit '/') =
      token :: path.map Step.token := by
  induction path generalizing token with
  | nil => simpa using List.splitOn_eq_singleton ht
  | cons step rest ih =>
    rw [List.flatMap_cons, List.cons_append, List.splitOn_append_cons_self_of_not_mem ht,
      ih (h step List.mem_cons_self) fun s hs => h s (List.mem_cons_of_mem step hs), List.map_cons]

/-- The text of a path is read back step by step. -/
theorem resolve?_path {path : List Step} (h : ∀ step ∈ path, unit '/' ∉ step.token) (value : Json) :
    resolve? (Text.join (path.map Step.text)) value =
      path.foldlM (fun part step => part? step.token part) value := by
  have hsplit : (path.flatMap fun step => unit '/' :: step.token).splitOn (unit '/') =
      [] :: path.map Step.token := splitOn_path List.not_mem_nil h
  rw [resolve?, Step.join_units, hsplit]
  exact List.foldlM_map

theorem part?_field {name : Text} (h : unit '~' ∉ name.units) (fields : Record Json) :
    part? (Step.field name).token (.obj fields) = fields.lookup name := by
  rw [part?, Step.token, unescape_bare h]

theorem letters_toDigits (index : Nat) :
    (spelled (Nat.toDigits 10 index)).map letter = Nat.toDigits 10 index := by
  rw [spelled, List.map_map]
  refine (List.map_congr_left fun c hc => ?_).trans (List.map_id _)
  exact letter_unit (Step.digit_of_mem_toDigits hc).1

theorem part?_item (index : Nat) (items : List Json) :
    part? (Step.item index).token (.arr items) = items[index]? := by
  rw [part?, Step.token, letters_toDigits, Nat.ofDigitChars_ten_toDigits]
  exact if_pos rfl

end Pointer

end TreeCheck
