namespace TreeCheck

/-- Text as a sequence of UTF-16 code units. A character beyond the first `2 ^ 16` is a pair of
units; half of a pair may also stand alone, and then it is no character. -/
@[ext]
structure Text where
  units : List UInt16
deriving DecidableEq, Repr, Inhabited

namespace Text

/-- The first half of a pair. -/
def IsHigh (u : UInt16) : Prop := 0xD800 ≤ u.toNat ∧ u.toNat < 0xDC00

/-- The second half of a pair. -/
def IsLow (u : UInt16) : Prop := 0xDC00 ≤ u.toNat ∧ u.toNat < 0xE000

instance (u : UInt16) : Decidable (IsHigh u) := inferInstanceAs (Decidable (_ ∧ _))

instance (u : UInt16) : Decidable (IsLow u) := inferInstanceAs (Decidable (_ ∧ _))

/-- The unit of a character that needs only one. -/
def unit (c : Char) : UInt16 := .ofNat c.toNat

/-- The character of a unit; half of a pair has none, and the null character stands in for it. -/
def letter (u : UInt16) : Char := Char.ofNat u.toNat

/-- The units of characters that need one each. -/
def spelled (chars : List Char) : List UInt16 := chars.map unit

/-- The units of a character. -/
def encode (c : Char) : List UInt16 :=
  if c.toNat < 0x10000 then [unit c]
  else
    let offset := c.toNat - 0x10000
    [.ofNat (0xD800 + offset / 0x400), .ofNat (0xDC00 + offset % 0x400)]

def ofList (chars : List Char) : Text := ⟨chars.flatMap encode⟩

@[coe]
def ofString (s : String) : Text := ofList s.toList

instance : Coe String Text := ⟨ofString⟩

instance : Append Text := ⟨fun a b => ⟨a.units ++ b.units⟩⟩

def join (texts : List Text) : Text := ⟨texts.flatMap units⟩

def isEmpty (t : Text) : Bool := t.units.isEmpty

/-- The character of a pair. -/
def paired (high low : UInt16) : Char :=
  Char.ofNat (0x10000 + (high.toNat - 0xD800) * 0x400 + (low.toNat - 0xDC00))

/-- The character of a unit, which is replaced if it is half of a pair. -/
def single (u : UInt16) : Char := if IsHigh u ∨ IsLow u then '\uFFFD' else letter u

/-- The characters of units. -/
def decode : List UInt16 → List Char
  | [] => []
  | [u] => [single u]
  | u :: next :: rest =>
    if IsHigh u ∧ IsLow next then paired u next :: decode rest
    else single u :: decode (next :: rest)

/-- The characters of a text, as an output of bytes shows them. -/
protected def toString (t : Text) : String := String.ofList (decode t.units)

instance : ToString Text := ⟨Text.toString⟩

/-- The number of bytes of a text in UTF-8. -/
def utf8Size (t : Text) : Nat := t.toString.utf8ByteSize

/-- A unit by its four digits in base sixteen. -/
def hexEscape (u : UInt16) : List UInt16 :=
  let n := u.toNat
  spelled ['\\', 'u', Nat.digitChar (n / 0x1000), Nat.digitChar (n / 0x100 % 16),
    Nat.digitChar (n / 16 % 16), Nat.digitChar (n % 16)]

/-- Rewrites units: a pair stays as it is, and half of one that stands alone goes its own way. -/
def rewrite (lone other : UInt16 → List UInt16) : List UInt16 → List UInt16
  | [] => []
  | [u] => if IsHigh u ∨ IsLow u then lone u else other u
  | u :: next :: rest =>
    if IsHigh u ∧ IsLow next then u :: next :: rewrite lone other rest
    else (if IsHigh u ∨ IsLow u then lone u else other u) ++ rewrite lone other (next :: rest)

/-- The text with a replacement character for each half of a pair that stands alone. -/
def wellFormed (t : Text) : Text := ⟨rewrite (fun _ => [unit '\uFFFD']) (fun u => [u]) t.units⟩

/-- The parts between the occurrences of a unit. -/
def splitUnits (mark : UInt16) : List UInt16 → List (List UInt16)
  | [] => [[]]
  | u :: rest =>
    if u = mark then [] :: splitUnits mark rest
    else
      match splitUnits mark rest with
      | [] => [[u]]
      | first :: others => (u :: first) :: others

/-- The parts of a text between the occurrences of a character. -/
def split (t : Text) (mark : Char) : List Text := (splitUnits (unit mark) t.units).map Text.mk

/-- The texts with another one between them. -/
def intercalate (between : Text) (texts : List Text) : Text :=
  ⟨between.units.intercalate (texts.map units)⟩

section Characters

variable {c : Char} {u : UInt16}

theorem toNat_unit (h : c.toNat < 0x10000) : (unit c).toNat = c.toNat :=
  UInt16.toNat_ofNat_of_lt' h

theorem letter_unit (h : c.toNat < 0x10000) : letter (unit c) = c := by
  rw [letter, toNat_unit h, Char.ofNat_toNat]

theorem toNat_letter (h : u.toNat.isValidChar) : (letter u).toNat = u.toNat := by
  rw [letter, Char.ofNat, dif_pos h]
  rfl

/-- A unit that has a character is settled by it. -/
theorem unit_letter (h : letter u ≠ '\x00') : unit (letter u) = u := by
  have hvalid : u.toNat.isValidChar := Decidable.byContradiction fun hn => h (dif_neg hn)
  rw [unit, toNat_letter hvalid, UInt16.ofNat_toNat]

@[simp]
theorem spelled_append (chars more : List Char) :
    spelled (chars ++ more) = spelled chars ++ spelled more := List.map_append

@[simp]
theorem spelled_cons (c : Char) (rest : List Char) : spelled (c :: rest) = unit c :: spelled rest :=
  rfl

@[simp]
theorem spelled_nil : spelled [] = [] := rfl

/-- Characters that need one unit each. -/
theorem ofList_units {chars : List Char} (h : ∀ c ∈ chars, c.toNat < 0x10000) :
    (ofList chars).units = spelled chars := by
  induction chars with
  | nil => rfl
  | cons c rest ih =>
    have hrest : rest.flatMap encode = spelled rest :=
      ih fun d hd => h d (List.mem_cons_of_mem c hd)
    rw [ofList, List.flatMap_cons, hrest, encode, if_pos (h c List.mem_cons_self), spelled_cons,
      List.singleton_append]

theorem ofList_append (chars more : List Char) : ofList (chars ++ more) = ofList chars ++ ofList more :=
  congrArg Text.mk List.flatMap_append

theorem not_high_or_low (h : u.toNat.isValidChar) : ¬ (IsHigh u ∨ IsLow u) := by
  simp only [Nat.isValidChar] at h
  simp only [IsHigh, IsLow]
  omega

theorem decode_pair {high low : UInt16} (hh : IsHigh high) (hl : IsLow low) (rest : List UInt16) :
    decode (high :: low :: rest) = paired high low :: decode rest := by
  rw [decode, if_pos ⟨hh, hl⟩]

/-- A unit that is no first half stands for itself. -/
theorem decode_cons (h : ¬ IsHigh u) (rest : List UInt16) :
    decode (u :: rest) = single u :: decode rest := by
  cases rest with
  | nil => rfl
  | cons next rest => rw [decode, if_neg fun hp => h hp.1]

theorem decode_encode (c : Char) (rest : List UInt16) :
    decode (encode c ++ rest) = c :: decode rest := by
  have hvalid : c.toNat.isValidChar := c.valid
  rw [encode]
  split
  · next hc =>
    have hnone : ¬ (IsHigh (unit c) ∨ IsLow (unit c)) :=
      not_high_or_low (by rwa [toNat_unit hc])
    have hsingle : single (unit c) = c := by rw [single, if_neg hnone, letter_unit hc]
    rw [List.singleton_append, decode_cons (fun h => hnone (.inl h)), hsingle]
  · next hc =>
    have hmax : c.toNat < 0x110000 := by
      simp only [Nat.isValidChar] at hvalid
      omega
    obtain ⟨offset, ho⟩ : ∃ offset, c.toNat = 0x10000 + offset := ⟨c.toNat - 0x10000, by omega⟩
    rw [ho, Nat.add_sub_cancel_left]
    have hhigh : (UInt16.ofNat (0xD800 + offset / 0x400)).toNat = 0xD800 + offset / 0x400 :=
      UInt16.toNat_ofNat_of_lt' (by simp [UInt16.size]; omega)
    have hlow : (UInt16.ofNat (0xDC00 + offset % 0x400)).toNat = 0xDC00 + offset % 0x400 :=
      UInt16.toNat_ofNat_of_lt' (by simp [UInt16.size]; omega)
    have hpaired :
        paired (.ofNat (0xD800 + offset / 0x400)) (.ofNat (0xDC00 + offset % 0x400)) = c := by
      rw [paired, hhigh, hlow, Nat.add_sub_cancel_left, Nat.add_sub_cancel_left, Nat.add_assoc,
        Nat.div_add_mod', ← ho, Char.ofNat_toNat]
    rw [List.cons_append, List.singleton_append, decode_pair, hpaired]
    · rw [IsHigh, hhigh]
      omega
    · rw [IsLow, hlow]
      omega

theorem toString_ofList (chars : List Char) : (ofList chars).toString = String.ofList chars := by
  have hdecode : decode (chars.flatMap encode) = chars := by
    induction chars with
    | nil => rfl
    | cons c rest ih => rw [List.flatMap_cons, decode_encode, ih]
  rw [Text.toString, ofList, hdecode]

@[simp]
theorem toString_ofString (s : String) : (ofString s).toString = s := by
  rw [ofString, toString_ofList, String.ofList_toList]

end Characters

section Strings

variable {s t : String}

/-- Texts of strings are equal only if the strings are. -/
@[grind inj]
theorem ofString_injective : Function.Injective ofString := by
  intro s t h
  rw [← toString_ofString s, h, toString_ofString]

@[simp]
theorem ofString_inj : ofString s = ofString t ↔ s = t :=
  ⟨fun h => ofString_injective h, fun h => congrArg ofString h⟩

@[simp]
theorem ofString_beq : (ofString s == ofString t) = (s == t) := by
  rw [Bool.eq_iff_iff, beq_iff_eq, beq_iff_eq, ofString_inj]

end Strings

section Appending

@[simp]
theorem units_append (a b : Text) : (a ++ b).units = a.units ++ b.units := rfl

theorem append_assoc {a b c : Text} : a ++ b ++ c = a ++ (b ++ c) :=
  congrArg Text.mk (List.append_assoc ..)

@[simp]
theorem empty_append {a : Text} : ofString "" ++ a = a := rfl

@[simp]
theorem append_empty {a : Text} : a ++ ofString "" = a :=
  congrArg Text.mk (List.append_nil _)

@[simp]
theorem append_left_inj (c : Text) {a b : Text} : a ++ c = b ++ c ↔ a = b := by
  simp [Text.ext_iff]

theorem append_eq_empty_iff {a b : Text} :
    a ++ b = ofString "" ↔ a = ofString "" ∧ b = ofString "" := by
  simp [Text.ext_iff, ofString, ofList]

theorem isEmpty_eq_false_iff {a : Text} : a.isEmpty = false ↔ a ≠ ofString "" := by
  simp [isEmpty, Text.ext_iff, ofString, ofList]

@[simp]
theorem join_cons {a : Text} {rest : List Text} : join (a :: rest) = a ++ join rest := rfl

end Appending

end Text

end TreeCheck
