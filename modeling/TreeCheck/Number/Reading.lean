import TreeCheck.Number.Basic
import TreeCheck.Text

namespace TreeCheck.Number

/-- Blanks: tab to carriage return, spaces of every width, the separators of lines and paragraphs,
and the byte order mark. -/
def isBlank (c : Char) : Bool :=
  let n := c.toNat
  (9 ≤ n && n ≤ 13) || (0x2000 ≤ n && n ≤ 0x200A) ||
    [0x20, 0xA0, 0x1680, 0x2028, 0x2029, 0x202F, 0x205F, 0x3000, 0xFEFF].contains n

/-- Drops the blanks at both ends. -/
def trimBlanks (text : List Char) : List Char :=
  ((text.dropWhile isBlank).reverse.dropWhile isBlank).reverse

/-- The value of a digit of a base. -/
def digit? (base : Nat) (c : Char) : Option Nat :=
  let value? :=
    if c.isDigit then some (c.toNat - '0'.toNat)
    else if 'a' ≤ c ∧ c ≤ 'f' then some (c.toNat - 'a'.toNat + 10)
    else if 'A' ≤ c ∧ c ≤ 'F' then some (c.toNat - 'A'.toNat + 10)
    else none
  value?.filter (· < base)

/-- The value of digits, of which there is at least one. -/
def digits? (base : Nat) (text : List Char) : Option Nat :=
  if text.isEmpty then none
  else text.foldlM (fun value c => (digit? base c).map (value * base + ·)) 0

/-- The base that a letter after a zero announces. -/
def base? : Char → Option Nat
  | 'x' | 'X' => some 16
  | 'o' | 'O' => some 8
  | 'b' | 'B' => some 2
  | _ => none

/-- A whole number after the mark of its base. -/
def marked? : List Char → Option Number
  | '0' :: mark :: rest => do
    let value ← digits? (← base? mark) rest
    return .ofDecimal false value 0
  | _ => none

/-- Is there a minus sign? And what follows the sign, if there is one. -/
def splitSign : List Char → Bool × List Char
  | '-' :: rest => (true, rest)
  | '+' :: rest => (false, rest)
  | rest => (false, rest)

/-- The digits after a point, if there is one, and what follows them. -/
def splitPlaces : List Char → List Char × List Char
  | '.' :: rest => rest.span Char.isDigit
  | rest => ([], rest)

/-- The power of ten that the end of a number gives; nothing gives zero. -/
def exponent? : List Char → Option Int
  | [] => some 0
  | mark :: rest =>
    if mark = 'e' ∨ mark = 'E' then
      let (negative, digits) := splitSign rest
      (digits? 10 digits).map fun power => if negative then -(power : Int) else power
    else none

/-- A decimal number; the digits may stand on either side of the point. -/
def decimal? (text : List Char) : Option Number := do
  let (negative, rest) := splitSign text
  let (whole, rest) := rest.span Char.isDigit
  let (places, rest) := splitPlaces rest
  let digits ← digits? 10 (whole ++ places)
  let exponent ← exponent? rest
  return .ofDecimal negative digits (exponent - places.length)

def isFinite : Number → Bool
  | .finite .. => true
  | .infinite _ => false

/-- The finite number that a word stands for, if it does; a word of blanks stands for zero. -/
def ofWord? (word : Text) : Option Number :=
  let text := trimBlanks (word.units.map Text.letter)
  if text.isEmpty then some (.ofInt 0)
  else ((marked? text).or (decimal? text)).filter isFinite

end TreeCheck.Number
