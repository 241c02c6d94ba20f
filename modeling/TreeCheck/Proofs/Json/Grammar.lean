import TreeCheck.Json.Token
import TreeCheck.Proofs.Number.Nearest

namespace TreeCheck.Json

open Text

/-- The space, the tab and the two line ends. -/
def IsBlank (u : UInt16) : Prop := u = unit ' ' ∨ u = unit '\t' ∨ u = unit '\n' ∨ u = unit '\r'

section Numbers

/-- One decimal digit or more. -/
def IsDigits (text : List Char) : Prop := text ≠ [] ∧ ∀ c ∈ text, c.isDigit

/-- The part of a number before the point: no zero leads further digits. -/
inductive IsWhole : List Char → Prop where
  | zero : IsWhole ['0']
  | digits {c : Char} {rest : List Char} : c ≠ '0' → IsDigits (c :: rest) → IsWhole (c :: rest)

/-- The part of a number after the point, and the digits of it. -/
inductive IsPlaces : List Char → List Char → Prop where
  | none : IsPlaces [] []
  | some {digits : List Char} : IsDigits digits → IsPlaces ('.' :: digits) digits

/-- The letter that opens an exponent. -/
def IsMark (c : Char) : Prop := c = 'e' ∨ c = 'E'

/-- The value of decimal digits. -/
def decimal (digits : List Char) : Nat := Nat.ofDigitChars 10 digits 0

/-- The sign of an exponent, and whether it is negative. -/
inductive IsSign : List Char → Bool → Prop where
  | none : IsSign [] false
  | plus : IsSign ['+'] false
  | minus : IsSign ['-'] true

/-- The exponent of a number, and its value. -/
inductive IsExponent : List Char → Int → Prop where
  | none : IsExponent [] 0
  | some {mark : Char} {sign digits : List Char} {negative : Bool} :
    IsMark mark → IsSign sign negative → IsDigits digits →
      IsExponent (mark :: sign ++ digits) (if negative then -(decimal digits : Int) else decimal digits)

/-- The sign of a number. -/
def signText (negative : Bool) : List Char := if negative then ['-'] else []

/-- A number, and its value: the nearest one to the decimal that is written. -/
inductive IsNumber : List Char → Number → Prop where
  | mk (negative : Bool) {whole places digits exponent : List Char} {power : Int} {n : Number} :
    IsWhole whole → IsPlaces places digits → IsExponent exponent power →
    Number.IsNearest (Number.signed negative
      (decimal (whole ++ digits) * 10 ^ (power - digits.length))) n →
    IsNumber (signText negative ++ whole ++ places ++ exponent) n

end Numbers

section Strings

/-- The escapes of one letter. -/
def shortEscapes : List (Char × Char) :=
  [('"', '"'), ('\\', '\\'), ('/', '/'), ('b', '\x08'), ('f', '\x0c'), ('n', '\n'), ('r', '\r'),
    ('t', '\t')]

/-- A hexadecimal digit of either case. -/
def IsHex (c : Char) (digit : Nat) : Prop :=
  digit < 16 ∧ (c = digit.digitChar ∨ c = digit.digitChar.toUpper)

/-- Hexadecimal digits, and their value. -/
inductive IsHexes : List Char → Nat → Prop where
  | nil : IsHexes [] 0
  | snoc {digits : List Char} {value digit : Nat} {c : Char} : IsHexes digits value →
    IsHex c digit → IsHexes (digits ++ [c]) (value * 16 + digit)

/-- One element of a string, and the code unit that it stands for. A unit that is written out stands
for itself, whether or not it is half of a pair, and so does one that is escaped. -/
inductive IsElement : List UInt16 → UInt16 → Prop where
  | plain {u : UInt16} : u ≠ unit '"' → u ≠ unit '\\' → 0x20 ≤ u.toNat → IsElement [u] u
  | short {letter c : Char} : (letter, c) ∈ shortEscapes → IsElement (spelled ['\\', letter]) (unit c)
  | unit {digits : List Char} {value : Nat} : IsHexes digits value → digits.length = 4 →
    IsElement (spelled ('\\' :: 'u' :: digits)) (.ofNat value)

/-- The elements of a string, and their code units. -/
inductive IsBody : List UInt16 → List UInt16 → Prop where
  | nil : IsBody [] []
  | snoc {body element read : List UInt16} {u : UInt16} : IsBody body read → IsElement element u →
    IsBody (body ++ element) (read ++ [u])

end Strings

/-- The text of a token. -/
inductive Lexeme : List UInt16 → Token → Prop where
  | openObject : Lexeme (spelled ['{']) .openObject
  | closeObject : Lexeme (spelled ['}']) .closeObject
  | openArray : Lexeme (spelled ['[']) .openArray
  | closeArray : Lexeme (spelled [']']) .closeArray
  | comma : Lexeme (spelled [',']) .comma
  | colon : Lexeme (spelled [':']) .colon
  | null : Lexeme (spelled ['n', 'u', 'l', 'l']) .null
  | isTrue : Lexeme (spelled ['t', 'r', 'u', 'e']) (.bool true)
  | isFalse : Lexeme (spelled ['f', 'a', 'l', 's', 'e']) (.bool false)
  | num {text : List Char} {n : Number} : IsNumber text n → Lexeme (spelled text) (.num n)
  | str {body read : List UInt16} : IsBody body read →
    Lexeme (unit '"' :: body ++ [unit '"']) (.str ⟨read⟩)

/-- A text that divides into lexemes, with any blanks before, between and after them. -/
inductive Lexed : List UInt16 → List Token → Prop where
  | nil : Lexed [] []
  | blank {u : UInt16} {rest : List UInt16} {tokens : List Token} : IsBlank u → Lexed rest tokens →
    Lexed (u :: rest) tokens
  | token {text rest : List UInt16} {token : Token} {tokens : List Token} : Lexeme text token →
    Lexed rest tokens → Lexed (text ++ rest) (token :: tokens)

/-- The parts of a list, with commas between them. -/
def separated : List (List Token) → List Token
  | [] => []
  | first :: rest => first ++ rest.flatMap (.comma :: ·)

/-- A field of an object and the tokens of its value. -/
structure Member where
  name : Text
  tokens : List Token
  value : Json

/-- The name, a colon and the value. -/
def Member.text (m : Member) : List Token := .str m.name :: .colon :: m.tokens

def Member.field (m : Member) : Text × Json := (m.name, m.value)

/-- The tokens of a value. Of several fields of one name the last counts. -/
inductive Value : List Token → Json → Prop where
  | null : Value [.null] .null
  | bool (b : Bool) : Value [.bool b] (.bool b)
  | num (n : Number) : Value [.num n] (.num n)
  | str (s : Text) : Value [.str s] (.str s)
  | arr (items : List (List Token × Json)) : (∀ item ∈ items, Value item.1 item.2) →
    Value (.openArray :: separated (items.map Prod.fst) ++ [.closeArray])
      (.arr (items.map Prod.snd))
  | obj (members : List Member) : (∀ m ∈ members, Value m.tokens m.value) →
    Value (.openObject :: separated (members.map Member.text) ++ [.closeObject])
      (.obj (Record.putAll [] (members.map Member.field)))

/-- The text is JSON, and this is its value: its lexemes are those of tokens that make up the value. -/
def Denotes (text : Text) (value : Json) : Prop :=
  ∃ tokens, Lexed text.units tokens ∧ Value tokens value

end TreeCheck.Json
