import TreeCheck.Json.Basic

namespace TreeCheck.Json

inductive Token where
  | openObject
  | closeObject
  | openArray
  | closeArray
  | comma
  | colon
  | null
  | bool (value : Bool)
  | num (value : Number)
  | str (value : Text)
deriving DecidableEq, Repr

/-- A number that is being read. -/
structure Numeral where
  negative : Bool := false
  digits : Nat := 0
  places : Nat := 0
  smaller : Bool := false
  power : Nat := 0
deriving DecidableEq, Repr

namespace Numeral

def digitValue (c : Char) : Nat := c.toNat - '0'.toNat

/-- A digit before the point. -/
def pushWhole (n : Numeral) (c : Char) : Numeral :=
  { n with digits := n.digits * 10 + digitValue c }

/-- A digit after the point. -/
def pushPlace (n : Numeral) (c : Char) : Numeral :=
  { n with digits := n.digits * 10 + digitValue c, places := n.places + 1 }

/-- A digit of the exponent. -/
def pushPower (n : Numeral) (c : Char) : Numeral :=
  { n with power := n.power * 10 + digitValue c }

def value (n : Numeral) : Number :=
  .ofDecimal n.negative n.digits ((if n.smaller then -(n.power : Int) else n.power) - n.places)

end Numeral

/-- Where a number that is being read stands. -/
inductive Phase where
  | minus
  | zero
  | whole
  | point
  | places
  | mark
  | sign
  | power
deriving DecidableEq, Repr

namespace Phase

/-- May the number end here? -/
def isComplete : Phase → Bool
  | .zero | .whole | .places | .power => true
  | .minus | .point | .mark | .sign => false

/-- Does the character open the exponent? -/
def opensPower (c : Char) : Bool := c = 'e' || c = 'E'

/-- The phase and the number after one more character, if the number goes on with it. -/
def next? (phase : Phase) (n : Numeral) (c : Char) : Option (Phase × Numeral) :=
  match phase with
  | .minus =>
    if c = '0' then some (.zero, n) else if c.isDigit then some (.whole, n.pushWhole c) else none
  | .zero => if c = '.' then some (.point, n) else if opensPower c then some (.mark, n) else none
  | .whole =>
    if c.isDigit then some (.whole, n.pushWhole c)
    else if c = '.' then some (.point, n) else if opensPower c then some (.mark, n) else none
  | .point => if c.isDigit then some (.places, n.pushPlace c) else none
  | .places =>
    if c.isDigit then some (.places, n.pushPlace c)
    else if opensPower c then some (.mark, n) else none
  | .mark =>
    if c = '+' then some (.sign, n) else if c = '-' then some (.sign, { n with smaller := true })
    else if c.isDigit then some (.power, n.pushPower c) else none
  | .sign | .power => if c.isDigit then some (.power, n.pushPower c) else none

end Phase

/-- What is being read. The units of a string are held newest first. -/
inductive Mode where
  /-- Nothing: a token may start. -/
  | ready
  /-- A word of which these units are still to come. -/
  | word (rest : List UInt16) (token : Token)
  | text (read : List UInt16)
  /-- A string after a backslash. -/
  | escape (read : List UInt16)
  /-- A string inside an escaped unit, with the digits still to come and the value so far. -/
  | unit (read : List UInt16) (missing : Nat) (value : Nat)
  | number (phase : Phase) (n : Numeral)
deriving DecidableEq, Repr

/-- The state between two units: what is being read, and the finished tokens, newest first. -/
structure Scan where
  mode : Mode := .ready
  tokens : List Token := []
deriving DecidableEq, Repr

namespace Scan

/-- A character outside every token. -/
def start (tokens : List Token) (c : Char) : Option Scan :=
  match c with
  | ' ' | '\t' | '\n' | '\r' => some ⟨.ready, tokens⟩
  | '{' => some ⟨.ready, .openObject :: tokens⟩
  | '}' => some ⟨.ready, .closeObject :: tokens⟩
  | '[' => some ⟨.ready, .openArray :: tokens⟩
  | ']' => some ⟨.ready, .closeArray :: tokens⟩
  | ',' => some ⟨.ready, .comma :: tokens⟩
  | ':' => some ⟨.ready, .colon :: tokens⟩
  | '"' => some ⟨.text [], tokens⟩
  | 'n' => some ⟨.word (Text.spelled ['u', 'l', 'l']) .null, tokens⟩
  | 't' => some ⟨.word (Text.spelled ['r', 'u', 'e']) (.bool true), tokens⟩
  | 'f' => some ⟨.word (Text.spelled ['a', 'l', 's', 'e']) (.bool false), tokens⟩
  | '-' => some ⟨.number .minus { negative := true }, tokens⟩
  | '0' => some ⟨.number .zero {}, tokens⟩
  | _ => if c.isDigit then some ⟨.number .whole (Numeral.pushWhole {} c), tokens⟩ else none

/-- The character that a backslash and a letter stand for. -/
def unescape? : Char → Option Char
  | '"' => some '"'
  | '\\' => some '\\'
  | '/' => some '/'
  | 'b' => some '\x08'
  | 'f' => some '\x0c'
  | 'n' => some '\n'
  | 'r' => some '\r'
  | 't' => some '\t'
  | _ => none

def hexValue? (c : Char) : Option Nat :=
  if c.isDigit then some (c.toNat - '0'.toNat)
  else if 'a' ≤ c ∧ c ≤ 'f' then some (c.toNat - 'a'.toNat + 10)
  else if 'A' ≤ c ∧ c ≤ 'F' then some (c.toNat - 'A'.toNat + 10)
  else none

/-- One more unit; `none` if no JSON text goes on like this. Outside a string only ASCII characters
occur, and inside one a unit stands for itself, whatever stands beside it. -/
def step (s : Scan) (u : UInt16) : Option Scan :=
  match s.mode with
  | .ready => start s.tokens (Text.letter u)
  | .word [] _ => none
  | .word [last] token => if u = last then some ⟨.ready, token :: s.tokens⟩ else none
  | .word (first :: rest) token => if u = first then some ⟨.word rest token, s.tokens⟩ else none
  | .text read =>
    if u = Text.unit '"' then some ⟨.ready, .str ⟨read.reverse⟩ :: s.tokens⟩
    else if u = Text.unit '\\' then some ⟨.escape read, s.tokens⟩
    else if u.toNat < 0x20 then none
    else some ⟨.text (u :: read), s.tokens⟩
  | .escape read =>
    if u = Text.unit 'u' then some ⟨.unit read 4 0, s.tokens⟩
    else (unescape? (Text.letter u)).map fun c => ⟨.text (Text.unit c :: read), s.tokens⟩
  | .unit read missing value =>
    (hexValue? (Text.letter u)).map fun digit =>
      let value := value * 16 + digit
      if missing ≤ 1 then ⟨.text (.ofNat value :: read), s.tokens⟩
      else ⟨.unit read (missing - 1) value, s.tokens⟩
  | .number phase n =>
    match phase.next? n (Text.letter u) with
    | some (phase, n) => some ⟨.number phase n, s.tokens⟩
    | none =>
      if phase.isComplete then start (.num n.value :: s.tokens) (Text.letter u) else none

/-- The tokens, in order, if the text may end here. -/
def finish (s : Scan) : Option (List Token) :=
  match s.mode with
  | .ready => some s.tokens.reverse
  | .number phase n =>
    if phase.isComplete then some (Token.num n.value :: s.tokens).reverse else none
  | _ => none

/-- The state after further units. -/
def run (s : Scan) (text : List UInt16) : Option Scan := text.foldlM step s

end Scan

/-- The tokens of a text; `none` if it does not divide into tokens. They are read in one pass, with
neither look-ahead nor a stack; two tokens may touch, and what may follow a token is left to the
reader of tokens, which never takes two values in a row. -/
def Token.scan (text : List UInt16) : Option (List Token) := (Scan.run {} text).bind Scan.finish

end TreeCheck.Json
