import TreeCheck.Text

namespace TreeCheck.Utf8

/-- A character whose first bytes have been read: the bytes still to come, the value so far, and the
range of the next byte. -/
structure Pending where
  missing : Nat
  value : Nat
  low : Nat := 0x80
  high : Nat := 0xBF
deriving DecidableEq, Repr

def replacement : Char := '\uFFFD'

/-- A byte that starts a character. Encodings longer than need be, surrogates and values beyond the
last character are ruled out by the range of the second byte. -/
def start (byte : Nat) : Option Pending × List Char :=
  if byte < 0x80 then (none, [Char.ofNat byte])
  else if 0xC2 ≤ byte ∧ byte ≤ 0xDF then (some { missing := 1, value := byte - 0xC0 }, [])
  else if 0xE0 ≤ byte ∧ byte ≤ 0xEF then
    (some { missing := 2, value := byte - 0xE0
            low := if byte = 0xE0 then 0xA0 else 0x80
            high := if byte = 0xED then 0x9F else 0xBF }, [])
  else if 0xF0 ≤ byte ∧ byte ≤ 0xF4 then
    (some { missing := 3, value := byte - 0xF0
            low := if byte = 0xF0 then 0x90 else 0x80
            high := if byte = 0xF4 then 0x8F else 0xBF }, [])
  else (none, [replacement])

/-- One more byte, and the characters that it completes. -/
def step (state : Option Pending) (byte : Nat) : Option Pending × List Char :=
  match state with
  | none => start byte
  | some p =>
    if p.low ≤ byte ∧ byte ≤ p.high then
      let value := p.value * 0x40 + (byte - 0x80)
      if p.missing ≤ 1 then (none, [Char.ofNat value])
      else (some { missing := p.missing - 1, value }, [])
    else
      let (state, chars) := start byte
      (state, replacement :: chars)

/-- The state after the bytes, and their characters, newest first. -/
def run (bytes : List UInt8) : Option Pending × List Char :=
  bytes.foldl (fun (state, chars) byte =>
    let (state, new) := step state byte.toNat
    (state, new.reverse ++ chars)) (none, [])

/-- The text that the bytes denote. -/
def decode (bytes : List UInt8) : Text :=
  match run bytes with
  | (none, chars) => Text.ofList chars.reverse
  | (some _, chars) => Text.ofList (replacement :: chars).reverse

end TreeCheck.Utf8
