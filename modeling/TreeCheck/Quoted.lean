import TreeCheck.Text

namespace TreeCheck.Quoted

open Text

/-- The two digits of a small code in base sixteen. -/
def hexPair (n : Nat) : List Char :=
  let digit (d : Nat) : Char := if d < 10 then Char.ofNat (48 + d) else Char.ofNat (55 + d)
  [digit (n / 16), digit (n % 16)]

/-- A unit between quotes. The quote itself, the backslash and the control characters are escaped. -/
def escape (quote : Char) (u : UInt16) : List UInt16 :=
  if u = unit '\\' then spelled ['\\', '\\']
  else if u = unit '\x27' ∧ quote = '\x27' then spelled ['\\', '\x27']
  else if u = unit '\x08' then spelled ['\\', 'b']
  else if u = unit '\t' then spelled ['\\', 't']
  else if u = unit '\n' then spelled ['\\', 'n']
  else if u = unit '\x0c' then spelled ['\\', 'f']
  else if u = unit '\r' then spelled ['\\', 'r']
  else if u.toNat < 0x20 ∨ (0x7F ≤ u.toNat ∧ u.toNat < 0xA0) then
    spelled ('\\' :: 'x' :: hexPair u.toNat)
  else [u]

/-- Does a dollar sign stand before an opening brace? -/
def hasPlaceholder (text : Text) : Bool :=
  (text.units.zip (text.units.drop 1)).contains (unit '$', unit '\x7b')

/-- A single quote, or one that does not occur in a text with single quotes: the double quote, else
the grave accent. -/
def quoteFor (text : Text) : Char :=
  if !text.units.contains (unit '\x27') then '\x27'
  else if !text.units.contains (unit '"') then '"'
  else if !text.units.contains (unit '\x60') && !hasPlaceholder text then '\x60'
  else '\x27'

/-- The text in quotes, on one line. -/
def quote (text : Text) : Text :=
  let mark := quoteFor text
  ⟨unit mark :: rewrite hexEscape (escape mark) text.units ++ [unit mark]⟩

/-- The text in quotes, cut off after 128 units. -/
def excerpt (text : Text) : Text :=
  let quoted := quote text
  if 128 < quoted.units.length then ⟨quoted.units.take 128⟩ ++ "..." else quoted

end TreeCheck.Quoted
