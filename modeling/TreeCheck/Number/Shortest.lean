import TreeCheck.Number.Basic

namespace TreeCheck

/-- The value `digits * 10 ^ exponent`. -/
structure Decimal where
  digits : Nat
  exponent : Int
deriving DecidableEq, Repr

namespace Decimal

def ofNat (n : Nat) : List Char := Nat.toDigits 10 n

/-- The number of decimal digits before the point of `a / b`, both positive; zero or negative for a
quotient below one, counting the zeros after the point. -/
def pointPosition (a b : Nat) : Int :=
  if b ≤ a then ((ofNat (a / b)).length : Int) else 1 - (ofNat ((b - 1) / a)).length

/-- Drops up to `n` trailing zeros of the digits, which are counted in the exponent instead. -/
def trim : Nat → Decimal → Decimal
  | 0, d => d
  | n + 1, d =>
    if d.digits % 10 = 0 then trim n ⟨d.digits / 10, d.exponent + 1⟩ else d

/-- The reals that round to a value, as multiples of the fraction `up / down`: from `low` to `high`,
ends included if `closed`. The value itself is `middle`. -/
structure Interval where
  low : Nat
  middle : Nat
  high : Nat
  closed : Bool
  up : Nat
  down : Nat

/-- The interval of `numerator / 2 ^ scale`, in quarters of its last bit. Below a power of two the
neighbour is half as far away. -/
def Interval.ofFraction (numerator scale : Nat) : Interval :=
  let e := Number.unitExponent numerator (twoTo scale)
  let shift : Int := -e - scale
  let m := if 0 ≤ shift then numerator * twoTo shift.toNat else numerator / twoTo (-shift).toNat
  let gap := if m = twoTo 52 ∧ -1074 < e then 1 else 2
  { low := 4 * m - gap, middle := 4 * m, high := 4 * m + 2, closed := m % 2 = 0
    up := twoTo (e - 2).toNat, down := twoTo (2 - e).toNat }

/-- Does `a / b` round to the value of the interval? -/
def Interval.contains (i : Interval) (a b : Nat) : Bool :=
  let x := a * i.down
  let low := i.low * i.up * b
  let high := i.high * i.up * b
  if i.closed then low ≤ x && x ≤ high else low < x && x < high

/-- Of the two neighbours of the value among the multiples of `10 ^ exponent`, the one that rounds
to it; the nearer one if both do, the lower one on a tie. -/
def Interval.neighbour? (i : Interval) (exponent : Int) : Option Decimal :=
  let a := tenTo exponent.toNat
  let b := tenTo (-exponent).toNat
  let value := i.middle * i.up * b
  let grid := i.down * a
  let below := value / grid
  let above := below + 1
  match i.contains (below * a) b && 0 < below, i.contains (above * a) b with
  | true, true =>
    some ⟨if value - below * grid ≤ above * grid - value then below else above, exponent⟩
  | true, false => some ⟨below, exponent⟩
  | false, true => some ⟨above, exponent⟩
  | false, false => none

/-- The fewest digits that round to `numerator / 2 ^ scale`; seventeen are always enough. -/
def shortest (numerator scale : Nat) : Decimal :=
  let i := Interval.ofFraction numerator scale
  let point := pointPosition numerator (twoTo scale)
  let found := (List.range 17).findSome? fun n => i.neighbour? (point - (n + 1 : Nat))
  trim 17 (found.getD ⟨numerator / twoTo scale, 0⟩)

/-- Digits with a point or an exponent: positional from `10 ^ -6` up to `10 ^ 21`, the exponent with
its sign outside that range. -/
def text (d : Decimal) : List Char :=
  let digits := ofNat d.digits
  let count : Int := digits.length
  let point := count + d.exponent
  if 0 ≤ d.exponent ∧ point ≤ 21 then
    digits ++ List.replicate d.exponent.toNat '0'
  else if 0 < point ∧ point ≤ 21 then
    digits.take point.toNat ++ '.' :: digits.drop point.toNat
  else if -6 < point ∧ point ≤ 0 then
    '0' :: '.' :: List.replicate (-point).toNat '0' ++ digits
  else
    let power := point - 1
    digits.take 1 ++ (if count = 1 then [] else '.' :: digits.drop 1) ++
      'e' :: (if power < 0 then '-' else '+') :: ofNat power.natAbs

end Decimal

namespace Number

/-- An integer with its sign. -/
def intText (n : Int) : List Char :=
  if n < 0 then '-' :: Decimal.ofNat n.natAbs else Decimal.ofNat n.natAbs

/-- The text of a number; an infinite one has none and is written `null`. -/
def text : Number → List Char
  | .infinite _ => ['n', 'u', 'l', 'l']
  | .finite n scale =>
    if scale = 0 ∧ n.natAbs < twoTo 53 then intText n
    else
      let magnitude := (Decimal.shortest n.natAbs scale).text
      if n < 0 then '-' :: magnitude else magnitude

end Number

end TreeCheck
