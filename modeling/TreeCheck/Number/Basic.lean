namespace TreeCheck

/-- The power `2 ^ n`. -/
def twoTo (n : Nat) : Nat := Nat.pow 2 n

/-- The power `10 ^ n`. -/
def tenTo (n : Nat) : Nat := Nat.pow 10 n

/-- A number of a document: the fraction `numerator / 2 ^ scale`, or infinite when the digits that
were written exceed every finite value. A fraction is kept in lowest terms, so it is integral
exactly when `scale` is zero; there is one zero. -/
inductive Number where
  | finite (numerator : Int) (scale : Nat)
  | infinite (negative : Bool)
deriving DecidableEq, Repr

namespace Number

def ofInt (n : Int) : Number := .finite n 0

/-- The integer that a finite integral number is. -/
def toInt? : Number → Option Int
  | .finite n 0 => some n
  | _ => none

/-- A finite number below zero. -/
def isBelowZero : Number → Bool
  | .finite n _ => n < 0
  | .infinite _ => false

/-- The quotient rounded to the nearest natural number, a tie going to the even neighbour. -/
def divEven (a b : Nat) : Nat :=
  if 2 * (a % b) < b ∨ (2 * (a % b) = b ∧ (a / b) % 2 = 0) then a / b else a / b + 1

/-- Cancels up to `k` factors of two from `m / 2 ^ k`. -/
def reduce (m : Nat) : Nat → Nat × Nat
  | 0 => (m, 0)
  | k + 1 => if m % 2 = 0 then reduce (m / 2) k else (m, k + 1)

/-- Is `2 ^ e` at most `a / b`? -/
def powerLe (e : Int) (a b : Nat) : Bool :=
  if 0 ≤ e then b * twoTo e.toNat ≤ a else b ≤ a * twoTo (-e).toNat

/-- The exponent of the greatest power of two that is at most `a / b`, both positive. The
difference of the logarithms is that exponent or one more. -/
def logQuotient (a b : Nat) : Int :=
  let guess : Int := (a.log2 : Int) - (b.log2 : Int)
  if powerLe guess a b then guess else guess - 1

/-- The exponent of the last of the 53 significant bits of `a / b`; it stops at the smallest
positive value. -/
def unitExponent (a b : Nat) : Int := max (logQuotient a b - 52) (-1074)

/-- The number nearest to `a / b`, both positive, a tie going to the even last bit. -/
def round (negative : Bool) (a b : Nat) : Number :=
  let e := unitExponent a b
  let sign (n : Nat) : Int := if negative then -(n : Int) else n
  if 0 ≤ e then
    let magnitude := divEven a (b * twoTo e.toNat) * twoTo e.toNat
    if magnitude < twoTo 1024 then .finite (sign magnitude) 0 else .infinite negative
  else
    let (numerator, scale) := reduce (divEven (a * twoTo (-e).toNat) b) (-e).toNat
    .finite (sign numerator) scale

/-- The number nearest to `digits * 10 ^ exponent`. Exponents far outside the range of finite
values are settled by size alone: `10 ^ 400` is beyond the largest value, and `10 ^ -n` is less
than `2 ^ (-3 * n)`. -/
def ofDecimal (negative : Bool) (digits : Nat) (exponent : Int) : Number :=
  if digits = 0 then .finite 0 0
  else if 400 < exponent then .infinite negative
  else if 3 * exponent + digits.log2 + 1 < -1100 then .finite 0 0
  else if 0 ≤ exponent then round negative (digits * tenTo exponent.toNat) 1
  else round negative digits (tenTo (-exponent).toNat)

end Number

end TreeCheck
