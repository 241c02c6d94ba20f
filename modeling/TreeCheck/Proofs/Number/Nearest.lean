import Mathlib.Algebra.Order.Field.Power
import Mathlib.Data.Rat.Cast.Order
import Mathlib.Tactic.FieldSimp
import Mathlib.Tactic.Linarith
import Mathlib.Tactic.LinearCombination
import Mathlib.Tactic.NormNum
import Mathlib.Tactic.Positivity
import Mathlib.Tactic.Ring
import TreeCheck.Number.Basic

namespace TreeCheck.Number

/-- The value of a finite number. -/
def fraction (numerator : ℤ) (scale : ℕ) : ℚ := numerator / 2 ^ scale

/-- The values that a number can have: 53 significant bits, and an exponent in bounds. -/
def IsValue (y : ℚ) : Prop := ∃ m e : ℤ, |m| < 2 ^ 53 ∧ -1074 ≤ e ∧ e ≤ 971 ∧ y = m * 2 ^ e

/-- Half a step above the greatest value, from where on all is infinite. -/
def overflow : ℚ := 2 ^ 1024 - 2 ^ 970

/-- The value is the one that a rational is rounded to. -/
structure Rounds (x v : ℚ) : Prop where
  isValue : IsValue v
  nearest : ∀ y, IsValue y → |x - v| ≤ |x - y|
  even : ∀ y, IsValue y → y ≠ v → |x - y| = |x - v| → ∃ k : ℤ, v = k * (2 * |y - v|)

/-- The number that a rational is rounded to. A fraction is in lowest terms. -/
inductive IsNearest (x : ℚ) : Number → Prop where
  | finite {numerator : ℤ} {scale : ℕ} : |x| < overflow → Rounds x (fraction numerator scale) →
    scale = 0 ∨ numerator % 2 = 1 → IsNearest x (.finite numerator scale)
  | infinite {negative : Bool} : overflow ≤ |x| → (negative = true ↔ x < 0) →
    IsNearest x (.infinite negative)

/-- A magnitude with its sign. -/
def signed (negative : Bool) (x : ℚ) : ℚ := if negative then -x else x

section Unique

variable {x v w : ℚ}

/-- Two values cannot both be an even multiple of the gap between them. -/
theorem Rounds.unique (hv : Rounds x v) (hw : Rounds x w) : v = w := by
  by_contra hne
  have hdist : |x - v| = |x - w| := le_antisymm (hv.nearest w hw.isValue) (hw.nearest v hv.isValue)
  obtain ⟨k, hk⟩ := hv.even w hw.isValue (Ne.symm hne) hdist.symm
  obtain ⟨l, hl⟩ := hw.even v hv.isValue hne hdist
  rw [abs_sub_comm v w] at hl
  have hgap : |w - v| ≠ 0 := abs_ne_zero.mpr (sub_ne_zero.mpr (Ne.symm hne))
  have hdiff : w - v = (2 * (l - k) : ℤ) * |w - v| := by
    push_cast
    linear_combination hl - hk
  have hone : |((2 * (l - k) : ℤ) : ℚ)| = 1 := by
    have habs := congrArg abs hdiff
    rw [abs_mul, abs_abs] at habs
    exact (mul_eq_right₀ hgap).mp habs.symm
  have hint : |2 * (l - k)| = 1 := by exact_mod_cast hone
  rcases (abs_eq one_pos.le).mp hint with h | h <;> omega

/-- A fraction in lowest terms with a greater scale would have an even numerator. -/
theorem scale_le {m n : ℤ} {s t : ℕ} (h : fraction m s = fraction n t)
    (hn : t = 0 ∨ n % 2 = 1) : t ≤ s := by
  by_contra hlt
  obtain ⟨d, rfl⟩ : ∃ d, t = s + (d + 1) := ⟨t - s - 1, by omega⟩
  have hq : (m : ℚ) * 2 ^ (d + 1) = n := by
    rw [fraction, fraction, pow_add, div_eq_div_iff (by positivity) (by positivity)] at h
    have hs : (2 : ℚ) ^ s ≠ 0 := by positivity
    exact mul_right_cancel₀ hs (by linear_combination h)
  have hz : m * 2 ^ (d + 1) = n := by exact_mod_cast hq
  rw [pow_succ, ← mul_assoc] at hz
  omega

theorem fraction_inj {m n : ℤ} {s t : ℕ} (h : fraction m s = fraction n t)
    (hm : s = 0 ∨ m % 2 = 1) (hn : t = 0 ∨ n % 2 = 1) : m = n ∧ s = t := by
  obtain rfl : s = t := le_antisymm (scale_le h.symm hm) (scale_le h hn)
  have hs : (2 : ℚ) ^ s ≠ 0 := by positivity
  have hq : (m : ℚ) = n := (div_left_inj' hs).mp h
  exact ⟨by exact_mod_cast hq, rfl⟩

theorem IsNearest.unique {a b : Number} (ha : IsNearest x a) (hb : IsNearest x b) : a = b := by
  cases ha with
  | finite hx hv hm =>
    cases hb with
    | finite _ hw hn =>
      obtain ⟨rfl, rfl⟩ := fraction_inj (hv.unique hw) hm hn
      rfl
    | infinite hy _ => exact absurd hx (not_lt.mpr hy)
  | infinite hx hs =>
    cases hb with
    | finite hy _ _ => exact absurd hy (not_lt.mpr hx)
    | infinite _ ht => rw [Bool.eq_iff_iff.mpr (hs.trans ht.symm)]

end Unique

end TreeCheck.Number
