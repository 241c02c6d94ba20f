import Mathlib.Data.Nat.Cast.Order.Field
import TreeCheck.Number.Shortest
import TreeCheck.Proofs.Number.Rounding

namespace TreeCheck

open Number (IsValue Rounds Scaled overflow unitExponent two_zpow_pos cast_twoTo twoTo_pos cast_tenTo
  tenTo_pos)

/-- A power as a fraction of two powers with natural exponents. -/
theorem pow_toNat_div (base : ℚ) (e : ℤ) :
    base ^ e.toNat / base ^ (-e).toNat = base ^ e := by
  rcases le_total 0 e with he | he
  · obtain ⟨k, rfl⟩ := Int.eq_ofNat_of_zero_le he
    simp
  · obtain ⟨k, hk⟩ := Int.eq_ofNat_of_zero_le (neg_nonneg.mpr he)
    obtain rfl : e = -k := by omega
    simp

namespace Decimal

/-- The value of the digits. -/
def value (d : Decimal) : ℚ := d.digits * 10 ^ d.exponent

section Trim

theorem trim_value (n : ℕ) (d : Decimal) : (trim n d).value = d.value := by
  induction n generalizing d with
  | zero => rfl
  | succ n ih =>
    rw [trim]
    split
    · next hd =>
      have hdigits : (d.digits : ℚ) = (d.digits / 10 : ℕ) * 10 := by
        exact_mod_cast (Nat.div_mul_cancel (Nat.dvd_of_mod_eq_zero hd)).symm
      rw [ih, value, value, zpow_add_one₀ (by norm_num), hdigits]
      ring
    · rfl

theorem trim_pos {n : ℕ} {d : Decimal} (h : 0 < d.digits) : 0 < (trim n d).digits := by
  induction n generalizing d with
  | zero => exact h
  | succ n ih =>
    rw [trim]
    split
    · next hd => exact ih (Nat.div_pos (Nat.le_of_dvd h (Nat.dvd_of_mod_eq_zero hd)) (by norm_num))
    · exact h

end Trim

section Interval

variable {v x : ℚ} {m a b : ℕ} {e : ℤ}

/-- A positive value as units of its last bit. -/
structure Significand (v : ℚ) (m : ℕ) (e : ℤ) : Prop where
  eq : v = m * 2 ^ e
  low : -1074 ≤ e
  pos : 0 < m
  high : m < 2 ^ 53
  bits : e = -1074 ∨ 2 ^ 52 ≤ m

/-- Half the way to the value below, in units of the last bit. -/
def gap (m : ℕ) (e : ℤ) : ℚ := if m = 2 ^ 52 ∧ -1074 < e then 1 / 4 else 1 / 2

theorem gap_le : gap m e ≤ 1 / 2 := by
  rw [gap]
  split <;> norm_num

/-- The rational lies less than half the way from so many units to the next value, or half the way if
the number of units is even. -/
structure Within (m : ℕ) (e : ℤ) (x : ℚ) : Prop where
  low : m - gap m e ≤ x / 2 ^ e
  high : x / 2 ^ e ≤ m + 1 / 2
  even : m % 2 = 0 ∨ m - gap m e < x / 2 ^ e ∧ x / 2 ^ e < m + 1 / 2

/-- The interval of a value. -/
def Interval.around (m : ℕ) (e : ℤ) : Interval :=
  { low := 4 * m - (if m = twoTo 52 ∧ -1074 < e then 1 else 2), middle := 4 * m, high := 4 * m + 2
    closed := m % 2 = 0, up := twoTo (e - 2).toNat, down := twoTo (2 - e).toNat }

theorem Interval.ofFraction_eq {n s : ℕ}
    (h : (n : ℚ) / 2 ^ s = m * 2 ^ unitExponent n (twoTo s)) :
    Interval.ofFraction n s = .around m (unitExponent n (twoTo s)) := by
  generalize he : unitExponent n (twoTo s) = e at h
  have hm : (if 0 ≤ -e - s then n * twoTo (-e - s).toNat else n / twoTo (-(-e - s)).toNat) = m := by
    have hn : (n : ℚ) = m * 2 ^ (e + s) := by
      rw [div_eq_iff (by positivity)] at h
      rw [h, zpow_add₀ two_ne_zero, zpow_natCast]
      ring
    split
    · next hs =>
      obtain ⟨k, hk⟩ := Int.eq_ofNat_of_zero_le hs
      have hq : (n * twoTo k : ℚ) = m := by
        rw [hn, cast_twoTo, mul_assoc, ← zpow_natCast, ← zpow_add₀ two_ne_zero]
        rw [show e + s + (k : ℤ) = 0 by omega, zpow_zero, mul_one]
      rw [hk, Int.toNat_natCast]
      exact_mod_cast hq
    · next hs =>
      obtain ⟨k, hk⟩ := Int.eq_ofNat_of_zero_le (show 0 ≤ e + s by omega)
      have hq : n = m * twoTo k := by
        rw [hk, zpow_natCast, ← cast_twoTo] at hn
        exact_mod_cast hn
      rw [show -(-e - (s : ℤ)) = k by omega, Int.toNat_natCast, hq]
      exact Nat.mul_div_cancel _ (twoTo_pos k)
  simp only [ofFraction, he, hm, around]

theorem Interval.contains_iff {i : Interval} (hu : 0 < i.up) (hb : 0 < b) :
    i.contains a b = true ↔
      ((i.low : ℚ) ≤ a / b / (i.up / i.down) ∧ (a / b / (i.up / i.down) : ℚ) ≤ i.high) ∧
      (i.closed = true ∨
        (i.low : ℚ) < a / b / (i.up / i.down) ∧ (a / b / (i.up / i.down) : ℚ) < i.high) := by
  have hden : (0 : ℚ) < i.up * b := by exact_mod_cast Nat.mul_pos hu hb
  have hquotient : (a / b / (i.up / i.down) : ℚ) = a * i.down / (i.up * b) := by
    rw [div_div_div_eq, mul_comm (b : ℚ)]
  rw [hquotient, le_div_iff₀ hden, div_le_iff₀ hden, lt_div_iff₀ hden, div_lt_iff₀ hden,
    ← mul_assoc, ← mul_assoc, contains]
  norm_cast
  cases i.closed with
  | true => simp
  | false => simpa using fun hlow hhigh => ⟨hlow.le, hhigh.le⟩

theorem Interval.quarter (e : ℤ) :
    ((twoTo (e - 2).toNat : ℕ) / (twoTo (2 - e).toNat : ℕ) : ℚ) = 2 ^ e / 4 := by
  rw [cast_twoTo, cast_twoTo, show 2 - e = -(e - 2) by ring, pow_toNat_div, zpow_sub₀ two_ne_zero]
  norm_num

theorem Interval.contains_around (hm : 0 < m) (hb : 0 < b) :
    (Interval.around m e).contains a b = true ↔ Within m e (a / b) := by
  have hlow : ((around m e).low : ℚ) = 4 * (m - gap m e) := by
    have hpow : twoTo 52 = 2 ^ 52 := rfl
    rw [around, gap, hpow]
    split <;> rw [Nat.cast_sub (by omega)] <;> push_cast <;> ring
  have hhigh : ((around m e).high : ℚ) = 4 * (m + 1 / 2) := by
    rw [around]
    push_cast
    ring
  have hscale : (a / b / (2 ^ e / 4) : ℚ) = 4 * (a / b / 2 ^ e) := by ring
  have hclosed : (around m e).closed = true ↔ m % 2 = 0 := decide_eq_true_iff
  rw [contains_iff (twoTo_pos _) hb, hlow, hhigh, hclosed]
  simp only [around, quarter, hscale, mul_le_mul_iff_right₀ (zero_lt_four' ℚ),
    mul_lt_mul_iff_right₀ (zero_lt_four' ℚ)]
  exact ⟨fun h => ⟨h.1.1, h.1.2, h.2⟩, fun h => ⟨⟨h.low, h.high⟩, h.even⟩⟩

theorem Within.pos (h : Within m e x) (hm : 0 < m) : 0 < x := by
  have hone : (1 : ℚ) ≤ m := by exact_mod_cast hm
  have hgap := gap_le (m := m) (e := e)
  have hquotient : 0 < x / 2 ^ e := by linarith [h.low]
  exact (div_pos_iff_of_pos_right (two_zpow_pos e)).mp hquotient

theorem Significand.scaled (h : Significand v m e) (hx : Within m e x)
    (hbits : e = -1074 ∨ 2 ^ 52 * 2 ^ e ≤ x) : Scaled x e m := by
  have hmax : (m + 1 : ℚ) ≤ 2 ^ 53 := by exact_mod_cast h.high
  have hgap := gap_le (m := m) (e := e)
  obtain ⟨hlow, hhigh, heven⟩ := hx
  have hclose : x < 2 ^ 53 * 2 ^ e := (div_lt_iff₀ (two_zpow_pos e)).mp (by linarith)
  refine ⟨h.low, hclose, hbits, Within.pos ⟨hlow, hhigh, heven⟩ h.pos, ?_, fun htie => ?_⟩
  · rw [abs_le, Int.cast_natCast]
    constructor <;> linarith
  · rw [Int.cast_natCast] at htie
    rcases heven with heven | ⟨hl, hh⟩
    · omega
    · exact absurd htie (abs_lt.mpr ⟨by linarith, by linarith⟩).ne

/-- Below a power of two the units are half as large, and the value is a full number of them. -/
theorem Significand.scaled_half (h : Significand v m e) (hx : Within m e x)
    (he : e ≠ -1074) (hlt : x < 2 ^ 52 * 2 ^ e) :
    Scaled x (e - 1) (2 ^ 53) ∧ ((2 ^ 53 : ℤ) : ℚ) * 2 ^ (e - 1) = v := by
  have hgap := gap_le (m := m) (e := e)
  have hmin := h.low
  have hquotient : x / 2 ^ e < 2 ^ 52 := (div_lt_iff₀ (two_zpow_pos e)).mpr hlt
  have hlow := hx.low
  have hfull : m = 2 ^ 52 := by
    have hm : (m : ℚ) < (2 ^ 52 + 1 : ℕ) := by
      push_cast
      linarith
    have hbits := h.bits.resolve_left he
    have hlt : m < 2 ^ 52 + 1 := by exact_mod_cast hm
    omega
  have hquarter : gap m e = 1 / 4 := if_pos ⟨hfull, by omega⟩
  have hhalf : (2 : ℚ) ^ (e - 1) = 2 ^ e / 2 := zpow_sub_one₀ two_ne_zero e
  have hdouble : x / 2 ^ (e - 1) = 2 * (x / 2 ^ e) := by
    rw [hhalf]
    field_simp
  rw [hquarter, hfull] at hlow
  push_cast at hlow
  refine ⟨⟨by omega, ?_, .inr ?_, hx.pos h.pos, ?_, fun _ => by norm_num⟩, ?_⟩
  · rw [← div_lt_iff₀ (two_zpow_pos _), hdouble]
    linarith
  · rw [← le_div_iff₀ (two_zpow_pos _), hdouble]
    linarith
  · rw [hdouble, abs_le]
    push_cast
    constructor <;> linarith
  · rw [h.eq, hfull, hhalf]
    push_cast
    ring

/-- What lies in the interval of a value is rounded to it. -/
theorem Significand.rounds (h : Significand v m e) (hv : v < 2 ^ 1024) (hx : Within m e x) :
    x < overflow ∧ Rounds x v := by
  obtain ⟨f, k, hscaled, hk⟩ : ∃ f k : ℤ, Scaled x f k ∧ (k : ℚ) * 2 ^ f = v := by
    by_cases hbits : e = -1074 ∨ 2 ^ 52 * 2 ^ e ≤ x
    · exact ⟨e, m, h.scaled hx hbits, by rw [Int.cast_natCast, h.eq]⟩
    · obtain ⟨he, hlt⟩ := not_or.mp hbits
      exact ⟨e - 1, 2 ^ 53, h.scaled_half hx he (not_le.mp hlt)⟩
  have hover : x < overflow := hscaled.lt_iff.mp (by rwa [hk])
  exact ⟨hover, hk ▸ hscaled.isRounded hover⟩

/-- The interval reaches further than a part in `2 ^ 54` of the value. -/
theorem Significand.within (h : Significand v m e) (hx : |x - v| < v / 2 ^ 54) : Within m e x := by
  have hunit := two_zpow_pos e
  have hmax : (m : ℚ) < 2 ^ 53 := by exact_mod_cast h.high
  have hdist : |x / 2 ^ e - m| < m / 2 ^ 54 := by
    have hscale : x / 2 ^ e - m = (x - v) / 2 ^ e := by
      rw [h.eq]
      field_simp
    rwa [hscale, abs_div, abs_of_pos hunit, div_lt_iff₀ hunit, ← mul_div_right_comm, ← h.eq]
  have hgap : (m : ℚ) / 2 ^ 54 ≤ gap m e := by
    rw [gap]
    split
    · next hm =>
      rw [hm.1]
      norm_num
    · linarith
  obtain ⟨hbelow, habove⟩ := abs_lt.mp hdist
  have hlow : m - gap m e < x / 2 ^ e := by linarith
  have hhigh : x / 2 ^ e < m + 1 / 2 := by linarith
  exact ⟨hlow.le, hhigh.le, .inr ⟨hlow, hhigh⟩⟩

end Interval

section Neighbours

variable {v : ℚ} {m : ℕ} {e p : ℤ} {d : Decimal}

theorem tenTo_div (p : ℤ) : ((tenTo p.toNat : ℕ) / (tenTo (-p).toNat : ℕ) : ℚ) = 10 ^ p := by
  rw [cast_tenTo, cast_tenTo, pow_toNat_div]

theorem Interval.contains_multiple (hm : 0 < m) (k : ℕ) (p : ℤ) :
    (Interval.around m e).contains (k * tenTo p.toNat) (tenTo (-p).toNat) = true ↔
      Within m e (k * 10 ^ p) := by
  rw [contains_around hm (tenTo_pos _), Nat.cast_mul, mul_div_assoc, tenTo_div]

/-- What is found is positive and lies in the interval. -/
theorem Interval.neighbour?_within (hm : 0 < m) (h : (Interval.around m e).neighbour? p = some d) :
    0 < d.digits ∧ Within m e d.value := by
  rw [neighbour?] at h
  split at h
  · next hbelow habove =>
    obtain ⟨hcontains, hpos⟩ := Bool.and_eq_true_iff.mp hbelow
    obtain rfl := Option.some.inj h
    dsimp only
    split
    · exact ⟨of_decide_eq_true hpos, (contains_multiple hm _ _).mp hcontains⟩
    · exact ⟨Nat.succ_pos _, (contains_multiple hm _ _).mp habove⟩
  · next hbelow _ =>
    obtain ⟨hcontains, hpos⟩ := Bool.and_eq_true_iff.mp hbelow
    obtain rfl := Option.some.inj h
    exact ⟨of_decide_eq_true hpos, (contains_multiple hm _ _).mp hcontains⟩
  · next habove =>
    obtain rfl := Option.some.inj h
    exact ⟨Nat.succ_pos _, (contains_multiple hm _ _).mp habove⟩
  · cases h

/-- The value lies between two multiples of the power of ten. -/
theorem Interval.between (h : Significand v m e) (p : ℤ) :
    let below := (around m e).middle * (around m e).up * tenTo (-p).toNat /
      ((around m e).down * tenTo p.toNat)
    (below : ℚ) * 10 ^ p ≤ v ∧ v < (below + 1 : ℕ) * 10 ^ p := by
  intro below
  have hpow : (0 : ℚ) < 10 ^ p := zpow_pos (by norm_num) p
  have hgrid : 0 < (around m e).down * tenTo p.toNat := Nat.mul_pos (twoTo_pos _) (tenTo_pos _)
  have hgridq : (0 : ℚ) < ((around m e).down * tenTo p.toNat : ℕ) := by exact_mod_cast hgrid
  have hquotient : v / 10 ^ p = ((around m e).middle * (around m e).up * tenTo (-p).toNat : ℕ) /
      ((around m e).down * tenTo p.toNat : ℕ) := by
    have hunits : v = (around m e).middle * ((around m e).up / (around m e).down) := by
      rw [h.eq, around, quarter]
      push_cast
      ring
    rw [hunits, ← tenTo_div]
    push_cast
    field_simp
  constructor
  · rw [← le_div_iff₀ hpow, hquotient, le_div_iff₀ hgridq]
    exact_mod_cast Nat.div_mul_le_self _ _
  · rw [← div_lt_iff₀ hpow, hquotient, div_lt_iff₀ hgridq]
    exact_mod_cast (Nat.div_lt_iff_lt_mul hgrid).mp (Nat.lt_succ_self below)

/-- On a grid of seventeen digits or more one neighbour of the value is near enough. -/
theorem Interval.neighbour?_isSome (h : Significand v m e) (hp : 10 ^ p * 10 ^ 16 ≤ v) :
    ((Interval.around m e).neighbour? p).isSome := by
  have hpow : (0 : ℚ) < 10 ^ p := zpow_pos (by norm_num) p
  have hnear : (10 : ℚ) ^ p / 2 < v / 2 ^ 54 := by linarith
  obtain ⟨hbelow, habove⟩ := Interval.between h p
  rw [neighbour?]
  generalize (around m e).middle * (around m e).up * tenTo (-p).toNat /
    ((around m e).down * tenTo p.toNat) = below at *
  push_cast at habove
  by_cases hhalf : v - below * 10 ^ p ≤ 10 ^ p / 2
  · have hcontains := (contains_multiple h.pos below p).mpr
      (h.within (by rw [abs_lt]; constructor <;> linarith))
    have hpos : 0 < below := by
      by_contra hzero
      obtain rfl : below = 0 := by omega
      push_cast at habove
      linarith
    rw [hcontains, decide_eq_true hpos]
    cases (around m e).contains ((below + 1) * tenTo p.toNat) (tenTo (-p).toNat) <;> rfl
  · have hcontains := (contains_multiple h.pos (below + 1) p).mpr
      (h.within (by rw [abs_lt]; push_cast; constructor <;> linarith))
    rw [hcontains]
    generalize ((around m e).contains (below * tenTo p.toNat) (tenTo (-p).toNat) &&
      decide (0 < below)) = other
    cases other <;> rfl

end Neighbours

section Shortest

variable {n s : ℕ}

theorem lt_pow_length (n : ℕ) : n < 10 ^ (ofNat n).length :=
  (Nat.length_toDigits_le_iff (by norm_num) Nat.length_toDigits_pos).mp le_rfl

theorem pow_length_le (hn : 0 < n) : 10 ^ ((ofNat n).length - 1) ≤ n := by
  by_cases hone : (ofNat n).length = 1
  · rw [hone]
    exact hn
  · have hpos : 0 < (ofNat n).length := Nat.length_toDigits_pos
    by_contra hlt
    have hle := (Nat.length_toDigits_le_iff (by norm_num) (by omega)).mpr (not_le.mp hlt)
    exact absurd hle (by rw [ofNat] at hpos ⊢; omega)

theorem pow_pointPosition_le {a b : ℕ} (ha : 0 < a) (hb : 0 < b) :
    (10 : ℚ) ^ (pointPosition a b - 1) ≤ a / b := by
  have hbq : (0 : ℚ) < b := by exact_mod_cast hb
  have haq : (0 : ℚ) < a := by exact_mod_cast ha
  rw [pointPosition]
  split
  · next hle =>
    have hpos : 0 < (ofNat (a / b)).length := Nat.length_toDigits_pos
    have hpow : (10 : ℚ) ^ ((ofNat (a / b)).length - 1) ≤ (a / b : ℕ) := by
      exact_mod_cast pow_length_le (Nat.div_pos hle hb)
    rw [show ((ofNat (a / b)).length - 1 : ℤ) = ((ofNat (a / b)).length - 1 : ℕ) by omega,
      zpow_natCast]
    exact hpow.trans Nat.cast_div_le
  · have hlt := lt_pow_length ((b - 1) / a)
    rw [Nat.div_lt_iff_lt_mul ha] at hlt
    have hle : (b : ℚ) ≤ 10 ^ (ofNat ((b - 1) / a)).length * a := by
      exact_mod_cast (by omega : b ≤ 10 ^ (ofNat ((b - 1) / a)).length * a)
    have hpower : (1 - (ofNat ((b - 1) / a)).length - 1 : ℤ) = -(ofNat ((b - 1) / a)).length := by ring
    rw [hpower, zpow_neg, zpow_natCast, inv_le_iff_one_le_mul₀ (by positivity),
      ← mul_div_right_comm, one_le_div hbq, mul_comm]
    exact hle

theorem exists_significand (hn : 0 < n) (hv : IsValue (n / 2 ^ s)) :
    ∃ m, Significand (n / 2 ^ s) m (unitExponent n (twoTo s)) := by
  have hpos : (0 : ℚ) < n / 2 ^ s := by positivity
  obtain ⟨hlow, hhigh, hbits⟩ := Number.unitExponent_bounds hn (twoTo_pos s)
  rw [cast_twoTo] at hhigh hbits
  have hunit := two_zpow_pos (unitExponent n (twoTo s))
  generalize unitExponent n (twoTo s) = e at *
  rcases hv.multiple_or_small e with ⟨k, hk⟩ | ⟨he, hsmall⟩
  · rw [hk] at hpos hhigh hbits ⊢
    have hkpos : 0 < k := by exact_mod_cast (mul_pos_iff_of_pos_right hunit).mp hpos
    obtain ⟨m, rfl⟩ := Int.eq_ofNat_of_zero_le hkpos.le
    refine ⟨m, rfl, hlow, by omega, ?_, hbits.imp_right fun hb => ?_⟩
    · exact_mod_cast lt_of_mul_lt_mul_right hhigh hunit.le
    · exact_mod_cast le_of_mul_le_mul_right hb hunit
  · rw [abs_of_pos hpos] at hsmall
    exact absurd (hbits.resolve_left (by omega)) (not_le.mpr hsmall)

theorem lt_of_isValue {v : ℚ} (h : IsValue v) : v < 2 ^ 1024 := by
  obtain ⟨k, e, hk, _, he, rfl⟩ := h
  have hkq : (k : ℚ) < 2 ^ 53 := by exact_mod_cast (abs_lt.mp hk).2
  have hpow : (2 : ℚ) ^ e ≤ 2 ^ (971 : ℤ) := zpow_le_zpow_right₀ one_le_two he
  calc (k : ℚ) * 2 ^ e < 2 ^ 53 * 2 ^ e := mul_lt_mul_of_pos_right hkq (two_zpow_pos e)
    _ ≤ 2 ^ 53 * 2 ^ (971 : ℤ) := mul_le_mul_of_nonneg_left hpow (by positivity)
    _ = 2 ^ 1024 := Number.pow_mul_zpow (by norm_num)

/-- The shortest digits of a positive value are rounded to it. -/
theorem shortest_rounds (hn : 0 < n) (hv : IsValue (n / 2 ^ s)) :
    0 < (shortest n s).digits ∧ (shortest n s).value < overflow ∧
      Rounds (shortest n s).value (n / 2 ^ s) := by
  obtain ⟨m, hm⟩ := exists_significand hn hv
  -- The last grid tried has seventeen digits.
  have hfull : ((List.range 17).findSome? fun k =>
      (Interval.ofFraction n s).neighbour? (pointPosition n (twoTo s) - (k + 1 : ℕ))).isSome := by
    rw [List.findSome?_isSome_iff]
    refine ⟨16, by simp, ?_⟩
    rw [Interval.ofFraction_eq hm.eq]
    apply Interval.neighbour?_isSome hm
    have hpoint := pow_pointPosition_le hn (twoTo_pos s)
    rw [cast_twoTo] at hpoint
    refine le_trans (le_of_eq ?_) hpoint
    rw [← zpow_natCast, ← zpow_add₀ (by norm_num)]
    congr 1
    push_cast
    ring
  obtain ⟨d, hd⟩ := Option.isSome_iff_exists.mp hfull
  obtain ⟨k, _, hk⟩ := List.exists_of_findSome?_eq_some hd
  rw [Interval.ofFraction_eq hm.eq] at hk
  obtain ⟨hpos, hwithin⟩ := Interval.neighbour?_within hm.pos hk
  have hshortest : shortest n s = trim 17 d := by rw [shortest, hd, Option.getD_some]
  rw [hshortest, trim_value]
  exact ⟨trim_pos hpos, hm.rounds (lt_of_isValue hv) hwithin⟩

end Shortest

end Decimal

namespace Number

/-- A finite number that can be stored: a value, in lowest terms. -/
inductive Storable : Number → Prop where
  | mk {numerator : ℤ} {scale : ℕ} : IsValue (fraction numerator scale) →
    scale = 0 ∨ numerator % 2 = 1 → Storable (.finite numerator scale)

theorem IsValue.natAbs {k : ℤ} {scale : ℕ} (h : IsValue (fraction k scale)) :
    IsValue (k.natAbs / 2 ^ scale) := by
  rw [← Int.cast_natCast]
  rcases Int.natAbs_eq k with hk | hk
  · rwa [← hk]
  · have hneg := h.neg
    rwa [fraction, ← neg_div, ← Int.cast_neg, show -k = k.natAbs by omega] at hneg

theorem storable_ofInt {n : ℤ} (h : n.natAbs ≤ 2 ^ 53) : Storable (.ofInt n) := by
  have hfraction : fraction n 0 = n := by simp [fraction]
  refine .mk ?_ (.inl rfl)
  rw [hfraction]
  rcases lt_or_eq_of_le h with hlt | heq
  · exact ⟨n, 0, by rw [Int.abs_eq_natAbs]; omega, by norm_num, by norm_num, by simp⟩
  · -- The bound itself has one bit more, and the last one is zero.
    obtain ⟨k, hk⟩ : ∃ k, n = k * 2 := ⟨n / 2, by omega⟩
    refine ⟨k, 1, by rw [Int.abs_eq_natAbs]; omega, by norm_num, by norm_num, ?_⟩
    rw [hk]
    push_cast
    ring

end Number

end TreeCheck
