import Mathlib.Algebra.Order.Field.Power
import Mathlib.Data.Rat.Cast.Order
import Mathlib.Tactic.FieldSimp
import Mathlib.Tactic.Linarith
import Mathlib.Tactic.LinearCombination
import Mathlib.Tactic.NormNum
import Mathlib.Tactic.Positivity
import Mathlib.Tactic.Ring
import TreeCheck.Proofs.Number.Nearest

namespace TreeCheck.Number

section Exponent

variable {a b : ℕ}

theorem cast_twoTo (n : ℕ) : ((twoTo n : ℕ) : ℚ) = 2 ^ n := by
  change ((2 ^ n : ℕ) : ℚ) = _
  push_cast
  rfl

theorem twoTo_pos (n : ℕ) : 0 < twoTo n := Nat.pow_pos (by decide)

theorem powerLe_iff (hb : 0 < b) (e : ℤ) : powerLe e a b = true ↔ (2 : ℚ) ^ e ≤ a / b := by
  have hbq : (0 : ℚ) < b := by exact_mod_cast hb
  rw [powerLe, le_div_iff₀ hbq]
  split
  · next he =>
    obtain ⟨n, rfl⟩ := Int.eq_ofNat_of_zero_le he
    rw [decide_eq_true_iff, ← Nat.cast_le (α := ℚ), Nat.cast_mul, Int.toNat_natCast, cast_twoTo,
      zpow_natCast, mul_comm]
  · next he =>
    obtain ⟨n, rfl⟩ : ∃ n : ℕ, e = -n := ⟨(-e).toNat, by omega⟩
    rw [decide_eq_true_iff, ← Nat.cast_le (α := ℚ), Nat.cast_mul, neg_neg, Int.toNat_natCast,
      cast_twoTo, zpow_neg, zpow_natCast, inv_mul_le_iff₀ (by positivity), mul_comm (a : ℚ)]

theorem log2_bounds (ha : 0 < a) : (2 : ℚ) ^ (a.log2 : ℤ) ≤ a ∧ (a : ℚ) < 2 ^ (a.log2 + 1 : ℤ) := by
  have hlow : 2 ^ a.log2 ≤ a := Nat.log2_self_le (by omega)
  have hhigh : a < 2 ^ (a.log2 + 1) := Nat.lt_log2_self
  constructor
  · rw [zpow_natCast]
    exact_mod_cast hlow
  · have hcast : (a.log2 + 1 : ℤ) = ((a.log2 + 1 : ℕ) : ℤ) := by push_cast; rfl
    rw [hcast, zpow_natCast]
    exact_mod_cast hhigh

/-- The greatest power of two that is not above the quotient. -/
theorem logQuotient_bounds (ha : 0 < a) (hb : 0 < b) :
    (2 : ℚ) ^ logQuotient a b ≤ a / b ∧ (a / b : ℚ) < 2 ^ (logQuotient a b + 1) := by
  have hbq : (0 : ℚ) < b := by exact_mod_cast hb
  obtain ⟨ha₁, ha₂⟩ := log2_bounds ha
  obtain ⟨hb₁, hb₂⟩ := log2_bounds hb
  have hlow : (2 : ℚ) ^ ((a.log2 : ℤ) - b.log2 - 1) ≤ a / b := by
    rw [le_div_iff₀ hbq]
    calc (2 : ℚ) ^ ((a.log2 : ℤ) - b.log2 - 1) * b
        ≤ 2 ^ ((a.log2 : ℤ) - b.log2 - 1) * 2 ^ (b.log2 + 1 : ℤ) := by gcongr
      _ = 2 ^ (a.log2 : ℤ) := by
        rw [← zpow_add₀ two_ne_zero]
        congr 1
        ring
      _ ≤ a := ha₁
  have hhigh : (a / b : ℚ) < 2 ^ ((a.log2 : ℤ) - b.log2 + 1) := by
    rw [div_lt_iff₀ hbq]
    calc (a : ℚ) < 2 ^ (a.log2 + 1 : ℤ) := ha₂
      _ = 2 ^ ((a.log2 : ℤ) - b.log2 + 1) * 2 ^ (b.log2 : ℤ) := by
        rw [← zpow_add₀ two_ne_zero]
        congr 1
        ring
      _ ≤ 2 ^ ((a.log2 : ℤ) - b.log2 + 1) * b := by gcongr
  rw [logQuotient]
  split
  · next h => exact ⟨(powerLe_iff hb _).mp h, hhigh⟩
  · next h =>
    rw [powerLe_iff hb, not_le] at h
    exact ⟨hlow, by simpa using h⟩

end Exponent

section Even

/-- The integer is the nearest one, and the even one of two. -/
structure RoundsEven (t : ℚ) (m : ℤ) : Prop where
  close : |t - m| ≤ 1 / 2
  even : |t - m| = 1 / 2 → m % 2 = 0

variable {t : ℚ} {m k : ℤ}

theorem one_le_abs_sub (h : k ≠ m) : (1 : ℚ) ≤ |(k : ℚ) - m| := by
  have hint : 1 ≤ |k - m| := Int.one_le_abs (sub_ne_zero.mpr h)
  exact_mod_cast hint

theorem RoundsEven.nearest (h : RoundsEven t m) (k : ℤ) : |t - m| ≤ |t - k| := by
  by_cases hk : k = m
  · rw [hk]
  · have hgap := one_le_abs_sub hk
    have htri := abs_sub_le (k : ℚ) t m
    rw [abs_sub_comm (k : ℚ) t] at htri
    have hclose := h.close
    linarith

/-- Another integer that is equally near lies next to it. -/
theorem RoundsEven.tie (h : RoundsEven t m) (hk : k ≠ m) (heq : |t - k| = |t - m|) :
    m % 2 = 0 ∧ |(k : ℚ) - m| = 1 := by
  have hgap := one_le_abs_sub hk
  have htri := abs_sub_le (k : ℚ) t m
  rw [abs_sub_comm (k : ℚ) t] at htri
  have hclose := h.close
  exact ⟨h.even (by linarith), by linarith⟩

theorem divEven_roundsEven (a : ℕ) {b : ℕ} (hb : 0 < b) : RoundsEven (a / b) (divEven a b) := by
  have hbq : (0 : ℚ) < b := by exact_mod_cast hb
  have hmod : a % b < b := Nat.mod_lt a hb
  have hsplit : (a / b : ℚ) = (a / b : ℕ) + (a % b : ℕ) / b := by
    have hdiv : (a : ℚ) = b * (a / b : ℕ) + (a % b : ℕ) := by exact_mod_cast (Nat.div_add_mod a b).symm
    rw [div_eq_iff hbq.ne', add_mul, div_mul_cancel₀ _ hbq.ne']
    linarith
  have hrest : 0 ≤ ((a % b : ℕ) / b : ℚ) := by positivity
  have htie : ((a % b : ℕ) / b : ℚ) = 1 / 2 → 2 * (a % b) = b := by
    intro heq
    rw [div_eq_div_iff hbq.ne' two_ne_zero, one_mul] at heq
    rw [mul_comm]
    exact_mod_cast heq
  rw [divEven, hsplit]
  split
  · next h =>
    have hhalf : ((a % b : ℕ) / b : ℚ) ≤ 1 / 2 := by
      rw [div_le_div_iff₀ hbq two_pos, one_mul]
      have hle : a % b * 2 ≤ b := by omega
      exact_mod_cast hle
    refine ⟨?_, fun heq => ?_⟩
    · rw [Int.cast_natCast, add_sub_cancel_left, abs_of_nonneg hrest]
      exact hhalf
    · rw [Int.cast_natCast, add_sub_cancel_left, abs_of_nonneg hrest] at heq
      have hb2 := htie heq
      omega
  · next h =>
    have hhalf : 1 / 2 ≤ ((a % b : ℕ) / b : ℚ) := by
      rw [div_le_div_iff₀ two_pos hbq, one_mul]
      have hle : b ≤ a % b * 2 := by omega
      exact_mod_cast hle
    have hone : ((a % b : ℕ) / b : ℚ) < 1 := by
      rw [div_lt_one hbq]
      exact_mod_cast hmod
    have hdist : |((a / b : ℕ) + (a % b : ℕ) / b : ℚ) - ((a / b + 1 : ℕ) : ℤ)| = 1 - (a % b : ℕ) / b := by
      rw [Int.cast_natCast, Nat.cast_add, Nat.cast_one, add_sub_add_left_eq_sub, abs_sub_comm,
        abs_of_pos (sub_pos.mpr hone)]
    refine ⟨?_, fun heq => ?_⟩
    · rw [hdist]
      linarith
    · rw [hdist] at heq
      have hb2 := htie (by linarith)
      omega

end Even

section Values

variable {x : ℚ} {e m : ℤ}

theorem two_zpow_pos (e : ℤ) : (0 : ℚ) < 2 ^ e := zpow_pos two_pos e

/-- A value is a multiple of a greater power of two, or it is small. -/
theorem IsValue.multiple_or_small {y : ℚ} (h : IsValue y) (e : ℤ) :
    (∃ k : ℤ, y = k * 2 ^ e) ∨ -1074 < e ∧ |y| < 2 ^ 52 * 2 ^ e := by
  obtain ⟨m, f, hm, hlow, _, rfl⟩ := h
  by_cases hf : e ≤ f
  · left
    obtain ⟨d, rfl⟩ : ∃ d : ℕ, f = e + d := ⟨(f - e).toNat, by omega⟩
    refine ⟨m * 2 ^ d, ?_⟩
    rw [zpow_add₀ two_ne_zero, zpow_natCast]
    push_cast
    ring
  · right
    refine ⟨by omega, ?_⟩
    have hmq : |(m : ℚ)| < 2 ^ 53 := by exact_mod_cast hm
    have hpow : (2 : ℚ) ^ f ≤ 2 ^ (e - 1) := zpow_le_zpow_right₀ one_le_two (by omega)
    have hhalf : (2 : ℚ) ^ (e - 1) = 2 ^ e / 2 := by rw [zpow_sub_one₀ two_ne_zero]; rfl
    rw [abs_mul, abs_of_pos (two_zpow_pos f)]
    calc |(m : ℚ)| * 2 ^ f < 2 ^ 53 * 2 ^ f := by gcongr
      _ ≤ 2 ^ 53 * 2 ^ (e - 1) := by gcongr
      _ = 2 ^ 52 * 2 ^ e := by rw [hhalf]; ring

/-- Rounding to a multiple of a power of two that leaves 53 bits rounds to a value. -/
theorem rounds_of_even (hm : RoundsEven (x / 2 ^ e) m)
    (hbits : e = -1074 ∨ 2 ^ 52 * 2 ^ e ≤ x) (hv : IsValue (m * 2 ^ e)) : Rounds x (m * 2 ^ e) := by
  have hu := two_zpow_pos e
  have hscale (k : ℤ) : |x - k * 2 ^ e| = |x / 2 ^ e - k| * 2 ^ e := by
    rw [← abs_of_pos hu, ← abs_mul, sub_mul, abs_of_pos hu, div_mul_cancel₀ _ hu.ne']
  -- A value between the multiples is below all of them, so it is further away than the lowest.
  have hsmall {y : ℚ} (h : -1074 < e ∧ |y| < 2 ^ 52 * 2 ^ e) : |x - m * 2 ^ e| < |x - y| := by
    have hlow := hbits.resolve_left (by omega)
    have hy := (abs_lt.mp h.2).2
    have hcast : ((2 ^ 52 : ℤ) : ℚ) = 2 ^ 52 := Int.cast_pow 2 52
    have hnear := hm.nearest (2 ^ 52)
    have hle : |x - m * 2 ^ e| ≤ |x - 2 ^ 52 * 2 ^ e| := by
      rw [← hcast, hscale, hscale]
      gcongr
    rw [abs_of_nonneg (sub_nonneg.mpr hlow)] at hle
    rw [abs_of_pos (sub_pos.mpr (lt_of_lt_of_le hy hlow))]
    linarith
  refine ⟨hv, fun y hy => ?_, fun y hy hne heq => ?_⟩
  · rcases hy.multiple_or_small e with ⟨k, rfl⟩ | h
    · rw [hscale, hscale]
      have hnear := hm.nearest k
      gcongr
    · exact (hsmall h).le
  · rcases hy.multiple_or_small e with ⟨k, rfl⟩ | h
    · rw [hscale, hscale] at heq
      have hkm : k ≠ m := fun h => hne (by rw [h])
      obtain ⟨heven, hgap⟩ := hm.tie hkm (mul_right_cancel₀ hu.ne' heq)
      refine ⟨m / 2, ?_⟩
      have hhalf : (2 * (m / 2 : ℤ) : ℚ) = m := by
        have hint : 2 * (m / 2) = m := by omega
        exact_mod_cast hint
      rw [← sub_mul, abs_mul, hgap, abs_of_pos hu, one_mul, ← mul_assoc, mul_comm _ (2 : ℚ), hhalf]
    · exact absurd heq (hsmall h).ne'

theorem pow_mul_zpow {n k : ℕ} {e : ℤ} (h : n + e = k) : (2 : ℚ) ^ n * 2 ^ e = 2 ^ k := by
  rw [← zpow_natCast, ← zpow_add₀ two_ne_zero, h, zpow_natCast]

/-- The overflow in units of the last bit of the greatest value. -/
theorem overflow_eq : overflow = (2 ^ 53 - 1 / 2) * 2 ^ (971 : ℤ) := by
  have hfull : (2 : ℚ) ^ 53 * 2 ^ (971 : ℤ) = 2 ^ 1024 := pow_mul_zpow (by norm_num)
  have hhalf : (2 : ℚ) ^ (971 - 1 : ℤ) = 2 ^ 970 := by
    rw [← zpow_natCast]
    norm_num
  rw [zpow_sub_one₀ two_ne_zero] at hhalf
  rw [overflow, sub_mul, hfull, ← hhalf, one_div, mul_comm (2⁻¹ : ℚ)]

theorem lt_overflow (he : e < 971) (hx : x < 2 ^ 53 * 2 ^ e) : x < overflow := by
  have hpow : (2 : ℚ) ^ e ≤ 2 ^ (971 - 1 : ℤ) := zpow_le_zpow_right₀ one_le_two (by omega)
  rw [zpow_sub_one₀ two_ne_zero] at hpow
  have hunit := two_zpow_pos 971
  rw [overflow_eq]
  generalize (2 : ℚ) ^ (971 : ℤ) = unit at *
  linarith

/-- The exponent of the last bit leaves 53 bits, or fewer at the lower end. -/
theorem unitExponent_bounds {a b : ℕ} (ha : 0 < a) (hb : 0 < b) :
    -1074 ≤ unitExponent a b ∧ (a / b : ℚ) < 2 ^ 53 * 2 ^ unitExponent a b ∧
      (unitExponent a b = -1074 ∨ 2 ^ 52 * 2 ^ unitExponent a b ≤ (a / b : ℚ)) := by
  obtain ⟨hlow, hhigh⟩ := logQuotient_bounds ha hb
  have hsum (n : ℕ) (e : ℤ) : (2 : ℚ) ^ n * 2 ^ e = 2 ^ (n + e) := by
    rw [zpow_add₀ two_ne_zero, zpow_natCast]
  have hle : logQuotient a b - 52 ≤ unitExponent a b := le_max_left ..
  refine ⟨le_max_right .., ?_, ?_⟩
  · refine lt_of_lt_of_le hhigh ?_
    rw [hsum]
    exact zpow_le_zpow_right₀ one_le_two (by push_cast; omega)
  · rcases max_choice (logQuotient a b - 52) (-1074) with h | h
    · right
      rw [hsum, unitExponent, h]
      simpa using hlow
    · exact .inl h

/-- A positive rational and its rounding, counted in units of the last bit. -/
structure Scaled (x : ℚ) (e m : ℤ) : Prop where
  low : -1074 ≤ e
  high : x < 2 ^ 53 * 2 ^ e
  bits : e = -1074 ∨ 2 ^ 52 * 2 ^ e ≤ x
  pos : 0 < x
  rounds : RoundsEven (x / 2 ^ e) m

namespace Scaled

theorem bounds (h : Scaled x e m) : x / 2 ^ e - 1 / 2 ≤ m ∧ (m : ℚ) ≤ x / 2 ^ e + 1 / 2 := by
  have hclose := abs_le.mp h.rounds.close
  constructor <;> linarith

theorem nonneg (h : Scaled x e m) : 0 ≤ m := by
  have hpos : 0 < x / 2 ^ e := div_pos h.pos (two_zpow_pos e)
  have hlow := h.bounds.1
  have hq : ((-1 : ℤ) : ℚ) < m := by
    push_cast
    linarith
  have hint : -1 < m := by exact_mod_cast hq
  omega

theorem le (h : Scaled x e m) : m ≤ 2 ^ 53 := by
  have hlt : x / 2 ^ e < 2 ^ 53 := (div_lt_iff₀ (two_zpow_pos e)).mpr h.high
  have hhigh := h.bounds.2
  have hq : (m : ℚ) < ((2 ^ 53 + 1 : ℤ) : ℚ) := by
    push_cast
    linarith
  have hint : m < 2 ^ 53 + 1 := by exact_mod_cast hq
  omega

theorem ge (h : Scaled x e m) (hb : 2 ^ 52 * 2 ^ e ≤ x) : 2 ^ 52 ≤ m := by
  have hge : 2 ^ 52 ≤ x / 2 ^ e := (le_div_iff₀ (two_zpow_pos e)).mpr hb
  have hlow := h.bounds.1
  have hq : ((2 ^ 52 - 1 : ℤ) : ℚ) < m := by
    push_cast
    linarith
  have hint : 2 ^ 52 - 1 < m := by exact_mod_cast hq
  omega

/-- Above the last exponent even the least mantissa is too large. -/
theorem exponent_le (h : Scaled x e m) (hfin : (m * 2 ^ e : ℚ) < 2 ^ 1024) : e ≤ 971 := by
  by_contra hlt
  have hge := h.ge (h.bits.resolve_left (by omega))
  have hgeq : (2 ^ 52 : ℚ) ≤ m := by exact_mod_cast hge
  have hpow : (2 : ℚ) ^ (972 : ℤ) ≤ 2 ^ e := zpow_le_zpow_right₀ one_le_two (by omega)
  have hbig : (2 : ℚ) ^ 1024 ≤ m * 2 ^ e := by
    rw [← pow_mul_zpow (n := 52) (e := 972) (by norm_num)]
    gcongr
  exact absurd hfin (not_lt.mpr hbig)

theorem isValue (h : Scaled x e m) (hfin : (m * 2 ^ e : ℚ) < 2 ^ 1024) : IsValue (m * 2 ^ e) := by
  have he := h.exponent_le hfin
  by_cases hm : m = 2 ^ 53
  · -- The mantissa has been rounded up to one more bit, which the exponent takes.
    have hlast : e ≠ 971 := by
      rintro rfl
      rw [hm, Int.cast_pow, Int.cast_ofNat, pow_mul_zpow (k := 1024) (by norm_num)] at hfin
      exact lt_irrefl _ hfin
    refine ⟨2 ^ 52, e + 1, by norm_num, by have := h.low; omega, by omega, ?_⟩
    rw [hm, zpow_add_one₀ two_ne_zero]
    push_cast
    ring
  · refine ⟨m, e, ?_, h.low, he, rfl⟩
    rw [abs_of_nonneg h.nonneg]
    exact lt_of_le_of_ne h.le hm

/-- What rounds below the overflow is what lies below its half step. -/
theorem lt_iff (h : Scaled x e m) : (m * 2 ^ e : ℚ) < 2 ^ 1024 ↔ x < overflow := by
  have hunit := two_zpow_pos 971
  have hfull : (2 : ℚ) ^ 53 * 2 ^ (971 : ℤ) = 2 ^ 1024 := pow_mul_zpow (by norm_num)
  rw [overflow_eq, ← hfull]
  clear hfull
  rcases lt_trichotomy e 971 with he | rfl | he
  · -- Below the last exponent both hold.
    refine iff_of_true ?_ (overflow_eq ▸ lt_overflow he h.high)
    have hpow : (2 : ℚ) ^ e < 2 ^ (971 : ℤ) := zpow_lt_zpow_right₀ one_lt_two he
    have hm : (m : ℚ) ≤ 2 ^ 53 := by exact_mod_cast h.le
    calc (m * 2 ^ e : ℚ) ≤ 2 ^ 53 * 2 ^ e := by gcongr
      _ < 2 ^ 53 * 2 ^ (971 : ℤ) := by gcongr
  · -- At the last exponent a tie goes up, because the mantissa below it is odd.
    rw [mul_lt_mul_iff_left₀ hunit, ← div_lt_iff₀ hunit]
    constructor
    · intro hm
      have hmint : m < 2 ^ 53 := by exact_mod_cast hm
      have hlast : (m : ℚ) ≤ 2 ^ 53 - 1 := by exact_mod_cast (by omega : m ≤ 2 ^ 53 - 1)
      have hlow := h.bounds.1
      refine lt_of_le_of_ne (by linarith) fun heq => ?_
      have hodd : (m : ℚ) = 2 ^ 53 - 1 := by linarith
      have heven := h.rounds.even (by rw [heq, hodd]; norm_num)
      have hoddint : m = 2 ^ 53 - 1 := by exact_mod_cast hodd
      omega
    · intro ht
      have hhigh := h.bounds.2
      linarith
  · -- Above it neither does.
    have hbits := h.bits.resolve_left (by omega)
    have hpow : (2 : ℚ) ^ (971 + 1 : ℤ) ≤ 2 ^ e := zpow_le_zpow_right₀ one_le_two (by omega)
    rw [zpow_add_one₀ two_ne_zero] at hpow
    have hm : (2 ^ 52 : ℚ) ≤ m := by exact_mod_cast h.ge hbits
    have hvalue : (2 ^ 52 * (2 ^ (971 : ℤ) * 2) : ℚ) ≤ m * 2 ^ e := by gcongr
    have hx : (2 ^ 52 * (2 ^ (971 : ℤ) * 2) : ℚ) ≤ x := le_trans (by gcongr) hbits
    generalize (2 : ℚ) ^ (971 : ℤ) = unit at *
    constructor <;> intro <;> linarith

theorem isRounded (h : Scaled x e m) (hx : x < overflow) : Rounds x (m * 2 ^ e) :=
  rounds_of_even h.rounds h.bits (h.isValue (h.lt_iff.mpr hx))

end Scaled

end Values

section Signs

variable {x v : ℚ}

theorem IsValue.neg (h : IsValue v) : IsValue (-v) := by
  obtain ⟨m, e, hm, hlow, hhigh, rfl⟩ := h
  refine ⟨-m, e, by rwa [abs_neg], hlow, hhigh, ?_⟩
  push_cast
  ring

theorem Rounds.neg (h : Rounds x v) : Rounds (-x) (-v) := by
  have hdist (y z : ℚ) : |-y - z| = |y - -z| := by rw [← abs_neg]; congr 1; ring
  refine ⟨h.isValue.neg, fun y hy => ?_, fun y hy hne heq => ?_⟩
  · rw [hdist, hdist, neg_neg]
    exact h.nearest (-y) hy.neg
  · rw [hdist, hdist, neg_neg] at heq
    obtain ⟨k, hk⟩ := h.even (-y) hy.neg (fun h => hne (by rw [← h, neg_neg])) heq
    refine ⟨-k, ?_⟩
    rw [hdist] at hk
    rw [Int.cast_neg, neg_mul, ← hk]

/-- The sign of a rational is the sign of the number. -/
theorem isNearest_finite {numerator : ℤ} {scale : ℕ} (negative : Bool) (hx : |x| < overflow)
    (hv : Rounds x (fraction numerator scale)) (hl : scale = 0 ∨ numerator % 2 = 1) :
    IsNearest (signed negative x) (.finite (if negative then -numerator else numerator) scale) := by
  cases negative with
  | false => exact .finite hx hv hl
  | true =>
    have hfraction : fraction (-numerator) scale = -fraction numerator scale := by
      rw [fraction, fraction, Int.cast_neg, neg_div]
    refine .finite ?_ ?_ ?_
    · rwa [signed, if_pos rfl, abs_neg]
    · rw [signed, if_pos rfl, if_pos rfl, hfraction]
      exact hv.neg
    · rw [if_pos rfl]
      omega

theorem isNearest_infinite (negative : Bool) (hpos : 0 < x) (hx : overflow ≤ x) :
    IsNearest (signed negative x) (.infinite negative) := by
  cases negative with
  | false => exact .infinite (by rwa [signed, if_neg (by simp), abs_of_pos hpos]) (by simp [signed, hpos.le])
  | true => exact .infinite (by rwa [signed, if_pos rfl, abs_neg, abs_of_pos hpos]) (by simp [signed, hpos])

end Signs

section Round

theorem reduce_fraction (m k : ℕ) : fraction (reduce m k).1 (reduce m k).2 = m / 2 ^ k := by
  induction k generalizing m with
  | zero => simp [reduce, fraction]
  | succ k ih =>
    rw [reduce]
    split
    · next heven =>
      obtain ⟨j, rfl⟩ : ∃ j, m = j * 2 := ⟨m / 2, by omega⟩
      rw [ih, Nat.mul_div_cancel j two_pos, pow_succ, Nat.cast_mul, Nat.cast_ofNat,
        mul_div_mul_right _ _ two_ne_zero]
    · rfl

theorem reduce_lowest (m k : ℕ) : (reduce m k).2 = 0 ∨ ((reduce m k).1 : ℤ) % 2 = 1 := by
  induction k generalizing m with
  | zero => exact .inl rfl
  | succ k ih =>
    rw [reduce]
    split
    · exact ih _
    · next hodd => exact .inr (by dsimp only; omega)

theorem round_of_nonneg (negative : Bool) {a b n : ℕ} (h : unitExponent a b = n) :
    round negative a b =
      if divEven a (b * twoTo n) * twoTo n < twoTo 1024 then
        .finite (if negative then -(divEven a (b * twoTo n) * twoTo n : ℕ)
          else (divEven a (b * twoTo n) * twoTo n : ℕ)) 0
      else .infinite negative := by
  rw [round, h, if_pos (Int.natCast_nonneg n), Int.toNat_natCast]

theorem round_of_neg (negative : Bool) {a b k : ℕ} (h : unitExponent a b = -(k : ℤ)) (hk : 0 < k) :
    round negative a b =
      .finite (if negative then -((reduce (divEven (a * twoTo k) b) k).1 : ℤ)
        else (reduce (divEven (a * twoTo k) b) k).1) (reduce (divEven (a * twoTo k) b) k).2 := by
  rw [round, h, if_neg (by omega), neg_neg, Int.toNat_natCast]

/-- A positive quotient is rounded to the nearest number. -/
theorem round_isNearest (negative : Bool) {a b : ℕ} (ha : 0 < a) (hb : 0 < b) :
    IsNearest (signed negative (a / b)) (round negative a b) := by
  have hpos : (0 : ℚ) < a / b := by positivity
  obtain ⟨hlow, hhigh, hbits⟩ := unitExponent_bounds ha hb
  by_cases he : 0 ≤ unitExponent a b
  · obtain ⟨n, hn⟩ := Int.eq_ofNat_of_zero_le he
    rw [hn] at hlow hhigh hbits
    rw [round_of_nonneg negative hn]
    have hscaled : Scaled (a / b) n (divEven a (b * twoTo n)) := by
      refine ⟨hlow, hhigh, hbits, hpos, ?_⟩
      have hrounds := divEven_roundsEven a (Nat.mul_pos hb (twoTo_pos n))
      rwa [Nat.cast_mul, cast_twoTo, ← div_div, ← zpow_natCast] at hrounds
    have hvalue : ((divEven a (b * twoTo n) * twoTo n : ℕ) : ℚ) =
        (divEven a (b * twoTo n) : ℤ) * 2 ^ (n : ℤ) := by
      rw [Nat.cast_mul, cast_twoTo, zpow_natCast, Int.cast_natCast]
    have hlt : divEven a (b * twoTo n) * twoTo n < twoTo 1024 ↔ (a / b : ℚ) < overflow := by
      rw [← hscaled.lt_iff, ← hvalue, ← cast_twoTo, Nat.cast_lt]
    by_cases hx : (a / b : ℚ) < overflow
    · rw [if_pos (hlt.mpr hx)]
      have hrounded := hscaled.isRounded hx
      refine isNearest_finite negative (by rwa [abs_of_pos hpos]) ?_ (.inl rfl)
      rwa [fraction, pow_zero, div_one, Int.cast_natCast, hvalue]
    · rw [if_neg fun h => hx (hlt.mp h)]
      exact isNearest_infinite negative hpos (not_lt.mp hx)
  · obtain ⟨k, hk⟩ : ∃ k : ℕ, unitExponent a b = -(k : ℤ) := ⟨(-unitExponent a b).toNat, by omega⟩
    rw [hk] at hlow hhigh hbits he
    rw [round_of_neg negative hk (by omega)]
    have hscaled : Scaled (a / b) (-k) (divEven (a * twoTo k) b) := by
      refine ⟨hlow, hhigh, hbits, hpos, ?_⟩
      have hrounds := divEven_roundsEven (a * twoTo k) hb
      rwa [Nat.cast_mul, cast_twoTo, mul_div_right_comm, ← zpow_natCast, ← div_inv_eq_mul,
        ← zpow_neg] at hrounds
    have hx : (a / b : ℚ) < overflow := lt_overflow (by omega) hhigh
    have hrounded := hscaled.isRounded hx
    refine isNearest_finite negative (by rwa [abs_of_pos hpos]) ?_ (reduce_lowest _ _)
    rw [reduce_fraction, div_eq_mul_inv _ ((2 : ℚ) ^ k), ← zpow_natCast, ← zpow_neg]
    exact hrounded

theorem fraction_zero : fraction 0 0 = 0 := by simp [fraction]

theorem isValue_zero : IsValue 0 := ⟨0, 0, by norm_num, by norm_num, by norm_num, by simp⟩

/-- What is a value already is not changed. -/
theorem rounds_self {x : ℚ} (h : IsValue x) : Rounds x x := by
  refine ⟨h, fun y _ => ?_, fun y _ hne heq => ?_⟩
  · rw [sub_self, abs_zero]
    exact abs_nonneg _
  · rw [sub_self, abs_zero, abs_eq_zero, sub_eq_zero] at heq
    exact absurd heq.symm hne

/-- What lies below half of the least positive value is rounded to zero. -/
theorem rounds_zero {x : ℚ} (hx : |x| < 2 ^ (-1075 : ℤ)) : Rounds x 0 := by
  have hfar {y : ℚ} (hy : IsValue y) (hne : y ≠ 0) : |x - 0| < |x - y| := by
    obtain ⟨m, e, _, he, _, rfl⟩ := hy
    have hm : (1 : ℚ) ≤ |(m : ℚ)| := by
      have hm0 : m ≠ 0 := by
        rintro rfl
        simp at hne
      exact_mod_cast Int.one_le_abs hm0
    have hpow : (2 : ℚ) ^ (-1075 + 1 : ℤ) ≤ 2 ^ e := zpow_le_zpow_right₀ one_le_two (by omega)
    rw [zpow_add_one₀ two_ne_zero] at hpow
    have hy : (2 : ℚ) ^ (-1075 : ℤ) * 2 ≤ |(m : ℚ) * 2 ^ e| := by
      rw [abs_mul, abs_of_pos (two_zpow_pos e)]
      calc (2 : ℚ) ^ (-1075 : ℤ) * 2 ≤ 1 * 2 ^ e := by rwa [one_mul]
        _ ≤ |(m : ℚ)| * 2 ^ e := by gcongr
    have htri := abs_sub_abs_le_abs_sub ((m : ℚ) * 2 ^ e) x
    rw [abs_sub_comm _ x] at htri
    rw [sub_zero]
    generalize (2 : ℚ) ^ (-1075 : ℤ) = least at *
    linarith
  refine ⟨isValue_zero, fun y hy => ?_, fun y hy hne heq => ?_⟩
  · by_cases hne : y = 0
    · rw [hne]
    · exact (hfar hy hne).le
  · exact absurd heq (hfar hy hne).ne'

theorem cast_tenTo (n : ℕ) : ((tenTo n : ℕ) : ℚ) = 10 ^ n := by
  change ((10 ^ n : ℕ) : ℚ) = _
  push_cast
  rfl

theorem tenTo_pos (n : ℕ) : 0 < tenTo n := Nat.pow_pos (by decide)

/-- A decimal with a large exponent is infinite. -/
theorem overflow_le {digits : ℕ} {exponent : ℤ} (hd : 0 < digits) (he : 400 < exponent) :
    overflow ≤ digits * 10 ^ exponent := by
  have hpow : (2 : ℚ) ^ 1024 ≤ 10 ^ exponent := by
    calc (2 : ℚ) ^ 1024 ≤ 2 ^ (3 * 400) := pow_le_pow_right₀ one_le_two (by norm_num)
      _ = 8 ^ 400 := by rw [pow_mul]; norm_num
      _ ≤ 10 ^ 400 := pow_le_pow_left₀ (by norm_num) (by norm_num) 400
      _ = 10 ^ (400 : ℤ) := (zpow_natCast 10 400).symm
      _ ≤ 10 ^ exponent := zpow_le_zpow_right₀ (by norm_num) he.le
  have hover : overflow ≤ 2 ^ 1024 := sub_le_self _ (by positivity)
  have hone : (1 : ℚ) ≤ digits := by exact_mod_cast hd
  have hten : (0 : ℚ) ≤ 10 ^ exponent := zpow_nonneg (by norm_num) _
  exact le_trans (hover.trans hpow) (le_mul_of_one_le_left hten hone)

/-- A decimal with a small exponent is less than half of the least value. -/
theorem lt_least {digits : ℕ} {exponent : ℤ} (hd : 0 < digits)
    (he : 3 * exponent + digits.log2 + 1 < -1100) :
    (digits * 10 ^ exponent : ℚ) < 2 ^ (-1075 : ℤ) := by
  obtain ⟨k, rfl⟩ : ∃ k : ℕ, exponent = -(k : ℤ) := ⟨(-exponent).toNat, by omega⟩
  have hten : (10 : ℚ) ^ (-(k : ℤ)) ≤ 2 ^ (3 * -(k : ℤ)) := by
    rw [zpow_mul, zpow_neg, zpow_neg, zpow_natCast, zpow_natCast]
    gcongr
    norm_num
  have hlt := (log2_bounds hd).2
  calc (digits * 10 ^ (-(k : ℤ)) : ℚ)
      ≤ digits * 2 ^ (3 * -(k : ℤ)) := by gcongr
    _ < 2 ^ (digits.log2 + 1 : ℤ) * 2 ^ (3 * -(k : ℤ)) := by gcongr
    _ = 2 ^ (digits.log2 + 1 + 3 * -(k : ℤ)) := (zpow_add₀ two_ne_zero _ _).symm
    _ ≤ 2 ^ (-1075 : ℤ) := zpow_le_zpow_right₀ one_le_two (by omega)

/-- A decimal is read as the number nearest to it. -/
theorem ofDecimal_isNearest (negative : Bool) (digits : ℕ) (exponent : ℤ) :
    IsNearest (signed negative (digits * 10 ^ exponent)) (ofDecimal negative digits exponent) := by
  have hzero {x : ℚ} (hx : |x| < 2 ^ (-1075 : ℤ)) : IsNearest (signed negative x) (.finite 0 0) := by
    have hover : |x| < overflow := by
      refine lt_overflow (show (-1075 : ℤ) < 971 by norm_num) (lt_of_lt_of_le hx ?_)
      exact le_mul_of_one_le_left (two_zpow_pos _).le (by norm_num)
    have hrounds := rounds_zero hx
    rw [← fraction_zero] at hrounds
    simpa using isNearest_finite negative hover hrounds (.inl rfl)
  rw [ofDecimal]
  split
  · next hd =>
    refine hzero ?_
    rw [hd, Nat.cast_zero, zero_mul, abs_zero]
    exact two_zpow_pos _
  · next hd =>
    have hdigits : 0 < digits := Nat.pos_of_ne_zero hd
    have hpos : (0 : ℚ) < digits * 10 ^ exponent :=
      mul_pos (by exact_mod_cast hdigits) (zpow_pos (by norm_num) _)
    split
    · next he => exact isNearest_infinite negative hpos (overflow_le hdigits he)
    · split
      · next he =>
        refine hzero ?_
        rw [abs_of_pos hpos]
        exact lt_least hdigits he
      · split
        · next he =>
          obtain ⟨n, rfl⟩ := Int.eq_ofNat_of_zero_le he
          have hround := round_isNearest negative (Nat.mul_pos hdigits (tenTo_pos n)) one_pos
          rwa [Nat.cast_mul, cast_tenTo, Nat.cast_one, div_one, ← zpow_natCast] at hround
        · next he =>
          obtain ⟨k, rfl⟩ : ∃ k : ℕ, exponent = -(k : ℤ) := ⟨(-exponent).toNat, by omega⟩
          have hround := round_isNearest negative hdigits (tenTo_pos k)
          rw [cast_tenTo, div_eq_mul_inv, ← zpow_natCast, ← zpow_neg] at hround
          rwa [neg_neg]

theorem ofDecimal_eq_iff {negative : Bool} {digits : ℕ} {exponent : ℤ} {n : Number} :
    ofDecimal negative digits exponent = n ↔
      IsNearest (signed negative (digits * 10 ^ exponent)) n := by
  constructor
  · rintro rfl
    exact ofDecimal_isNearest negative digits exponent
  · exact fun h => (ofDecimal_isNearest negative digits exponent).unique h

end Round

end TreeCheck.Number
