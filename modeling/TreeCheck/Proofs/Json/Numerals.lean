import TreeCheck.Proofs.Json.Grammar
import TreeCheck.Proofs.Number.Shortest

namespace TreeCheck.Json

section Digits

theorem toDigits_isDigits (k : Nat) : IsDigits (Nat.toDigits 10 k) :=
  ⟨Nat.toDigits_ne_nil, fun _ hc => Nat.isDigit_of_mem_toDigits (by decide) (by decide) hc⟩

/-- The digits of a positive number do not start with a zero. -/
theorem head_toDigits_ne_zero {k : Nat} (hk : 0 < k) : (Nat.toDigits 10 k).head? ≠ some '0' := by
  induction k using Nat.strongRecOn with
  | ind k ih =>
    rw [Nat.toDigits_eq_if (by decide)]
    split
    · next hlt =>
      have hsmall : ∀ d < 10, 0 < d → d.digitChar ≠ '0' := by decide
      simpa using hsmall k hlt hk
    · next hge =>
      have hrest := ih (k / 10) (by omega) (by omega)
      rwa [List.head?_append_of_ne_nil _ Nat.toDigits_ne_nil]

theorem exists_toDigits_cons {k : Nat} (hk : 0 < k) :
    ∃ c rest, Nat.toDigits 10 k = c :: rest ∧ c ≠ '0' := by
  have hhead := head_toDigits_ne_zero hk
  cases hdigits : Nat.toDigits 10 k with
  | nil => exact absurd hdigits Nat.toDigits_ne_nil
  | cons c rest =>
    rw [hdigits] at hhead
    exact ⟨c, rest, rfl, by simpa using hhead⟩

theorem isDigits_zeros_append (count : Nat) {digits : List Char} (h : IsDigits digits) :
    IsDigits (List.replicate count '0' ++ digits) := by
  refine ⟨List.append_ne_nil_of_right_ne_nil _ h.1, fun c hc => ?_⟩
  cases List.mem_append.mp hc with
  | inl hc => rw [List.eq_of_mem_replicate hc]; rfl
  | inr hc => exact h.2 c hc

/-- The leading digits of a positive number, followed by zeros or not. -/
theorem isWhole_take {k : Nat} (hk : 0 < k) {count : Nat} (hc : 0 < count) (zeros : Nat) :
    IsWhole ((Nat.toDigits 10 k).take count ++ List.replicate zeros '0') := by
  obtain ⟨c, rest, hdigits, hne⟩ := exists_toDigits_cons hk
  obtain ⟨count, rfl⟩ : ∃ n, count = n + 1 := ⟨count - 1, by omega⟩
  have hall := (toDigits_isDigits k).2
  rw [hdigits] at hall ⊢
  rw [List.take_succ_cons, List.cons_append]
  refine .digits hne ⟨List.cons_ne_nil _ _, fun d hd => ?_⟩
  rw [← List.cons_append, ← List.take_succ_cons] at hd
  cases List.mem_append.mp hd with
  | inl hd => exact hall d (List.mem_of_mem_take hd)
  | inr hd => rw [List.eq_of_mem_replicate hd]; rfl

theorem decimal_toDigits (k : Nat) : decimal (Nat.toDigits 10 k) = k :=
  Nat.ofDigitChars_ten_toDigits

theorem decimal_zeros_append (count : Nat) (digits : List Char) :
    decimal (List.replicate count '0' ++ digits) = decimal digits := by
  rw [decimal, Nat.ofDigitChars_append, Nat.ofDigitChars_replicate_zero, Nat.mul_zero, decimal]

theorem decimal_append_zeros (count : Nat) (digits : List Char) :
    decimal (digits ++ List.replicate count '0') = 10 ^ count * decimal digits := by
  rw [decimal, Nat.ofDigitChars_append, Nat.ofDigitChars_replicate_zero, decimal]

end Digits

section Layouts

variable {d : Decimal} {n : Number}

theorem isNumber_of_parts (negative : Bool) {whole places digits exponent : List Char} {power : Int}
    (hw : IsWhole whole) (hp : IsPlaces places digits) (he : IsExponent exponent power)
    (hvalue : decimal (whole ++ digits) * 10 ^ (power - digits.length) = d.value)
    (hn : Number.IsNearest (Number.signed negative d.value) n) :
    IsNumber (signText negative ++ (whole ++ places ++ exponent)) n := by
  rw [← hvalue] at hn
  simpa using IsNumber.mk negative hw hp he hn

theorem isExponent_text (power : Int) :
    IsExponent ('e' :: (if power < 0 then '-' else '+') :: Decimal.ofNat power.natAbs) power := by
  have hdigits := toDigits_isDigits power.natAbs
  split
  · next hneg =>
    have hpower := IsExponent.some (.inl rfl) .minus hdigits
    rwa [decimal_toDigits, if_pos rfl, show -(power.natAbs : Int) = power by omega] at hpower
  · next hpos =>
    have hpower := IsExponent.some (.inl rfl) .plus hdigits
    rwa [decimal_toDigits, if_neg Bool.false_ne_true, show (power.natAbs : Int) = power by omega]
      at hpower

/-- An integer, with zeros up to the point. -/
theorem isNumber_integer (negative : Bool) (hd : 0 < d.digits)
    (hn : Number.IsNearest (Number.signed negative d.value) n) (he : 0 ≤ d.exponent) :
    IsNumber (signText negative ++
      (Decimal.ofNat d.digits ++ List.replicate d.exponent.toNat '0')) n := by
  have hwhole := isWhole_take hd (List.length_pos_iff.mpr (toDigits_isDigits d.digits).1)
    d.exponent.toNat
  rw [List.take_length] at hwhole
  obtain ⟨k, hk⟩ := Int.eq_ofNat_of_zero_le he
  rw [hk, Int.toNat_natCast] at hwhole ⊢
  have hvalue : decimal (Nat.toDigits 10 d.digits ++ List.replicate k '0' ++ []) *
      10 ^ ((0 : Int) - ([] : List Char).length) = d.value := by
    rw [List.append_nil, decimal_append_zeros, decimal_toDigits, Decimal.value, hk, zpow_natCast,
      List.length_nil, Nat.cast_zero, sub_zero, zpow_zero]
    push_cast
    ring
  simpa [Decimal.ofNat] using isNumber_of_parts negative hwhole .none .none hvalue hn

theorem isPlaces_drop {k count : Nat} (hc : count < (Decimal.ofNat k).length) :
    IsPlaces ('.' :: (Decimal.ofNat k).drop count) ((Decimal.ofNat k).drop count) := by
  refine .some ⟨?_, fun c hc => (toDigits_isDigits k).2 c (List.mem_of_mem_drop hc)⟩
  rw [Ne, List.drop_eq_nil_iff]
  exact not_le.mpr hc

/-- Some of the digits before the point and the others behind it. -/
theorem isNumber_pointed (negative : Bool) (hd : 0 < d.digits)
    (hn : Number.IsNearest (Number.signed negative d.value) n) {count : Nat} (hc : 0 < count)
    {places exponent : List Char} {power : Int}
    (hp : IsPlaces places ((Decimal.ofNat d.digits).drop count)) (he : IsExponent exponent power)
    (hpower : power - ((Decimal.ofNat d.digits).length - count : Nat) = d.exponent) :
    IsNumber (signText negative ++
      ((Decimal.ofNat d.digits).take count ++ places ++ exponent)) n := by
  have hwhole := isWhole_take hd hc 0
  rw [List.replicate_zero, List.append_nil] at hwhole
  refine isNumber_of_parts negative hwhole hp he ?_ hn
  rw [Decimal.ofNat, List.take_append_drop, decimal_toDigits, List.length_drop, ← Decimal.ofNat,
    hpower, Decimal.value]

/-- Nothing before the point. -/
theorem isNumber_small (negative : Bool)
    (hn : Number.IsNearest (Number.signed negative d.value) n) {zeros : Nat}
    (hz : -(zeros : Int) - (Decimal.ofNat d.digits).length = d.exponent) :
    IsNumber (signText negative ++
      ('0' :: '.' :: List.replicate zeros '0' ++ Decimal.ofNat d.digits)) n := by
  have hplaces := isDigits_zeros_append zeros (toDigits_isDigits d.digits)
  have hlead : decimal (['0'] ++ (List.replicate zeros '0' ++ Nat.toDigits 10 d.digits)) =
      d.digits := by
    rw [← List.append_assoc, List.singleton_append, ← List.replicate_succ, decimal_zeros_append,
      decimal_toDigits]
  have hpower : (0 : Int) - (List.replicate zeros '0' ++ Nat.toDigits 10 d.digits).length =
      d.exponent := by
    rw [← hz, List.length_append, List.length_replicate, Decimal.ofNat]
    omega
  have hnumber := isNumber_of_parts negative .zero (.some hplaces) .none
    (by rw [hlead, hpower, Decimal.value]) hn
  simpa [Decimal.ofNat] using hnumber

/-- A positive decimal is written as a number, whatever its exponent. -/
theorem decimal_isNumber (negative : Bool) (hd : 0 < d.digits)
    (hn : Number.IsNearest (Number.signed negative d.value) n) :
    IsNumber (signText negative ++ d.text) n := by
  have hlength : 0 < (Decimal.ofNat d.digits).length :=
    List.length_pos_iff.mpr (toDigits_isDigits d.digits).1
  rw [Decimal.text]
  dsimp only
  split
  · next h => exact isNumber_integer negative hd hn h.1
  split
  · next h =>
    have hcount : ((Decimal.ofNat d.digits).length + d.exponent).toNat <
        (Decimal.ofNat d.digits).length := by omega
    simpa using isNumber_pointed negative hd hn (by omega) (isPlaces_drop hcount) .none (by omega)
  split
  · next h => exact isNumber_small negative hn (by omega)
  · have hplaces : IsPlaces (if ((Decimal.ofNat d.digits).length : Int) = 1 then []
        else '.' :: (Decimal.ofNat d.digits).drop 1) ((Decimal.ofNat d.digits).drop 1) := by
      split
      · next hone =>
        rw [List.drop_eq_nil_of_le (by omega)]
        exact .none
      · exact isPlaces_drop (by omega)
    exact isNumber_pointed negative hd hn Nat.one_pos hplaces (isExponent_text _) (by omega)

end Layouts

section Stored

open Number (Storable IsNearest IsValue Rounds fraction signed overflow)

variable {k : Int} {scale : Nat}

theorem toDigits_isWhole (k : Nat) : IsWhole (Nat.toDigits 10 k) := by
  cases Nat.eq_zero_or_pos k with
  | inl hk =>
    rw [hk]
    exact .zero
  | inr hk => simpa using isWhole_take hk (List.length_pos_iff.mpr (toDigits_isDigits k).1) 0

theorem signText_append (k : Int) (magnitude : List Char) :
    signText (decide (k < 0)) ++ magnitude = if k < 0 then '-' :: magnitude else magnitude := by
  by_cases hk : k < 0
  · rw [decide_eq_true hk, if_pos hk]
    rfl
  · rw [decide_eq_false hk, if_neg hk]
    rfl

/-- What the magnitude of a number is rounded from is rounded to the number, with its sign. -/
theorem isNearest_of_natAbs {x : ℚ} (hx : 0 ≤ x) (hover : x < overflow)
    (hrounds : Rounds x (k.natAbs / 2 ^ scale)) (hl : scale = 0 ∨ k % 2 = 1) :
    IsNearest (signed (decide (k < 0)) x) (.finite k scale) := by
  have hsign : (if decide (k < 0) = true then -(k.natAbs : Int) else k.natAbs) = k := by
    simp only [decide_eq_true_eq]
    split <;> omega
  have hfraction : fraction k.natAbs scale = k.natAbs / 2 ^ scale := by
    rw [fraction, Int.cast_natCast]
  have hnear := Number.isNearest_finite (decide (k < 0)) (by rwa [abs_of_nonneg hx])
    (hfraction ▸ hrounds) (by omega)
  rwa [hsign] at hnear

theorem intText_isNumber (hk : k.natAbs < 2 ^ 53) : IsNumber (Number.intText k) (.ofInt k) := by
  have hvalue : IsValue (k.natAbs : ℕ) :=
    ⟨k.natAbs, 0, by rw [Int.abs_eq_natAbs]; exact_mod_cast hk, by norm_num, by norm_num, by simp⟩
  have hover : ((k.natAbs : ℕ) : ℚ) < overflow := by
    refine Number.lt_overflow (show (0 : ℤ) < 971 by norm_num) ?_
    rw [zpow_zero, mul_one]
    exact_mod_cast hk
  have hrounds : Rounds (k.natAbs : ℕ) (k.natAbs / 2 ^ 0) := by
    simpa using Number.rounds_self hvalue
  have hnear := isNearest_of_natAbs (Nat.cast_nonneg _) hover hrounds (.inl rfl)
  have hnumber := isNumber_of_parts (d := ⟨k.natAbs, 0⟩) (decide (k < 0))
    (toDigits_isWhole k.natAbs) .none .none (by simp [decimal_toDigits, Decimal.value])
    (by simpa [Decimal.value] using hnear)
  rwa [List.append_nil, List.append_nil, signText_append] at hnumber

/-- A number that can be stored is read back from its text. -/
theorem text_isNumber {n : Number} (h : Storable n) : IsNumber n.text n := by
  cases h with
  | @mk k scale hv hl =>
    rw [Number.text]
    split
    · next hint =>
      obtain ⟨rfl, hk⟩ := hint
      exact intText_isNumber hk
    · next hnot =>
      have hk : 0 < k.natAbs := by
        by_contra hzero
        exact hnot ⟨by omega, by rw [show k.natAbs = 0 by omega]; exact Number.twoTo_pos 53⟩
      obtain ⟨hpos, hover, hrounds⟩ := Decimal.shortest_rounds hk hv.natAbs
      have hvalue : 0 ≤ (Decimal.shortest k.natAbs scale).value := by
        rw [Decimal.value]
        positivity
      have hnear := isNearest_of_natAbs hvalue hover hrounds hl
      rw [← signText_append]
      exact decimal_isNumber (decide (k < 0)) hpos hnear

end Stored

end TreeCheck.Json
