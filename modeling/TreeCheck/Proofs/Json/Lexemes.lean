import TreeCheck.Proofs.Json.Grammar
import TreeCheck.Proofs.Number.Rounding

namespace TreeCheck.Json

section Strings

instance (c : Char) (digit : Nat) : Decidable (IsHex c digit) := inferInstanceAs (Decidable (_ ∧ _))

theorem unescape?_eq_some {letter c : Char} :
    Scan.unescape? letter = some c ↔ (letter, c) ∈ shortEscapes := by
  constructor
  · intro h
    unfold Scan.unescape? at h
    split at h
    all_goals cases h
    all_goals decide
  · intro h
    simp only [shortEscapes, List.mem_cons, Prod.mk.injEq, List.not_mem_nil, or_false] at h
    rcases h with ⟨rfl, rfl⟩ | ⟨rfl, rfl⟩ | ⟨rfl, rfl⟩ | ⟨rfl, rfl⟩ | ⟨rfl, rfl⟩ | ⟨rfl, rfl⟩ |
      ⟨rfl, rfl⟩ | ⟨rfl, rfl⟩ <;> rfl

theorem hexValue?_eq_some {c : Char} {digit : Nat} :
    Scan.hexValue? c = some digit ↔ IsHex c digit := by
  have htable : ∀ n < 128, ∀ d ∈ Scan.hexValue? (Char.ofNat n), IsHex (Char.ofNat n) d := by
    decide
  have hdigits : ∀ d < 16, Scan.hexValue? d.digitChar = some d ∧
      Scan.hexValue? d.digitChar.toUpper = some d := by
    decide
  constructor
  · intro h
    have hc : c.toNat < 128 := by
      simp only [Scan.hexValue?, Char.isDigit, Char.le_def, UInt32.le_iff_toNat_le, Char.toNat_val,
        Bool.and_eq_true, decide_eq_true_eq, ge_iff_le] at h
      have h9 : '9'.toNat = 57 := rfl
      have hf : 'f'.toNat = 102 := rfl
      have hF : 'F'.toNat = 70 := rfl
      grind
    have hhex := htable c.toNat hc
    rw [Char.ofNat_toNat] at hhex
    exact hhex digit h
  · rintro ⟨hd, rfl | rfl⟩
    · exact (hdigits digit hd).1
    · exact (hdigits digit hd).2

end Strings

section Numbers

theorem isDigit_bounds {c : Char} (h : c.isDigit = true) : 0x30 ≤ c.toNat ∧ c.toNat ≤ 0x39 := by
  simpa [Char.isDigit, UInt32.le_iff_toNat_le] using h

theorem decimal_append (digits more : List Char) :
    decimal (digits ++ more) = Nat.ofDigitChars 10 more (decimal digits) :=
  Nat.ofDigitChars_append 0

theorem decimal_concat (digits : List Char) (c : Char) :
    decimal (digits ++ [c]) = decimal digits * 10 + Numeral.digitValue c := by
  rw [decimal_append, Nat.ofDigitChars_cons, Nat.ofDigitChars_nil, Nat.mul_comm]
  rfl

theorem decimal_singleton (c : Char) : decimal [c] = Numeral.digitValue c := by
  rw [← List.nil_append [c], decimal_concat]
  simp [decimal]

theorem decimal_zero : decimal ['0'] = 0 := rfl

theorem IsDigits.concat {digits : List Char} {c : Char} (h : IsDigits digits) (hc : c.isDigit) :
    IsDigits (digits ++ [c]) := by
  refine ⟨by simp, fun d hd => ?_⟩
  cases List.mem_append.mp hd with
  | inl hd => exact h.2 d hd
  | inr hd => exact List.mem_singleton.mp hd ▸ hc

theorem isDigits_singleton {c : Char} (hc : c.isDigit) : IsDigits [c] :=
  ⟨by simp, fun _ hd => List.mem_singleton.mp hd ▸ hc⟩

theorem opensPower_iff {c : Char} : Phase.opensPower c = true ↔ IsMark c := by
  simp [Phase.opensPower, IsMark]

/-- The first part of a number that leads to a phase, and what is known of the number by then. -/
inductive Begun : Phase → List Char → Numeral → Prop where
  | minus : Begun .minus ['-'] { negative := true }
  | zero (negative : Bool) : Begun .zero (signText negative ++ ['0']) { negative }
  | whole (negative : Bool) {c : Char} {rest : List Char} : c ≠ '0' → IsDigits (c :: rest) →
    Begun .whole (signText negative ++ c :: rest) { negative, digits := decimal (c :: rest) }
  | point (negative : Bool) {whole : List Char} : IsWhole whole →
    Begun .point (signText negative ++ whole ++ ['.']) { negative, digits := decimal whole }
  | places (negative : Bool) {whole digits : List Char} : IsWhole whole → IsDigits digits →
    Begun .places (signText negative ++ whole ++ '.' :: digits)
      { negative, digits := decimal (whole ++ digits), places := digits.length }
  | mark (negative : Bool) {whole places digits : List Char} {c : Char} : IsWhole whole →
    IsPlaces places digits → IsMark c →
    Begun .mark (signText negative ++ whole ++ places ++ [c])
      { negative, digits := decimal (whole ++ digits), places := digits.length }
  | sign (negative smaller : Bool) {whole places digits sign : List Char} {c : Char} :
    IsWhole whole → IsPlaces places digits → IsMark c → IsSign sign smaller →
    Begun .sign (signText negative ++ whole ++ places ++ c :: sign)
      { negative, digits := decimal (whole ++ digits), places := digits.length, smaller }
  | power (negative smaller : Bool) {whole places digits sign powers : List Char} {c : Char} :
    IsWhole whole → IsPlaces places digits → IsMark c → IsSign sign smaller → IsDigits powers →
    Begun .power (signText negative ++ whole ++ places ++ c :: sign ++ powers)
      { negative, digits := decimal (whole ++ digits), places := digits.length, smaller
        power := decimal powers }

theorem isNumber_ofDecimal (negative : Bool) {whole places digits exponent : List Char} {power : Int}
    (hw : IsWhole whole) (hp : IsPlaces places digits) (he : IsExponent exponent power) :
    IsNumber (signText negative ++ whole ++ places ++ exponent)
      (.ofDecimal negative (decimal (whole ++ digits)) (power - digits.length)) :=
  .mk negative hw hp he (Number.ofDecimal_isNearest ..)

/-- A number that may end is one of the grammar. -/
theorem Begun.isNumber {phase : Phase} {text : List Char} {n : Numeral} (h : Begun phase text n)
    (hp : phase.isComplete = true) : IsNumber text n.value := by
  cases h with
  | zero negative =>
    have hn := isNumber_ofDecimal negative .zero .none .none
    simpa [Numeral.value, decimal_zero] using hn
  | whole negative hc hd =>
    have hn := isNumber_ofDecimal negative (.digits hc hd) .none .none
    simpa [Numeral.value] using hn
  | places negative hw hd =>
    have hn := isNumber_ofDecimal negative hw (.some hd) .none
    simpa [Numeral.value] using hn
  | power negative smaller hw hpl hm hs hd =>
    have hn := isNumber_ofDecimal negative hw hpl (.some hm hs hd)
    simpa [Numeral.value] using hn
  | minus | point | mark | sign => cases hp

/-- One more character of a number. -/
theorem Begun.next {phase phase' : Phase} {text : List Char} {n n' : Numeral} {c : Char}
    (h : Begun phase text n) (hn : phase.next? n c = some (phase', n')) :
    Begun phase' (text ++ [c]) n' := by
  cases h with
  | minus =>
    simp only [Phase.next?] at hn
    split at hn
    · next hc =>
      cases hn
      exact hc ▸ .zero true
    · next hc =>
      split at hn
      · next hd =>
        cases hn
        have hbegun := Begun.whole true hc (isDigits_singleton hd)
        simpa [signText, Numeral.pushWhole, decimal_singleton] using hbegun
      · cases hn
  | zero negative =>
    simp only [Phase.next?] at hn
    split at hn
    · next hc =>
      cases hn
      exact hc ▸ .point negative .zero
    · split at hn
      · next hm =>
        cases hn
        have hbegun := Begun.mark negative .zero .none (opensPower_iff.mp hm)
        simpa [decimal_zero] using hbegun
      · cases hn
  | @whole negative first rest hf hd =>
    simp only [Phase.next?] at hn
    split at hn
    · next hc =>
      cases hn
      have hdigits : IsDigits (first :: (rest ++ [c])) := hd.concat hc
      have hbegun := Begun.whole negative hf hdigits
      rw [← List.cons_append, decimal_concat] at hbegun
      simpa [Numeral.pushWhole] using hbegun
    · split at hn
      · next hc =>
        cases hn
        exact hc ▸ .point negative (.digits hf hd)
      · split at hn
        · next hm =>
          cases hn
          have hbegun := Begun.mark negative (.digits hf hd) .none (opensPower_iff.mp hm)
          simpa using hbegun
        · cases hn
  | @point negative whole hw =>
    simp only [Phase.next?] at hn
    split at hn
    · next hc =>
      cases hn
      have hbegun := Begun.places negative hw (isDigits_singleton hc)
      simpa [Numeral.pushPlace, decimal_concat] using hbegun
    · cases hn
  | @places negative whole digits hw hd =>
    simp only [Phase.next?] at hn
    split at hn
    · next hc =>
      cases hn
      have hbegun := Begun.places negative hw (hd.concat hc)
      rw [← List.append_assoc, decimal_concat] at hbegun
      simpa [Numeral.pushPlace] using hbegun
    · split at hn
      · next hm =>
        cases hn
        exact .mark negative hw (.some hd) (opensPower_iff.mp hm)
      · cases hn
  | mark negative hw hpl hm =>
    simp only [Phase.next?] at hn
    split at hn
    · next hc =>
      cases hn
      have hbegun := Begun.sign negative false hw hpl hm .plus
      simpa [hc] using hbegun
    · split at hn
      · next hc =>
        cases hn
        have hbegun := Begun.sign negative true hw hpl hm .minus
        simpa [hc] using hbegun
      · split at hn
        · next hc =>
          cases hn
          have hbegun := Begun.power negative false hw hpl hm .none (isDigits_singleton hc)
          simpa [Numeral.pushPower, decimal_singleton] using hbegun
        · cases hn
  | sign negative smaller hw hpl hm hs =>
    simp only [Phase.next?] at hn
    split at hn
    · next hc =>
      cases hn
      have hbegun := Begun.power negative smaller hw hpl hm hs (isDigits_singleton hc)
      simpa [Numeral.pushPower, decimal_singleton] using hbegun
    · cases hn
  | @power negative smaller whole places digits sign powers m hw hpl hm hs hd =>
    simp only [Phase.next?] at hn
    split at hn
    · next hc =>
      cases hn
      have hbegun := Begun.power negative smaller hw hpl hm hs (hd.concat hc)
      rw [decimal_concat] at hbegun
      simpa [Numeral.pushPower] using hbegun
    · cases hn

end Numbers

end TreeCheck.Json
