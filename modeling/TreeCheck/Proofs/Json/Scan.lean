import TreeCheck.Proofs.Json.Lexemes
import TreeCheck.Proofs.Json.Values

namespace TreeCheck.Json

open Text

theorem Lexed.append {text more : List UInt16} {tokens others : List Token} (h : Lexed text tokens)
    (hm : Lexed more others) : Lexed (text ++ more) (tokens ++ others) := by
  induction h with
  | nil => exact hm
  | blank hu _ ih => exact .blank hu ih
  | token ht _ ih =>
    rw [List.append_assoc]
    exact .token ht ih

theorem Lexed.concat {text more : List UInt16} {tokens : List Token} {token : Token}
    (h : Lexed text tokens.reverse) (ht : Lexeme more token) :
    Lexed (text ++ more) (token :: tokens).reverse := by
  have hlast : Lexed more [token] := by simpa using Lexed.token ht .nil
  simpa using h.append hlast

theorem Lexed.concat_blank {text : List UInt16} {tokens : List Token} {u : UInt16}
    (h : Lexed text tokens) (hu : IsBlank u) : Lexed (text ++ [u]) tokens := by
  simpa using h.append (.blank hu .nil)

section Sound

/-- The text that has been read in a state: whole lexemes, and the first part of one more. -/
inductive Scanned : List UInt16 → Scan → Prop where
  | ready {text : List UInt16} {tokens : List Token} : Lexed text tokens.reverse →
    Scanned text ⟨.ready, tokens⟩
  | word {text letters rest : List UInt16} {token : Token} {tokens : List Token} :
    Lexed text tokens.reverse → Lexeme (letters ++ rest) token →
    Scanned (text ++ letters) ⟨.word rest token, tokens⟩
  | text {text body read : List UInt16} {tokens : List Token} :
    Lexed text tokens.reverse → IsBody body read →
    Scanned (text ++ unit '"' :: body) ⟨.text read.reverse, tokens⟩
  | escape {text body read : List UInt16} {tokens : List Token} :
    Lexed text tokens.reverse → IsBody body read →
    Scanned (text ++ unit '"' :: body ++ [unit '\\']) ⟨.escape read.reverse, tokens⟩
  | unit {text body read : List UInt16} {digits : List Char} {tokens : List Token}
    {missing value : Nat} :
    Lexed text tokens.reverse → IsBody body read → IsHexes digits value →
    0 < missing → digits.length + missing = 4 →
    Scanned (text ++ unit '"' :: body ++ spelled ('\\' :: 'u' :: digits))
      ⟨.unit read.reverse missing value, tokens⟩
  | number {text : List UInt16} {more : List Char} {phase : Phase} {n : Numeral}
    {tokens : List Token} : Lexed text tokens.reverse → Begun phase more n →
    Scanned (text ++ spelled more) ⟨.number phase n, tokens⟩

variable {text : List UInt16} {tokens : List Token} {u : UInt16} {s s' : Scan}

/-- A unit is settled by its character where the null character, which stands in for a missing one,
is refused. -/
theorem spelled_letter {α : Type} {f : Char → Option α} {a : α} (hf : f '\x00' = none)
    (h : f (letter u) = some a) : spelled [letter u] = [u] := by
  have hu : letter u ≠ '\x00' := by
    intro hz
    rw [hz, hf] at h
    cases h
  rw [spelled_cons, unit_letter hu, spelled_nil]

theorem scanned_character {c : Char} (hl : Lexed text tokens.reverse)
    (h : Scan.start tokens c = some s) : Scanned (text ++ spelled [c]) s := by
  unfold Scan.start at h
  split at h
  · cases h
    exact .ready (hl.concat_blank (by simp [IsBlank]))
  · cases h
    exact .ready (hl.concat_blank (by simp [IsBlank]))
  · cases h
    exact .ready (hl.concat_blank (by simp [IsBlank]))
  · cases h
    exact .ready (hl.concat_blank (by simp [IsBlank]))
  · cases h
    exact .ready (hl.concat .openObject)
  · cases h
    exact .ready (hl.concat .closeObject)
  · cases h
    exact .ready (hl.concat .openArray)
  · cases h
    exact .ready (hl.concat .closeArray)
  · cases h
    exact .ready (hl.concat .comma)
  · cases h
    exact .ready (hl.concat .colon)
  · cases h
    exact .text hl .nil
  · cases h
    exact .word hl .null
  · cases h
    exact .word hl .isTrue
  · cases h
    exact .word hl .isFalse
  · cases h
    exact .number hl .minus
  · cases h
    exact .number hl (.zero false)
  · next hzero =>
    split at h
    · next hd =>
      cases h
      have hbegun := Begun.whole false hzero (isDigits_singleton hd)
      refine .number hl ?_
      simpa [signText, Numeral.pushWhole, decimal_singleton] using hbegun
    · cases h

theorem scanned_start (hl : Lexed text tokens.reverse)
    (h : Scan.start tokens (letter u) = some s) : Scanned (text ++ [u]) s := by
  have hscanned := scanned_character hl h
  rwa [spelled_letter (f := Scan.start tokens) rfl h] at hscanned

theorem scanned_step (hs : Scanned text s) (h : s.step u = some s') : Scanned (text ++ [u]) s' := by
  cases hs with
  | ready hl => exact scanned_start hl h
  | @word text letters rest token tokens hl hw =>
    rcases rest with _ | ⟨first, _ | ⟨next, rest⟩⟩
    · cases h
    · simp only [Scan.step] at h
      split at h
      · next hu =>
        cases h
        cases hu
        rw [List.append_assoc]
        exact .ready (hl.concat hw)
      · cases h
    · simp only [Scan.step] at h
      split at h
      · next hu =>
        cases h
        cases hu
        rw [List.append_assoc]
        exact .word hl (by simpa using hw)
      · cases h
  | @text text body read tokens hl hb =>
    simp only [Scan.step] at h
    split at h
    · next hu =>
      cases h
      rw [hu, List.reverse_reverse]
      have hlexed := hl.concat (.str hb)
      exact .ready (by simpa using hlexed)
    · next hquote =>
      split at h
      · next hu =>
        cases h
        exact hu ▸ .escape hl hb
      · next hslash =>
        split at h
        · cases h
        · next hcontrol =>
          cases h
          have hbody := hb.snoc (.plain hquote hslash (Nat.le_of_not_lt hcontrol))
          have hscanned := Scanned.text hl hbody
          simpa using hscanned
  | @escape text body read tokens hl hb =>
    simp only [Scan.step] at h
    split at h
    · next hu =>
      cases h
      have hscanned := Scanned.unit hl hb .nil (by decide : 0 < 4) rfl
      simpa [hu] using hscanned
    · obtain ⟨c, hc, rfl⟩ := Option.map_eq_some_iff.mp h
      have hbody := hb.snoc (.short (unescape?_eq_some.mp hc))
      have hscanned := Scanned.text hl hbody
      have hu := spelled_letter (f := Scan.unescape?) rfl hc
      simp only [spelled_cons, spelled_nil, List.cons.injEq, and_true] at hu
      simpa [hu] using hscanned
  | @unit text body read digits tokens missing value hl hb hd hpos hlen =>
    simp only [Scan.step] at h
    obtain ⟨digit, hdigit, rfl⟩ := Option.map_eq_some_iff.mp h
    have hdigits := hd.snoc (hexValue?_eq_some.mp hdigit)
    have hu := spelled_letter (f := Scan.hexValue?) rfl hdigit
    simp only [spelled_cons, spelled_nil, List.cons.injEq, and_true] at hu
    split
    · have hbody := hb.snoc (.unit hdigits (by simp; omega))
      have hscanned := Scanned.text hl hbody
      simpa [hu] using hscanned
    · have hscanned := Scanned.unit hl hb hdigits (by omega : 0 < missing - 1) (by simp; omega)
      simpa [hu] using hscanned
  | @number text more phase n tokens hl hn =>
    simp only [Scan.step] at h
    split at h
    · next phase' n' hnext =>
      cases h
      have hu := spelled_letter (f := phase.next? n) (by cases phase <;> rfl) hnext
      rw [List.append_assoc, ← hu, ← spelled_append]
      exact .number hl (hn.next hnext)
    · split at h
      · next hcomplete => exact scanned_start (hl.concat (.num (hn.isNumber hcomplete))) h
      · cases h

theorem scanned_run (hs : Scanned text s) {more : List UInt16} (h : s.run more = some s') :
    Scanned (text ++ more) s' := by
  induction more generalizing text s with
  | nil =>
    cases h
    simpa using hs
  | cons u rest ih =>
    rw [Scan.run, List.foldlM_cons] at h
    obtain ⟨s₁, hstep, hrest⟩ := Option.bind_eq_some_iff.mp h
    have hscanned := ih (scanned_step hs hstep) hrest
    simpa using hscanned

/-- The tokens of the scanner are those of lexemes that make up the text. -/
theorem scan_sound (h : Token.scan text = some tokens) : Lexed text tokens := by
  obtain ⟨s, hrun, hfinish⟩ := Option.bind_eq_some_iff.mp h
  have hscanned : Scanned ([] ++ text) s := scanned_run (.ready .nil) hrun
  rw [List.nil_append] at hscanned
  cases hscanned with
  | ready hl =>
    cases hfinish
    exact hl
  | number hl hn =>
    simp only [Scan.finish] at hfinish
    split at hfinish
    · next hcomplete =>
      cases hfinish
      exact hl.concat (.num (hn.isNumber hcomplete))
    · cases hfinish
  | word | text | escape | unit => cases hfinish

end Sound

section Complete

theorem run_append (s : Scan) (text more : List UInt16) :
    s.run (text ++ more) = (s.run text).bind (·.run more) := List.foldlM_append

variable (tokens : List Token)

theorem letter_digit {c : Char} (h : c.isDigit = true) : letter (unit c) = c := by
  have hbound := (isDigit_bounds h).2
  exact letter_unit (by omega)

/-- The digits of a phase are taken one after another. -/
theorem run_digits (phase : Phase) (push : Numeral → Char → Numeral)
    (hpush : ∀ n c, c.isDigit → phase.next? n c = some (phase, push n c))
    {digits : List Char} (hd : ∀ c ∈ digits, c.isDigit) (n : Numeral) :
    Scan.run ⟨.number phase n, tokens⟩ (spelled digits) =
      some ⟨.number phase (digits.foldl push n), tokens⟩ := by
  induction digits generalizing n with
  | nil => rfl
  | cons c rest ih =>
    have hc : c.isDigit = true := hd c List.mem_cons_self
    have hstep : Scan.step ⟨.number phase n, tokens⟩ (unit c) =
        some ⟨.number phase (push n c), tokens⟩ := by
      simp only [Scan.step, letter_digit hc]
      rw [hpush n c hc]
    have hrest := ih (fun d hr => hd d (List.mem_cons_of_mem c hr)) (push n c)
    rw [spelled_cons, Scan.run, List.foldlM_cons, hstep]
    exact hrest

theorem foldl_pushWhole (digits : List Char) (n : Numeral) :
    digits.foldl Numeral.pushWhole n = { n with digits := Nat.ofDigitChars 10 digits n.digits } := by
  induction digits generalizing n with
  | nil => rfl
  | cons c rest ih =>
    rw [List.foldl_cons, ih, Nat.ofDigitChars_cons, Nat.mul_comm]
    rfl

theorem foldl_pushPlace (digits : List Char) (n : Numeral) :
    digits.foldl Numeral.pushPlace n =
      { n with digits := Nat.ofDigitChars 10 digits n.digits, places := n.places + digits.length } := by
  induction digits generalizing n with
  | nil => rfl
  | cons c rest ih =>
    rw [List.foldl_cons, ih, Nat.ofDigitChars_cons, Nat.mul_comm, List.length_cons,
      Nat.add_comm rest.length, ← Nat.add_assoc]
    rfl

theorem foldl_pushPower (digits : List Char) (n : Numeral) :
    digits.foldl Numeral.pushPower n = { n with power := Nat.ofDigitChars 10 digits n.power } := by
  induction digits generalizing n with
  | nil => rfl
  | cons c rest ih =>
    rw [List.foldl_cons, ih, Nat.ofDigitChars_cons, Nat.mul_comm]
    rfl

theorem start_digit {c : Char} (hd : c.isDigit = true) (hc : c ≠ '0') :
    Scan.start tokens c = some ⟨.number .whole (Numeral.pushWhole {} c), tokens⟩ := by
  unfold Scan.start
  split
  case h_16 => exact absurd rfl hc
  case h_17 => rw [if_pos hd]
  all_goals exact absurd hd (by decide)

theorem run_whole (negative : Bool) {whole : List Char} (h : IsWhole whole) :
    ∃ phase, (phase = .zero ∨ phase = .whole) ∧
      Scan.run ⟨.ready, tokens⟩ (spelled (signText negative ++ whole)) =
        some ⟨.number phase { negative, digits := decimal whole }, tokens⟩ := by
  cases h with
  | zero =>
    refine ⟨.zero, .inl rfl, ?_⟩
    cases negative <;> rfl
  | @digits c rest hc hd =>
    have hfirst : c.isDigit = true := hd.2 c List.mem_cons_self
    have hrun : Scan.run ⟨.ready, tokens⟩ (spelled (signText negative ++ c :: rest)) =
        Scan.run ⟨.number .whole (Numeral.pushWhole { negative } c), tokens⟩ (spelled rest) := by
      cases negative with
      | false =>
        change (Scan.start tokens (letter (unit c))).bind (·.run (spelled rest)) = _
        rw [letter_digit hfirst, start_digit tokens hfirst hc]
        rfl
      | true =>
        change (Scan.step ⟨.number .minus _, tokens⟩ (unit c)).bind (·.run (spelled rest)) = _
        simp only [Scan.step, Phase.next?, letter_digit hfirst]
        rw [if_neg hc, if_pos hfirst]
        rfl
    refine ⟨.whole, .inr rfl, ?_⟩
    rw [hrun, run_digits tokens .whole Numeral.pushWhole (fun n d h => if_pos h)
      (fun d hr => hd.2 d (List.mem_cons_of_mem c hr)), foldl_pushWhole]
    simp [decimal, Nat.ofDigitChars_cons, Numeral.pushWhole, Numeral.digitValue]

/-- The phases after which a point or an exponent may come. -/
theorem run_places {phase : Phase} (hp : phase = .zero ∨ phase = .whole) {places digits : List Char}
    (h : IsPlaces places digits) (n : Numeral) :
    ∃ phase', (phase' = .zero ∨ phase' = .whole ∨ phase' = .places) ∧
      Scan.run ⟨.number phase n, tokens⟩ (spelled places) = some ⟨.number phase'
        { n with digits := Nat.ofDigitChars 10 digits n.digits, places := n.places + digits.length },
        tokens⟩ := by
  cases h with
  | none => exact ⟨phase, by grind, rfl⟩
  | some hd =>
    cases digits with
    | nil => exact absurd rfl hd.1
    | cons c rest =>
      have hfirst : c.isDigit = true := hd.2 c List.mem_cons_self
      have hpoint : Scan.run ⟨.number phase n, tokens⟩ (spelled ('.' :: c :: rest)) =
          Scan.run ⟨.number .point n, tokens⟩ (spelled (c :: rest)) := by
        rcases hp with rfl | rfl <;> rfl
      have hrun : Scan.run ⟨.number .point n, tokens⟩ (spelled (c :: rest)) =
          Scan.run ⟨.number .places (n.pushPlace c), tokens⟩ (spelled rest) := by
        change (Scan.step ⟨.number .point n, tokens⟩ (unit c)).bind (·.run (spelled rest)) = _
        simp only [Scan.step, Phase.next?, letter_digit hfirst]
        rw [if_pos hfirst]
        rfl
      refine ⟨.places, .inr (.inr rfl), ?_⟩
      rw [hpoint, hrun, run_digits tokens .places Numeral.pushPlace (fun n d h => if_pos h)
        (fun d hr => hd.2 d (List.mem_cons_of_mem c hr)), ← List.foldl_cons, foldl_pushPlace]

/-- The sign of an exponent and the first digit after it. -/
theorem run_sign {sign : List Char} {negative : Bool} (h : IsSign sign negative) {n : Numeral}
    (hn : n.smaller = false) {c : Char} (hd : c.isDigit = true) (rest : List Char) :
    Scan.run ⟨.number .mark n, tokens⟩ (spelled (sign ++ c :: rest)) =
      Scan.run ⟨.number .power (Numeral.pushPower { n with smaller := negative } c), tokens⟩
        (spelled rest) := by
  have hdigit (m : Numeral) : Scan.run ⟨.number .sign m, tokens⟩ (spelled (c :: rest)) =
      Scan.run ⟨.number .power (m.pushPower c), tokens⟩ (spelled rest) := by
    change (Scan.step ⟨.number .sign m, tokens⟩ (unit c)).bind (·.run (spelled rest)) = _
    simp only [Scan.step, Phase.next?, letter_digit hd]
    rw [if_pos hd]
    rfl
  cases h with
  | none =>
    have hplus : c ≠ '+' := fun hc => absurd hd (by rw [hc]; decide)
    have hminus : c ≠ '-' := fun hc => absurd hd (by rw [hc]; decide)
    change (Scan.step ⟨.number .mark n, tokens⟩ (unit c)).bind (·.run (spelled rest)) = _
    simp only [Scan.step, Phase.next?, letter_digit hd]
    rw [if_neg hplus, if_neg hminus, if_pos hd, ← hn]
    rfl
  | plus =>
    rw [← hn]
    exact hdigit n
  | minus => exact hdigit { n with smaller := true }

theorem run_exponent {phase : Phase} (hp : phase = .zero ∨ phase = .whole ∨ phase = .places)
    {exponent : List Char} {power : Int} (h : IsExponent exponent power) {n : Numeral}
    (hn : n.smaller = false ∧ n.power = 0) :
    ∃ phase' n', phase'.isComplete = true ∧
      n'.value = .ofDecimal n.negative n.digits (power - n.places) ∧
      Scan.run ⟨.number phase n, tokens⟩ (spelled exponent) = some ⟨.number phase' n', tokens⟩ := by
  cases h with
  | none =>
    refine ⟨phase, n, ?_, ?_, rfl⟩
    · rcases hp with rfl | rfl | rfl <;> rfl
    · simp [Numeral.value, hn]
  | @some mark sign digits negative hm hs hd =>
    cases digits with
    | nil => exact absurd rfl hd.1
    | cons c rest =>
      have hfirst : c.isDigit = true := hd.2 c List.mem_cons_self
      have hmark : Scan.run ⟨.number phase n, tokens⟩ (spelled (mark :: sign ++ c :: rest)) =
          Scan.run ⟨.number .mark n, tokens⟩ (spelled (sign ++ c :: rest)) := by
        rcases hp with rfl | rfl | rfl <;> rcases hm with rfl | rfl <;> rfl
      have hsign := run_sign tokens hs hn.1 hfirst rest
      refine ⟨.power, { n with smaller := negative, power := decimal (c :: rest) }, rfl, rfl, ?_⟩
      rw [hmark, hsign, run_digits tokens .power Numeral.pushPower (fun n d h => if_pos h)
        (fun d hr => hd.2 d (List.mem_cons_of_mem c hr)), ← List.foldl_cons, foldl_pushPower, hn.2]
      rfl

/-- A number is read up to its end, where it may stop. -/
theorem run_number {text : List Char} {n : Number} (h : IsNumber text n) :
    ∃ phase numeral, phase.isComplete = true ∧ numeral.value = n ∧
      Scan.run ⟨.ready, tokens⟩ (spelled text) = some ⟨.number phase numeral, tokens⟩ := by
  cases h with
  | @mk negative whole places digits exponent power n hw hp he hn =>
    obtain ⟨p₁, hp₁, hrun₁⟩ := run_whole tokens negative hw
    obtain ⟨p₂, hp₂, hrun₂⟩ := run_places tokens hp₁ hp { negative, digits := decimal whole }
    obtain ⟨p₃, n₃, hcomplete, hvalue, hrun₃⟩ := run_exponent tokens hp₂ he
      (n := { negative, digits := Nat.ofDigitChars 10 digits (decimal whole), places := 0 + digits.length })
      ⟨rfl, rfl⟩
    refine ⟨p₃, n₃, hcomplete, ?_, ?_⟩
    · rw [hvalue, ← decimal_append, Nat.zero_add]
      exact Number.ofDecimal_eq_iff.mpr hn
    · rw [spelled_append, run_append, spelled_append, run_append, hrun₁, Option.bind_some, hrun₂,
        Option.bind_some, hrun₃]

theorem letter_hex {c : Char} {digit : Nat} (h : IsHex c digit) : letter (unit c) = c := by
  have hsmall : ∀ d < 16, d.digitChar.toNat < 0x10000 ∧ d.digitChar.toUpper.toNat < 0x10000 := by
    decide
  obtain ⟨hd, hc | hc⟩ := h
  · exact hc ▸ letter_unit (hsmall digit hd).1
  · exact hc ▸ letter_unit (hsmall digit hd).2

/-- The units of a string that have been read are not looked at again. -/
theorem run_hexes (read : List UInt16) {digits : List Char} {value : Nat} (h : IsHexes digits value)
    (hlen : digits.length < 4) :
    Scan.run ⟨.unit read 4 0, tokens⟩ (spelled digits) =
      some ⟨.unit read (4 - digits.length) value, tokens⟩ := by
  induction h with
  | nil => rfl
  | @snoc digits value digit c hd hc ih =>
    rw [List.length_append, List.length_singleton] at hlen ⊢
    have hstep : Scan.step ⟨.unit read (4 - digits.length) value, tokens⟩ (unit c) =
        some ⟨.unit read (4 - digits.length - 1) (value * 16 + digit), tokens⟩ := by
      simp only [Scan.step, letter_hex hc, hexValue?_eq_some.mpr hc, Option.map_some]
      rw [if_neg (by omega)]
    rw [spelled_append, run_append, ih (by omega), Nat.sub_add_eq]
    exact congrArg (·.bind (·.run [])) hstep

theorem run_element (read : List UInt16) {element : List UInt16} {u : UInt16}
    (h : IsElement element u) :
    Scan.run ⟨.text read, tokens⟩ element = some ⟨.text (u :: read), tokens⟩ := by
  cases h with
  | plain hquote hslash hcontrol =>
    change (Scan.step ⟨.text read, tokens⟩ u).bind (·.run []) = _
    simp only [Scan.step]
    rw [if_neg hquote, if_neg hslash, if_neg (Nat.not_lt.mpr hcontrol)]
    rfl
  | @short letter c hc =>
    have hsmall : ∀ e ∈ shortEscapes, e.1.toNat < 0x10000 ∧ unit e.1 ≠ unit 'u' := by decide
    obtain ⟨hletter, hu⟩ := hsmall _ hc
    change (Scan.step ⟨.escape read, tokens⟩ (unit letter)).bind (·.run []) = _
    simp only [Scan.step]
    rw [if_neg hu, letter_unit hletter, unescape?_eq_some.mpr hc]
    rfl
  | unit hd hlen =>
    cases hd with
    | nil => cases hlen
    | @snoc digits value digit c hd hc =>
      rw [List.length_append, List.length_singleton] at hlen
      change Scan.run ⟨.unit read 4 0, tokens⟩ (spelled (digits ++ [c])) = _
      rw [spelled_append, run_append, run_hexes tokens read hd (by omega), Option.bind_some]
      change (Scan.step ⟨.unit read (4 - digits.length) value, tokens⟩ (unit c)).bind (·.run []) = _
      simp only [Scan.step, letter_hex hc, hexValue?_eq_some.mpr hc, Option.map_some]
      rw [if_pos (by omega)]
      rfl

theorem run_body {body read : List UInt16} (h : IsBody body read) :
    Scan.run ⟨.text [], tokens⟩ body = some ⟨.text read.reverse, tokens⟩ := by
  induction h with
  | nil => rfl
  | snoc hb he ih =>
    rw [run_append, ih, Option.bind_some, run_element tokens _ he, List.reverse_append]
    rfl

end Complete

def Token.isNum : Token → Bool
  | .num _ => true
  | _ => false

/-- A lexeme other than a number is read as soon as it ends. -/
theorem run_lexeme (tokens : List Token) {text : List UInt16} {token : Token}
    (h : Lexeme text token) (hn : token.isNum = false) :
    Scan.run ⟨.ready, tokens⟩ text = some ⟨.ready, token :: tokens⟩ := by
  cases h with
  | num => cases hn
  | @str body read hb =>
    change Scan.run ⟨.text [], tokens⟩ (body ++ [unit '"']) = _
    rw [run_append, run_body tokens hb, Option.bind_some]
    change some (Scan.mk .ready (.str ⟨read.reverse.reverse⟩ :: tokens)) = _
    rw [List.reverse_reverse]
  | _ => rfl

/-- No character of a number comes first. -/
def EndsNumber (text : List UInt16) : Prop :=
  ∀ u ∈ text.head?, (letter u).isDigit = false ∧ letter u ≠ '.' ∧ Phase.opensPower (letter u) = false

theorem IsBlank.endsNumber {u : UInt16} (h : IsBlank u) (rest : List UInt16) :
    EndsNumber (u :: rest) := by
  intro v hv
  cases hv
  rcases h with rfl | rfl | rfl | rfl <;> decide

theorem Lexeme.endsNumber {text : List UInt16} {token : Token} (h : Lexeme text token)
    (hn : token.isNum = false) (rest : List UInt16) : EndsNumber (text ++ rest) := by
  cases h with
  | num => cases hn
  | _ =>
    intro v hv
    cases hv
    decide

/-- Two numbers do not follow each other. -/
inductive Apart : List Token → Prop where
  | nil : Apart []
  | one (token : Token) : Apart [token]
  | more {token next : Token} {rest : List Token} : token.isNum = false ∨ next.isNum = false →
    Apart (next :: rest) → Apart (token :: next :: rest)

theorem Apart.tail {token : Token} {tokens : List Token} (h : Apart (token :: tokens)) :
    Apart tokens := by
  cases h with
  | one => exact .nil
  | more _ hr => exact hr

theorem Lexed.endsNumber {text : List UInt16} {token : Token} {tokens : List Token}
    (h : Lexed text tokens) (ha : Apart (token :: tokens)) (hn : token.isNum = true) :
    EndsNumber text := by
  cases h with
  | nil => simp [EndsNumber]
  | blank hc => exact hc.endsNumber _
  | token ht =>
    cases ha with
    | more hfirst _ =>
      rw [hn] at hfirst
      exact ht.endsNumber (by simpa using hfirst) _

/-- A number is finished by whatever cannot belong to it. -/
theorem finish_number {phase : Phase} (hp : phase.isComplete = true) (n : Numeral)
    {rest : List UInt16} (hr : EndsNumber rest) (tokens : List Token) :
    (Scan.run ⟨.number phase n, tokens⟩ rest).bind Scan.finish =
      (Scan.run ⟨.ready, .num n.value :: tokens⟩ rest).bind Scan.finish := by
  cases rest with
  | nil =>
    change (if phase.isComplete = true then some (Token.num n.value :: tokens).reverse else none) = _
    rw [if_pos hp]
    rfl
  | cons u rest =>
    obtain ⟨hd, hpoint, hopens⟩ := hr u rfl
    have hnone : phase.next? n (letter u) = none := by
      cases phase with
      | zero | whole | places | power => simp [Phase.next?, hd, hpoint, hopens]
      | minus | point | mark | sign => cases hp
    have hstep : Scan.step ⟨.number phase n, tokens⟩ u =
        Scan.step ⟨.ready, .num n.value :: tokens⟩ u := by
      simp only [Scan.step]
      rw [hnone]
      exact if_pos hp
    rw [Scan.run, Scan.run, List.foldlM_cons, List.foldlM_cons, hstep]

theorem finish_run {text : List UInt16} {tokens : List Token} (h : Lexed text tokens)
    (ha : Apart tokens) (before : List Token) :
    (Scan.run ⟨.ready, before⟩ text).bind Scan.finish = some (before.reverse ++ tokens) := by
  induction h generalizing before with
  | nil => simp [Scan.run, Scan.finish]
  | @blank u rest tokens hu _ ih =>
    have hstep : Scan.step ⟨.ready, before⟩ u = some ⟨.ready, before⟩ := by
      rcases hu with rfl | rfl | rfl | rfl <;> rfl
    rw [Scan.run, List.foldlM_cons, hstep]
    exact ih ha before
  | @token text rest token tokens ht hl ih =>
    have hrest := ih (ha.tail) (token :: before)
    rw [List.reverse_cons, List.append_assoc, List.singleton_append] at hrest
    rw [run_append, ← hrest]
    cases hn : token.isNum with
    | false => rw [run_lexeme before ht hn, Option.bind_some]
    | true =>
      cases ht with
      | num hnum =>
        obtain ⟨phase, n, hp, hvalue, hrun⟩ := run_number before hnum
        rw [hrun, Option.bind_some, finish_number hp n (hl.endsNumber ha hn), hvalue]
      | _ => cases hn

section Apart

variable {tokens more : List Token} {token : Token}

theorem Apart.cons (h : Apart tokens) (ht : token.isNum = false) : Apart (token :: tokens) := by
  cases tokens with
  | nil => exact .one token
  | cons next rest => exact .more (.inl ht) h

/-- Anything but a number keeps what stands around it apart. -/
theorem Apart.join (h : Apart tokens) (ht : token.isNum = false) (hm : Apart more) :
    Apart (tokens ++ token :: more) := by
  induction tokens with
  | nil => exact hm.cons ht
  | cons first rest ih =>
    cases rest with
    | nil => exact .more (.inr ht) (hm.cons ht)
    | cons second rest =>
      cases h with
      | more hpair hr => exact .more hpair (ih hr)

theorem apart_separated {parts : List (List Token)} (h : ∀ part ∈ parts, Apart part)
    (ht : token.isNum = false) : Apart (separated parts ++ [token]) := by
  cases parts with
  | nil => exact .one token
  | cons first rest =>
    rw [separated]
    induction rest generalizing first with
    | nil =>
      rw [List.flatMap_nil, List.append_nil]
      exact (h first List.mem_cons_self).join ht .nil
    | cons second rest ih =>
      have hrest := ih second fun part hp => h part (List.mem_cons_of_mem first hp)
      have hjoin := (h first List.mem_cons_self).join (show Token.comma.isNum = false from rfl) hrest
      simpa using hjoin

theorem Value.apart {value : Json} (h : Value tokens value) : Apart tokens := by
  induction h with
  | null | bool | num | str => exact .one _
  | arr items _ ih =>
    have hparts : ∀ part ∈ items.map Prod.fst, Apart part := by
      intro part hp
      obtain ⟨item, hi, rfl⟩ := List.mem_map.mp hp
      exact ih item hi
    exact (apart_separated hparts rfl).cons rfl
  | obj members _ ih =>
    have hparts : ∀ part ∈ members.map Member.text, Apart part := by
      intro part hp
      obtain ⟨m, hm, rfl⟩ := List.mem_map.mp hp
      exact ((ih m hm).cons rfl).cons rfl
    exact (apart_separated hparts rfl).cons rfl

end Apart

/-- The value of a text is what the grammar says, and a text without one is refused. -/
theorem parse?_eq_some {text : Text} {value : Json} :
    parse? text = some value ↔ Denotes text value := by
  constructor
  · intro h
    obtain ⟨tokens, hscan, hvalue⟩ := Option.bind_eq_some_iff.mp h
    exact ⟨tokens, scan_sound hscan, ofTokens?_eq_some.mp hvalue⟩
  · rintro ⟨tokens, hl, hv⟩
    have hscan : Token.scan text.units = some tokens := finish_run hl hv.apart []
    rw [parse?, hscan, Option.bind_some]
    exact ofTokens?_eq_some.mpr hv

end TreeCheck.Json
