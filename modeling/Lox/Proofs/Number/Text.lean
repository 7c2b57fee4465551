import Mathlib.Data.List.TakeWhile
import Lox.Proofs.Number
import Lox.Tree.Render

/-!
# Number texts that read back

A text of digits with at most one point between them is read as a decimal, and what is written for a
decimal is read as a decimal of the same value. With the decimals of two numbers different,
their texts are different, so the text of a finite number in a tree determines it.
-/

namespace Lox

/-! ### Reading -/

/-- The decimal that digits with at most one point between them denote. -/
def readDecimal (text : List Char) : Decimal :=
  let fraction := (text.dropWhile (· != '.')).tail
  ⟨Nat.ofDigitChars 10 (text.takeWhile (· != '.') ++ fraction) 0, -fraction.length⟩

/-- Digits without a point are read as a whole number. -/
theorem readDecimal_whole {whole : List Char} (h : '.' ∉ whole) :
    readDecimal whole = ⟨Nat.ofDigitChars 10 whole 0, 0⟩ := by
  have hwhole : ∀ c ∈ whole, (c != '.') = true := fun c hc => by
    simpa using ne_of_mem_of_not_mem hc h
  simp [readDecimal, List.takeWhile_eq_self_iff.mpr hwhole, List.dropWhile_eq_nil_iff.mpr hwhole]

/-- Digits behind a point make the exponent smaller, one by one. -/
theorem readDecimal_point {whole : List Char} (h : '.' ∉ whole) (fraction : List Char) :
    readDecimal (whole ++ '.' :: fraction) =
      ⟨Nat.ofDigitChars 10 (whole ++ fraction) 0, -fraction.length⟩ := by
  have hwhole : ∀ c ∈ whole, (c != '.') = true := fun c hc => by
    simpa using ne_of_mem_of_not_mem hc h
  simp [readDecimal, List.takeWhile_append_of_pos hwhole, List.dropWhile_append_of_pos hwhole]

/-! ### Texts of decimals -/

/-- Texts of digits with at most one point between them, and their values. -/
inductive Denotes (q : ℚ) : List Char → Prop where
  /-- Digits and no point. -/
  | whole {digits : List Char} (hsome : digits ≠ []) (hdigits : ∀ c ∈ digits, c.isDigit = true)
      (hvalue : (Nat.ofDigitChars 10 digits 0 : ℚ) = q) : Denotes q digits
  /-- Digits with a point between them. -/
  | point {digits fraction : List Char} (hsome : digits ≠ []) (hfraction : fraction ≠ [])
      (hdigits : ∀ c ∈ digits ++ fraction, c.isDigit = true)
      (hvalue : Decimal.value ⟨Nat.ofDigitChars 10 (digits ++ fraction) 0, -fraction.length⟩ = q) :
      Denotes q (digits ++ '.' :: fraction)

namespace Denotes

variable {q : ℚ} {text : List Char}

/-- A text that denotes a value is read as that value. -/
theorem value_readDecimal (h : Denotes q text) : (readDecimal text).value = q := by
  cases h with
  | whole _ hdigits hvalue =>
    have hplain : '.' ∉ text := fun hmem => by simpa using hdigits _ hmem
    rw [readDecimal_whole hplain, ← hvalue]
    simp [Decimal.value]
  | @point digits fraction _ _ hdigits hvalue =>
    have hplain : '.' ∉ digits := fun hmem => by
      simpa using hdigits _ (List.mem_append_left _ hmem)
    rw [readDecimal_point hplain, hvalue]

/-- Such a text starts with a digit. -/
theorem exists_digit (h : Denotes q text) : ∃ c rest, text = c :: rest ∧ c.isDigit = true := by
  cases h with
  | whole hsome hdigits _ =>
    obtain ⟨c, rest, rfl⟩ := List.exists_cons_of_ne_nil hsome
    exact ⟨c, rest, rfl, hdigits c (by simp)⟩
  | @point digits fraction hsome _ hdigits _ =>
    obtain ⟨c, rest, rfl⟩ := List.exists_cons_of_ne_nil hsome
    exact ⟨c, rest ++ '.' :: fraction, rfl, hdigits c (by simp)⟩

/-- So it has no sign. -/
theorem head?_ne (h : Denotes q text) : text.head? ≠ some '-' := by
  obtain ⟨c, rest, rfl, hc⟩ := h.exists_digit
  rintro ⟨⟩
  cases hc

/-- Such a text has nothing but digits and the point in it. -/
theorem isDigit_or_point (h : Denotes q text) {c : Char} (hc : c ∈ text) :
    c.isDigit = true ∨ c = '.' := by
  cases h with
  | whole _ hdigits _ => exact .inl (hdigits c hc)
  | point _ _ hdigits _ => grind

end Denotes

namespace Decimal

/-- The digits of a decimal are digits. -/
theorem isDigit_of_mem_digits {d : Decimal} {c : Char} (h : c ∈ d.digits) : c.isDigit = true :=
  Nat.isDigit_of_mem_toDigits (by norm_num) le_rfl h

/-- There is at least one digit. -/
theorem digits_ne_nil (d : Decimal) : d.digits ≠ [] := Nat.toDigits_ne_nil

/-- Read as a whole number, the digits of a decimal are its coefficient. -/
theorem ofDigitChars_digits (d : Decimal) : Nat.ofDigitChars 10 d.digits 0 = d.coefficient :=
  Nat.ofDigitChars_ten_toDigits

/-- A run of zeros has nothing but digits in it. -/
theorem isDigit_of_mem_zeros {n : ℕ} {c : Char} (h : c ∈ zeros n) : c.isDigit = true := by
  rw [List.eq_of_mem_replicate h]
  rfl

/-- Zeros behind digits multiply by a power of ten. -/
theorem ofDigitChars_zeros (n init : ℕ) :
    Nat.ofDigitChars 10 (zeros n) init = 10 ^ n * init :=
  Nat.ofDigitChars_replicate_zero

/-- The digits of a decimal that is whole. -/
theorem whole_denotes {d : Decimal} (h : 0 ≤ d.exponent) (wholePoint : Bool) :
    Denotes d.value (d.positionalText wholePoint) := by
  have hsome : d.digits ++ zeros d.exponent.toNat ≠ [] := by simp [d.digits_ne_nil]
  have hdigits : ∀ c ∈ d.digits ++ zeros d.exponent.toNat, c.isDigit = true := fun c hc =>
    (List.mem_append.mp hc).elim isDigit_of_mem_digits isDigit_of_mem_zeros
  have hread : Nat.ofDigitChars 10 (d.digits ++ zeros d.exponent.toNat) 0 =
      10 ^ d.exponent.toNat * d.coefficient := by
    rw [Nat.ofDigitChars_append, ofDigitChars_digits, ofDigitChars_zeros]
  have hvalue : ((10 ^ d.exponent.toNat * d.coefficient : ℕ) : ℚ) = d.value := by
    obtain ⟨n, hn⟩ := Int.eq_ofNat_of_zero_le h
    simp [value, hn, mul_comm]
  rw [positionalText, if_pos h]
  cases wholePoint with
  | false =>
    rw [if_neg Bool.false_ne_true, List.append_nil]
    exact .whole hsome hdigits (by rw [hread, hvalue])
  | true =>
    refine .point hsome (List.cons_ne_nil '0' []) ?_ ?_
    · intro c hc
      rcases List.mem_append.mp hc with hc | hc
      · exact hdigits c hc
      · rw [List.mem_singleton.mp hc]
        rfl
    · rw [Nat.ofDigitChars_append, hread, ← hvalue]
      simp [value, Nat.ofDigitChars_cons]
      ring

/-- What is written for a decimal denotes its value. -/
theorem positionalText_denotes (d : Decimal) (wholePoint : Bool) :
    Denotes d.value (d.positionalText wholePoint) := by
  by_cases hwhole : 0 ≤ d.exponent
  case pos => exact whole_denotes hwhole wholePoint
  case neg =>
    have hplaces : -((-d.exponent).toNat : ℤ) = d.exponent := by omega
    rw [positionalText, if_neg hwhole]
    dsimp only
    split
    case isTrue hinside =>
      refine .point ?_ ?_ ?_ ?_
      · simp only [ne_eq, List.take_eq_nil_iff, d.digits_ne_nil, or_false]
        omega
      · simp only [ne_eq, List.drop_eq_nil_iff]
        omega
      · rw [List.take_append_drop]
        exact fun c hc => isDigit_of_mem_digits hc
      · rw [List.take_append_drop, ofDigitChars_digits, List.length_drop,
          Nat.sub_sub_self hinside.le, hplaces]
    case isFalse hbefore =>
      have hlength : (zeros ((-d.exponent).toNat - d.digits.length) ++ d.digits).length =
          (-d.exponent).toNat := by
        rw [List.length_append, zeros, List.length_replicate]
        omega
      refine .point (List.cons_ne_nil '0' []) ?_ ?_ ?_
      · simp [d.digits_ne_nil]
      · intro c hc
        simp only [List.mem_append, List.mem_singleton] at hc
        rcases hc with rfl | hc | hc
        · rfl
        · exact isDigit_of_mem_zeros hc
        · exact isDigit_of_mem_digits hc
      · rw [hlength, hplaces, Nat.ofDigitChars_append, Nat.ofDigitChars_append,
          ofDigitChars_zeros]
        simp [Nat.ofDigitChars_cons, ofDigitChars_digits]

end Decimal

/-! ### Numbers in trees -/

/-- Where the numerator is a multiple of the denominator, the quotient is the value. -/
theorem Dyadic.value_of_whole {d : Dyadic} (h : d.numerator % d.denominator = 0) :
    (d.numerator / d.denominator : ℕ) = d.value := by
  have hdenominator : (d.denominator : ℚ) ≠ 0 := by exact_mod_cast d.denominator_pos.ne'
  apply mul_right_cancel₀ hdenominator
  rw [value_mul_denominator, ← Nat.cast_mul, Nat.div_mul_cancel (Nat.dvd_of_mod_eq_zero h)]

/-- The text of a finite number is its sign and a decimal that rounds to the number. -/
theorem render_number {x : Float} {d : Dyadic} (h : magnitude x = .finite d) :
    ∃ text q, (Literal.number x).render.toList = NumberFormat.sign x ++ text ∧ Denotes q text ∧
      (Rounding.ofDyadic d).Holds q := by
  simp only [Literal.render, NumberFormat.wholeText?, h]
  by_cases hwhole : d.numerator % d.denominator = 0
  case pos =>
    refine ⟨_, _, ?_, Decimal.positionalText_denotes ⟨d.numerator / d.denominator, 0⟩ true, ?_⟩
    · simp [Dyadic.whole?, hwhole, Decimal.positionalText, Decimal.digits, zeros]
    · rw [Decimal.value, zpow_zero, mul_one, Dyadic.value_of_whole hwhole]
      exact Rounding.holds_value d
  case neg =>
    refine ⟨_, _, ?_, Decimal.positionalText_denotes (Decimal.shortest .up d) false, ?_⟩
    · simp [Dyadic.whole?, hwhole, NumberFormat.text, h, NumberFormat.decimalText,
        NumberFormat.isPositional, NumberFormat.plain]
    · refine Decimal.shortest_holds (isFloat_of_magnitude h) (fun hzero => hwhole ?_) .up
      simp [Dyadic.numerator, hzero]

/-- The sign is found again before a text that does not start with a minus sign. -/
theorem sign_unique {x y : Float} {textx texty : List Char} (hx : textx.head? ≠ some '-')
    (hy : texty.head? ≠ some '-')
    (h : NumberFormat.sign x ++ textx = NumberFormat.sign y ++ texty) :
    signBit x = signBit y ∧ textx = texty := by
  unfold NumberFormat.sign at h
  cases hsx : signBit x <;> cases hsy : signBit y <;>
    simp only [hsx, hsy, if_true, if_false, List.nil_append, List.singleton_append,
      List.cons.injEq, Bool.false_eq_true] at h ⊢
  · exact ⟨trivial, h⟩
  · exact absurd (by rw [h]; rfl) hx
  · exact absurd (by rw [← h]; rfl) hy
  · exact ⟨trivial, h.2⟩

/-- The text of a finite number determines it. -/
theorem render_number_inj {x y : Float} (hx : isFinite x = true) (hy : isFinite y = true)
    (h : (Literal.number x).render.toList = (Literal.number y).render.toList) : x = y := by
  obtain ⟨d, hd⟩ := exists_magnitude hx
  obtain ⟨d', hd'⟩ := exists_magnitude hy
  obtain ⟨text, q, htext, hread, hholds⟩ := render_number hd
  obtain ⟨text', q', htext', hread', hholds'⟩ := render_number hd'
  rw [htext, htext'] at h
  obtain ⟨hsign, rfl⟩ := sign_unique hread.head?_ne hread'.head?_ne h
  have hq : q = q' := hread.value_readDecimal.symm.trans hread'.value_readDecimal
  subst hq
  have hsame : d = d' := Rounding.ofDyadic_unique (isFloat_of_magnitude hd)
    (isFloat_of_magnitude hd') hholds hholds'
  exact eq_of_magnitude hsign hd (hsame ▸ hd')

end Lox
