import Lox.Proofs.Number.Reading
import Lox.Proofs.Number.Shortest
import Lox.Proofs.Number.Text
import Lox.Proofs.Tokens.Trivia
import Lox.Value

/-!
# Printed numbers are faithful

What is printed for a finite number denotes its shortest decimal, in positional notation or with
a power of ten behind it. The notation is chosen by the leading exponent of the shortest decimal.
Both bounds are shortest decimals of floats that are not below them, so the shortest decimal of
another float is on the same side of a bound as the float, and the choice is one by the value.

A number in positional notation is a number literal. Its value is in the interval of the number
that was printed, and so this number is read again.
-/

namespace Lox

/-! ### Powers of ten behind a number -/

/-- The power of ten that a sign and digits denote. -/
def readExponent : List Char → ℤ
  | [] => 0
  | mark :: digits =>
    if mark = '-' then -Nat.ofDigitChars 10 digits 0 else Nat.ofDigitChars 10 digits 0

/-- The value of digits with at most one point between them and a power of ten behind them. -/
def readNumeral (text : List Char) : ℚ :=
  (readDecimal (text.takeWhile (· != 'e'))).value *
    10 ^ readExponent (text.dropWhile (· != 'e')).tail

/-- Texts of decimals with or without a power of ten behind them, and their values. -/
inductive Numeral (q : ℚ) : List Char → Prop where
  /-- Positional notation. -/
  | plain {text : List Char} (h : Denotes q text) : Numeral q text
  /-- Exponent form, which has a sign in front of the power. -/
  | scaled {p : ℚ} {text digits : List Char} {mark : Char} (h : Denotes p text)
      (hmark : mark = '+' ∨ mark = '-') (hsome : digits ≠ [])
      (hdigits : ∀ c ∈ digits, c.isDigit = true)
      (hvalue : p * 10 ^ readExponent (mark :: digits) = q) :
      Numeral q (text ++ 'e' :: mark :: digits)

/-- Digits with a point have no exponent behind them. -/
theorem Denotes.notMem_e {q : ℚ} {text : List Char} (h : Denotes q text) : 'e' ∉ text :=
  fun hmem => by simpa using h.isDigit_or_point hmem

namespace Numeral

variable {q : ℚ} {text : List Char}

/-- A text denotes one value only. -/
theorem readNumeral_eq (h : Numeral q text) : readNumeral text = q := by
  have hletters : ∀ {p : ℚ} {word : List Char}, Denotes p word → ∀ c ∈ word, (c != 'e') = true :=
    fun hword c hc => by simpa using ne_of_mem_of_not_mem hc hword.notMem_e
  cases h with
  | plain h =>
    rw [readNumeral, List.takeWhile_eq_self_iff.mpr (hletters h),
      List.dropWhile_eq_nil_iff.mpr (hletters h), h.value_readDecimal]
    simp [readExponent]
  | @scaled p word digits mark h _ _ _ hvalue =>
    have htake : (word ++ 'e' :: mark :: digits).takeWhile (· != 'e') = word := by
      simp [List.takeWhile_append_of_pos (hletters h)]
    have hdrop : (word ++ 'e' :: mark :: digits).dropWhile (· != 'e') = 'e' :: mark :: digits := by
      simp [List.dropWhile_append_of_pos (hletters h)]
    rw [readNumeral, htake, hdrop, h.value_readDecimal]
    exact hvalue

/-- The text of a number starts with a digit. -/
theorem exists_digit (h : Numeral q text) : ∃ c rest, text = c :: rest ∧ c.isDigit = true := by
  cases h with
  | plain h => exact h.exists_digit
  | scaled h =>
    obtain ⟨c, rest, rfl, hc⟩ := h.exists_digit
    exact ⟨c, _, List.cons_append .., hc⟩

/-- So it starts with nothing else. -/
theorem head?_ne (h : Numeral q text) {c : Char} (hc : c.isDigit = false) :
    text.head? ≠ some c := by
  obtain ⟨d, rest, rfl, hd⟩ := h.exists_digit
  rintro ⟨⟩
  rw [hc] at hd
  cases hd

end Numeral

namespace Decimal

/-- The digits with a point behind the first. -/
theorem mantissaText_denotes (d : Decimal) :
    Denotes (value ⟨d.coefficient, 1 - d.digits.length⟩) (d.mantissaText true) := by
  have hread := ofDigitChars_digits d
  have hdigit : ∀ c ∈ d.digits, c.isDigit = true := fun c => isDigit_of_mem_digits
  rw [mantissaText]
  split
  case h_1 hnil => exact absurd hnil d.digits_ne_nil
  case h_2 digit hone =>
    rw [hone] at hread hdigit ⊢
    change Denotes _ ([digit] ++ '.' :: ['0'])
    refine .point (by simp) (by simp) ?_ ?_
    · intro c hc
      rcases List.mem_append.mp hc with hc | hc
      · exact hdigit c hc
      · rw [List.mem_singleton.mp hc]
        rfl
    · rw [Nat.ofDigitChars_append, hread]
      simp [value, Nat.ofDigitChars_cons]
      ring
  case h_3 digit rest hrest hmany =>
    rw [hmany] at hread hdigit ⊢
    change Denotes _ ([digit] ++ '.' :: rest)
    refine .point (by simp) hrest hdigit ?_
    rw [List.singleton_append, hread, List.length_cons]
    congr 2
    push_cast
    ring

/-- A number in exponent form denotes the value of its decimal. -/
theorem scaledText_numeral (d : Decimal) (width : ℕ) :
    Numeral d.value (d.mantissaText true ++ exponentText width d.leadingExponent) := by
  generalize he : d.leadingExponent = e
  have hdigits : ∀ c ∈ zeros (width - (Nat.toDigits 10 e.natAbs).length) ++
      Nat.toDigits 10 e.natAbs, c.isDigit = true := fun c hc =>
    (List.mem_append.mp hc).elim isDigit_of_mem_zeros
      (Nat.isDigit_of_mem_toDigits (by norm_num) le_rfl)
  have hread : Nat.ofDigitChars 10 (zeros (width - (Nat.toDigits 10 e.natAbs).length) ++
      Nat.toDigits 10 e.natAbs) 0 = e.natAbs := by
    rw [Nat.ofDigitChars_append, ofDigitChars_zeros, mul_zero, Nat.ofDigitChars_ten_toDigits]
  refine .scaled d.mantissaText_denotes ?_ (by simp) hdigits ?_
  · split
    · exact .inr rfl
    · exact .inl rfl
  · have hexponent : readExponent ((if e < 0 then '-' else '+') ::
        (zeros (width - (Nat.toDigits 10 e.natAbs).length) ++ Nat.toDigits 10 e.natAbs)) = e := by
      rw [readExponent, hread]
      by_cases hnegative : e < 0
      · rw [if_pos hnegative, if_pos rfl]
        omega
      · rw [if_neg hnegative, if_neg (by decide)]
        omega
    rw [hexponent, value, value, mul_assoc, ← zpow_add₀ (by norm_num), ← he, leadingExponent]
    congr 2
    ring

/-! ### Notation and value -/

/-- The leading exponent says above which powers of ten a decimal is. -/
theorem pow_le_value_iff {d : Decimal} (h : d.coefficient ≠ 0) (k : ℤ) :
    (10 : ℚ) ^ k ≤ d.value ↔ k ≤ d.leadingExponent := by
  have hlow := pow_le_value h
  have hhigh := d.value_lt_pow
  have hpos : 0 < digitCount d.coefficient := Nat.length_toDigits_pos
  have hleading : d.leadingExponent = d.exponent + digitCount d.coefficient - 1 := rfl
  constructor
  · intro hk
    have hlt := hk.trans_lt hhigh
    rw [zpow_lt_zpow_iff_right₀ (by norm_num)] at hlt
    omega
  · intro hk
    refine le_trans ?_ hlow
    exact zpow_le_zpow_right₀ (by norm_num) (by omega)

/-- The decimal of a float that is not zero is not zero either. -/
theorem coefficient_shortest_ne_zero {d : Dyadic} (hd : d.IsFloat) (h : d.mantissa ≠ 0)
    (tie : Tie) : (shortest tie d).coefficient ≠ 0 := by
  intro hzero
  have hholds := shortest_holds hd h tie
  rw [value, hzero, Nat.cast_zero, zero_mul] at hholds
  exact h (by rw [Rounding.eq_zero_of_holds hd hholds])

/-- The upper bound of positional notation is a float. -/
theorem shortest_lt_upper {d : Dyadic} (hd : d.IsFloat) :
    (shortest .up d).value < 10 ^ (16 : ℤ) ↔ d.value < 10 ^ (16 : ℤ) := by
  have hshortest : shortest .up ⟨5000000000000000, 1⟩ = ⟨1, 16⟩ := by decide +kernel
  refine shortest_lt_iff (f := ⟨5000000000000000, 1⟩) ⟨?_, ?_, .inr ?_⟩ ?_ ?_ hd
  · norm_num
  · norm_num
  · norm_num
  · rw [hshortest, value]
    norm_num
  · norm_num [Dyadic.value]

/-- The float nearest to the lower bound of positional notation is above it. -/
theorem shortest_lt_lower {d : Dyadic} (hd : d.IsFloat) :
    (shortest .up d).value < 10 ^ (-4 : ℤ) ↔ d.value < 10 ^ (-4 : ℤ) := by
  have hshortest : shortest .up ⟨7378697629483821, -66⟩ = ⟨1, -4⟩ := by decide +kernel
  refine shortest_lt_iff (f := ⟨7378697629483821, -66⟩) ⟨?_, ?_, .inr ?_⟩ ?_ ?_ hd
  · norm_num
  · norm_num
  · norm_num
  · rw [hshortest, value]
    norm_num
  · norm_num [Dyadic.value]

end Decimal

/-- Whether a value is printed in exponent form: it is large, or it is small and not zero. -/
def NeedsExponent (q : ℚ) : Prop := 10 ^ 16 ≤ q ∨ 0 < q ∧ q < 1 / 10 ^ 4

/-- A float that is not zero is positive. -/
theorem Dyadic.value_pos {d : Dyadic} (h : d.mantissa ≠ 0) : 0 < d.value :=
  mul_pos (Nat.cast_pos.mpr (Nat.pos_of_ne_zero h)) (by positivity)

/-- The leading exponent of the shortest decimal chooses by the value of the float. -/
theorem isPositional_iff {d : Dyadic} (hd : d.IsFloat) :
    Value.numberFormat.isPositional (Decimal.shortest .up d) = true ↔ ¬NeedsExponent d.value := by
  by_cases h : d.mantissa = 0
  case pos =>
    have hvalue : d.value = 0 := by rw [Dyadic.value, h, Nat.cast_zero, zero_mul]
    rw [Decimal.shortest, if_pos h, hvalue]
    refine iff_of_true (by decide) ?_
    norm_num [NeedsExponent]
  case neg =>
    have hcoefficient := Decimal.coefficient_shortest_ne_zero hd h .up
    have hlower := Decimal.pow_le_value_iff hcoefficient (-4)
    have hupper := Decimal.pow_le_value_iff hcoefficient 16
    have hpos := Dyadic.value_pos h
    have hbelow : d.value < 1 / 10 ^ 4 ↔ d.value < 10 ^ (-4 : ℤ) := by norm_num
    have habove : 10 ^ 16 ≤ d.value ↔ 10 ^ (16 : ℤ) ≤ d.value := by norm_num
    rw [← not_lt, Decimal.shortest_lt_lower hd] at hlower
    rw [← not_lt, Decimal.shortest_lt_upper hd, not_lt] at hupper
    rw [NeedsExponent, hbelow, habove, hupper]
    simp only [NumberFormat.isPositional, Value.numberFormat, Bool.and_eq_true, decide_eq_true_iff]
    have hleading : (Decimal.shortest .up d).leadingExponent ≤ 15 ↔
        ¬16 ≤ (Decimal.shortest .up d).leadingExponent := by omega
    rw [← hlower, hleading]
    tauto

/-! ### Number literals -/

/-- What is written in positional notation is a number literal. -/
theorem Denotes.spells {q : ℚ} {text : List Char} (h : Denotes q text) :
    ∃ whole fraction, Lexicon.Spells (.token (.number (numberOfDigits whole fraction))) text ∧
      Decimal.value ⟨Nat.ofDigitChars 10 (whole ++ fraction) 0, -fraction.length⟩ = q := by
  cases h with
  | whole hsome hdigits hvalue =>
    obtain ⟨c, more, rfl⟩ := List.exists_cons_of_ne_nil hsome
    refine ⟨c :: more, [], .whole fun d hd => Lexicon.isDigit_iff.mp (hdigits d hd), ?_⟩
    rw [List.append_nil, ← hvalue]
    simp [Decimal.value]
  | @point digits fraction hsome hfraction hdigits hvalue =>
    obtain ⟨c, more, rfl⟩ := List.exists_cons_of_ne_nil hsome
    obtain ⟨d, rest, rfl⟩ := List.exists_cons_of_ne_nil hfraction
    refine ⟨c :: more, d :: rest, .fraction (fun e he => ?_) (fun e he => ?_), hvalue⟩
    · exact Lexicon.isDigit_iff.mp (hdigits e (List.mem_append_left _ he))
    · exact Lexicon.isDigit_iff.mp (hdigits e (List.mem_append_right _ he))

/-- A literal whose value rounds to a number is read as this number. -/
theorem scan_denotes {x : Float} {d : Dyadic} {q : ℚ} {text : String}
    (hx : magnitude x = .finite d) (hsign : signBit x = false) (h : Denotes q text.toList)
    (hq : (Rounding.ofDyadic d).Holds q) :
    scan text = [.token ⟨.number x, text, 1⟩, .token (Token.finishAt 1)] := by
  obtain ⟨whole, fraction, hspells, hvalue⟩ := h.spells
  have hlines : lineBreaks text.toList = 0 :=
    List.count_eq_zero.mpr fun hmem => by simpa using h.isDigit_or_point hmem
  have hend : EndsToken [] := fun c hc => by cases hc
  have hread := scanFrom_token hspells hend 1
  rw [List.append_nil, hlines, scanFrom, String.ofList_toList,
    numberOfDigits_eq hx hsign (hvalue.symm ▸ hq)] at hread
  exact hread

/-! ### Printed numbers -/

/-- What is faithful about the text that is printed for a finite number. -/
structure PrintsFaithfully (x : Float) (d : Dyadic) (text : String) : Prop where
  /-- The notation is chosen by the value. -/
  form : 'e' ∈ text.toList ↔ NeedsExponent d.value
  /-- Behind the sign the text denotes the shortest decimal of the number. -/
  digits : ∃ s numeral, Decimal.IsShortest d s ∧
    text.toList = NumberFormat.sign x ++ numeral ∧ Numeral s.value numeral
  /-- In positional notation a number without a sign is read again. -/
  readsBack : signBit x = false → 'e' ∉ text.toList →
    scan text = [.token ⟨.number x, text, 1⟩, .token (Token.finishAt 1)]

/-- A finite number is printed as its sign and the text of its shortest decimal. -/
theorem toList_display {x : Float} {d : Dyadic} (h : magnitude x = .finite d) :
    (Value.number x : Value).display.toList =
      NumberFormat.sign x ++ Value.numberFormat.decimalText (Decimal.shortest .up d) := by
  rw [Value.display, NumberFormat.text, h]
  exact String.toList_ofList

/-- A sign has no exponent in it. -/
theorem notMem_sign (x : Float) : 'e' ∉ NumberFormat.sign x := by
  unfold NumberFormat.sign
  split <;> simp

/-- Every finite number is printed faithfully. -/
theorem prints_faithfully {x : Float} {d : Dyadic} (h : magnitude x = .finite d) :
    PrintsFaithfully x d (Value.number x : Value).display := by
  have hd := isFloat_of_magnitude h
  have hshortest := Decimal.isShortest_shortest hd .up
  have htext := toList_display h
  by_cases hform : Value.numberFormat.isPositional (Decimal.shortest .up d) = true
  case pos =>
    rw [NumberFormat.decimalText, if_pos hform] at htext
    have hdenotes := (Decimal.shortest .up d).positionalText_denotes Value.numberFormat.wholePoint
    have hplain : 'e' ∉ (Value.number x : Value).display.toList := by
      rw [htext, List.mem_append, not_or]
      exact ⟨notMem_sign x, hdenotes.notMem_e⟩
    refine ⟨iff_of_false hplain ((isPositional_iff hd).mp hform), ?_, fun hsign _ => ?_⟩
    · exact ⟨_, _, hshortest, htext, .plain hdenotes⟩
    · rw [NumberFormat.sign, hsign, if_neg Bool.false_ne_true, List.nil_append] at htext
      rw [← htext] at hdenotes
      exact scan_denotes h hsign hdenotes hshortest.rounds
  case neg =>
    rw [NumberFormat.decimalText, if_neg hform] at htext
    have hneeds : NeedsExponent d.value := not_not.mp ((isPositional_iff hd).not.mp hform)
    have hscaled : 'e' ∈ (Value.number x : Value).display.toList := by
      rw [htext]
      simp [Decimal.exponentText]
    refine ⟨iff_of_true hscaled hneeds, ?_, fun _ hplain => absurd hscaled hplain⟩
    exact ⟨_, _, hshortest, htext, (Decimal.shortest .up d).scaledText_numeral _⟩

/-! ### Different numbers -/

/-- What is printed behind the sign of a number. -/
inductive Unsigned (x : Float) : List Char → Prop where
  /-- An infinite number is printed as a word. -/
  | infinite (h : magnitude x = .infinite) : Unsigned x "Infinity".toList
  /-- A finite number is printed as a numeral that rounds to it. -/
  | finite {d : Dyadic} {q : ℚ} {numeral : List Char} (h : magnitude x = .finite d)
      (hrounds : (Rounding.ofDyadic d).Holds q) (hnumeral : Numeral q numeral) :
      Unsigned x numeral

/-- A number that is printed has a text without sign behind its sign. -/
theorem exists_unsigned {x : Float} (h : magnitude x ≠ .nan) :
    ∃ text, (Value.number x : Value).display.toList = NumberFormat.sign x ++ text ∧
      Unsigned x text := by
  cases hx : magnitude x with
  | nan => exact absurd hx h
  | infinite =>
    refine ⟨_, ?_, .infinite hx⟩
    rw [Value.display, NumberFormat.text, hx]
    simp [Value.numberFormat]
  | finite d =>
    obtain ⟨s, numeral, hshortest, htext, hnumeral⟩ := (prints_faithfully hx).digits
    exact ⟨numeral, htext, .finite hx hshortest.rounds hnumeral⟩

namespace Unsigned

variable {x y : Float} {text : List Char}

/-- Such a text does not start with a sign. -/
theorem head?_ne (h : Unsigned x text) : text.head? ≠ some '-' := by
  cases h with
  | infinite => decide
  | finite _ _ hnumeral => exact hnumeral.head?_ne (by decide)

/-- Without the sign a text is printed for one magnitude only. -/
theorem eq (hx : Unsigned x text) (hy : Unsigned y text) (hsign : signBit x = signBit y) :
    x = y := by
  have hletter : ∀ {q : ℚ}, ¬Numeral q "Infinity".toList :=
    fun h => h.head?_ne (c := 'I') (by decide) rfl
  cases hx with
  | infinite hx =>
    cases hy with
    | infinite hy => exact eq_of_infinite hsign hx hy
    | finite _ _ hnumeral => exact absurd hnumeral hletter
  | finite hx hrounds hnumeral =>
    cases hy with
    | infinite _ => exact absurd hnumeral hletter
    | finite hy hrounds' hnumeral' =>
      rw [← hnumeral.readNumeral_eq] at hrounds
      rw [← hnumeral'.readNumeral_eq] at hrounds'
      have hsame := Rounding.ofDyadic_unique (isFloat_of_magnitude hx) (isFloat_of_magnitude hy)
        hrounds hrounds'
      exact eq_of_magnitude hsign hx (hsame ▸ hy)

end Unsigned

/-- Numbers that are printed alike are the same. -/
theorem display_number_inj {x y : Float} (hx : magnitude x ≠ .nan) (hy : magnitude y ≠ .nan)
    (h : (Value.number x : Value).display = (Value.number y : Value).display) : x = y := by
  obtain ⟨text, htext, hread⟩ := exists_unsigned hx
  obtain ⟨text', htext', hread'⟩ := exists_unsigned hy
  rw [h, htext'] at htext
  obtain ⟨hsign, rfl⟩ := sign_unique hread'.head?_ne hread.head?_ne htext
  exact hread.eq hread' hsign.symm

/-- The text of every finite number denotes its shortest decimal, is in exponent form exactly
where the number is large or small, and otherwise is read as the number again. Numbers with
different bits are printed differently, the infinite ones too. -/
theorem printed_numbers_faithful :
    (∀ (x : Float) (d : Dyadic), magnitude x = .finite d →
      PrintsFaithfully x d (Value.number x : Value).display) ∧
    ∀ x y : Float, magnitude x ≠ .nan → magnitude y ≠ .nan → x.toBits ≠ y.toBits →
      (Value.number x : Value).display ≠ (Value.number y : Value).display := by
  refine ⟨fun x d h => prints_faithfully h, fun x y hx hy hbits h => hbits ?_⟩
  rw [display_number_inj hx hy h]

/-- The float nearest to `1e-4` is printed in positional notation and read again, and the float
below it in exponent form. -/
theorem printed_numbers_faithful_lower :
    scan "0.0001" = [.token ⟨.number (Float.ofBits 0x3F1A36E2EB1C432D), "0.0001", 1⟩,
        .token (Token.finishAt 1)] ∧
      NeedsExponent (Dyadic.value ⟨7378697629483820, -66⟩) ∧
      (Value.number (Float.ofBits 0x3F1A36E2EB1C432D) : Value).display ≠
        (Value.number (Float.ofBits 0x3F1A36E2EB1C432C) : Value).display := by
  have hnearest : magnitude (Float.ofBits 0x3F1A36E2EB1C432D) =
      .finite ⟨7378697629483821, -66⟩ := by decide +kernel
  have hbelow : magnitude (Float.ofBits 0x3F1A36E2EB1C432C) =
      .finite ⟨7378697629483820, -66⟩ := by decide +kernel
  have hplain : (Value.number (Float.ofBits 0x3F1A36E2EB1C432D) : Value).display = "0.0001" := by
    decide +kernel
  have hscaled : (Value.number (Float.ofBits 0x3F1A36E2EB1C432C) : Value).display =
      "9.999999999999999e-05" := by
    decide +kernel
  have hfirst := printed_numbers_faithful.1 _ _ hnearest
  have hsecond := printed_numbers_faithful.1 _ _ hbelow
  rw [hplain] at hfirst
  rw [hscaled] at hsecond
  refine ⟨hfirst.readsBack (by decide +kernel) (by decide), hsecond.form.mp (by decide), ?_⟩
  refine printed_numbers_faithful.2 _ _ ?_ ?_ (by decide +kernel)
  · rw [hnearest]
    nofun
  · rw [hbelow]
    nofun

end Lox
