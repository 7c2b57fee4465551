import Mathlib.Algebra.Order.Field.Power
import Mathlib.Data.Rat.Cast.Order
import Mathlib.Tactic.Linarith
import Mathlib.Tactic.NormNum
import Mathlib.Tactic.Positivity
import Mathlib.Tactic.Ring
import Lox.Number.Format

/-!
# Decimals that read back

The decimal that is written for a number rounds to this number, and no decimal rounds to
two numbers. The first holds because seventeen digits are always enough: the last of the
grids that are tried is finer than the interval of the numbers that round to the float is
wide. The second holds because two such intervals share at most an end, and an end that
two intervals share belongs to only one of them.
-/

namespace Lox

/-! ### Values -/

/-- The value of a dyadic fraction. -/
def Dyadic.value (d : Dyadic) : ℚ := d.mantissa * 2 ^ d.exponent

/-- The value of a decimal fraction. -/
def Decimal.value (d : Decimal) : ℚ := d.coefficient * 10 ^ d.exponent

/-- A power whose exponent is cut off at zero is the power, with what was cut off put on
the other side. -/
theorem pow_toNat_eq {base : ℚ} (hbase : base ≠ 0) (exponent : ℤ) :
    base ^ exponent.toNat = base ^ exponent * base ^ (-exponent).toNat := by
  rw [← zpow_natCast, ← zpow_natCast, ← zpow_add₀ hbase]
  congr 1
  omega

/-- Denominators are positive. -/
theorem Dyadic.denominator_pos (d : Dyadic) : 0 < d.denominator := Nat.two_pow_pos _

/-- A dyadic fraction is its numerator over its denominator. -/
theorem Dyadic.value_mul_denominator (d : Dyadic) : d.value * d.denominator = d.numerator := by
  rw [value, denominator, numerator, Nat.pow_eq, Nat.pow_eq]
  push_cast
  rw [pow_toNat_eq two_ne_zero d.exponent, mul_assoc]

/-- Dropping zeros at the end does not change the value of a decimal. -/
theorem Decimal.value_dropZeros (n : ℕ) (d : Decimal) : (dropZeros n d).value = d.value := by
  induction n generalizing d with
  | zero => rfl
  | succ n ih =>
    rw [dropZeros]
    split
    case isFalse => rfl
    case isTrue h =>
      have htens : d.coefficient = 10 * (d.coefficient / 10) := by omega
      have hcast : (d.coefficient : ℚ) = 10 * (d.coefficient / 10 : ℕ) := by exact_mod_cast htens
      rw [ih, value, value, hcast, zpow_add_one₀ (by norm_num)]
      ring

/-! ### The numbers that round to a float -/

namespace Rounding

/-- Whether a number is inside the interval. -/
def Holds (r : Rounding) (q : ℚ) : Prop :=
  if r.closed then r.low * 2 ^ r.exponent ≤ q ∧ q ≤ r.high * 2 ^ r.exponent
  else r.low * 2 ^ r.exponent < q ∧ q < r.high * 2 ^ r.exponent

/-- The lower end bounds all of the interval, whether or not it belongs to it. -/
theorem Holds.low_le {r : Rounding} {q : ℚ} (h : r.Holds q) : r.low * 2 ^ r.exponent ≤ q := by
  unfold Holds at h
  split at h
  · exact h.1
  · exact h.1.le

/-- So does the upper end. -/
theorem Holds.le_high {r : Rounding} {q : ℚ} (h : r.Holds q) : q ≤ r.high * 2 ^ r.exponent := by
  unfold Holds at h
  split at h
  · exact h.2
  · exact h.2.le

/-- The ends of an open interval do not belong to it. -/
theorem Holds.lt_of_open {r : Rounding} {q : ℚ} (h : r.Holds q) (hopen : r.closed = false) :
    r.low * 2 ^ r.exponent < q ∧ q < r.high * 2 ^ r.exponent := by
  simpa [Holds, hopen] using h

/-- What lies strictly between the ends is inside the interval, be it closed or open. -/
theorem holds_of_lt {r : Rounding} {q : ℚ} (hlow : r.low * 2 ^ r.exponent < q)
    (hhigh : q < r.high * 2 ^ r.exponent) : r.Holds q := by
  unfold Holds
  split
  · exact ⟨hlow.le, hhigh.le⟩
  · exact ⟨hlow, hhigh⟩

/-- The scale on which the points of the interval and of the grid are whole. -/
def unit (r : Rounding) (step : ℤ) : ℚ := 2 ^ (-r.exponent).toNat * 10 ^ (-step).toNat

/-- The common scale is positive, so it keeps the order. -/
theorem unit_pos (r : Rounding) (step : ℤ) : 0 < r.unit step := by
  unfold unit
  positivity

/-- The points of the interval are whole on the common scale. -/
theorem ofBinary_eq (r : Rounding) (step : ℤ) (n : ℕ) :
    (r.ofBinary step n : ℚ) = n * 2 ^ r.exponent * r.unit step := by
  rw [ofBinary, unit, Nat.pow_eq, Nat.pow_eq]
  push_cast
  rw [pow_toNat_eq two_ne_zero r.exponent]
  ring

/-- The points of the grid are whole on the common scale. -/
theorem ofGrid_eq (r : Rounding) (step : ℤ) (n : ℕ) :
    (r.ofGrid step n : ℚ) = Decimal.value ⟨n, step⟩ * r.unit step := by
  rw [ofGrid, unit, Decimal.value, Nat.pow_eq, Nat.pow_eq]
  push_cast
  rw [pow_toNat_eq (by norm_num) step]
  ring

/-- Whether a grid point is inside the interval is decided exactly, by whole numbers. -/
theorem contains_iff (r : Rounding) (step : ℤ) (n : ℕ) :
    r.contains step n = true ↔ r.Holds (Decimal.value ⟨n, step⟩) := by
  have hunit := r.unit_pos step
  have hle : ∀ k, r.ofBinary step k ≤ r.ofGrid step n ↔
      k * 2 ^ r.exponent ≤ Decimal.value ⟨n, step⟩ := fun k => by
    rw [← mul_le_mul_iff_left₀ hunit, ← ofBinary_eq, ← ofGrid_eq, Nat.cast_le]
  have hge : ∀ k, r.ofGrid step n ≤ r.ofBinary step k ↔
      Decimal.value ⟨n, step⟩ ≤ k * 2 ^ r.exponent := fun k => by
    rw [← mul_le_mul_iff_left₀ hunit, ← ofBinary_eq, ← ofGrid_eq, Nat.cast_le]
  unfold contains Holds
  cases r.closed
  · simp [← not_le, hle, hge]
  · simp [hle, hge]

/-! ### The grids -/

/-- A grid point that is chosen is inside the interval. -/
theorem holds_of_onGrid? {r : Rounding} {tie : Tie} {step : ℤ} {n : ℕ}
    (h : r.onGrid? tie step = some n) : r.Holds (Decimal.value ⟨n, step⟩) := by
  rw [← contains_iff]
  grind [onGrid?]

/-- A grid with a point inside next to the value has a point that is chosen. -/
theorem onGrid?_isSome {r : Rounding} {step : ℤ} (tie : Tie)
    (h : r.contains step (r.below step) = true ∨ r.contains step (r.below step + 1) = true) :
    (r.onGrid? tie step).isSome = true := by
  grind [onGrid?]

/-- The value is between the grid point below it and the next one. -/
theorem below_spec (r : Rounding) (step : ℤ) :
    Decimal.value ⟨r.below step, step⟩ ≤ r.middle * 2 ^ r.exponent ∧
      r.middle * 2 ^ r.exponent < Decimal.value ⟨r.below step + 1, step⟩ := by
  have hunit := r.unit_pos step
  have hgrid : ∀ n, r.ofGrid step n = n * r.ofGrid step 1 := fun n => by simp [ofGrid, mul_assoc]
  have hpos : 0 < r.ofGrid step 1 := by simp [ofGrid]
  constructor
  · rw [← mul_le_mul_iff_left₀ hunit, ← ofBinary_eq, ← ofGrid_eq, Nat.cast_le, hgrid]
    exact Nat.div_mul_le_self _ _
  · rw [← mul_lt_mul_iff_left₀ hunit, ← ofBinary_eq, ← ofGrid_eq, Nat.cast_lt, hgrid]
    exact Nat.lt_mul_of_div_lt (Nat.lt_succ_self _) hpos

/-- A grid that is finer than the interval is wide has a point inside. -/
theorem onGrid?_isSome_of_fine {r : Rounding} {step : ℤ} (tie : Tie) (hlow : r.low < r.middle)
    (hhigh : r.middle < r.high)
    (hfine : (10 : ℚ) ^ step < (r.high - r.low) * 2 ^ r.exponent) :
    (r.onGrid? tie step).isSome = true := by
  have hscale : (0 : ℚ) < 2 ^ r.exponent := by positivity
  have hlow' : r.low * (2 : ℚ) ^ r.exponent < r.middle * 2 ^ r.exponent := by gcongr
  have hhigh' : r.middle * (2 : ℚ) ^ r.exponent < r.high * 2 ^ r.exponent := by gcongr
  obtain ⟨hbelow, habove⟩ := r.below_spec step
  have hnext : Decimal.value ⟨r.below step + 1, step⟩ =
      Decimal.value ⟨r.below step, step⟩ + 10 ^ step := by
    simp only [Decimal.value]
    push_cast
    ring
  apply onGrid?_isSome
  rw [contains_iff, contains_iff]
  -- Where the point below the value is outside, the next one is less than the width of the
  -- interval above its lower end.
  by_cases hin : r.low * 2 ^ r.exponent < Decimal.value ⟨r.below step, step⟩
  case pos => exact .inl (holds_of_lt hin (by linarith))
  case neg => exact .inr (holds_of_lt (by linarith) (by linarith))

/-- The first grid with a point inside the interval decides. -/
theorem firstHit_spec {r : Rounding} {tie : Tie} {tries : ℕ} {step : ℤ}
    (h : (r.onGrid? tie (step - tries)).isSome = true) :
    ∃ k n : ℕ, k ≤ tries ∧ r.firstHit tie (tries + 1) step = ⟨n, step - k⟩ ∧
      r.onGrid? tie (step - k) = some n ∧ ∀ j < k, r.onGrid? tie (step - j) = none := by
  induction tries generalizing step with
  | zero =>
    obtain ⟨n, hn⟩ := Option.isSome_iff_exists.mp h
    rw [Nat.cast_zero, sub_zero] at hn
    refine ⟨0, n, le_rfl, ?_, ?_, by simp⟩
    · rw [firstHit, hn]
      simp
    · simpa using hn
  | succ tries ih =>
    rw [firstHit]
    split
    case h_1 n hn => exact ⟨0, n, Nat.zero_le _, by simp, by simpa using hn, by simp⟩
    case h_2 hnone =>
      have hstep : ∀ j : ℕ, step - 1 - (j : ℤ) = step - (j + 1 : ℕ) := fun j => by
        push_cast
        ring
      obtain ⟨k, n, hk, hfirst, hn, hbefore⟩ := ih (by rwa [hstep])
      rw [hstep] at hfirst hn
      refine ⟨k + 1, n, Nat.succ_le_succ hk, hfirst, hn, fun j hj => ?_⟩
      cases j with
      | zero => simpa using hnone
      | succ j =>
        rw [← hstep]
        exact hbefore j (Nat.lt_of_succ_lt_succ hj)

end Rounding

/-! ### Floats -/

/-- Whether a number is finite. -/
def isFinite (x : Float) : Bool :=
  match magnitude x with
  | .finite _ => true
  | _ => false

/-- A finite number has a fraction as its magnitude. -/
theorem exists_magnitude {x : Float} (h : isFinite x = true) : ∃ d, magnitude x = .finite d := by
  unfold isFinite at h
  split at h
  case h_1 d hd => exact ⟨d, hd⟩
  case h_2 => cases h

/-- The fractions that floats denote: the significand has all its bits, unless the exponent
is the least one. -/
structure Dyadic.IsFloat (d : Dyadic) : Prop where
  /-- The significand has at most 53 bits. -/
  small : d.mantissa < 2 ^ 53
  /-- The exponent is in its range. -/
  least : -1074 ≤ d.exponent
  /-- The leading bit is there. -/
  leading : d.exponent = -1074 ∨ 2 ^ 52 ≤ d.mantissa

/-- Zero is a float. -/
theorem Dyadic.isFloat_zero : IsFloat ⟨0, -1074⟩ := ⟨by norm_num, le_rfl, .inl rfl⟩

/-- What the bits of a finite number denote. -/
theorem bits_of_magnitude {x : Float} {d : Dyadic} (h : magnitude x = .finite d) :
    (x.toBits.toNat / 2 ^ 52 % 2 ^ 11 = 0 ∧ d = ⟨x.toBits.toNat % 2 ^ 52, -1074⟩) ∨
      (x.toBits.toNat / 2 ^ 52 % 2 ^ 11 ≠ 0 ∧ d = ⟨2 ^ 52 + x.toBits.toNat % 2 ^ 52,
        (x.toBits.toNat / 2 ^ 52 % 2 ^ 11 : ℕ) - 1075⟩) := by
  simp only [magnitude, Nat.pow_eq] at h
  split at h
  case isTrue => split at h <;> cases h
  case isFalse =>
    split at h
    case isTrue hexponent => exact .inl ⟨hexponent, (Magnitude.finite.inj h).symm⟩
    case isFalse hexponent => exact .inr ⟨hexponent, (Magnitude.finite.inj h).symm⟩

/-- The magnitude of a finite number is a float. -/
theorem isFloat_of_magnitude {x : Float} {d : Dyadic} (h : magnitude x = .finite d) :
    d.IsFloat := by
  have hfraction : x.toBits.toNat % 2 ^ 52 < 2 ^ 52 := Nat.mod_lt _ (Nat.two_pow_pos 52)
  rcases bits_of_magnitude h with ⟨-, rfl⟩ | ⟨hexponent, rfl⟩
  · exact ⟨by simp only; omega, le_rfl, .inl rfl⟩
  · exact ⟨by simp only; omega, by simp only; omega, .inr (Nat.le_add_right _ _)⟩

/-- Numbers of the same bits are the same. -/
theorem eq_of_toBits {x y : Float} (h : x.toBits = y.toBits) : x = y := by
  obtain ⟨⟨_, _⟩⟩ := x
  obtain ⟨⟨_, _⟩⟩ := y
  cases h
  rfl

/-- The sign and the magnitude of a finite number are all that its bits say. -/
theorem eq_of_magnitude {x y : Float} {d : Dyadic} (hsign : signBit x = signBit y)
    (hx : magnitude x = .finite d) (hy : magnitude y = .finite d) : x = y := by
  apply eq_of_toBits
  apply UInt64.toNat_inj.mp
  have hx64 := x.toBits.toNat_lt
  have hy64 := y.toBits.toNat_lt
  simp only [signBit, Nat.pow_eq, decide_eq_decide] at hsign
  have hx := bits_of_magnitude hx
  have hy := bits_of_magnitude hy
  generalize x.toBits.toNat = a at *
  generalize y.toBits.toNat = b at *
  obtain ⟨mantissa, exponent⟩ := d
  simp only [Dyadic.mk.injEq] at hx hy
  omega

/-- All bits of an infinite number but the sign are known. -/
theorem eq_of_infinite {x y : Float} (hsign : signBit x = signBit y)
    (hx : magnitude x = .infinite) (hy : magnitude y = .infinite) : x = y := by
  have hbits : ∀ {z : Float}, magnitude z = .infinite →
      z.toBits.toNat / 2 ^ 52 % 2 ^ 11 = 2047 ∧ z.toBits.toNat % 2 ^ 52 = 0 := by
    intro z hz
    simp only [magnitude, Nat.pow_eq] at hz
    split at hz
    case isTrue hexponent =>
      split at hz
      case isTrue hfraction => exact ⟨hexponent, hfraction⟩
      case isFalse => cases hz
    case isFalse => split at hz <;> cases hz
  apply eq_of_toBits
  apply UInt64.toNat_inj.mp
  have hx64 := x.toBits.toNat_lt
  have hy64 := y.toBits.toNat_lt
  simp only [signBit, Nat.pow_eq, decide_eq_decide] at hsign
  have hx := hbits hx
  have hy := hbits hy
  omega

/-! ### Intervals of different floats -/

namespace Rounding

/-- The value of a float lies strictly inside its interval. -/
theorem middle_lt (d : Dyadic) (h : d.mantissa ≠ 0) :
    (ofDyadic d).low < (ofDyadic d).middle ∧ (ofDyadic d).middle < (ofDyadic d).high := by
  simp only [ofDyadic]
  split_ifs <;> omega

/-- The middle of the interval is the value of the float. -/
theorem middle_eq (d : Dyadic) :
    (ofDyadic d).middle * 2 ^ (ofDyadic d).exponent = d.value := by
  simp only [ofDyadic, Dyadic.value]
  rw [zpow_sub₀ two_ne_zero]
  push_cast
  ring

/-- A float is in its own interval. -/
theorem holds_value (d : Dyadic) : (ofDyadic d).Holds d.value := by
  by_cases h : d.mantissa = 0
  case pos =>
    have hscale : (0 : ℚ) ≤ 2 ^ (d.exponent - 2) := by positivity
    simp [Holds, ofDyadic, Dyadic.value, h, hscale]
  case neg =>
    obtain ⟨hlow, hhigh⟩ := middle_lt d h
    rw [← middle_eq]
    exact holds_of_lt (by gcongr) (by gcongr)

/-- With seventeen digits the grid is finer than the interval is wide. -/
theorem middle_lt_wide {d : Dyadic} (hd : d.IsFloat) :
    (ofDyadic d).middle + 10 ^ 16 * (ofDyadic d).low < 10 ^ 16 * (ofDyadic d).high := by
  have hsmall := hd.small
  simp only [ofDyadic, Nat.pow_eq]
  split_ifs <;> omega

/-- The interval of the smaller float ends before that of the greater one begins, or there,
and then its end does not belong to both. -/
theorem high_le_low {d d' : Dyadic} (hd : d.IsFloat) (hd' : d'.IsFloat) {k : ℕ}
    (hk : d'.exponent = d.exponent + k) (h : k = 0 → d.mantissa < d'.mantissa) :
    (ofDyadic d).high < (ofDyadic d').low * 2 ^ k ∨
      (ofDyadic d).high = (ofDyadic d').low * 2 ^ k ∧
        ((ofDyadic d).closed = false ∨ (ofDyadic d').closed = false) := by
  obtain ⟨hsmall, hleast, -⟩ := hd
  obtain ⟨-, -, hleading⟩ := hd'
  cases k with
  | zero =>
    have hless := h rfl
    simp only [ofDyadic, Nat.pow_eq, pow_zero, mul_one, decide_eq_false_iff_not]
    split_ifs <;> omega
  | succ k =>
    -- The greater float has its leading bit, so its interval begins near a power of two.
    have hpow : 1 ≤ 2 ^ k := Nat.one_le_two_pow
    have hlow : (ofDyadic d').low * 2 ≤ (ofDyadic d').low * 2 ^ (k + 1) := by
      gcongr
      omega
    have hbound : (ofDyadic d).high < (ofDyadic d').low * 2 ∨
        (ofDyadic d).high = (ofDyadic d').low * 2 ∧ (ofDyadic d).closed = false := by
      simp only [ofDyadic, Nat.pow_eq, decide_eq_false_iff_not]
      split_ifs <;> omega
    rcases hbound with hlt | ⟨heq, hopen⟩
    · exact .inl (hlt.trans_le hlow)
    · rcases hlow.lt_or_eq with hlt | heq'
      · exact .inl (heq.trans_lt hlt)
      · exact .inr ⟨heq.trans heq', .inl hopen⟩

/-- What rounds to the smaller of two floats does not round to the greater one. -/
theorem not_holds_of_less {d d' : Dyadic} (hd : d.IsFloat) (hd' : d'.IsFloat) {k : ℕ}
    (hk : d'.exponent = d.exponent + k) (hless : k = 0 → d.mantissa < d'.mantissa) {q : ℚ}
    (h : (ofDyadic d).Holds q) : ¬(ofDyadic d').Holds q := by
  intro h'
  have hscale : (0 : ℚ) < 2 ^ (ofDyadic d).exponent := by positivity
  have hbegin : (ofDyadic d').low * (2 : ℚ) ^ (ofDyadic d').exponent =
      ((ofDyadic d').low * 2 ^ k : ℕ) * 2 ^ (ofDyadic d).exponent := by
    have hexponent : (ofDyadic d').exponent = k + (ofDyadic d).exponent := by
      simp only [ofDyadic]
      omega
    rw [hexponent, zpow_add₀ two_ne_zero, zpow_natCast]
    push_cast
    ring
  have hmeet := hbegin ▸ h'.low_le.trans h.le_high
  rw [mul_le_mul_iff_left₀ hscale, Nat.cast_le] at hmeet
  rcases high_le_low hd hd' hk hless with hlt | ⟨heq, hopen | hopen⟩
  · omega
  · have hend := (h.lt_of_open hopen).2
    rw [heq, ← hbegin] at hend
    exact absurd h'.low_le hend.not_ge
  · have hend := (h'.lt_of_open hopen).1
    rw [hbegin, ← heq] at hend
    exact absurd h.le_high hend.not_ge

/-- A number rounds to one float only. -/
theorem ofDyadic_unique {d d' : Dyadic} (hd : d.IsFloat) (hd' : d'.IsFloat) {q : ℚ}
    (h : (ofDyadic d).Holds q) (h' : (ofDyadic d').Holds q) : d = d' := by
  rcases lt_trichotomy d.exponent d'.exponent with hlt | heq | hgt
  · obtain ⟨k, hk⟩ := Int.le.dest hlt.le
    exact absurd h' (not_holds_of_less hd hd' hk.symm (by omega) h)
  · rcases lt_trichotomy d.mantissa d'.mantissa with hlt | hmantissa | hgt
    · exact absurd h' (not_holds_of_less hd hd' (k := 0) (by simp [heq]) (fun _ => hlt) h)
    · cases d
      cases d'
      exact Dyadic.mk.injEq _ _ _ _ ▸ ⟨hmantissa, heq⟩
    · exact absurd h (not_holds_of_less hd' hd (k := 0) (by simp [heq]) (fun _ => hgt) h')
  · obtain ⟨k, hk⟩ := Int.le.dest hgt.le
    exact absurd h (not_holds_of_less hd' hd hk.symm (by omega) h')

/-- Zero rounds to no float but zero. -/
theorem eq_zero_of_holds {d : Dyadic} (hd : d.IsFloat) (h : (ofDyadic d).Holds 0) :
    d = ⟨0, -1074⟩ := by
  have hzero : (ofDyadic ⟨0, -1074⟩).Holds 0 := by
    simpa [Dyadic.value] using holds_value ⟨0, -1074⟩
  exact ofDyadic_unique hd Dyadic.isFloat_zero h hzero

end Rounding

/-! ### The shortest decimal -/

/-- A number has a digit in the place of its leading one. -/
theorem pow_digitCount_le {n : ℕ} (h : n ≠ 0) : 10 ^ (digitCount n - 1) ≤ n := by
  by_contra hlt
  by_cases hone : digitCount n = 1
  · simp only [hone, Nat.sub_self, pow_zero] at hlt
    omega
  · have hpos : 0 < digitCount n := Nat.length_toDigits_pos
    have hle : digitCount n ≤ digitCount n - 1 :=
      (Nat.length_toDigits_le_iff (by norm_num) (by omega)).mpr (not_le.mp hlt)
    omega

/-- A number has no digit beyond its leading one. -/
theorem lt_pow_digitCount (n : ℕ) : n < 10 ^ digitCount n :=
  (Nat.length_toDigits_le_iff (by norm_num) Nat.length_toDigits_pos).mp le_rfl

/-- The leading exponent is not too large. -/
theorem Dyadic.pow_leadingExponent_le {d : Dyadic} (h : d.mantissa ≠ 0) :
    (10 : ℚ) ^ d.leadingExponent ≤ d.value := by
  have hdenominator : (0 : ℚ) < d.denominator := by exact_mod_cast d.denominator_pos
  have hnumerator : 0 < d.numerator := Nat.mul_pos (Nat.pos_of_ne_zero h) (Nat.two_pow_pos _)
  rw [← mul_le_mul_iff_left₀ hdenominator, value_mul_denominator, leadingExponent]
  split
  case isTrue hle =>
    have hquotient : d.numerator / d.denominator ≠ 0 :=
      (Nat.div_pos hle d.denominator_pos).ne'
    have hdigits : 0 < digitCount (d.numerator / d.denominator) := Nat.length_toDigits_pos
    have hpow : 10 ^ (digitCount (d.numerator / d.denominator) - 1) * d.denominator ≤
        d.numerator :=
      (Nat.mul_le_mul_right _ (pow_digitCount_le hquotient)).trans (Nat.div_mul_le_self _ _)
    rw [show (digitCount (d.numerator / d.denominator) : ℤ) - 1 =
      (digitCount (d.numerator / d.denominator) - 1 : ℕ) by omega, zpow_natCast]
    exact_mod_cast hpow
  case isFalse hlt =>
    have hpow : d.denominator - 1 <
        10 ^ digitCount ((d.denominator - 1) / d.numerator) * d.numerator :=
      Nat.lt_mul_of_div_lt (lt_pow_digitCount _) hnumerator
    have hle : d.denominator ≤
        10 ^ digitCount ((d.denominator - 1) / d.numerator) * d.numerator := by
      omega
    rw [zpow_neg, zpow_natCast, inv_mul_le_iff₀ (by positivity)]
    exact_mod_cast hle

/-- Seventeen digits are always enough. -/
theorem Rounding.onGrid?_isSome_last {d : Dyadic} (hd : d.IsFloat) (h : d.mantissa ≠ 0)
    (tie : Tie) : ((ofDyadic d).onGrid? tie (d.leadingExponent - (16 : ℕ))).isSome = true := by
  obtain ⟨hlow, hhigh⟩ := middle_lt d h
  refine onGrid?_isSome_of_fine tie hlow hhigh ?_
  have hlead := Dyadic.pow_leadingExponent_le h
  have hwide : ((ofDyadic d).middle : ℚ) <
      10 ^ 16 * ((ofDyadic d).high - (ofDyadic d).low) := by
    have := middle_lt_wide hd
    rw [mul_sub, lt_sub_iff_add_lt]
    exact_mod_cast this
  have hscale : (0 : ℚ) < 2 ^ (ofDyadic d).exponent := by positivity
  rw [zpow_sub₀ (by norm_num), div_lt_iff₀ (by positivity)]
  calc (10 : ℚ) ^ d.leadingExponent
      ≤ (ofDyadic d).middle * 2 ^ (ofDyadic d).exponent := by rwa [middle_eq]
    _ < 10 ^ 16 * ((ofDyadic d).high - (ofDyadic d).low) * 2 ^ (ofDyadic d).exponent := by gcongr
    _ = _ := by
      rw [zpow_natCast]
      ring

/-- The decimal that is written for a number rounds to this number. -/
theorem Decimal.shortest_holds {d : Dyadic} (hd : d.IsFloat) (h : d.mantissa ≠ 0) (tie : Tie) :
    (Rounding.ofDyadic d).Holds (shortest tie d).value := by
  rw [shortest, if_neg h, value_dropZeros]
  obtain ⟨k, n, -, hfirst, hn, -⟩ :=
    Rounding.firstHit_spec (Rounding.onGrid?_isSome_last hd h tie)
  rw [hfirst]
  exact Rounding.holds_of_onGrid? hn

end Lox
