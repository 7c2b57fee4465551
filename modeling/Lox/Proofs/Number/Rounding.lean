import Mathlib.Tactic.FieldSimp
import Lox.Proofs.Number

/-!
# Rounding to the nearest float

The arithmetic of floats rounds a result once. Division finds a quotient with bits enough, and
a round bit and a sticky bit say what it leaves. The significand is shifted to the exponent of
the result and rounded there to the nearest whole number. A number is rounded in this way to
the float in whose interval it is.
-/

namespace Lox

namespace Binary64

open Float.Model
open Float.Model.UnpackedFloat (ExtendedMantissa Accuracy Sign)

/-! ### Nearest whole numbers -/

/-- Nearest, and the even one of two equally near. -/
structure IsNearest (n : ℕ) (r : ℚ) : Prop where
  /-- The number is not below what the one before it would take. -/
  least : n - 1 / 2 ≤ r
  /-- The number is not above what the next one would take. -/
  greatest : r ≤ n + 1 / 2
  /-- An odd one takes no ties. -/
  tie : n % 2 = 1 → n - 1 / 2 < r ∧ r < n + 1 / 2

/-- A number that is closer than half a unit is the nearest one, and no tie has to be broken. -/
theorem IsNearest.of_lt {n : ℕ} {r : ℚ} (hless : n - 1 / 2 < r) (hgreater : r < n + 1 / 2) :
    IsNearest n r :=
  ⟨hless.le, hgreater.le, fun _ => ⟨hless, hgreater⟩⟩

/-- The interval of a float in units of its last place: half a unit to both sides, but a
quarter below a power of two. -/
theorem holds_of_isNearest {d : Dyadic} {r : ℚ} (h : IsNearest d.mantissa r) (hr : 0 ≤ r)
    (hbinade : d.mantissa = 2 ^ 52 → -1074 < d.exponent → d.mantissa - 1 / 4 ≤ r) :
    (Rounding.ofDyadic d).Holds (r * 2 ^ d.exponent) := by
  obtain ⟨hleast, hgreatest, htie⟩ := h
  have hscale : (0 : ℚ) < 2 ^ (Rounding.ofDyadic d).exponent := by positivity
  have hunit : r * 2 ^ d.exponent = 4 * r * 2 ^ (Rounding.ofDyadic d).exponent := by
    simp only [Rounding.ofDyadic]
    rw [zpow_sub₀ two_ne_zero]
    ring
  have hhigh : ((Rounding.ofDyadic d).high : ℚ) = 4 * d.mantissa + 2 := by
    simp [Rounding.ofDyadic]
  have hlow : (Rounding.ofDyadic d).low ≤ 4 * r ∧
      (d.mantissa % 2 = 1 → (Rounding.ofDyadic d).low < 4 * r) := by
    simp only [Rounding.ofDyadic, Nat.pow_eq]
    split_ifs with hbottom
    case pos =>
      have hcast : ((4 * d.mantissa - 1 : ℕ) : ℚ) = 4 * d.mantissa - 1 := by
        rw [Nat.cast_sub (by omega)]
        push_cast
        ring
      rw [hcast]
      have := hbinade hbottom.1 hbottom.2
      exact ⟨by linarith, fun hodd => absurd hodd (by omega)⟩
    case neg =>
      by_cases hzero : d.mantissa = 0
      · rw [hzero]
        exact ⟨by simpa using hr, by simp⟩
      · have hcast : ((4 * d.mantissa - 2 : ℕ) : ℚ) = 4 * d.mantissa - 2 := by
          rw [Nat.cast_sub (by omega)]
          push_cast
          ring
        rw [hcast]
        exact ⟨by linarith, fun hodd => by linarith [(htie hodd).1]⟩
  have hclosed : (Rounding.ofDyadic d).closed = decide (d.mantissa % 2 = 0) := rfl
  rw [hunit]
  unfold Rounding.Holds
  rw [hclosed, hhigh]
  split
  case isTrue => exact ⟨by gcongr; exact hlow.1, by gcongr; linarith⟩
  case isFalse hodd =>
    have hodd' : d.mantissa % 2 = 1 := by simpa using hodd
    exact ⟨by gcongr; exact hlow.2 hodd', by gcongr; linarith [(htie hodd').2]⟩

/-! ### Significands with a round bit and a sticky bit -/

/-- What a significand with its round bit and its sticky bit stands for: the round bit is
half a unit, and the sticky bit is set where something less than that is left. -/
def StandsFor (em : ExtendedMantissa) (r : ℚ) : Prop :=
  ∃ rest : ℚ, 0 ≤ rest ∧ rest < 1 / 2 ∧ (em.stickyBit = true ↔ 0 < rest) ∧
    r = em.mantissa + em.roundBit.toNat / 2 + rest

namespace StandsFor

variable {em : ExtendedMantissa} {r : ℚ}

/-- The last bit of the significand becomes the round bit, and the round bit is left over. -/
theorem shiftRightOne (h : StandsFor em r) : StandsFor em.shiftRightOne (r / 2) := by
  obtain ⟨rest, hnonneg, hless, hsticky, rfl⟩ := h
  obtain ⟨mantissa, roundBit, stickyBit⟩ := em
  have hbit : (mantissa % 2 != 0).toNat = mantissa % 2 := by
    rcases Nat.mod_two_eq_zero_or_one mantissa with h | h <;> simp [h]
  have hdivide : (mantissa : ℚ) = 2 * (mantissa / 2 : ℕ) + (mantissa % 2 : ℕ) := by
    exact_mod_cast (Nat.div_add_mod mantissa 2).symm
  have hround : (roundBit.toNat : ℚ) ≤ 1 := by exact_mod_cast roundBit.toNat_le
  refine ⟨(roundBit.toNat / 2 + rest) / 2, by positivity, by linarith, ?_, ?_⟩
  · dsimp only [ExtendedMantissa.shiftRightOne] at hsticky ⊢
    rw [Bool.or_eq_true, hsticky]
    cases roundBit with
    | false => simp
    | true =>
      simp only [true_or, Bool.toNat_true, true_iff]
      positivity
  · dsimp only [ExtendedMantissa.shiftRightOne]
    rw [hbit, hdivide]
    ring

/-- Shifting by several bits is shifting by one bit again and again. -/
theorem shiftRight (h : StandsFor em r) (n : ℕ) : StandsFor (em >>> n) (r / 2 ^ n) := by
  change StandsFor (Nat.repeat ExtendedMantissa.shiftRightOne n em) _
  induction n with
  | zero => simpa [Nat.repeat] using h
  | succ n ih =>
    rw [Nat.repeat, pow_succ, ← div_div]
    exact ih.shiftRightOne

/-- Rounding goes to the nearest whole number, and to the even one of two. -/
theorem roundedMantissa (h : StandsFor em r) : IsNearest em.roundedMantissa r := by
  obtain ⟨rest, hnonneg, hless, hsticky, rfl⟩ := h
  obtain ⟨mantissa, roundBit, stickyBit⟩ := em
  have hrest : stickyBit = false → rest = 0 := fun hbit => by
    rw [hbit] at hsticky
    exact le_antisymm (not_lt.mp fun hpos => absurd (hsticky.mpr hpos) Bool.false_ne_true) hnonneg
  cases roundBit <;> cases stickyBit <;>
    simp only [ExtendedMantissa.roundedMantissa, ExtendedMantissa.accuracy,
      Accuracy.roundToNearestEven, Bool.toNat_false, Bool.toNat_true, Nat.cast_zero, Nat.cast_one,
      zero_div, add_zero, true_iff] at hsticky hrest ⊢
  case false.false =>
    rw [hrest trivial]
    exact .of_lt (by linarith) (by linarith)
  case false.true => exact .of_lt (by linarith) (by linarith)
  case true.false =>
    -- The tie: the significand goes up exactly when it is odd.
    rw [hrest trivial]
    have hparity : ((mantissa % 2 : ℕ) : ℚ) ≤ 1 := by exact_mod_cast (by omega)
    refine ⟨?_, ?_, fun hodd => by omega⟩ <;> push_cast <;> linarith
  case true.true =>
    refine .of_lt ?_ ?_ <;> push_cast <;> linarith

/-- A significand stands for a number that it does not exceed, and that is less than one
unit greater. -/
theorem mantissa_le (h : StandsFor em r) : em.mantissa ≤ r ∧ r < em.mantissa + 1 := by
  obtain ⟨rest, hnonneg, hless, -, rfl⟩ := h
  have hround : (em.roundBit.toNat : ℚ) ≤ 1 := by exact_mod_cast em.roundBit.toNat_le
  have hbit : (0 : ℚ) ≤ em.roundBit.toNat := Nat.cast_nonneg _
  constructor <;> linarith

end StandsFor

/-! ### Rounding a significand -/

/-- The float with the given significand, which rounding may have made one bit too long. -/
def carried (n : ℕ) (e : ℤ) : Dyadic := if n = 2 ^ 53 then ⟨2 ^ 52, e + 1⟩ else ⟨n, e⟩

section Carried

variable {n : ℕ} {e : ℤ} {r : ℚ}

/-- A rounded significand gives a float, also where it is one bit too long. -/
theorem carried_isFloat (h : IsNearest n r) (hn : n ≤ 2 ^ 53) (he : -1074 ≤ e)
    (hleading : e = -1074 ∨ 2 ^ 52 ≤ r) : (carried n e).IsFloat := by
  unfold carried
  split
  case isTrue => exact ⟨by norm_num, by dsimp only; omega, .inr le_rfl⟩
  case isFalse hcarry =>
    refine ⟨by dsimp only; omega, he, hleading.imp_right fun hr => ?_⟩
    have hgreatest := h.greatest
    have hpast : ((2 ^ 52 : ℕ) : ℚ) < (n + 1 : ℕ) := by
      push_cast
      linarith
    exact Nat.lt_succ_iff.mp (Nat.cast_lt.mp hpast)

/-- What is rounded to a significand lies in the interval of the float that it gives. -/
theorem holds_carried (h : IsNearest n r) (hr : 0 ≤ r) (hleading : e = -1074 ∨ 2 ^ 52 ≤ r) :
    (Rounding.ofDyadic (carried n e)).Holds (r * 2 ^ e) := by
  unfold carried
  split
  case isTrue hcarry =>
    have hscale : r * 2 ^ e = r / 2 * 2 ^ (e + 1) := by
      rw [zpow_add_one₀ two_ne_zero]
      ring
    have hhalf : (n : ℚ) = 2 * (2 ^ 52 : ℕ) := by
      rw [hcarry]
      norm_num
    obtain ⟨hleast, hgreatest, -⟩ := h
    rw [hhalf] at hleast hgreatest
    rw [hscale]
    refine holds_of_isNearest (d := ⟨2 ^ 52, e + 1⟩)
      ⟨by linarith, by linarith, fun hodd => ?_⟩ (by linarith) fun _ _ => by linarith
    norm_num at hodd
  case isFalse hcarry =>
    refine holds_of_isNearest (d := ⟨n, e⟩) h hr fun hbottom habove => ?_
    have hr' := hleading.resolve_left habove.ne'
    dsimp only at hbottom
    rw [hbottom]
    push_cast
    linarith

end Carried

/-- The unpacked form of a float. -/
def unpacked (s : Sign) (d : Dyadic) : UnpackedFloat :=
  if h : d.mantissa = 0 then .zero s else .finite s d.mantissa d.exponent (Nat.pos_of_ne_zero h)

/-- The exponent at which a number is rounded leaves 53 bits, unless it is the least one. -/
theorem targetExponent_eq (t : ℤ) :
    Format.binary64.targetExponent t = max (t - 53) (-1074) := rfl

/-- A number below the bound has no bit beyond the last one. -/
theorem log2_lt_53 {n : ℕ} (h : n < 2 ^ 53) : n.log2 < 53 := by
  by_cases hzero : n = 0
  · rw [hzero]
    decide
  · exact (Nat.log2_lt hzero).mpr h

/-- A rounded significand is shifted again where it has become one bit too long. -/
theorem shiftToTargetExponent_rounded {n : ℕ} {e : ℤ} (hn : n ≤ 2 ^ 53) (he : -1074 ≤ e) :
    (UnpackedFloat.shiftToTargetExponent Format.binary64 n e .exact).1.mantissa =
        (carried n e).mantissa ∧
      (UnpackedFloat.shiftToTargetExponent Format.binary64 n e .exact).2 =
        (carried n e).exponent := by
  simp only [UnpackedFloat.shiftToTargetExponent, UnpackedFloat.shiftToExponent, totalExponent,
    targetExponent_eq]
  unfold carried
  split
  case isTrue hcarry =>
    have hamount : (max ((n.log2 : ℤ) + 1 + e - 53) (-1074) - e).toNat = 1 := by
      rw [hcarry, Nat.log2_two_pow]
      omega
    rw [hamount, hcarry]
    exact ⟨rfl, rfl⟩
  case isFalse hcarry =>
    have hlog := log2_lt_53 (lt_of_le_of_ne hn hcarry)
    have hamount : (max ((n.log2 : ℤ) + 1 + e - 53) (-1074) - e).toNat = 0 := by omega
    rw [hamount]
    exact ⟨rfl, add_zero e⟩

/-- The significand is put into its extended form as it is. -/
@[simp] theorem mantissa_ofMantissaAndAccuracy (m : ℕ) (accuracy : Accuracy) :
    (ExtendedMantissa.ofMantissaAndAccuracy m accuracy).mantissa = m := by
  unfold ExtendedMantissa.ofMantissaAndAccuracy
  split <;> rfl

/-- In units of the exponent at which it is rounded, a number has at most 53 bits, and it has
as many unless the exponent is the least one. -/
theorem rounded_bits {m k : ℕ} {e : ℤ} {q : ℚ}
    (hk : e + k = max ((m.log2 : ℤ) + 1 + e - 53) (-1074)) (hless : m * 2 ^ e ≤ q)
    (hmore : q < (m + 1) * 2 ^ e) :
    q / 2 ^ (e + k) < 2 ^ 53 ∧ (e + k = -1074 ∨ 2 ^ 52 ≤ q / 2 ^ (e + k)) := by
  have hunit : (0 : ℚ) < 2 ^ (e + k) := by positivity
  rw [div_lt_iff₀ hunit, le_div_iff₀ hunit]
  constructor
  · have hm : ((m + 1 : ℕ) : ℚ) ≤ (2 ^ (m.log2 + 1) : ℕ) := Nat.cast_le.mpr Nat.lt_log2_self
    push_cast at hm
    calc q < (m + 1) * 2 ^ e := hmore
      _ ≤ 2 ^ (m.log2 + 1) * 2 ^ e := by gcongr
      _ ≤ 2 ^ 53 * 2 ^ (e + k) := by
        rw [← zpow_natCast, ← zpow_natCast, ← zpow_add₀ two_ne_zero, ← zpow_add₀ two_ne_zero]
        exact zpow_le_zpow_right₀ one_le_two (by push_cast; omega)
  · refine or_iff_not_imp_left.mpr fun habove => ?_
    have hlog : m.log2 = 52 + k := by omega
    have hzero : m ≠ 0 := by
      rintro rfl
      rw [Nat.log2_zero] at hlog
      omega
    have hm : ((2 ^ m.log2 : ℕ) : ℚ) ≤ m := Nat.cast_le.mpr (Nat.log2_self_le hzero)
    rw [hlog] at hm
    push_cast at hm
    calc (2 : ℚ) ^ 52 * 2 ^ (e + k) = 2 ^ (52 + k) * 2 ^ e := by
          rw [zpow_add₀ two_ne_zero, zpow_natCast]
          ring
      _ ≤ m * 2 ^ e := by gcongr
      _ ≤ q := hless

/-- Rounding a significand that has bits enough gives the float in whose interval the number
is. -/
theorem roundWithAccuracy_eq {m : ℕ} {e : ℤ} {accuracy : Accuracy} {q : ℚ} {d : Dyadic}
    (h : StandsFor (.ofMantissaAndAccuracy m accuracy) (q / 2 ^ e))
    (hfine : e ≤ Format.binary64.targetExponent (totalExponent m e)) (hd : d.IsFloat)
    (hq : (Rounding.ofDyadic d).Holds q) (s : Sign) :
    UnpackedFloat.roundWithAccuracy Format.binary64 s m e accuracy = unpacked s d := by
  rw [targetExponent_eq, totalExponent] at hfine
  obtain ⟨k, hk⟩ := Int.le.dest hfine
  have hunit : (0 : ℚ) < 2 ^ e := by positivity
  have hunit' : (0 : ℚ) < 2 ^ (e + k) := by positivity
  obtain ⟨hless, hmore⟩ := h.mantissa_le
  rw [mantissa_ofMantissaAndAccuracy, le_div_iff₀ hunit] at hless
  rw [mantissa_ofMantissaAndAccuracy, div_lt_iff₀ hunit] at hmore
  obtain ⟨hsmall, hleading⟩ := rounded_bits hk hless hmore
  have hnonneg : 0 ≤ q / 2 ^ (e + k) := div_nonneg (le_trans (by positivity) hless) hunit'.le
  have hnearest := (h.shiftRight k).roundedMantissa
  rw [div_div, ← zpow_natCast, ← zpow_add₀ two_ne_zero] at hnearest
  have hfirst : UnpackedFloat.shiftToTargetExponent Format.binary64 m e accuracy =
      (ExtendedMantissa.ofMantissaAndAccuracy m accuracy >>> k, e + k) := by
    have hamount : (max ((m.log2 : ℤ) + 1 + e - 53) (-1074) - e).toNat = k := by omega
    simp only [UnpackedFloat.shiftToTargetExponent, UnpackedFloat.shiftToExponent, totalExponent,
      targetExponent_eq, hamount]
  unfold UnpackedFloat.roundWithAccuracy
  rw [hfirst]
  dsimp only
  generalize (ExtendedMantissa.ofMantissaAndAccuracy m accuracy >>> k).roundedMantissa = n at *
  have hn : n ≤ 2 ^ 53 := by
    have hleast := hnearest.least
    have hpast : (n : ℚ) < (2 ^ 53 + 1 : ℕ) := by
      push_cast
      linarith
    exact Nat.lt_succ_iff.mp (Nat.cast_lt.mp hpast)
  have he : -1074 ≤ e + k := by omega
  have hholds := holds_carried (e := e + k) hnearest hnonneg hleading
  rw [div_mul_cancel₀ q hunit'.ne'] at hholds
  have hsame : d = carried n (e + k) :=
    Rounding.ofDyadic_unique hd (carried_isFloat hnearest hn he hleading) hq hholds
  obtain ⟨hmantissa, hexponent⟩ := shiftToTargetExponent_rounded hn he
  rw [hsame]
  exact congrArg₂ (fun m e => unpacked s ⟨m, e⟩) hmantissa hexponent

/-! ### Division and multiplication -/

/-- A significand without a remainder stands for itself. -/
theorem standsFor_exact (m : ℕ) : StandsFor (.ofMantissaAndAccuracy m .exact) m :=
  ⟨0, le_rfl, by norm_num, by simp [ExtendedMantissa.ofMantissaAndAccuracy],
    by simp [ExtendedMantissa.ofMantissaAndAccuracy]⟩

/-- The remainder of a division tells what is left after the quotient. -/
theorem standsFor_quotient (a : ℕ) {b : ℕ} (hb : 0 < b) :
    StandsFor (.ofMantissaAndAccuracy (a / b) (UnpackedFloat.accuracyOfFraction (a % b) b))
      (a / b) := by
  have hpos : (0 : ℚ) < b := Nat.cast_pos.mpr hb
  have hremainder : ((a % b : ℕ) : ℚ) < b := Nat.cast_lt.mpr (Nat.mod_lt a hb)
  have hsplit : (a : ℚ) / b = (a / b : ℕ) + (a % b : ℕ) / b := by
    rw [div_eq_iff hpos.ne', add_mul, div_mul_cancel₀ _ hpos.ne']
    exact_mod_cast (Nat.div_add_mod' a b).symm
  rw [hsplit]
  unfold UnpackedFloat.accuracyOfFraction
  split
  case isTrue hzero =>
    rw [hzero, Nat.cast_zero, zero_div, add_zero]
    exact standsFor_exact _
  case isFalse hsome =>
    have hsome : (0 : ℚ) < (a % b : ℕ) := Nat.cast_pos.mpr (Nat.pos_of_ne_zero hsome)
    have hpart : 0 < ((a % b : ℕ) : ℚ) / b := div_pos hsome hpos
    have hwhole : ((a % b : ℕ) : ℚ) / b < 1 := (div_lt_one hpos).mpr hremainder
    cases horder : compare (2 * (a % b)) b with
    | lt =>
      have hhalf : ((2 * (a % b) : ℕ) : ℚ) < b := Nat.cast_lt.mpr (Nat.compare_eq_lt.mp horder)
      push_cast at hhalf
      refine ⟨(a % b : ℕ) / b, hpart.le, ?_, ?_, ?_⟩
      · rw [div_lt_iff₀ hpos]
        linarith
      · simpa [ExtendedMantissa.ofMantissaAndAccuracy] using hpart
      · simp [ExtendedMantissa.ofMantissaAndAccuracy]
    | eq =>
      have hhalf : ((2 * (a % b) : ℕ) : ℚ) = b := by rw [Nat.compare_eq_eq.mp horder]
      push_cast at hhalf
      refine ⟨0, le_rfl, by norm_num, ?_, ?_⟩
      · simp [ExtendedMantissa.ofMantissaAndAccuracy]
      · have heq : ((a % b : ℕ) : ℚ) / b = 1 / 2 := by
          rw [div_eq_iff hpos.ne']
          linarith
        simp [ExtendedMantissa.ofMantissaAndAccuracy, heq]
    | gt =>
      have hhalf : (b : ℚ) < (2 * (a % b) : ℕ) := Nat.cast_lt.mpr (Nat.compare_eq_gt.mp horder)
      push_cast at hhalf
      have hmore : 1 / 2 < ((a % b : ℕ) : ℚ) / b := by
        rw [lt_div_iff₀ hpos]
        linarith
      refine ⟨(a % b : ℕ) / b - 1 / 2, by linarith, by linarith, ?_, ?_⟩
      · simpa [ExtendedMantissa.ofMantissaAndAccuracy] using hmore
      · simp [ExtendedMantissa.ofMantissaAndAccuracy]

/-- A quotient is taken with enough bits to be rounded. -/
theorem quotient_bits {m₁ m₂ : ℕ} {e t : ℤ} {shift : ℕ} (h₁ : m₁ ≠ 0) (h₂ : 0 < m₂)
    (hshift : e = t + shift)
    (ht : t ≤ max ((m₁.log2 : ℤ) - m₂.log2 + e - 53) (-1074)) :
    t ≤ Format.binary64.targetExponent (totalExponent ((m₁ <<< shift) / m₂) t) := by
  rw [targetExponent_eq, totalExponent]
  rcases le_max_iff.mp ht with hbits | hleast
  · have hexponents : m₂.log2 + 53 ≤ m₁.log2 + shift := by omega
    have hquotient : 2 ^ 52 ≤ (m₁ <<< shift) / m₂ := by
      rw [Nat.le_div_iff_mul_le h₂, Nat.shiftLeft_eq]
      calc 2 ^ 52 * m₂ ≤ 2 ^ 52 * 2 ^ (m₂.log2 + 1) := Nat.mul_le_mul_left _ Nat.lt_log2_self.le
        _ = 2 ^ (m₂.log2 + 53) := by ring
        _ ≤ 2 ^ (m₁.log2 + shift) := Nat.pow_le_pow_right (by norm_num) hexponents
        _ = 2 ^ m₁.log2 * 2 ^ shift := pow_add ..
        _ ≤ m₁ * 2 ^ shift := Nat.mul_le_mul_right _ (Nat.log2_self_le h₁)
    have hlog : 52 ≤ ((m₁ <<< shift) / m₂).log2 :=
      (Nat.le_log2 (by omega)).mpr hquotient
    omega
  · exact le_max_of_le_right hleast

/-- Two finite numbers are divided by rounding a quotient together with how exact it is. -/
theorem div_finite (f : Format) (s₁ s₂ : Sign) {m₁ m₂ : ℕ} (e₁ e₂ : ℤ) (h₁ : 0 < m₁)
    (h₂ : 0 < m₂) :
    UnpackedFloat.div f (.finite s₁ m₁ e₁ h₁) (.finite s₂ m₂ e₂ h₂) =
      UnpackedFloat.roundWithAccuracy f (s₁ / s₂) (UnpackedFloat.divCore f m₁ e₁ m₂ e₂).1
        (UnpackedFloat.divCore f m₁ e₁ m₂ e₂).2.1 (UnpackedFloat.divCore f m₁ e₁ m₂ e₂).2.2 :=
  rfl

/-- Division gives the float in whose interval the quotient is. -/
theorem div_eq {m₁ m₂ : ℕ} {e₁ e₂ : ℤ} (h₁ : 0 < m₁) (h₂ : 0 < m₂) {d : Dyadic} (hd : d.IsFloat)
    (hq : (Rounding.ofDyadic d).Holds (m₁ * 2 ^ e₁ / (m₂ * 2 ^ e₂))) :
    UnpackedFloat.div Format.binary64 (.finite .positive m₁ e₁ h₁) (.finite .positive m₂ e₂ h₂) =
      unpacked .positive d := by
  rw [div_finite]
  simp only [UnpackedFloat.divCore, targetExponent_eq, totalExponent]
  generalize ht : min (e₁ - e₂) (max (_ - 53) (-1074)) = t
  obtain ⟨shift, hshift⟩ := Int.le.dest (show t ≤ e₁ - e₂ by omega)
  have hamount : (e₁ - e₂ - t).toNat = shift := by omega
  rw [hamount]
  refine roundWithAccuracy_eq ?_ (quotient_bits h₁.ne' h₂ hshift.symm (by omega)) hd hq .positive
  have hunits : (m₁ * 2 ^ e₁ / (m₂ * 2 ^ e₂) / 2 ^ t : ℚ) = (m₁ <<< shift : ℕ) / m₂ := by
    have hexponent : (2 : ℚ) ^ e₁ = 2 ^ e₂ * 2 ^ t * 2 ^ shift := by
      rw [← zpow_natCast, ← zpow_add₀ two_ne_zero, ← zpow_add₀ two_ne_zero]
      congr 1
      omega
    rw [Nat.shiftLeft_eq, hexponent]
    push_cast
    field_simp
  rw [hunits]
  exact standsFor_quotient _ h₂

/-- Two finite numbers are multiplied by rounding their exact product. -/
theorem mul_finite (f : Format) (s₁ s₂ : Sign) {m₁ m₂ : ℕ} (e₁ e₂ : ℤ) (h₁ : 0 < m₁)
    (h₂ : 0 < m₂) :
    UnpackedFloat.mul f (.finite s₁ m₁ e₁ h₁) (.finite s₂ m₂ e₂ h₂) =
      UnpackedFloat.roundWithAccuracy f (s₁ * s₂) (m₁ * m₂) (e₁ + e₂) .exact :=
  rfl

/-- A whole number is multiplied by one, with zeros behind it so that it has bits enough. -/
theorem mul_one_eq {m : ℕ} (h₁ : 0 < m <<< 53) (h₂ : 0 < 1) {d : Dyadic} (hd : d.IsFloat)
    (hq : (Rounding.ofDyadic d).Holds m) :
    UnpackedFloat.mul Format.binary64 (.finite .positive (m <<< 53) (-53) h₁)
      (.finite .positive 1 0 h₂) = unpacked .positive d := by
  have hunits : (m : ℚ) / (2 : ℚ) ^ (-53 + 0 : ℤ) = (m <<< 53 : ℕ) := by
    rw [Nat.shiftLeft_eq, add_zero, zpow_neg, div_inv_eq_mul]
    push_cast
    rfl
  have hlong : 53 ≤ (m <<< 53).log2 := by
    rw [Nat.le_log2 h₁.ne', Nat.shiftLeft_eq]
    exact Nat.le_mul_of_pos_left _ (Nat.shiftLeft_pos_iff.mp h₁)
  rw [mul_finite, mul_one]
  refine roundWithAccuracy_eq ?_ ?_ hd hq .positive
  · rw [hunits]
    exact standsFor_exact _
  · rw [targetExponent_eq, totalExponent]
    omega

end Binary64

end Lox
