import Lox.Proofs.Number

/-!
# The shortest decimal of a float

Of all decimals that round to a float, the one that is written has the fewest digits, and of
those the nearest value. A decimal of so many digits is on the grid on which so many digits are
tried, unless it is below the leading power of ten of the float, and then this power of ten is
on the grid and nearer. So the first grid that has a point inside the interval has a shortest
decimal, and the point that is taken there is the nearest.

The intervals of different floats are in the order of the floats. So the shortest decimal is
below a bound exactly when the float is, if the bound is the shortest decimal of some float
that is not below it.
-/

namespace Lox

/-! ### Grids -/

/-- The leading exponent is not too small. -/
theorem Dyadic.lt_pow_leadingExponent {d : Dyadic} (h : d.mantissa ≠ 0) :
    d.value < (10 : ℚ) ^ (d.leadingExponent + 1) := by
  have hdenominator : (0 : ℚ) < d.denominator := by exact_mod_cast d.denominator_pos
  have hnumerator : 0 < d.numerator := Nat.mul_pos (Nat.pos_of_ne_zero h) (Nat.two_pow_pos _)
  rw [← mul_lt_mul_iff_left₀ hdenominator, value_mul_denominator, leadingExponent]
  split
  case isTrue =>
    have hpow : d.numerator < 10 ^ digitCount (d.numerator / d.denominator) * d.denominator :=
      Nat.lt_mul_of_div_lt (lt_pow_digitCount _) d.denominator_pos
    rw [sub_add_cancel, zpow_natCast]
    exact_mod_cast hpow
  case isFalse hless =>
    have hquotient : (d.denominator - 1) / d.numerator ≠ 0 :=
      (Nat.div_pos (by omega) hnumerator).ne'
    have hdigits : 0 < digitCount ((d.denominator - 1) / d.numerator) := Nat.length_toDigits_pos
    have hpow : 10 ^ (digitCount ((d.denominator - 1) / d.numerator) - 1) * d.numerator <
        d.denominator := by
      have hle := Nat.mul_le_mul_right d.numerator (pow_digitCount_le hquotient)
      have hdivide := Nat.div_mul_le_self (d.denominator - 1) d.numerator
      omega
    rw [show -(digitCount ((d.denominator - 1) / d.numerator) : ℤ) + 1 =
      -(digitCount ((d.denominator - 1) / d.numerator) - 1 : ℕ) by omega, zpow_neg, zpow_natCast,
      lt_inv_mul_iff₀ (by positivity)]
    exact_mod_cast hpow

namespace Rounding

variable {r : Rounding}

/-- Intervals have no gaps. -/
theorem Holds.between {p q s : ℚ} (hp : r.Holds p) (hs : r.Holds s) (hpq : p ≤ q) (hqs : q ≤ s) :
    r.Holds q := by
  unfold Holds at *
  split at hp
  case isTrue hclosed =>
    rw [if_pos hclosed] at hs ⊢
    exact ⟨hp.1.trans hpq, hqs.trans hs.2⟩
  case isFalse hopen =>
    rw [if_neg hopen] at hs ⊢
    exact ⟨hp.1.trans_le hpq, hqs.trans_lt hs.2⟩

/-- The value that the interval is around. -/
def center (r : Rounding) : ℚ := r.middle * 2 ^ r.exponent

section Grid

variable {tie : Tie} {step : ℤ} {n c : ℕ}

/-- One step on the grid adds its width. -/
theorem value_succ (n : ℕ) (step : ℤ) :
    Decimal.value ⟨n + 1, step⟩ = Decimal.value ⟨n, step⟩ + 10 ^ step := by
  simp only [Decimal.value]
  push_cast
  ring

/-- Values are in the order of the grid points. -/
theorem value_mono (h : n ≤ c) : Decimal.value ⟨n, step⟩ ≤ Decimal.value ⟨c, step⟩ := by
  have hcast : (n : ℚ) ≤ c := Nat.cast_le.mpr h
  simp only [Decimal.value]
  gcongr

/-- What lies between the grid point below the value and the value, on the common scale. -/
theorem remainder_eq (r : Rounding) (step : ℤ) :
    ((r.ofBinary step r.middle % r.ofGrid step 1 : ℕ) : ℚ) =
      (r.center - Decimal.value ⟨r.below step, step⟩) * r.unit step := by
  have hgrid : r.ofGrid step (r.below step) = r.below step * r.ofGrid step 1 := by
    simp [ofGrid, mul_assoc]
  have hdivide := Nat.div_add_mod' (r.ofBinary step r.middle) (r.ofGrid step 1)
  rw [← below, ← hgrid] at hdivide
  have hcast : (r.ofGrid step (r.below step) : ℚ) +
      (r.ofBinary step r.middle % r.ofGrid step 1 : ℕ) = r.ofBinary step r.middle := by
    exact_mod_cast hdivide
  rw [sub_mul, center, ← ofBinary_eq, ← ofGrid_eq]
  linarith

/-- What is left over the grid point below decides by half a step. -/
theorem nearerAbove_remainder (r : Rounding) (tie : Tie) (step : ℤ) :
    (r.nearerAbove tie step = true →
        r.ofGrid step 1 ≤ 2 * (r.ofBinary step r.middle % r.ofGrid step 1)) ∧
      (r.nearerAbove tie step = false →
        2 * (r.ofBinary step r.middle % r.ofGrid step 1) ≤ r.ofGrid step 1) := by
  unfold nearerAbove
  dsimp only
  cases horder : compare (2 * (r.ofBinary step r.middle % r.ofGrid step 1)) (r.ofGrid step 1) with
  | lt => exact ⟨nofun, fun _ => (Nat.compare_eq_lt.mp horder).le⟩
  | gt => exact ⟨fun _ => (Nat.compare_eq_gt.mp horder).le, nofun⟩
  | eq =>
    have heq := Nat.compare_eq_eq.mp horder
    exact ⟨fun _ => heq.ge, fun _ => heq.le⟩

/-- Of the two grid points around the value the nearer one is chosen. -/
theorem nearerAbove_spec (r : Rounding) (tie : Tie) (step : ℤ) :
    if r.nearerAbove tie step then
      Decimal.value ⟨r.below step + 1, step⟩ - r.center ≤
        r.center - Decimal.value ⟨r.below step, step⟩
    else r.center - Decimal.value ⟨r.below step, step⟩ ≤
      Decimal.value ⟨r.below step + 1, step⟩ - r.center := by
  have hunit := r.unit_pos step
  have hremainder := r.remainder_eq step
  have hwidth : (r.ofGrid step 1 : ℚ) = 10 ^ step * r.unit step := by
    rw [ofGrid_eq, Decimal.value, Nat.cast_one, one_mul]
  obtain ⟨hfar, hnear⟩ := r.nearerAbove_remainder tie step
  rw [value_succ]
  split
  case isTrue habove =>
    have hcast : (r.ofGrid step 1 : ℚ) ≤
        2 * (r.ofBinary step r.middle % r.ofGrid step 1 : ℕ) := by
      exact_mod_cast hfar habove
    rw [hremainder, hwidth, ← mul_assoc] at hcast
    linarith [le_of_mul_le_mul_right hcast hunit]
  case isFalse hbelow =>
    have hcast : 2 * ((r.ofBinary step r.middle % r.ofGrid step 1 : ℕ) : ℚ) ≤
        r.ofGrid step 1 := by
      exact_mod_cast hnear (Bool.eq_false_iff.mpr hbelow)
    rw [hremainder, hwidth, ← mul_assoc] at hcast
    linarith [le_of_mul_le_mul_right hcast hunit]

/-- Of the grid points next to the value, the nearest one inside is written. -/
theorem onGrid?_chosen (hn : r.onGrid? tie step = some n) :
    (r.contains step (r.below step) = true →
        |Decimal.value ⟨n, step⟩ - r.center| ≤
          r.center - Decimal.value ⟨r.below step, step⟩) ∧
      (r.contains step (r.below step + 1) = true →
        |Decimal.value ⟨n, step⟩ - r.center| ≤
          Decimal.value ⟨r.below step + 1, step⟩ - r.center) := by
  have hnearer := r.nearerAbove_spec tie step
  obtain ⟨hbelow, habove⟩ : Decimal.value ⟨r.below step, step⟩ ≤ r.center ∧
    r.center < Decimal.value ⟨r.below step + 1, step⟩ := r.below_spec step
  have hdown : |Decimal.value ⟨r.below step, step⟩ - r.center| =
      r.center - Decimal.value ⟨r.below step, step⟩ := by
    rw [abs_sub_comm, abs_of_nonneg (sub_nonneg.mpr hbelow)]
  have hup : |Decimal.value ⟨r.below step + 1, step⟩ - r.center| =
      Decimal.value ⟨r.below step + 1, step⟩ - r.center :=
    abs_of_nonneg (sub_nonneg.mpr habove.le)
  unfold onGrid? at hn
  dsimp only at hn
  split at hn
  case h_1 =>
    by_cases hchoice : r.nearerAbove tie step = true
    · rw [if_pos hchoice] at hn hnearer
      cases hn
      rw [hup]
      exact ⟨fun _ => hnearer, fun _ => le_rfl⟩
    · rw [if_neg hchoice] at hn hnearer
      cases hn
      rw [hdown]
      exact ⟨fun _ => le_rfl, fun _ => hnearer⟩
  case h_2 hin hout =>
    cases hn
    rw [hdown, hout]
    exact ⟨fun _ => le_rfl, nofun⟩
  case h_3 hout hin =>
    cases hn
    rw [hup, hout]
    exact ⟨nofun, fun _ => le_rfl⟩
  case h_4 => cases hn

/-- Where a grid has a point inside the interval, one of its points is written, and that one
is as near to the value as any. -/
theorem onGrid?_nearest (tie : Tie) (hcenter : r.Holds r.center)
    (hc : r.Holds (Decimal.value ⟨c, step⟩)) :
    ∃ n, r.onGrid? tie step = some n ∧
      |Decimal.value ⟨n, step⟩ - r.center| ≤ |Decimal.value ⟨c, step⟩ - r.center| := by
  obtain ⟨hbelow, habove⟩ : Decimal.value ⟨r.below step, step⟩ ≤ r.center ∧
    r.center < Decimal.value ⟨r.below step + 1, step⟩ := r.below_spec step
  rcases Nat.lt_or_ge (r.below step) c with hlt | hge
  case inl =>
    have hle : Decimal.value ⟨r.below step + 1, step⟩ ≤ Decimal.value ⟨c, step⟩ := value_mono hlt
    have hin : r.contains step (r.below step + 1) = true :=
      (contains_iff ..).mpr (hcenter.between hc habove.le hle)
    obtain ⟨n, hn⟩ := Option.isSome_iff_exists.mp (onGrid?_isSome tie (.inr hin))
    refine ⟨n, hn, ((onGrid?_chosen hn).2 hin).trans ?_⟩
    exact le_abs.mpr (.inl (by linarith))
  case inr =>
    have hle : Decimal.value ⟨c, step⟩ ≤ Decimal.value ⟨r.below step, step⟩ := value_mono hge
    have hin : r.contains step (r.below step) = true :=
      (contains_iff ..).mpr (hc.between hcenter hle hbelow)
    obtain ⟨n, hn⟩ := Option.isSome_iff_exists.mp (onGrid?_isSome tie (.inl hin))
    refine ⟨n, hn, ((onGrid?_chosen hn).1 hin).trans ?_⟩
    exact le_abs.mpr (.inr (by linarith))

end Grid

end Rounding

/-! ### Digits -/

/-- A number below a power of ten has no more digits than the exponent says. -/
theorem digitCount_le {n k : ℕ} (hk : 0 < k) (h : n < 10 ^ k) : digitCount n ≤ k :=
  (Nat.length_toDigits_le_iff (by norm_num) hk).mpr h

/-- Dropping zeros makes no digits. -/
theorem Decimal.digitCount_dropZeros_le (n : ℕ) (d : Decimal) :
    digitCount (dropZeros n d).coefficient ≤ digitCount d.coefficient := by
  induction n generalizing d with
  | zero => exact le_rfl
  | succ n ih =>
    rw [dropZeros]
    split
    case isTrue =>
      refine (ih _).trans (digitCount_le Nat.length_toDigits_pos ?_)
      exact (Nat.div_le_self _ _).trans_lt (lt_pow_digitCount _)
    case isFalse => exact le_rfl

/-- All zeros of a power of ten are dropped. -/
theorem Decimal.dropZeros_pow {n k : ℕ} (h : k ≤ n) (exponent : ℤ) :
    (dropZeros n ⟨10 ^ k, exponent⟩).coefficient = 1 := by
  induction n generalizing k exponent with
  | zero =>
    obtain rfl : k = 0 := by omega
    rfl
  | succ n ih =>
    rw [dropZeros]
    cases k with
    | zero => rfl
    | succ k =>
      have hdivide : 10 ^ (k + 1) / 10 = 10 ^ k := by
        rw [pow_succ, Nat.mul_div_cancel _ (by norm_num)]
      rw [if_pos ⟨by positivity, by rw [pow_succ, Nat.mul_mod_left]⟩]
      dsimp only
      rw [hdivide]
      exact ih (by omega) _

/-- At most that many digits are left when the zeros at the end are dropped. -/
theorem Decimal.digitCount_dropZeros_of_le {n k : ℕ} (hk : k ≤ 17) (hpos : 0 < k) (h : n ≤ 10 ^ k)
    (exponent : ℤ) : digitCount (dropZeros 17 ⟨n, exponent⟩).coefficient ≤ k := by
  rcases h.lt_or_eq with hlt | rfl
  · exact (digitCount_dropZeros_le 17 _).trans (digitCount_le hpos hlt)
  · rw [dropZeros_pow hk]
    exact hpos

/-- The digits of a decimal say between which powers of ten it lies. -/
theorem Decimal.pow_le_value {t : Decimal} (h : t.coefficient ≠ 0) :
    (10 : ℚ) ^ (t.exponent + (digitCount t.coefficient - 1 : ℕ)) ≤ t.value := by
  have hcast : ((10 ^ (digitCount t.coefficient - 1) : ℕ) : ℚ) ≤ t.coefficient :=
    Nat.cast_le.mpr (pow_digitCount_le h)
  push_cast at hcast
  rw [value, zpow_add₀ (by norm_num), zpow_natCast, mul_comm]
  gcongr

/-- A decimal is less than the power of ten above its leading digit. -/
theorem Decimal.value_lt_pow (t : Decimal) :
    t.value < (10 : ℚ) ^ (t.exponent + digitCount t.coefficient) := by
  have hcast : (t.coefficient : ℚ) < (10 ^ digitCount t.coefficient : ℕ) :=
    Nat.cast_lt.mpr (lt_pow_digitCount _)
  push_cast at hcast
  rw [value, zpow_add₀ (by norm_num), zpow_natCast, mul_comm ((10 : ℚ) ^ t.exponent)]
  gcongr

/-! ### The shortest decimal -/

/-- A decimal is the shortest for a float if it rounds to the float, no decimal of fewer
digits does, and of those with as many digits none is nearer to the float. -/
structure Decimal.IsShortest (d : Dyadic) (s : Decimal) : Prop where
  /-- It rounds to the float. -/
  rounds : (Rounding.ofDyadic d).Holds s.value
  /-- Nothing that rounds to the float has fewer digits. -/
  fewest : ∀ t : Decimal, (Rounding.ofDyadic d).Holds t.value →
    digitCount s.coefficient ≤ digitCount t.coefficient
  /-- Nothing with as many digits that rounds to the float is nearer to it. -/
  nearest : ∀ t : Decimal, (Rounding.ofDyadic d).Holds t.value →
    digitCount t.coefficient = digitCount s.coefficient → |s.value - d.value| ≤ |t.value - d.value|

/-- A decimal with at most that many digits is on the grid, or a power of ten that is on the
grid is nearer. -/
theorem exists_onGrid {d : Dyadic} (h : d.mantissa ≠ 0) {t : Decimal} {k : ℕ}
    (ht : (Rounding.ofDyadic d).Holds t.value) (hk : digitCount t.coefficient ≤ k + 1) :
    ∃ c : ℕ, (Rounding.ofDyadic d).Holds (Decimal.value ⟨c, d.leadingExponent - k⟩) ∧
      |Decimal.value ⟨c, d.leadingExponent - k⟩ - d.value| ≤ |t.value - d.value| := by
  have hpower := Dyadic.pow_leadingExponent_le h
  rcases lt_or_ge t.value ((10 : ℚ) ^ d.leadingExponent) with hless | hmore
  case inl =>
    have hvalue : Decimal.value ⟨10 ^ k, d.leadingExponent - k⟩ = 10 ^ d.leadingExponent := by
      rw [Decimal.value, Nat.cast_pow, Nat.cast_ofNat, ← zpow_natCast, ← zpow_add₀ (by norm_num)]
      congr 1
      dsimp only
      omega
    refine ⟨10 ^ k, ?_, ?_⟩
    · rw [hvalue]
      exact ht.between (Rounding.holds_value d) hless.le hpower
    · rw [hvalue, abs_sub_comm, abs_of_nonneg (sub_nonneg.mpr hpower)]
      exact le_abs.mpr (.inr (by linarith))
  case inr =>
    have hexponent : d.leadingExponent - k ≤ t.exponent := by
      have hlt := hmore.trans_lt t.value_lt_pow
      rw [zpow_lt_zpow_iff_right₀ (by norm_num)] at hlt
      omega
    obtain ⟨j, hj⟩ := Int.le.dest hexponent
    have hvalue : Decimal.value ⟨t.coefficient * 10 ^ j, d.leadingExponent - k⟩ = t.value := by
      rw [Decimal.value, Decimal.value, Nat.cast_mul, Nat.cast_pow, Nat.cast_ofNat, ← hj,
        zpow_add₀ (by norm_num), zpow_natCast]
      ring
    exact ⟨t.coefficient * 10 ^ j, by rwa [hvalue], by rw [hvalue]⟩

/-- A grid point that is chosen is the one below the value or the next one. -/
theorem Rounding.le_below_succ {r : Rounding} {tie : Tie} {step : ℤ} {n : ℕ}
    (h : r.onGrid? tie step = some n) : n ≤ r.below step + 1 := by
  grind [onGrid?]

/-- The interval of a float is around its value. -/
theorem Rounding.center_eq (d : Dyadic) : (ofDyadic d).center = d.value := middle_eq d

/-- Points of the grids are not longer than the grids are fine. -/
theorem below_lt_pow {d : Dyadic} (h : d.mantissa ≠ 0) (k : ℕ) :
    (Rounding.ofDyadic d).below (d.leadingExponent - k) < 10 ^ (k + 1) := by
  have hbelow := ((Rounding.ofDyadic d).below_spec (d.leadingExponent - k)).1
  rw [Rounding.middle_eq, Decimal.value] at hbelow
  have hless := hbelow.trans_lt (Dyadic.lt_pow_leadingExponent h)
  have hsplit : (10 : ℚ) ^ (d.leadingExponent + 1) =
      10 ^ (k + 1) * 10 ^ (d.leadingExponent - k) := by
    rw [← zpow_natCast, ← zpow_add₀ (by norm_num)]
    congr 1
    push_cast
    ring
  rw [hsplit, mul_lt_mul_iff_left₀ (by positivity)] at hless
  exact_mod_cast hless

/-- What is written for a float is its shortest decimal. -/
theorem Decimal.isShortest_shortest {d : Dyadic} (hd : d.IsFloat) (tie : Tie) :
    IsShortest d (shortest tie d) := by
  by_cases h : d.mantissa = 0
  case pos =>
    have hshortest : shortest tie d = ⟨0, 0⟩ := if_pos h
    have hvalue : Decimal.value ⟨0, 0⟩ = d.value := by
      rw [value, Dyadic.value, h, Nat.cast_zero, zero_mul, zero_mul]
    rw [hshortest]
    refine ⟨?_, fun t _ => Nat.length_toDigits_pos, fun t _ _ => ?_⟩
    · rw [hvalue]
      exact Rounding.holds_value d
    · rw [hvalue, sub_self, abs_zero]
      exact abs_nonneg _
  case neg =>
    have hcenter : (Rounding.ofDyadic d).Holds (Rounding.ofDyadic d).center := by
      rw [Rounding.center_eq]
      exact Rounding.holds_value d
    obtain ⟨k, n, hk, hfirst, hn, hbefore⟩ :=
      Rounding.firstHit_spec (Rounding.onGrid?_isSome_last hd h tie)
    have hcount : digitCount (shortest tie d).coefficient ≤ k + 1 := by
      rw [shortest, if_neg h, hfirst]
      refine digitCount_dropZeros_of_le (by omega) (by omega) ?_ _
      exact (Rounding.le_below_succ hn).trans (below_lt_pow h k)
    have hvalue : (shortest tie d).value = Decimal.value ⟨n, d.leadingExponent - k⟩ := by
      rw [shortest, if_neg h, value_dropZeros, hfirst]
    refine ⟨shortest_holds hd h tie, fun t ht => ?_, fun t ht hdigits => ?_⟩
    · -- With fewer digits there would have been a hit on an earlier grid.
      by_contra hfewer
      have hpos : 0 < digitCount t.coefficient := Nat.length_toDigits_pos
      obtain ⟨c, hc, -⟩ := exists_onGrid h ht (k := k - 1) (by omega)
      obtain ⟨n', hn', -⟩ := Rounding.onGrid?_nearest tie hcenter hc
      have hnone := hbefore (k - 1) (by omega)
      rw [hnone] at hn'
      cases hn'
    · obtain ⟨c, hc, hnear⟩ := exists_onGrid h ht (k := k) (by omega)
      obtain ⟨n', hn', hnearest⟩ := Rounding.onGrid?_nearest tie hcenter hc
      obtain rfl : n = n' := Option.some.inj (hn.symm.trans hn')
      rw [Rounding.center_eq] at hnearest
      rw [hvalue]
      exact hnearest.trans hnear

/-! ### Bounds -/

/-- The intervals of different floats are one after the other. -/
theorem Rounding.lt_of_holds {d f : Dyadic} (hd : d.IsFloat) (hf : f.IsFloat) (hne : d ≠ f)
    {p p' q q' : ℚ} (hp : (ofDyadic d).Holds p) (hp' : (ofDyadic d).Holds p')
    (hq : (ofDyadic f).Holds q) (hq' : (ofDyadic f).Holds q') (h : p < q) : p' < q' := by
  by_contra hback
  rcases le_or_gt q' p with hle | hlt
  · exact hne (ofDyadic_unique hd hf hp (hq'.between hq hle h.le))
  · exact hne (ofDyadic_unique hd hf (hp.between hp' hlt.le (not_lt.mp hback)) hq')

/-- A float is below a bound exactly when its shortest decimal is. -/
theorem Decimal.shortest_lt_iff {f : Dyadic} {bound : ℚ} {tie : Tie} (hf : f.IsFloat)
    (hbound : (shortest tie f).value = bound) (hle : bound ≤ f.value) {d : Dyadic}
    (hd : d.IsFloat) : (shortest tie d).value < bound ↔ d.value < bound := by
  by_cases hsame : d = f
  case pos =>
    rw [hsame, hbound]
    exact iff_of_false (lt_irrefl _) hle.not_gt
  case neg =>
    have hholds : (Rounding.ofDyadic f).Holds bound :=
      hbound ▸ (isShortest_shortest hf tie).rounds
    have hshortest := (isShortest_shortest hd tie).rounds
    have hvalue := Rounding.holds_value d
    exact ⟨Rounding.lt_of_holds hd hf hsame hshortest hvalue hholds hholds,
      Rounding.lt_of_holds hd hf hsame hvalue hshortest hholds hholds⟩

end Lox
