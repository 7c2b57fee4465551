import Mathlib
import Lox.Proofs.Number.Rounding
import Lox.Token.Scan

/-!
# Digits that are read as the nearest float

The digits of a number literal are read as the float in whose interval the decimal is that they
write. What is read is a quotient of a whole number and a power of ten. Where both are floats,
their values are divided; otherwise both are taken as whole numbers, which is exact at once. A
division rounds once, so in both cases the quotient is rounded to the nearest float.

The library's lemmas on the bits of floats come with the whole of Mathlib only, which is why
this module imports all of it.
-/

namespace Lox

namespace Binary64

open Float.Model
open Float.Model.UnpackedFloat (Sign)

/-! ### Bits -/

/-- The fraction that the fields of a finite float denote. -/
def ofFields (exponent mantissa : ℕ) : Dyadic :=
  if exponent = 0 then ⟨mantissa, -1074⟩ else ⟨2 ^ 52 + mantissa, exponent - 1075⟩

/-- The unpacked form of a finite float is that of the fraction that its fields denote. -/
theorem unpack_of_fields (b : BitVec 64)
    (h : (@UnpackedFloat.unpackExponent Format.binary64 b).toNat ≠ 2047) :
    UnpackedFloat.unpack Format.binary64 b =
      unpacked (Sign.ofBitVec (@UnpackedFloat.unpackSign Format.binary64 b))
        (ofFields (@UnpackedFloat.unpackExponent Format.binary64 b).toNat
          (@UnpackedFloat.unpackMantissa Format.binary64 b).toNat) := by
  have hlast : @UnpackedFloat.unpackExponent Format.binary64 b ≠ -1#11 := fun heq =>
    h (heq ▸ rfl)
  fun_cases UnpackedFloat.unpack with
  | case1 _ _ _ _ heq => exact absurd heq hlast
  | case2 _ _ heq => exact absurd heq hlast
  | case3 mantissa exponent sign _ _ hleast hzero =>
    change _ = unpacked (Sign.ofBitVec sign) (ofFields exponent.toNat mantissa.toNat)
    rw [hleast, hzero]
    rfl
  | case4 mantissa exponent e sign _ _ hleast hsome =>
    have hmantissa : mantissa.toNat ≠ 0 := fun heq => hsome (BitVec.eq_of_toNat_eq heq)
    have he : e + 1 = -1074 := by
      dsimp only [e]
      rw [hleast]
      rfl
    have hfields : ofFields exponent.toNat mantissa.toNat = ⟨mantissa.toNat, -1074⟩ := by
      rw [hleast]
      rfl
    change _ = unpacked (Sign.ofBitVec sign) (ofFields exponent.toNat mantissa.toNat)
    simp only [hfields, unpacked, dif_neg hmantissa, he]
    rfl
  | case5 mantissa exponent e sign _ _ habove =>
    have hexponent : exponent.toNat ≠ 0 := fun heq => habove (BitVec.eq_of_toNat_eq heq)
    have hmantissa : (1#1 ++ mantissa).toNat = 2 ^ 52 + mantissa.toNat := by
      rw [BitVec.toNat_append, ← Nat.shiftLeft_add_eq_or_of_lt mantissa.isLt]
      rfl
    have hsome : 2 ^ 52 + mantissa.toNat ≠ 0 := (Nat.add_pos_left (Nat.two_pow_pos 52) _).ne'
    have he : e = exponent.toNat - 1075 := rfl
    change _ = unpacked (Sign.ofBitVec sign) (ofFields exponent.toNat mantissa.toNat)
    simp only [ofFields, if_neg hexponent, unpacked, dif_neg hsome, hmantissa, he]
    rfl

/-- The unpacked form of a float whose sign bit is clear. -/
theorem unpack_eq {x : Float} {d : Dyadic} (h : magnitude x = .finite d)
    (hsign : signBit x = false) : x.toModel.unpack = unpacked .positive d := by
  generalize hb : x.toModel.toBits.toBitVec = b
  have hnat : b.toNat = x.toBits.toNat := hb ▸ rfl
  have hexponent : (@UnpackedFloat.unpackExponent Format.binary64 b).toNat =
      x.toBits.toNat / 2 ^ 52 % 2 ^ 11 := by
    rw [UnpackedFloat.unpackExponent_def, BitVec.extractLsb'_toNat, Nat.shiftRight_eq_div_pow,
      hnat]
  have hmantissa : (@UnpackedFloat.unpackMantissa Format.binary64 b).toNat =
      x.toBits.toNat % 2 ^ 52 := by
    rw [UnpackedFloat.unpackMantissa_def, BitVec.extractLsb'_toNat, Nat.shiftRight_zero, hnat]
  have hpositive : @UnpackedFloat.unpackSign Format.binary64 b = 0#1 := by
    simp only [signBit, Nat.pow_eq, decide_eq_false_iff_not, not_le] at hsign
    have hzero : x.toBits.toNat / 2 ^ 63 % 2 ^ 1 = 0 := by
      rw [Nat.div_eq_of_lt hsign]
      rfl
    apply BitVec.eq_of_toNat_eq
    rw [UnpackedFloat.unpackSign_def, BitVec.extractLsb'_toNat, Nat.shiftRight_eq_div_pow, hnat]
    exact hzero
  have hfinite : x.toBits.toNat / 2 ^ 52 % 2 ^ 11 ≠ 2047 := by
    intro hfield
    simp only [magnitude, Nat.pow_eq, hfield, if_true] at h
    split at h <;> cases h
  rw [Float.Model.unpack, hb, unpack_of_fields b (by rwa [hexponent]), hexponent, hmantissa,
    hpositive]
  rcases bits_of_magnitude h with ⟨hleast, rfl⟩ | ⟨habove, rfl⟩
  · rw [ofFields, if_pos hleast]
    rfl
  · rw [ofFields, if_neg habove]
    rfl

/-- Fields that are packed are unpacked to the fraction that they denote. -/
theorem unpack_packComponents (s : Sign) {exponent : BitVec Format.binary64.exponentBits}
    (mantissa : BitVec Format.binary64.mantissaBitsWithoutImplicit) (h : exponent.toNat ≠ 2047) :
    UnpackedFloat.unpack Format.binary64
        (UnpackedFloat.packComponents Format.binary64 s exponent mantissa) =
      unpacked s (ofFields exponent.toNat mantissa.toNat) := by
  have hexponent := @UnpackedFloat.unpackExponent_packComponents Format.binary64 s exponent mantissa
  rw [unpack_of_fields _ (by rwa [hexponent]), hexponent,
    UnpackedFloat.unpackMantissa_packComponents, UnpackedFloat.unpackSign_packComponents,
    Sign.ofBitVec_toBitVec]

/-- How the fields are chosen: only a significand with all its bits has an exponent field. -/
theorem unpack_pack_fields (s : Sign) {mantissa : ℕ} {exponent : ℤ} (hzero : mantissa ≠ 0)
    (hmax : exponent ≤ 971) :
    (Float.Model.pack (unpacked s ⟨mantissa, exponent⟩)).unpack =
      UnpackedFloat.unpack Format.binary64 (if mantissa.log2 + 1 = 53 then
        UnpackedFloat.packComponents Format.binary64 s (BitVec.ofNat 11 (exponent + 1075).toNat)
          (BitVec.ofNat 52 mantissa)
        else UnpackedFloat.packComponents Format.binary64 s 0#11 (BitVec.ofNat 52 mantissa)) := by
  have hbits : (exponent + Format.binary64.exponentBias +
      Format.binary64.mantissaBitsWithoutImplicit).toNat = (exponent + 1075).toNat := by
    congr 1
    exact add_assoc exponent 1023 52
  have hfinite : ¬2 ^ Format.binary64.exponentBits ≤ (exponent + 1075).toNat + 1 := by
    change ¬2048 ≤ (exponent + 1075).toNat + 1
    omega
  simp only [unpacked, dif_neg hzero, Float.Model.pack, Float.Model.unpack, UnpackedFloat.pack,
    hbits, if_neg hfinite]
  rfl

/-- A float in range is found again in its bits. -/
theorem unpack_pack {d : Dyadic} (hd : d.IsFloat) (hmax : d.exponent ≤ 971) (s : Sign) :
    (Float.Model.pack (unpacked s d)).unpack = unpacked s d := by
  obtain ⟨mantissa, exponent⟩ := d
  obtain ⟨hsmall, hleast, hleading⟩ := hd
  dsimp only at hsmall hleast hleading hmax
  by_cases hzero : mantissa = 0
  case pos =>
    simp only [unpacked, dif_pos hzero]
    exact UnpackedFloat.unpack_packedZero
  case neg =>
    rw [unpack_pack_fields s hzero hmax]
    split
    case isTrue hnormal =>
      have hlead : 2 ^ 52 ≤ mantissa := (Nat.le_log2 hzero).mp (by omega)
      have hexponent : (BitVec.ofNat 11 (exponent + 1075).toNat).toNat =
          (exponent + 1075).toNat := by
        rw [BitVec.toNat_ofNat]
        omega
      have hmantissa : (BitVec.ofNat 52 mantissa).toNat = mantissa - 2 ^ 52 := by
        rw [BitVec.toNat_ofNat]
        omega
      have hfields : ofFields (exponent + 1075).toNat (mantissa - 2 ^ 52) =
          ⟨mantissa, exponent⟩ := by
        rw [ofFields, if_neg (by omega), Nat.add_sub_cancel' hlead,
          Int.toNat_of_nonneg (by omega), add_sub_cancel_right]
      rw [unpack_packComponents _ _ (by omega), hexponent, hmantissa, hfields]
    case isFalse hsubnormal =>
      have hlow : mantissa < 2 ^ 52 := (Nat.log2_lt hzero).mp (by have := log2_lt_53 hsmall; omega)
      have hexponent : exponent = -1074 := hleading.resolve_right (by omega)
      have hmantissa : (BitVec.ofNat 52 mantissa).toNat = mantissa := by
        rw [BitVec.toNat_ofNat, Nat.mod_eq_of_lt hlow]
      rw [unpack_packComponents _ _ (by decide), hmantissa, hexponent]
      rfl

/-- A float is found again in its unpacked form. -/
theorem ofModel_pack {x : Float} {d : Dyadic} (h : magnitude x = .finite d)
    (hsign : signBit x = false) : Float.ofModel (Float.Model.pack (unpacked .positive d)) = x := by
  rw [← unpack_eq h hsign]
  apply Float.toBits_inj.mp
  exact UInt64.toBitVec_inj.mp (UnpackedFloat.pack_unpack_of_valid x.toModel.valid)

/-! ### Reading digits -/

/-- The float of a whole number of up to 53 bits. -/
def ofWhole (n : ℕ) : Dyadic :=
  if n = 0 then ⟨0, -1074⟩ else ⟨n * 2 ^ (52 - n.log2), n.log2 - 52⟩

/-- A whole number that is shifted up to 53 bits has its leading bit there. -/
theorem pow_le_shifted {n : ℕ} (hzero : n ≠ 0) (h : n < 2 ^ 53) :
    2 ^ 52 ≤ n * 2 ^ (52 - n.log2) := by
  have hlog := log2_lt_53 h
  calc 2 ^ 52 = 2 ^ n.log2 * 2 ^ (52 - n.log2) := by rw [← pow_add]; congr 1; omega
    _ ≤ n * 2 ^ (52 - n.log2) := Nat.mul_le_mul_right _ (Nat.log2_self_le hzero)

/-- A whole number of up to 53 bits is the value of its float. -/
theorem ofWhole_spec {n : ℕ} (h : n < 2 ^ 53) :
    (ofWhole n).IsFloat ∧ (ofWhole n).value = n ∧ (ofWhole n).exponent ≤ 0 := by
  unfold ofWhole
  split
  case isTrue hzero =>
    subst hzero
    exact ⟨Dyadic.isFloat_zero, by simp [Dyadic.value], by norm_num⟩
  case isFalse hzero =>
    have hlog := log2_lt_53 h
    have hhigh : n * 2 ^ (52 - n.log2) < 2 ^ 53 := by
      calc n * 2 ^ (52 - n.log2) < 2 ^ (n.log2 + 1) * 2 ^ (52 - n.log2) :=
            Nat.mul_lt_mul_of_pos_right Nat.lt_log2_self (Nat.two_pow_pos _)
        _ = 2 ^ 53 := by rw [← pow_add]; congr 1; omega
    refine ⟨⟨hhigh, by dsimp only; omega, .inr (pow_le_shifted hzero h)⟩, ?_, by dsimp only; omega⟩
    rw [Dyadic.value]
    dsimp only
    push_cast
    rw [mul_assoc, ← zpow_natCast, ← zpow_add₀ two_ne_zero,
      show ((52 - n.log2 : ℕ) : ℤ) + (n.log2 - 52) = 0 by omega, zpow_zero, mul_one]

/-- A whole number of up to 53 bits is converted without rounding. -/
theorem ofNat_eq {n : ℕ} (h : n < 2 ^ 53) :
    UnpackedFloat.ofNat Format.binary64 n = unpacked .positive (ofWhole n) := by
  by_cases hzero : n = 0
  case pos =>
    subst hzero
    rfl
  case neg =>
    obtain ⟨hfloat, hvalue, -⟩ := ofWhole_spec h
    have hlog := log2_lt_53 h
    have hpositive : compare (n : ℤ) 0 = .gt := Int.compare_eq_gt.mpr (by omega)
    have htarget : Format.binary64.targetExponent (totalExponent n 0) = n.log2 - 52 := by
      rw [targetExponent_eq, totalExponent]
      omega
    have hamount : (0 - ((n.log2 : ℤ) - 52)).toNat = 52 - n.log2 := by omega
    have hexponent : (0 : ℤ) - (52 - n.log2 : ℕ) = n.log2 - 52 := by omega
    simp only [UnpackedFloat.ofNat, UnpackedFloat.ofInt, UnpackedFloat.normalize, hpositive,
      Int.toNat_natCast, UnpackedFloat.round, htarget, UnpackedFloat.decreaseExponent, hamount,
      hexponent]
    have hunits : (n : ℚ) / 2 ^ ((n.log2 : ℤ) - 52) = (n <<< (52 - n.log2) : ℕ) := by
      rw [← hvalue, ofWhole, if_neg hzero, Dyadic.value, Nat.shiftLeft_eq,
        mul_div_cancel_right₀ _ (by positivity)]
    have hholds := Rounding.holds_value (ofWhole n)
    rw [hvalue] at hholds
    refine roundWithAccuracy_eq ?_ ?_ hfloat hholds .positive
    · rw [hunits]
      exact standsFor_exact _
    · have hbits : 52 ≤ (n <<< (52 - n.log2)).log2 := by
        rw [Nat.le_log2 (by rw [Nat.shiftLeft_eq]; positivity), Nat.shiftLeft_eq]
        exact pow_le_shifted hzero h
      rw [targetExponent_eq, totalExponent]
      omega

/-- Whole numbers of up to 53 bits are exact. -/
theorem unpack_toFloat {n : ℕ} (h : n < 2 ^ 53) :
    n.toUInt64.toFloat.toModel.unpack = unpacked .positive (ofWhole n) := by
  obtain ⟨hfloat, -, hexponent⟩ := ofWhole_spec h
  have hword : n.toUInt64.toNat = n := UInt64.toNat_ofNat_of_lt' (h.trans (by decide))
  change (Float.Model.pack (UnpackedFloat.ofNat Format.binary64 n.toUInt64.toNat)).unpack = _
  rw [hword, ofNat_eq h, unpack_pack hfloat (by omega)]

/-- The powers of ten that are floats: the factors two of ten only change the exponent. -/
theorem magnitude_powerOfTen (k : Fin 23) :
    signBit Float.exactlyRepresentablePowersOfTen[k] = false ∧
      ∃ d, magnitude Float.exactlyRepresentablePowersOfTen[k] = .finite d ∧
        d.value = 10 ^ k.val := by
  have hread : ∀ k : Fin 23, signBit Float.exactlyRepresentablePowersOfTen[k] = false ∧
      magnitude Float.exactlyRepresentablePowersOfTen[k] =
        .finite ⟨(ofWhole (5 ^ k.val)).mantissa, (ofWhole (5 ^ k.val)).exponent + k.val⟩ := by
    decide +kernel
  have hsmall : 5 ^ k.val < 2 ^ 53 :=
    (Nat.pow_le_pow_right (by norm_num) (Nat.le_of_lt_succ k.isLt)).trans_lt (by norm_num)
  obtain ⟨hsign, hmagnitude⟩ := hread k
  refine ⟨hsign, _, hmagnitude, ?_⟩
  calc Dyadic.value ⟨(ofWhole (5 ^ k.val)).mantissa, (ofWhole (5 ^ k.val)).exponent + k.val⟩
      = (ofWhole (5 ^ k.val)).value * 2 ^ k.val := by
        rw [Dyadic.value, Dyadic.value, zpow_add₀ two_ne_zero, zpow_natCast, mul_assoc]
    _ = 5 ^ k.val * 2 ^ k.val := by
        rw [(ofWhole_spec hsmall).2.1]
        push_cast
        rfl
    _ = 10 ^ k.val := by
        rw [← mul_pow]
        norm_num

/-- Division of floats, the first of which may be zero. -/
theorem div_unpacked {a b d : Dyadic} (hb : b.value ≠ 0) (hd : d.IsFloat)
    (hq : (Rounding.ofDyadic d).Holds (a.value / b.value)) :
    UnpackedFloat.div Format.binary64 (unpacked .positive a) (unpacked .positive b) =
      unpacked .positive d := by
  have hb' : b.mantissa ≠ 0 := fun h => hb (by rw [Dyadic.value, h, Nat.cast_zero, zero_mul])
  by_cases ha : a.mantissa = 0
  case pos =>
    rw [Dyadic.value, ha, Nat.cast_zero, zero_mul, zero_div] at hq
    rw [Rounding.eq_zero_of_holds hd hq]
    simp only [unpacked, dif_pos ha, dif_neg hb']
    rfl
  case neg =>
    simp only [unpacked, dif_neg ha, dif_neg hb']
    exact div_eq _ _ hd hq

/-- A number too small for any float but zero. -/
theorem holds_zero_of_small {m k : ℕ} (h : 2 ^ 11 + m.log2 < k) :
    (Rounding.ofDyadic ⟨0, -1074⟩).Holds (m / 10 ^ k) := by
  have hm : (m : ℚ) ≤ 2 ^ (m.log2 + 1) := by exact_mod_cast Nat.lt_log2_self.le
  have hten : (2 : ℚ) ^ k ≤ 10 ^ k := pow_le_pow_left₀ (by norm_num) (by norm_num) k
  have hbits : (2 : ℚ) ^ (m.log2 + 1) ≤ 2 ^ (-1075 : ℤ) * 2 ^ k := by
    rw [← zpow_natCast, ← zpow_natCast, ← zpow_add₀ two_ne_zero]
    exact zpow_le_zpow_right₀ one_le_two (by push_cast; omega)
  have hsmall : (m : ℚ) / 10 ^ k ≤ 2 ^ (-1075 : ℤ) := by
    rw [div_le_iff₀ (by positivity)]
    calc (m : ℚ) ≤ 2 ^ (m.log2 + 1) := hm
      _ ≤ 2 ^ (-1075 : ℤ) * 2 ^ k := hbits
      _ ≤ 2 ^ (-1075 : ℤ) * 10 ^ k := by gcongr
  have hscale : (m : ℚ) / 10 ^ k = m / 10 ^ k / 2 ^ (-1074 : ℤ) * 2 ^ (-1074 : ℤ) :=
    (div_mul_cancel₀ _ (by positivity)).symm
  have hhalf : (m : ℚ) / 10 ^ k / 2 ^ (-1074 : ℤ) ≤ 1 / 2 := by
    rw [div_le_iff₀ (by positivity)]
    refine hsmall.trans_eq ?_
    rw [show (-1075 : ℤ) = -1 + -1074 by rfl, zpow_add₀ two_ne_zero, zpow_neg_one, one_div]
  rw [hscale]
  refine holds_of_isNearest (d := ⟨0, -1074⟩) ⟨?_, by simpa using hhalf, by simp⟩
    (by positivity) (by simp)
  have hnonneg : (0 : ℚ) ≤ m / 10 ^ k / 2 ^ (-1074 : ℤ) := by positivity
  rw [Nat.cast_zero]
  linarith

/-- Both operands as whole numbers: one of them is one, or the number is too small, or they
are divided. -/
theorem unpacked_ofScientific {m k : ℕ} {d : Dyadic} (hd : d.IsFloat)
    (hq : (Rounding.ofDyadic d).Holds (m / 10 ^ k)) :
    UnpackedFloat.ofScientific Format.binary64 m (Int.negOfNat k) = unpacked .positive d := by
  have hlength : Format.binary64.mantissaBits = 53 := rfl
  simp only [UnpackedFloat.ofScientific, Int.negOfNat_eq, Int.ofNat_eq_natCast, hlength]
  split
  case isTrue hm =>
    rw [hm, Nat.cast_zero, zero_div] at hq
    rw [Rounding.eq_zero_of_holds hd hq]
    rfl
  case isFalse hm =>
    have hpower : (0 : ℤ) < 2 ^ Format.binary64.exponentBits := by positivity
    rw [if_neg (by omega)]
    split
    case isTrue hsmall =>
      have hk : 2 ^ 11 + m.log2 < k := by
        rw [← Int.ofNat_lt]
        push_cast
        change -(k : ℤ) < -(2 ^ 11 + m.log2) at hsmall
        omega
      rw [Rounding.ofDyadic_unique hd Dyadic.isFloat_zero hq (holds_zero_of_small hk)]
      rfl
    case isFalse =>
      split
      case isTrue hwhole =>
        obtain rfl : k = 0 := by omega
        exact mul_one_eq _ _ hd (by simpa using hq)
      case isFalse => exact div_eq _ _ hd (by simpa using hq)

/-- The float in whose interval a decimal is. -/
theorem ofScientific_eq {m k : ℕ} {x : Float} {d : Dyadic} (hx : magnitude x = .finite d)
    (hsign : signBit x = false) (hq : (Rounding.ofDyadic d).Holds (m / 10 ^ k)) :
    Float.ofScientific m true k = x := by
  have hd := isFloat_of_magnitude hx
  rw [← ofModel_pack hx hsign]
  unfold Float.ofScientific
  split
  case isTrue hfast =>
    obtain ⟨hten, p, hp, hvalue⟩ := magnitude_powerOfTen ⟨k, by omega⟩
    have hq' : (Rounding.ofDyadic d).Holds ((ofWhole m).value / p.value) := by
      rw [(ofWhole_spec hfast.1).2.1, hvalue]
      exact hq
    have hdiv := div_unpacked (by rw [hvalue]; positivity) hd hq'
    rw [← unpack_toFloat hfast.1, ← unpack_eq hp hten] at hdiv
    exact congrArg (fun u => Float.ofModel (Float.Model.pack u)) hdiv
  case isFalse =>
    dsimp only
    rw [if_pos rfl, Float.Model.ofScientific, unpacked_ofScientific hd hq]

end Binary64

/-- Digits are read as the float to which the decimal that they write rounds. -/
theorem numberOfDigits_eq {whole fraction : List Char} {x : Float} {d : Dyadic}
    (hx : magnitude x = .finite d) (hsign : signBit x = false)
    (hq : (Rounding.ofDyadic d).Holds
      (Decimal.value ⟨Nat.ofDigitChars 10 (whole ++ fraction) 0, -fraction.length⟩)) :
    numberOfDigits whole fraction = x := by
  rw [Decimal.value, zpow_neg, zpow_natCast, ← div_eq_mul_inv] at hq
  exact Binary64.ofScientific_eq hx hsign hq

end Lox
