import Guarded.Number.Binary
import Mathlib.Data.Int.Log
import Mathlib.Data.Nat.Log
import Mathlib.Data.Rat.Floor
import Mathlib.Tactic.FieldSimp
import Mathlib.Tactic.Positivity

/-!
Rounding leaves alone what a format can hold. A finite value of a format is `m · 2 ^ q` in one way
only, the canonical one, and its bits follow from `m` and `q`. Rounding a ratio equal to such a value
gives just these bits, so a value that passes through a wider format comes back unchanged.

The first part ties the bits of a number to the value it was built from.
-/

namespace Guarded.Number

section Packing

open Float.Model Float.Model.UnpackedFloat

variable {spec : Float.Model.Format}

theorem mantissa_toNat (b : BitVec spec.numBits) :
    (unpackMantissa b).toNat = b.toNat % 2 ^ spec.mantissaBitsWithoutImplicit := by
  have := spec.hm
  simp only [unpackMantissa, BitVec.toNat_cast, BitVec.extractLsb_toNat]
  rw [Nat.shiftRight_zero]
  congr 2
  omega

theorem exponent_toNat (b : BitVec spec.numBits) :
    (unpackExponent b).toNat =
      b.toNat / 2 ^ spec.mantissaBitsWithoutImplicit % 2 ^ spec.exponentBits := by
  have := spec.he
  simp only [unpackExponent, BitVec.toNat_cast, BitVec.extractLsb_toNat, Nat.shiftRight_eq_div_pow]
  congr 2
  omega

theorem sign_toNat (b : BitVec spec.numBits) :
    (Sign.ofBitVec (unpackSign b)).toBitVec.toNat =
      b.toNat / 2 ^ (spec.mantissaBitsWithoutImplicit + spec.exponentBits) := by
  have bound : b.toNat / 2 ^ (spec.mantissaBitsWithoutImplicit + spec.exponentBits) < 2 := by
    rw [Nat.div_lt_iff_lt_mul (by positivity), ← pow_succ']
    exact b.isLt.trans_eq (congrArg _ (by simp only [Float.Model.Format.numBits]; omega))
  have value : (unpackSign b).toNat =
      b.toNat / 2 ^ (spec.mantissaBitsWithoutImplicit + spec.exponentBits) := by
    delta unpackSign
    simp only [BitVec.toNat_cast, BitVec.extractLsb_toNat, Nat.shiftRight_eq_div_pow]
    rw [Nat.mod_eq_of_lt (by simpa using bound)]
  rw [← value]
  generalize unpackSign b = s
  revert s
  decide

theorem packComponents_toNat (s : Sign) (e : BitVec spec.exponentBits)
    (m : BitVec spec.mantissaBitsWithoutImplicit) :
    (packComponents spec s e m).toNat =
      (s.toBitVec.toNat * 2 ^ spec.exponentBits + e.toNat) * 2 ^ spec.mantissaBitsWithoutImplicit +
        m.toNat := by
  simp only [packComponents, BitVec.toNat_append]
  rw [← Nat.shiftLeft_add_eq_or_of_lt m.isLt, ← Nat.shiftLeft_add_eq_or_of_lt e.isLt,
    Nat.shiftLeft_eq, Nat.shiftLeft_eq]

/-- A bit pattern is made of its three parts. -/
theorem packComponents_unpack (b : BitVec spec.numBits) :
    packComponents spec (Sign.ofBitVec (unpackSign b)) (unpackExponent b) (unpackMantissa b) = b := by
  apply BitVec.eq_of_toNat_eq
  rw [packComponents_toNat, mantissa_toNat, exponent_toNat, sign_toNat, pow_add,
    ← Nat.div_div_eq_div_mul, Nat.div_add_mod', Nat.div_add_mod']

theorem exponent_eq_ones {b : BitVec spec.numBits}
    (h : (unpackExponent b).toNat = 2 ^ spec.exponentBits - 1) : unpackExponent b = -1#_ := by
  apply BitVec.eq_of_toNat_eq
  rw [h, BitVec.neg_one_eq_allOnes, BitVec.toNat_allOnes]

/-- The significand of a normal number has its leading bit in front of the stored ones. -/
theorem leading_toNat (m : BitVec spec.mantissaBitsWithoutImplicit) :
    (1#1 ++ m).toNat = 2 ^ spec.mantissaBitsWithoutImplicit + m.toNat := by
  rw [BitVec.toNat_append, ← Nat.shiftLeft_add_eq_or_of_lt m.isLt, Nat.shiftLeft_eq]
  simp

theorem leading_log2 (m : BitVec spec.mantissaBitsWithoutImplicit) :
    (1#1 ++ m).toNat.log2 = spec.mantissaBitsWithoutImplicit := by
  have small := m.isLt
  rw [leading_toNat, Nat.log2_eq_iff (by positivity), pow_succ]
  omega

/-- Packing what was unpacked gives the bits back, unless they are a second way to write what is
not a number. -/
theorem pack_unpack {b : BitVec spec.numBits} (wide : 2 ≤ spec.exponentBits) (valid : spec.Valid b) :
    UnpackedFloat.pack spec (UnpackedFloat.unpack spec b) = b := by
  have whole := packComponents_unpack b
  have room : 2 ^ 2 ≤ 2 ^ spec.exponentBits := Nat.pow_le_pow_right (by decide) wide
  have small := (unpackMantissa b).isLt
  delta UnpackedFloat.unpack
  dsimp only
  by_cases ones : unpackExponent b = -1#_
  · rw [if_pos ones]
    by_cases zero : unpackMantissa b = 0#_
    · rw [if_pos zero]
      rw [ones, zero] at whole
      exact whole
    · rw [if_neg zero]
      exact (valid.eq_packedNaN ones zero).symm
  rw [if_neg ones]
  by_cases least : unpackExponent b = 0#_
  · rw [if_pos least]
    by_cases zero : unpackMantissa b = 0#_
    · rw [dif_pos zero]
      rw [least, zero] at whole
      exact whole
    · rw [dif_neg zero]
      have nonzero : (unpackMantissa b).toNat ≠ 0 := by
        intro h
        exact zero (BitVec.eq_of_toNat_eq (by simpa using h))
      have short := (Nat.log2_lt nonzero).mpr small
      have biased : ((unpackExponent b).toNat -
          ((spec.exponentBias : Int) + spec.mantissaBitsWithoutImplicit) + 1 +
          spec.exponentBias + spec.mantissaBitsWithoutImplicit).toNat = 1 := by
        rw [least, BitVec.toNat_ofNat, Nat.zero_mod]
        omega
      delta UnpackedFloat.pack Float.Model.Format.mantissaBits
      dsimp only
      rw [biased, if_neg (by omega), if_neg (by omega), ← least]
      rwa [BitVec.ofNat_toNat, BitVec.setWidth_eq]
  · rw [if_neg least]
    have biased : ((unpackExponent b).toNat -
        ((spec.exponentBias : Int) + spec.mantissaBitsWithoutImplicit) +
        spec.exponentBias + spec.mantissaBitsWithoutImplicit).toNat = (unpackExponent b).toNat := by
      omega
    have bounded : (unpackExponent b).toNat + 1 < 2 ^ spec.exponentBits := by
      have lt := (unpackExponent b).isLt
      have ne := mt exponent_eq_ones ones
      omega
    have mantissa : BitVec.ofNat _ (1#1 ++ unpackMantissa b).toNat = unpackMantissa b := by
      apply BitVec.eq_of_toNat_eq
      rw [leading_toNat, BitVec.toNat_ofNat, Nat.add_mod_left, Nat.mod_eq_of_lt small]
    delta UnpackedFloat.pack Float.Model.Format.mantissaBits
    dsimp only
    rw [biased, leading_log2, if_neg (by omega), if_pos (by omega), mantissa, BitVec.ofNat_toNat,
      BitVec.setWidth_eq]
    exact whole

theorem single_ofBits_toBits (v : Float32) : Float32.ofBits v.toBits = v := by
  obtain ⟨⟨bits, valid⟩⟩ := v
  have same := pack_unpack (by decide) valid
  delta Float32.ofBits Float32.toBits Float32.Model.ofBits Float32.Model.pack
  dsimp only
  congr 2
  exact congrArg UInt32.ofBitVec same

theorem double_toBits_ofBits {bits : UInt64}
    (valid : Float.Model.Format.binary64.Valid bits.toBitVec) :
    (Float.ofBits bits).toBits = bits := by
  have same := pack_unpack (by decide) valid
  exact congrArg UInt64.ofBitVec same

end Packing

section Exact

variable {f : Format} {num den m : Nat} {q : Int}

theorem log_eq {r : ℚ} {k : Int} (low : 2 ^ k ≤ r) (high : r < 2 ^ (k + 1)) : Int.log 2 r = k := by
  have positive : 0 < r := (zpow_pos two_pos k).trans_le low
  have above := (Int.zpow_le_iff_le_log (b := 2) (by decide) positive).mp (mod_cast low)
  have below := (Int.lt_zpow_iff_log_lt (b := 2) (by decide) positive).mp (mod_cast high)
  omega

theorem scale_pos (num : Nat) (q : Int) (positive : 0 < den) : 0 < (scale num den q).2 := by
  unfold scale
  split
  · exact Nat.mul_pos positive (Nat.pow_pos (by decide))
  · exact positive

/-- Scaling divides by the power of two. -/
theorem scale_value (num den : Nat) (q : Int) :
    ((scale num den q).1 / (scale num den q).2 : ℚ) = num / den / 2 ^ q := by
  unfold scale
  split
  case isTrue h =>
    obtain ⟨k, rfl⟩ := Int.eq_ofNat_of_zero_le h
    simp [div_div]
  case isFalse h =>
    obtain ⟨k, hk⟩ := Int.eq_ofNat_of_zero_le (by omega : 0 ≤ -q)
    obtain rfl : q = -k := by omega
    simp only [neg_neg, Int.toNat_natCast, Nat.pow_eq, Nat.cast_mul, Nat.cast_pow, Nat.cast_ofNat,
      zpow_neg, zpow_natCast, div_inv_eq_mul, div_mul_eq_mul_div]

/-- The lengths of numerator and denominator give the leading bit of a ratio up to one place. -/
theorem ratio_between (hn : num ≠ 0) (hd : den ≠ 0) :
    (2 : ℚ) ^ ((num.log2 : Int) - den.log2 - 1) ≤ num / den ∧
      (num / den : ℚ) < 2 ^ ((num.log2 : Int) - den.log2 + 1) := by
  have low : (2 : ℚ) ^ num.log2 ≤ num := mod_cast Nat.log2_self_le hn
  have high : (num : ℚ) < 2 ^ (num.log2 + 1) := mod_cast Nat.lt_log2_self
  have low' : (2 : ℚ) ^ den.log2 ≤ den := mod_cast Nat.log2_self_le hd
  have high' : (den : ℚ) < 2 ^ (den.log2 + 1) := mod_cast Nat.lt_log2_self
  have positive : (0 : ℚ) < den := mod_cast Nat.pos_of_ne_zero hd
  constructor
  · calc (2 : ℚ) ^ ((num.log2 : Int) - den.log2 - 1) = 2 ^ num.log2 / 2 ^ (den.log2 + 1) := by
          rw [sub_sub, zpow_sub₀ two_ne_zero]
          norm_cast
      _ ≤ num / den := div_le_div₀ (Nat.cast_nonneg _) low positive high'.le
  · calc (num / den : ℚ) < 2 ^ (num.log2 + 1) / 2 ^ den.log2 :=
          div_lt_div₀ high low' (by positivity) (by positivity)
      _ = 2 ^ ((num.log2 : Int) - den.log2 + 1) := by
          rw [sub_add_eq_add_sub, zpow_sub₀ two_ne_zero]
          norm_cast

/-- The exponent of the leading bit of a ratio. -/
theorem floorLog2_eq_log (hn : num ≠ 0) (hd : den ≠ 0) :
    floorLog2 num den = Int.log 2 (num / den : ℚ) := by
  obtain ⟨low, high⟩ := ratio_between hn hd
  unfold floorLog2
  generalize (num.log2 : Int) - den.log2 = guess at low high
  have positive := scale_pos num guess (Nat.pos_of_ne_zero hd)
  have value := scale_value num den guess
  have pow : (0 : ℚ) < 2 ^ guess := zpow_pos two_pos guess
  have reaches : (scale num den guess).2 ≤ (scale num den guess).1 ↔ (2 : ℚ) ^ guess ≤ num / den := by
    rw [← one_le_div₀ pow, ← value, one_le_div₀ (mod_cast positive), Nat.cast_le]
  by_cases h : (2 : ℚ) ^ guess ≤ num / den
  · rw [log_eq h high]
    exact if_pos (reaches.mpr h)
  · rw [log_eq low (by rw [sub_add_cancel]; exact not_le.mp h)]
    exact if_neg (mt reaches.mp h)

theorem divHalfEven_mul (positive : 0 < den) : divHalfEven (m * den) den = m := by
  unfold divHalfEven
  rw [Nat.mul_mod_left, Nat.mul_div_cancel _ positive]
  exact if_pos positive

/-- `m · 2 ^ q` is a finite value of the format, in the one way it is held. -/
structure Format.Canonical (f : Format) (m : Nat) (q : Int) : Prop where
  least : f.least ≤ q
  short : m < 2 ^ (f.fraction + 1)
  leading : q = f.least ∨ 2 ^ f.fraction ≤ m
  bounded : (q - f.least).toNat + 2 < 2 ^ f.exponent

/-- The bits, without sign, of a canonical value. -/
def Format.encode (f : Format) (m : Nat) (q : Int) : Nat :=
  (q - f.least).toNat * 2 ^ f.fraction + m

def Format.sign (f : Format) (negative : Bool) : Nat :=
  if negative then f.signBit else 0

theorem Format.Canonical.encode_lt (h : f.Canonical m q) : f.encode m q < f.infinity := by
  have short := h.short
  have bounded : (q - f.least).toNat + 2 ≤ 2 ^ f.exponent - 1 := by
    have := h.bounded
    omega
  have scaled := Nat.mul_le_mul_right (2 ^ f.fraction) bounded
  rw [Nat.pow_succ] at short
  rw [Format.encode, Format.infinity]
  rw [Nat.add_mul] at scaled
  simp only [Nat.pow_eq]
  omega

theorem Format.Canonical.log_eq (h : f.Canonical m q) (nonzero : m ≠ 0) :
    max (Int.log 2 (m * 2 ^ q : ℚ) - f.fraction) f.least = q := by
  have low : (2 : ℚ) ^ m.log2 ≤ m := mod_cast Nat.log2_self_le nonzero
  have high : (m : ℚ) < 2 ^ (m.log2 + 1) := mod_cast Nat.lt_log2_self
  have pow : (0 : ℚ) < 2 ^ q := zpow_pos two_pos q
  have log : Int.log 2 (m * 2 ^ q : ℚ) = m.log2 + q := by
    apply Number.log_eq
    · rw [zpow_add₀ two_ne_zero, zpow_natCast]
      exact mul_le_mul_of_nonneg_right low pow.le
    · rw [add_right_comm, zpow_add₀ two_ne_zero]
      exact mul_lt_mul_of_pos_right (mod_cast high) pow
  have short : m.log2 < f.fraction + 1 := (Nat.log2_lt nonzero).mpr h.short
  have least := h.least
  rw [log]
  rcases h.leading with rfl | full
  · omega
  · have long : f.fraction ≤ m.log2 := (Nat.le_log2 nonzero).mpr full
    omega

/-- Rounding a ratio that the format can hold gives the bits of its value. -/
theorem ofRatio_canonical (h : f.Canonical m q) (positive : 0 < den)
    (value : (num / den : ℚ) = m * 2 ^ q) : ofRatio f num den = f.encode m q := by
  have pow : (0 : ℚ) < 2 ^ q := zpow_pos two_pos q
  have denPos : (0 : ℚ) < den := mod_cast positive
  by_cases zero : m = 0
  · subst zero
    have noneLeft : num = 0 := by
      rw [Nat.cast_zero, zero_mul, div_eq_zero_iff] at value
      rcases value with h | h
      · exact mod_cast h
      · exact absurd h denPos.ne'
    have atLeast : q = f.least := h.leading.resolve_right (by simp)
    rw [ofRatio, if_pos noneLeft, Format.encode, atLeast]
    simp
  have nonzero : num ≠ 0 := by
    rintro rfl
    rw [Nat.cast_zero, zero_div] at value
    exact (mul_pos (by exact_mod_cast Nat.pos_of_ne_zero zero) pow).ne value
  have place : max (floorLog2 num den - f.fraction) f.least = q := by
    rw [floorLog2_eq_log nonzero positive.ne', value]
    exact h.log_eq zero
  have scaledPos := scale_pos num q positive
  have whole : (scale num den q).1 = m * (scale num den q).2 := by
    have ratio := scale_value num den q
    rw [value, mul_div_cancel_right₀ _ pow.ne', div_eq_iff (by exact_mod_cast scaledPos.ne')] at ratio
    exact mod_cast ratio
  rw [ofRatio, if_neg nonzero]
  simp only [place, whole, divHalfEven_mul scaledPos]
  exact min_eq_left h.encode_lt.le

/-- Fraction and exponent fields make a canonical value, unless the exponent is the greatest. -/
theorem Format.Canonical.fields (h : f.Canonical m q) : ∃ r b, r < 2 ^ f.fraction ∧
    b + 1 < 2 ^ f.exponent ∧ f.encode m q = r + 2 ^ f.fraction * b ∧
      (b = 0 ∧ m = r ∧ q = f.least ∨ 0 < b ∧ m = 2 ^ f.fraction + r ∧ q = f.least + b - 1) := by
  have least := h.least
  have bounded := h.bounded
  have short := h.short
  rw [Nat.pow_succ] at short
  rw [Format.encode]
  by_cases full : 2 ^ f.fraction ≤ m
  · refine ⟨m - 2 ^ f.fraction, (q - f.least).toNat + 1, by omega, by omega, ?_, .inr ?_⟩
    · rw [Nat.mul_add, Nat.mul_comm]
      omega
    · omega
  · obtain rfl := h.leading.resolve_right full
    refine ⟨m, 0, by omega, by omega, ?_, .inl ⟨rfl, rfl, rfl⟩⟩
    simp

theorem Format.sign_eq (f : Format) (negative : Bool) :
    f.sign negative = 2 ^ f.fraction * (2 ^ f.exponent * negative.toNat) := by
  rw [Format.sign, Format.signBit]
  cases negative <;> simp [Nat.pow_add]

section Fields

variable {r b : Nat} (negative : Bool)

theorem fields_mod (small : r < 2 ^ f.fraction) :
    (r + 2 ^ f.fraction * b + f.sign negative) % 2 ^ f.fraction = r := by
  rw [f.sign_eq, Nat.add_mul_mod_self_left, Nat.add_mul_mod_self_left, Nat.mod_eq_of_lt small]

theorem fields_div (small : r < 2 ^ f.fraction) :
    (r + 2 ^ f.fraction * b + f.sign negative) / 2 ^ f.fraction =
      b + 2 ^ f.exponent * negative.toNat := by
  rw [f.sign_eq, Nat.add_assoc, ← Nat.mul_add, Nat.add_mul_div_left _ _ (Nat.pow_pos two_pos),
    Nat.div_eq_of_lt small, Nat.zero_add]

theorem fields_exponent (small : r < 2 ^ f.fraction) (bounded : b + 1 < 2 ^ f.exponent) :
    (r + 2 ^ f.fraction * b + f.sign negative) / 2 ^ f.fraction % 2 ^ f.exponent = b := by
  rw [fields_div negative small, Nat.add_mul_mod_self_left, Nat.mod_eq_of_lt (by omega)]

theorem fields_sign (small : r < 2 ^ f.fraction) (bounded : b + 1 < 2 ^ f.exponent) :
    (r + 2 ^ f.fraction * b + f.sign negative) / f.signBit = negative.toNat := by
  rw [Format.signBit, Nat.pow_eq, Nat.pow_add, ← Nat.div_div_eq_div_mul, fields_div negative small,
    Nat.add_mul_div_left _ _ (by omega), Nat.div_eq_of_lt (by omega), Nat.zero_add]

theorem decode_fields (small : r < 2 ^ f.fraction) (bounded : b + 1 < 2 ^ f.exponent) :
    decode f (r + 2 ^ f.fraction * b + f.sign negative) =
      if b = 0 then .finite negative r f.least
      else .finite negative (2 ^ f.fraction + r) (f.least + b - 1) := by
  have signed : (negative.toNat % 2 == 1) = negative := by
    cases negative <;> rfl
  rw [decode]
  simp only [Nat.pow_eq, fields_mod negative small, fields_exponent negative small bounded,
    fields_sign negative small bounded, signed]
  rw [if_neg (by omega)]

end Fields

/-- Below infinity the exponent field is not the greatest. -/
theorem exponent_ne_of_lt {bits : Nat} (below : bits < f.infinity) (negative : Bool) :
    (bits + f.sign negative) / 2 ^ f.fraction % 2 ^ f.exponent ≠ 2 ^ f.exponent - 1 := by
  have small := Nat.mod_lt bits (Nat.pow_pos (n := f.fraction) two_pos)
  have bounded : bits / 2 ^ f.fraction < 2 ^ f.exponent - 1 :=
    Nat.div_lt_of_lt_mul (by rwa [Nat.mul_comm])
  have field := fields_exponent negative small (Nat.add_lt_of_lt_sub bounded)
  rw [Nat.mod_add_div] at field
  rw [field]
  exact bounded.ne

/-- Decoding the bits of a value gives the value. -/
theorem decode_encode (h : f.Canonical m q) (negative : Bool) :
    decode f (f.encode m q + f.sign negative) = .finite negative m q := by
  obtain ⟨r, b, small, bounded, bits, ⟨rfl, rfl, rfl⟩ | ⟨positive, rfl, rfl⟩⟩ := h.fields
  · rw [bits, decode_fields negative small bounded, if_pos rfl]
  · rw [bits, decode_fields negative small bounded, if_neg positive.ne']

/-- Bits without the greatest exponent are those of a value. -/
theorem exists_canonical {bits : Nat} (wide : 2 ≤ f.exponent) (width : bits < 2 * f.signBit)
    (bounded : bits / 2 ^ f.fraction % 2 ^ f.exponent ≠ 2 ^ f.exponent - 1) :
    ∃ negative m q, f.Canonical m q ∧ bits = f.encode m q + f.sign negative := by
  have room : 2 ^ 2 ≤ 2 ^ f.exponent := Nat.pow_le_pow_right (by decide) wide
  have fieldPos : 0 < 2 ^ f.fraction := Nat.pow_pos (by decide)
  have small := Nat.mod_lt bits fieldPos
  have limit := Nat.mod_lt (bits / 2 ^ f.fraction) (by omega : 0 < 2 ^ f.exponent)
  obtain ⟨negative, sign⟩ : ∃ negative : Bool, negative.toNat = bits / f.signBit := by
    have : bits / f.signBit < 2 := Nat.div_lt_of_lt_mul (by rwa [Nat.mul_comm])
    rcases Nat.le_one_iff_eq_zero_or_eq_one.mp (Nat.le_of_lt_succ this) with h | h
    · exact ⟨false, h.symm⟩
    · exact ⟨true, h.symm⟩
  have split : bits = bits % 2 ^ f.fraction +
      2 ^ f.fraction * (bits / 2 ^ f.fraction % 2 ^ f.exponent) + f.sign negative := by
    have top : bits / f.signBit = bits / 2 ^ f.fraction / 2 ^ f.exponent := by
      rw [Format.signBit, Nat.pow_eq, Nat.pow_add, Nat.div_div_eq_div_mul]
    rw [f.sign_eq, sign, top, Nat.add_assoc, ← Nat.mul_add, Nat.mod_add_div, Nat.mod_add_div]
  generalize bits % 2 ^ f.fraction = r at small split
  generalize bits / 2 ^ f.fraction % 2 ^ f.exponent = b at bounded limit split
  rcases Nat.eq_zero_or_pos b with rfl | positive
  · refine ⟨negative, r, f.least, ⟨le_rfl, ?_, .inl rfl, by omega⟩, ?_⟩
    · rw [Nat.pow_succ]
      omega
    · rw [split, Format.encode]
      simp
  · refine ⟨negative, 2 ^ f.fraction + r, f.least + b - 1,
      ⟨by omega, ?_, .inr (Nat.le_add_right _ _), by omega⟩, ?_⟩
    · rw [Nat.pow_succ]
      omega
    · have place : (f.least + b - 1 - f.least).toNat = b - 1 := by omega
      have step : 2 ^ f.fraction * b = (b - 1) * 2 ^ f.fraction + 2 ^ f.fraction := by
        rw [← Nat.succ_mul, Nat.mul_comm]
        congr 1
        omega
      rw [split, Format.encode, place, step]
      omega

/-- A value that two formats hold passes from one to the other unchanged. -/
theorem convert_canonical {g : Format} {m' : Nat} {q' : Int} (h : f.Canonical m q)
    (h' : g.Canonical m' q') (same : (m * 2 ^ q : ℚ) = m' * 2 ^ q') (negative : Bool) :
    convert f g (f.encode m q + f.sign negative) = g.encode m' q' + g.sign negative := by
  have positive := scale_pos m (-q) Nat.one_pos
  have value : ((scale m 1 (-q)).1 / (scale m 1 (-q)).2 : ℚ) = m' * 2 ^ q' := by
    rw [scale_value, Nat.cast_one, div_one, zpow_neg, div_inv_eq_mul, same]
  rw [convert, decode_encode h]
  simp only [signedRatio, ofRatio_canonical h' positive value]
  rfl

/-- Whatever a single holds, a double holds too. -/
theorem exists_double (h : single.Canonical m q) :
    ∃ m' q', double.Canonical m' q' ∧ (m' * 2 ^ q' : ℚ) = m * 2 ^ q := by
  have least : -149 ≤ q := h.least
  have bounded : (q - -149).toNat + 2 < 2 ^ 8 := h.bounded
  by_cases zero : m = 0
  · subst zero
    refine ⟨0, double.least, ⟨le_rfl, by simp, .inl rfl, by decide⟩, ?_⟩
    simp
  have short : m.log2 < 24 := (Nat.log2_lt zero).mpr h.short
  obtain ⟨shift, total⟩ : ∃ shift, m.log2 + shift = 52 := ⟨52 - m.log2, by omega⟩
  have low := Nat.mul_le_mul_right (2 ^ shift) (Nat.log2_self_le zero)
  have high := Nat.mul_lt_mul_of_pos_right (Nat.lt_log2_self (n := m))
    (Nat.pow_pos (n := shift) two_pos)
  rw [← Nat.pow_add, total] at low
  rw [← Nat.pow_add, Nat.add_right_comm, total] at high
  refine ⟨m * 2 ^ shift, q - shift, ⟨?_, high, .inr low, ?_⟩, ?_⟩
  · rw [show double.least = -1074 from rfl]
    omega
  · rw [show double.least = -1074 from rfl, show double.exponent = 11 from rfl]
    omega
  · rw [zpow_sub₀ two_ne_zero, zpow_natCast]
    push_cast
    field_simp

/-- A ratio below a power of two is scaled to one below its quotient. -/
theorem scale_lt {k : Int} {n : Nat} (positive : 0 < den)
    (below : (num / den : ℚ) < 2 ^ (k + n)) :
    (scale num den k).1 < 2 ^ n * (scale num den k).2 := by
  have scaledPos : (0 : ℚ) < (scale num den k).2 := mod_cast scale_pos num k positive
  have pow : (0 : ℚ) < 2 ^ k := zpow_pos two_pos k
  rw [zpow_add₀ two_ne_zero, zpow_natCast, mul_comm, ← div_lt_iff₀ pow, ← scale_value,
    div_lt_iff₀ scaledPos] at below
  exact_mod_cast below

theorem divHalfEven_le {bound : Nat} (below : num < bound * den) : divHalfEven num den ≤ bound := by
  have whole : num / den < bound := Nat.div_lt_of_lt_mul (by rwa [Nat.mul_comm])
  unfold divHalfEven
  dsimp only
  split
  · omega
  · split <;> omega

/-- Below the last power of two that a format holds with room to spare, rounding stays finite. -/
theorem ofRatio_lt (positive : 0 < den) (least : f.least ≤ q)
    (room : (q - f.least).toNat + 3 < 2 ^ f.exponent)
    (small : (num / den : ℚ) < 2 ^ (q + f.fraction + 1)) : ofRatio f num den < f.infinity := by
  have full : ((q - f.least).toNat + 3) * 2 ^ f.fraction ≤ f.infinity := by
    rw [Format.infinity]
    exact Nat.mul_le_mul_right _ (by simp only [Nat.pow_eq]; omega)
  have fieldPos : 0 < 2 ^ f.fraction := Nat.pow_pos two_pos
  rw [Nat.add_mul] at full
  by_cases zero : num = 0
  · rw [ofRatio, if_pos zero]
    omega
  have denPos : (0 : ℚ) < den := mod_cast positive
  have valuePos : (0 : ℚ) < num / den := div_pos (mod_cast Nat.pos_of_ne_zero zero) denPos
  have log : Int.log 2 (num / den : ℚ) < q + f.fraction + 1 :=
    (Int.lt_zpow_iff_log_lt (by decide) valuePos).mp (mod_cast small)
  rw [ofRatio, if_neg zero, floorLog2_eq_log zero positive.ne']
  have place : max (Int.log 2 (num / den : ℚ) - f.fraction) f.least ≤ q := by omega
  have below : Int.log 2 (num / den : ℚ) + 1 ≤
      max (Int.log 2 (num / den : ℚ) - f.fraction) f.least + (f.fraction + 1 : Nat) := by omega
  have least' := le_max_right (Int.log 2 (num / den : ℚ) - f.fraction) f.least
  generalize max (Int.log 2 (num / den : ℚ) - f.fraction) f.least = k at place below least'
  -- the scaled value has at most one bit more than the fraction
  have above : (num / den : ℚ) < 2 ^ (k + (f.fraction + 1 : Nat)) := by
    have log : Int.log 2 (num / den : ℚ) < k + (f.fraction + 1 : Nat) := by omega
    exact_mod_cast (Int.lt_zpow_iff_log_lt (b := 2) (by decide) valuePos).mpr log
  have rounded := divHalfEven_le (scale_lt positive above)
  have places : (k - f.least).toNat * 2 ^ f.fraction ≤ (q - f.least).toNat * 2 ^ f.fraction :=
    Nat.mul_le_mul_right _ (by omega)
  rw [Nat.pow_succ] at rounded
  refine (Nat.min_le_left _ _).trans_lt ?_
  change (k - f.least).toNat * 2 ^ f.fraction +
    divHalfEven (scale num den k).1 (scale num den k).2 < f.infinity
  omega

theorem single_isFinite_iff (v : Float32) : v.isFinite = true ↔
    v.toBits.toNat / 2 ^ single.fraction % 2 ^ single.exponent ≠ 2 ^ single.exponent - 1 := by
  have field := @exponent_toNat .binary32 v.toBits.toBitVec
  have finite :
      v.isFinite = (Float.Model.UnpackedFloat.unpack .binary32 v.toBits.toBitVec).isFinite :=
    rfl
  rw [finite]
  delta Float.Model.UnpackedFloat.unpack
  dsimp only
  constructor
  · intro finite ones
    have exponent := exponent_eq_ones (field.trans ones)
    rw [if_pos exponent] at finite
    split at finite <;> cases finite
  · intro bounded
    have exponent : @Float.Model.UnpackedFloat.unpackExponent .binary32 v.toBits.toBitVec ≠ -1#_ := by
      intro ones
      rw [ones] at field
      exact bounded field.symm
    rw [if_neg exponent]
    by_cases least : @Float.Model.UnpackedFloat.unpackExponent .binary32 v.toBits.toBitVec = 0#_
    · rw [if_pos least]
      by_cases zero : @Float.Model.UnpackedFloat.unpackMantissa .binary32 v.toBits.toBitVec = 0#_
      · rw [dif_pos zero]
        rfl
      · rw [dif_neg zero]
        rfl
    · rw [if_neg least]
      rfl

/-- The single of given bits keeps them, if its exponent is not the greatest. -/
theorem toBits_single {bits : Nat} (width : bits < 2 ^ 32)
    (bounded : bits / 2 ^ single.fraction % 2 ^ single.exponent ≠ 2 ^ single.exponent - 1) :
    (Float32.ofBits (UInt32.ofNat bits)).toBits.toNat = bits := by
  have kept : (UInt32.ofNat bits).toNat = bits := by
    rw [UInt32.toNat_ofNat', Nat.mod_eq_of_lt width]
  have valid : Float.Model.Format.binary32.Valid (UInt32.ofNat bits).toBitVec := by
    refine ⟨fun ones => absurd ?_ bounded⟩
    have field := @exponent_toNat .binary32 (UInt32.ofNat bits).toBitVec
    rw [ones, UInt32.toNat_toBitVec, kept] at field
    exact field.symm
  have same : (Float32.ofBits (UInt32.ofNat bits)).toBits = UInt32.ofNat bits :=
    congrArg UInt32.ofBitVec (pack_unpack (by decide) valid)
  rw [same, kept]

/-- An integer of 32 bits is rounded to a finite single. -/
theorem singleOfInt_isFinite {v : Int} (small : v.natAbs < 2 ^ 32) :
    (singleOfInt v).isFinite = true := by
  have magnitude : ofRatio single v.natAbs 1 < single.infinity := by
    apply ofRatio_lt (q := 8) Nat.one_pos (by decide) (by decide)
    rw [Nat.cast_one, div_one]
    exact_mod_cast small
  have bounded := exponent_ne_of_lt magnitude (v < 0)
  have width : ofRatio single v.natAbs 1 + single.sign (v < 0) < 2 ^ 32 := by
    have below : ofRatio single v.natAbs 1 < 0x7f800000 := magnitude
    have sign : single.sign (v < 0) ≤ 0x80000000 := by
      rw [Format.sign]
      split <;> decide
    omega
  rw [single_isFinite_iff, singleOfInt, signedRatio]
  have kept := toBits_single width bounded
  rw [Format.sign] at kept bounded
  rwa [kept]

/-- The double of given bits keeps them, if they are those of a value. -/
theorem toBits_double (h : double.Canonical m q) (negative : Bool) :
    (Float.ofBits (UInt64.ofNat (double.encode m q + double.sign negative))).toBits.toNat =
      double.encode m q + double.sign negative := by
  have small : double.encode m q + double.sign negative < 2 ^ 64 := by
    have value : double.encode m q < 0x7ff0000000000000 := h.encode_lt
    have sign : double.sign negative ≤ 0x8000000000000000 := by cases negative <;> decide
    omega
  have kept : (UInt64.ofNat (double.encode m q + double.sign negative)).toNat =
      double.encode m q + double.sign negative := by
    rw [UInt64.toNat_ofNat', Nat.mod_eq_of_lt small]
  rw [double_toBits_ofBits, kept]
  refine ⟨fun ones => absurd ?_ (exponent_ne_of_lt h.encode_lt negative)⟩
  have field := @exponent_toNat .binary64
    (UInt64.ofNat (double.encode m q + double.sign negative)).toBitVec
  rw [ones, UInt64.toNat_toBitVec, kept] at field
  exact field.symm

/-- Every finite single is what some double narrows to. -/
theorem exists_narrow {v : Float32} (finite : v.isFinite = true) : ∃ w, narrow w = v := by
  obtain ⟨negative, m, q, canonical, bits⟩ :=
    exists_canonical (f := single) (by decide) v.toBits.toNat_lt ((single_isFinite_iff v).mp finite)
  obtain ⟨m', q', wide, same⟩ := exists_double canonical
  refine ⟨Float.ofBits (UInt64.ofNat (double.encode m' q' + double.sign negative)), ?_⟩
  rw [narrow, toBits_double wide, convert_canonical wide canonical same, ← bits, UInt32.ofNat_toNat,
    single_ofBits_toBits]

end Exact

end Guarded.Number
