import WellLog.Proofs.Narrowing
import WellLog.Proofs.Quantity

/-!
# Numbers of other formats become the nearest ones

A short number, a hexadecimal one and a swapped one are fields of a word, cut out by shifts and
masks (`ShortFloat.ofWord`, `HexFloat.ofWord`, `SwappedFloat.ofWord`), and stand for a rational.
What is read from their bytes is the number of the single format nearest to it
(`isNearest_foreign`).

A machine computes the rational in the single or the double format, where each intermediate result
is exact, and rounds it when it is narrowed, not before (`HexFloat.ofMachine_computed`).
-/

namespace WellLog

open Binary32 (signed)
open Float.Model (Format)

/-! ## Fields of a word -/

section Fields

variable (raw : UInt32)

theorem toNat_and_lt {mask : UInt32} {bound : ℕ} (h : mask.toNat < bound) :
    (raw &&& mask).toNat < bound := by
  rw [UInt32.toNat_and]
  exact lt_of_le_of_lt Nat.and_le_right h

theorem toNat_and_mask {mask : UInt32} {width : ℕ} (h : mask.toNat = 2 ^ width - 1) :
    (raw &&& mask).toNat = raw.toNat % 2 ^ width := by
  rw [UInt32.toNat_and, h, Nat.and_two_pow_sub_one_eq_mod]

theorem toNat_shiftRight_and_mask {shift mask : UInt32} {below width : ℕ}
    (hs : shift.toNat % 32 = below) (h : mask.toNat = 2 ^ width - 1) :
    (raw >>> shift &&& mask).toNat = raw.toNat / 2 ^ below % 2 ^ width := by
  rw [toNat_and_mask _ h, UInt32.toNat_shiftRight, hs, Nat.shiftRight_eq_div_pow]

def hasTopBit : Bool := raw &&& 0x80000000 != 0

theorem hasTopBit_iff : hasTopBit raw = true ↔ 0x80000000 ≤ raw.toNat := by
  have hraw := raw.toNat_lt
  have hbit : (raw &&& 0x80000000).toNat = (raw.toNat.testBit 31).toNat * 2 ^ 31 := by
    rw [UInt32.toNat_and, ← Nat.and_two_pow]
    rfl
  rw [hasTopBit, bne_iff_ne, Ne, ← UInt32.toNat_inj, hbit, Nat.testBit_eq_decide_div_mod_eq]
  by_cases h : raw.toNat / 2 ^ 31 % 2 = 1
  · rw [decide_eq_true h]
    exact iff_of_true (by decide) (by omega)
  · rw [decide_eq_false h]
    exact iff_of_false (not_not_intro rfl) (by omega)

theorem hasTopBit_eq : hasTopBit raw = decide (0x80000000 ≤ raw.toNat) := by
  rw [Bool.eq_iff_iff, hasTopBit_iff, decide_eq_true_iff]

end Fields

namespace ShortFloat

theorem toInt_shiftRight (raw : UInt16) : (raw.toInt16 >>> 4).toInt
    = if 2 * raw.toNat < 65536 then (raw.toNat / 16 : ℤ) else raw.toNat / 16 - 4096 := by
  have hword : raw.toInt16.toInt
      = if 2 * raw.toNat < 65536 then (raw.toNat : ℤ) else raw.toNat - 65536 :=
    BitVec.toInt_eq_toNat_cond raw.toBitVec
  have hshift : (raw.toInt16 >>> 4).toInt = raw.toInt16.toInt / 16 := by
    show (raw.toInt16 >>> 4).toBitVec.toInt = _
    rw [Int16.toBitVec_shiftRight, BitVec.toInt_sshiftRight', Int.shiftRight_eq_div_pow]
    rfl
  rw [hshift, hword]
  split <;> omega

/-- The signed top twelve bits and the four below them. -/
def ofWord (raw : UInt16) : ShortFloat where
  fraction := (raw.toInt16 >>> 4).toInt
  exponent := (raw &&& 0xf).toNat
  fraction_ge := by
    rw [toInt_shiftRight]
    split <;> omega
  fraction_lt := by
    have hraw := raw.toNat_lt
    rw [toInt_shiftRight]
    split <;> omega
  exponent_lt := by
    rw [UInt16.toNat_and]
    exact lt_of_le_of_lt Nat.and_le_right (by decide)

theorem word_ofWord (raw : UInt16) : (ofWord raw).word = raw.toNat := by
  have hraw := raw.toNat_lt
  have hexponent : (raw &&& 0xf).toNat = raw.toNat % 16 :=
    (UInt16.toNat_and ..).trans (Nat.and_two_pow_sub_one_eq_mod _ 4)
  simp only [word, ofWord, toInt_shiftRight, hexponent]
  split <;> omega

def rational (x : ShortFloat) : ℚ := x.fraction / 2 ^ 11 * 2 ^ x.exponent

theorem rational_eq (x : ShortFloat) : x.rational = signed (decide (x.fraction < 0))
    (x.fraction.natAbs * 2 ^ (x.exponent - 11 : ℤ)) := by
  rw [Binary32.signed_mul, Binary32.signed_natAbs, rational, zpow_sub₀ two_ne_zero, zpow_natCast]
  norm_num
  ring

theorem toRat?_value (x : ShortFloat) : x.value.toRat? = some x.rational := by
  have hge := x.fraction_ge
  have hlt := x.fraction_lt
  have he := x.exponent_lt
  have hbound : (x.fraction.natAbs : ℚ) * 2 ^ (x.exponent - 11 : ℤ) < 2 ^ 128 - 2 ^ 103 := by
    have hfraction : (x.fraction.natAbs : ℚ) ≤ 2048 := by
      exact_mod_cast (show x.fraction.natAbs ≤ 2048 by omega)
    have hpow : (2 : ℚ) ^ (x.exponent - 11 : ℤ) ≤ 2 ^ (4 : ℤ) :=
      zpow_le_zpow_right₀ one_le_two (by omega)
    calc (x.fraction.natAbs : ℚ) * 2 ^ (x.exponent - 11 : ℤ) ≤ 2048 * 2 ^ (4 : ℤ) := by gcongr
      _ < 2 ^ 128 - 2 ^ 103 := by norm_num
  rw [rational_eq]
  exact Binary32.toRat?_nearest _ (by omega) (by omega) hbound

end ShortFloat

theorem SignedFloat.word_eq {exponents fractions n : ℕ} {x : SignedFloat exponents fractions}
    (hn : n < fractions * (exponents * 2))
    (hs : x.negative = decide (fractions * exponents ≤ n))
    (he : x.exponent = n / fractions % exponents) (hf : x.fraction = n % fractions) :
    x.word = n := by
  obtain ⟨y, rfl⟩ := exists_word_eq hn
  rw [decide_le_word] at hs
  rw [word_div_mod] at he
  rw [word_mod] at hf
  rw [word, word, hs, he, hf]

namespace HexFloat

/-- The top bit, seven bits below it, and 24. -/
def ofWord (raw : UInt32) : HexFloat where
  negative := hasTopBit raw
  exponent := (raw >>> 24 &&& 0x7f).toNat
  fraction := (raw &&& 0xffffff).toNat
  exponent_lt := toNat_and_lt _ (by decide)
  fraction_lt := toNat_and_lt _ (by decide)

theorem word_ofWord (raw : UInt32) : (ofWord raw).word = raw.toNat :=
  have hexponent : (raw >>> 24 &&& 0x7f).toNat = raw.toNat / 2 ^ 24 % 2 ^ 7 :=
    toNat_shiftRight_and_mask raw rfl rfl
  have hfraction : (raw &&& 0xffffff).toNat = raw.toNat % 2 ^ 24 := toNat_and_mask raw rfl
  SignedFloat.word_eq raw.toNat_lt (hasTopBit_eq raw) hexponent hfraction

/-- Sixteen to the power of the exponent, in units of which the fraction is below one. -/
def magnitude (x : HexFloat) : ℚ := x.fraction / 2 ^ 24 * 16 ^ (x.exponent - 64 : ℤ)

theorem magnitude_eq (x : HexFloat) :
    x.magnitude = x.fraction * 2 ^ (4 * (x.exponent - 64 : ℤ) - 24) := by
  rw [magnitude, zpow_sub₀ two_ne_zero, zpow_mul]
  norm_num
  ring

theorem isNearest_value (x : HexFloat) :
    x.value.IsNearest x.negative (signed x.negative x.magnitude) := by
  rw [magnitude_eq]
  exact Binary32.isNearest_nearest ..

theorem value_of_fraction_eq_zero {x : HexFloat} (h : x.fraction = 0) :
    x.value = .ofRank x.negative 0 := by
  rw [value, h, Binary32.nearest_zero]

end HexFloat

namespace SwappedFloat

/-- The top bit, eight bits below it, and 23. -/
def ofWord (raw : UInt32) : SwappedFloat where
  negative := hasTopBit raw
  exponent := (raw >>> 23 &&& 0xff).toNat
  fraction := (raw &&& 0x7fffff).toNat
  exponent_lt := toNat_and_lt _ (by decide)
  fraction_lt := toNat_and_lt _ (by decide)

theorem word_ofWord (raw : UInt32) : (ofWord raw).word = raw.toNat :=
  have hexponent : (raw >>> 23 &&& 0xff).toNat = raw.toNat / 2 ^ 23 % 2 ^ 8 :=
    toNat_shiftRight_and_mask raw rfl rfl
  have hfraction : (raw &&& 0x7fffff).toNat = raw.toNat % 2 ^ 23 := toNat_and_mask raw rfl
  SignedFloat.word_eq raw.toNat_lt (hasTopBit_eq raw) hexponent hfraction

/-- Two to the power of the exponent, in units of which the fraction is from a half up. -/
def magnitude (x : SwappedFloat) : ℚ :=
  (1 / 2 + x.fraction / 2 ^ 24) * 2 ^ (x.exponent - 128 : ℤ)

theorem magnitude_eq (x : SwappedFloat) :
    x.magnitude = (0x800000 + x.fraction : ℕ) * 2 ^ (x.exponent - 152 : ℤ) := by
  rw [magnitude, show (x.exponent - 128 : ℤ) = x.exponent - 152 + 24 by ring,
    zpow_add₀ two_ne_zero]
  push_cast
  ring

theorem magnitude_lt (x : SwappedFloat) : x.magnitude < 2 ^ 128 - 2 ^ 103 := by
  have he := x.exponent_lt
  have hf : ((0x800000 + x.fraction : ℕ) : ℚ) ≤ 0xffffff := by
    have hlt := x.fraction_lt
    exact_mod_cast (show 0x800000 + x.fraction ≤ 0xffffff by omega)
  have hpow : (2 : ℚ) ^ (x.exponent - 152 : ℤ) ≤ 2 ^ (103 : ℤ) :=
    zpow_le_zpow_right₀ one_le_two (by omega)
  calc x.magnitude = (0x800000 + x.fraction : ℕ) * 2 ^ (x.exponent - 152 : ℤ) := x.magnitude_eq
    _ ≤ 0xffffff * 2 ^ (103 : ℤ) := by gcongr
    _ < 2 ^ 128 - 2 ^ 103 := by norm_num

section Value

variable {x : SwappedFloat}

theorem value_of_exponent_eq_zero (h : x.exponent = 0) :
    if x.negative then x.value.IsNaN else x.value = .ofRank false 0 := by
  rw [value, if_pos h]
  split
  · exact ⟨by decide, by decide⟩
  · rfl

theorem value_of_pos (h : 0 < x.exponent) :
    x.value = .nearest x.negative (0x800000 + x.fraction) (x.exponent - 152 : ℤ) := by
  rw [value, if_neg h.ne']

theorem isNearest_value (h : 0 < x.exponent) :
    x.value.IsNearest x.negative (signed x.negative x.magnitude) := by
  rw [magnitude_eq, value_of_pos h]
  exact Binary32.isNearest_nearest ..

theorem not_isInfinite_value (h : 0 < x.exponent) : ¬x.value.IsInfinite := by
  have hpos : 0 ≤ x.magnitude := by
    rw [magnitude_eq]
    positivity
  rw [(isNearest_value h).infinite, Binary32.abs_signed, abs_of_nonneg hpos, not_le]
  exact x.magnitude_lt

theorem toRat?_value (h : 3 ≤ x.exponent) :
    x.value.toRat? = some (signed x.negative x.magnitude) := by
  have hf := x.fraction_lt
  have hlt := x.magnitude_lt
  rw [magnitude_eq] at hlt ⊢
  rw [value_of_pos (by omega)]
  exact Binary32.toRat?_nearest _ (by omega) (by omega) hlt

end Value

end SwappedFloat

/-! ## Computed by a machine -/

theorem hasExactly_double {n : ℕ} {q : ℤ} (hn : n < 2 ^ 53) (hlow : -1022 ≤ q) (hhigh : q ≤ 971) :
    HasExactly .binary64 (n * 2 ^ q) := by
  have hmin : Format.binary64.minExponent = -1074 := rfl
  have hbits : Format.binary64.mantissaBits = 53 := rfl
  have hmax : maxExponent .binary64 = 971 := rfl
  exact hasExactly_mul hn (by omega) (by omega)

theorem hasExactly_single {n : ℕ} {q : ℤ} (hn : n < 2 ^ 24) (hlow : -126 ≤ q) (hhigh : q ≤ 104) :
    HasExactly .binary32 (n * 2 ^ q) := by
  have hmin : Format.binary32.minExponent = -149 := rfl
  have hbits : Format.binary32.mantissaBits = 24 := rfl
  have hmax : maxExponent .binary32 = 104 := rfl
  exact hasExactly_mul hn (by omega) (by omega)

theorem holds_double {n : ℕ} (h : n < 2 ^ 53) : Holds (Float.Model.ofNat n) .positive n :=
  holds_ofNat (hasExactly_natCast h (by decide) (by decide))

theorem holds_single {n : ℕ} (h : n < 2 ^ 24) : Holds (Float32.Model.ofNat n) .positive n :=
  holds_ofNat (hasExactly_natCast h (by decide) (by decide))

theorem holds_one : Holds (Float.Model.ofNat 1) .positive 1 := by
  exact_mod_cast holds_double (show 1 < 2 ^ 53 by decide)

/-- A fraction of 24 bits. -/
theorem holds_fraction {n : ℕ} (h : n < 2 ^ 53) :
    Holds (Float.Model.ofNat n / .ofNat 16777216) .positive (n * 2 ^ (-24 : ℤ)) := by
  have hunit : ((16777216 : ℕ) : ℚ) = 2 ^ (24 : ℤ) := by norm_num
  have hvalue : (n : ℚ) / (16777216 : ℕ) = n * 2 ^ (-24 : ℤ) := by
    rw [hunit, zpow_neg, div_eq_mul_inv]
  have hexactly := hasExactly_double h (by norm_num : (-1022 : ℤ) ≤ -24) (by norm_num)
  rw [← hvalue] at hexactly ⊢
  exact (holds_double h).div (holds_double (by norm_num)) hunit hexactly

theorem holds_half : Holds (Float.Model.ofScientific 5 (-1)) .positive (1 / 2) := by
  have hdenotes : Denotes .binary64 (.finite .positive (2 ^ 52) (-53) (Nat.two_pow_pos 52))
      .positive ((2 ^ 52 : ℕ) * 2 ^ (-53 : ℤ)) :=
    .finite .positive _ rfl (by decide) (by decide)
  rw [show ((2 ^ 52 : ℕ) : ℚ) * 2 ^ (-53 : ℤ) = 1 / 2 by norm_num] at hdenotes
  exact ⟨_, rfl, hdenotes⟩

theorem holds_sign (negative : Bool) :
    Holds (if negative then -Float.Model.ofNat 1 else .ofNat 1)
      (if negative then .negative else .positive) 1 := by
  cases negative
  · exact holds_one
  · exact holds_one.neg

namespace HexFloat

/-- The sign, the fraction and the power are multiplied in the double format. -/
def computed (x : HexFloat) (power : Float.Model) : Float32.Model :=
  let sign := if x.negative then -.ofNat 1 else .ofNat 1
  narrow (sign * (.ofNat x.fraction / .ofNat 16777216) * power)

theorem ofMachine_computed {x : HexFloat} {power : Float.Model}
    (h : IsIntegerPower (.ofNat 1) (.ofNat 16) (x.exponent - 64) power) :
    Binary32.ofMachine (x.computed power) = x.value := by
  have he := x.exponent_lt
  have hf : x.fraction < 2 ^ 53 := x.fraction_lt.trans (by decide)
  have hbase : Holds (Float.Model.ofNat 16) .positive (2 ^ ((4 : ℕ) : ℤ)) := by
    exact_mod_cast holds_double (show 16 < 2 ^ 53 by decide)
  have hpower := holds_of_isIntegerPower (show _ ≤ 1 - ((256 : ℕ) : ℤ) by decide) (by decide)
    holds_one hbase (by omega) h
  have hsigned : 1 * (x.fraction * 2 ^ (-24 : ℤ)) = (x.fraction : ℚ) * 2 ^ (-24 : ℤ) := one_mul _
  have hvalue : x.fraction * 2 ^ (-24 : ℤ) * 2 ^ ((4 : ℕ) * (x.exponent - 64 : ℤ))
      = (x.fraction : ℚ) * 2 ^ (4 * (x.exponent - 64 : ℤ) - 24) := by
    rw [mul_assoc, ← zpow_add₀ two_ne_zero, neg_add_eq_sub, Nat.cast_ofNat]
  have hexactly := hasExactly_double hf (by decide : (-1022 : ℤ) ≤ -24) (by decide)
  have hfraction := (holds_sign x.negative).mul (holds_fraction hf) (by rwa [hsigned])
  rw [hsigned, mul_positive] at hfraction
  have hexactly' := hasExactly_double hf
    (by omega : (-1022 : ℤ) ≤ 4 * (x.exponent - 64 : ℤ) - 24) (by omega)
  have hproduct := hfraction.mul hpower (hvalue ▸ hexactly')
  rw [hvalue, mul_positive] at hproduct
  rw [computed, ofMachine_narrow hproduct, isNegative_ite, Bool.decide_coe, value]

end HexFloat

namespace SwappedFloat

/-- The fraction and the power are multiplied in the double format. -/
def computed (x : SwappedFloat) (power : Float.Model) : Float32.Model :=
  let magnitude := (.ofScientific 5 (-1) + .ofNat x.fraction / .ofNat 16777216) * power
  if x.negative then narrow (-magnitude) else narrow magnitude

theorem ofMachine_computed {x : SwappedFloat} {power : Float.Model} (hx : 0 < x.exponent)
    (h : IsIntegerPower (.ofNat 1) (.ofNat 2) (x.exponent - 128) power) :
    Binary32.ofMachine (x.computed power) = x.value := by
  have he := x.exponent_lt
  have hf : x.fraction < 2 ^ 53 := x.fraction_lt.trans (by decide)
  have hhidden : 0x800000 + x.fraction < 2 ^ 53 := by
    have hlt := x.fraction_lt
    omega
  have hbase : Holds (Float.Model.ofNat 2) .positive (2 ^ ((1 : ℕ) : ℤ)) := by
    exact_mod_cast holds_double (show 2 < 2 ^ 53 by decide)
  have hpower := holds_of_isIntegerPower (show _ ≤ 1 - ((128 : ℕ) : ℤ) by decide) (by decide)
    holds_one hbase (by omega) h
  have hsum : 1 / 2 + x.fraction * 2 ^ (-24 : ℤ)
      = ((0x800000 + x.fraction : ℕ) : ℚ) * 2 ^ (-24 : ℤ) := by
    push_cast
    ring
  have hvalue : ((0x800000 + x.fraction : ℕ) : ℚ) * 2 ^ (-24 : ℤ)
      * 2 ^ ((1 : ℕ) * (x.exponent - 128 : ℤ))
        = (0x800000 + x.fraction : ℕ) * 2 ^ (x.exponent - 152 : ℤ) := by
    rw [mul_assoc, ← zpow_add₀ two_ne_zero, Nat.cast_one, one_mul]
    ring_nf
  have hexactly := hasExactly_double hhidden (by decide : (-1022 : ℤ) ≤ -24) (by decide)
  have hfraction := holds_half.add (holds_fraction hf) (hsum ▸ hexactly)
  rw [hsum] at hfraction
  have hexactly' := hasExactly_double hhidden
    (by omega : (-1022 : ℤ) ≤ (x.exponent - 152 : ℤ)) (by omega)
  have hproduct := hfraction.mul hpower (hvalue ▸ hexactly')
  rw [hvalue] at hproduct
  rw [computed, value_of_pos hx]
  cases x.negative
  · rw [if_neg Bool.false_ne_true, ofMachine_narrow hproduct]
    rfl
  · rw [if_pos rfl, ofMachine_narrow hproduct.neg]
    rfl

end SwappedFloat

namespace ShortFloat

/-- All is computed in the single format. -/
def computed (x : ShortFloat) (power : Float32.Model) : Float32.Model :=
  .ofInt x.fraction / .ofNat 2048 * power

theorem ofMachine_computed {x : ShortFloat} {power : Float32.Model}
    (h : IsIntegerPower (.ofNat 1) (.ofNat 2) x.exponent power) :
    Binary32.ofMachine (x.computed power) = x.value := by
  have hge := x.fraction_ge
  have hlt := x.fraction_lt
  have he := x.exponent_lt
  have hf : x.fraction.natAbs < 2 ^ 24 := by omega
  have hone : Holds (Float32.Model.ofNat 1) .positive 1 := by
    exact_mod_cast holds_single (show 1 < 2 ^ 24 by decide)
  have hbase : Holds (Float32.Model.ofNat 2) .positive (2 ^ ((1 : ℕ) : ℤ)) := by
    exact_mod_cast holds_single (show 2 < 2 ^ 24 by decide)
  have hpower := holds_of_isIntegerPower (show _ ≤ 1 - ((15 : ℕ) : ℤ) by decide) (by decide)
    hone hbase (by omega) h
  have hunit : ((2048 : ℕ) : ℚ) = 2 ^ (11 : ℤ) := by norm_num
  have hscaled : (x.fraction.natAbs : ℚ) / (2048 : ℕ) = x.fraction.natAbs * 2 ^ (-11 : ℤ) := by
    rw [hunit, zpow_neg, div_eq_mul_inv]
  have hvalue : (x.fraction.natAbs : ℚ) * 2 ^ (-11 : ℤ) * 2 ^ ((1 : ℕ) * x.exponent : ℤ)
      = x.fraction.natAbs * 2 ^ (x.exponent - 11 : ℤ) := by
    rw [mul_assoc, ← zpow_add₀ two_ne_zero, Nat.cast_one, one_mul, neg_add_eq_sub]
  have hinteger : Holds (Float32.Model.ofInt x.fraction)
      (if x.fraction < 0 then .negative else .positive) x.fraction.natAbs :=
    holds_ofInt (hasExactly_natCast hf (by decide) (by decide))
  have hexactly := hasExactly_single hf (by decide : (-126 : ℤ) ≤ -11) (by decide)
  have hfraction := hinteger.div (holds_single (by decide)) hunit (by rwa [hscaled])
  rw [hscaled] at hfraction
  have hexactly' := hasExactly_single hf (by omega : (-126 : ℤ) ≤ x.exponent - 11) (by omega)
  have hproduct := hfraction.mul hpower (hvalue ▸ hexactly')
  rw [hvalue, mul_positive, div_positive] at hproduct
  rw [computed, ofMachine_eq_nearest hproduct, isNegative_ite, value]

end ShortFloat

/-! ## Read from bytes -/

theorem fshort_eq (a b : UInt8) :
    fshort [a, b] = (ShortFloat.ofWord (.ofNat (ofBigEndian [a, b]))).value := by
  rw [← ShortFloat.fshort_word, ShortFloat.word_ofWord, toBigEndian_toNat_ofNat_two rfl]

theorem isingl_eq (a b c d : UInt8) :
    isingl [a, b, c, d] = (HexFloat.ofWord (.ofNat (ofBigEndian [a, b, c, d]))).value := by
  rw [← HexFloat.isingl_word, HexFloat.word_ofWord, toBigEndian_toNat_ofNat_four rfl]

theorem vsingl_eq (a b c d : UInt8) :
    vsingl [a, b, c, d] = (SwappedFloat.ofWord (.ofNat (ofBigEndian [b, a, d, c]))).value := by
  rw [← SwappedFloat.vsingl_word, SwappedFloat.word_ofWord, toBigEndian_toNat_ofNat_four rfl]
  rfl

/-- A number of another format is read as the nearest number, the short one always and the swapped
one mostly as itself. A machine that computes it rounds it no further. -/
theorem isNearest_foreign (a b c d : UInt8) :
    let short := ShortFloat.ofWord (.ofNat (ofBigEndian [a, b]))
    let hex := HexFloat.ofWord (.ofNat (ofBigEndian [a, b, c, d]))
    let swapped := SwappedFloat.ofWord (.ofNat (ofBigEndian [b, a, d, c]))
    ((fshort [a, b]).toRat? = some short.rational
      ∧ ∀ power, IsIntegerPower (.ofNat 1) (.ofNat 2) short.exponent power →
        .ofMachine (short.computed power) = fshort [a, b])
    ∧ ((isingl [a, b, c, d]).IsNearest hex.negative (signed hex.negative hex.magnitude)
      ∧ (hex.fraction = 0 → isingl [a, b, c, d] = .ofRank hex.negative 0)
      ∧ ∀ power, IsIntegerPower (.ofNat 1) (.ofNat 16) (hex.exponent - 64) power →
        .ofMachine (hex.computed power) = isingl [a, b, c, d])
    ∧ if swapped.exponent = 0 then
        if swapped.negative then (vsingl [a, b, c, d]).IsNaN
        else vsingl [a, b, c, d] = .ofRank false 0
      else
        (vsingl [a, b, c, d]).IsNearest swapped.negative
            (signed swapped.negative swapped.magnitude)
          ∧ ¬(vsingl [a, b, c, d]).IsInfinite
          ∧ (3 ≤ swapped.exponent → (vsingl [a, b, c, d]).toRat?
            = some (signed swapped.negative swapped.magnitude))
          ∧ ∀ power, IsIntegerPower (.ofNat 1) (.ofNat 2) (swapped.exponent - 128) power →
            .ofMachine (swapped.computed power) = vsingl [a, b, c, d] := by
  intro short hex swapped
  rw [fshort_eq, isingl_eq, vsingl_eq]
  refine ⟨⟨short.toRat?_value, fun _ h => ShortFloat.ofMachine_computed h⟩,
    ⟨hex.isNearest_value, HexFloat.value_of_fraction_eq_zero,
      fun _ h => HexFloat.ofMachine_computed h⟩, ?_⟩
  split
  · next hzero => exact SwappedFloat.value_of_exponent_eq_zero hzero
  · next hne =>
    have hpos : 0 < swapped.exponent := Nat.pos_of_ne_zero hne
    exact ⟨SwappedFloat.isNearest_value hpos, SwappedFloat.not_isInfinite_value hpos,
      SwappedFloat.toRat?_value, fun _ h => SwappedFloat.ofMachine_computed hpos h⟩

/-- The largest numbers, one of them behind all of the single format, and a zero with a sign. -/
theorem isNearest_foreign_extreme :
    Binary32.ofMachine ((ShortFloat.ofWord 0x7fff).computed
        (integerPower (.ofNat 1) (.ofNat 2) 15)) = fshort [0x7f, 0xff]
      ∧ Binary32.ofMachine ((HexFloat.ofWord 0x7fffffff).computed
        (integerPower (.ofNat 1) (.ofNat 16) 63)) = isingl [0x7f, 0xff, 0xff, 0xff]
      ∧ isingl [0x7f, 0xff, 0xff, 0xff] = ⟨0x7f800000⟩
      ∧ Binary32.ofMachine ((SwappedFloat.ofWord 0xff7fffff).computed
        (integerPower (.ofNat 1) (.ofNat 2) 126)) = vsingl [0x7f, 0xff, 0xff, 0xff]
      ∧ (vsingl [0x7f, 0xff, 0xff, 0xff]).toRat? = some (-(2 ^ 126 - 2 ^ 102))
      ∧ isingl [0x80, 0, 0, 0] = .ofRank true 0 := by
  obtain ⟨⟨-, hshort⟩, ⟨-, -, hhex⟩, hswapped⟩ := isNearest_foreign 0x7f 0xff 0xff 0xff
  obtain ⟨-, ⟨-, hzero, -⟩, -⟩ := isNearest_foreign 0x80 0 0 0
  have hexponent : (SwappedFloat.ofWord 0xff7fffff).exponent = 254 := by decide
  have hfraction : (SwappedFloat.ofWord 0xff7fffff).fraction = 0x7fffff := by decide
  have hmagnitude : (SwappedFloat.ofWord 0xff7fffff).magnitude = 2 ^ 126 - 2 ^ 102 := by
    rw [SwappedFloat.magnitude, hexponent, hfraction]
    norm_num
  obtain ⟨-, -, hexact, hcomputed⟩ := (if_neg (by decide)).mp hswapped
  refine ⟨hshort _ (isIntegerPower_integerPower _ _ 15),
    hhex _ (isIntegerPower_integerPower _ _ 63), by decide,
    hcomputed _ (isIntegerPower_integerPower _ _ 126), ?_, hzero (by decide)⟩
  rw [← hmagnitude]
  exact hexact (by decide)

end WellLog
