import Mathlib
import WellLog.Proofs.Nearest

/-!
# Computing without rounding

A machine computes with the numbers of a format and rounds each result to one of them, which is a
division by a power of two (`roundWithAccuracy_eq`). A result that has no more bits than the format
and is neither too large nor too small for it is not changed (`HasExactly`): the operations give
their exact values then (`Denotes.mul`, `Denotes.div`, `Denotes.add`).
-/

namespace WellLog

open Float.Model (Format UnpackedFloat totalExponent)
open Float.Model.UnpackedFloat (Sign ExtendedMantissa roundWithAccuracy shiftToTargetExponent
  shiftToExponent)

variable {format : Format}

/-! ## Formats -/

/-- The largest exponent of a number that is not infinite. -/
def maxExponent (format : Format) : ℤ := format.exponentBias - format.mantissaBitsWithoutImplicit

theorem exponentBias_bounds (format : Format) :
    2 ^ format.exponentBits = 2 * format.exponentBias + 2
      ∧ format.minExponent = 1 - format.exponentBias - format.mantissaBitsWithoutImplicit := by
  have he := format.he
  have hpow : 2 ^ format.exponentBits = 2 * 2 ^ (format.exponentBits - 1) := by
    rw [← pow_succ', Nat.sub_add_cancel he]
  have hpos : 0 < 2 ^ (format.exponentBits - 1) := Nat.two_pow_pos _
  have hcast : ((2 ^ (format.exponentBits - 1) : ℕ) : ℤ) = 2 ^ (format.exponentBits - 1) := by
    push_cast
    rfl
  unfold Format.exponentBias Format.minExponent Format.mantissaBits
  omega

/-! ## Bits -/

/-- The hidden bit is above the others. -/
theorem toNat_hidden_append {width : ℕ} (mantissa : BitVec width) :
    (1#1 ++ mantissa).toNat = 2 ^ width + mantissa.toNat := by
  rw [BitVec.toNat_append, ← Nat.shiftLeft_add_eq_or_of_lt mantissa.isLt, Nat.shiftLeft_eq]
  simp

theorem ofNat_ne_allOnes {n width : ℕ} (h : n + 1 < 2 ^ width) : BitVec.ofNat width n ≠ -1#_ := by
  intro heq
  have hnat := congrArg BitVec.toNat heq
  rw [BitVec.neg_one_eq_allOnes, BitVec.toNat_allOnes, BitVec.toNat_ofNat,
    Nat.mod_eq_of_lt (by omega)] at hnat
  omega

theorem ofNat_ne_zero {n width : ℕ} (h : n < 2 ^ width) (hn : 0 < n) :
    BitVec.ofNat width n ≠ 0#_ := by
  intro heq
  have hnat := congrArg BitVec.toNat heq
  rw [BitVec.toNat_ofNat, Nat.mod_eq_of_lt h, BitVec.toNat_zero] at hnat
  omega

/-! ## Numbers that have all their bits -/

/-- A zero, or a number with all the bits that the format has, and the magnitude that it stands
for. -/
inductive Denotes (format : Format) : UnpackedFloat → Sign → ℚ → Prop
  | zero (s : Sign) : Denotes format (.zero s) s 0
  | finite (s : Sign) {m : ℕ} {e : ℤ} (h : 0 < m) (hbits : m.log2 + 1 = format.mantissaBits)
      (hlow : format.minExponent ≤ e) (hhigh : e ≤ maxExponent format) :
      Denotes format (.finite s m e h) s (m * 2 ^ e)

variable {x y : UnpackedFloat} {s s' : Sign} {v w : ℚ}

theorem finite_congr {m n : ℕ} {e q : ℤ} {hm : 0 < m} {hn : 0 < n} (hmn : m = n) (heq : e = q) :
    UnpackedFloat.finite s m e hm = .finite s n q hn := by
  subst hmn heq
  rfl

/-- Such a number is not changed by being packed. -/
theorem Denotes.unpack_pack (h : Denotes format x s v) :
    UnpackedFloat.unpack format (UnpackedFloat.pack format x) = x := by
  cases h with
  | zero s => exact UnpackedFloat.unpack_packedZero
  | @finite s m e hm hbits hlow hhigh =>
    obtain ⟨hcapacity, hmin⟩ := exponentBias_bounds format
    rw [hmin] at hlow
    unfold maxExponent at hhigh
    obtain ⟨b, hb⟩ := Int.eq_ofNat_of_zero_le
      (show 0 ≤ e + format.exponentBias + format.mantissaBitsWithoutImplicit by omega)
    have hne : BitVec.ofNat format.exponentBits b ≠ -1#_ := ofNat_ne_allOnes (by omega)
    have hzero : BitVec.ofNat format.exponentBits b ≠ 0#_ := ofNat_ne_zero (by omega) (by omega)
    have hover : ¬2 ^ format.exponentBits ≤ b + 1 := by omega
    have hmod : b % 2 ^ format.exponentBits = b := Nat.mod_eq_of_lt (by omega)
    simp only [UnpackedFloat.pack, hb, Int.toNat_natCast, hover, if_false, hbits, if_true,
      UnpackedFloat.unpack, UnpackedFloat.unpackMantissa_packComponents,
      UnpackedFloat.unpackExponent_packComponents, UnpackedFloat.unpackSign_packComponents,
      Sign.ofBitVec_toBitVec, hne, hzero, BitVec.toNat_ofNat, toNat_hidden_append, hmod]
    refine finite_congr ?_ (by omega)
    unfold Format.mantissaBits at hbits
    obtain ⟨hle, hlt⟩ := (Nat.log2_eq_iff hm.ne').mp
      (show m.log2 = format.mantissaBitsWithoutImplicit by omega)
    rw [Nat.mod_eq_sub_mod hle, Nat.mod_eq_of_lt (by omega)]
    omega

/-! ## Rounding -/

/-- Of the bits of a magnitude that are not kept the first one is told, and whether all that are
behind it are zero. -/
theorem shiftRight_succ (m k : ℕ) : ExtendedMantissa.ofMantissaAndAccuracy m .exact >>> (k + 1)
    = ⟨m / 2 ^ (k + 1), decide (m / 2 ^ k % 2 = 1), decide (m % 2 ^ k ≠ 0)⟩ := by
  induction k with
  | zero =>
    show ExtendedMantissa.shiftRightOne ⟨m, false, false⟩ = _
    rcases Nat.mod_two_eq_zero_or_one m with h | h <;>
      simp [ExtendedMantissa.shiftRightOne, h, Nat.mod_one]
  | succ k ih =>
    have hmod : m % 2 ^ (k + 1) = m % 2 ^ k + 2 ^ k * (m / 2 ^ k % 2) := Nat.mod_pow_succ
    have hpos := Nat.two_pow_pos k
    have hdiv : m / 2 ^ (k + 1 + 1) = m / 2 ^ (k + 1) / 2 := by
      rw [Nat.div_div_eq_div_mul, ← pow_succ]
    have hstep : ExtendedMantissa.ofMantissaAndAccuracy m .exact >>> (k + 1 + 1)
        = (ExtendedMantissa.ofMantissaAndAccuracy m .exact >>> (k + 1)).shiftRightOne := rfl
    rw [hstep, ih, ExtendedMantissa.shiftRightOne, hmod, hdiv]
    rcases Nat.mod_two_eq_zero_or_one (m / 2 ^ (k + 1)) with h | h <;>
      rcases Nat.mod_two_eq_zero_or_one (m / 2 ^ k) with h' | h' <;> simp [h, h']

theorem roundedMantissa_mk (floor : ℕ) (half behind : Bool) :
    (ExtendedMantissa.mk floor half behind).roundedMantissa
      = if half = true ∧ (behind = true ∨ floor % 2 = 1) then floor + 1 else floor := by
  rcases Nat.mod_two_eq_zero_or_one floor with h | h <;> cases half <;> cases behind <;>
    simp [ExtendedMantissa.roundedMantissa, ExtendedMantissa.accuracy,
      UnpackedFloat.Accuracy.roundToNearestEven, h]

theorem roundedMantissa_shiftRight (m k : ℕ) :
    (ExtendedMantissa.ofMantissaAndAccuracy m .exact >>> k).roundedMantissa
      = halfEven m (2 ^ k) := by
  cases k with
  | zero =>
    rw [pow_zero, halfEven_one_right]
    rfl
  | succ k =>
    have hmod : m % 2 ^ (k + 1) = m % 2 ^ k + 2 ^ k * (m / 2 ^ k % 2) := Nat.mod_pow_succ
    have hlt := Nat.mod_lt m (Nat.two_pow_pos k)
    rw [shiftRight_succ, roundedMantissa_mk, halfEven, hmod]
    refine if_congr ?_ rfl rfl
    rw [decide_eq_true_eq, decide_eq_true_eq, pow_succ]
    rcases Nat.mod_two_eq_zero_or_one (m / 2 ^ k) with h | h
    · rw [h]
      omega
    · rw [h]
      omega

theorem halfEven_le (n : ℕ) {step bound : ℕ} (h : n < step * bound) : halfEven n step ≤ bound := by
  have hdiv : n / step < bound := Nat.div_lt_of_lt_mul h
  simp only [halfEven]
  split <;> omega

/-- A magnitude that has the bits of the format, or one more, has just those after the second
shift. -/
theorem shiftToTargetExponent_of_le {count : ℕ} {t : ℤ} (ht : format.minExponent ≤ t)
    (hc : count ≤ 2 ^ format.mantissaBits) :
    shiftToTargetExponent format count t .exact
      = if count < 2 ^ format.mantissaBits then (⟨count, false, false⟩, t)
        else (⟨2 ^ format.mantissaBitsWithoutImplicit, false, false⟩, t + 1) := by
  unfold shiftToTargetExponent Format.targetExponent totalExponent
  split
  · next hlt =>
    have hlog : count.log2 + 1 ≤ format.mantissaBits := by
      rcases Nat.eq_zero_or_pos count with rfl | hpos
      · exact Nat.le_add_right 1 _
      · exact (Nat.log2_lt hpos.ne').mpr hlt
    have hzero : (max (count.log2 + 1 + t - format.mantissaBits)
        format.minExponent - t).toNat = 0 := by omega
    rw [shiftToExponent, hzero, Int.natCast_zero, add_zero]
    rfl
  · next hge =>
    obtain rfl : count = 2 ^ format.mantissaBits := by omega
    have hone : (max ((2 ^ format.mantissaBits).log2 + 1 + t - format.mantissaBits)
        format.minExponent - t).toNat = 1 := by
      rw [Nat.log2_two_pow]
      omega
    have hhalf : 2 ^ format.mantissaBits = 2 * 2 ^ format.mantissaBitsWithoutImplicit := by
      rw [Format.mantissaBits, Nat.add_comm, pow_succ']
    rw [shiftToExponent, hone, shiftRight_succ]
    simp [hhalf, Nat.mod_one]

/-- What has been rounded to the bits of a format may need one bit more, but is even then. -/
theorem roundWithAccuracy_eq (s : Sign) {m count : ℕ} {e t : ℤ}
    (ht : format.targetExponent (totalExponent m e) = t) (he : e ≤ t)
    (hcount : halfEven m (2 ^ (t - e).toNat) = count) :
    count ≤ 2 ^ format.mantissaBits ∧ roundWithAccuracy format s m e .exact
      = if h : count = 0 then .zero s
        else if count < 2 ^ format.mantissaBits then .finite s count t (Nat.pos_of_ne_zero h)
        else .finite s (2 ^ format.mantissaBitsWithoutImplicit) (t + 1) (Nat.two_pow_pos _) := by
  have hlow : format.minExponent ≤ t := ht ▸ le_max_right _ _
  have hhigh : m.log2 + 1 + e - format.mantissaBits ≤ t := ht ▸ le_max_left _ _
  have hle : count ≤ 2 ^ format.mantissaBits := by
    refine hcount ▸ halfEven_le m (lt_of_lt_of_le Nat.lt_log2_self ?_)
    rw [← pow_add]
    exact Nat.pow_le_pow_right (by decide) (by omega)
  have hfirst : shiftToTargetExponent format m e .exact
      = (ExtendedMantissa.ofMantissaAndAccuracy m .exact >>> (t - e).toNat, t) := by
    rw [shiftToTargetExponent, ht, shiftToExponent, Int.toNat_of_nonneg (sub_nonneg.mpr he),
      add_sub_cancel]
  have hsecond := shiftToTargetExponent_of_le hlow hle
  refine ⟨hle, ?_⟩
  simp only [roundWithAccuracy, hfirst, roundedMantissa_shiftRight, hcount]
  split at hsecond
  · next hlt =>
    simp only [hsecond, hlt, if_true]
  · next hge =>
    have hne : count ≠ 0 := by
      have hpos := Nat.two_pow_pos format.mantissaBits
      omega
    simp only [hsecond, hge, hne, if_false, dite_false, (Nat.two_pow_pos _).ne']

/-! ## Results that are not rounded -/

/-- The format has the magnitude with a hidden bit, or it is zero. -/
def HasExactly (format : Format) (v : ℚ) : Prop :=
  ∃ (n : ℕ) (q : ℤ), v = n * 2 ^ q ∧ n < 2 ^ format.mantissaBits
    ∧ (n ≠ 0 → format.minExponent ≤ totalExponent n q - format.mantissaBits
      ∧ totalExponent n q - format.mantissaBits ≤ maxExponent format)

/-- A number with few enough bits is there when all its bits have places. -/
theorem hasExactly_mul {n : ℕ} {q : ℤ} (hn : n < 2 ^ format.mantissaBits)
    (hlow : format.minExponent + format.mantissaBits ≤ q + 1) (hhigh : q ≤ maxExponent format) :
    HasExactly format (n * 2 ^ q) := by
  refine ⟨n, q, rfl, hn, fun hn0 => ?_⟩
  have hlog : n.log2 < format.mantissaBits := (Nat.log2_lt hn0).mpr hn
  rw [totalExponent]
  omega

theorem hasExactly_natCast {n : ℕ} (hn : n < 2 ^ format.mantissaBits)
    (hlow : format.minExponent + format.mantissaBits ≤ 1) (hhigh : 0 ≤ maxExponent format) :
    HasExactly format n := by
  rw [← mul_one (n : ℚ), ← zpow_zero (2 : ℚ)]
  exact hasExactly_mul hn hlow hhigh

theorem hasExactly_two_pow {j : ℤ} (hlow : format.minExponent + format.mantissaBits ≤ j + 1)
    (hhigh : j ≤ maxExponent format) : HasExactly format (2 ^ j) := by
  rw [← one_mul ((2 : ℚ) ^ j), ← Nat.cast_one]
  have hbits : format.mantissaBits ≠ 0 := by
    unfold Format.mantissaBits
    omega
  exact hasExactly_mul (Nat.one_lt_two_pow hbits) hlow hhigh

theorem totalExponent_bounds {m : ℕ} (hm : m ≠ 0) (e : ℤ) :
    (2 : ℚ) ^ (totalExponent m e - 1) ≤ m * 2 ^ e ∧ (m : ℚ) * 2 ^ e < 2 ^ totalExponent m e := by
  have hpos : (0 : ℚ) < 2 ^ e := by positivity
  obtain ⟨hlow, hhigh⟩ := Binary32.log2_bounds hm
  constructor
  · rw [show totalExponent m e - 1 = m.log2 + e by unfold totalExponent; omega,
      zpow_add₀ two_ne_zero]
    gcongr
  · rw [totalExponent, zpow_add₀ two_ne_zero]
    gcongr

/-- The place of the first bit does not depend on how a magnitude is written. -/
theorem totalExponent_congr {m n : ℕ} {e q : ℤ} (hm : m ≠ 0) (hn : n ≠ 0)
    (h : (m : ℚ) * 2 ^ e = n * 2 ^ q) : totalExponent m e = totalExponent n q := by
  obtain ⟨hmlow, hmhigh⟩ := totalExponent_bounds hm e
  obtain ⟨hnlow, hnhigh⟩ := totalExponent_bounds hn q
  rw [h] at hmlow hmhigh
  have hle := (zpow_lt_zpow_iff_right₀ one_lt_two).mp (lt_of_le_of_lt hmlow hnhigh)
  have hge := (zpow_lt_zpow_iff_right₀ one_lt_two).mp (lt_of_le_of_lt hnlow hmhigh)
  omega

theorem halfEven_mul (c : ℕ) {step : ℕ} (hs : 0 < step) : halfEven (c * step) step = c := by
  simp [halfEven, Nat.mul_div_cancel c hs, hs.ne]

theorem ne_zero_of_mul_eq {m n : ℕ} {e q : ℤ} (hm : 0 < m) (h : (m : ℚ) * 2 ^ e = n * 2 ^ q) :
    n ≠ 0 := by
  rintro rfl
  have hpos : (0 : ℚ) < m * 2 ^ e := by positivity
  rw [h, Nat.cast_zero, zero_mul] at hpos
  exact lt_irrefl _ hpos

theorem HasExactly.bounds {m : ℕ} {e : ℤ} (h : HasExactly format (m * 2 ^ e)) (hm : 0 < m) :
    format.minExponent ≤ totalExponent m e - format.mantissaBits
      ∧ totalExponent m e - format.mantissaBits ≤ maxExponent format := by
  obtain ⟨n, q, hv, -, hrange⟩ := h
  have hn0 := ne_zero_of_mul_eq hm hv
  rw [totalExponent_congr hm.ne' hn0 hv]
  exact hrange hn0

theorem denotes_roundWithAccuracy (s : Sign) {m : ℕ} {e : ℤ} (hm : 0 < m)
    (he : e ≤ format.targetExponent (totalExponent m e)) (h : HasExactly format (m * 2 ^ e)) :
    Denotes format (roundWithAccuracy format s m e .exact) s (m * 2 ^ e) := by
  obtain ⟨hlow, hhigh⟩ := h.bounds hm
  obtain ⟨n, q, hv, hn, -⟩ := h
  have hn0 := ne_zero_of_mul_eq hm hv
  have htotal := totalExponent_congr hm.ne' hn0 hv
  have hbits : n.log2 < format.mantissaBits := (Nat.log2_lt hn0).mpr hn
  obtain ⟨t, ht⟩ : ∃ t, format.targetExponent (totalExponent m e) = t := ⟨_, rfl⟩
  have htarget : t = totalExponent m e - format.mantissaBits := ht.symm.trans (max_eq_left hlow)
  rw [ht] at he
  obtain ⟨b, hb⟩ := Int.eq_ofNat_of_zero_le (sub_nonneg.mpr he)
  obtain ⟨a, ha⟩ := Int.eq_ofNat_of_zero_le (show 0 ≤ q - t by
    rw [htarget, htotal, totalExponent]
    omega)
  -- All bits that are not kept are zero.
  have hcount : (n * 2 ^ a : ℕ) * (2 : ℚ) ^ t = m * 2 ^ e := by
    rw [hv, show q = a + t by omega, zpow_add₀ two_ne_zero, zpow_natCast]
    push_cast
    ring
  have hm' : m = n * 2 ^ a * 2 ^ b := by
    rw [show t = b + e by omega, zpow_add₀ two_ne_zero, zpow_natCast, ← mul_assoc] at hcount
    have hcancel := mul_right_cancel₀ (by positivity : (2 : ℚ) ^ e ≠ 0) hcount
    exact_mod_cast hcancel.symm
  have hc0 : 0 < n * 2 ^ a := Nat.mul_pos (Nat.pos_of_ne_zero hn0) (Nat.two_pow_pos a)
  have hlog : (n * 2 ^ a).log2 + 1 = format.mantissaBits := by
    have hsame := totalExponent_congr hc0.ne' hm.ne' hcount
    rw [totalExponent] at hsame
    omega
  have hlt : n * 2 ^ a < 2 ^ format.mantissaBits := (Nat.log2_lt hc0.ne').mp (by omega)
  have hround : halfEven m (2 ^ (t - e).toNat) = n * 2 ^ a := by
    rw [hb, Int.toNat_natCast, hm', halfEven_mul _ (Nat.two_pow_pos b)]
  rw [(roundWithAccuracy_eq s ht he hround).2, dif_neg hc0.ne', if_pos hlt, ← hcount]
  exact .finite s hc0 hlog (by omega) (by omega)

theorem shiftLeft_mul (m k : ℕ) (e : ℤ) :
    ((m <<< k : ℕ) : ℚ) * 2 ^ (e - k) = m * 2 ^ e := by
  rw [Nat.shiftLeft_eq, show e = k + (e - k) by omega, zpow_add₀ two_ne_zero, zpow_natCast]
  push_cast
  ring_nf

theorem denotes_round (s : Sign) {m : ℕ} {e : ℤ} (hm : 0 < m)
    (h : HasExactly format (m * 2 ^ e)) :
    Denotes format (UnpackedFloat.round format s m e) s (m * 2 ^ e) := by
  obtain ⟨k, hk⟩ : ∃ k, (e - format.targetExponent (totalExponent m e)).toNat = k := ⟨_, rfl⟩
  have hshift := shiftLeft_mul m k e
  have hpos : 0 < m <<< k := by
    rw [Nat.shiftLeft_eq]
    exact Nat.mul_pos hm (Nat.two_pow_pos k)
  have htotal := totalExponent_congr hpos.ne' hm.ne' hshift
  simp only [UnpackedFloat.round, UnpackedFloat.decreaseExponent, hk]
  rw [← hshift] at h ⊢
  refine denotes_roundWithAccuracy s hpos ?_ h
  rw [htotal]
  omega

/-! ## Operations -/

/-- A magnitude with all bits has no exponent that is too large. -/
theorem le_targetExponent {m n : ℕ} (hm : m.log2 + 1 = format.mantissaBits) (hmn : m ≤ n)
    (hn : 0 < n) (e : ℤ) : e ≤ format.targetExponent (totalExponent n e) := by
  have hm0 : m ≠ 0 ∨ m.log2 = 0 := by
    rcases Nat.eq_zero_or_pos m with rfl | hpos
    · exact .inr Nat.log2_zero
    · exact .inl hpos.ne'
  have hlog : m.log2 ≤ n.log2 := by
    obtain hm0 | hm0 := hm0
    · exact (Nat.le_log2 hn.ne').mpr ((Nat.log2_self_le hm0).trans hmn)
    · omega
  refine le_trans ?_ (le_max_left _ _)
  rw [totalExponent]
  omega

theorem Denotes.neg (h : Denotes format x s v) : Denotes format x.neg (-s) v := by
  cases h with
  | zero s => exact .zero (-s)
  | finite s hm hbits hlow hhigh => exact .finite (-s) hm hbits hlow hhigh

theorem Denotes.mul (hx : Denotes format x s v) (hy : Denotes format y s' w)
    (h : HasExactly format (v * w)) :
    Denotes format (UnpackedFloat.mul format x y) (s * s') (v * w) := by
  cases hx with
  | zero s =>
    rw [zero_mul]
    cases hy with
    | zero s' => exact .zero (s * s')
    | finite s' _ _ _ _ => exact .zero (s * s')
  | @finite s m e hm hbits _ _ =>
    cases hy with
    | zero s' =>
      rw [mul_zero]
      exact .zero (s * s')
    | @finite s' n q hn hbits' _ _ =>
      have hv : (m : ℚ) * 2 ^ e * (n * 2 ^ q) = (m * n : ℕ) * 2 ^ (e + q) := by
        rw [zpow_add₀ two_ne_zero]
        push_cast
        ring
      rw [hv] at h ⊢
      refine denotes_roundWithAccuracy (s * s') (Nat.mul_pos hm hn) ?_ h
      exact le_targetExponent hbits (Nat.le_mul_of_pos_right m hn) (Nat.mul_pos hm hn) _

/-- A power of two has only its first bit. -/
theorem eq_two_pow_of_mul_eq {n : ℕ} {q j : ℤ} (hn : 0 < n) (h : (n : ℚ) * 2 ^ q = 2 ^ j) :
    n = 2 ^ n.log2 ∧ j = q + n.log2 := by
  have htotal := totalExponent_congr hn.ne' one_ne_zero
    (show (n : ℚ) * 2 ^ q = (1 : ℕ) * 2 ^ j by rw [h, Nat.cast_one, one_mul])
  have hj : j = q + n.log2 := by
    simp only [totalExponent] at htotal
    have hone : Nat.log2 1 = 0 := rfl
    omega
  refine ⟨?_, hj⟩
  rw [hj, add_comm, zpow_add₀ two_ne_zero, zpow_natCast] at h
  exact_mod_cast mul_right_cancel₀ (by positivity : (2 : ℚ) ^ q ≠ 0) h

/-- A power of two divides with no remainder when the dividend gets enough zeros. -/
theorem divCore_eq {m n : ℕ} (e q : ℤ) (hm : m.log2 + 1 = format.mantissaBits)
    (hn : n = 2 ^ n.log2) (hlog : n.log2 + 1 = format.mantissaBits)
    (hlow : format.minExponent ≤ e - (q + n.log2)) :
    ∃ r : ℕ, UnpackedFloat.divCore format m e n q
      = (m * 2 ^ r, e - (q + n.log2) - r, .exact) := by
  have hpos : 0 < n := hn ▸ Nat.two_pow_pos _
  obtain ⟨t, ht⟩ : ∃ t, min (e - q)
      (format.targetExponent (totalExponent m e - totalExponent n q)) = t := ⟨_, rfl⟩
  obtain ⟨r, hr⟩ := Int.eq_ofNat_of_zero_le (show 0 ≤ e - (q + n.log2) - t by
    unfold Format.targetExponent totalExponent at ht
    omega)
  have hshift : (e - q - t).toNat = r + n.log2 := by omega
  have hmul : m <<< (r + n.log2) = m * 2 ^ r * n := by
    rw [Nat.shiftLeft_eq, pow_add, ← hn, mul_assoc]
  refine ⟨r, ?_⟩
  simp only [UnpackedFloat.divCore, ht, hshift, hmul, Nat.mul_div_cancel _ hpos, Nat.mul_mod_left]
  rw [show t = e - (q + n.log2) - r by omega]
  rfl

theorem Denotes.div {j : ℤ} (hx : Denotes format x s v) (hy : Denotes format y s' w)
    (hw : w = 2 ^ j) (h : HasExactly format (v / w)) :
    Denotes format (UnpackedFloat.div format x y) (s / s') (v / w) := by
  cases hy with
  | zero s' => exact absurd hw.symm (by positivity)
  | @finite s' n q hn hbits' _ _ =>
    cases hx with
    | zero s =>
      rw [zero_div]
      exact .zero (s / s')
    | @finite s m e hm hbits _ _ =>
      obtain ⟨hpow, hj⟩ := eq_two_pow_of_mul_eq hn hw
      have hv : (m : ℚ) * 2 ^ e / (n * 2 ^ q) = m * 2 ^ (e - j) := by
        rw [hw, mul_div_assoc, ← zpow_sub₀ two_ne_zero]
      rw [hv] at h ⊢
      have hlow := (h.bounds hm).1
      rw [totalExponent] at hlow
      obtain ⟨r, hr⟩ := divCore_eq e q hbits hpow hbits' (by omega)
      have hle := Nat.le_mul_of_pos_right m (Nat.two_pow_pos r)
      have hvalue : (m : ℚ) * 2 ^ (e - j) = (m * 2 ^ r : ℕ) * 2 ^ (e - j - r) := by
        rw [← shiftLeft_mul m r, Nat.shiftLeft_eq]
      rw [← hj] at hr
      rw [hvalue] at h ⊢
      simp only [UnpackedFloat.div, hr]
      exact denotes_roundWithAccuracy (s / s') (Nat.lt_of_lt_of_le hm hle)
        (le_targetExponent hbits hle (Nat.lt_of_lt_of_le hm hle) _) h

theorem denotes_normalize (n : ℤ) (e : ℤ) (h : HasExactly format (n.natAbs * 2 ^ e)) :
    Denotes format (UnpackedFloat.normalize format n e .positive)
      (if n < 0 then .negative else .positive) (n.natAbs * 2 ^ e) := by
  unfold UnpackedFloat.normalize
  obtain hn | rfl | hn := lt_trichotomy n 0
  · rw [compare_lt_iff_lt.mpr hn, if_pos hn]
    rw [show n.natAbs = (-n).toNat by omega] at h ⊢
    exact denotes_round .negative (by omega) h
  · rw [Int.natAbs_zero, Nat.cast_zero, zero_mul]
    exact .zero .positive
  · rw [compare_gt_iff_gt.mpr hn, if_neg hn.not_gt]
    rw [show n.natAbs = n.toNat by omega] at h ⊢
    exact denotes_round .positive (by omega) h

theorem denotes_ofInt (n : ℤ) (h : HasExactly format n.natAbs) :
    Denotes format (UnpackedFloat.ofInt format n) (if n < 0 then .negative else .positive)
      n.natAbs := by
  have hvalue : (n.natAbs : ℚ) = n.natAbs * 2 ^ (0 : ℤ) := by rw [zpow_zero, mul_one]
  rw [hvalue] at h ⊢
  exact denotes_normalize n 0 h

theorem denotes_ofNat (n : ℕ) (h : HasExactly format n) :
    Denotes format (UnpackedFloat.ofNat format n) .positive n := by
  have hofInt := denotes_ofInt (n : ℤ) h
  rwa [if_neg (Int.natCast_nonneg n).not_gt] at hofInt

theorem Denotes.add (hx : Denotes format x .positive v) (hy : Denotes format y .positive w)
    (h : HasExactly format (v + w)) :
    Denotes format (UnpackedFloat.add format x y) .positive (v + w) := by
  cases hx with
  | zero =>
    rw [zero_add]
    cases hy with
    | zero => exact .zero .positive
    | finite _ hn hbits hlow hhigh => exact .finite .positive hn hbits hlow hhigh
  | @finite _ m e hm hbits hlow hhigh =>
    cases hy with
    | zero =>
      rw [add_zero]
      exact .finite .positive hm hbits hlow hhigh
    | @finite _ n q hn _ _ _ =>
      obtain ⟨a, ha⟩ : ∃ a : ℕ, e - min e q = a := Int.eq_ofNat_of_zero_le (by omega)
      obtain ⟨b, hb⟩ : ∃ b : ℕ, q - min e q = b := Int.eq_ofNat_of_zero_le (by omega)
      have hv : (m : ℚ) * 2 ^ e + n * 2 ^ q
          = ((m <<< a + n <<< b : ℕ) : ℤ).natAbs * 2 ^ min e q := by
        rw [← shiftLeft_mul m a e, ← shiftLeft_mul n b q, Int.natAbs_natCast,
          show e - a = min e q by omega, show q - b = min e q by omega]
        push_cast
        ring
      rw [hv] at h ⊢
      have hnormalize := denotes_normalize _ _ h
      rw [if_neg (Int.natCast_nonneg _).not_gt] at hnormalize
      simp only [UnpackedFloat.add, UnpackedFloat.decreaseExponent, ha, hb, Int.toNat_natCast,
        Sign.apply]
      exact_mod_cast hnormalize

end WellLog
