import WellLog.Proofs.Computing

/-!
# Narrowing the result of a computation

A machine holds the numbers of a format as bits (`Machine`). What it computes is exact as long as
the format has each result (`Holds.mul`, `Holds.div`, `Holds.add`), so a power of two is exact
however it has been multiplied together (`holds_of_isIntegerPower`).

Narrowing a number of the double format to the single format rounds it once, and what comes out is
the number of the single format that is nearest to the exact result (`ofMachine_narrow`).
-/

namespace WellLog

open Float.Model (Format UnpackedFloat totalExponent)
open Float.Model.UnpackedFloat (Sign roundWithAccuracy packComponents)

/-! ## Powers -/

section Powers

variable {α : Type} [Mul α]

/-- A power, multiplied together in any order. -/
inductive IsPower (one base : α) : ℕ → α → Prop
  | one : IsPower one base 0 one
  | base : IsPower one base 1 base
  | mul {m n : ℕ} {x y : α} (hx : IsPower one base m x) (hy : IsPower one base n y) :
      IsPower one base (m + n) (x * y)

/-- A power of an integer exponent. One below zero is the inverse of a power. -/
inductive IsIntegerPower [Div α] (one base : α) : ℤ → α → Prop
  | ofNat {n : ℕ} {x : α} (h : IsPower one base n x) : IsIntegerPower one base n x
  | inverse {n : ℕ} {x : α} (h : IsPower one base n x) : IsIntegerPower one base (-n) (one / x)

/-- The base is multiplied to one again and again. -/
def repeatedly (one base : α) : ℕ → α
  | 0 => one
  | n + 1 => repeatedly one base n * base

theorem isPower_repeatedly (one base : α) (n : ℕ) :
    IsPower one base n (repeatedly one base n) := by
  induction n with
  | zero => exact .one
  | succ n ih => exact .mul ih .base

def integerPower [Div α] (one base : α) : ℤ → α
  | .ofNat n => repeatedly one base n
  | .negSucc n => one / repeatedly one base (n + 1)

theorem isIntegerPower_integerPower [Div α] (one base : α) (n : ℤ) :
    IsIntegerPower one base n (integerPower one base n) := by
  cases n with
  | ofNat n => exact .ofNat (isPower_repeatedly one base n)
  | negSucc n => exact .inverse (isPower_repeatedly one base (n + 1))

end Powers

/-! ## Machines -/

/-- How a machine holds numbers and computes with them: each result is packed into a format. -/
class Machine (α : Type) [Add α] [Mul α] [Div α] [Neg α] (format : outParam Format) where
  unpack : α → UnpackedFloat
  pack : UnpackedFloat → α
  unpack_pack (x : UnpackedFloat) :
    unpack (pack x) = UnpackedFloat.unpack format (UnpackedFloat.pack format x)
  neg_eq (x : α) : -x = pack (unpack x).neg
  add_eq (x y : α) : x + y = pack (.add format (unpack x) (unpack y))
  mul_eq (x y : α) : x * y = pack (.mul format (unpack x) (unpack y))
  div_eq (x y : α) : x / y = pack (.div format (unpack x) (unpack y))

instance : Machine Float.Model .binary64 where
  unpack := Float.Model.unpack
  pack := Float.Model.pack
  unpack_pack _ := rfl
  neg_eq _ := rfl
  add_eq _ _ := rfl
  mul_eq _ _ := rfl
  div_eq _ _ := rfl

instance : Machine Float32.Model .binary32 where
  unpack := Float32.Model.unpack
  pack := Float32.Model.pack
  unpack_pack _ := rfl
  neg_eq _ := rfl
  add_eq _ _ := rfl
  mul_eq _ _ := rfl
  div_eq _ _ := rfl

section Machines

variable {α : Type} [Add α] [Mul α] [Div α] [Neg α] {format : Format} [Machine α format]
variable {x y : α} {s s' : Sign} {v w : ℚ}

/-- The machine has just this number. -/
def Holds (x : α) (s : Sign) (v : ℚ) : Prop :=
  ∃ u, x = Machine.pack u ∧ Denotes format u s v

theorem holds_pack {u : UnpackedFloat} (h : Denotes format u s v) :
    Holds (Machine.pack u : α) s v := ⟨u, rfl, h⟩

theorem Holds.unpack (h : Holds x s v) : Denotes format (Machine.unpack x) s v := by
  obtain ⟨u, rfl, hu⟩ := h
  rwa [Machine.unpack_pack, hu.unpack_pack]

theorem Holds.neg (h : Holds x s v) : Holds (-x) (-s) v := by
  rw [Machine.neg_eq]
  exact holds_pack h.unpack.neg

theorem Holds.add (hx : Holds x .positive v) (hy : Holds y .positive w)
    (h : HasExactly format (v + w)) : Holds (x + y) .positive (v + w) := by
  rw [Machine.add_eq]
  exact holds_pack (hx.unpack.add hy.unpack h)

theorem Holds.mul (hx : Holds x s v) (hy : Holds y s' w) (h : HasExactly format (v * w)) :
    Holds (x * y) (s * s') (v * w) := by
  rw [Machine.mul_eq]
  exact holds_pack (hx.unpack.mul hy.unpack h)

theorem Holds.div {j : ℤ} (hx : Holds x s v) (hy : Holds y s' w) (hw : w = 2 ^ j)
    (h : HasExactly format (v / w)) : Holds (x / y) (s / s') (v / w) := by
  rw [Machine.div_eq]
  exact holds_pack (hx.unpack.div hy.unpack hw h)

theorem holds_ofNat {n : ℕ} (h : HasExactly format n) :
    Holds (Machine.pack (.ofNat format n) : α) .positive n :=
  holds_pack (denotes_ofNat n h)

theorem holds_ofInt {n : ℤ} (h : HasExactly format n.natAbs) :
    Holds (Machine.pack (.ofInt format n) : α) (if n < 0 then .negative else .positive) n.natAbs :=
  holds_pack (denotes_ofInt n h)

variable {one base : α} {step bound : ℕ}

/-- A power of two stays one. -/
theorem holds_of_isPower (hone : Holds one .positive 1)
    (hbase : Holds base .positive (2 ^ (step : ℤ)))
    (hrange : ∀ n ≤ bound, HasExactly format (2 ^ (step * n : ℤ))) {n : ℕ}
    (h : IsPower one base n x) (hn : n ≤ bound) : Holds x .positive (2 ^ (step * n : ℤ)) := by
  induction h with
  | one => simpa using hone
  | base => simpa using hbase
  | @mul m n x y _ _ ihx ihy =>
    have hadd : (2 : ℚ) ^ (step * (m + n : ℕ) : ℤ) = 2 ^ (step * m : ℤ) * 2 ^ (step * n : ℤ) := by
      rw [← zpow_add₀ two_ne_zero, ← mul_add, Nat.cast_add]
    have hexactly := hrange _ hn
    rw [hadd] at hexactly ⊢
    exact (ihx (by omega)).mul (ihy (by omega)) hexactly

theorem holds_of_isIntegerPower (hlow : format.minExponent + format.mantissaBits ≤ 1 - bound)
    (hhigh : bound ≤ maxExponent format) (hone : Holds one .positive 1)
    (hbase : Holds base .positive (2 ^ (step : ℤ))) {n : ℤ} (hn : step * n.natAbs ≤ bound)
    (h : IsIntegerPower one base n x) : Holds x .positive (2 ^ (step * n : ℤ)) := by
  have hrange : ∀ i : ℤ, i.natAbs ≤ n.natAbs → HasExactly format (2 ^ (step * i : ℤ)) := by
    intro i hi
    have hbound : (step * i : ℤ).natAbs ≤ bound := by
      rw [Int.natAbs_mul, Int.natAbs_natCast]
      exact (Nat.mul_le_mul_left step hi).trans hn
    exact hasExactly_two_pow (by omega) (by omega)
  have hpower : ∀ {m : ℕ} {y : α}, IsPower one base m y → m ≤ n.natAbs →
      Holds y .positive (2 ^ (step * m : ℤ)) := fun hy hm =>
    holds_of_isPower hone hbase (fun i hi => hrange i (by omega)) hy hm
  cases h with
  | ofNat hx => exact hpower hx (by omega)
  | @inverse m y hy =>
    have hinv : (2 : ℚ) ^ (step * -m : ℤ) = 1 / 2 ^ (step * m : ℤ) := by
      rw [mul_neg, zpow_neg, one_div]
    have hexactly := hrange _ le_rfl
    rw [hinv] at hexactly ⊢
    exact hone.div (hpower hy (by omega)) rfl hexactly

end Machines

/-! ## Numbers of the single format -/

/-- A set sign bit. -/
def isNegative : Sign → Bool
  | .negative => true
  | .positive => false

theorem mul_positive (s : Sign) : s * .positive = s := by cases s <;> rfl

theorem div_positive (s : Sign) : s / .positive = s := by cases s <;> rfl

theorem isNegative_ite (p : Prop) [Decidable p] :
    isNegative (if p then .negative else .positive) = decide p := by
  by_cases h : p
  · rw [if_pos h, decide_eq_true h]
    rfl
  · rw [if_neg h, decide_eq_false h]
    rfl

/-- The bits of a number in the single format. -/
def Binary32.ofUnpacked (u : UnpackedFloat) : Binary32 := ⟨⟨UnpackedFloat.pack .binary32 u⟩⟩

theorem ofUnpacked_eq_ofRank {u : UnpackedFloat} {s : Sign} {rank : ℕ}
    (h : (UnpackedFloat.pack .binary32 u).toNat = rank + if isNegative s then 0x80000000 else 0) :
    Binary32.ofUnpacked u = .ofRank (isNegative s) rank := by
  rw [Binary32.ofUnpacked, Binary32.ofRank, ← h]
  exact congrArg Binary32.mk (UInt32.ofNat_bitVecToNat _).symm

theorem toNat_packComponents (s : Sign) (exponent : BitVec 8) (fraction : BitVec 23) :
    (packComponents .binary32 s exponent fraction).toNat
      = exponent.toNat * 0x800000 + fraction.toNat + if isNegative s then 0x80000000 else 0 := by
  rw [packComponents, BitVec.toNat_append, ← Nat.shiftLeft_add_eq_or_of_lt fraction.isLt,
    BitVec.toNat_append, ← Nat.shiftLeft_add_eq_or_of_lt exponent.isLt, Nat.shiftLeft_eq,
    Nat.shiftLeft_eq]
  cases s
  · simp only [isNegative, Sign.toBitVec, BitVec.toNat_ofNat, if_true]
    omega
  · simp only [isNegative, Sign.toBitVec, BitVec.toNat_ofNat, Bool.false_eq_true, if_false]
    omega

/-- The bits count the numbers of a sign: an exponent is as many of them as its fractions are. -/
theorem ofUnpacked_finite (s : Sign) {count : ℕ} {t : ℤ} (h : 0 < count) (hc : count < 0x1000000)
    (ht : -149 ≤ t) (hlow : t = -149 ∨ 0x800000 ≤ count) :
    Binary32.ofUnpacked (.finite s count t h)
      = .ofRank (isNegative s) (min Binary32.infinityRank
          ((t + 149).toNat * 0x800000 + count)) := by
  obtain ⟨k, hk⟩ := Int.eq_ofNat_of_zero_le (show 0 ≤ t + 149 by omega)
  have hbiased : (t + Format.binary32.exponentBias
      + Format.binary32.mantissaBitsWithoutImplicit).toNat = k + 1 := by
    have hbias : Format.binary32.exponentBias = 127 := rfl
    have hwidth : Format.binary32.mantissaBitsWithoutImplicit = 23 := rfl
    omega
  refine ofUnpacked_eq_ofRank ?_
  rw [hk, Int.toNat_natCast]
  simp only [UnpackedFloat.pack, hbiased]
  unfold Binary32.infinityRank
  by_cases hover : 2 ^ 8 ≤ k + 1 + 1
  · rw [if_pos hover, UnpackedFloat.packedInfinity, toNat_packComponents, min_eq_left (by omega)]
    rfl
  · rw [if_neg hover, min_eq_right (by omega)]
    by_cases hhidden : 0x800000 ≤ count
    · have hlog : count.log2 = 23 := (Nat.log2_eq_iff h.ne').mpr ⟨hhidden, hc⟩
      have heq : count.log2 + 1 = Format.binary32.mantissaBits := congrArg (· + 1) hlog
      rw [if_pos heq, toNat_packComponents, BitVec.toNat_ofNat, BitVec.toNat_ofNat]
      omega
    · have hlog : count.log2 < 23 := (Nat.log2_lt h.ne').mpr (Nat.lt_of_not_le hhidden)
      have hne : count.log2 + 1 ≠ Format.binary32.mantissaBits := by
        have hbits : Format.binary32.mantissaBits = 24 := rfl
        omega
      rw [if_neg hne, toNat_packComponents, BitVec.toNat_ofNat, BitVec.toNat_ofNat]
      omega

/-! ## Narrowing -/

/-- What the single format has for a number of the double format: a finite number is rounded. -/
def narrow (x : Float.Model) : Float32.Model :=
  match x.unpack with
  | .finite s m e _ => .pack (.round .binary32 s m e)
  | u => .pack u

/-- The bits of a machine's number. -/
def Binary32.ofMachine (x : Float32.Model) : Binary32 := ⟨x.toBits⟩

theorem ofUnpacked_zero (s : Sign) :
    Binary32.ofUnpacked (.zero s) = .ofRank (isNegative s) 0 := by
  refine ofUnpacked_eq_ofRank ?_
  rw [UnpackedFloat.pack, UnpackedFloat.packedZero, toNat_packComponents]
  rfl

theorem targetExponent_eq (m : ℕ) (e : ℤ) :
    Format.binary32.targetExponent (totalExponent m e) = Binary32.stepExponent m e := by
  have hbits : Format.binary32.mantissaBits = 24 := rfl
  have hmin : Format.binary32.minExponent = -149 := rfl
  unfold Format.targetExponent totalExponent Binary32.stepExponent
  omega

/-- A magnitude is counted in steps however its bits are shifted first. -/
theorem halfEven_shiftLeft (m : ℕ) (e t : ℤ) :
    halfEven (m <<< (e - t).toNat) (2 ^ (t - (e - (e - t).toNat)).toNat)
      = if e < t then halfEven m (1 <<< (t - e).toNat) else m <<< (e - t).toNat := by
  split
  · next h =>
    have hzero : (e - t).toNat = 0 := by omega
    rw [hzero, Nat.shiftLeft_zero, Nat.cast_zero, sub_zero, Nat.one_shiftLeft]
  · next h =>
    have hzero : (t - (e - (e - t).toNat)).toNat = 0 := by omega
    rw [hzero, pow_zero, halfEven_one_right]

/-- Rounding in the single format gives the number that is nearest. -/
theorem ofUnpacked_round (s : Sign) {m : ℕ} (e : ℤ) (hm : 0 < m) :
    Binary32.ofUnpacked (.round .binary32 s m e) = .nearest (isNegative s) m e := by
  obtain ⟨t, ht⟩ : ∃ t, Binary32.stepExponent m e = t := ⟨_, rfl⟩
  obtain ⟨count, hcount⟩ : ∃ count, Binary32.stepCount m e = count := ⟨_, rfl⟩
  have hlow : -149 ≤ t := ht ▸ le_max_right _ _
  obtain ⟨hlt, hk⟩ := Binary32.stepExponent_bounds hm.ne' e
  obtain ⟨hc, hkc⟩ := Binary32.count_bounds (Binary32.isRounded_stepCount m e) hlt hk
  have hshift := shiftLeft_mul m (e - t).toNat e
  have hpos : 0 < m <<< (e - t).toNat := by
    rw [Nat.shiftLeft_eq]
    exact Nat.mul_pos hm (Nat.two_pow_pos _)
  have htarget : Format.binary32.targetExponent
      (totalExponent (m <<< (e - t).toNat) (e - (e - t).toNat)) = t := by
    rw [totalExponent_congr hpos.ne' hm.ne' hshift, targetExponent_eq, ht]
  have hround : halfEven (m <<< (e - t).toNat) (2 ^ (t - (e - (e - t).toNat)).toNat) = count := by
    rw [halfEven_shiftLeft, ← hcount, Binary32.stepCount, ht]
  rw [Binary32.nearest, Binary32.rank_eq hm.ne']
  simp only [UnpackedFloat.round, UnpackedFloat.decreaseExponent, targetExponent_eq]
  rw [ht, hcount] at *
  rw [(roundWithAccuracy_eq s htarget (by omega) hround).2]
  have hbits : 2 ^ Format.binary32.mantissaBits = 0x1000000 := rfl
  split
  · next hzero =>
    have hleast : (t + 149).toNat * 0x800000 + count = 0 := by omega
    rw [ofUnpacked_zero, hleast, Nat.min_zero]
  · next hne =>
    split
    · next hfew => exact ofUnpacked_finite s _ (by omega) hlow (by omega)
    · next hmany =>
      -- A carry: the next power of two.
      have hwidth : 2 ^ Format.binary32.mantissaBitsWithoutImplicit = 0x800000 := rfl
      have hnext : (t + 1 + 149).toNat * 0x800000 + 0x800000
          = (t + 149).toNat * 0x800000 + count := by omega
      rw [← hnext]
      exact ofUnpacked_finite s _ (by decide) (by omega) (.inr le_rfl)

variable {s : Sign} {m : ℕ} {q : ℤ}

/-- Narrowing rounds once, so what has been computed exactly becomes the nearest number. -/
theorem ofMachine_narrow {x : Float.Model} (h : Holds x s (m * 2 ^ q)) :
    Binary32.ofMachine (narrow x) = .nearest (isNegative s) m q := by
  have hu : Denotes .binary64 x.unpack s (m * 2 ^ q) := h.unpack
  generalize hv : (m : ℚ) * 2 ^ q = v at hu
  unfold narrow
  generalize x.unpack = u at hu
  cases hu with
  | zero s =>
    rw [Binary32.nearest_of_eq_zero _ hv]
    exact ofUnpacked_zero s
  | @finite s n e hn =>
    rw [Binary32.nearest_congr _ hv]
    exact ofUnpacked_round s e hn

/-- What the single format has exactly is the nearest number to itself. -/
theorem ofMachine_eq_nearest {x : Float32.Model} (h : Holds x s (m * 2 ^ q)) :
    Binary32.ofMachine x = .nearest (isNegative s) m q := by
  generalize hv : (m : ℚ) * 2 ^ q = v at h
  obtain ⟨u, rfl, hu⟩ := h
  cases hu with
  | zero s =>
    rw [Binary32.nearest_of_eq_zero _ hv]
    exact ofUnpacked_zero s
  | @finite s n e hn hbits hlow hhigh =>
    have hlog : n.log2 = 23 := Nat.succ_injective hbits
    obtain ⟨hle, hlt⟩ := (Nat.log2_eq_iff hn.ne').mp hlog
    have hmin : -149 ≤ e := hlow
    have hstep : Binary32.stepExponent n e = e := by
      unfold Binary32.stepExponent
      omega
    have hcount : Binary32.stepCount n e = n := by
      have hsteps := Binary32.stepCount_of_le hstep.le
      rw [hstep, sub_self, zpow_zero, mul_one] at hsteps
      exact_mod_cast hsteps
    rw [Binary32.nearest_congr _ hv, Binary32.nearest, Binary32.rank_eq hn.ne', hstep, hcount]
    exact ofUnpacked_finite s hn hlt hmin (.inr hle)

end WellLog
