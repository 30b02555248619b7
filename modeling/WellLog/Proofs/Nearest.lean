import Mathlib.Algebra.Order.Field.Power
import Mathlib.Algebra.Order.Field.Rat
import Mathlib.Tactic.Linarith
import Mathlib.Tactic.Positivity
import Mathlib.Tactic.Ring
import WellLog.Binary32

/-!
# The nearest number of the single format

The bits of a number of the single format stand for a rational (`Binary32.toRat?`).
`Binary32.nearest` gives the number that lies nearest to a rational, the one with an even fraction
if there are two, and infinity behind the numbers (`Binary32.isNearest_nearest`). There is only one
such number (`Binary32.IsNearest.eq`).

Counted from zero, the numbers of a sign are the multiples of a step as far as 24 bits go, then
those of twice the step, and so on (`Binary32.magnitude_add`). Near a rational all of them are
multiples of one step or too small (`Binary32.multiple_or_lt`), so it is enough to look at the
integers near a quotient (`IsRounded`).
-/

namespace WellLog

/-! ## Rounded to an integer -/

/-- The integer is the one nearest to the rational, and an even one if there are two. -/
structure IsRounded (count : ℕ) (t : ℚ) : Prop where
  close : |t - count| ≤ 1 / 2
  even : |t - count| = 1 / 2 → count % 2 = 0

theorem isRounded_natCast (count : ℕ) : IsRounded count (count : ℚ) := by
  constructor
  · rw [sub_self, abs_zero]
    norm_num
  · rw [sub_self, abs_zero]
    norm_num

/-- What lies half a step away from its integer is a tie. -/
theorem tie_of_halfEven {n step : ℕ} (hs : 0 < step)
    (h : 2 * n = 2 * (step * halfEven n step) + step
      ∨ 2 * n + step = 2 * (step * halfEven n step)) : 2 * (n % step) = step := by
  have hn := Nat.div_add_mod n step
  have hr := Nat.mod_lt n hs
  simp only [halfEven] at h
  split at h
  · rw [Nat.mul_add, Nat.mul_one] at h
    omega
  · omega

theorem isRounded_halfEven (n : ℕ) {step : ℕ} (hs : 0 < step) :
    IsRounded (halfEven n step) ((n : ℚ) / step) := by
  have hpos : (0 : ℚ) < step := Nat.cast_pos.mpr hs
  have habs : |(n : ℚ) / step - halfEven n step| = |(n : ℚ) - step * halfEven n step| / step := by
    rw [div_sub' hpos.ne', abs_div, abs_of_pos hpos]
  constructor
  · obtain ⟨hlow, hhigh⟩ := halfEven_close n hs
    have hlow' : (2 : ℚ) * (step * halfEven n step) ≤ 2 * n + step := by exact_mod_cast hlow
    have hhigh' : (2 : ℚ) * n ≤ 2 * (step * halfEven n step) + step := by exact_mod_cast hhigh
    rw [habs, div_le_iff₀ hpos, abs_le]
    constructor <;> linarith
  · intro heq
    rw [habs, div_eq_iff hpos.ne'] at heq
    refine even_halfEven_of_tie (tie_of_halfEven hs ?_)
    obtain habove | hbelow := eq_or_eq_neg_of_abs_eq heq
    · left
      have hcast : (2 : ℚ) * n = 2 * (step * halfEven n step) + step := by linarith
      exact_mod_cast hcast
    · right
      have hcast : (2 : ℚ) * n + step = 2 * (step * halfEven n step) := by linarith
      exact_mod_cast hcast

/-- No integer is nearer than the one that has been rounded to. -/
theorem IsRounded.nearest {count : ℕ} {t : ℚ} (h : IsRounded count t) (c : ℤ) :
    |t - count| ≤ |t - c| ∧ (|t - c| = |t - count| → c = count ∨ count % 2 = 0) := by
  by_cases hc : c = count
  · subst hc
    exact ⟨le_of_eq (by rw [Int.cast_natCast]), fun _ => .inl rfl⟩
  · have hone : (1 : ℚ) ≤ |(c : ℚ) - count| := by
      exact_mod_cast Int.one_le_abs (sub_ne_zero.mpr hc)
    have htriangle : |(c : ℚ) - count| ≤ |t - c| + |t - count| := by
      have habs := abs_sub_le (c : ℚ) t count
      rwa [abs_sub_comm (c : ℚ) t] at habs
    have hclose := h.close
    refine ⟨by linarith, fun heq => .inr (h.even ?_)⟩
    linarith

namespace Binary32

/-! ## What the bits stand for -/

def negative (x : Binary32) : Bool := decide (0x80000000 ≤ x.bits.toNat)

def exponent (x : Binary32) : ℕ := x.bits.toNat / 0x800000 % 0x100

def fraction (x : Binary32) : ℕ := x.bits.toNat % 0x800000

def IsInfinite (x : Binary32) : Prop := x.exponent = 255 ∧ x.fraction = 0

def IsNaN (x : Binary32) : Prop := x.exponent = 255 ∧ x.fraction ≠ 0

/-- The rational with the sign. -/
def signed (negative : Bool) (v : ℚ) : ℚ := if negative then -v else v

/-- The number that the bits stand for. The least exponent has no hidden bit. -/
def toRat? (x : Binary32) : Option ℚ :=
  if x.exponent = 255 then none
  else if x.exponent = 0 then some (signed x.negative (x.fraction * 2 ^ (-149 : ℤ)))
  else some (signed x.negative ((0x800000 + x.fraction) * 2 ^ (x.exponent - 150 : ℤ)))

/-- The number is the nearest one to a rational, or infinite if the rational lies at least half a
step behind all numbers. Of two that are as near it is the one with an even fraction. A zero has the
sign of the rational. -/
structure IsNearest (x : Binary32) (negative : Bool) (v : ℚ) : Prop where
  sign : x.negative = negative
  infinite : x.IsInfinite ↔ 2 ^ 128 - 2 ^ 103 ≤ |v|
  finite : |v| < 2 ^ 128 - 2 ^ 103 → ∃ u, x.toRat? = some u ∧ ∀ y w, toRat? y = some w →
    |v - u| ≤ |v - w| ∧ (|v - w| = |v - u| → w = u ∨ x.fraction % 2 = 0)

/-! ## Magnitudes -/

/-- The number that has so many smaller ones above zero. -/
def magnitude (rank : ℕ) : ℚ :=
  if rank / 0x800000 = 0 then (rank % 0x800000 : ℕ) * 2 ^ (-149 : ℤ)
  else (0x800000 + (rank % 0x800000 : ℕ)) * 2 ^ ((rank / 0x800000 : ℕ) - 150 : ℤ)

theorem magnitude_add {k count : ℕ} (hk : k = 0 ∨ 0x800000 ≤ count) (hc : count ≤ 0x1000000) :
    magnitude (k * 0x800000 + count) = count * 2 ^ (k - 149 : ℤ) := by
  unfold magnitude
  rcases Nat.lt_or_ge count 0x800000 with hlow | hlow
  · -- Only the numbers with the least exponent have so few steps.
    obtain rfl : k = 0 := by omega
    rw [if_pos (by omega), Nat.zero_mul, Nat.zero_add, Nat.mod_eq_of_lt hlow]
    norm_num
  · obtain ⟨f, rfl⟩ := Nat.exists_eq_add_of_le hlow
    rcases Nat.lt_or_ge f 0x800000 with hf | hf
    · have hdiv : (k * 0x800000 + (0x800000 + f)) / 0x800000 = k + 1 := by omega
      have hmod : (k * 0x800000 + (0x800000 + f)) % 0x800000 = f := by omega
      rw [hdiv, hmod, if_neg (Nat.succ_ne_zero k)]
      push_cast
      ring_nf
    · -- A carry: the next power of two.
      obtain rfl : f = 0x800000 := by omega
      have hdiv : (k * 0x800000 + (0x800000 + 0x800000)) / 0x800000 = k + 2 := by omega
      have hmod : (k * 0x800000 + (0x800000 + 0x800000)) % 0x800000 = 0 := by omega
      have hpow : (2 : ℚ) ^ (k + 2 - 150 : ℤ) = 2 * 2 ^ (k - 149 : ℤ) := by
        rw [← zpow_one_add₀ (by norm_num : (2 : ℚ) ≠ 0)]
        ring_nf
      rw [hdiv, hmod, if_neg (by omega)]
      push_cast
      rw [hpow]
      ring

/-- Each place is a number of steps from that of a power of two. -/
theorem exists_rank_eq (rank : ℕ) : ∃ k count, rank = k * 0x800000 + count
    ∧ (k = 0 ∨ 0x800000 ≤ count) ∧ count < 0x1000000 := by
  by_cases h : rank < 0x1000000
  · exact ⟨0, rank, by omega, .inl rfl, h⟩
  · exact ⟨rank / 0x800000 - 1, rank % 0x800000 + 0x800000, by omega, .inr (by omega), by omega⟩

theorem magnitude_strictMono : StrictMono magnitude := by
  refine strictMono_nat_of_lt_succ fun rank => ?_
  obtain ⟨k, count, rfl, hk, hc⟩ := exists_rank_eq rank
  have hstep : (0 : ℚ) < 2 ^ (k - 149 : ℤ) := by positivity
  rw [Nat.add_assoc, magnitude_add hk hc.le, magnitude_add (hk.imp_right Nat.le_succ_of_le) hc]
  push_cast
  linarith

theorem magnitude_zero : magnitude 0 = 0 := by
  simp [magnitude]

theorem magnitude_nonneg (rank : ℕ) : 0 ≤ magnitude rank := by
  rw [← magnitude_zero]
  exact magnitude_strictMono.monotone (Nat.zero_le rank)

/-- A number is a multiple of a step, or it is less than the multiples that have 24 bits. -/
theorem multiple_or_lt (rank k : ℕ) : (∃ c : ℕ, magnitude rank = c * 2 ^ (k - 149 : ℤ))
    ∨ 0 < k ∧ magnitude rank < 0x800000 * 2 ^ (k - 149 : ℤ) := by
  obtain ⟨l, count, rfl, hl, hc⟩ := exists_rank_eq rank
  rw [magnitude_add hl hc.le]
  by_cases h : k ≤ l
  · left
    obtain ⟨n, rfl⟩ := Nat.exists_eq_add_of_le h
    refine ⟨count * 2 ^ n, ?_⟩
    have hpow : (2 : ℚ) ^ ((k + n : ℕ) - 149 : ℤ) = 2 ^ n * 2 ^ (k - 149 : ℤ) := by
      rw [← zpow_natCast, ← zpow_add₀ (by norm_num : (2 : ℚ) ≠ 0)]
      push_cast
      ring_nf
    rw [hpow]
    push_cast
    ring
  · right
    have hlt : l < k := Nat.lt_of_not_le h
    refine ⟨Nat.zero_lt_of_lt hlt, ?_⟩
    have hcount : (count : ℚ) < 2 * 0x800000 := by exact_mod_cast hc
    have hdouble : (2 : ℚ) * 2 ^ (l - 149 : ℤ) ≤ 2 ^ (k - 149 : ℤ) := by
      rw [← zpow_one_add₀ (by norm_num : (2 : ℚ) ≠ 0)]
      exact zpow_le_zpow_right₀ (by norm_num) (by omega)
    have hpos : (0 : ℚ) < 2 ^ (l - 149 : ℤ) := by positivity
    calc (count : ℚ) * 2 ^ (l - 149 : ℤ) < 2 * 0x800000 * 2 ^ (l - 149 : ℤ) := by gcongr
      _ = 0x800000 * (2 * 2 ^ (l - 149 : ℤ)) := by ring
      _ ≤ 0x800000 * 2 ^ (k - 149 : ℤ) := by gcongr

/-! ## Places -/

section Places

/-- The place of the number among those of its sign. -/
def place (x : Binary32) : ℕ := x.bits.toNat % 0x80000000

variable {x y : Binary32} {negative : Bool} {rank : ℕ}

theorem exponent_eq (x : Binary32) : x.exponent = x.place / 0x800000 := by
  unfold exponent place
  omega

theorem fraction_eq (x : Binary32) : x.fraction = x.place % 0x800000 := by
  unfold fraction place
  omega

theorem place_lt (x : Binary32) : x.place < 0x80000000 := Nat.mod_lt _ (by decide)

theorem toRat?_eq (x : Binary32) : x.toRat?
    = if x.place < infinityRank then some (signed x.negative (magnitude x.place)) else none := by
  have hlt := x.place_lt
  unfold toRat? magnitude infinityRank
  rw [exponent_eq, fraction_eq]
  by_cases hp : x.place < 0x7f800000
  · rw [if_pos hp, if_neg (by omega)]
    split <;> rfl
  · rw [if_neg hp, if_pos (by omega)]

theorem isInfinite_iff : x.IsInfinite ↔ x.place = infinityRank := by
  have hlt := x.place_lt
  unfold IsInfinite infinityRank
  rw [exponent_eq, fraction_eq]
  omega

theorem ofRank_fields (negative : Bool) (h : rank < 0x80000000) :
    (ofRank negative rank).negative = negative ∧ (ofRank negative rank).place = rank := by
  unfold Binary32.negative place ofRank
  cases negative
  · rw [if_neg Bool.false_ne_true, Nat.add_zero,
      UInt32.toNat_ofNat_of_lt' (Nat.lt_trans h (by decide))]
    exact ⟨decide_eq_false (Nat.not_le_of_lt h), Nat.mod_eq_of_lt h⟩
  · have hlt : rank + 0x80000000 < UInt32.size := Nat.add_lt_add_right h 0x80000000
    rw [if_pos rfl, UInt32.toNat_ofNat_of_lt' hlt]
    exact ⟨decide_eq_true (Nat.le_add_left ..), by omega⟩

theorem toRat?_ofRank (negative : Bool) (h : rank < infinityRank) :
    (ofRank negative rank).toRat? = some (signed negative (magnitude rank)) := by
  obtain ⟨hn, hp⟩ := ofRank_fields negative (Nat.lt_trans h (by decide))
  rw [toRat?_eq, hp, hn, if_pos h]

theorem eq_of_place_eq (hn : x.negative = y.negative) (hp : x.place = y.place) : x = y := by
  have hx := x.bits.toNat_lt
  have hy := y.bits.toNat_lt
  have hn' := decide_eq_decide.mp hn
  have hbits : x.bits.toNat = y.bits.toNat := by
    unfold place at hp
    omega
  exact congrArg Binary32.mk (UInt32.toNat_inj.mp hbits)

theorem abs_signed_sub (negative : Bool) (a b : ℚ) :
    |signed negative a - signed negative b| = |a - b| := by
  cases negative
  · rfl
  · exact (abs_sub_comm _ _).trans (congrArg _ (by simp only [signed, if_true]; ring))

theorem signed_injective (negative : Bool) {a b : ℚ} (h : signed negative a = signed negative b) :
    a = b := by
  cases negative
  · exact h
  · exact neg_injective h

/-- There is a number between two that have even places. -/
theorem exists_between {v : ℚ} (hx : x.place % 2 = 0) (hy : y.place % 2 = 0)
    (hlt : x.place < y.place) (hr : y.place < infinityRank)
    (hv : |v - magnitude x.place| = |v - magnitude y.place|) :
    x.place + 1 < infinityRank ∧ |v - magnitude (x.place + 1)| < |v - magnitude x.place| := by
  have hlow := magnitude_strictMono (Nat.lt_succ_self x.place)
  have hhigh := magnitude_strictMono (show x.place + 1 < y.place by omega)
  refine ⟨by omega, ?_⟩
  -- The rational is in the middle of the two.
  obtain hsame | hmiddle := abs_eq_abs.mp hv
  · linarith
  · have hleft : |v - magnitude x.place| = v - magnitude x.place := abs_of_nonneg (by linarith)
    rw [hleft, abs_lt]
    constructor <;> linarith

theorem signed_signed (a b : Bool) (v : ℚ) : signed a (signed b v) = signed (a ^^ b) v := by
  cases a <;> cases b <;> simp [signed]

theorem signed_self (negative : Bool) (v : ℚ) : signed negative (signed negative v) = v := by
  rw [signed_signed, Bool.xor_self]
  rfl

theorem abs_signed (negative : Bool) (v : ℚ) : |signed negative v| = |v| := by
  cases negative
  · rfl
  · exact abs_neg v

theorem signed_mul (negative : Bool) (v w : ℚ) :
    signed negative (v * w) = signed negative v * w := by
  cases negative
  · rfl
  · exact (neg_mul v w).symm

theorem signed_natAbs (n : ℤ) : signed (decide (n < 0)) n.natAbs = n := by
  rw [Nat.cast_natAbs]
  by_cases h : n < 0
  · rw [decide_eq_true h, abs_of_neg h, signed, if_pos rfl]
    push_cast
    exact neg_neg _
  · rw [decide_eq_false h, abs_of_nonneg (not_lt.mp h)]
    rfl

/-- What is nearest among all numbers is so among those of its sign. -/
theorem IsNearest.magnitude {v : ℚ} (h : x.IsNearest negative (signed negative v))
    (hv : |v| < 2 ^ 128 - 2 ^ 103) : x.place < infinityRank ∧ ∀ rank < infinityRank,
      |v - magnitude x.place| ≤ |v - magnitude rank|
        ∧ (|v - magnitude rank| = |v - magnitude x.place| → rank = x.place ∨ x.place % 2 = 0) := by
  rw [← abs_signed negative] at hv
  obtain ⟨u, hu, hnearest⟩ := h.finite hv
  rw [toRat?_eq, h.sign] at hu
  split at hu
  · next hp =>
    obtain rfl := Option.some.inj hu
    refine ⟨hp, fun rank hrank => ?_⟩
    obtain ⟨hle, heq⟩ := hnearest _ _ (toRat?_ofRank negative hrank)
    rw [abs_signed_sub, abs_signed_sub] at hle heq
    refine ⟨hle, fun hsame => (heq hsame).imp (fun hr => ?_) fun heven => ?_⟩
    · exact magnitude_strictMono.injective (signed_injective negative hr)
    · rw [fraction_eq] at heven
      omega
  · cases hu

/-- Of two numbers that are the nearest the second is not behind the first. -/
theorem IsNearest.place_le {v : ℚ} (hx : x.IsNearest negative (signed negative v))
    (hy : y.IsNearest negative (signed negative v)) (hv : |v| < 2 ^ 128 - 2 ^ 103) :
    y.place ≤ x.place := by
  by_contra hlt
  obtain ⟨hxr, hxn⟩ := hx.magnitude hv
  obtain ⟨hyr, hyn⟩ := hy.magnitude hv
  have heq := le_antisymm (hxn _ hyr).1 (hyn _ hxr).1
  have hex := ((hxn _ hyr).2 heq.symm).resolve_left (by omega)
  have hey := ((hyn _ hxr).2 heq).resolve_left (by omega)
  obtain ⟨hr, hbetween⟩ := exists_between hex hey (Nat.lt_of_not_le hlt) hyr heq
  exact absurd (hxn _ hr).1 (not_le_of_gt hbetween)

/-- Only one number is the nearest. -/
theorem IsNearest.eq {v : ℚ} (hx : x.IsNearest negative v) (hy : y.IsNearest negative v) :
    x = y := by
  refine eq_of_place_eq (hx.sign.trans hy.sign.symm) ?_
  by_cases hv : 2 ^ 128 - 2 ^ 103 ≤ |v|
  · rw [isInfinite_iff.mp (hx.infinite.mpr hv), isInfinite_iff.mp (hy.infinite.mpr hv)]
  · rw [not_le, ← abs_signed negative] at hv
    rw [← signed_self negative v] at hx hy
    exact le_antisymm (hy.place_le hx hv) (hx.place_le hy hv)

end Places

/-! ## Rounding -/

section Rounded

variable {k count : ℕ} {t : ℚ}

/-- A rounded quotient has as many bits as the quotient, or it is the power of two behind it. -/
theorem count_bounds (h : IsRounded count t) (ht : t < 0x1000000) (hk : k = 0 ∨ 0x800000 ≤ t) :
    count ≤ 0x1000000 ∧ (k = 0 ∨ 0x800000 ≤ count) := by
  obtain ⟨hlow, hhigh⟩ := abs_le.mp h.close
  constructor
  · have hlt : (count : ℚ) < 0x1000001 := by linarith
    exact Nat.le_of_lt_succ (by exact_mod_cast hlt)
  · refine hk.imp_right fun hle => ?_
    have hlt : (0x7fffff : ℚ) < count := by linarith
    exact_mod_cast hlt

/-- The quotient is rounded up to a power of two from half a step on, as the count in front of it is
odd. -/
theorem count_lt_iff (h : IsRounded count t) (ht : t < 0x1000000) :
    count < 0x1000000 ↔ t < 0x1000000 - 1 / 2 := by
  obtain ⟨hlow, hhigh⟩ := abs_le.mp h.close
  constructor
  · intro hc
    by_contra hle
    rw [not_lt] at hle
    have hle' : (count : ℚ) ≤ 0xffffff := by exact_mod_cast Nat.le_of_lt_succ hc
    have hodd : count = 0xffffff := by
      have hge : (0xffffff : ℚ) ≤ count := by linarith
      exact le_antisymm (by exact_mod_cast hle') (by exact_mod_cast hge)
    subst hodd
    have htie : |t - (0xffffff : ℕ)| = 1 / 2 := by
      push_cast
      rw [abs_of_nonneg (by linarith)]
      push_cast at hhigh
      linarith
    exact absurd (h.even htie) (by decide)
  · intro hlt
    have hc : (count : ℚ) < 0x1000000 := by linarith
    exact_mod_cast hc

/-- Infinity is where rounding up ends that starts half a step behind the last number. -/
theorem rank_lt_iff (h : IsRounded count t) (ht : t < 0x1000000) (hk : k = 0 ∨ 0x800000 ≤ t) :
    k * 0x800000 + count < infinityRank ↔ t * 2 ^ (k - 149 : ℤ) < 2 ^ 128 - 2 ^ 103 := by
  obtain ⟨hc, hkc⟩ := count_bounds h ht hk
  unfold infinityRank
  have hpos : (0 : ℚ) < 2 ^ (k - 149 : ℤ) := by positivity
  obtain hlow | rfl | hhigh : k ≤ 252 ∨ k = 253 ∨ 254 ≤ k := by omega
  · refine iff_of_true (by omega) ?_
    have hpow : (2 : ℚ) ^ (k - 149 : ℤ) ≤ 2 ^ (103 : ℤ) :=
      zpow_le_zpow_right₀ (by norm_num) (by omega)
    calc t * 2 ^ (k - 149 : ℤ) ≤ 0x1000000 * 2 ^ (k - 149 : ℤ) := by gcongr
      _ ≤ 0x1000000 * 2 ^ (103 : ℤ) := by gcongr
      _ < 2 ^ 128 - 2 ^ 103 := by norm_num
  · have hlt : 253 * 0x800000 + count < 0x7f800000 ↔ count < 0x1000000 := by omega
    have hpow : (2 : ℚ) ^ ((253 : ℕ) - 149 : ℤ) = 2 ^ 104 := by norm_num
    rw [hlt, count_lt_iff h ht, hpow]
    constructor <;> intro hlt <;> linarith
  · have hle : 0x800000 ≤ t := hk.resolve_left (by omega)
    refine iff_of_false (by omega) (not_lt_of_ge ?_)
    have hpow : (2 : ℚ) ^ (105 : ℤ) ≤ 2 ^ (k - 149 : ℤ) :=
      zpow_le_zpow_right₀ (by norm_num) (by omega)
    calc (2 : ℚ) ^ 128 - 2 ^ 103 ≤ 0x800000 * 2 ^ (105 : ℤ) := by norm_num
      _ ≤ 0x800000 * 2 ^ (k - 149 : ℤ) := by gcongr
      _ ≤ t * 2 ^ (k - 149 : ℤ) := by gcongr

/-- What is no multiple of the step is farther away than the least multiple with 24 bits. -/
theorem nearest_magnitude (h : IsRounded count t) (hk : k = 0 ∨ 0x800000 ≤ t) (flip : Bool)
    (rank : ℕ) :
    |t * 2 ^ (k - 149 : ℤ) - count * 2 ^ (k - 149 : ℤ)|
        ≤ |t * 2 ^ (k - 149 : ℤ) - signed flip (magnitude rank)|
      ∧ (|t * 2 ^ (k - 149 : ℤ) - signed flip (magnitude rank)|
          = |t * 2 ^ (k - 149 : ℤ) - count * 2 ^ (k - 149 : ℤ)| →
        signed flip (magnitude rank) = count * 2 ^ (k - 149 : ℤ) ∨ count % 2 = 0) := by
  have hpos : (0 : ℚ) < 2 ^ (k - 149 : ℤ) := by positivity
  have hscale : ∀ a : ℚ, |t * 2 ^ (k - 149 : ℤ) - a * 2 ^ (k - 149 : ℤ)|
      = |t - a| * 2 ^ (k - 149 : ℤ) := fun a => by rw [← sub_mul, abs_mul, abs_of_pos hpos]
  obtain ⟨c, hc⟩ | ⟨hkpos, hlt⟩ := multiple_or_lt rank k
  · obtain ⟨c', hc'⟩ : ∃ c' : ℤ, signed flip (magnitude rank) = c' * 2 ^ (k - 149 : ℤ) := by
      cases flip
      · exact ⟨c, by rw [Int.cast_natCast]; exact hc⟩
      · exact ⟨-c, by rw [Int.cast_neg, Int.cast_natCast, neg_mul, ← hc]; rfl⟩
    obtain ⟨hle, heq⟩ := h.nearest c'
    rw [hc', hscale, hscale]
    refine ⟨mul_le_mul_of_nonneg_right hle hpos.le, fun hsame => ?_⟩
    refine (heq (mul_right_cancel₀ hpos.ne' hsame)).imp_left fun hcount => ?_
    rw [hcount, Int.cast_natCast]
  · have ht : 0x800000 ≤ t := hk.resolve_left hkpos.ne'
    have hw : signed flip (magnitude rank) < 0x800000 * 2 ^ (k - 149 : ℤ) := by
      refine lt_of_le_of_lt ?_ hlt
      cases flip
      · exact le_rfl
      · exact neg_le_self (magnitude_nonneg rank)
    have hfirst := (h.nearest 0x800000).1
    rw [Int.cast_ofNat, abs_of_nonneg (sub_nonneg.mpr ht)] at hfirst
    have hmul : (t - 0x800000) * 2 ^ (k - 149 : ℤ)
        < |t * 2 ^ (k - 149 : ℤ) - signed flip (magnitude rank)| := by
      rw [sub_mul]
      exact lt_of_lt_of_le (by linarith) (le_abs_self _)
    have hlt' := lt_of_le_of_lt (mul_le_mul_of_nonneg_right hfirst hpos.le) hmul
    rw [hscale]
    exact ⟨hlt'.le, fun hsame => absurd hsame hlt'.ne'⟩

/-- The number with so many steps is the nearest to the rational. -/
theorem isNearest_ofRank (negative : Bool) (h : IsRounded count t) (ht : t < 0x1000000)
    (hk : k = 0 ∨ 0x800000 ≤ t) (h0 : 0 ≤ t) :
    (ofRank negative (min infinityRank (k * 0x800000 + count))).IsNearest negative
      (signed negative (t * 2 ^ (k - 149 : ℤ))) := by
  obtain ⟨hc, hkc⟩ := count_bounds h ht hk
  have hiff := rank_lt_iff h ht hk
  have habs : |signed negative (t * 2 ^ (k - 149 : ℤ))| = t * 2 ^ (k - 149 : ℤ) := by
    rw [abs_signed, abs_of_nonneg (by positivity)]
  have hmin : min infinityRank (k * 0x800000 + count) < 0x80000000 :=
    lt_of_le_of_lt (min_le_left _ _) (by decide)
  obtain ⟨hn, hp⟩ := ofRank_fields negative hmin
  refine ⟨hn, ?_, fun hv => ?_⟩
  · rw [isInfinite_iff, hp, habs, ← not_lt, ← hiff, min_eq_left_iff, not_lt]
  · rw [habs, ← hiff] at hv
    rw [min_eq_right hv.le] at hp ⊢
    refine ⟨signed negative (count * 2 ^ (k - 149 : ℤ)), ?_, fun y w hy => ?_⟩
    · rw [toRat?_ofRank negative hv, magnitude_add hkc hc]
    · rw [toRat?_eq] at hy
      split at hy
      · obtain rfl := Option.some.inj hy
        rw [← signed_self negative (signed y.negative _), abs_signed_sub, abs_signed_sub,
          signed_signed negative y.negative]
        obtain ⟨hle, heq⟩ := nearest_magnitude h hk (negative ^^ y.negative) y.place
        refine ⟨hle, fun hsame => (heq hsame).imp (congrArg (signed negative)) fun heven => ?_⟩
        rw [fraction_eq, hp]
        omega
      · cases hy

end Rounded

/-- The steps of a magnitude. -/
def stepCount (m : ℕ) (q : ℤ) : ℕ :=
  if q < stepExponent m q then halfEven m (1 <<< (stepExponent m q - q).toNat)
  else m <<< (q - stepExponent m q).toNat

theorem rank_eq {m : ℕ} (hm : m ≠ 0) (q : ℤ) : rank m q
    = min infinityRank ((stepExponent m q + 149).toNat * 0x800000 + stepCount m q) := by
  rw [rank, if_neg hm]
  rfl

theorem stepCount_of_le {m : ℕ} {q : ℤ} (h : stepExponent m q ≤ q) :
    (stepCount m q : ℚ) = m * 2 ^ (q - stepExponent m q) := by
  obtain ⟨d, hd⟩ := Int.eq_ofNat_of_zero_le (sub_nonneg.mpr h)
  rw [stepCount, if_neg (not_lt.mpr h), hd, Int.toNat_natCast, Nat.shiftLeft_eq, zpow_natCast]
  push_cast
  rfl

theorem isRounded_stepCount (m : ℕ) (q : ℤ) :
    IsRounded (stepCount m q) (m * 2 ^ (q - stepExponent m q)) := by
  rcases lt_or_ge q (stepExponent m q) with h | h
  · obtain ⟨d, hd⟩ := Int.eq_ofNat_of_zero_le (sub_nonneg.mpr h.le)
    have hq : q - stepExponent m q = -(d : ℤ) := by omega
    have hrounded := isRounded_halfEven m (Nat.two_pow_pos d)
    push_cast at hrounded
    rw [stepCount, if_pos h, hd, Int.toNat_natCast, Nat.one_shiftLeft, hq, zpow_neg, zpow_natCast,
      ← div_eq_mul_inv]
    exact hrounded
  · rw [← stepCount_of_le h]
    exact isRounded_natCast _

theorem log2_bounds {m : ℕ} (hm : m ≠ 0) :
    (2 : ℚ) ^ (m.log2 : ℤ) ≤ m ∧ (m : ℚ) < 2 ^ (m.log2 + 1 : ℤ) := by
  constructor
  · exact_mod_cast Nat.log2_self_le hm
  · exact_mod_cast Nat.lt_log2_self

theorem stepExponent_bounds {m : ℕ} (hm : m ≠ 0) (q : ℤ) :
    (m : ℚ) * 2 ^ (q - stepExponent m q) < 0x1000000
      ∧ ((stepExponent m q + 149).toNat = 0 ∨ 0x800000 ≤ (m : ℚ) * 2 ^ (q - stepExponent m q)) := by
  have hpos : (0 : ℚ) < 2 ^ (q - stepExponent m q) := by positivity
  obtain ⟨hlow, hhigh⟩ := log2_bounds hm
  have hstep : stepExponent m q = max (m.log2 + q - 23) (-149) := rfl
  constructor
  · calc (m : ℚ) * 2 ^ (q - stepExponent m q)
        < 2 ^ (m.log2 + 1 : ℤ) * 2 ^ (q - stepExponent m q) := by gcongr
      _ = 2 ^ (m.log2 + 1 + (q - stepExponent m q)) := (zpow_add₀ (by norm_num) ..).symm
      _ ≤ 2 ^ (24 : ℤ) := zpow_le_zpow_right₀ (by norm_num) (by omega)
      _ = 0x1000000 := by norm_num
  · by_cases hleast : m.log2 + q - 23 ≤ -149
    · left
      omega
    · right
      calc (0x800000 : ℚ) = 2 ^ (23 : ℤ) := by norm_num
        _ ≤ 2 ^ (m.log2 + (q - stepExponent m q)) :=
          zpow_le_zpow_right₀ (by norm_num) (by omega)
        _ = 2 ^ (m.log2 : ℤ) * 2 ^ (q - stepExponent m q) := zpow_add₀ (by norm_num) ..
        _ ≤ m * 2 ^ (q - stepExponent m q) := by gcongr

theorem steps_mul (m : ℕ) (q : ℤ) : (m : ℚ) * 2 ^ (q - stepExponent m q)
    * 2 ^ ((stepExponent m q + 149).toNat - 149 : ℤ) = m * 2 ^ q := by
  have hstep : ((stepExponent m q + 149).toNat : ℤ) - 149 = stepExponent m q := by
    unfold stepExponent
    omega
  rw [hstep, mul_assoc, ← zpow_add₀ (by norm_num : (2 : ℚ) ≠ 0), sub_add_cancel]

theorem nearest_zero (negative : Bool) (q : ℤ) : nearest negative 0 q = ofRank negative 0 := by
  rw [nearest, rank, if_pos rfl]

theorem isNearest_nearest (negative : Bool) (m : ℕ) (q : ℤ) :
    (nearest negative m q).IsNearest negative (signed negative (m * 2 ^ q)) := by
  by_cases hm : m = 0
  · have hzero : IsRounded 0 0 := isRounded_natCast 0
    have hnearest := isNearest_ofRank negative hzero (by norm_num) (.inl rfl) le_rfl
    rw [zero_mul, Nat.add_zero, Nat.min_zero, zero_mul] at hnearest
    rw [hm, nearest_zero, Nat.cast_zero, zero_mul]
    exact hnearest
  · obtain ⟨hlt, hk⟩ := stepExponent_bounds hm q
    have hnearest := isNearest_ofRank negative (isRounded_stepCount m q) hlt hk (by positivity)
    rwa [steps_mul, ← rank_eq hm] at hnearest

/-- The nearest number does not depend on how a magnitude is written. -/
theorem nearest_congr (negative : Bool) {m n : ℕ} {e q : ℤ} (h : (m : ℚ) * 2 ^ e = n * 2 ^ q) :
    nearest negative m e = nearest negative n q := by
  have hnearest := isNearest_nearest negative m e
  rw [h] at hnearest
  exact hnearest.eq (isNearest_nearest negative n q)

theorem nearest_of_eq_zero (negative : Bool) {n : ℕ} {q : ℤ} (h : (n : ℚ) * 2 ^ q = 0) :
    nearest negative n q = ofRank negative 0 := by
  rw [← nearest_zero negative q]
  exact nearest_congr negative (by rw [h, Nat.cast_zero, zero_mul])

/-! ## Numbers that are not rounded -/

/-- A number with 24 bits that is neither too large nor too small is there. -/
theorem toRat?_nearest (negative : Bool) {m : ℕ} {q : ℤ} (hm : m < 0x1000000) (hq : -149 ≤ q)
    (hv : (m : ℚ) * 2 ^ q < 2 ^ 128 - 2 ^ 103) :
    (nearest negative m q).toRat? = some (signed negative (m * 2 ^ q)) := by
  by_cases hm0 : m = 0
  · rw [hm0, nearest_zero, toRat?_ofRank negative (by decide), magnitude_zero, Nat.cast_zero,
      zero_mul]
  · obtain ⟨hlt, hk⟩ := stepExponent_bounds hm0 q
    have hrounded := isRounded_stepCount m q
    obtain ⟨hc, hkc⟩ := count_bounds hrounded hlt hk
    rw [← steps_mul, ← rank_lt_iff hrounded hlt hk] at hv
    have hlog : m.log2 < 24 := (Nat.log2_lt hm0).mpr hm
    have hstep : stepExponent m q ≤ q := by
      unfold stepExponent
      omega
    rw [nearest, rank_eq hm0, min_eq_right hv.le, toRat?_ofRank negative hv,
      magnitude_add hkc hc, stepCount_of_le hstep, steps_mul]

end Binary32

end WellLog
