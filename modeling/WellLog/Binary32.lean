/-!
# IEEE 754 numbers as words

A floating-point number is held as its bits, so that signs of zero and payloads of not-a-numbers
are values like any other. `Binary32.nearest` rounds a dyadic rational once, to the nearest number
of the single format, a half going to the even neighbour.

The bits of the single format count its non-negative numbers in order: the step between neighbours
doubles with every binade, but each binade adds the same `0x800000` to the count. Rounding therefore
is one division by the step, and a carry into the next binade, or into infinity, needs no case.
-/

namespace WellLog

/-- A number of the IEEE 754 single format. -/
structure Binary32 where
  bits : UInt32
  deriving DecidableEq, Repr

/-- A number of the IEEE 754 double format. -/
structure Binary64 where
  bits : UInt64
  deriving DecidableEq, Repr

/-- The integer nearest to `n / step`, a half going to the even neighbour. -/
def halfEven (n step : Nat) : Nat :=
  let floor := n / step
  let rest := 2 * (n % step)
  if step < rest ∨ rest = step ∧ floor % 2 = 1 then floor + 1 else floor

theorem halfEven_one_right (n : Nat) : halfEven n 1 = n := by
  simp [halfEven, Nat.mod_one]

theorem halfEven_close (n : Nat) {step : Nat} (h : 0 < step) :
    2 * (step * halfEven n step) ≤ 2 * n + step ∧ 2 * n ≤ 2 * (step * halfEven n step) + step := by
  have hn := Nat.div_add_mod n step
  have hr := Nat.mod_lt n h
  simp only [halfEven]
  split
  · rw [Nat.mul_add, Nat.mul_one]
    omega
  · omega

theorem even_halfEven_of_tie {n step : Nat} (h : 2 * (n % step) = step) :
    halfEven n step % 2 = 0 := by
  simp only [halfEven, h, Nat.lt_irrefl, false_or, true_and]
  split <;> omega

namespace Binary32

def nan : Binary32 := ⟨0x7fc00000⟩

/-- The place of infinity among the non-negative numbers. -/
def infinityRank : Nat := 0x7f800000

/-- The number of the given sign that has `rank` smaller magnitudes. -/
def ofRank (negative : Bool) (rank : Nat) : Binary32 :=
  ⟨UInt32.ofNat (rank + if negative then 0x80000000 else 0)⟩

/-- The exponent of the step around the magnitude `m * 2 ^ q`: 24 bits of precision, but never
less than the least positive number. -/
def stepExponent (m : Nat) (q : Int) : Int :=
  max (m.log2 + q - 23) (-149)

/-- The place of the number nearest to `m * 2 ^ q` among the non-negative numbers. -/
def rank (m : Nat) (q : Int) : Nat :=
  if m = 0 then 0 else
    let step := stepExponent m q
    let count :=
      if q < step then halfEven m (1 <<< (step - q).toNat) else m <<< (q - step).toNat
    min infinityRank ((step + 149).toNat * 0x800000 + count)

/-- The number nearest to `m * 2 ^ q`, with the given sign. -/
def nearest (negative : Bool) (m : Nat) (q : Int) : Binary32 :=
  ofRank negative (rank m q)

end Binary32

end WellLog
