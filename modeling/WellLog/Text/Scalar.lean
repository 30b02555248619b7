/-!
# Characters by their numbers

The numbers of characters run to `0x10ffff` and leave out the surrogates.
-/

namespace WellLog

/-- The character of a number, none if the number is a surrogate or too large. -/
def scalar? (n : Nat) : Option Char :=
  if n.isValidChar then some (Char.ofNat n) else none

theorem scalar?_toNat (c : Char) : scalar? c.toNat = some c := by
  have h : c.toNat.isValidChar := c.valid
  rw [scalar?, if_pos h, Char.ofNat_toNat]

end WellLog
