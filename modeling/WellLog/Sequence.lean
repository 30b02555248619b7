import WellLog.Settings

/-!
# Row indices in sequence

The rows of a frame are numbered, and a decoder expects each row index to follow the one before it.
One that does not is an anomaly: it is noted, and the policy says what is expected next.
-/

namespace WellLog

structure Anomaly where
  record : Nat
  expected : UInt32
  found : UInt32
  deriving DecidableEq, Repr

/-- The next row index; there is none behind the largest. -/
def nextIndex (n : UInt32) : UInt32 := if n = 0xffffffff then n else n + 1

theorem toNat_nextIndex (n : UInt32) : (nextIndex n).toNat = min (n.toNat + 1) 0xffffffff := by
  have hn := n.toNat_lt
  rw [nextIndex]
  split
  · subst_vars
    rfl
  · next h =>
    have hne : n.toNat ≠ 0xffffffff := fun e => h (UInt32.toNat_inj.mp e)
    rw [UInt32.toNat_add, Nat.mod_eq_of_lt] <;> simp only [UInt32.reduceToNat] <;> omega

def SequencePolicy.next (policy : SequencePolicy) (expected found : UInt32) : UInt32 :=
  match policy with
  | reset => nextIndex found
  | keepExpecting => nextIndex expected

end WellLog
