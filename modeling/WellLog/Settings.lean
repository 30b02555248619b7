/-!
# Settings of a decoder

A decoder has four settings, each with a default. They are given one by one, and the last one of a
kind counts; what results passes a single check, the room for an identifier (`Settings.build`).
-/

namespace WellLog

/-- What row index is expected behind one that was not expected. -/
inductive SequencePolicy where
  /-- The successor of the one that was found. -/
  | reset
  /-- The successor of the one that had been expected. -/
  | keepExpecting
  deriving DecidableEq, Repr

structure Settings where
  /-- The characters that a row has room for in an identifier. -/
  identCapacity : Nat
  sequencePolicy : SequencePolicy
  firstRowIndex : UInt32
  logAnomalies : Bool
  deriving DecidableEq, Repr

/-- The longest identifier, whose length is written in one byte. -/
def maxIdentCapacity : Nat := 255

inductive Setting where
  | identCapacity (n : Nat)
  | sequencePolicy (policy : SequencePolicy)
  | firstRowIndex (n : UInt32)
  | logAnomalies (on : Bool)
  deriving DecidableEq, Repr

inductive SettingsFault where
  /-- The text is no TOML, or has a key or a value that is no setting. -/
  | unreadable
  | identCapacity (capacity : Nat)
  deriving DecidableEq, Repr

namespace Settings

def standard : Settings := ⟨maxIdentCapacity, .reset, 1, true⟩

instance : Inhabited Settings := ⟨standard⟩

def set (s : Settings) : Setting → Settings
  | .identCapacity n => { s with identCapacity := n }
  | .sequencePolicy policy => { s with sequencePolicy := policy }
  | .firstRowIndex n => { s with firstRowIndex := n }
  | .logAnomalies on => { s with logAnomalies := on }

/-- An identifier has room for at least one character, and no more than its length can count. -/
def IsValid (s : Settings) : Prop := 1 ≤ s.identCapacity ∧ s.identCapacity ≤ maxIdentCapacity

instance (s : Settings) : Decidable s.IsValid := inferInstanceAs (Decidable (_ ∧ _))

def check (s : Settings) : Except SettingsFault Settings :=
  if s.IsValid then .ok s else .error (.identCapacity s.identCapacity)

/-- The standard settings with changes, if they are valid in the end. -/
def build (changes : List Setting) : Except SettingsFault Settings :=
  (changes.foldl set standard).check

theorem check_eq_ok_iff {s t : Settings} : s.check = .ok t ↔ s.IsValid ∧ s = t := by
  rw [check]
  split <;> simp [*]

theorem isValid_of_build {changes : List Setting} {s : Settings} (h : build changes = .ok s) :
    s.IsValid := by
  obtain ⟨hv, rfl⟩ := check_eq_ok_iff.mp h
  exact hv

end Settings

def SettingsFault.message : SettingsFault → String
  | .unreadable => "failed to parse decoder configuration"
  | .identCapacity capacity => "ident capacity " ++ toString capacity ++ " is outside 1..=255"

end WellLog
