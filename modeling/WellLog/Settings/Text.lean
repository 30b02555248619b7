import WellLog.Settings
import WellLog.Toml.Document

/-!
# Settings as a text

Settings are kept in a TOML text with one key for each. A key may be left out, no other key may be
there, and no value may be out of range. A policy is given by its name, or by a table whose only
entry is an empty one of that name.
-/

namespace WellLog

namespace SequencePolicy

def name : SequencePolicy → String
  | reset => "reset"
  | keepExpecting => "keep_expecting"

def ofName? (s : String) : Option SequencePolicy :=
  if s = reset.name then some reset
  else if s = keepExpecting.name then some keepExpecting
  else none

@[simp] theorem ofName?_name (policy : SequencePolicy) : ofName? policy.name = some policy := by
  cases policy <;> decide

def ofValue? : Toml.Value → Option SequencePolicy
  | .text s => ofName? s
  | .table _ [(s, .table _ [])] => ofName? s
  | _ => none

end SequencePolicy

namespace Setting

def key : Setting → String
  | identCapacity _ => "ident_capacity"
  | sequencePolicy _ => "sequence_policy"
  | firstRowIndex _ => "first_row_index"
  | logAnomalies _ => "log_anomalies"

def valueText : Setting → String
  | identCapacity n => toString n
  | sequencePolicy policy => "\x22" ++ policy.name ++ "\x22"
  | firstRowIndex n => toString n.toNat
  | logAnomalies on => if on then "true" else "false"

def line (s : Setting) : String := s.key ++ " = " ++ s.valueText ++ "\n"

/-- The setting of a key, where the value is one of its kind and in range. -/
def ofEntry? (key : String) (v : Toml.Value) : Option Setting :=
  match key, v with
  | "ident_capacity", .integer n => if 0 ≤ n then some (identCapacity n.toNat) else none
  | "sequence_policy", v => (SequencePolicy.ofValue? v).map sequencePolicy
  | "first_row_index", .integer n =>
    if 0 ≤ n ∧ n < 0x100000000 then some (firstRowIndex (UInt32.ofNat n.toNat)) else none
  | "log_anomalies", .boolean on => some (logAnomalies on)
  | _, _ => none

end Setting

namespace Settings

def toList (s : Settings) : List Setting :=
  [.identCapacity s.identCapacity, .sequencePolicy s.sequencePolicy,
    .firstRowIndex s.firstRowIndex, .logAnomalies s.logAnomalies]

def toToml (s : Settings) : String := String.join (s.toList.map Setting.line)

def changes? (text : String) : Option (List Setting) := do
  let table ← Toml.parse? text
  table.mapM fun (key, v) => Setting.ofEntry? key v

def ofToml (text : String) : Except SettingsFault Settings :=
  match changes? text with
  | some changes => build changes
  | none => .error .unreadable

end Settings

end WellLog
