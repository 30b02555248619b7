import WellLog.Format
import WellLog.Record
import WellLog.Text.Quoted

/-!
# Why decoding fails

A failure is a fault and where it lies: in which record, and how far into it. Faults of the request
itself, a format that cannot be read or a buffer that does not fit, lie in no record.
-/

namespace WellLog

inductive RecordPart where
  | name
  | rowIndex
  | leading
  | field (column : Nat) (code : Code)
  | trailing
  deriving DecidableEq, Repr

def RecordPart.text : RecordPart → String
  | name => "frame prefix"
  | rowIndex => "row index"
  | leading => "leading skipped fields"
  | field column code => "column " ++ toString column ++ " (" ++ code.name ++ ")"
  | trailing => "trailing skipped fields"

inductive Fault where
  | format (fault : FormatFault)
  | rowCountMismatch (capacity requested : Nat)
  | layoutMismatch
  | noRecord (missing : NoRecord)
  | encrypted
  /-- The record ends within a part. -/
  | corrupt (part : RecordPart) (needed available : Nat)
  | fieldTooLong (length capacity : Nat)
  | notATime
  /-- Bytes are left behind the row. -/
  | secondRow (trailing : Nat)
  deriving DecidableEq, Repr

structure Failure where
  fault : Fault
  record : Option Nat
  offset : Option Nat
  deriving DecidableEq, Repr

def FormatFault.message : FormatFault → String
  | unknownSymbol symbol position =>
    "invalid format symbol " ++ Text.quoted symbol ++ " at position " ++ toString position
  | noColumns => "field format must select at least one column"

namespace Fault

def message : Fault → String
  | format fault => fault.message
  | rowCountMismatch capacity requested =>
    "destination holds " ++ toString capacity ++ " rows but " ++ toString requested ++
      " records were requested"
  | layoutMismatch => "destination layout does not match the field format"
  | noRecord missing => "record unavailable: " ++ missing.message
  | encrypted => "unable to decode encrypted record"
  | corrupt part needed available =>
    "corrupt record: reading " ++ part.text ++ " needs " ++ toString needed ++ " bytes, " ++
      toString available ++ " left"
  | fieldTooLong length capacity =>
    "identifier of " ++ toString length ++ " characters exceeds the slot capacity of " ++
      toString capacity
  | notATime => "date/time components do not form a valid timestamp"
  | secondRow trailing =>
    "multiple frames in one record are not supported (" ++ toString trailing ++ " trailing bytes)"

/-- A fault of the request. -/
def alone (fault : Fault) : Failure := ⟨fault, none, none⟩

/-- A fault of a whole record. -/
def inRecord (fault : Fault) (index : Nat) : Failure := ⟨fault, some index, none⟩

end Fault

namespace Failure

def place (f : Failure) : String :=
  match f.record, f.offset with
  | some record, some offset =>
    " (record " ++ toString record ++ ", offset " ++ toString offset ++ ")"
  | some record, none => " (record " ++ toString record ++ ")"
  | none, some offset => " (offset " ++ toString offset ++ ")"
  | none, none => ""

def message (f : Failure) : String := f.fault.message ++ f.place

end Failure

end WellLog
