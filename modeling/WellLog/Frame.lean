import WellLog.Fault
import WellLog.Field

/-!
# Frames

A record of frame data starts with the name of its frame. If nothing follows, it holds no row;
otherwise a row index follows, and one value for each code of the format. Nothing may be left then.

Reading a record changes nothing, so a fault in it leaves no trace but itself; it says in which part
of the record it lies and where the part starts.
-/

namespace WellLog

structure LocatedFault where
  fault : Fault
  offset : Nat
  deriving DecidableEq, Repr

/-- A row that has been read and not yet stored. -/
structure StagedRow where
  rowIndex : UInt32
  fields : List Field
  deriving DecidableEq, Repr

namespace Frame

def located {α : Type} (part : RecordPart) (start : Cursor) :
    Except OutOfBounds α → Except LocatedFault α
  | .ok a => .ok a
  | .error e => .error ⟨.corrupt part e.needed e.available, start.position⟩

def readName (c : Cursor) : Except LocatedFault ((Int32 × UInt8) × Cursor) :=
  located .name c c.nameHead

def refused (start : Cursor) : Refusal → LocatedFault
  | .tooLong length capacity => ⟨.fieldTooLong length capacity, start.position⟩
  | .notATime => ⟨.notATime, start.position⟩

def readField (identCapacity column : Nat) (code : Code) (c : Cursor) :
    Except LocatedFault (Field × Cursor) := do
  match ← located (.field column code) c (Field.read identCapacity code c) with
  | (.ok field, c) => .ok (field, c)
  | (.error refusal, _) => .error (refused c refusal)

def readFields (identCapacity : Nat) :
    Nat → Span → Cursor → Except LocatedFault (List Field × Cursor)
  | _, [], c => .ok ([], c)
  | column, code :: codes, c => do
    let (field, c) ← readField identCapacity column code c
    let (fields, c) ← readFields identCapacity (column + 1) codes c
    pure (field :: fields, c)

def readRow (identCapacity : Nat) (format : FrameFormat) (c : Cursor) :
    Except LocatedFault (StagedRow × Cursor) := do
  let (rowIndex, c) ← located .rowIndex c c.uvari
  let c ← located .leading c (Span.skip format.leading c)
  let (fields, c) ← readFields identCapacity 0 format.fields c
  let c ← located .trailing c (Span.skip format.trailing c)
  pure (⟨UInt32.ofNat rowIndex, fields⟩, c)

/-- What follows the name: a row, or nothing. -/
def readBody (identCapacity : Nat) (format : FrameFormat) (c : Cursor) :
    Except LocatedFault (Option StagedRow) :=
  if c.isExhausted then .ok none
  else do
    let (row, c) ← readRow identCapacity format c
    if c.isExhausted then .ok (some row)
    else .error ⟨.secondRow c.remaining, c.position⟩

end Frame

end WellLog
