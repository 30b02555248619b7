import WellLog.Cursor.Names
import WellLog.Number
import WellLog.Text.Repair
import WellLog.Timestamp

/-!
# Fields of a row

`Field.read` takes one value of a code from a record in the form in which a row stores it: numbers
as their slot, identifiers as their body, everything else as an object. A value that is there but
that no row can hold is passed over all the same, so a refusal comes with the cursor behind it.
-/

namespace WellLog

/-- A value too large for a slot: a text, a time, or a name. A slot that was never written holds
`absent`. -/
inductive Object where
  | absent
  | text (t : RecordText)
  | name (n : ObjectName)
  | ref (r : ObjectRef)
  | attribute (r : AttributeRef)
  | time (t : Timestamp)
  deriving DecidableEq, Repr

inductive Field where
  | packed (bytes : List UInt8)
  | ident (body : List UInt8)
  | object (o : Object)
  deriving DecidableEq, Repr

/-- A value that no row can hold. -/
inductive Refusal where
  | tooLong (length capacity : Nat)
  | notATime
  deriving DecidableEq, Repr

namespace Field

def number (n : Number) : Field := packed n.image

def ofIdent (identCapacity : Nat) (body : List UInt8) : Except Refusal Field :=
  if body.length ≤ identCapacity then .ok (ident body)
  else .error (.tooLong body.length identCapacity)

def ofTime (bytes : List UInt8) : Except Refusal Field :=
  match (Dtime.ofBytes bytes).timestamp? with
  | some t => .ok (object (.time t))
  | none => .error .notATime

def read (identCapacity : Nat) (code : Code) (c : Cursor) :
    Except OutOfBounds (Except Refusal Field × Cursor) :=
  match code with
  | .numeric n => do
    let (bytes, c) ← c.take n.width
    pure (.ok (number (n.read bytes)), c)
  | .uvari | .origin => do
    let (n, c) ← c.uvari
    pure (.ok (number (.i32 (Int32.ofNat n))), c)
  | .ident | .units => do
    let (body, c) ← c.ident
    pure (ofIdent identCapacity body, c)
  | .ascii => do
    let (body, c) ← c.ascii
    pure (.ok (object (.text (.decode body))), c)
  | .dtime => do
    let (bytes, c) ← c.take 8
    pure (ofTime bytes, c)
  | .obname => do
    let (name, c) ← c.objectName
    pure (.ok (object (.name name)), c)
  | .objref => do
    let (ref, c) ← c.objectRef
    pure (.ok (object (.ref ref)), c)
  | .attref => do
    let (ref, c) ← c.attributeRef
    pure (.ok (object (.attribute ref)), c)

end Field

end WellLog
