import WellLog.Cursor
import WellLog.Identity
import WellLog.Latin1

/-!
# Reading names

Names of objects in a record: the origin as a number of variable width, the copy number as one byte,
identifiers behind their count. An origin is below `2 ^ 30`, so as a signed word it is not negative.
-/

namespace WellLog.Cursor

def originCopy (c : Cursor) : Except OutOfBounds ((Int32 × UInt8) × Cursor) := do
  let (origin, c) ← c.uvari
  let (copy, c) ← c.byte
  pure ((Int32.ofNat origin, copy), c)

def objectName (c : Cursor) : Except OutOfBounds (ObjectName × Cursor) := do
  let ((origin, copy), c) ← c.originCopy
  let (id, c) ← c.ident
  pure (⟨origin, copy, latin1 id⟩, c)

/-- A name of which only the origin and the copy number are kept. -/
def nameHead (c : Cursor) : Except OutOfBounds ((Int32 × UInt8) × Cursor) := do
  let (head, c) ← c.originCopy
  let (_, c) ← c.ident
  pure (head, c)

def objectRef (c : Cursor) : Except OutOfBounds (ObjectRef × Cursor) := do
  let (objectType, c) ← c.ident
  let (name, c) ← c.objectName
  pure (⟨latin1 objectType, name⟩, c)

def attributeRef (c : Cursor) : Except OutOfBounds (AttributeRef × Cursor) := do
  let (ref, c) ← c.objectRef
  let (label, c) ← c.ident
  pure (⟨ref.objectType, ref.name, latin1 label⟩, c)

end WellLog.Cursor
