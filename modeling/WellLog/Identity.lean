/-!
# Names of objects

An object is named by its origin, a copy number and an identifier; a reference adds the type of the
object, an attribute reference a label. They are compared part by part in that order, texts by their
characters. A fingerprint is the type and the parts of the name joined by hyphens; the label of an
attribute reference is not part of it.
-/

namespace WellLog

structure ObjectName where
  origin : Int32
  copy : UInt8
  id : String
  deriving DecidableEq, Repr

structure ObjectRef where
  objectType : String
  name : ObjectName
  deriving DecidableEq, Repr

structure AttributeRef where
  objectType : String
  name : ObjectName
  label : String
  deriving DecidableEq, Repr

namespace ObjectName

instance : Ord ObjectName where
  compare a b :=
    (compare a.origin b.origin).then <| (compare a.copy b.copy).then <| compare a.id b.id

def hasParts (name : ObjectName) (parts : Int32 × UInt8 × String) : Bool :=
  name.origin == parts.1 && name.copy == parts.2.1 && name.id == parts.2.2

def parts (name : ObjectName) : Int32 × UInt8 × String := (name.origin, name.copy, name.id)

def fingerprint (name : ObjectName) (objectType : String) : String :=
  objectType ++ "-" ++ toString name.origin.toInt ++ "-" ++ toString name.copy.toNat ++ "-" ++
    name.id

def text (name : ObjectName) : String :=
  "obname(id='" ++ name.id ++ "', origin=" ++ toString name.origin.toInt ++ ", copynum=" ++
    toString name.copy.toNat ++ ")"

theorem hasParts_iff {a b : ObjectName} : a.hasParts b.parts = true ↔ a = b := by
  cases a; cases b
  simp [hasParts, parts, and_assoc]

end ObjectName

namespace ObjectRef

instance : Ord ObjectRef where
  compare a b := (compare a.objectType b.objectType).then <| compare a.name b.name

def hasParts (ref : ObjectRef) (parts : String × Int32 × UInt8 × String) : Bool :=
  ref.objectType == parts.1 && ref.name.hasParts parts.2

def parts (ref : ObjectRef) : String × Int32 × UInt8 × String := (ref.objectType, ref.name.parts)

def fingerprint (ref : ObjectRef) : String := ref.name.fingerprint ref.objectType

def text (ref : ObjectRef) : String := "objref(fingerprint=" ++ ref.fingerprint ++ ")"

theorem hasParts_iff {a b : ObjectRef} : a.hasParts b.parts = true ↔ a = b := by
  cases a; cases b
  simp [hasParts, parts, ObjectName.hasParts_iff]

end ObjectRef

namespace AttributeRef

instance : Ord AttributeRef where
  compare a b :=
    (compare a.objectType b.objectType).then <| (compare a.name b.name).then <|
      compare a.label b.label

def hasParts (ref : AttributeRef) (parts : String × (Int32 × UInt8 × String) × String) : Bool :=
  ref.objectType == parts.1 && ref.name.hasParts parts.2.1 && ref.label == parts.2.2

def parts (ref : AttributeRef) : String × (Int32 × UInt8 × String) × String :=
  (ref.objectType, ref.name.parts, ref.label)

def fingerprint (ref : AttributeRef) : String := ref.name.fingerprint ref.objectType

def text (ref : AttributeRef) : String :=
  "attref(id='" ++ ref.name.id ++ "', origin=" ++ toString ref.name.origin.toInt ++ ", copynum=" ++
    toString ref.name.copy.toNat ++ ", type=" ++ ref.objectType ++ ")"

theorem hasParts_iff {a b : AttributeRef} : a.hasParts b.parts = true ↔ a = b := by
  cases a; cases b
  simp [hasParts, parts, ObjectName.hasParts_iff, and_assoc]

end AttributeRef

structure CopyOutOfRange where
  copy : Int32
  deriving DecidableEq, Repr

def CopyOutOfRange.message (e : CopyOutOfRange) : String :=
  "invalid argument, copy out of range: " ++ toString e.copy.toInt

/-- The fingerprint of an object that is given part by part. -/
def fingerprint (objectType id : String) (origin copy : Int32) : Except CopyOutOfRange String :=
  if 0 ≤ copy.toInt ∧ copy.toInt ≤ 255 then
    .ok (ObjectRef.fingerprint ⟨objectType, origin, UInt8.ofNat copy.toInt.toNat, id⟩)
  else .error ⟨copy⟩

end WellLog
