/-!
# Records and their store

A decoder takes its records from a source, which has a record for an index or has none. A store is
one; it numbers its records from zero in the order in which they came. A record keeps its number
when others are added (`Store.record?_push_of_lt`), and a new one takes the first free number
(`Store.record?_push_size`).
-/

namespace WellLog

structure RecordFlags where
  /-- The record describes objects and holds no frame data. -/
  explicit : Bool
  encrypted : Bool
  consistent : Bool
  deriving DecidableEq, Repr

structure Record where
  recordType : UInt8
  flags : RecordFlags
  bytes : List UInt8
  deriving DecidableEq, Repr

/-- An indirectly formatted record that is consistent and not encrypted. -/
def RecordFlags.indirect : RecordFlags := ⟨false, false, true⟩

def Record.frameDataType : UInt8 := 0

def Record.frameData (bytes : List UInt8) : Record := ⟨frameDataType, .indirect, bytes⟩

structure NoRecord where
  index : Nat
  deriving DecidableEq, Repr

def NoRecord.message (e : NoRecord) : String := "no logical record at index " ++ toString e.index

structure Source where
  record? : Nat → Except NoRecord Record

structure Store where
  records : Array Record
  deriving DecidableEq, Repr

namespace Store

def empty : Store := ⟨#[]⟩

def ofList (records : List Record) : Store := ⟨records.toArray⟩

def size (s : Store) : Nat := s.records.size

def isEmpty (s : Store) : Bool := s.records.isEmpty

/-- The index of the new record and the store that holds it. -/
def push (s : Store) (r : Record) : Nat × Store := (s.size, ⟨s.records.push r⟩)

def record? (s : Store) (index : Nat) : Except NoRecord Record :=
  match s.records[index]? with
  | some r => .ok r
  | none => .error ⟨index⟩

instance : Coe Store Source := ⟨fun s => ⟨s.record?⟩⟩

/-- All records of the indices, or the first index that has none. -/
def extract (s : Store) (indices : List Nat) : Except NoRecord (List Record) :=
  indices.mapM s.record?

theorem record?_push_of_lt {s : Store} {r : Record} {index : Nat} (h : index < s.size) :
    (s.push r).2.record? index = s.record? index := by
  simp only [record?, push, size] at h ⊢
  rw [Array.getElem?_push, if_neg (by omega)]

theorem record?_push_size (s : Store) (r : Record) : (s.push r).2.record? (s.push r).1 = .ok r := by
  simp [record?, push, size]

end Store

end WellLog
