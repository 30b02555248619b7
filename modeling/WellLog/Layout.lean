import WellLog.Format
import WellLog.Number

/-!
# Layout of a row

A row keeps its numbers and identifiers in one run of bytes, and its texts, times and names in a
list of objects. A layout gives each column its place: the inline columns follow one another from
offset zero, the object columns take the slots in turn.

An identifier takes four bytes for each character that it may have; that capacity is part of the
layout.
-/

namespace WellLog

/-- The bytes that a value of a code takes in a row, none if it is an object. -/
def Code.inlineWidth? (identCapacity : Nat) : Code → Option Nat
  | .numeric n => some n.slotWidth
  | .uvari | .origin => some 4
  | .ident | .units => some (4 * identCapacity)
  | .ascii | .dtime | .obname | .objref | .attref => none

inductive Storage where
  | inline (offset width : Nat)
  | object (slot : Nat)
  deriving DecidableEq, Repr

structure Column where
  code : Code
  storage : Storage
  deriving DecidableEq, Repr

structure Layout where
  columns : List Column
  inlineStride : Nat
  objectStride : Nat
  identCapacity : Nat
  deriving DecidableEq, Repr

namespace Layout

def cons (column : Column) (layout : Layout) : Layout :=
  { layout with columns := column :: layout.columns }

def place (identCapacity : Nat) : Nat → Nat → Span → Layout
  | offset, slot, [] => ⟨[], offset, slot, identCapacity⟩
  | offset, slot, code :: rest =>
    match code.inlineWidth? identCapacity with
    | some width =>
      (place identCapacity (offset + width) slot rest).cons ⟨code, .inline offset width⟩
    | none => (place identCapacity offset (slot + 1) rest).cons ⟨code, .object slot⟩

def ofSpan (fields : Span) (identCapacity : Nat) : Layout := place identCapacity 0 0 fields

theorem map_code_place (identCapacity : Nat) (span : Span) :
    ∀ offset slot, (place identCapacity offset slot span).columns.map Column.code = span := by
  induction span with
  | nil => intros; rfl
  | cons code rest ih =>
    intro offset slot
    simp only [place]
    split <;> simp [cons, ih]

theorem map_code_ofSpan (fields : Span) (identCapacity : Nat) :
    (ofSpan fields identCapacity).columns.map Column.code = fields :=
  map_code_place identCapacity fields 0 0

end Layout

end WellLog
