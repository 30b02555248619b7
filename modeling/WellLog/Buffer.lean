import WellLog.Row

/-!
# Buffers of rows

A buffer has a fixed number of rows of one layout. All its operations are total: what lies outside
is `none`, and a row of fields that the layout does not accept is refused as a whole. Storing a row
leaves the others as they are (`Buffer.stored?_of_commit?`).
-/

namespace WellLog

structure Buffer where
  layout : Layout
  size : Nat
  /-- What the rows hold, by their numbers; those from `size` on are not part of the buffer. -/
  rows : Nat → Row

namespace Buffer

def blank (layout : Layout) (size : Nat) : Buffer := ⟨layout, size, fun _ => .blank layout⟩

def stored? (b : Buffer) (row : Nat) : Option Row :=
  if row < b.size then some (b.rows row) else none

def replace (b : Buffer) (row : Nat) (new : Row) : Buffer :=
  { b with rows := fun other => if other = row then new else b.rows other }

def rowBytes? (b : Buffer) (row : Nat) : Option (List UInt8) := (b.stored? row).map Row.bytes

def rowObjects? (b : Buffer) (row : Nat) : Option (List Object) := (b.stored? row).map Row.objects

def object? (b : Buffer) (row column : Nat) : Option Object := do
  let column ← b.layout.columns[column]?
  let row ← b.stored? row
  row.object? column

def value? (b : Buffer) (row column : Nat) : Option Value := do
  let column ← b.layout.columns[column]?
  let row ← b.stored? row
  row.value? column

/-- The values of all columns. Where there are no columns this is the empty list, whatever the
row. -/
def row? (b : Buffer) (row : Nat) : Option (List Value) :=
  (List.range b.layout.columns.length).mapM (b.value? row)

/-- The buffer with the fields in a row, if there is such a row and the layout accepts them. -/
def commit? (b : Buffer) (row : Nat) (fields : List Field) : Option Buffer :=
  match b.stored? row with
  | some old =>
    if b.layout.accepts fields then
      some (b.replace row (old.storeAll b.layout.columns fields))
    else none
  | none => none

variable {b b' : Buffer} {row other : Nat} {fields : List Field}

@[simp] theorem stored?_blank (layout : Layout) (size : Nat) :
    (blank layout size).stored? row = if row < size then some (.blank layout) else none := rfl

theorem stored?_replace (new : Row) (h : row < b.size) :
    (b.replace row new).stored? other = if other = row then some new else b.stored? other := by
  by_cases he : other = row
  · simp [stored?, replace, he, h]
  · simp [stored?, replace, he]

theorem stored?_eq_some_iff {contents : Row} :
    b.stored? row = some contents ↔ row < b.size ∧ b.rows row = contents := by
  simp [stored?]

theorem commit?_eq_some_iff :
    b.commit? row fields = some b' ↔ ∃ old, b.stored? row = some old
      ∧ b.layout.accepts fields = true
      ∧ b' = b.replace row (old.storeAll b.layout.columns fields) := by
  rw [commit?]
  split
  · next old h =>
    simp only [h, Option.some.injEq, exists_eq_left', Option.ite_none_right_eq_some,
      eq_comm (a := b')]
  · next h => simp [h]

theorem layout_of_commit? (h : b.commit? row fields = some b') : b'.layout = b.layout := by
  obtain ⟨old, _, _, rfl⟩ := commit?_eq_some_iff.mp h
  rfl

theorem size_of_commit? (h : b.commit? row fields = some b') : b'.size = b.size := by
  obtain ⟨old, _, _, rfl⟩ := commit?_eq_some_iff.mp h
  rfl

theorem stored?_of_commit? (h : b.commit? row fields = some b') (hne : other ≠ row) :
    b'.stored? other = b.stored? other := by
  obtain ⟨old, hold, _, rfl⟩ := commit?_eq_some_iff.mp h
  rw [stored?_replace _ (stored?_eq_some_iff.mp hold).1, if_neg hne]

end Buffer

end WellLog
