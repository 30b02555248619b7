import WellLog.Proofs.LaidOut
import WellLog.Proofs.Slicing

/-!
# Buffers as arrays

In memory the rows of a buffer are one array of bytes and one of objects, and a row, a column of a
row, and the part of a column that an identifier takes are slices of them. Storing the fields of a
row takes all of these slices, and is none if one of them is out of range. In the arrays of a buffer
that is laid out it never is, and it does what storing the row in the buffer does
(`Buffer.commit?_flat`).

Any two arrays of the right lengths are those of a buffer (`FlatBuffer.flat_cut`).
-/

namespace WellLog

/-! ## Rows -/

namespace Row

/-- The row with a field in its place. An image must have the length of its column, and the column
of an identifier is split behind its characters. -/
def store? (row : Row) : Storage → Field → Option Row
  | .inline offset width, .packed image => do
    let column ← slice? row.bytes offset (offset + width)
    if image.length = column.length then
      return { row with bytes := ← splice? row.bytes offset image }
    else none
  | .inline offset width, .ident body => do
    let column ← slice? row.bytes offset (offset + width)
    let (_, padding) ← split? column (4 * body.length)
    let image := body.flatMap (toLittleEndian 4 ·.toNat) ++ List.replicate padding.length 0
    return { row with bytes := ← splice? row.bytes offset image }
  | .object slot, .object o =>
    if slot < row.objects.length then some { row with objects := row.objects.set slot o } else none
  | _, _ => none

def storeAll? : Row → List Column → List Field → Option Row
  | row, column :: columns, field :: fields => do
    let row ← row.store? column.storage field
    row.storeAll? columns fields
  | row, _, _ => some row

variable {layout : Layout} {row : Row}

theorem store?_inline {offset width : Nat} {field : Field}
    (ha : (Storage.inline offset width).accepts field = true)
    (h : offset + width ≤ row.bytes.length) :
    row.store? (.inline offset width) field = some (row.store (.inline offset width) field) := by
  have hl : ((row.bytes.drop offset).take width).length = width := by
    rw [List.length_take, List.length_drop]
    omega
  cases field with
  | packed image =>
    obtain rfl : image.length = width := by simpa [Storage.accepts] using ha
    simp only [store?, slice?_add h, Option.bind_eq_bind, Option.bind_some, hl, if_true,
      splice?_of_le h]
    rfl
  | ident body =>
    have hb : 4 * body.length ≤ width := by simpa [Storage.accepts] using ha
    have hi := length_identImage hb
    have hle : offset + (identImage width body).length ≤ row.bytes.length := by rwa [hi]
    simp only [store?, slice?_add h, Option.bind_eq_bind, Option.bind_some, split?, hl, hb, if_true,
      List.splitAt_eq, List.length_drop]
    exact congrArg (Option.bind · _) (splice?_of_le hle)
  | object o => exact absurd ha Bool.false_ne_true

theorem store?_eq {column : Column} {field : Field} (hr : row.Fits layout)
    (hw : column.IsWithin layout) (ha : column.storage.accepts field = true) :
    row.store? column.storage field = some (row.store column.storage field)
      ∧ (row.store column.storage field).Fits layout := by
  obtain ⟨code, ⟨offset, width⟩ | slot⟩ := column
  · have hle : offset + width ≤ row.bytes.length := by
      rw [hr.bytes]
      exact (Column.isWithin_inline_iff.mp hw).2
    exact ⟨store?_inline ha hle, fits_store_inline ha hle hr⟩
  · obtain ⟨o, rfl⟩ := exists_store_object ha
    refine ⟨if_pos ?_, fits_store_object hr⟩
    rw [hr.objects]
    exact (Column.isWithin_object_iff.mp hw).2

theorem storeAll?_eq {columns : List Column} {fields : List Field} (hr : row.Fits layout)
    (hw : ∀ column ∈ columns, column.IsWithin layout)
    (ha : (columns.zip fields).all (fun (column, field) => column.storage.accepts field) = true) :
    row.storeAll? columns fields = some (row.storeAll columns fields)
      ∧ (row.storeAll columns fields).Fits layout := by
  induction columns generalizing row fields with
  | nil => exact ⟨rfl, hr⟩
  | cons column columns ih =>
    cases fields with
    | nil => exact ⟨rfl, hr⟩
    | cons field fields =>
      rw [List.zip_cons_cons, List.all_cons, Bool.and_eq_true] at ha
      obtain ⟨hwc, hws⟩ := List.forall_mem_cons.mp hw
      obtain ⟨hstore, hfits⟩ := store?_eq hr hwc ha.1
      rw [storeAll?, hstore]
      exact ih hfits hws ha.2

end Row

/-! ## Buffers -/

structure FlatBuffer where
  layout : Layout
  size : Nat
  bytes : List UInt8
  objects : List Object

namespace Buffer

def flat (b : Buffer) : FlatBuffer where
  layout := b.layout
  size := b.size
  bytes := (List.range b.size).flatMap fun row => (b.rows row).bytes
  objects := (List.range b.size).flatMap fun row => (b.rows row).objects

end Buffer

namespace FlatBuffer

def row? (b : FlatBuffer) (row : Nat) : Option Row := do
  let bytes ← slice? b.bytes (row * b.layout.inlineStride) ((row + 1) * b.layout.inlineStride)
  let objects ←
    slice? b.objects (row * b.layout.objectStride) ((row + 1) * b.layout.objectStride)
  pure ⟨bytes, objects⟩

def replace? (b : FlatBuffer) (row : Nat) (new : Row) : Option FlatBuffer := do
  let bytes ← splice? b.bytes (row * b.layout.inlineStride) new.bytes
  let objects ← splice? b.objects (row * b.layout.objectStride) new.objects
  pure { b with bytes, objects }

/-- The buffer with the fields in a row, or no buffer if there is no such row or the layout does not
accept the fields. All of this is none if something that it takes is out of range. -/
def commit? (b : FlatBuffer) (row : Nat) (fields : List Field) : Option (Option FlatBuffer) :=
  if row < b.size then do
    let old ← b.row? row
    if b.layout.accepts fields then
      let new ← old.storeAll? b.layout.columns fields
      return some (← b.replace? row new)
    else return none
  else return none

/-- The rows that the arrays are cut into. -/
def cut (b : FlatBuffer) : Buffer where
  layout := b.layout
  size := b.size
  rows row :=
    ⟨(b.bytes.drop (row * b.layout.inlineStride)).take b.layout.inlineStride,
      (b.objects.drop (row * b.layout.objectStride)).take b.layout.objectStride⟩

end FlatBuffer

namespace Buffer

variable {b : Buffer} {row : Nat}

theorem row?_flat (h : b.IsLaidOut) (hr : row < b.size) : b.flat.row? row = some (b.rows row) := by
  have hbytes := slice?_flatMap_range (fun other ho => (h.fits other ho).bytes) hr
  have hobjects := slice?_flatMap_range (fun other ho => (h.fits other ho).objects) hr
  simp only [FlatBuffer.row?, flat, hbytes, hobjects, Option.bind_eq_bind, Option.bind_some]
  rfl

theorem replace?_flat {new : Row} (h : b.IsLaidOut) (hr : row < b.size)
    (hnew : new.Fits b.layout) : b.flat.replace? row new = some (b.replace row new).flat := by
  have hbytes := splice?_flatMap_range (fun other ho => (h.fits other ho).bytes) hr hnew.bytes
  have hobjects :=
    splice?_flatMap_range (fun other ho => (h.fits other ho).objects) hr hnew.objects
  simp only [FlatBuffer.replace?, flat, hbytes, hobjects, Option.bind_eq_bind, Option.bind_some,
    replace, apply_ite Row.bytes, apply_ite Row.objects]
  rfl

/-- In the arrays of a buffer that is laid out a row is stored as in the buffer. -/
theorem commit?_flat (h : b.IsLaidOut) (row : Nat) (fields : List Field) :
    b.flat.commit? row fields = some ((b.commit? row fields).map flat) := by
  rw [FlatBuffer.commit?]
  by_cases hr : row < b.size
  · have hold : b.stored? row = some (b.rows row) := stored?_eq_some_iff.mpr ⟨hr, rfl⟩
    rw [if_pos (show row < b.flat.size from hr), row?_flat h hr, Buffer.commit?, hold]
    by_cases ha : b.layout.accepts fields = true
    · obtain ⟨hstore, hfits⟩ :=
        Row.storeAll?_eq (h.fits row hr) h.isWithin (Bool.and_eq_true_iff.mp ha).2
      simp only [Option.bind_eq_bind, Option.bind_some, ha, if_true, show b.flat.layout = b.layout
        from rfl, hstore, replace?_flat h hr hfits]
      rfl
    · simp only [Option.bind_eq_bind, Option.bind_some, ha, show b.flat.layout = b.layout from rfl]
      rfl
  · have hnone : b.stored? row = none := if_neg hr
    rw [if_neg (show ¬row < b.flat.size from hr), Buffer.commit?, hnone]
    rfl

end Buffer

/-! ## Arrays -/

namespace FlatBuffer

/-- The arrays are those of a buffer of their layout. -/
structure IsFull (b : FlatBuffer) : Prop where
  ofSpan : ∃ span identCapacity, b.layout = .ofSpan span identCapacity
  bytes : b.bytes.length = b.size * b.layout.inlineStride
  objects : b.objects.length = b.size * b.layout.objectStride

variable {b : FlatBuffer}

theorem flat_cut (h : b.IsFull) : b.cut.flat = b := by
  have hbytes := flatMap_range_take_drop b.bytes b.layout.inlineStride b.size
  have hobjects := flatMap_range_take_drop b.objects b.layout.objectStride b.size
  rw [← h.bytes, List.take_length] at hbytes
  rw [← h.objects, List.take_length] at hobjects
  simp only [Buffer.flat, cut, hbytes, hobjects]

theorem isLaidOut_cut (h : b.IsFull) : b.cut.IsLaidOut := by
  refine ⟨h.ofSpan, fun row hr => ?_⟩
  have hle : ∀ stride, row * stride + stride ≤ b.size * stride := fun stride => by
    rw [← Nat.succ_mul]
    exact Nat.mul_le_mul_right stride hr
  have hbytes := hle b.layout.inlineStride
  have hobjects := hle b.layout.objectStride
  rw [← h.bytes] at hbytes
  rw [← h.objects] at hobjects
  constructor
  · simp only [cut, List.length_take, List.length_drop]
    omega
  · simp only [cut, List.length_take, List.length_drop]
    omega

end FlatBuffer

end WellLog
