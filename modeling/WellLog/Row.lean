import WellLog.Field
import WellLog.Layout
import WellLog.Text.Scalar

/-!
# Rows

A row stores the fields of one record in the places that a layout gives them. `Row.storeAll` writes
a field into the place of each column, and `Row.value?` reads a column back as a value of its code.
-/

namespace WellLog

inductive Value where
  | number (n : Number)
  | ident (s : String)
  | object (o : Object)
  deriving DecidableEq, Repr

structure Row where
  bytes : List UInt8
  objects : List Object
  deriving DecidableEq, Repr

def overwrite (bytes : List UInt8) (offset : Nat) (image : List UInt8) : List UInt8 :=
  bytes.take offset ++ image ++ bytes.drop (offset + image.length)

/-- An identifier in a slot: four bytes for each byte of its body, then zeros. -/
def identImage (width : Nat) (body : List UInt8) : List UInt8 :=
  body.flatMap (toLittleEndian 4 ·.toNat) ++ List.replicate (width - 4 * body.length) 0

def units : List UInt8 → List Nat
  | a :: b :: c :: d :: rest => ofLittleEndian [a, b, c, d] :: units rest
  | _ => []

/-- The text of a slot, up to its first zero unit. -/
def ofIdentImage (bytes : List UInt8) : String :=
  String.ofList (((units bytes).takeWhile (· ≠ 0)).filterMap scalar?)

/-- The value that the slot of a code holds; the codes of objects have none. -/
def Code.ofSlot? (code : Code) (bytes : List UInt8) : Option Value :=
  match code with
  | .numeric n => some (.number (n.ofImage bytes))
  | .uvari | .origin => some (.number (Numeric.slong.ofImage bytes))
  | .ident | .units => some (.ident (ofIdentImage bytes))
  | .ascii | .dtime | .obname | .objref | .attref => none

/-- A field goes into a place of its kind that has room for it. -/
def Storage.accepts : Storage → Field → Bool
  | .inline _ width, .packed bytes => bytes.length == width
  | .inline _ width, .ident body => 4 * body.length ≤ width
  | .object _, .object _ => true
  | _, _ => false

namespace Layout

def accepts (layout : Layout) (fields : List Field) : Bool :=
  layout.columns.length == fields.length &&
    (layout.columns.zip fields).all fun (column, field) => column.storage.accepts field

end Layout

namespace Row

def blank (layout : Layout) : Row :=
  ⟨List.replicate layout.inlineStride 0, List.replicate layout.objectStride .absent⟩

def store (row : Row) : Storage → Field → Row
  | .inline offset _, .packed bytes => { row with bytes := overwrite row.bytes offset bytes }
  | .inline offset width, .ident body =>
    { row with bytes := overwrite row.bytes offset (identImage width body) }
  | .object slot, .object o => { row with objects := row.objects.set slot o }
  | _, _ => row

def storeAll : Row → List Column → List Field → Row
  | row, column :: columns, field :: fields =>
    (row.store column.storage field).storeAll columns fields
  | row, _, _ => row

def object? (row : Row) (column : Column) : Option Object :=
  match column.storage with
  | .inline _ _ => none
  | .object slot => row.objects[slot]?

def value? (row : Row) (column : Column) : Option Value :=
  match column.storage with
  | .inline offset width => column.code.ofSlot? (part offset width row.bytes)
  | .object slot => row.objects[slot]?.map .object

end Row

end WellLog
