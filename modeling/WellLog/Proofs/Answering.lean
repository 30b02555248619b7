import WellLog.Proofs.Committing
import WellLog.Proofs.InRange
import WellLog.Proofs.Reusing
import WellLog.Proofs.Tiling

/-!
# What a buffer answers

Whatever rows are stored in a buffer and whatever calls use it, with or without success, its arrays
stay those of a buffer that is laid out (`Buffer.useAll_flat`). Nothing that is asked of them is out
of range, and the answers are those of the buffer (`Buffer.read?_flat`, `Buffer.values?_flat`).

So each row that there is answers with its part of the arrays, and each of its columns with a value
of the form that its code gives to values (`FlatBuffer.answers_of_made`).
-/

namespace WellLog

/-! ## Forms of values -/

inductive Number.IsOf : Number → Numeric → Prop
  | fshort (x : Binary32) : IsOf (.f32 x) .fshort
  | fsingl (x : Binary32) : IsOf (.f32 x) .fsingl
  | fsing1 (x y : Binary32) : IsOf (.f32Pair x y) .fsing1
  | fsing2 (x y z : Binary32) : IsOf (.f32Triple x y z) .fsing2
  | isingl (x : Binary32) : IsOf (.f32 x) .isingl
  | vsingl (x : Binary32) : IsOf (.f32 x) .vsingl
  | fdoubl (x : Binary64) : IsOf (.f64 x) .fdoubl
  | fdoub1 (x y : Binary64) : IsOf (.f64Pair x y) .fdoub1
  | fdoub2 (x y z : Binary64) : IsOf (.f64Triple x y z) .fdoub2
  | csingl (re im : Binary32) : IsOf (.c32 re im) .csingl
  | cdoubl (re im : Binary64) : IsOf (.c64 re im) .cdoubl
  | sshort (n : Int8) : IsOf (.i8 n) .sshort
  | snorm (n : Int16) : IsOf (.i16 n) .snorm
  | slong (n : Int32) : IsOf (.i32 n) .slong
  | ushort (n : UInt8) : IsOf (.u8 n) .ushort
  | unorm (n : UInt16) : IsOf (.u16 n) .unorm
  | ulong (n : UInt32) : IsOf (.u32 n) .ulong
  | status (n : UInt8) : IsOf (.u8 n) .status

/-- The value has the form that the code gives to its values. -/
inductive Value.IsOf : Value → Code → Prop
  | number {n : Number} {code : Numeric} (h : n.IsOf code) : IsOf (.number n) (.numeric code)
  | uvari (n : Int32) : IsOf (.number (.i32 n)) .uvari
  | origin (n : Int32) : IsOf (.number (.i32 n)) .origin
  | ident (s : String) : IsOf (.ident s) .ident
  | units (s : String) : IsOf (.ident s) .units
  | ascii (o : Object) : IsOf (.object o) .ascii
  | dtime (o : Object) : IsOf (.object o) .dtime
  | obname (o : Object) : IsOf (.object o) .obname
  | objref (o : Object) : IsOf (.object o) .objref
  | attref (o : Object) : IsOf (.object o) .attref

namespace Numeric

def zero : Numeric → Number
  | .fshort | .fsingl | .isingl | .vsingl => .f32 ⟨0⟩
  | .fsing1 => .f32Pair ⟨0⟩ ⟨0⟩
  | .fsing2 => .f32Triple ⟨0⟩ ⟨0⟩ ⟨0⟩
  | .fdoubl => .f64 ⟨0⟩
  | .fdoub1 => .f64Pair ⟨0⟩ ⟨0⟩
  | .fdoub2 => .f64Triple ⟨0⟩ ⟨0⟩ ⟨0⟩
  | .csingl => .c32 ⟨0⟩ ⟨0⟩
  | .cdoubl => .c64 ⟨0⟩ ⟨0⟩
  | .sshort => .i8 0
  | .snorm => .i16 0
  | .slong => .i32 0
  | .ushort | .status => .u8 0
  | .unorm => .u16 0
  | .ulong => .u32 0

/-- The number in a slot, each of its parts taken out on its own. -/
def readSlot? (code : Numeric) (bytes : List UInt8) : Option Number :=
  let single (start : Nat) := (slice? bytes start (start + 4)).map Binary32.ofSlot
  let double (start : Nat) := (slice? bytes start (start + 8)).map Binary64.ofSlot
  let whole (width : Nat) := (slice? bytes 0 width).map ofLittleEndian
  match code with
  | .fshort | .fsingl | .isingl | .vsingl => do return .f32 (← single 0)
  | .fsing1 => do return .f32Pair (← single 0) (← single 4)
  | .fsing2 => do return .f32Triple (← single 0) (← single 4) (← single 8)
  | .fdoubl => do return .f64 (← double 0)
  | .fdoub1 => do return .f64Pair (← double 0) (← double 8)
  | .fdoub2 => do return .f64Triple (← double 0) (← double 8) (← double 16)
  | .csingl => do return .c32 (← single 0) (← single 4)
  | .cdoubl => do return .c64 (← double 0) (← double 8)
  | .sshort => do return .i8 (UInt8.ofNat (← whole 1)).toInt8
  | .snorm => do return .i16 (UInt16.ofNat (← whole 2)).toInt16
  | .slong => do return .i32 (UInt32.ofNat (← whole 4)).toInt32
  | .ushort | .status => do return .u8 (UInt8.ofNat (← whole 1))
  | .unorm => do return .u16 (UInt16.ofNat (← whole 2))
  | .ulong => do return .u32 (UInt32.ofNat (← whole 4))

theorem isOf_ofImage (code : Numeric) (bytes : List UInt8) : (code.ofImage bytes).IsOf code := by
  cases code <;> constructor

theorem ofImage_replicate (code : Numeric) :
    code.ofImage (List.replicate code.slotWidth 0) = code.zero := by
  cases code <;> rfl

theorem readSlot?_eq {code : Numeric} {bytes : List UInt8} (h : bytes.length = code.slotWidth) :
    code.readSlot? bytes = some (code.ofImage bytes) := by
  have hslice : ∀ {start stop : Nat}, start ≤ stop → stop ≤ code.slotWidth →
      slice? bytes start stop = some (part start (stop - start) bytes) := fun hle hstop =>
    if_pos ⟨hle, h ▸ hstop⟩
  have hwhole : part 0 code.slotWidth bytes = bytes := part_single h
  cases code
  all_goals
    simp only [slotWidth, width] at hslice hwhole
    simp [readSlot?, ofImage, hslice, hwhole]

end Numeric

namespace Code

def zero : Code → Value
  | .numeric code => .number code.zero
  | .uvari | .origin => .number (.i32 0)
  | .ident | .units => .ident ""
  | .ascii | .dtime | .obname | .objref | .attref => .object .absent

/-- The value in the slot of a column of the code. -/
def readSlot? (code : Code) (bytes : List UInt8) : Option Value :=
  match code with
  | .numeric code => (code.readSlot? bytes).map .number
  | .uvari | .origin => (Numeric.slong.readSlot? bytes).map .number
  | .ident | .units => some (.ident (ofIdentImage bytes))
  | .ascii | .dtime | .obname | .objref | .attref => none

variable {identCapacity : Nat} {code : Code} {bytes : List UInt8}

theorem readSlot?_eq (h : code.inlineWidth? identCapacity = some bytes.length) :
    code.readSlot? bytes = code.ofSlot? bytes := by
  cases code with
  | numeric code =>
    have hslot : bytes.length = code.slotWidth := (Option.some.inj h).symm
    exact congrArg (Option.map Value.number) (Numeric.readSlot?_eq hslot)
  | uvari | origin =>
    have hslot : bytes.length = Numeric.slong.slotWidth := (Option.some.inj h).symm
    exact congrArg (Option.map Value.number) (Numeric.readSlot?_eq hslot)
  | _ => rfl

theorem exists_ofSlot? (h : code.inlineWidth? identCapacity = some bytes.length) :
    ∃ value, code.ofSlot? bytes = some value ∧ value.IsOf code := by
  cases code with
  | numeric code => exact ⟨_, rfl, .number (code.isOf_ofImage bytes)⟩
  | uvari => exact ⟨_, rfl, .uvari _⟩
  | origin => exact ⟨_, rfl, .origin _⟩
  | ident => exact ⟨_, rfl, .ident _⟩
  | units => exact ⟨_, rfl, .units _⟩
  | _ => cases h

theorem isOf_object (h : code.inlineWidth? identCapacity = none) (o : Object) :
    (Value.object o).IsOf code := by
  cases code with
  | ascii => exact .ascii o
  | dtime => exact .dtime o
  | obname => exact .obname o
  | objref => exact .objref o
  | attref => exact .attref o
  | _ => cases h

theorem blank?_eq_zero (identCapacity : Nat) (code : Code) :
    code.blank? identCapacity = some code.zero := by
  cases code with
  | numeric code => exact congrArg (some ∘ Value.number) code.ofImage_replicate
  | ident | units => exact congrArg (some ∘ Value.ident) (ofIdentImage_replicate identCapacity)
  | _ => rfl

end Code

/-! ## Questions to the arrays -/

theorem length_of_slice? {α : Type} {l piece : List α} {start stop : Nat}
    (h : slice? l start stop = some piece) : piece.length = stop - start := by
  unfold slice? at h
  split at h
  · next hle =>
    obtain rfl := Option.some.inj h
    rw [List.length_take, List.length_drop]
    omega
  · cases h

section Lists

variable {α β : Type}

/-- The values of a list, if none is missing. What follows a missing value is not looked at. -/
def collect? : List (Option (Option α)) → Option (Option (List α))
  | [] => some (some [])
  | none :: _ => none
  | some none :: _ => some none
  | some (some value) :: rest => (collect? rest).map (Option.map (value :: ·))

variable {f : α → Option β}

theorem collect?_map : ∀ as : List α, collect? (as.map (some ∘ f)) = some (as.mapM f)
  | [] => rfl
  | a :: as => by
    rw [List.map_cons, Function.comp_apply, List.mapM_cons]
    rcases f a with _ | value
    · rfl
    · rw [collect?, collect?_map as]
      rcases as.mapM f with _ | values <;> rfl

theorem map_of_mapM_eq_some : ∀ {as : List α} {bs : List β}, as.mapM f = some bs →
    as.map f = bs.map some
  | [], bs, h => by
    obtain rfl := Option.some.inj h
    rfl
  | a :: as, bs, h => by
    rw [List.mapM_cons] at h
    obtain ⟨b, hb, h⟩ := Option.bind_eq_some_iff.mp h
    obtain ⟨rest, hrest, h⟩ := Option.bind_eq_some_iff.mp h
    obtain rfl := Option.some.inj h
    rw [List.map_cons, List.map_cons, hb, map_of_mapM_eq_some hrest]

theorem mapM_eq_none_iff : ∀ {as : List α}, as.mapM f = none ↔ ∃ a ∈ as, f a = none
  | [] => by simp
  | a :: as => by
    rw [List.mapM_cons]
    have hrest : as.mapM f = none ↔ _ := mapM_eq_none_iff
    rcases h : f a with _ | b
    · simp [h]
    · simp only [List.exists_mem_cons_iff, h, reduceCtorEq, false_or, ← hrest]
      cases as.mapM f <;> simp

end Lists

namespace FlatBuffer

/-- The object in a column of a row, if there are such a row and such a column and the column has
objects. -/
def object? (b : FlatBuffer) (row column : Nat) : Option (Option Object) :=
  match b.layout.columns[column]? with
  | some ⟨_, .object slot⟩ => do
    let objects ← b.rowObjects? row
    return objects.bind fun objects => objects[slot]?
  | _ => return none

/-- The value in a column of a row, the parts of a number taken out of its slot one by one. -/
def read? (b : FlatBuffer) (row column : Nat) : Option (Option Value) :=
  match b.layout.columns[column]? with
  | none => return none
  | some ⟨_, .object slot⟩ => do
    let objects ← b.rowObjects? row
    return objects.bind fun objects => objects[slot]?.map .object
  | some ⟨code, .inline offset width⟩ => do
    let bytes ← b.rowBytes? row
    return bytes.bind fun bytes => (slice? bytes offset (offset + width)).bind code.readSlot?

/-- The values of a row in all columns. -/
def values? (b : FlatBuffer) (row : Nat) : Option (Option (List Value)) :=
  collect? ((List.range b.layout.columns.length).map (b.read? row))

end FlatBuffer

namespace Buffer

variable {b : Buffer}

theorem object?_flat (h : b.IsLaidOut) (row column : Nat) :
    b.flat.object? row column = some (b.object? row column) := by
  unfold FlatBuffer.object? Buffer.object?
  rw [show b.flat.layout = b.layout from rfl]
  rcases b.layout.columns[column]? with _ | ⟨code, ⟨offset, width⟩ | slot⟩
  · rfl
  · simp only [Option.bind_eq_bind, Option.bind_some]
    rcases b.stored? row with _ | old <;> rfl
  · simp only [rowObjects?_flat h, Buffer.rowObjects?, Option.bind_eq_bind, Option.bind_some]
    rcases b.stored? row with _ | old <;> rfl

theorem read?_flat (h : b.IsLaidOut) (row column : Nat) :
    b.flat.read? row column = some (b.value? row column) := by
  rw [← value?_flat h]
  unfold FlatBuffer.read? FlatBuffer.value?
  rw [show b.flat.layout = b.layout from rfl]
  rcases hc : b.layout.columns[column]? with _ | ⟨code, ⟨offset, width⟩ | slot⟩
  · rfl
  · have hwidth := (Column.isWithin_inline_iff.mp (h.isWithin _ (List.mem_of_getElem? hc))).1
    have hslot : ∀ bytes : List UInt8, (slice? bytes offset (offset + width)).bind code.readSlot?
        = (slice? bytes offset (offset + width)).bind code.ofSlot? := by
      intro bytes
      rcases hs : slice? bytes offset (offset + width) with _ | slot
      · rfl
      · rw [← Nat.add_sub_cancel_left offset width, ← length_of_slice? hs] at hwidth
        exact Code.readSlot?_eq hwidth
    simp only [hslot]
  · rfl

theorem values?_flat (h : b.IsLaidOut) (row : Nat) :
    b.flat.values? row = some (b.row? row) := by
  have hread : b.flat.read? row = some ∘ b.value? row := funext (read?_flat h row)
  rw [FlatBuffer.values?, hread, collect?_map]
  rfl

end Buffer

/-! ## Answers -/

/-- What the arrays of a buffer answer to each question about them: they are as long as the rows of
the layout are together, the parts of all rows are the arrays, and just the rows and columns that
there are have values, of the form that the code of the column gives them. -/
structure FlatBuffer.Answers (b : FlatBuffer) : Prop where
  length_bytes : b.bytes.length = b.size * b.layout.inlineStride
  length_objects : b.objects.length = b.size * b.layout.objectStride
  rowBytes : ∀ row < b.size, ∃ bytes, b.rowBytes? row = some (some bytes)
    ∧ bytes.length = b.layout.inlineStride
  rowObjects : ∀ row < b.size, ∃ objects, b.rowObjects? row = some (some objects)
    ∧ objects.length = b.layout.objectStride
  noRow : ∀ row, b.size ≤ row → b.rowBytes? row = some none ∧ b.rowObjects? row = some none
  allBytes : ∃ pieces : List (List UInt8),
    (List.range b.size).map b.rowBytes? = pieces.map (some ∘ some) ∧ pieces.flatten = b.bytes
  allObjects : ∃ pieces : List (List Object),
    (List.range b.size).map b.rowObjects? = pieces.map (some ∘ some) ∧ pieces.flatten = b.objects
  value : ∀ row < b.size, ∀ column place, b.layout.columns[column]? = some place →
    ∃ value, b.read? row column = some (some value) ∧ value.IsOf place.code
  noValue : ∀ row column, ¬(row < b.size ∧ column < b.layout.columns.length) →
    b.read? row column = some none
  object : ∀ row < b.size, ∀ column code slot,
    b.layout.columns[column]? = some ⟨code, .object slot⟩ →
      ∃ objects o, b.rowObjects? row = some (some objects) ∧ objects[slot]? = some o
        ∧ b.object? row column = some (some o) ∧ b.read? row column = some (some (.object o))
  noObject : ∀ row column,
    ¬(row < b.size ∧ ∃ code slot, b.layout.columns[column]? = some ⟨code, .object slot⟩) →
      b.object? row column = some none
  values : ∀ row, row < b.size ∨ b.layout.columns = [] →
    ∃ values, b.values? row = some (some values)
      ∧ (List.range b.layout.columns.length).map (b.read? row) = values.map (some ∘ some)
  noValues : ∀ row, ¬(row < b.size ∨ b.layout.columns = []) → b.values? row = some none

namespace Row

variable {layout : Layout} {row : Row} {column : Column}

theorem exists_value? (hr : row.Fits layout) (hw : column.IsWithin layout) :
    ∃ value, row.value? column = some value ∧ value.IsOf column.code := by
  obtain ⟨code, ⟨offset, width⟩ | slot⟩ := column
  · obtain ⟨hwidth, hle⟩ := Column.isWithin_inline_iff.mp hw
    have hlength : (part offset width row.bytes).length = width := by
      rw [part, List.length_take, List.length_drop, hr.bytes]
      omega
    rw [← hlength] at hwidth
    exact Code.exists_ofSlot? hwidth
  · obtain ⟨hwidth, hlt⟩ := Column.isWithin_object_iff.mp hw
    rw [← hr.objects] at hlt
    exact ⟨.object row.objects[slot], congrArg (Option.map Value.object)
      (List.getElem?_eq_getElem hlt), Code.isOf_object hwidth _⟩

theorem exists_getElem?_objects {code : Code} {slot : Nat} (hr : row.Fits layout)
    (hw : (Column.mk code (.object slot)).IsWithin layout) : ∃ o, row.objects[slot]? = some o := by
  have hlt := (Column.isWithin_object_iff.mp hw).2
  rw [← hr.objects] at hlt
  exact ⟨row.objects[slot], List.getElem?_eq_getElem hlt⟩

end Row

namespace Buffer

variable {b : Buffer} {row column : Nat}

theorem stored?_of_lt (h : row < b.size) : b.stored? row = some (b.rows row) := if_pos h

theorem stored?_of_le (h : b.size ≤ row) : b.stored? row = none := if_neg (Nat.not_lt.mpr h)

theorem exists_value? (h : b.IsLaidOut) (hr : row < b.size) {place : Column}
    (hc : b.layout.columns[column]? = some place) :
    ∃ value, b.value? row column = some value ∧ value.IsOf place.code := by
  simp only [Buffer.value?, hc, stored?_of_lt hr, Option.bind_eq_bind, Option.bind_some]
  exact Row.exists_value? (h.fits row hr) (h.isWithin _ (List.mem_of_getElem? hc))

theorem exists_object? (h : b.IsLaidOut) (hr : row < b.size) {code : Code} {slot : Nat}
    (hc : b.layout.columns[column]? = some ⟨code, .object slot⟩) :
    ∃ o, (b.rows row).objects[slot]? = some o ∧ b.object? row column = some o
      ∧ b.value? row column = some (.object o) := by
  have hw := h.isWithin _ (List.mem_of_getElem? hc)
  obtain ⟨o, ho⟩ := Row.exists_getElem?_objects (h.fits row hr) hw
  simp only [Buffer.object?, Buffer.value?, hc, stored?_of_lt hr, Option.bind_eq_bind,
    Option.bind_some]
  exact ⟨o, ho, ho, congrArg (Option.map Value.object) ho⟩

theorem value?_eq_none (h : ¬(row < b.size ∧ column < b.layout.columns.length)) :
    b.value? row column = none := by
  rw [not_and_or, Nat.not_lt, Nat.not_lt] at h
  unfold Buffer.value?
  obtain hrow | hcolumn := h
  · rw [stored?_of_le hrow]
    cases b.layout.columns[column]? <;> rfl
  · rw [List.getElem?_eq_none hcolumn]
    rfl

theorem object?_eq_none
    (h : ¬(row < b.size ∧ ∃ code slot, b.layout.columns[column]? = some ⟨code, .object slot⟩)) :
    b.object? row column = none := by
  unfold Buffer.object?
  rcases hc : b.layout.columns[column]? with _ | ⟨code, ⟨offset, width⟩ | slot⟩
  · rfl
  · cases b.stored? row <;> rfl
  · have hrow : ¬row < b.size := fun hrow => h ⟨hrow, code, slot, hc⟩
    rw [stored?_of_le (Nat.le_of_not_lt hrow)]
    rfl

theorem map_range_flat {β : Type} {ask : Nat → Option (Option β)} {f : Nat → β} {size : Nat}
    (h : ∀ row < size, ask row = some (some (f row))) :
    (List.range size).map ask = ((List.range size).map f).map (some ∘ some) := by
  rw [List.map_map]
  exact List.map_congr_left fun row hrow => h row (List.mem_range.mp hrow)

theorem rowBytes?_of_lt (h : b.IsLaidOut) (hrow : row < b.size) :
    b.flat.rowBytes? row = some (some (b.rows row).bytes) := by
  rw [rowBytes?_flat h, Buffer.rowBytes?, stored?_of_lt hrow]
  rfl

theorem rowObjects?_of_lt (h : b.IsLaidOut) (hrow : row < b.size) :
    b.flat.rowObjects? row = some (some (b.rows row).objects) := by
  rw [rowObjects?_flat h, Buffer.rowObjects?, stored?_of_lt hrow]
  rfl

theorem row?_eq_none_iff (h : b.IsLaidOut) :
    b.row? row = none ↔ ¬(row < b.size ∨ b.layout.columns = []) := by
  rw [Buffer.row?, mapM_eq_none_iff]
  simp only [List.mem_range]
  constructor
  · rintro ⟨column, hcolumn, hnone⟩ (hrow | hnil)
    · obtain ⟨value, hvalue, -⟩ := exists_value? h hrow (List.getElem?_eq_getElem hcolumn)
      cases hnone.symm.trans hvalue
    · rw [hnil] at hcolumn
      exact absurd hcolumn (Nat.not_lt_zero column)
  · intro hnot
    rw [not_or] at hnot
    refine ⟨0, List.length_pos_iff.mpr hnot.2, value?_eq_none fun hrow => hnot.1 hrow.1⟩

theorem answers_flat (h : b.IsLaidOut) : b.flat.Answers where
  length_bytes := length_flatMap_range fun row hrow => (h.fits row hrow).bytes
  length_objects := length_flatMap_range fun row hrow => (h.fits row hrow).objects
  rowBytes row hrow := ⟨_, rowBytes?_of_lt h hrow, (h.fits row hrow).bytes⟩
  rowObjects row hrow := ⟨_, rowObjects?_of_lt h hrow, (h.fits row hrow).objects⟩
  noRow row hrow := by
    rw [rowBytes?_flat h, rowObjects?_flat h, Buffer.rowBytes?, Buffer.rowObjects?,
      stored?_of_le hrow]
    exact ⟨rfl, rfl⟩
  allBytes := ⟨_, map_range_flat fun row => rowBytes?_of_lt h, rfl⟩
  allObjects := ⟨_, map_range_flat fun row => rowObjects?_of_lt h, rfl⟩
  value row hrow column place hc := by
    obtain ⟨value, hvalue, hform⟩ := exists_value? h hrow hc
    exact ⟨value, (read?_flat h row column).trans (congrArg some hvalue), hform⟩
  noValue row column hnot := by rw [read?_flat h, value?_eq_none hnot]
  object row hrow column code slot hc := by
    obtain ⟨o, hcell, ho, hvalue⟩ := exists_object? h hrow hc
    exact ⟨_, o, rowObjects?_of_lt h hrow, hcell,
      (object?_flat h row column).trans (congrArg some ho),
      (read?_flat h row column).trans (congrArg some hvalue)⟩
  noObject row column hnot := by rw [object?_flat h, object?_eq_none hnot]
  values row hrow := by
    rcases hvalues : b.row? row with _ | values
    · exact absurd hrow ((row?_eq_none_iff h).mp hvalues)
    · refine ⟨values, (values?_flat h row).trans (congrArg some hvalues), ?_⟩
      have hread : b.flat.read? row = some ∘ b.value? row := funext (read?_flat h row)
      rw [hread, ← List.map_map, ← List.map_map]
      exact congrArg _ (map_of_mapM_eq_some hvalues)
  noValues row hnot := by rw [values?_flat h, (row?_eq_none_iff h).mpr hnot]

end Buffer

/-! ## Uses -/

/-- What can be done with a buffer: fields are stored in one of its rows, or a call uses it. -/
inductive Use where
  | commit (row : Nat) (fields : List Field)
  | decode (call : Call)

namespace FlatBuffer

/-- A buffer for the columns, if none of its sizes is too large. -/
def made? (largest : Nat) (fields : Span) (identCapacity size : Nat) : Option FlatBuffer := do
  let layout ← Layout.filled? largest fields identCapacity
  let bytes ← Layout.size? largest (layout.inlineStride * size)
  let slots ← Layout.size? largest (layout.objectStride * size)
  return ⟨layout, size, List.replicate bytes 0, List.replicate slots .absent⟩

/-- The buffer behind a use of it, whatever that results in, or none if something is out of
range. -/
def use (b : FlatBuffer) : Use → Option FlatBuffer
  | .commit row fields => (b.commit row fields).map Prod.snd
  | .decode call =>
    (FlatDecoder.decode call.settings call.format call.source call.indices b).map FlatOutcome.buffer

def useAll (b : FlatBuffer) (uses : List Use) : Option FlatBuffer := uses.foldlM use b

end FlatBuffer

namespace Buffer

def use (b : Buffer) : Use → Buffer
  | .commit row fields => (b.commit? row fields).getD b
  | .decode call => (Decoder.call call b).buffer

variable {b : Buffer}

theorem isLaidOut_use (h : b.IsLaidOut) (u : Use) : (b.use u).IsLaidOut := by
  cases u with
  | commit row fields =>
    simp only [use]
    rcases hc : b.commit? row fields with _ | b'
    · exact h
    · exact h.commit? hc
  | decode call => exact Decoder.isLaidOut_decode h

theorem alike_use (h : b.IsLaidOut) (u : Use) : (b.use u).Alike b := by
  cases u with
  | commit row fields =>
    simp only [use]
    rcases hc : b.commit? row fields with _ | b'
    · exact ⟨rfl, rfl⟩
    · exact ⟨layout_of_commit? hc, size_of_commit? hc⟩
  | decode call => exact Decoder.alike_decode h

theorem use_flat (h : b.IsLaidOut) (u : Use) : b.flat.use u = some (b.use u).flat := by
  cases u with
  | commit row fields =>
    simp only [FlatBuffer.use, use]
    rw [FlatBuffer.commit_eq, commit?_flat h]
    cases b.commit? row fields <;> rfl
  | decode call => exact congrArg (Option.map _) (FlatDecoder.decode_flat h call.indices)

/-- Each use leaves a buffer that is laid out as it was. -/
theorem useAll_flat (h : b.IsLaidOut) (uses : List Use) :
    ∃ b' : Buffer, b.flat.useAll uses = some b'.flat ∧ b'.IsLaidOut ∧ b'.Alike b := by
  induction uses generalizing b with
  | nil => exact ⟨b, rfl, h, rfl, rfl⟩
  | cons u uses ih =>
    obtain ⟨b', hb', hlaid, halike⟩ := ih (isLaidOut_use h u)
    refine ⟨b', ?_, hlaid, halike.trans (alike_use h u)⟩
    rw [FlatBuffer.useAll, List.foldlM_cons, use_flat h]
    exact hb'

theorem flatMap_range_replicate {α : Type} (n k : Nat) (a : α) :
    (List.range n).flatMap (fun _ => List.replicate k a) = List.replicate (k * n) a := by
  rw [List.flatMap_def, List.map_const', List.length_range, List.flatten_replicate_replicate,
    Nat.mul_comm]

variable {layout : Layout} {size row column : Nat}

/-- A new buffer has zeros in it, and empty texts. -/
theorem value?_blank_zero (hrow : row < size) {place : Column}
    (hc : layout.columns[column]? = some place) (hw : place.IsWithin layout) :
    (blank layout size).value? row column = some place.code.zero := by
  have hstored : (blank layout size).stored? row = some (.blank layout) := if_pos hrow
  simp only [Buffer.value?, show (blank layout size).layout = layout from rfl, hc, hstored,
    Option.bind_eq_bind, Option.bind_some]
  rw [Row.value?_blank hw, Code.blank?_eq_zero]

theorem eq_absent_of_object?_blank {o : Object}
    (h : (blank layout size).object? row column = some o) : o = .absent := by
  unfold Buffer.object? at h
  obtain ⟨place, -, h⟩ := Option.bind_eq_some_iff.mp h
  obtain ⟨contents, hstored, h⟩ := Option.bind_eq_some_iff.mp h
  obtain ⟨-, rfl⟩ := stored?_eq_some_iff.mp hstored
  obtain ⟨code, ⟨offset, width⟩ | slot⟩ := place
  · cases h
  · exact List.eq_of_mem_replicate (List.mem_of_getElem? h)

end Buffer

namespace FlatBuffer

variable {largest identCapacity size : Nat} {fields : Span} {b : FlatBuffer}

theorem eq_flat_of_made (h : made? largest fields identCapacity size = some b) :
    b = (Buffer.blank (.ofSpan fields identCapacity) size).flat := by
  unfold made? at h
  rw [Layout.filled?_eq] at h
  unfold Layout.size? at h
  split at h
  · simp only [Option.bind_eq_bind, Option.bind_some] at h
    split at h
    · split at h
      · obtain rfl := Option.some.inj h
        simp only [Buffer.flat, Buffer.blank, Row.blank, Buffer.flatMap_range_replicate]
      · cases h
    · cases h
  · cases h

/-- Nothing that is asked of a buffer is out of range, whatever it has been used for. -/
theorem answers_of_made (h : made? largest fields identCapacity size = some b) :
    (∀ uses : List Use, ∃ b', b.useAll uses = some b'
      ∧ b'.layout = .ofSpan fields identCapacity ∧ b'.size = size ∧ b'.Answers)
    ∧ (∀ row < size, ∀ column place, b.layout.columns[column]? = some place →
      b.read? row column = some (some place.code.zero))
    ∧ ∀ row column o, b.object? row column = some (some o) → o = .absent := by
  obtain rfl := eq_flat_of_made h
  have hlaid := Buffer.isLaidOut_blank fields identCapacity size
  refine ⟨fun uses => ?_, fun row hrow column place hc => ?_, fun row column o ho => ?_⟩
  · obtain ⟨b', hb', hlaid', hlayout, hsize⟩ := Buffer.useAll_flat hlaid uses
    exact ⟨b'.flat, hb', hlayout, hsize, Buffer.answers_flat hlaid'⟩
  · have hw := hlaid.isWithin place (List.mem_of_getElem? hc)
    rw [Buffer.read?_flat hlaid]
    exact congrArg some (Buffer.value?_blank_zero hrow hc hw)
  · rw [Buffer.object?_flat hlaid] at ho
    exact Buffer.eq_absent_of_object?_blank (Option.some.inj ho)

/-- A row is stored, another one does not exist, and the call is for a different format. -/
theorem answers_of_made_uses : ∃ b b' : FlatBuffer,
    made? 18446744073709551615 [.ident, .ascii] 2 2 = some b
      ∧ b.read? 1 0 = some (some (.ident ""))
      ∧ b.useAll [.commit 1 [.ident [90], .object .absent], .commit 2 [],
          .decode ⟨⟨2, .reset, 1, true⟩, .single .ident, .constant [1, 0, 1, 70, 1, 1, 90], [0]⟩]
        = some b'
      ∧ b'.size = 2 ∧ b'.Answers := by
  have h : made? 18446744073709551615 [.ident, .ascii] 2 2
      = some (Buffer.blank (.ofSpan [.ident, .ascii] 2) 2).flat := rfl
  obtain ⟨huses, hblank, -⟩ := answers_of_made h
  obtain ⟨b', hb', -, hsize, hanswers⟩ := huses _
  exact ⟨_, b', h, hblank 1 (by decide) 0 _ rfl, hb', hsize, hanswers⟩

end FlatBuffer

end WellLog
