import WellLog.Frame
import WellLog.Proofs.Datum

/-!
# What a record of frame data holds

A record of a format is a name alone, or a name and a row behind it. A row is cut into parts: its
index, the data that are passed over in front, one part for each column, and the data that are
passed over behind them.

The bytes determine the contents (`FrameContent.eq_of_bytes_eq`), and each of them lies in one part
(`FrameContent.exists_liesIn`, `LiesIn.unique`).
-/

namespace WellLog

/-- A row of a format with all its bytes. -/
structure FrameRow (format : FrameFormat) where
  rowIndex : VarNumber
  leading : List Datum
  fields : List Datum
  trailing : List Datum
  leading_codes : leading.map Datum.code = format.leading
  fields_codes : fields.map Datum.code = format.fields
  trailing_codes : trailing.map Datum.code = format.trailing

/-- The name of the frame, and the row that follows it if there is one. -/
structure FrameContent (format : FrameFormat) where
  name : WrittenName
  row? : Option (FrameRow format)

/-- A format of one column. -/
def FrameFormat.single (code : Code) : FrameFormat := ⟨[], [code], [], List.cons_ne_nil code []⟩

variable {format : FrameFormat}

namespace FrameRow

def single (rowIndex : VarNumber) (d : Datum) : FrameRow (.single d.code) :=
  ⟨rowIndex, [], [d], [], rfl, rfl, rfl⟩

def bytes (row : FrameRow format) : List UInt8 :=
  row.rowIndex.bytes ++ (row.leading.flatMap Datum.bytes ++
    (row.fields.flatMap Datum.bytes ++ row.trailing.flatMap Datum.bytes))

def staged (row : FrameRow format) : StagedRow :=
  ⟨UInt32.ofNat row.rowIndex.value, row.fields.map Datum.field⟩

/-- A row of a buffer with the given room for identifiers can hold the columns. -/
def Fits (identCapacity : Nat) (row : FrameRow format) : Prop :=
  ∀ d ∈ row.fields, d.Fits identCapacity

instance (identCapacity : Nat) (row : FrameRow format) : Decidable (row.Fits identCapacity) :=
  inferInstanceAs (Decidable (∀ d ∈ row.fields, d.Fits identCapacity))

theorem bytes_ne_nil (row : FrameRow format) : row.bytes ≠ [] := by
  refine List.append_ne_nil_of_left_ne_nil (List.ne_nil_of_length_pos ?_) _
  rw [VarNumber.length_bytes]
  cases row.rowIndex.width <;> decide

theorem append_inj {a b : FrameRow format} {r s : List UInt8}
    (h : a.bytes ++ r = b.bytes ++ s) : a = b ∧ r = s := by
  obtain ⟨i, l, f, t, hl, hf, ht⟩ := a
  obtain ⟨i', l', f', t', hl', hf', ht'⟩ := b
  simp only [bytes, List.append_assoc] at h
  obtain ⟨rfl, hleading⟩ := VarNumber.append_inj h
  obtain ⟨rfl, hfields⟩ := Datum.flatMap_append_inj (hl.trans hl'.symm) hleading
  obtain ⟨rfl, htrailing⟩ := Datum.flatMap_append_inj (hf.trans hf'.symm) hfields
  obtain ⟨rfl, hr⟩ := Datum.flatMap_append_inj (ht.trans ht'.symm) htrailing
  exact ⟨rfl, hr⟩

end FrameRow

namespace FrameContent

def bytes (content : FrameContent format) : List UInt8 :=
  content.name.bytes ++ content.row?.elim [] FrameRow.bytes

def staged? (content : FrameContent format) : Option StagedRow := content.row?.map FrameRow.staged

def Fits (identCapacity : Nat) (content : FrameContent format) : Prop :=
  ∀ row ∈ content.row?, row.Fits identCapacity

theorem eq_of_bytes_eq {a b : FrameContent format} (h : a.bytes = b.bytes) : a = b := by
  obtain ⟨name, row⟩ := a
  obtain ⟨name', row'⟩ := b
  obtain ⟨rfl, hrow⟩ := WrittenName.append_inj h
  cases row with
  | none =>
    cases row' with
    | none => rfl
    | some row' => exact absurd hrow.symm row'.bytes_ne_nil
  | some row =>
    cases row' with
    | none => exact absurd hrow row.bytes_ne_nil
    | some row' =>
      have hr : row.bytes ++ [] = row'.bytes ++ [] := by
        simpa only [List.append_nil, Option.elim_some] using hrow
      rw [(FrameRow.append_inj hr).1]

end FrameContent

/-! ## Parts -/

/-- A part of a record with its bytes. -/
structure RecordUnit where
  part : RecordPart
  bytes : List UInt8

/-- Of the bytes of the units, the one at position `k` is in the part, which begins at `start`. -/
inductive LiesIn : List RecordUnit → Nat → RecordPart → Nat → Prop where
  | head {unit : RecordUnit} {units : List RecordUnit} {k : Nat} (h : k < unit.bytes.length) :
      LiesIn (unit :: units) k unit.part 0
  | tail {unit : RecordUnit} {units : List RecordUnit} {k : Nat} {part : RecordPart} {start : Nat}
      (h : LiesIn units k part start) :
      LiesIn (unit :: units) (unit.bytes.length + k) part (unit.bytes.length + start)

theorem exists_liesIn : ∀ {units : List RecordUnit} {k : Nat},
    k < (units.flatMap RecordUnit.bytes).length → ∃ part start, LiesIn units k part start
  | [], _, h => by simp at h
  | unit :: units, k, h => by
    by_cases hk : k < unit.bytes.length
    · exact ⟨unit.part, 0, .head hk⟩
    · rw [List.flatMap_cons, List.length_append] at h
      obtain ⟨part, start, hl⟩ : ∃ part start, LiesIn units (k - unit.bytes.length) part start :=
        exists_liesIn (by omega)
      refine ⟨part, unit.bytes.length + start, ?_⟩
      rw [← Nat.add_sub_of_le (Nat.le_of_not_lt hk)]
      exact .tail hl

/-- A byte lies in one part only. -/
theorem LiesIn.unique {units : List RecordUnit} {k start start' : Nat} {part part' : RecordPart}
    (h : LiesIn units k part start) (h' : LiesIn units k part' start') :
    part = part' ∧ start = start' := by
  induction h generalizing part' start' with
  | head hk =>
    cases h' with
    | head => exact ⟨rfl, rfl⟩
    | tail _ => omega
  | @tail unit _ k _ _ _ ih =>
    generalize hk : unit.bytes.length + k = k' at h'
    cases h' with
    | head hlt => omega
    | tail h' =>
      obtain ⟨rfl, rfl⟩ := ih (Nat.add_left_cancel hk ▸ h')
      exact ⟨rfl, rfl⟩

theorem LiesIn.append_right {units : List RecordUnit} {k : Nat} {part : RecordPart} {start : Nat}
    (h : LiesIn units k part start) (more : List RecordUnit) :
    LiesIn (units ++ more) k part start := by
  induction h with
  | head h => exact .head h
  | tail _ ih => exact .tail ih

theorem LiesIn.append_left {units : List RecordUnit} {k : Nat} {part : RecordPart} {start : Nat}
    (h : LiesIn units k part start) : ∀ before : List RecordUnit,
      LiesIn (before ++ units) ((before.flatMap RecordUnit.bytes).length + k) part
        ((before.flatMap RecordUnit.bytes).length + start)
  | [] => by simpa using h
  | unit :: before => by
    simp only [List.flatMap_cons, List.length_append, Nat.add_assoc, List.cons_append]
    exact .tail (h.append_left before)

/-- The columns from the given one on, each a part. -/
def fieldUnits : Nat → List Datum → List RecordUnit
  | _, [] => []
  | column, d :: ds => ⟨.field column d.code, d.bytes⟩ :: fieldUnits (column + 1) ds

theorem flatMap_fieldUnits (column : Nat) (ds : List Datum) :
    (fieldUnits column ds).flatMap RecordUnit.bytes = ds.flatMap Datum.bytes := by
  induction ds generalizing column with
  | nil => rfl
  | cons d ds ih => rw [fieldUnits, List.flatMap_cons, List.flatMap_cons, ih]

namespace FrameRow

def units (row : FrameRow format) : List RecordUnit :=
  ⟨.rowIndex, row.rowIndex.bytes⟩ :: ⟨.leading, row.leading.flatMap Datum.bytes⟩ ::
    (fieldUnits 0 row.fields ++ [⟨.trailing, row.trailing.flatMap Datum.bytes⟩])

theorem flatMap_units (row : FrameRow format) : row.units.flatMap RecordUnit.bytes = row.bytes := by
  simp only [units, bytes, List.flatMap_cons, List.flatMap_append, flatMap_fieldUnits,
    List.flatMap_nil, List.append_nil]

end FrameRow

namespace FrameContent

def units (content : FrameContent format) : List RecordUnit :=
  ⟨.name, content.name.bytes⟩ :: content.row?.elim [] FrameRow.units

theorem flatMap_units (content : FrameContent format) :
    content.units.flatMap RecordUnit.bytes = content.bytes := by
  rw [units, List.flatMap_cons, bytes]
  cases content.row? with
  | none => rfl
  | some row => simp only [Option.elim_some, row.flatMap_units]

theorem exists_liesIn (content : FrameContent format) {k : Nat} (h : k < content.bytes.length) :
    ∃ part start, LiesIn content.units k part start := by
  rw [← content.flatMap_units] at h
  exact WellLog.exists_liesIn h

end FrameContent

end WellLog
