import WellLog.Proofs.Overrunning
import WellLog.Proofs.Selecting

/-!
# Where a fault lies

A record with a row is made of parts, one behind the other, and what is wrong with its bytes is
wrong at the start of one of them: the parts in front are there as a whole, and this one is not, or
it has a value that no row can hold (`Fault.LiesAt`). Bytes that are left lie behind all parts.

Whatever a call fails with says where that is: in which record, unless it is the request, and how
far into it, unless it is the record as a whole (`Decoder.isLocated_of_decode`).
-/

namespace WellLog

def fieldParts (column : Nat) (codes : Span) : List RecordPart :=
  (codes.zipIdx column).map fun (code, column) => .field column code

/-- The parts of a record with a row, in order. -/
def FrameFormat.parts (format : FrameFormat) : List RecordPart :=
  .name :: .rowIndex :: .leading :: (fieldParts 0 format.fields ++ [.trailing])

/-- The bytes are all that the part takes. -/
def RecordUnit.IsWhole (format : FrameFormat) (unit : RecordUnit) : Prop :=
  match unit.part with
  | .name => ∃ n : WrittenName, n.bytes = unit.bytes
  | .rowIndex => ∃ n : VarNumber, n.bytes = unit.bytes
  | .leading => ∃ ds : List Datum, ds.map Datum.code = format.leading
      ∧ ds.flatMap Datum.bytes = unit.bytes
  | .field _ code => ∃ d : Datum, d.code = code ∧ d.bytes = unit.bytes
  | .trailing => ∃ ds : List Datum, ds.map Datum.code = format.trailing
      ∧ ds.flatMap Datum.bytes = unit.bytes

/-- The bytes begin with the whole of these parts, and the cursor is behind them. -/
def FrameFormat.Reaches (format : FrameFormat) (bytes : List UInt8) (before : List RecordPart)
    (c : Cursor) : Prop :=
  ∃ units : List RecordUnit, units.map RecordUnit.part = before
    ∧ (∀ unit ∈ units, unit.IsWhole format)
    ∧ (Cursor.ofBytes bytes).Passes (units.flatMap RecordUnit.bytes) c

/-- Behind the parts in front of a column is a value of it that no row can hold. -/
def Refusal.LiesAt (format : FrameFormat) (identCapacity : Nat) (bytes : List UInt8)
    (offset : Nat) (refusal : Refusal) : Prop :=
  ∃ (before after : List RecordPart) (column : Nat) (d : Datum) (rest : List UInt8),
    format.parts = before ++ .field column d.code :: after
      ∧ format.Reaches bytes before ⟨offset, d.bytes ++ rest⟩
      ∧ d.staged identCapacity = .error refusal ∧ refusal.IsDue identCapacity

/-- The fault is one of the bytes of a record, and it lies at the offset. -/
def Fault.LiesAt (format : FrameFormat) (identCapacity : Nat) (bytes : List UInt8)
    (offset : Nat) : Fault → Prop
  | .corrupt part needed available =>
    available < needed ∧ offset + available ≤ bytes.length
      ∧ ∃ (before after : List RecordPart) (rest : List UInt8),
        format.parts = before ++ part :: after ∧ format.Reaches bytes before ⟨offset, rest⟩
          ∧ ∀ unit : RecordUnit, unit.part = part → unit.IsWhole format → ¬unit.bytes <+: rest
  | .fieldTooLong length capacity =>
    (Refusal.tooLong length capacity).LiesAt format identCapacity bytes offset
  | .notATime => Refusal.notATime.LiesAt format identCapacity bytes offset
  | .secondRow trailing =>
    0 < trailing ∧ offset + trailing = bytes.length
      ∧ ∃ rest : List UInt8, format.Reaches bytes format.parts ⟨offset, rest⟩
  | _ => False

variable {format : FrameFormat} {identCapacity column offset : Nat} {bytes : List UInt8}
  {before after : List RecordPart} {part : RecordPart} {c c' : Cursor} {e : LocatedFault}

/-! ## Parts -/

theorem field_mem_parts_iff {code : Code} :
    .field column code ∈ format.parts ↔ format.fields[column]? = some code := by
  simp [FrameFormat.parts, fieldParts, List.mem_zipIdx_iff_getElem?]

theorem name_notMem_fieldParts (codes : Span) : .name ∉ fieldParts column codes := by
  simp [fieldParts]

/-- The name is the first part only. -/
theorem eq_nil_of_parts_eq (h : format.parts = before ++ .name :: after) : before = [] := by
  rcases before with _ | ⟨first, before⟩
  · rfl
  · have hmem : RecordPart.name ∈ before ++ .name :: after :=
      List.mem_append_right _ List.mem_cons_self
    have htail : .rowIndex :: .leading :: (fieldParts 0 format.fields ++ [.trailing])
        = before ++ .name :: after := (List.cons_eq_cons.mp h).2
    rw [← htail] at hmem
    simp [name_notMem_fieldParts] at hmem

theorem map_part_fieldUnits (column : Nat) (ds : List Datum) :
    (fieldUnits column ds).map RecordUnit.part = fieldParts column (ds.map Datum.code) := by
  induction ds generalizing column with
  | nil => rfl
  | cons d ds ih => exact congrArg _ (ih (column + 1))

theorem isWhole_fieldUnits {column : Nat} {ds : List Datum} :
    ∀ unit ∈ fieldUnits column ds, unit.IsWhole format := by
  induction ds generalizing column with
  | nil => simp [fieldUnits]
  | cons d ds ih => exact List.forall_mem_cons.mpr ⟨⟨d, rfl, rfl⟩, ih⟩

namespace FrameFormat.Reaches

theorem start (format : FrameFormat) (bytes : List UInt8) :
    format.Reaches bytes [] (.ofBytes bytes) :=
  ⟨[], rfl, List.forall_mem_nil _, Cursor.passes_nil_iff.mpr rfl⟩

theorem append (h : format.Reaches bytes before c) (units : List RecordUnit)
    (hw : ∀ unit ∈ units, unit.IsWhole format)
    (hp : c.Passes (units.flatMap RecordUnit.bytes) c') :
    format.Reaches bytes (before ++ units.map RecordUnit.part) c' := by
  obtain ⟨passed, rfl, hpassed, h⟩ := h
  refine ⟨passed ++ units, List.map_append, List.forall_mem_append.mpr ⟨hpassed, hw⟩, ?_⟩
  rw [List.flatMap_append]
  exact Cursor.passes_append_iff.mpr ⟨c, h, hp⟩

theorem concat (h : format.Reaches bytes before c) (unit : RecordUnit)
    (hw : unit.IsWhole format) (hp : c.Passes unit.bytes c') :
    format.Reaches bytes (before ++ [unit.part]) c' :=
  h.append [unit] (List.forall_mem_singleton.mpr hw) (by simpa using hp)

theorem stop_eq (h : format.Reaches bytes before c) : c.stop = bytes.length := by
  obtain ⟨units, -, -, hp⟩ := h
  exact hp.stop_eq.trans (Nat.zero_add _)

theorem position_eq_zero (h : format.Reaches bytes [] c) : c.position = 0 := by
  obtain ⟨units, hu, -, hp⟩ := h
  obtain rfl := List.map_eq_nil_iff.mp hu
  rw [Cursor.passes_nil_iff.mp hp]
  rfl

end FrameFormat.Reaches

theorem Fault.LiesAt.le_length {fault : Fault}
    (h : fault.LiesAt format identCapacity bytes offset) : offset ≤ bytes.length := by
  have hrefusal : ∀ {refusal : Refusal}, refusal.LiesAt format identCapacity bytes offset →
      offset ≤ bytes.length := by
    rintro refusal ⟨_, _, _, _, _, _, hr, -, -⟩
    rw [← hr.stop_eq]
    exact Nat.le_add_right _ _
  cases fault with
  | corrupt part needed available => exact Nat.le_trans (Nat.le_add_right _ _) h.2.1
  | fieldTooLong length capacity => exact hrefusal h
  | notATime => exact hrefusal h
  | secondRow trailing => exact Nat.le_trans (Nat.le_add_right _ _) (Nat.le_of_eq h.2.1)
  | _ => exact h.elim

/-! ## Reads of parts -/

namespace Frame

variable {α : Type}

/-- The fault is one of the bytes that are read, and lies at its offset. -/
def Blames (format : FrameFormat) (identCapacity : Nat) (bytes : List UInt8)
    (x : Except LocatedFault α) : Prop :=
  ∀ e, x = .error e → e.fault.LiesAt format identCapacity bytes e.offset

theorem blames_ok (a : α) : Blames format identCapacity bytes (.ok a) := fun _ he => (nomatch he)

theorem Blames.bind {β : Type} {x : Except LocatedFault α} {f : α → Except LocatedFault β}
    (hx : Blames format identCapacity bytes x)
    (hf : ∀ a, x = .ok a → Blames format identCapacity bytes (f a)) :
    Blames format identCapacity bytes (x >>= f) := by
  intro e he
  rcases bind_eq_error_iff.mp he with he | ⟨a, ha, he⟩
  · exact hx e he
  · exact hf a ha e he

section Parts

variable (h : format.Reaches bytes before c)
include h

/-- A read fails at the start of its part, as it succeeds where the whole of the part stands. -/
theorem blames_located (part : RecordPart) {x : Except OutOfBounds α}
    (hparts : format.parts = before ++ part :: after) (hx : c.Overruns x)
    (hok : ∀ (unit : RecordUnit) c', unit.part = part → unit.IsWhole format →
      c.Passes unit.bytes c' → ∃ a, x = .ok a) :
    Blames format identCapacity bytes (located part c x) := by
  intro e he
  rcases x with e' | a
  · cases he
    obtain ⟨hposition, hstop, hlt⟩ := hx e' rfl
    refine ⟨hlt, ?_, before, after, c.rest, hparts, h, ?_⟩
    · rw [← h.stop_eq, ← hstop]
      exact Nat.add_le_add_right hposition _
    · -- A whole part in front of the rest would have been read.
      rintro unit hpart hwhole ⟨rest, hrest⟩
      obtain ⟨a, ha⟩ := hok unit ⟨_, rest⟩ hpart hwhole ⟨hrest.symm, rfl⟩
      cases ha
  · cases he

theorem blames_readField {code : Code}
    (hparts : format.parts = before ++ .field column code :: after) :
    Blames format identCapacity bytes (readField identCapacity column code c) := by
  refine (blames_located h _ hparts (Cursor.overruns_read identCapacity code) ?_).bind ?_
  · rintro ⟨_, unitBytes⟩ c' rfl ⟨d, rfl, hd⟩ hp
    exact ⟨_, Field.read_of_passes (hd.symm ▸ hp)⟩
  · rintro ⟨r, c'⟩ hread
    obtain ⟨d, rfl, hp, hr⟩ := Field.read_eq_ok_iff.mp (located_eq_ok_iff.mp hread)
    rcases r with refusal | field
    · -- The whole of the column has been passed, so it is its value that is refused.
      rintro e ⟨⟩
      have hfit : ¬d.Fits identCapacity := fun hf =>
        nomatch hr.symm.trans (Datum.staged_eq_ok_iff.mpr ⟨hf, rfl⟩)
      obtain ⟨refusal', hr', hdue⟩ := Datum.exists_refusal hfit
      obtain rfl : refusal = refusal' := Except.error.inj (hr.symm.trans hr')
      have hlies : refusal.LiesAt format identCapacity bytes c.position :=
        ⟨before, after, column, d, c'.rest, hparts, hp.rest ▸ h, hr, hdue⟩
      cases refusal <;> exact hlies
    · exact blames_ok _

theorem reaches_fields (column : Nat) {ds : List Datum}
    (hp : c.Passes (ds.flatMap Datum.bytes) c') :
    format.Reaches bytes (before ++ fieldParts column (ds.map Datum.code)) c' := by
  rw [← map_part_fieldUnits]
  refine h.append _ isWhole_fieldUnits ?_
  rwa [flatMap_fieldUnits]

end Parts

theorem blames_readFields {codes : Span} (h : format.Reaches bytes before c)
    (hparts : format.parts = before ++ (fieldParts column codes ++ after)) :
    Blames format identCapacity bytes (readFields identCapacity column codes c) := by
  induction codes generalizing column before c with
  | nil => exact blames_ok _
  | cons code codes ih =>
    refine (blames_readField h hparts).bind fun ⟨field, c'⟩ hfield => ?_
    obtain ⟨d, rfl, -, -, hp⟩ := readField_eq_ok_iff.mp hfield
    have h' : format.Reaches bytes (before ++ [.field column d.code]) c' :=
      h.concat ⟨.field column d.code, d.bytes⟩ ⟨d, rfl, rfl⟩ hp
    refine (ih h' ?_).bind fun _ _ => blames_ok _
    rw [hparts, List.append_assoc]
    rfl

theorem blames_readName :
    Blames format identCapacity bytes (readName (.ofBytes bytes)) := by
  refine blames_located (.start format bytes) .name rfl Cursor.overruns_nameHead ?_
  rintro ⟨_, unitBytes⟩ c' rfl ⟨n, rfl⟩ hp
  exact ⟨_, Cursor.nameHead_eq_ok_iff.mpr ⟨n, rfl, hp⟩⟩

theorem blames_readRow (h : format.Reaches bytes [.name] c) :
    Blames format identCapacity bytes (readRow identCapacity format c) := by
  refine (blames_located h .rowIndex rfl Cursor.overruns_uvari ?_).bind ?_
  · rintro ⟨_, unitBytes⟩ c' rfl ⟨n, rfl⟩ hp
    exact ⟨_, Cursor.uvari_eq_ok_iff.mpr ⟨n, rfl, hp⟩⟩
  -- What has been read is a whole part, so the next read starts behind one part more.
  rintro ⟨rowIndex, c₁⟩ hindex
  obtain ⟨n, -, hn⟩ := Cursor.uvari_eq_ok_iff.mp (located_eq_ok_iff.mp hindex)
  have h₁ := h.concat ⟨.rowIndex, n.bytes⟩ ⟨n, rfl⟩ hn
  refine (blames_located h₁ .leading rfl (Cursor.overruns_skipSpan _) ?_).bind ?_
  · rintro ⟨_, unitBytes⟩ c' rfl ⟨ds, hds, rfl⟩ hp
    exact ⟨_, Span.skip_eq_ok_iff.mpr ⟨ds, hds, hp⟩⟩
  intro c₂ hleading
  obtain ⟨ls, hls, hl⟩ := Span.skip_eq_ok_iff.mp (located_eq_ok_iff.mp hleading)
  have h₂ := h₁.concat ⟨.leading, ls.flatMap Datum.bytes⟩ ⟨ls, hls, rfl⟩ hl
  have hparts : format.parts
      = [.name] ++ [.rowIndex] ++ [.leading] ++ (fieldParts 0 format.fields ++ [.trailing]) := rfl
  refine (blames_readFields h₂ hparts).bind ?_
  rintro ⟨fields, c₃⟩ hfields
  obtain ⟨ds, hds, -, -, hd⟩ := readFields_eq_ok_iff.mp hfields
  have h₃ : format.Reaches bytes _ c₃ := reaches_fields h₂ 0 hd
  rw [hds] at h₃
  rw [← List.append_assoc] at hparts
  refine (blames_located h₃ .trailing hparts
    (Cursor.overruns_skipSpan _) ?_).bind fun _ _ => blames_ok _
  rintro ⟨_, unitBytes⟩ c' rfl ⟨ts, hts, rfl⟩ hp
  exact ⟨_, Span.skip_eq_ok_iff.mpr ⟨ts, hts, hp⟩⟩

/-- The bytes of a row are the parts behind the name. -/
theorem reaches_row (h : format.Reaches bytes [.name] c) {row : FrameRow format}
    (hp : c.Passes row.bytes c') : format.Reaches bytes format.parts c' := by
  have hparts : format.parts = [.name] ++ row.units.map RecordUnit.part := by
    rw [FrameFormat.parts, ← row.fields_codes, ← map_part_fieldUnits, FrameRow.units]
    simp
  rw [hparts]
  refine h.append _ ?_ (row.flatMap_units.symm ▸ hp)
  simp only [FrameRow.units, List.forall_mem_cons, List.forall_mem_append]
  exact ⟨⟨row.rowIndex, rfl⟩, ⟨row.leading, row.leading_codes, rfl⟩, isWhole_fieldUnits,
    ⟨row.trailing, row.trailing_codes, rfl⟩, List.forall_mem_nil _⟩

theorem blames_readBody (h : format.Reaches bytes [.name] c) :
    Blames format identCapacity bytes (readBody identCapacity format c) := by
  unfold readBody
  split_ifs with hc
  · exact blames_ok _
  · refine (blames_readRow h).bind fun ⟨staged, c'⟩ hrow => ?_
    obtain ⟨row, -, -, hp⟩ := readRow_eq_ok_iff.mp hrow
    have h' := reaches_row h hp
    dsimp only
    split_ifs with hc'
    · exact blames_ok _
    · rintro e ⟨⟩
      refine ⟨?_, h'.stop_eq, c'.rest, h'⟩
      rw [isExhausted_iff] at hc'
      exact List.length_pos_iff.mpr hc'

end Frame

/-! ## Failures -/

/-- The failure says where its fault lies: nowhere if it is one of the request, in a record if it is
one of the whole of it, and otherwise at the start of a part of a record. -/
def Failure.IsLocated (s : Settings) (format : FrameFormat) (source : Source)
    (failure : Failure) : Prop :=
  match failure.fault with
  | .format _ | .rowCountMismatch _ _ | .layoutMismatch =>
    failure.record = none ∧ failure.offset = none
  | .noRecord missing =>
    ∃ index, source.record? index = .error missing
      ∧ failure.record = some index ∧ failure.offset = none
  | .encrypted =>
    ∃ index record, source.record? index = .ok record ∧ record.flags.encrypted = true
      ∧ failure.record = some index ∧ failure.offset = none
  | .corrupt _ _ _ | .fieldTooLong _ _ | .notATime | .secondRow _ =>
    ∃ index record offset, source.record? index = .ok record ∧ record.flags.encrypted = false
      ∧ offset ≤ record.bytes.length
      ∧ failure.fault.LiesAt format s.identCapacity record.bytes offset
      ∧ failure.record = some index ∧ failure.offset = some offset

namespace Decoder

variable {s : Settings} {source : Source} {index : Nat} {indices : List Nat} {buffer : Buffer}
  {stop : Stop} {failure : Failure}

theorem isLocated_of_liesAt {record : Record} (hr : source.record? index = .ok record)
    (hp : record.flags.encrypted = false)
    (h : e.fault.LiesAt format s.identCapacity record.bytes e.offset) :
    Failure.IsLocated s format source ⟨e.fault, some index, some e.offset⟩ := by
  have hle := h.le_length
  obtain ⟨fault, offset⟩ := e
  cases fault with
  | corrupt | fieldTooLong | notATime | secondRow =>
    exact ⟨index, record, offset, hr, hp, hle, h, rfl, rfl⟩
  | _ => exact h.elim

theorem isLocated_of_examine (h : examine s format source index = .error stop) :
    stop.failure.IsLocated s format source := by
  rcases cases_of_examine h with ⟨missing, hr, hf⟩ | ⟨record, hr, hp, hf⟩ |
    ⟨record, e, hr, hp, hread, hf⟩
  · rw [hf]
    exact ⟨index, hr, rfl, rfl⟩
  · rw [hf]
    exact ⟨index, record, hr, hp, rfl, rfl⟩
  · rw [hf]
    refine isLocated_of_liesAt hr hp ?_
    rcases hread with hn | ⟨head, c, hn, hb⟩
    · exact Frame.blames_readName e hn
    · obtain ⟨n, -, hpass⟩ := Frame.readName_eq_ok_iff.mp hn
      have hreach := (FrameFormat.Reaches.start format record.bytes).concat
        ⟨.name, n.bytes⟩ ⟨n, rfl⟩ hpass
      exact Frame.blames_readBody hreach e hb

theorem isLocated_of_check {fault : Fault} (h : checkBuffer s format indices buffer = some fault) :
    fault.alone.IsLocated s format source := by
  unfold checkBuffer at h
  split_ifs at h <;> cases h <;> exact ⟨rfl, rfl⟩

/-- The record that a call fails in is the first that cannot be decoded. -/
theorem exists_contents_before {index : Nat} (hl : buffer.IsLaidOut)
    (h : (decode s format source indices buffer).result = .error failure)
    (hi : failure.record = some index) :
    ∃ before after, ∃ contents : List (FrameContent format), indices = before ++ index :: after
      ∧ source.HoldsAll s.identCapacity before contents := by
  rcases hc : checkBuffer s format indices buffer with _ | fault
  · obtain ⟨entries, stop, hs, rfl⟩ := scan_of_decode_eq_error hl hc h
    obtain ⟨before, index', after, rfl, hb, he⟩ := scan_eq_some_iff.mp hs
    obtain ⟨contents, -, hh⟩ := exists_contents hb
    obtain rfl : index' = index := Option.some.inj ((record_of_examine he).symm.trans hi)
    exact ⟨before, after, contents, rfl, hh⟩
  · rw [decode_of_check hc] at h
    cases h
    cases hi

theorem result_of_examine {before after : List Nat} {contents : List (FrameContent format)}
    (hl : buffer.IsLaidOut)
    (hc : checkBuffer s format (before ++ index :: after) buffer = none)
    (hh : source.HoldsAll s.identCapacity before contents)
    (he : examine s format source index = .error stop) :
    (decode s format source (before ++ index :: after) buffer).result = .error stop.failure := by
  obtain ⟨entries, -, hs⟩ := exists_entries hh
  exact result_of_scan_eq_some hl hc (scan_of_stop hs he fun _ _ => rfl)

/-- A format that cannot be read is the first fault, then the number of rows, then the layout, and
then the first record that cannot be decoded. -/
theorem isLocated_of_decode (s : Settings) (source : Source) (indices : List Nat)
    (buffer : Buffer) :
    (∀ leading fields trailing,
        (∃ fault, FrameFormat.parse leading fields trailing = .error fault
            ∧ (decodeText s source leading fields trailing indices buffer).result
              = .error (Fault.format fault).alone)
          ∨ ∃ format, FrameFormat.parse leading fields trailing = .ok format
            ∧ decodeText s source leading fields trailing indices buffer
              = decode s format source indices buffer)
      ∧ ∀ format : FrameFormat,
        (buffer.size ≠ indices.length →
            (decode s format source indices buffer).result
              = .error (Fault.rowCountMismatch buffer.size indices.length).alone)
          ∧ (buffer.size = indices.length → buffer.layout ≠ .ofSpan format.fields s.identCapacity →
            (decode s format source indices buffer).result = .error Fault.layoutMismatch.alone)
          ∧ (buffer.IsLaidOut → ∀ failure,
            (decode s format source indices buffer).result = .error failure →
              failure.IsLocated s format source
                ∧ (∀ index, failure.record = some index →
                  ∃ before after, ∃ contents : List (FrameContent format),
                    indices = before ++ index :: after
                      ∧ source.HoldsAll s.identCapacity before contents)
                ∧ (∀ needed available, failure.fault = .corrupt .name needed available →
                  failure.offset = some 0)
                ∧ ∀ column code needed available,
                  failure.fault = .corrupt (.field column code) needed available →
                    format.fields[column]? = some code)
          ∧ (buffer.IsLaidOut → checkBuffer s format indices buffer = none →
            ∀ before index after record, ∀ contents : List (FrameContent format),
              indices = before ++ index :: after →
              source.HoldsAll s.identCapacity before contents →
              source.record? index = .ok record → record.flags.encrypted = true →
                (decode s format source indices buffer).result
                  = .error ⟨.encrypted, some index, none⟩) := by
  refine ⟨fun leading fields trailing => ?_, fun format => ⟨fun hs => ?_, fun hs hlayout => ?_,
    fun hl failure h => ?_, ?_⟩⟩
  · unfold decodeText
    rcases FrameFormat.parse leading fields trailing with fault | format
    · exact .inl ⟨fault, rfl, rfl⟩
    · exact .inr ⟨format, rfl, rfl⟩
  · rw [decode_of_check (if_pos hs)]
  · have hc : checkBuffer s format indices buffer = some .layoutMismatch := by
      rw [checkBuffer, if_neg (not_not.mpr hs), if_pos hlayout]
    rw [decode_of_check hc]
  · have hlocated : failure.IsLocated s format source := by
      rcases hc : checkBuffer s format indices buffer with _ | fault
      · obtain ⟨entries, stop, hs, rfl⟩ := scan_of_decode_eq_error hl hc h
        obtain ⟨before, index, after, -, -, he⟩ := scan_eq_some_iff.mp hs
        exact isLocated_of_examine he
      · rw [decode_of_check hc] at h
        cases h
        exact isLocated_of_check hc
    refine ⟨hlocated, fun index => exists_contents_before hl h, fun needed available hf => ?_,
      fun column code needed available hf => ?_⟩
    · rw [Failure.IsLocated, hf] at hlocated
      obtain ⟨_, _, _, -, -, -, ⟨-, -, before, after, rest, hparts, hreach, -⟩, -, ho⟩ := hlocated
      obtain rfl := eq_nil_of_parts_eq hparts
      rw [ho, ← hreach.position_eq_zero]
    · rw [Failure.IsLocated, hf] at hlocated
      obtain ⟨_, _, _, -, -, -, ⟨-, -, before, after, -, hparts, -, -⟩, -, -⟩ := hlocated
      rw [← field_mem_parts_iff, hparts]
      exact List.mem_append_right _ List.mem_cons_self
  · rintro hl hc before index after record contents rfl hh hr hp
    have he : examine s format source index = .error ⟨[], Fault.encrypted.inRecord index⟩ := by
      rw [examine, hr]
      exact if_pos hp
    exact result_of_examine hl hc hh he

/-- An identifier that lacks a byte, an encrypted record of two bytes that are no name, a buffer
with a row too many, and a format that is none. -/
theorem isLocated_of_decode_ident :
    (Fault.corrupt (.field 0 .ident) 3 2).LiesAt (.single .ident) 255 [1, 0, 1, 70, 5, 2, 65] 5
      ∧ (decode .standard (.single .ident) ⟨fun _ => .ok ⟨0, ⟨false, true, true⟩, [1, 0]⟩⟩ [7]
            (bufferFor .standard (.single .ident) 1)).result
          = .error ⟨.encrypted, some 7, none⟩
      ∧ (decode .standard (.single .ident) (.constant []) [7]
            (bufferFor .standard (.single .ident) 2)).result
          = .error (Fault.rowCountMismatch 2 1).alone
      ∧ (decodeText .standard (.constant []) "" "" "" [7]
            (bufferFor .standard (.single .ident) 2)).result
          = .error (Fault.format .noColumns).alone := by
  refine ⟨?_, ?_, ?_, ?_⟩
  · have herror : (decode .standard (.single .ident) (.constant [1, 0, 1, 70, 5, 2, 65]) [7]
        (bufferFor .standard (.single .ident) 1)).result
      = .error ⟨.corrupt (.field 0 .ident) 3 2, some 7, some 5⟩ := rfl
    obtain ⟨⟨_, _, _, hr, -, -, hlies, -, ho⟩, -⟩ :=
      ((isLocated_of_decode _ _ _ _).2 _).2.2.1 (isLaidOut_bufferFor 1) _ herror
    cases hr
    cases ho
    exact hlies
  · exact ((isLocated_of_decode _ _ _ _).2 _).2.2.2 (isLaidOut_bufferFor 1) rfl [] 7 []
      ⟨0, ⟨false, true, true⟩, [1, 0]⟩ [] rfl .nil rfl rfl
  · exact ((isLocated_of_decode .standard (.constant []) [7]
      (bufferFor .standard (.single .ident) 2)).2 (.single .ident)).1 (by decide)
  · rcases (isLocated_of_decode .standard (.constant []) [7]
      (bufferFor .standard (.single .ident) 2)).1 "" "" "" with ⟨fault, hp, hd⟩ | ⟨format, hp, -⟩
    · cases hp
      exact hd
    · cases hp

end Decoder

end WellLog
