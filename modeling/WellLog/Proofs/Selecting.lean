import WellLog.Proofs.CutShort
import WellLog.Proofs.Tallying

/-!
# Columns that are read and columns that are passed over

A format may read all that a record holds, or pass over what stands in front of some columns and
behind them. If the records can be decoded with all columns, they can with the selected ones: the
report is the same, and so are the values of those columns. Decoding with all columns can only fail
where the other succeeds if a value that the other passes over cannot be stored
(`Decoder.decode_whole`).
-/

namespace WellLog

theorem getElem?_middle {α : Type} {a b c : List α} {k : Nat} (h : k < b.length) :
    (a ++ b ++ c)[a.length + k]? = b[k]? := by
  rw [List.append_assoc, List.getElem?_append_right (Nat.le_add_right _ _),
    Nat.add_sub_cancel_left, List.getElem?_append_left h]

/-! ## Formats and rows with all columns -/

/-- The format that reads as columns what this one passes over, too. -/
def FrameFormat.whole (format : FrameFormat) : FrameFormat where
  leading := []
  fields := format.leading ++ format.fields ++ format.trailing
  trailing := []
  fields_ne_nil := by simp [format.fields_ne_nil]

/-- A format of one column behind a value that is passed over. -/
def FrameFormat.behind (skipped code : Code) : FrameFormat :=
  { FrameFormat.single code with leading := [skipped] }

variable {format : FrameFormat}

theorem FrameFormat.fields_whole {column : Nat} (h : column < format.fields.length) :
    format.whole.fields[format.leading.length + column]? = format.fields[column]? :=
  getElem?_middle h

namespace FrameRow

def whole (row : FrameRow format) : FrameRow format.whole where
  rowIndex := row.rowIndex
  leading := []
  fields := row.leading ++ row.fields ++ row.trailing
  trailing := []
  leading_codes := List.map_nil
  fields_codes := by
    rw [List.map_append, List.map_append, row.leading_codes, row.fields_codes, row.trailing_codes]
    rfl
  trailing_codes := List.map_nil

theorem bytes_whole (row : FrameRow format) : row.whole.bytes = row.bytes := by
  simp only [bytes, whole, List.flatMap_append, List.flatMap_nil, List.nil_append, List.append_nil,
    List.append_assoc]

theorem exists_whole_eq (row : FrameRow format.whole) : ∃ part : FrameRow format,
    part.whole = row := by
  obtain ⟨rowIndex, leading, fields, trailing, hl, hf, ht⟩ := row
  obtain rfl : leading = [] := List.map_eq_nil_iff.mp hl
  obtain rfl : trailing = [] := List.map_eq_nil_iff.mp ht
  obtain ⟨front, last, rfl, hfront, hlast⟩ := List.map_eq_append_iff.mp hf
  obtain ⟨first, middle, rfl, hfirst, hmiddle⟩ := List.map_eq_append_iff.mp hfront
  exact ⟨⟨rowIndex, first, middle, last, hfirst, hmiddle, hlast⟩, rfl⟩

theorem fits_of_fits_whole {row : FrameRow format} {identCapacity : Nat}
    (h : row.whole.Fits identCapacity) : row.Fits identCapacity :=
  fun d hd => h d (List.mem_append_left _ (List.mem_append_right _ hd))

theorem fields_whole (row : FrameRow format) {column : Nat} (h : column < format.fields.length) :
    row.whole.fields[format.leading.length + column]? = row.fields[column]? := by
  have hl : row.leading.length = format.leading.length := by
    rw [← row.leading_codes, List.length_map]
  have hf : row.fields.length = format.fields.length := by
    rw [← row.fields_codes, List.length_map]
  rw [← hl]
  exact getElem?_middle (by omega)

end FrameRow

namespace FrameContent

def whole (content : FrameContent format) : FrameContent format.whole :=
  ⟨content.name, content.row?.map FrameRow.whole⟩

theorem bytes_whole (content : FrameContent format) : content.whole.bytes = content.bytes := by
  obtain ⟨name, _ | row⟩ := content
  · rfl
  · simp only [bytes, whole, Option.map_some, Option.elim_some, row.bytes_whole]

theorem exists_whole_eq (content : FrameContent format.whole) : ∃ part : FrameContent format,
    part.whole = content := by
  obtain ⟨name, _ | row⟩ := content
  · exact ⟨⟨name, none⟩, rfl⟩
  · obtain ⟨part, rfl⟩ := row.exists_whole_eq
    exact ⟨⟨name, some part⟩, rfl⟩

theorem fits_of_fits_whole {content : FrameContent format} {identCapacity : Nat}
    (h : content.whole.Fits identCapacity) : content.Fits identCapacity :=
  fun row hr =>
    FrameRow.fits_of_fits_whole (h row.whole (Option.map_eq_some_iff.mpr ⟨row, hr, rfl⟩))

theorem numbered_whole (index : Nat) (content : FrameContent format) :
    content.whole.numbered index = content.numbered index := by
  obtain ⟨name, _ | row⟩ := content <;> rfl

end FrameContent

theorem frameRows_map_whole (contents : List (FrameContent format)) :
    frameRows (contents.map FrameContent.whole) = (frameRows contents).map FrameRow.whole := by
  rw [frameRows, frameRows, List.filterMap_map, List.map_filterMap]
  rfl

/-- Records that hold contents with all columns hold the same contents without. -/
theorem Source.HoldsAll.exists_whole_eq {source : Source} {identCapacity : Nat}
    {indices : List Nat} {wholes : List (FrameContent format.whole)}
    (h : source.HoldsAll identCapacity indices wholes) :
    ∃ contents : List (FrameContent format), contents.map FrameContent.whole = wholes
      ∧ source.HoldsAll identCapacity indices contents := by
  induction h with
  | nil => exact ⟨[], rfl, .nil⟩
  | @cons index content _ _ hc _ ih =>
    obtain ⟨contents, rfl, hs⟩ := ih
    obtain ⟨part, rfl⟩ := content.exists_whole_eq
    obtain ⟨hb, hf⟩ := hc
    rw [part.bytes_whole] at hb
    exact ⟨part :: contents, rfl, .cons ⟨hb, FrameContent.fits_of_fits_whole hf⟩ hs⟩

theorem Source.HoldsAll.exists_of_mem {source : Source} {identCapacity index : Nat}
    {indices : List Nat} {contents : List (FrameContent format)}
    (h : source.HoldsAll identCapacity indices contents) (hm : index ∈ indices) :
    ∃ content : FrameContent format, source.Holds index content.bytes
      ∧ content.Fits identCapacity := by
  induction h with
  | nil => exact absurd hm List.not_mem_nil
  | @cons _ content _ _ hc _ ih =>
    rcases List.mem_cons.mp hm with rfl | hm
    · exact ⟨content, hc⟩
    · exact ih hm

/-! ## Values that no row can hold -/

/-- The refusal is one of a row whose identifiers have the given room. -/
def Refusal.IsDue (identCapacity : Nat) : Refusal → Prop
  | .tooLong length capacity => identCapacity < length ∧ capacity = identCapacity
  | .notATime => True

theorem Datum.exists_refusal {identCapacity : Nat} {d : Datum} (h : ¬d.Fits identCapacity) :
    ∃ refusal, d.staged identCapacity = .error refusal ∧ refusal.IsDue identCapacity := by
  have hident : ∀ t : ShortText, ¬t.body.length ≤ identCapacity →
      ∃ refusal, Field.ofIdent identCapacity t.body = .error refusal
        ∧ refusal.IsDue identCapacity := by
    intro t ht
    rw [Field.ofIdent, if_neg ht]
    exact ⟨_, rfl, Nat.lt_of_not_le ht, rfl⟩
  cases d with
  | ident t => exact hident t h
  | units t => exact hident t h
  | dtime t =>
    refine ⟨.notATime, ?_, trivial⟩
    simp only [staged, Field.ofTime, t.ofBytes_bytes, Dtime.timestamp?_eq_none_iff.mpr h]
  | _ => exact absurd trivial h

/-- Of data that do not all fit one is the first that does not. -/
theorem Datum.exists_first_misfit {identCapacity : Nat} {ds : List Datum}
    (h : ¬∀ d ∈ ds, d.Fits identCapacity) : ∃ before d after, ds = before ++ d :: after
      ∧ (∀ e ∈ before, e.Fits identCapacity) ∧ ¬d.Fits identCapacity := by
  rcases hf : ds.find? (fun d => ¬d.Fits identCapacity) with _ | d
  · refine absurd (fun d hd => ?_) h
    simpa using List.find?_eq_none.mp hf d hd
  · obtain ⟨hd, before, after, rfl, hb⟩ := List.find?_eq_some_iff_append.mp hf
    exact ⟨before, d, after, rfl, by simpa using hb, by simpa using hd⟩

namespace Frame

variable {identCapacity column : Nat} {c c' : Cursor} {before after : List Datum} {d : Datum}
  {refusal : Refusal}

theorem readField_eq_error (hd : d.staged identCapacity = .error refusal)
    (hp : c.Passes d.bytes c') :
    readField identCapacity column d.code c = .error ⟨refusal.fault, c.position⟩ := by
  rw [readField, Field.read_of_passes hp, hd]
  exact congrArg Except.error (refused_eq c refusal)

/-- The first value that does not fit is where reading the columns ends. -/
theorem readFields_eq_error (hb : ∀ e ∈ before, e.Fits identCapacity)
    (hd : d.staged identCapacity = .error refusal)
    (hp : c.Passes ((before ++ d :: after).flatMap Datum.bytes) c') :
    readFields identCapacity column ((before ++ d :: after).map Datum.code) c
      = .error ⟨refusal.fault, c.position + (before.flatMap Datum.bytes).length⟩ := by
  induction before generalizing column c with
  | nil =>
    obtain ⟨e, he, -⟩ := Cursor.passes_append_iff.mp hp
    simp only [List.nil_append, List.map_cons, readFields, readField_eq_error hd he]
    rfl
  | cons e before ih =>
    obtain ⟨he, hb⟩ := List.forall_mem_cons.mp hb
    obtain ⟨c₁, h₁, hp⟩ := Cursor.passes_append_iff.mp hp
    simp only [List.cons_append, List.map_cons, readFields,
      readField_eq_ok_iff.mpr ⟨e, rfl, he, rfl, h₁⟩, ok_bind, ih hb hp]
    rw [List.flatMap_cons, List.length_append, h₁.position, Nat.add_assoc]
    rfl

/-- A row with a value that does not fit is read up to that value. -/
theorem readBody_eq_error {row : FrameRow format} (hf : row.fields = before ++ d :: after)
    (hb : ∀ e ∈ before, e.Fits identCapacity) (hd : d.staged identCapacity = .error refusal)
    (hr : c.rest = row.bytes) :
    readBody identCapacity format c = .error ⟨refusal.fault, c.position
      + (row.rowIndex.bytes.length + ((row.leading.flatMap Datum.bytes).length
        + (before.flatMap Datum.bytes).length))⟩ := by
  have hc : ¬c.isExhausted := by
    rw [isExhausted_iff, hr]
    exact row.bytes_ne_nil
  have hp : c.Passes row.bytes ⟨c.position + row.bytes.length, []⟩ :=
    ⟨by rw [hr, List.append_nil], rfl⟩
  simp only [FrameRow.bytes, Cursor.passes_append_iff] at hp
  obtain ⟨c₁, h₁, c₂, h₂, c₃, h₃, -⟩ := hp
  have hindex := Cursor.uvari_eq_ok_iff.mpr ⟨row.rowIndex, rfl, h₁⟩
  have hleading := Span.skip_eq_ok_iff.mpr ⟨row.leading, row.leading_codes, h₂⟩
  rw [readBody, if_neg hc, readRow]
  simp only [located_eq_ok_iff.mpr hindex, located_eq_ok_iff.mpr hleading, ok_bind]
  rw [← row.fields_codes, hf]
  rw [hf] at h₃
  rw [readFields_eq_error hb hd h₃, h₂.position, h₁.position, Nat.add_assoc, Nat.add_assoc]
  rfl

end Frame

/-! ## Where a column starts -/

section Starts

variable {before after : List Datum} {d : Datum}

theorem liesIn_fieldUnits (column : Nat) : LiesIn (fieldUnits column (before ++ d :: after))
    (before.flatMap Datum.bytes).length (.field (column + before.length) d.code)
    (before.flatMap Datum.bytes).length := by
  induction before generalizing column with
  | nil => exact .head d.length_bytes_pos
  | cons e before ih =>
    have h := ih (column + 1)
    rw [Nat.add_right_comm, Nat.add_assoc] at h
    rw [List.flatMap_cons, List.length_append]
    exact .tail h

theorem FrameRow.liesIn_units {row : FrameRow format} (hf : row.fields = before ++ d :: after) :
    LiesIn row.units
      (row.rowIndex.bytes.length + ((row.leading.flatMap Datum.bytes).length
        + (before.flatMap Datum.bytes).length))
      (.field before.length d.code)
      (row.rowIndex.bytes.length + ((row.leading.flatMap Datum.bytes).length
        + (before.flatMap Datum.bytes).length)) := by
  have h : LiesIn (fieldUnits 0 (before ++ d :: after)) _ _ _ := liesIn_fieldUnits 0
  rw [Nat.zero_add, ← hf] at h
  exact .tail (.tail (h.append_right _))

end Starts

namespace Decoder

variable {s : Settings} {source : Source} {index : Nat} {indices : List Nat} {buffer : Buffer}

theorem value?_decode_of_le {contents : List (FrameContent format)} (hl : buffer.IsLaidOut)
    (hc : checkBuffer s format indices buffer = none)
    (h : source.HoldsAll s.identCapacity indices contents) {k : Nat}
    (hk : (frameRows contents).length ≤ k) (column : Nat) :
    (decode s format source indices buffer).buffer.value? k column = buffer.value? k column := by
  rw [Buffer.value?, Buffer.value?, stored?_decode_of_le hl hc h hk, layout_decode hl hc]

/-- A record with a row that does not fit stops a scan at the first value that is to blame. -/
theorem exists_column_of_not_fits {name : WrittenName} {row : FrameRow format}
    (hb : source.Holds index (name.bytes ++ row.bytes)) (hf : ¬row.Fits s.identCapacity) :
    ∃ (refusal : Refusal) (column : Nat) (d : Datum) (start : Nat) (events : List Event),
      row.fields[column]? = some d ∧ ¬d.Fits s.identCapacity
      ∧ d.staged s.identCapacity = .error refusal ∧ refusal.IsDue s.identCapacity
      ∧ LiesIn (FrameContent.units ⟨name, some row⟩) start (.field column d.code) start
      ∧ examine s format source index
        = .error ⟨events, refusal.fault, some index, some start⟩ := by
  obtain ⟨before, d, after, hfields, hbefore, hd⟩ := Datum.exists_first_misfit hf
  obtain ⟨refusal, hrefusal, hdue⟩ := Datum.exists_refusal hd
  have hbody := Frame.readBody_eq_error (c := ⟨name.bytes.length, row.bytes⟩) hfields hbefore
    hrefusal rfl
  obtain ⟨events, he⟩ := examine_of_readBody hb (readName_of_append _) hbody
  refine ⟨refusal, before.length, d, _, events, ?_, hd, hrefusal, hdue,
    .tail (FrameRow.liesIn_units hfields), he⟩
  rw [hfields, List.getElem?_append_right (Nat.le_refl _), Nat.sub_self, List.getElem?_cons_zero]

/-- If the selected columns fit and the others are to blame, it is not a selected one. -/
theorem exists_column_of_examine_whole {content : FrameContent format} {stop : Stop}
    (hb : source.Holds index content.bytes) (hf : content.Fits s.identCapacity)
    (he : examine s format.whole source index = .error stop) :
    ∃ (refusal : Refusal) (column : Nat) (code : Code) (start : Nat) (events : List Event),
      (column < format.leading.length ∨ format.leading.length + format.fields.length ≤ column)
        ∧ format.whole.fields[column]? = some code
        ∧ refusal.IsDue s.identCapacity
        ∧ LiesIn content.whole.units start (.field column code) start
        ∧ stop = ⟨events, refusal.fault, some index, some start⟩ := by
  by_cases hw : content.whole.Fits s.identCapacity
  · rw [← content.bytes_whole] at hb
    obtain ⟨record, hr, hp, hbytes⟩ := hb
    exact nomatch he.symm.trans (examine_eq_ok_iff.mpr ⟨record, _, hr, hp, hbytes.symm, hw, rfl⟩)
  · obtain ⟨name, _ | row⟩ := content
    · exact absurd (fun row hrow => (nomatch hrow)) hw
    have hnot : ¬row.whole.Fits s.identCapacity :=
      fun h => hw fun _ hrow => Option.some.inj hrow ▸ h
    rw [← FrameContent.bytes_whole] at hb
    obtain ⟨refusal, column, d, start, events, hd, hmisfit, -, hdue, hlies, he'⟩ :=
      exists_column_of_not_fits hb hnot
    refine ⟨refusal, column, d.code, start, events, ?_, ?_, hdue, hlies,
      Except.error.inj (he.symm.trans he')⟩
    · -- In the middle are the selected columns, and those fit.
      by_contra hmiddle
      obtain ⟨k, rfl⟩ := Nat.exists_eq_add_of_le (show format.leading.length ≤ column by omega)
      rw [row.fields_whole (by omega)] at hd
      exact hmisfit (hf row rfl d (List.mem_of_getElem? hd))
    · show format.whole.fields[column]? = _
      rw [← row.whole.fields_codes, List.getElem?_map, hd]
      rfl

/-- Both formats are used with buffers of their own. What is said of a failure is its cause and that
it lies at the start of a column that the format passes over. -/
theorem decode_whole (s : Settings) (format : FrameFormat) (source : Source) (indices : List Nat) :
    (∀ report, (decode s format.whole source indices
            (bufferFor s format.whole indices.length)).result = .ok report →
        (decode s format source indices (bufferFor s format indices.length)).result = .ok report
          ∧ ∀ row column, column < format.fields.length →
            (decode s format source indices
                (bufferFor s format indices.length)).buffer.value? row column
              = (decode s format.whole source indices
                (bufferFor s format.whole indices.length)).buffer.value? row
                  (format.leading.length + column))
      ∧ ∀ report failure,
        (decode s format source indices (bufferFor s format indices.length)).result = .ok report →
        (decode s format.whole source indices
          (bufferFor s format.whole indices.length)).result = .error failure →
        ((∃ length, s.identCapacity < length
              ∧ failure.fault = .fieldTooLong length s.identCapacity)
            ∨ failure.fault = .notATime)
          ∧ ∃ index ∈ indices, ∃ content : FrameContent format.whole,
            source.Holds index content.bytes
              ∧ ∃ column code start,
                (column < format.leading.length
                  ∨ format.leading.length + format.fields.length ≤ column)
                ∧ format.whole.fields[column]? = some code
                ∧ LiesIn content.units start (.field column code) start
                ∧ failure.record = some index ∧ failure.offset = some start := by
  have hl : (bufferFor s format indices.length).IsLaidOut := isLaidOut_bufferFor _
  have hc : checkBuffer s format indices (bufferFor s format indices.length) = none :=
    checkBuffer_bufferFor
  have hl' : (bufferFor s format.whole indices.length).IsLaidOut := isLaidOut_bufferFor _
  have hc' : checkBuffer s format.whole indices (bufferFor s format.whole indices.length) = none :=
    checkBuffer_bufferFor
  constructor
  · intro report hok
    obtain ⟨-, wholes, hwholes⟩ := exists_holdsAll_of_decode hl' hok
    obtain ⟨contents, rfl, hh⟩ := hwholes.exists_whole_eq
    constructor
    · rw [result_of_holdsAll hl' hc' hwholes] at hok
      rw [result_of_holdsAll hl hc hh, ← hok, List.zipWith_map_right]
      simp only [FrameContent.numbered_whole]
    · intro k column hcolumn
      have hrows := frameRows_map_whole contents
      rcases hk : (frameRows contents)[k]? with _ | row
      · -- Neither call has stored such a row, and both buffers are blank there.
        have hle : (frameRows contents).length ≤ k := List.getElem?_eq_none_iff.mp hk
        rw [value?_decode_of_le hl hc hh hle,
          value?_decode_of_le hl' hc' hwholes (by rwa [hrows, List.length_map]), bufferFor,
          bufferFor, Buffer.value?_blank, Buffer.value?_blank, FrameFormat.fields_whole hcolumn]
      · have hk' : (frameRows (contents.map FrameContent.whole))[k]? = some row.whole := by
          rw [hrows, List.getElem?_map, hk]
          rfl
        rw [value?_decode hl hc hh hk, value?_decode hl' hc' hwholes hk', row.fields_whole hcolumn]
  · intro report failure hok herror
    obtain ⟨-, contents, hh⟩ := exists_holdsAll_of_decode hl hok
    obtain ⟨entries, stop, hs, rfl⟩ := scan_of_decode_eq_error hl' hc' herror
    obtain ⟨before, index, after, rfl, -, he⟩ := scan_eq_some_iff.mp hs
    have hm : index ∈ before ++ index :: after := List.mem_append_right _ List.mem_cons_self
    obtain ⟨content, hb, hf⟩ := hh.exists_of_mem hm
    obtain ⟨refusal, column, code, start, events, hskipped, hcode, hdue, hlies, rfl⟩ :=
      exists_column_of_examine_whole hb hf he
    rw [← content.bytes_whole] at hb
    refine ⟨?_, index, hm, content.whole, hb, column, code, start, hskipped, hcode, hlies, rfl, rfl⟩
    cases refusal with
    | tooLong length capacity =>
      obtain ⟨hlength, rfl⟩ := hdue
      exact .inl ⟨length, hlength, rfl⟩
    | notATime => exact .inr rfl

/-- A number behind an identifier that is passed over, and room for identifiers of one character. -/
theorem decode_whole_ident :
    (∀ row, (decode ⟨1, .reset, 1, true⟩ (.behind .ident .uvari)
          (.constant [1, 0, 1, 70, 5, 1, 65, 44]) [7]
          (bufferFor ⟨1, .reset, 1, true⟩ (.behind .ident .uvari) 1)).buffer.value? row 0
        = (decode ⟨1, .reset, 1, true⟩ (FrameFormat.behind .ident .uvari).whole
          (.constant [1, 0, 1, 70, 5, 1, 65, 44]) [7]
          (bufferFor ⟨1, .reset, 1, true⟩ (FrameFormat.behind .ident .uvari).whole 1)).buffer.value?
            row 1)
      ∧ ∃ column start, (column < 1 ∨ 2 ≤ column)
        ∧ (decode ⟨1, .reset, 1, true⟩ (FrameFormat.behind .ident .uvari).whole
            (.constant [1, 0, 1, 70, 5, 2, 65, 66, 44]) [7]
            (bufferFor ⟨1, .reset, 1, true⟩ (FrameFormat.behind .ident .uvari).whole 1)).result
          = .error ⟨.fieldTooLong 2 1, some 7, some start⟩
        ∧ ∃ code, [Code.ident, .uvari][column]? = some code := by
  constructor
  · exact fun row => ((decode_whole ⟨1, .reset, 1, true⟩ (.behind .ident .uvari)
      (.constant [1, 0, 1, 70, 5, 1, 65, 44]) [7]).1 ⟨1, 0, 6, [⟨7, 1, 5⟩]⟩ rfl).2 row 0 (by decide)
  · obtain ⟨-, index, -, content, -, column, code, start, hskipped, hcode, -, -, hoffset⟩ :=
      (decode_whole ⟨1, .reset, 1, true⟩ (.behind .ident .uvari)
        (.constant [1, 0, 1, 70, 5, 2, 65, 66, 44]) [7]).2 ⟨1, 0, 6, [⟨7, 1, 5⟩]⟩
        ⟨.fieldTooLong 2 1, some 7, some 5⟩ rfl rfl
    cases hoffset
    exact ⟨column, 5, hskipped, rfl, code, hcode⟩

end Decoder

end WellLog
