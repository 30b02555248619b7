import WellLog.Proofs.Selecting

/-!
# Room for longer identifiers

How many characters an identifier may have decides which records can be decoded, and nothing else.
With more room all are decoded that were before, and the rows give back the same values, although
the columns are wider and stand elsewhere (`Decoder.value?_widened`). Where only the larger room is
enough, the smaller is too small for an identifier, and that is what the call fails with
(`Decoder.decode_widened`).
-/

namespace WellLog

/-- A format of two columns. -/
def FrameFormat.pair (first second : Code) : FrameFormat :=
  ⟨[], [first, second], [], List.cons_ne_nil first [second]⟩

variable {format : FrameFormat} {room more : Nat}

/-! ## What fits -/

theorem Datum.Fits.mono {d : Datum} (h : d.Fits room) (hle : room ≤ more) : d.Fits more := by
  cases d with
  | ident t => exact Nat.le_trans h hle
  | units t => exact Nat.le_trans h hle
  | dtime t => exact h
  | _ => trivial

theorem FrameRow.Fits.mono {row : FrameRow format} (h : row.Fits room) (hle : room ≤ more) :
    row.Fits more :=
  fun d hd => (h d hd).mono hle

theorem FrameContent.Fits.mono {content : FrameContent format} (h : content.Fits room)
    (hle : room ≤ more) : content.Fits more :=
  fun row hrow => (h row hrow).mono hle

theorem Source.HoldsAll.mono {source : Source} {indices : List Nat}
    {contents : List (FrameContent format)} (h : source.HoldsAll room indices contents)
    (hle : room ≤ more) : source.HoldsAll more indices contents :=
  h.imp fun _ _ hc => ⟨hc.1, hc.2.mono hle⟩

/-- What only the larger room can hold is an identifier. -/
theorem Datum.exists_tooLong {d : Datum} {refusal : Refusal}
    (h : d.staged room = .error refusal) (hf : d.Fits more) :
    ∃ length, refusal = .tooLong length room ∧ room < length ∧ length ≤ more := by
  have hident : ∀ t : ShortText, t.body.length ≤ more →
      Field.ofIdent room t.body = .error refusal →
      ∃ length, refusal = .tooLong length room ∧ room < length ∧ length ≤ more := by
    intro t ht h
    rw [Field.ofIdent] at h
    split_ifs at h with hr
    cases h
    exact ⟨t.body.length, rfl, Nat.lt_of_not_le hr, ht⟩
  cases d with
  | ident t => exact hident t hf h
  | units t => exact hident t hf h
  | dtime t =>
    -- Whether there is such a time is not a matter of room.
    have hok : (Datum.dtime t).staged room = .ok _ := staged_eq_ok_iff.mpr ⟨hf, rfl⟩
    cases h.symm.trans hok
  | _ => cases h

/-! ## Blank rows -/

/-- An identifier that has not been stored is empty, however much room there is for it. -/
theorem Code.blank?_eq (room more : Nat) (code : Code) : code.blank? room = code.blank? more := by
  cases code with
  | ident => simp only [blank?, inlineWidth?, ofSlot?, ofIdentImage_replicate]
  | units => simp only [blank?, inlineWidth?, ofSlot?, ofIdentImage_replicate]
  | _ => rfl

namespace Decoder

variable {s : Settings} {source : Source} {indices : List Nat}

/-! ## Calls -/

/-- A record that is decoded with the larger room only has an identifier that is too long. -/
theorem exists_tooLong_of_examine {index : Nat} {content : FrameContent format} {stop : Stop}
    (hb : source.Holds index content.bytes) (hf : content.Fits more)
    (he : examine s format source index = .error stop) :
    ∃ length, stop.failure.fault = .fieldTooLong length s.identCapacity
      ∧ s.identCapacity < length ∧ length ≤ more := by
  by_cases hs : content.Fits s.identCapacity
  · obtain ⟨record, hr, hp, hbytes⟩ := hb
    have hok := examine_eq_ok_iff.mpr ⟨record, content, hr, hp, hbytes.symm, hs, rfl⟩
    cases he.symm.trans hok
  · obtain ⟨name, _ | row⟩ := content
    · exact absurd (fun row hrow => (nomatch hrow)) hs
    have hrow : ¬row.Fits s.identCapacity := fun h => hs fun _ hr => Option.some.inj hr ▸ h
    obtain ⟨refusal, column, d, start, events, hd, -, hstaged, -, -, he'⟩ :=
      exists_column_of_not_fits hb hrow
    have hfd : d.Fits more := hf row rfl d (List.mem_of_getElem? hd)
    obtain ⟨length, rfl, hlt, hle⟩ := Datum.exists_tooLong hstaged hfd
    obtain rfl := Except.error.inj (he.symm.trans he')
    exact ⟨length, rfl, hlt, hle⟩

section Widened

variable (h : s.identCapacity ≤ more) {contents : List (FrameContent format)}
  (hh : source.HoldsAll s.identCapacity indices contents)

include h hh

/-- The contents are numbered alike, so both calls report the same. -/
theorem result_widened :
    (decode (s.set (.identCapacity more)) format source indices
        (bufferFor (s.set (.identCapacity more)) format indices.length)).result
      = (decode s format source indices (bufferFor s format indices.length)).result := by
  rw [result_of_holdsAll (isLaidOut_bufferFor _) checkBuffer_bufferFor hh,
    result_of_holdsAll (isLaidOut_bufferFor _) checkBuffer_bufferFor (hh.mono h)]
  rfl

theorem value?_widened (row column : Nat) :
    (decode (s.set (.identCapacity more)) format source indices
        (bufferFor (s.set (.identCapacity more)) format indices.length)).buffer.value? row column
      = (decode s format source indices
          (bufferFor s format indices.length)).buffer.value? row column := by
  have hl : (bufferFor s format indices.length).IsLaidOut := isLaidOut_bufferFor _
  have hl' : (bufferFor (s.set (.identCapacity more)) format indices.length).IsLaidOut :=
    isLaidOut_bufferFor _
  have hh' := hh.mono h
  rcases hrow : (frameRows contents)[row]? with _ | frameRow
  · -- Neither call has stored such a row, and a blank row has the same values in both.
    have hle : (frameRows contents).length ≤ row := List.getElem?_eq_none_iff.mp hrow
    rw [value?_decode_of_le hl checkBuffer_bufferFor hh hle,
      value?_decode_of_le hl' checkBuffer_bufferFor hh' hle, bufferFor, bufferFor,
      Buffer.value?_blank, Buffer.value?_blank]
    split_ifs
    · exact congrArg _ (funext fun code => Code.blank?_eq _ _ code)
    · rfl
  · rw [value?_decode hl checkBuffer_bufferFor hh hrow,
      value?_decode hl' checkBuffer_bufferFor hh' hrow]

end Widened

/-- Each call has a blank buffer of its own, laid out for its room. -/
theorem decode_widened (s : Settings) {more : Nat} (h : s.identCapacity ≤ more)
    (format : FrameFormat) (source : Source) (indices : List Nat) (rows : Nat) :
    (∀ report,
        (decode s format source indices (bufferFor s format rows)).result = .ok report →
        (decode (s.set (.identCapacity more)) format source indices
            (bufferFor (s.set (.identCapacity more)) format rows)).result = .ok report
          ∧ ∀ row column,
            (decode (s.set (.identCapacity more)) format source indices
                (bufferFor (s.set (.identCapacity more)) format rows)).buffer.value? row column
              = (decode s format source indices
                (bufferFor s format rows)).buffer.value? row column)
      ∧ ∀ report failure,
        (decode (s.set (.identCapacity more)) format source indices
          (bufferFor (s.set (.identCapacity more)) format rows)).result = .ok report →
        (decode s format source indices (bufferFor s format rows)).result = .error failure →
        ∃ length, failure.fault = .fieldTooLong length s.identCapacity
          ∧ s.identCapacity < length ∧ length ≤ more := by
  constructor
  · intro report hok
    obtain ⟨hc, contents, hh⟩ := exists_holdsAll_of_decode (isLaidOut_bufferFor _) hok
    obtain rfl : rows = indices.length := (checkBuffer_eq_none_iff.mp hc).1
    exact ⟨(result_widened h hh).trans hok, value?_widened h hh⟩
  · intro report failure hok herror
    obtain ⟨hc, contents, hh⟩ := exists_holdsAll_of_decode (isLaidOut_bufferFor _) hok
    obtain rfl : rows = indices.length := (checkBuffer_eq_none_iff.mp hc).1
    obtain ⟨entries, stop, hs, rfl⟩ :=
      scan_of_decode_eq_error (isLaidOut_bufferFor _) checkBuffer_bufferFor herror
    obtain ⟨before, index, after, rfl, -, he⟩ := scan_eq_some_iff.mp hs
    have hm : index ∈ before ++ index :: after := List.mem_append_right _ List.mem_cons_self
    obtain ⟨content, hb, hf⟩ := hh.exists_of_mem hm
    exact exists_tooLong_of_examine hb hf he

/-- The number behind an identifier stands at another offset where there is more room. Room for one
character is too little for the second record. -/
theorem decode_widened_ident :
    (∀ row column,
        (decode ⟨3, .reset, 1, true⟩ (.pair .ident .uvari) (.constant [1, 0, 1, 70, 5, 1, 65, 44])
            [7] (bufferFor ⟨3, .reset, 1, true⟩ (.pair .ident .uvari) 1)).buffer.value? row column
          = (decode ⟨1, .reset, 1, true⟩ (.pair .ident .uvari)
              (.constant [1, 0, 1, 70, 5, 1, 65, 44]) [7]
              (bufferFor ⟨1, .reset, 1, true⟩ (.pair .ident .uvari) 1)).buffer.value? row column)
      ∧ ∃ length, length ≤ 3
        ∧ (decode ⟨1, .reset, 1, true⟩ (.pair .ident .uvari)
            (.constant [1, 0, 1, 70, 5, 2, 65, 66, 44]) [7]
            (bufferFor ⟨1, .reset, 1, true⟩ (.pair .ident .uvari) 1)).result
          = .error ⟨.fieldTooLong length 1, some 7, some 5⟩ := by
  have hroom : (⟨1, .reset, 1, true⟩ : Settings).identCapacity ≤ 3 := by decide
  constructor
  · exact ((decode_widened ⟨1, .reset, 1, true⟩ hroom (.pair .ident .uvari)
      (.constant [1, 0, 1, 70, 5, 1, 65, 44]) [7] 1).1 ⟨1, 0, 6, [⟨7, 1, 5⟩]⟩ rfl).2
  · obtain ⟨length, hfault, -, hle⟩ := (decode_widened ⟨1, .reset, 1, true⟩ hroom
      (.pair .ident .uvari) (.constant [1, 0, 1, 70, 5, 2, 65, 66, 44]) [7] 1).2
      ⟨1, 0, 6, [⟨7, 1, 5⟩]⟩ ⟨.fieldTooLong 2 1, some 7, some 5⟩ rfl rfl
    refine ⟨length, hle, ?_⟩
    rw [← hfault]
    rfl

end Decoder

end WellLog
