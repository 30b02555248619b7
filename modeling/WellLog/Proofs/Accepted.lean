import WellLog.Proofs.Holding

/-!
# Nothing but contents is accepted

A call that succeeds accounts for every byte of every record: each record holds contents of the
format, and only these, the ones without a row are counted as empty, and the others are the rows of
the buffer (`Decoder.exists_contents_of_decode`). A single record that holds no contents makes the
call fail.
-/

namespace WellLog.Decoder

theorem exists_contents_of_decode (s : Settings) (format : FrameFormat) (source : Source) :
    (∀ {indices : List Nat} {buffer : Buffer} {report : Report}, buffer.IsLaidOut →
        (decode s format source indices buffer).result = .ok report →
        ∃ contents : List (FrameContent format),
          List.Forall₂ (fun index content => source.Holds index content.bytes
              ∧ ∀ other : FrameContent format, source.Holds index other.bytes → other = content)
            indices contents
          ∧ report.rowsWritten = (frameRows contents).length
          ∧ report.emptyRecords = contents.countP (·.row?.isNone)
          ∧ (∀ k row, (frameRows contents)[k]? = some row → ∀ column,
              (decode s format source indices buffer).buffer.value? k column
                = row.fields[column]?.map Datum.value)
          ∧ ∀ k, report.rowsWritten ≤ k →
              (decode s format source indices buffer).buffer.stored? k = buffer.stored? k)
      ∧ ∀ {index : Nat} {record : Record} {buffer : Buffer}, source.record? index = .ok record →
          record.flags.encrypted = false →
          (∀ content : FrameContent format, content.bytes ≠ record.bytes) →
          ∃ failure, (decode s format source [index] buffer).result = .error failure := by
  constructor
  · intro indices buffer report hl hok
    obtain ⟨hc, contents, hh⟩ := exists_holdsAll_of_decode hl hok
    obtain ⟨report', hok', hw, he⟩ := result_decode hl hc hh
    obtain rfl : report = report' := Except.ok.inj (hok.symm.trans hok')
    refine ⟨contents, ?_, hw, he, fun k row => value?_decode hl hc hh, fun k hk => ?_⟩
    · refine hh.imp fun index content ⟨hb, _⟩ => ⟨hb, fun other ho => ?_⟩
      exact FrameContent.eq_of_bytes_eq (ho.bytes_unique hb)
    · exact stored?_decode_of_le hl hc hh (hw ▸ hk)
  · intro index record buffer hr hp hne
    rcases hc : checkBuffer s format [index] buffer with _ | fault
    · rcases he : examine s format source index with stop | entry
      · rw [decode_of_examine hc he]
        exact ⟨_, rfl⟩
      · obtain ⟨record', content, hr', -, hb, -⟩ := examine_eq_ok_iff.mp he
        obtain rfl : record = record' := Except.ok.inj (hr.symm.trans hr')
        exact absurd hb (hne content)
    · rw [decode_of_check hc]
      exact ⟨_, rfl⟩

/-- A name alone is an empty record, and a record that ends within its name is none at all. -/
theorem exists_contents_of_decode_name :
    (∃ contents : List (FrameContent (.single .uvari)),
        contents.countP (·.row?.isNone) = 1 ∧ frameRows contents = [])
      ∧ ∃ failure, (decode .standard (.single .uvari) (.constant [1, 0]) [7]
          (bufferFor .standard (.single .uvari) 1)).result = .error failure := by
  constructor
  · have hok : (decode .standard (.single .uvari) (.constant [1, 0, 1, 70]) [7]
        (bufferFor .standard (.single .uvari) 1)).result = .ok ⟨0, 1, 1, []⟩ := rfl
    obtain ⟨contents, -, hr, he, -⟩ :=
      (exists_contents_of_decode _ _ _).1 (Buffer.isLaidOut_blank ..) hok
    exact ⟨contents, he.symm, List.length_eq_zero_iff.mp hr.symm⟩
  · refine (exists_contents_of_decode .standard (.single .uvari) _).2 rfl rfl fun content hb => ?_
    have hl := congrArg List.length hb
    have hw : 0 < content.name.origin.width.bytes := by
      cases content.name.origin.width <;> decide
    simp only [FrameContent.bytes, WrittenName.bytes, List.length_append, List.length_cons,
      List.length_nil, VarNumber.length_bytes, ShortText.length_bytes, Record.frameData] at hl
    omega

end WellLog.Decoder
