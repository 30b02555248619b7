import WellLog.Proofs.Holding

/-!
# Records that are cut short or extended

The first bytes of a record with a row are no record with a row. Cut behind the name they are an
empty record; cut anywhere else they fail in the part that holds the first missing byte, and the
failure says where that part starts. More bytes behind a row are taken for a second row, which is
refused (`Decoder.decode_of_cut`). In none of these is anything written.
-/

namespace WellLog.Decoder

variable {s : Settings} {format : FrameFormat} {source : Source} {index : Nat} {bytes : List UInt8}
  {e : LocatedFault}

theorem examine_of_readName (h : source.Holds index bytes)
    (hn : Frame.readName (.ofBytes bytes) = .error e) :
    examine s format source index = .error ⟨[], e.fault, some index, some e.offset⟩ := by
  obtain ⟨record, hr, hp, rfl⟩ := h
  simp only [examine, hr, examineRecord, hp, Bool.false_eq_true, if_false, hn]

theorem examine_of_readBody {head : Int32 × UInt8} {c : Cursor} (h : source.Holds index bytes)
    (hn : Frame.readName (.ofBytes bytes) = .ok (head, c))
    (hb : Frame.readBody s.identCapacity format c = .error e) :
    ∃ events, examine s format source index
      = .error ⟨events, e.fault, some index, some e.offset⟩ := by
  obtain ⟨record, hr, hp, rfl⟩ := h
  simp only [examine, hr, examineRecord, hp, Bool.false_eq_true, if_false, hn, hb]
  exact ⟨_, rfl⟩

variable {name : WrittenName} {row : FrameRow format}

theorem readName_of_append (rest : List UInt8) :
    Frame.readName (.ofBytes (name.bytes ++ rest)) = .ok (name.head, ⟨name.bytes.length, rest⟩) :=
  Frame.readName_eq_ok_iff.mpr ⟨name, rfl, ⟨rfl, (Nat.zero_add _).symm⟩⟩

theorem examine_of_cut {k : Nat} (hf : row.Fits s.identCapacity)
    (hk : k < (name.bytes ++ row.bytes).length) (hne : k ≠ name.bytes.length)
    (h : source.Holds index ((name.bytes ++ row.bytes).take k)) :
    ∃ part start needed available events,
      LiesIn (FrameContent.units ⟨name, some row⟩) k part start
        ∧ examine s format source index
          = .error ⟨events, .corrupt part needed available, some index, some start⟩ := by
  rcases Nat.lt_or_ge k name.bytes.length with hlt | hge
  · have hcut : (Cursor.ofBytes ((name.bytes ++ row.bytes).take k)).rest = name.bytes.take k :=
      List.take_append_of_le_length (Nat.le_of_lt hlt)
    obtain ⟨needed, available, hn⟩ := Frame.endsIn_readName hlt hcut
    exact ⟨.name, 0, needed, available, [], .head hlt, examine_of_readName h hn⟩
  · obtain ⟨j, rfl⟩ := Nat.exists_eq_add_of_le hge
    rw [List.take_length_add_append] at h
    rw [List.length_append, Nat.add_lt_add_iff_left] at hk
    obtain ⟨part, start, hl, needed, available, hb⟩ :=
      Frame.endsAt_readBody (c := ⟨name.bytes.length, row.bytes.take j⟩) hf (by omega) hk rfl
    obtain ⟨events, he⟩ := examine_of_readBody h (readName_of_append _) hb
    exact ⟨part, _, needed, available, events, .tail hl, he⟩

theorem examine_of_append {more : List UInt8} (hf : row.Fits s.identCapacity) (hm : more ≠ [])
    (h : source.Holds index (name.bytes ++ row.bytes ++ more)) :
    ∃ events, examine s format source index
      = .error ⟨events, .secondRow more.length, some index,
          some (name.bytes ++ row.bytes).length⟩ := by
  rw [List.append_assoc] at h
  rw [List.length_append]
  exact examine_of_readBody h (readName_of_append _) (Frame.readBody_append hf hm rfl)

theorem decode_of_cut (s : Settings) (format : FrameFormat) {source : Source} {index : Nat}
    {bytes : List UInt8} {buffer : Buffer} {report : Report} (hl : buffer.IsLaidOut)
    (hb : source.Holds index bytes)
    (hok : (decode s format source [index] buffer).result = .ok report)
    (hrows : report.rowsWritten = 1) :
    ∃ (name : WrittenName) (row : FrameRow format), name.bytes ++ row.bytes = bytes
      ∧ (∀ k < bytes.length, k ≠ name.bytes.length →
          ∀ source' : Source, source'.Holds index (bytes.take k) →
          ∃ part start needed available, LiesIn (FrameContent.units ⟨name, some row⟩) k part start
            ∧ (decode s format source' [index] buffer).result
              = .error ⟨.corrupt part needed available, some index, some start⟩
            ∧ (decode s format source' [index] buffer).buffer = buffer)
      ∧ (∀ source' : Source, source'.Holds index (bytes.take name.bytes.length) →
          ∃ report, (decode s format source' [index] buffer).result = .ok report
            ∧ report.rowsWritten = 0 ∧ report.emptyRecords = 1)
      ∧ ∀ more, more ≠ [] → ∀ source' : Source, source'.Holds index (bytes ++ more) →
          (decode s format source' [index] buffer).result
              = .error ⟨.secondRow more.length, some index, some bytes.length⟩
            ∧ (decode s format source' [index] buffer).buffer = buffer := by
  obtain ⟨hc, contents, hh⟩ := exists_holdsAll_of_decode hl hok
  obtain ⟨report', hok', hw, -⟩ := result_decode hl hc hh
  obtain rfl : report = report' := Except.ok.inj (hok.symm.trans hok')
  obtain ⟨⟨name, row?⟩, -, ⟨hb', hf⟩, ⟨⟩, rfl⟩ := List.forall₂_cons_left_iff.mp hh
  obtain rfl := hb'.bytes_unique hb
  rcases row? with _ | row
  · rw [hrows] at hw
    exact absurd hw Nat.one_ne_zero
  have hf : row.Fits s.identCapacity := hf row rfl
  refine ⟨name, row, rfl, ?_, ?_, ?_⟩
  · intro k hk hne source' h
    obtain ⟨part, start, needed, available, events, hlies, he⟩ := examine_of_cut hf hk hne h
    rw [decode_of_examine hc he]
    exact ⟨part, start, needed, available, hlies, rfl, rfl⟩
  · intro source' h
    have hh' : source'.HoldsAll s.identCapacity [index]
        [(⟨name, none⟩ : FrameContent format)] := by
      refine .cons ⟨?_, fun row hrow => (nomatch hrow)⟩ .nil
      rw [FrameContent.bytes, List.take_left] at h
      rw [FrameContent.bytes, Option.elim_none, List.append_nil]
      exact h
    obtain ⟨report, hok, hw, he⟩ := result_decode hl hc hh'
    exact ⟨report, hok, hw, he⟩
  · intro more hm source' h
    obtain ⟨events, he⟩ := examine_of_append hf hm h
    rw [decode_of_examine hc he]
    exact ⟨rfl, rfl⟩

/-- Without the last byte of its row index a record fails, without the whole of its row it is
empty, and with one byte more it would have a second row. -/
theorem decode_of_cut_uvari :
    (∃ part start needed available,
        (decode .standard (.single .uvari) (.constant [1, 0, 1, 70, 0x80]) [7]
            (bufferFor .standard (.single .uvari) 1)).result
          = .error ⟨.corrupt part needed available, some 7, some start⟩)
      ∧ (∃ report, (decode .standard (.single .uvari) (.constant [1, 0, 1, 70]) [7]
            (bufferFor .standard (.single .uvari) 1)).result = .ok report
          ∧ report.emptyRecords = 1)
      ∧ (decode .standard (.single .uvari) (.constant [1, 0, 1, 70, 0x80, 5, 44, 9]) [7]
            (bufferFor .standard (.single .uvari) 1)).result
          = .error ⟨.secondRow 1, some 7, some 7⟩ := by
  have hok : (decode .standard (.single .uvari) (.constant [1, 0, 1, 70, 0x80, 5, 44]) [7]
      (bufferFor .standard (.single .uvari) 1)).result = .ok ⟨1, 0, 6, [⟨7, 1, 5⟩]⟩ := rfl
  obtain ⟨name, row, hb, hcut, hempty, hmore⟩ :=
    decode_of_cut _ _ (Buffer.isLaidOut_blank ..) (Source.holds_constant _ _) hok rfl
  obtain ⟨rfl, -⟩ :
      name = ⟨⟨.one, 1, by decide⟩, 0, ⟨[70], by decide⟩⟩ ∧ row.bytes = [0x80, 5, 44] :=
    WrittenName.append_inj hb
  refine ⟨?_, ?_, ?_⟩
  · obtain ⟨part, start, needed, available, -, he, -⟩ :=
      hcut 5 (by decide) (by decide) _ (Source.holds_constant _ _)
    exact ⟨part, start, needed, available, he⟩
  · obtain ⟨report, hr, -, he⟩ := hempty _ (Source.holds_constant _ _)
    exact ⟨report, hr, he⟩
  · exact (hmore [9] (by decide) _ (Source.holds_constant _ _)).1

end WellLog.Decoder
