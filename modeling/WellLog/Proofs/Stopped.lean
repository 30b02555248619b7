import WellLog.Proofs.Decoding

/-!
# A call that fails keeps the rows before the failure

A call that fails in a record has done what a call on the records before it does, and nothing more:
it leaves the same rows, the rows behind them are those that were there, and what the source holds
behind the record does not matter (`Decoder.stored?_of_decode_eq_error`). A request that is refused
leaves the whole buffer alone, whatever the source.
-/

namespace WellLog.Decoder

theorem stored?_of_decode_eq_error (s : Settings) (format : FrameFormat) (source : Source)
    {indices : List Nat} {buffer : Buffer} (hl : buffer.IsLaidOut) :
    (∀ failure, checkBuffer s format indices buffer = none →
        (decode s format source indices buffer).result = .error failure →
        ∃ j index m, indices[j]? = some index ∧ failure.record = some index
          ∧ (∀ small : Buffer, small.IsLaidOut →
              checkBuffer s format (indices.take j) small = none →
              (∃ report, (decode s format source (indices.take j) small).result = .ok report
                  ∧ report.rowsWritten = m)
                ∧ ∀ row < m, (decode s format source indices buffer).buffer.stored? row
                    = (decode s format source (indices.take j) small).buffer.stored? row)
          ∧ (∀ row, m ≤ row →
              (decode s format source indices buffer).buffer.stored? row = buffer.stored? row)
          ∧ ∀ source' : Source,
              (∀ i ∈ indices.take (j + 1), source'.record? i = source.record? i) →
              decode s format source' indices buffer = decode s format source indices buffer)
      ∧ (∀ fault, checkBuffer s format indices buffer = some fault → ∀ source' : Source,
          decode s format source' indices buffer = ⟨.error fault.alone, buffer, []⟩)
      ∧ ∀ leading fields trailing fault, FrameFormat.parse leading fields trailing = .error fault →
          ∀ source' : Source, decodeText s source' leading fields trailing indices buffer
            = ⟨.error (Fault.format fault).alone, buffer, []⟩ := by
  refine ⟨fun failure hc h => ?_, fun fault hc source' => decode_of_check hc, ?_⟩
  · obtain ⟨entries, stop, hs, rfl⟩ := scan_of_decode_eq_error hl hc h
    obtain ⟨before, index, after, rfl, hb, hi⟩ := scan_eq_some_iff.mp hs
    have htake : (before ++ index :: after).take before.length = before := List.take_left
    have htake' : (before ++ index :: after).take (before.length + 1) = before ++ [index] := by
      rw [List.take_length_add_append]
      rfl
    refine ⟨before.length, index, (stagedRows entries).length, ?_, record_of_examine hi, ?_, ?_, ?_⟩
    · rw [List.getElem?_append_right (Nat.le_refl _), Nat.sub_self, List.getElem?_cons_zero]
    · rw [htake]
      intro small hsmall hcs
      obtain ⟨report, hok, hw, -⟩ := result_of_scan hsmall hcs hb
      refine ⟨⟨report, hok, hw⟩, fun row hrow => ?_⟩
      · rw [stored?_decode hl hc (congrArg Prod.fst hs),
          stored?_decode hsmall hcs (congrArg Prod.fst hb), if_pos hrow, if_pos hrow,
          (checkBuffer_eq_none_iff.mp hc).2, (checkBuffer_eq_none_iff.mp hcs).2]
    · intro row hrow
      rw [stored?_decode hl hc (congrArg Prod.fst hs), if_neg (Nat.not_lt.mpr hrow)]
    · rw [htake']
      intro source' hsource
      rw [decode_eq_outcome hl hc, decode_eq_outcome hl hc, hs, scan_of_stop hb hi hsource]
  · intro leading fields trailing fault hp source'
    rw [decodeText, hp]

/-- The second record is missing, and the row of the first stays. A buffer with a row too many and
a format with an unknown symbol are refused. -/
theorem stored?_of_decode_eq_error_missing :
    (∃ j m : Nat, [0, 5][j]? = some 5 ∧ ∀ row, m ≤ row →
        (decode .standard (.single .uvari) (Store.ofList [.frameData [1, 0, 1, 70, 5, 44]]) [0, 5]
            (bufferFor .standard (.single .uvari) 2)).buffer.stored? row
          = (bufferFor .standard (.single .uvari) 2).stored? row)
      ∧ decode .standard (.single .uvari) (Store.ofList []) [5]
            (bufferFor .standard (.single .uvari) 2)
          = ⟨.error (Fault.rowCountMismatch 2 1).alone, bufferFor .standard (.single .uvari) 2, []⟩
      ∧ decodeText .standard (Store.ofList []) "" "?" "" [5]
            (bufferFor .standard (.single .uvari) 1)
          = ⟨.error (Fault.format (.unknownSymbol '?' 0)).alone,
              bufferFor .standard (.single .uvari) 1, []⟩ := by
  have herror : (decode .standard (.single .uvari)
      (Store.ofList [.frameData [1, 0, 1, 70, 5, 44]]) [0, 5]
      (bufferFor .standard (.single .uvari) 2)).result
    = .error ⟨.noRecord ⟨5⟩, some 5, none⟩ := rfl
  refine ⟨?_, ?_, ?_⟩
  · obtain ⟨j, index, m, hj, hr, -, hm, -⟩ :=
      (stored?_of_decode_eq_error _ _ _ (Buffer.isLaidOut_blank ..)).1 _ rfl herror
    cases hr
    exact ⟨j, m, hj, hm⟩
  · exact (stored?_of_decode_eq_error _ _ (Store.ofList []) (Buffer.isLaidOut_blank ..)).2.1
      _ rfl _
  · exact (stored?_of_decode_eq_error .standard (.single .uvari) (Store.ofList [])
      (Buffer.isLaidOut_blank ..)).2.2 "" "?" "" _ rfl _

end WellLog.Decoder
