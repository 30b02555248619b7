import WellLog.Proofs.Tallying

/-!
# Decoding in two calls

A list of records may be decoded in two calls, the second of which expects the row index that the
first reported. Both succeed if and only if one call on all records does, and what they report and
what they store are together what that one call reports and stores; if it fails, the first of the
two that fails does so in the same way (`Decoder.decode_append`).
-/

namespace WellLog

/-- The settings for a call that goes on where another has ended. -/
def Settings.resume (s : Settings) (r : Report) : Settings :=
  { s with firstRowIndex := r.nextExpected }

theorem Report.append_start (s : Settings) (r : Report) : r ++ start (s.resume r) = r :=
  congrArg (Report.mk _ _ _) (List.append_nil _)

/-- What is counted on top of a report is what is counted from the row index that it expects. -/
theorem Report.tally_eq_append (s : Settings) (r : Report)
    (records : List (Nat × Option UInt32)) :
    r.tally s.sequencePolicy records
      = r ++ (start (s.resume r)).tally (s.resume r).sequencePolicy records := by
  rw [append_tally, append_start]
  rfl

namespace Decoder

variable {s : Settings} {format : FrameFormat} {source : Source} {indices more : List Nat}
  {buffer : Buffer} {entries : List Entry} {stop : Stop}

/-! ## Scans -/

/-- What a scan finds has nothing to do with the row index that is expected. -/
theorem scan_resume (r : Report) (indices : List Nat) :
    scan (s.resume r) format source indices = scan s format source indices := by
  induction indices with
  | nil => rfl
  | cons index indices ih =>
    unfold scan
    rw [ih]
    rfl

theorem scan_append_of_stop (h : scan s format source indices = (entries, some stop))
    (more : List Nat) : scan s format source (indices ++ more) = (entries, some stop) := by
  obtain ⟨before, index, after, rfl, hb, hi⟩ := scan_eq_some_iff.mp h
  rw [List.append_assoc, List.cons_append]
  exact scan_eq_some_iff.mpr ⟨before, index, after ++ more, rfl, hb, hi⟩

theorem scan_cons {index : Nat} {entry : Entry} (he : examine s format source index = .ok entry)
    (indices : List Nat) : scan s format source (index :: indices)
      = (entry :: (scan s format source indices).1, (scan s format source indices).2) := by
  rw [scan, he]

theorem scan_append {others : List Entry} {stop? : Option Stop}
    (h : scan s format source indices = (entries, none))
    (hm : scan s format source more = (others, stop?)) :
    scan s format source (indices ++ more) = (entries ++ others, stop?) := by
  have hs := scan_eq_none_iff.mp h
  clear h
  induction hs with
  | nil => exact hm
  | cons he _ ih => rw [List.cons_append, scan_cons he, ih, List.cons_append]

/-! ## Calls -/

theorem stored?_of_scan_eq_none (hl : buffer.IsLaidOut)
    (hc : checkBuffer s format indices buffer = none)
    (hs : scan s format source indices = (entries, none)) {row : Nat}
    (hr : row < (stagedRows entries).length) :
    (decode s format source indices buffer).buffer.stored? row
      = (stagedRows entries)[row]?.map
          (Layout.ofSpan format.fields s.identCapacity).fill := by
  rw [stored?_decode hl hc (congrArg Prod.fst hs), if_pos hr, (checkBuffer_eq_none_iff.mp hc).2]

section TwoCalls

variable {whole first second : Buffer} {others : List Entry}
  (hl : whole.IsLaidOut) (hl₁ : first.IsLaidOut) (hl₂ : second.IsLaidOut)
  (hc : checkBuffer s format (indices ++ more) whole = none)
  (hc₁ : checkBuffer s format indices first = none)
  (hc₂ : checkBuffer s format more second = none)

include hl hc

theorem result_append_of_stop (hs : scan s format source indices = (entries, some stop)) :
    (decode s format source (indices ++ more) whole).result = .error stop.failure :=
  result_of_scan_eq_some hl hc (scan_append_of_stop hs more)

include hl₂ hc₂

theorem result_append_of_stop_second (hs : scan s format source indices = (entries, none))
    (hm : scan s format source more = (others, some stop)) (r : Report) :
    (decode s format source (indices ++ more) whole).result = .error stop.failure
      ∧ (decode (s.resume r) format source more second).result = .error stop.failure := by
  have hm' : scan (s.resume r) format source more = (others, some stop) := by rw [scan_resume, hm]
  exact ⟨result_of_scan_eq_some hl hc (scan_append hs hm), result_of_scan_eq_some hl₂ hc₂ hm'⟩

include hl₁ hc₁

theorem result_append (hs : scan s format source indices = (entries, none))
    (hm : scan s format source more = (others, none)) :
    ∃ r₁ r₂, (decode s format source indices first).result = .ok r₁
      ∧ (decode (s.resume r₁) format source more second).result = .ok r₂
      ∧ (decode s format source (indices ++ more) whole).result = .ok (r₁ ++ r₂)
      ∧ r₁.rowsWritten = (stagedRows entries).length
      ∧ r₂.rowsWritten = (stagedRows others).length := by
  obtain ⟨r₁, hok₁, hw₁, -⟩ := result_of_scan hl₁ hc₁ hs
  have hm' : scan (s.resume r₁) format source more = (others, none) := by rw [scan_resume, hm]
  have hc₂' : checkBuffer (s.resume r₁) format more second = none := hc₂
  obtain ⟨r₂, hok₂, hw₂, -⟩ := result_of_scan hl₂ hc₂' hm'
  refine ⟨r₁, r₂, hok₁, hok₂, ?_, hw₁, hw₂⟩
  have hr₁ := hok₁.symm.trans (result_of_scan_eq_none hl₁ hc₁ hs)
  have hr₂ := hok₂.symm.trans (result_of_scan_eq_none hl₂ hc₂' hm')
  rw [Except.ok.injEq] at hr₁ hr₂
  rw [result_of_scan_eq_none hl hc (scan_append hs hm), List.map_append, Report.tally_append, ← hr₁,
    Report.tally_eq_append, ← hr₂]

theorem stored?_append (hs : scan s format source indices = (entries, none))
    (hm : scan s format source more = (others, none)) (r : Report) :
    (∀ row < (stagedRows entries).length,
        (decode s format source (indices ++ more) whole).buffer.stored? row
          = (decode s format source indices first).buffer.stored? row)
      ∧ ∀ row < (stagedRows others).length,
        (decode s format source (indices ++ more) whole).buffer.stored?
            ((stagedRows entries).length + row)
          = (decode (s.resume r) format source more second).buffer.stored? row := by
  have hm' : scan (s.resume r) format source more = (others, none) := by rw [scan_resume, hm]
  have hc₂' : checkBuffer (s.resume r) format more second = none := hc₂
  have hwhole := scan_append hs hm
  have happend : stagedRows (entries ++ others) = stagedRows entries ++ stagedRows others :=
    List.filterMap_append
  have hlength := congrArg List.length happend
  rw [List.length_append] at hlength
  constructor
  · intro row hr
    rw [stored?_of_scan_eq_none hl hc hwhole (by omega), stored?_of_scan_eq_none hl₁ hc₁ hs hr,
      happend, List.getElem?_append_left hr]
  · intro row hr
    rw [stored?_of_scan_eq_none hl hc hwhole (by omega), stored?_of_scan_eq_none hl₂ hc₂' hm' hr,
      happend, List.getElem?_append_right (by omega), Nat.add_sub_cancel_left]
    rfl

end TwoCalls

/-- The small buffers need not be those that the large one is cut into, nor need any of them be
new. -/
theorem decode_append (s : Settings) (format : FrameFormat) (source : Source)
    {indices more : List Nat} {whole first second : Buffer} (hl : whole.IsLaidOut)
    (hl₁ : first.IsLaidOut) (hl₂ : second.IsLaidOut)
    (hc : checkBuffer s format (indices ++ more) whole = none)
    (hc₁ : checkBuffer s format indices first = none)
    (hc₂ : checkBuffer s format more second = none) :
    ((∃ r, (decode s format source (indices ++ more) whole).result = .ok r)
        ↔ ∃ r₁ r₂, (decode s format source indices first).result = .ok r₁
          ∧ (decode (s.resume r₁) format source more second).result = .ok r₂)
      ∧ (∀ r₁ r₂, (decode s format source indices first).result = .ok r₁ →
          (decode (s.resume r₁) format source more second).result = .ok r₂ →
          (decode s format source (indices ++ more) whole).result
              = .ok ⟨r₁.rowsWritten + r₂.rowsWritten, r₁.emptyRecords + r₂.emptyRecords,
                  r₂.nextExpected, r₁.anomalies ++ r₂.anomalies⟩
            ∧ (∀ row < r₁.rowsWritten,
                (decode s format source (indices ++ more) whole).buffer.stored? row
                  = (decode s format source indices first).buffer.stored? row)
            ∧ ∀ row < r₂.rowsWritten,
                (decode s format source (indices ++ more) whole).buffer.stored?
                    (r₁.rowsWritten + row)
                  = (decode (s.resume r₁) format source more second).buffer.stored? row)
      ∧ ∀ failure, (decode s format source (indices ++ more) whole).result = .error failure →
          (decode s format source indices first).result = .error failure
            ∨ ∃ r₁, (decode s format source indices first).result = .ok r₁
              ∧ (decode (s.resume r₁) format source more second).result = .error failure := by
  rcases hs : scan s format source indices with ⟨entries, _ | stop⟩
  · obtain ⟨r₁, hok₁, -⟩ := result_of_scan hl₁ hc₁ hs
    rcases hm : scan s format source more with ⟨others, _ | stop⟩
    · -- Both calls get past all of their records.
      obtain ⟨r₁, r₂, hok₁, hok₂, hok, hw₁, hw₂⟩ := result_append hl hl₁ hl₂ hc hc₁ hc₂ hs hm
      refine ⟨⟨fun _ => ⟨r₁, r₂, hok₁, hok₂⟩, fun _ => ⟨_, hok⟩⟩, ?_, fun failure h => ?_⟩
      · intro r₁' r₂' h₁ h₂
        obtain rfl : r₁ = r₁' := Except.ok.inj (hok₁.symm.trans h₁)
        obtain rfl : r₂ = r₂' := Except.ok.inj (hok₂.symm.trans h₂)
        refine ⟨hok, ?_⟩
        rw [hw₁, hw₂]
        exact stored?_append hl hl₁ hl₂ hc hc₁ hc₂ hs hm r₁
      · exact nomatch hok.symm.trans h
    · -- The second call stops at a record.
      have hsecond : ∀ r, (decode (s.resume r) format source more second).result
          = .error stop.failure := fun r => (result_append_of_stop_second hl hl₂ hc hc₂ hs hm r).2
      have hwhole := (result_append_of_stop_second hl hl₂ hc hc₂ hs hm r₁).1
      refine ⟨⟨fun ⟨r, h⟩ => (nomatch hwhole.symm.trans h), fun ⟨r₁, r₂, _, h⟩ => ?_⟩, ?_, ?_⟩
      · exact nomatch (hsecond r₁).symm.trans h
      · exact fun r₁ r₂ _ h => (nomatch (hsecond r₁).symm.trans h)
      · intro failure h
        exact .inr ⟨r₁, hok₁, (hsecond r₁).trans (hwhole.symm.trans h)⟩
  · -- The first call stops at a record.
    have hfirst := result_of_scan_eq_some hl₁ hc₁ hs
    have hwhole := result_append_of_stop hl hc hs
    refine ⟨⟨fun ⟨r, h⟩ => (nomatch hwhole.symm.trans h), fun ⟨r₁, r₂, h, _⟩ => ?_⟩, ?_, ?_⟩
    · exact nomatch hfirst.symm.trans h
    · exact fun r₁ r₂ h => (nomatch hfirst.symm.trans h)
    · intro failure h
      exact .inl (hfirst.trans (hwhole.symm.trans h))

/-- The second record has not the row index that is expected behind the first. A record that is
missing is missing in the second call as well. -/
theorem decode_append_gap :
    (decode .standard (.single .uvari) (Store.ofList [.frameData [1, 0, 1, 70, 5, 9],
          .frameData [1, 0, 1, 70, 7, 9]]) [0, 1] (bufferFor .standard (.single .uvari) 2)).result
        = .ok ⟨1 + 1, 0 + 0, 8, [⟨0, 1, 5⟩] ++ [⟨1, 6, 7⟩]⟩
      ∧ ∃ r : Report, (decode (Settings.standard.resume r) (.single .uvari)
            (Store.ofList [.frameData [1, 0, 1, 70, 5, 9]]) [3]
            (bufferFor .standard (.single .uvari) 1)).result
          = .error ⟨.noRecord ⟨3⟩, some 3, none⟩ := by
  have laidOut : ∀ rows, (bufferFor .standard (.single .uvari) rows).IsLaidOut :=
    isLaidOut_bufferFor
  constructor
  · have hc : checkBuffer .standard (.single .uvari) ([0] ++ [1])
        (bufferFor .standard (.single .uvari) 2) = none := rfl
    have h := decode_append .standard (.single .uvari) (Store.ofList
      [.frameData [1, 0, 1, 70, 5, 9], .frameData [1, 0, 1, 70, 7, 9]]) (laidOut 2) (laidOut 1)
      (laidOut 1) hc rfl rfl
    exact (h.2.1 ⟨1, 0, 6, [⟨0, 1, 5⟩]⟩ ⟨1, 0, 8, [⟨1, 6, 7⟩]⟩ rfl rfl).1
  · have hc : checkBuffer .standard (.single .uvari) ([0] ++ [3])
        (bufferFor .standard (.single .uvari) 2) = none := rfl
    have h := decode_append .standard (.single .uvari) (Store.ofList
      [.frameData [1, 0, 1, 70, 5, 9]]) (laidOut 2) (laidOut 1) (laidOut 1) hc rfl rfl
    rcases h.2.2 ⟨.noRecord ⟨3⟩, some 3, none⟩ rfl with hfirst | ⟨r, -, hsecond⟩
    · exact nomatch hfirst
    · exact ⟨r, hsecond⟩

end Decoder

end WellLog
