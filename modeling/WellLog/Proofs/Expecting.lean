import WellLog.Proofs.Scanning

/-!
# Runs that expect other row indices

The settings of the sequence have nothing to do with the rows. Two runs whose identifiers have the
same room store the same rows, count the same records and stop at the same failure, whatever row
indices the one and the other expect (`Decoder.walk_inStep`).

Runs that start with the same expected index go on expecting the same as long as they find what they
expect, as every policy expects the same behind it. So the first anomaly of both is the same, and
only behind it they may part (`Decoder.decode_expecting`).
-/

namespace WellLog

variable {s t : Settings} {format : FrameFormat} {source : Source}

theorem SequencePolicy.next_self (p p' : SequencePolicy) (n : UInt32) : p.next n n = p'.next n n := by
  cases p <;> cases p' <;> rfl

namespace Report

/-- The first anomaly of both is the same, and if there is none the same row index is expected. -/
structure PartsBehindAnomaly (r q : Report) : Prop where
  head : r.anomalies.head? = q.anomalies.head?
  next : r.anomalies = [] → r.nextExpected = q.nextExpected

theorem partsBehindAnomaly_start (h : s.firstRowIndex = t.firstRowIndex) :
    (start s).PartsBehindAnomaly (start t) := ⟨rfl, fun _ => h⟩

theorem PartsBehindAnomaly.addRow {r q : Report} (h : r.PartsBehindAnomaly q)
    (p p' : SequencePolicy) (record : Nat) (found : UInt32) :
    (r.addRow p record found).PartsBehindAnomaly (q.addRow p' record found) := by
  obtain ⟨hhead, hnext⟩ := h
  rcases hr : r.anomalies with _ | ⟨first, more⟩
  · -- Until now both have expected the same.
    have hq : q.anomalies = [] := by
      rw [hr] at hhead
      exact List.head?_eq_none_iff.mp hhead.symm
    have he : q.nextExpected = r.nextExpected := (hnext hr).symm
    by_cases hf : found = r.nextExpected
    · constructor
      · simp [Report.addRow, anomaly?, hr, hq, he, hf]
      · intro _
        simp only [Report.addRow, he, hf]
        exact p.next_self p' r.nextExpected
    · constructor
      · simp [Report.addRow, anomaly?, hr, hq, he, hf]
      · simp [Report.addRow, anomaly?, hr, hf]
  · obtain ⟨more', hq⟩ : ∃ more', q.anomalies = first :: more' := by
      rw [hr] at hhead
      exact List.head?_eq_some_iff.mp hhead.symm
    constructor
    · simp [Report.addRow, hr, hq]
    · simp [Report.addRow, hr]

end Report

/-- The runs have stored and counted the same, and if they are said to start alike the first anomaly
of both is the same. -/
structure Run.InStep (alike : Prop) (run other : Run) : Prop where
  buffer : other.buffer = run.buffer
  rowsWritten : other.report.rowsWritten = run.report.rowsWritten
  emptyRecords : other.report.emptyRecords = run.report.emptyRecords
  parts : alike → run.report.PartsBehindAnomaly other.report

namespace Decoder

variable {alike : Prop} {run other : Run}

/-! ## One record -/

theorem examine_eq_of_identCapacity (h : s.identCapacity = t.identCapacity) (index : Nat) :
    examine s format source index = examine t format source index := by
  simp only [examine, examineRecord, h]

theorem storeRow_inStep (hr : run.InStep alike other) (index : Nat) (row : StagedRow) :
    (storeRow t index row other).2 = (storeRow s index row run).2
      ∧ (storeRow s index row run).1.InStep alike (storeRow t index row other).1 := by
  unfold storeRow
  rw [hr.buffer, hr.rowsWritten]
  rcases run.buffer.commit? run.report.rowsWritten row.fields with _ | buffer
  · exact ⟨rfl, hr⟩
  · refine ⟨rfl, rfl, ?_, hr.emptyRecords, fun h => (hr.parts h).addRow _ _ index row.rowIndex⟩
    simp only [Report.addRow, hr.rowsWritten]

theorem step_inStep (format : FrameFormat) (source : Source)
    (h : s.identCapacity = t.identCapacity) (hr : run.InStep alike other) (index : Nat) :
    (step t format source index other).2 = (step s format source index run).2
      ∧ (step s format source index run).1.InStep alike (step t format source index other).1 := by
  rw [step_eq_examine, step_eq_examine, ← examine_eq_of_identCapacity h]
  rcases examine s format source index with stop | ⟨_, event, _ | row⟩
  · exact ⟨rfl, hr.buffer, hr.rowsWritten, hr.emptyRecords, hr.parts⟩
  · refine ⟨rfl, hr.buffer, hr.rowsWritten, ?_, fun h => ⟨(hr.parts h).head, (hr.parts h).next⟩⟩
    simp only [Report.addEmpty, hr.emptyRecords]
  · have hopened : (run.emit [event]).InStep alike (other.emit [event]) :=
      ⟨hr.buffer, hr.rowsWritten, hr.emptyRecords, hr.parts⟩
    exact storeRow_inStep hopened index row

/-! ## All records -/

theorem walk_inStep (format : FrameFormat) (source : Source)
    (h : s.identCapacity = t.identCapacity) (indices : List Nat) (hr : run.InStep alike other) :
    (walk t format source indices other).2 = (walk s format source indices run).2
      ∧ (walk s format source indices run).1.InStep alike
          (walk t format source indices other).1 := by
  induction indices generalizing run other with
  | nil => exact ⟨rfl, hr⟩
  | cons index indices ih =>
    obtain ⟨hstop, hstep⟩ := step_inStep format source h hr index
    unfold walk
    rcases hs : step s format source index run with ⟨next, _ | failure⟩
    · rcases ht : step t format source index other with ⟨next', _ | failure'⟩
      · rw [hs, ht] at hstep
        exact ih hstep
      · rw [hs, ht] at hstop
        cases hstop
    · rcases ht : step t format source index other with ⟨next', _ | failure'⟩
      · rw [hs, ht] at hstop
        cases hstop
      · rw [hs, ht] at hstop hstep
        exact ⟨hstop, hstep⟩

theorem checkBuffer_eq_of_identCapacity (h : s.identCapacity = t.identCapacity)
    (indices : List Nat) (buffer : Buffer) :
    checkBuffer s format indices buffer = checkBuffer t format indices buffer := by
  simp only [checkBuffer, h]

/-- The settings may differ in all but the room for identifiers. The buffer may be one that is
refused. -/
theorem decode_expecting {s t : Settings} (h : s.identCapacity = t.identCapacity)
    (format : FrameFormat) (source : Source) (indices : List Nat) (buffer : Buffer) :
    (decode s format source indices buffer).buffer = (decode t format source indices buffer).buffer
      ∧ ((∃ failure, (decode s format source indices buffer).result = .error failure
            ∧ (decode t format source indices buffer).result = .error failure)
        ∨ ∃ r q, (decode s format source indices buffer).result = .ok r
            ∧ (decode t format source indices buffer).result = .ok q
            ∧ r.rowsWritten = q.rowsWritten ∧ r.emptyRecords = q.emptyRecords
            ∧ (s.firstRowIndex = t.firstRowIndex →
              (r.anomalies = [] ↔ q.anomalies = [])
                ∧ r.anomalies.head? = q.anomalies.head?
                ∧ (r.anomalies = [] → r.nextExpected = q.nextExpected))) := by
  rw [decode, decode, ← checkBuffer_eq_of_identCapacity h]
  rcases checkBuffer s format indices buffer with _ | fault
  · have hstart : Run.InStep (s.firstRowIndex = t.firstRowIndex)
        ⟨buffer, .start s, []⟩ ⟨buffer, .start t, []⟩ :=
      ⟨rfl, rfl, rfl, Report.partsBehindAnomaly_start⟩
    obtain ⟨hstop, hrun⟩ := walk_inStep format source h indices hstart
    rcases hs : walk s format source indices ⟨buffer, .start s, []⟩ with ⟨run, stop⟩
    rcases ht : walk t format source indices ⟨buffer, .start t, []⟩ with ⟨other, stop'⟩
    rw [hs, ht] at hstop hrun
    obtain rfl : stop' = stop := hstop
    rcases stop' with _ | failure
    · refine ⟨hrun.buffer.symm, .inr ⟨_, _, rfl, rfl, hrun.rowsWritten.symm,
        hrun.emptyRecords.symm, fun hfirst => ?_⟩⟩
      obtain ⟨hhead, hnext⟩ := hrun.parts hfirst
      refine ⟨?_, hhead, hnext⟩
      rw [← List.head?_eq_none_iff, hhead, List.head?_eq_none_iff]
    · exact ⟨hrun.buffer.symm, .inl ⟨failure, rfl, rfl⟩⟩
  · exact ⟨rfl, .inl ⟨fault.alone, rfl, rfl⟩⟩

/-- Behind the row with index 7 the one call expects 8, and the other still counts from 1. -/
theorem decode_expecting_gap :
    ∃ r q,
      (decode ⟨255, .reset, 1, true⟩ (.single .uvari)
          (Store.ofList [.frameData [1, 0, 1, 70, 1, 9], .frameData [1, 0, 1, 70],
            .frameData [1, 0, 1, 70, 7, 9], .frameData [1, 0, 1, 70, 8, 9]]) [0, 1, 2, 3]
          (bufferFor .standard (.single .uvari) 4)).result = .ok r
        ∧ (decode ⟨255, .keepExpecting, 1, false⟩ (.single .uvari)
          (Store.ofList [.frameData [1, 0, 1, 70, 1, 9], .frameData [1, 0, 1, 70],
            .frameData [1, 0, 1, 70, 7, 9], .frameData [1, 0, 1, 70, 8, 9]]) [0, 1, 2, 3]
          (bufferFor .standard (.single .uvari) 4)).result = .ok q
        ∧ r.anomalies.head? = some ⟨2, 2, 7⟩ ∧ q.anomalies.head? = some ⟨2, 2, 7⟩
        ∧ r.anomalies ≠ q.anomalies := by
  have hs : (⟨255, .reset, 1, true⟩ : Settings).identCapacity
      = (⟨255, .keepExpecting, 1, false⟩ : Settings).identCapacity := rfl
  rcases (decode_expecting hs (.single .uvari)
      (Store.ofList [.frameData [1, 0, 1, 70, 1, 9], .frameData [1, 0, 1, 70],
        .frameData [1, 0, 1, 70, 7, 9], .frameData [1, 0, 1, 70, 8, 9]]) [0, 1, 2, 3]
      (bufferFor .standard (.single .uvari) 4)).2 with ⟨_, herror, -⟩ | ⟨r, q, hr, hq, -, -, hsame⟩
  · cases herror
  · obtain ⟨-, hhead, -⟩ := hsame rfl
    obtain rfl : _ = r := Except.ok.inj hr
    obtain rfl : _ = q := Except.ok.inj hq
    exact ⟨_, _, hr, hq, rfl, hhead.symm, by decide⟩

end Decoder

end WellLog
