import Mathlib.Data.List.Induction
import WellLog.Proofs.Holding

/-!
# Reports are tallies

A report counts the records of a call one after another, and of each it takes only the index and the
row index, if there is one (`Report.tally`, `Decoder.result_of_holdsAll`). What is counted later is
counted on top of what has been, from the row index that was expected then (`Report.append_tally`).
-/

namespace WellLog

namespace Report

/-- Counts a record, which has a row index or is empty. -/
def addRecord (r : Report) (policy : SequencePolicy) (record : Nat × Option UInt32) : Report :=
  match record.2 with
  | none => r.addEmpty
  | some found => r.addRow policy record.1 found

def tally (policy : SequencePolicy) (r : Report) (records : List (Nat × Option UInt32)) : Report :=
  records.foldl (fun r record => r.addRecord policy record) r

/-- What two calls report, the second of which went on where the first had ended. -/
instance : Append Report where
  append r more :=
    ⟨r.rowsWritten + more.rowsWritten, r.emptyRecords + more.emptyRecords, more.nextExpected,
      r.anomalies ++ more.anomalies⟩

variable (policy : SequencePolicy) (r more : Report)

theorem append_addRecord (record : Nat × Option UInt32) :
    r ++ more.addRecord policy record = (r ++ more).addRecord policy record := by
  obtain ⟨index, _ | found⟩ := record
  · rfl
  · exact congrArg (Report.mk _ _ _) (List.append_assoc r.anomalies more.anomalies _).symm

theorem append_tally (records : List (Nat × Option UInt32)) :
    r ++ more.tally policy records = (r ++ more).tally policy records := by
  induction records generalizing more with
  | nil => rfl
  | cons record records ih =>
    simp only [tally, List.foldl_cons] at ih ⊢
    rw [ih, append_addRecord]

theorem tally_append (records others : List (Nat × Option UInt32)) :
    r.tally policy (records ++ others) = (r.tally policy records).tally policy others :=
  List.foldl_append

end Report

/-! ## Entries and contents -/

def Entry.numbered (entry : Entry) : Nat × Option UInt32 :=
  (entry.index, entry.row?.map StagedRow.rowIndex)

def FrameContent.numbered {format : FrameFormat} (index : Nat) (content : FrameContent format) :
    Nat × Option UInt32 :=
  (index, content.staged?.map StagedRow.rowIndex)

theorem Run.report_enterAll {s : Settings} {run : Run} (entries : List Entry) :
    (run.enterAll s entries).report
      = run.report.tally s.sequencePolicy (entries.map Entry.numbered) := by
  induction entries generalizing run with
  | nil => rfl
  | cons entry entries ih =>
    refine ih.trans ?_
    obtain ⟨index, opened, _ | row⟩ := entry <;> rfl

namespace Decoder

variable {s : Settings} {format : FrameFormat} {source : Source} {indices : List Nat}
  {buffer : Buffer} {contents : List (FrameContent format)}

theorem result_of_scan_eq_none {entries : List Entry} (hl : buffer.IsLaidOut)
    (hc : checkBuffer s format indices buffer = none)
    (hs : scan s format source indices = (entries, none)) :
    (decode s format source indices buffer).result
      = .ok ((Report.start s).tally s.sequencePolicy (entries.map Entry.numbered)) := by
  rw [decode_eq_outcome hl hc, hs]
  simp only [Run.outcome, Run.report_enterAll]

/-- The records that a scan gets past are numbered as their contents are. -/
theorem numbered_of_scan {entries : List Entry}
    (h : source.HoldsAll s.identCapacity indices contents)
    (hs : scan s format source indices = (entries, none)) :
    entries.map Entry.numbered = List.zipWith FrameContent.numbered indices contents := by
  rw [scan_eq_none_iff] at hs
  induction h generalizing entries with
  | nil =>
    cases hs
    rfl
  | @cons index content indices contents hc _ ih =>
    obtain ⟨entry, entries, he, hes, rfl⟩ := List.forall₂_cons_left_iff.mp hs
    obtain ⟨record, content', hr, hp, hb, -, rfl⟩ := examine_eq_ok_iff.mp he
    obtain rfl : content' = content :=
      FrameContent.eq_of_bytes_eq (Source.Holds.bytes_unique ⟨record, hr, hp, hb.symm⟩ hc.1)
    rw [List.map_cons, List.zipWith_cons_cons, ih hes]
    rfl

/-- A call on records that hold contents reports the tally of their row indices. -/
theorem result_of_holdsAll (hl : buffer.IsLaidOut)
    (hc : checkBuffer s format indices buffer = none)
    (h : source.HoldsAll s.identCapacity indices contents) :
    (decode s format source indices buffer).result
      = .ok ((Report.start s).tally s.sequencePolicy
          (List.zipWith FrameContent.numbered indices contents)) := by
  obtain ⟨entries, -, hs⟩ := exists_entries h
  rw [result_of_scan_eq_none hl hc hs, numbered_of_scan h hs]

end Decoder

end WellLog
