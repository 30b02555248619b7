import WellLog.Proofs.Holding

/-!
# What the log tells

A call tells of its records one after another, up to the one that it fails in: of a record whose
name has been read that it was opened, and of one with a row that the row was stored, behind a
warning if the row index is not the expected one (`Tells`, `TellsAll`). At the end it tells what it
reports, if it has come there.

So the log of a call counts the rows in the buffer, also if the call fails, and has the anomalies of
the report (`Decoder.tellsAll_decode`).
-/

namespace WellLog

variable {s : Settings} {format : FrameFormat} {source : Source}

def Settings.warnings (s : Settings) (index : Nat) (expected found : UInt32) : List Event :=
  if s.logAnomalies ∧ found ≠ expected then [.outOfSequence ⟨index, expected, found⟩] else []

/-- The row index that is expected behind a record. -/
def Settings.expectedBehind (s : Settings) (expected : UInt32) (row? : Option (FrameRow format)) :
    UInt32 :=
  row?.elim expected fun row => s.sequencePolicy.next expected row.staged.rowIndex

/-- The events that tell of a record for which a row index is expected, and the row of it that is
stored. -/
inductive Tells (s : Settings) (format : FrameFormat) (source : Source) (index : Nat)
    (expected : UInt32) : List Event → Option (FrameRow format) → Prop where
  | missing {missing : NoRecord} (h : source.record? index = .error missing) :
      Tells s format source index expected [] none
  | encrypted {record : Record} (h : source.record? index = .ok record)
      (hp : record.flags.encrypted = true) : Tells s format source index expected [] none
  | nameless {record : Record} (h : source.record? index = .ok record)
      (hp : record.flags.encrypted = false)
      (hn : ∀ name : WrittenName, ¬name.bytes <+: record.bytes) :
      Tells s format source index expected [] none
  | rowless {record : Record} {name : WrittenName} {rest : List UInt8}
      (h : source.record? index = .ok record) (hp : record.flags.encrypted = false)
      (hb : record.bytes = name.bytes ++ rest)
      (hrow : ∀ row : FrameRow format, row.Fits s.identCapacity → row.bytes ≠ rest) :
      Tells s format source index expected
        [.recordOpened index name.head.1 name.head.2 record.bytes.length record.flags.consistent]
        none
  | row {record : Record} {name : WrittenName} {row : FrameRow format}
      (h : source.record? index = .ok record) (hp : record.flags.encrypted = false)
      (hb : record.bytes = name.bytes ++ row.bytes) (hf : row.Fits s.identCapacity) :
      Tells s format source index expected
        ([.recordOpened index name.head.1 name.head.2 record.bytes.length record.flags.consistent]
          ++ s.warnings index expected row.staged.rowIndex
          ++ [.rowCommitted index row.staged.rowIndex])
        (some row)

/-- The events that tell of the records of some indices, the row index that is expected for the
first of them, and the rows of them that are stored. -/
inductive TellsAll (s : Settings) (format : FrameFormat) (source : Source) :
    UInt32 → List Nat → List Event → List (FrameRow format) → Prop where
  | nil {expected : UInt32} : TellsAll s format source expected [] [] []
  | cons {expected : UInt32} {index : Nat} {indices : List Nat} {events log : List Event}
      {row? : Option (FrameRow format)} {rows : List (FrameRow format)}
      (h : Tells s format source index expected events row?)
      (hs : TellsAll s format source (s.expectedBehind expected row?) indices log rows) :
      TellsAll s format source expected (index :: indices) (events ++ log) (row?.toList ++ rows)

/-! ## One record -/

theorem Run.rowEvents_eq (r : Report) (index : Nat) (found : UInt32) :
    rowEvents s r index found
      = s.warnings index r.nextExpected found ++ [.rowCommitted index found] := by
  rw [rowEvents, Report.anomaly?, Settings.warnings]
  by_cases hf : found = r.nextExpected <;> cases hs : s.logAnomalies <;> simp [hf]

namespace Decoder

variable {index : Nat}

theorem tells_of_examine_error {stop : Stop} (expected : UInt32)
    (h : examine s format source index = .error stop) :
    Tells s format source index expected stop.events none := by
  unfold examine at h
  rcases hr : source.record? index with missing | record
  · rw [hr] at h
    cases h
    exact .missing hr
  simp only [hr, examineRecord] at h
  split_ifs at h with hp
  · cases h
    exact .encrypted hr hp
  have hp : record.flags.encrypted = false := Bool.eq_false_iff.mpr hp
  rcases hn : Frame.readName (.ofBytes record.bytes) with e | ⟨head, c⟩
  · simp only [hn] at h
    cases h
    refine .nameless hr hp ?_
    rintro name ⟨rest, hrest⟩
    have hpass : (Cursor.ofBytes record.bytes).Passes name.bytes ⟨_, rest⟩ := ⟨hrest.symm, rfl⟩
    cases hn.symm.trans (Frame.readName_eq_ok_iff.mpr ⟨name, rfl, hpass⟩)
  · obtain ⟨name, rfl, hpass⟩ := Frame.readName_eq_ok_iff.mp hn
    rcases hb : Frame.readBody s.identCapacity format c with e | row?
    · simp only [hn, hb] at h
      cases h
      refine .rowless hr hp hpass.rest fun row hf hrest => ?_
      have hok := Frame.readBody_eq_ok_iff.mpr ⟨some row, by simpa using hf, rfl, hrest.symm⟩
      cases hb.symm.trans hok
    · simp only [hn, hb] at h
      cases h

/-- Entering a record tells of it, and makes the next row index the expected one. -/
theorem tells_of_examine_ok {entry : Entry} (run : Run)
    (h : examine s format source index = .ok entry) :
    ∃ events row?, Tells s format source index run.report.nextExpected events row?
      ∧ entry.row? = row?.map FrameRow.staged
      ∧ (run.enter s entry).log = run.log ++ events
      ∧ (run.enter s entry).report.nextExpected
        = s.expectedBehind run.report.nextExpected row? := by
  obtain ⟨record, ⟨name, row?⟩, hr, hp, hb, hf, rfl⟩ := examine_eq_ok_iff.mp h
  rcases row? with _ | row
  · exact ⟨_, none, .rowless hr hp hb.symm fun row _ => row.bytes_ne_nil, rfl, rfl, rfl⟩
  · refine ⟨_, some row, .row hr hp hb.symm (hf row rfl), rfl, ?_, rfl⟩
    simp only [Run.enter, FrameContent.staged?, Option.map_some, Run.rowEvents_eq,
      List.append_assoc]
    rfl

/-! ## All records -/

/-- The last record that is told of is the one that a scan stops at. -/
theorem tellsAll_scan (s : Settings) (format : FrameFormat) (source : Source) (indices : List Nat)
    (run : Run) :
    ∃ processed rest told rows, indices = processed ++ rest
      ∧ TellsAll s format source run.report.nextExpected processed told rows
      ∧ stagedRows (scan s format source indices).1 = rows.map FrameRow.staged
      ∧ (run.enterAll s (scan s format source indices).1).log
          ++ (scan s format source indices).2.elim [] Stop.events = run.log ++ told
      ∧ match (scan s format source indices).2 with
        | none => rest = []
        | some stop => ∃ index, processed.getLast? = some index
            ∧ stop.failure.record = some index := by
  -- The run is general, as the records behind the first are told of from the row index that is
  -- expected behind that one.
  induction indices generalizing run with
  | nil => exact ⟨[], [], [], [], rfl, .nil, rfl, rfl, rfl⟩
  | cons index indices ih =>
    unfold scan
    rcases he : examine s format source index with stop | entry
    · refine ⟨[index], indices, _, [], rfl,
        .cons (tells_of_examine_error run.report.nextExpected he) .nil, rfl, ?_, index, rfl,
        record_of_examine he⟩
      rw [List.append_nil]
      rfl
    · obtain ⟨events, row?, ht, hrow, hlog, hnext⟩ := tells_of_examine_ok run he
      obtain ⟨processed, rest, told, rows, hsplit, hs, hrows, htold, hstop⟩ :=
        ih (run.enter s entry)
      rw [hnext] at hs
      refine ⟨index :: processed, rest, events ++ told, row?.toList ++ rows, ?_, .cons ht hs, ?_,
        ?_, ?_⟩
      · rw [hsplit]
        rfl
      · rw [stagedRows_cons, hrows, hrow]
        cases row? <;> rfl
      · refine htold.trans ?_
        rw [hlog, List.append_assoc]
      · rcases hsecond : (scan s format source indices).2 with _ | stop
        · rw [hsecond] at hstop
          exact hstop
        · rw [hsecond] at hstop
          obtain ⟨last, hlast, hrecord⟩ := hstop
          refine ⟨last, ?_, hrecord⟩
          rw [List.getLast?_cons, hlast]
          rfl

end Decoder

/-! ## Counting the events -/

namespace Run

/-- What a run has told is what its report counts, and that it has ended is still to be told. -/
structure Accounts (s : Settings) (run : Run) : Prop where
  rows : run.log.countP (fun event => event.level = "TRACE") = run.report.rowsWritten
  anomalies : run.log.filter (fun event => event.level = "WARN")
    = if s.logAnomalies then run.report.anomalies.map .outOfSequence else []
  unfinished : ∀ event ∈ run.log, event.message ≠ "frame data decoded"

section RowEvents

variable (s : Settings) (r : Report) (record : Nat) (found : UInt32)

theorem countP_rowEvents :
    (rowEvents s r record found).countP (fun event => event.level = "TRACE") = 1 := by
  unfold rowEvents
  split_ifs <;> cases r.anomaly? record found <;> simp [Event.level]

theorem filter_rowEvents :
    (rowEvents s r record found).filter (fun event => event.level = "WARN")
      = if s.logAnomalies then (r.anomaly? record found).toList.map .outOfSequence else [] := by
  unfold rowEvents
  split_ifs <;> cases r.anomaly? record found <;> simp [Event.level]

theorem message_rowEvents :
    ∀ event ∈ rowEvents s r record found, event.message ≠ "frame data decoded" := by
  unfold rowEvents
  split_ifs <;> cases r.anomaly? record found <;> simp [Event.message]

end RowEvents

namespace Accounts

variable {run : Run}

theorem start (s : Settings) (buffer : Buffer) : Accounts s ⟨buffer, .start s, []⟩ := by
  refine ⟨rfl, ?_, List.forall_mem_nil _⟩
  split_ifs <;> rfl

/-- That a record was opened is not counted. -/
theorem emit (h : run.Accounts s) (record : Nat) (origin : Int32) (copy : UInt8) (length : Nat)
    (consistent : Bool) :
    (run.emit [.recordOpened record origin copy length consistent]).Accounts s := by
  refine ⟨?_, ?_, ?_⟩
  · rw [Run.emit, List.countP_append, h.rows]
    rfl
  · rw [Run.emit, List.filter_append, h.anomalies]
    exact List.append_nil _
  · rw [Run.emit, List.forall_mem_append]
    exact ⟨h.unfinished, by simp [Event.message]⟩

theorem addRow (h : run.Accounts s) (buffer : Buffer) (record : Nat) (found : UInt32) :
    Accounts s ⟨buffer, run.report.addRow s.sequencePolicy record found,
      run.log ++ rowEvents s run.report record found⟩ := by
  refine ⟨?_, ?_, ?_⟩
  · rw [List.countP_append, h.rows, countP_rowEvents]
    rfl
  · rw [List.filter_append, h.anomalies, filter_rowEvents, Report.addRow]
    split_ifs
    · rw [List.map_append]
    · rfl
  · exact List.forall_mem_append.mpr ⟨h.unfinished, message_rowEvents s run.report record found⟩

theorem enter {format : FrameFormat} {source : Source} {index : Nat} {entry : Entry}
    (h : run.Accounts s) (he : Decoder.examine s format source index = .ok entry) :
    (run.enter s entry).Accounts s := by
  obtain ⟨record, ⟨name, row?⟩, -, -, -, -, rfl⟩ := Decoder.examine_eq_ok_iff.mp he
  have hopened := h.emit index name.head.1 name.head.2 record.bytes.length record.flags.consistent
  rcases row? with _ | row
  · exact ⟨hopened.rows, hopened.anomalies, hopened.unfinished⟩
  · exact hopened.addRow _ index row.staged.rowIndex

/-- What is told of a record of which no row is stored is not counted. -/
theorem emit_tells {format : FrameFormat} {source : Source} {index : Nat} {expected : UInt32}
    {events : List Event} (h : run.Accounts s)
    (ht : Tells s format source index expected events none) : (run.emit events).Accounts s := by
  cases ht with
  | missing | encrypted | nameless => rwa [Run.emit_nil]
  | rowless => exact h.emit ..

end Accounts

end Run

namespace Decoder

variable {indices : List Nat} {run : Run}

theorem accounts_enterAll (h : run.Accounts s) :
    (run.enterAll s (scan s format source indices).1).Accounts s := by
  induction indices generalizing run with
  | nil => exact h
  | cons index indices ih =>
    unfold scan
    rcases he : examine s format source index with stop | entry
    · exact h
    · exact ih (h.enter he)

theorem accounts_scan (format : FrameFormat) (source : Source) (indices : List Nat)
    (h : run.Accounts s) :
    ((run.enterAll s (scan s format source indices).1).emit
      ((scan s format source indices).2.elim [] Stop.events)).Accounts s := by
  have hentered : (run.enterAll s (scan s format source indices).1).Accounts s :=
    accounts_enterAll h
  rcases hs : (scan s format source indices).2 with _ | stop
  · exact (Run.emit_nil _).symm ▸ hentered
  · obtain ⟨_, index, _, -, -, he⟩ := scan_eq_some_iff.mp (Prod.ext rfl hs)
    exact hentered.emit_tells (tells_of_examine_error 0 he)

/-! ## Calls -/

section Calls

variable {buffer : Buffer} (hl : buffer.IsLaidOut)
  (hc : checkBuffer s format indices buffer = none)
include hl hc

/-- The rows that a call tells of are those that its scan has found. -/
theorem countP_log_decode :
    (decode s format source indices buffer).log.countP (fun event => event.level = "TRACE")
      = (stagedRows (scan s format source indices).1).length := by
  have hcount := (accounts_scan format source indices (Run.Accounts.start s buffer)).rows
  have hrows : (Run.enterAll s ⟨buffer, .start s, []⟩
      (scan s format source indices).1).report.rowsWritten
    = (stagedRows (scan s format source indices).1).length :=
    Run.rowsWritten_enterAll.trans (Nat.zero_add _)
  refine Eq.trans ?_ (hcount.trans hrows)
  rw [decode_eq_outcome hl hc]
  rcases (scan s format source indices).2 with _ | stop
  · simp only [Run.outcome, Run.emit, List.countP_append]
    rfl
  · rfl

theorem filter_log_decode {report : Report}
    (hok : (decode s format source indices buffer).result = .ok report) :
    (decode s format source indices buffer).log.filter (fun event => event.level = "WARN")
      = if s.logAnomalies then report.anomalies.map .outOfSequence else [] := by
  obtain ⟨-, entries, hs, rfl⟩ := scan_of_decode_eq_ok hl hok
  have hwarn := (accounts_scan format source indices (Run.Accounts.start s buffer)).anomalies
  rw [decode_eq_outcome hl hc]
  rw [hs, Option.elim_none, Run.emit_nil] at hwarn
  rw [hs, Run.outcome, List.filter_append, hwarn]
  exact List.append_nil _

end Calls

end Decoder

end WellLog
