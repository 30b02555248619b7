import Mathlib.Data.List.Forall2
import WellLog.Decoder
import WellLog.Proofs.LaidOut
import WellLog.Proofs.Parsing
import WellLog.Proofs.Stored

/-!
# Decoding is scanning and entering

What a decoder finds in the records has nothing to do with the buffer: a scan goes through them up
to the first that cannot be decoded. A run enters what the scan found, one record after another
(`Decoder.walk_eq`), as no row that has been read can be refused by a buffer that is ready.

A scan gets past a record exactly if the record holds contents that fit
(`Decoder.examine_eq_ok_iff`).
-/

namespace WellLog

/-- A record that has been read: the event of its opening, and its row unless it is empty. -/
structure Entry where
  index : Nat
  opened : Event
  row? : Option StagedRow

/-- A record that cannot be decoded: the event of its opening if there was one, and the failure. -/
structure Stop where
  events : List Event
  failure : Failure

namespace Decoder

variable (s : Settings) (format : FrameFormat) (source : Source)

def opened (index : Nat) (record : Record) (head : Int32 × UInt8) : Event :=
  .recordOpened index head.1 head.2 record.bytes.length record.flags.consistent

def examineRecord (index : Nat) (record : Record) : Except Stop Entry :=
  if record.flags.encrypted then .error ⟨[], Fault.encrypted.inRecord index⟩
  else
    match Frame.readName (.ofBytes record.bytes) with
    | .error e => .error ⟨[], e.fault, some index, some e.offset⟩
    | .ok (head, c) =>
      match Frame.readBody s.identCapacity format c with
      | .error e => .error ⟨[opened index record head], e.fault, some index, some e.offset⟩
      | .ok row? => .ok ⟨index, opened index record head, row?⟩

def examine (index : Nat) : Except Stop Entry :=
  match source.record? index with
  | .error missing => .error ⟨[], (Fault.noRecord missing).inRecord index⟩
  | .ok record => examineRecord s format index record

/-- The records up to the first that cannot be decoded, and that one. -/
def scan : List Nat → List Entry × Option Stop
  | [] => ([], none)
  | index :: indices =>
    match examine s format source index with
    | .error stop => ([], some stop)
    | .ok entry => (entry :: (scan indices).1, (scan indices).2)

end Decoder

namespace Run

/-- The run behind a record that has been read. -/
def enter (s : Settings) (run : Run) (entry : Entry) : Run :=
  match entry.row? with
  | none => ⟨run.buffer, run.report.addEmpty, run.log ++ [entry.opened]⟩
  | some row =>
    ⟨run.buffer.replace run.report.rowsWritten (.ofFields run.buffer.layout.columns row.fields),
      run.report.addRow s.sequencePolicy entry.index row.rowIndex,
      run.log ++ [entry.opened] ++ rowEvents s run.report entry.index row.rowIndex⟩

def halt (run : Run) : Option Stop → Run × Option Failure
  | none => (run, none)
  | some stop => (run.emit stop.events, some stop.failure)

theorem emit_nil (run : Run) : run.emit [] = run := by
  simp [emit]

/-- The buffer is one for the format, and there is room for so many more rows. -/
structure Ready (s : Settings) (format : FrameFormat) (left : Nat) (run : Run) : Prop where
  laidOut : run.buffer.IsLaidOut
  layout : run.buffer.layout = .ofSpan format.fields s.identCapacity
  room : run.report.rowsWritten + left ≤ run.buffer.size

end Run

namespace Decoder

variable {s : Settings} {format : FrameFormat} {source : Source} {index : Nat} {run : Run}

theorem examine_eq_ok_iff {entry : Entry} :
    examine s format source index = .ok entry ↔
      ∃ (record : Record) (content : FrameContent format), source.record? index = .ok record
        ∧ record.flags.encrypted = false ∧ content.bytes = record.bytes
        ∧ content.Fits s.identCapacity
        ∧ entry = ⟨index, opened index record content.name.head, content.staged?⟩ := by
  unfold examine
  rcases hr : source.record? index with missing | record
  · exact ⟨fun h => (nomatch h), fun ⟨_, _, h, _⟩ => (nomatch h)⟩
  simp only [examineRecord, Except.ok.injEq, exists_and_left, exists_eq_left']
  constructor
  · intro h
    split_ifs at h with he
    rcases hn : Frame.readName (.ofBytes record.bytes) with e | ⟨head, c⟩
    · rw [hn] at h
      exact (nomatch h)
    rcases hb : Frame.readBody s.identCapacity format c with e | row?
    · simp only [hn, hb] at h
      exact (nomatch h)
    simp only [hn, hb, Except.ok.injEq] at h
    obtain ⟨name, rfl, hp⟩ := Frame.readName_eq_ok_iff.mp hn
    obtain ⟨row?, hf, rfl, hrest⟩ := Frame.readBody_eq_ok_iff.mp hb
    refine ⟨Bool.eq_false_iff.mpr he, ⟨name, row?⟩, ?_, hf, h.symm⟩
    rw [FrameContent.bytes, ← hrest]
    exact hp.rest.symm
  · rintro ⟨he, ⟨name, row?⟩, hb, hf, rfl⟩
    have hp : (Cursor.ofBytes record.bytes).Passes name.bytes
        ⟨0 + name.bytes.length, row?.elim [] FrameRow.bytes⟩ := ⟨hb.symm, rfl⟩
    have hbody : Frame.readBody s.identCapacity format
        ⟨0 + name.bytes.length, row?.elim [] FrameRow.bytes⟩ = .ok (row?.map FrameRow.staged) :=
      Frame.readBody_eq_ok_iff.mpr ⟨row?, hf, rfl, rfl⟩
    rw [if_neg (Bool.eq_false_iff.mp he), Frame.readName_eq_ok_iff.mpr ⟨name, rfl, hp⟩]
    simp only [hbody]
    rfl

theorem index_of_examine {entry : Entry} (h : examine s format source index = .ok entry) :
    entry.index = index := by
  obtain ⟨_, _, _, _, _, _, rfl⟩ := examine_eq_ok_iff.mp h
  rfl

theorem accepts_of_examine {entry : Entry} {row : StagedRow}
    (h : examine s format source index = .ok entry) (hr : entry.row? = some row) :
    (Layout.ofSpan format.fields s.identCapacity).accepts row.fields = true := by
  obtain ⟨record, content, -, -, -, hf, rfl⟩ := examine_eq_ok_iff.mp h
  obtain ⟨frameRow, hrow, rfl⟩ := Option.map_eq_some_iff.mp hr
  rw [← frameRow.fields_codes]
  exact Datum.accepts_ofSpan (hf frameRow hrow)

/-- A record is examined, whatever the run, and only its row is left to the run. -/
theorem step_eq_examine : step s format source index run =
    match examine s format source index with
    | .error stop => run.halt (some stop)
    | .ok ⟨_, event, none⟩ => (⟨run.buffer, run.report.addEmpty, run.log ++ [event]⟩, none)
    | .ok ⟨_, event, some row⟩ => storeRow s index row (run.emit [event]) := by
  unfold step examine
  rcases source.record? index with missing | record
  · simp only [Run.halt, Run.emit_nil]
  simp only [decodeRecord, examineRecord]
  by_cases he : record.flags.encrypted
  · simp only [if_pos he, Run.halt, Run.emit_nil]
  simp only [if_neg he]
  rcases Frame.readName (.ofBytes record.bytes) with e | ⟨head, c⟩
  · simp only [Run.halt, Run.emit_nil]
  simp only
  rcases Frame.readBody s.identCapacity format c with e | _ | row <;> rfl

theorem step_eq {left : Nat} (h : run.Ready s format (left + 1)) :
    step s format source index run =
      match examine s format source index with
      | .error stop => run.halt (some stop)
      | .ok entry => (run.enter s entry, none) := by
  rw [step_eq_examine]
  rcases he : examine s format source index with stop | ⟨index', event, _ | row⟩
  · rfl
  · rfl
  · have hr : run.report.rowsWritten < run.buffer.size := by
      have := h.room
      omega
    have ha : run.buffer.layout.accepts row.fields = true := by
      rw [h.layout]
      exact accepts_of_examine he rfl
    obtain rfl : index' = index := index_of_examine he
    simp only [storeRow, Run.emit, h.laidOut.commit?_eq hr ha]
    rfl

theorem ready_enter {left : Nat} {entry : Entry} (h : run.Ready s format (left + 1))
    (he : examine s format source index = .ok entry) : (run.enter s entry).Ready s format left := by
  obtain ⟨index', event, _ | row⟩ := entry
  · exact ⟨h.laidOut, h.layout, Nat.le_trans (Nat.add_le_add_left (Nat.le_succ left) _) h.room⟩
  · refine ⟨h.laidOut.replace ?_, h.layout, ?_⟩
    · rw [h.layout]
      exact accepts_of_examine he rfl
    · have hroom : run.report.rowsWritten + (left + 1) ≤ run.buffer.size := h.room
      show run.report.rowsWritten + 1 + left ≤ run.buffer.size
      omega

/-- A run goes as far as a scan, and enters what the scan found. -/
theorem walk_eq {indices : List Nat} (h : run.Ready s format indices.length) :
    walk s format source indices run
      = ((scan s format source indices).1.foldl (Run.enter s) run).halt
          (scan s format source indices).2 := by
  induction indices generalizing run with
  | nil => rfl
  | cons index indices ih =>
    unfold walk scan
    rw [step_eq h]
    rcases he : examine s format source index with stop | entry
    · rfl
    · exact ih (ready_enter h he)

end Decoder

end WellLog
