import WellLog.Buffer
import WellLog.Frame
import WellLog.Sequence

/-!
# Decoding records into rows

A decoder takes the records of a source one after another and writes the row of each into the next
row of a buffer. It stops at the first failure and keeps the rows before it. What it does is told by
a log of events, which goes as far as the decoder does.

A run depends on the buffer only through its layout and its number of rows; these are checked before
any record is looked at.
-/

namespace WellLog

inductive Event where
  /-- The name of a record's frame has been read. -/
  | recordOpened (record : Nat) (origin : Int32) (copy : UInt8) (length : Nat) (consistent : Bool)
  | outOfSequence (anomaly : Anomaly)
  | rowCommitted (record : Nat) (rowIndex : UInt32)
  | finished (records rows empty anomalies : Nat)
  deriving DecidableEq, Repr

namespace Event

def level : Event → String
  | recordOpened .. | finished .. => "DEBUG"
  | outOfSequence .. => "WARN"
  | rowCommitted .. => "TRACE"

def message : Event → String
  | recordOpened .. => "frame data record"
  | outOfSequence .. => "non-sequential frame row"
  | rowCommitted .. => "frame row committed"
  | finished .. => "frame data decoded"

end Event

structure Report where
  rowsWritten : Nat
  emptyRecords : Nat
  nextExpected : UInt32
  anomalies : List Anomaly
  deriving DecidableEq, Repr

structure Run where
  buffer : Buffer
  report : Report
  log : List Event

structure Outcome where
  result : Except Failure Report
  buffer : Buffer
  log : List Event

namespace Report

/-- Nothing has been decoded, and the first row index is still to come. -/
def start (s : Settings) : Report := ⟨0, 0, s.firstRowIndex, []⟩

def anomaly? (r : Report) (record : Nat) (found : UInt32) : Option Anomaly :=
  if found = r.nextExpected then none else some ⟨record, r.nextExpected, found⟩

def addRow (r : Report) (policy : SequencePolicy) (record : Nat) (found : UInt32) : Report :=
  { r with
    rowsWritten := r.rowsWritten + 1
    nextExpected := policy.next r.nextExpected found
    anomalies := r.anomalies ++ (r.anomaly? record found).toList }

def addEmpty (r : Report) : Report := { r with emptyRecords := r.emptyRecords + 1 }

end Report

namespace Run

def emit (run : Run) (events : List Event) : Run := { run with log := run.log ++ events }

def rowEvents (s : Settings) (r : Report) (record : Nat) (found : UInt32) : List Event :=
  (if s.logAnomalies then (r.anomaly? record found).toList.map .outOfSequence else []) ++
    [.rowCommitted record found]

end Run

namespace Decoder

variable (s : Settings) (format : FrameFormat) (source : Source)

def bufferFor (rows : Nat) : Buffer := .blank (.ofSpan format.fields s.identCapacity) rows

def storeRow (index : Nat) (row : StagedRow) (run : Run) : Run × Option Failure :=
  match run.buffer.commit? run.report.rowsWritten row.fields with
  | some buffer =>
    ({ buffer
       report := run.report.addRow s.sequencePolicy index row.rowIndex
       log := run.log ++ Run.rowEvents s run.report index row.rowIndex }, none)
  | none => (run, some (Fault.layoutMismatch.inRecord index))

/-- Decodes one record that could be fetched. -/
def decodeRecord (index : Nat) (record : Record) (run : Run) : Run × Option Failure :=
  if record.flags.encrypted then (run, some (Fault.encrypted.inRecord index))
  else
    match Frame.readName (.ofBytes record.bytes) with
    | .error e => (run, some ⟨e.fault, some index, some e.offset⟩)
    | .ok ((origin, copy), c) =>
      let run := run.emit
        [.recordOpened index origin copy record.bytes.length record.flags.consistent]
      match Frame.readBody s.identCapacity format c with
      | .error e => (run, some ⟨e.fault, some index, some e.offset⟩)
      | .ok none => ({ run with report := run.report.addEmpty }, none)
      | .ok (some row) => storeRow s index row run

def step (index : Nat) (run : Run) : Run × Option Failure :=
  match source.record? index with
  | .error missing => (run, some ((Fault.noRecord missing).inRecord index))
  | .ok record => decodeRecord s format index record run

/-- Decodes the records of the indices, up to the first failure. -/
def walk : List Nat → Run → Run × Option Failure
  | [], run => (run, none)
  | index :: indices, run =>
    match step s format source index run with
    | (run, none) => walk indices run
    | (run, some failure) => (run, some failure)

/-- Decoding in two parts is decoding at once, as long as the first part succeeds. -/
theorem walk_append (indices more : List Nat) (run : Run) :
    walk s format source (indices ++ more) run =
      match walk s format source indices run with
      | (run, none) => walk s format source more run
      | (run, some failure) => (run, some failure) := by
  induction indices generalizing run with
  | nil => rfl
  | cons index indices ih =>
    simp only [List.cons_append, walk]
    split <;> simp_all

/-- The buffer has a row for each record, laid out for the columns of the format. -/
def checkBuffer (indices : List Nat) (buffer : Buffer) : Option Fault :=
  if buffer.size ≠ indices.length then some (.rowCountMismatch buffer.size indices.length)
  else if buffer.layout ≠ .ofSpan format.fields s.identCapacity then some .layoutMismatch
  else none

def decode (indices : List Nat) (buffer : Buffer) : Outcome :=
  match checkBuffer s format indices buffer with
  | some fault => ⟨.error fault.alone, buffer, []⟩
  | none =>
    match walk s format source indices ⟨buffer, .start s, []⟩ with
    | (run, some failure) => ⟨.error failure, run.buffer, run.log⟩
    | (run, none) =>
      let r := run.report
      ⟨.ok r, run.buffer, run.log ++
        [.finished indices.length r.rowsWritten r.emptyRecords r.anomalies.length]⟩

/-- Decodes with the format as it is written; one that cannot be read is the first fault. -/
def decodeText (leading fields trailing : String) (indices : List Nat) (buffer : Buffer) :
    Outcome :=
  match FrameFormat.parse leading fields trailing with
  | .error fault => ⟨.error (Fault.format fault).alone, buffer, []⟩
  | .ok format => decode s format source indices buffer

end Decoder

end WellLog
