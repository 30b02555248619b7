import WellLog.Proofs.Scanning

/-!
# What decoding leaves behind

A call whose buffer has been checked ends as its scan does, and its buffer is the one it was given
with the rows of the scan in front (`Decoder.decode_eq_outcome`, `Decoder.buffer_decode`). A scan
either gets past all records or stops at one, and says which (`Decoder.scan_eq_none_iff`,
`Decoder.scan_eq_some_iff`).

Whatever a call does to a buffer, the buffer can be used for another (`Decoder.isLaidOut_decode`).
-/

namespace WellLog

/-- The rows of the records that hold one. -/
def stagedRows (entries : List Entry) : List StagedRow := entries.filterMap Entry.row?

theorem stagedRows_cons (entry : Entry) (entries : List Entry) :
    stagedRows (entry :: entries) = entry.row?.toList ++ stagedRows entries := by
  rw [stagedRows, List.filterMap_cons]
  cases entry.row? <;> rfl

def Layout.fill (layout : Layout) (row : StagedRow) : Row := .ofFields layout.columns row.fields

namespace Run

variable (s : Settings)

def enterAll (run : Run) (entries : List Entry) : Run := entries.foldl (enter s) run

/-- How a call ends that has been through so many records. -/
def outcome (run : Run) (records : Nat) : Option Stop → Outcome
  | none =>
    ⟨.ok run.report, run.buffer, run.log ++ [.finished records run.report.rowsWritten
      run.report.emptyRecords run.report.anomalies.length]⟩
  | some stop => ⟨.error stop.failure, run.buffer, run.log ++ stop.events⟩

variable {s} {run : Run}

theorem buffer_outcome {records : Nat} {stop : Option Stop} :
    (run.outcome records stop).buffer = run.buffer := by
  cases stop <;> rfl

theorem buffer_enterAll {entries : List Entry} :
    (run.enterAll s entries).buffer = run.buffer.replaceAll run.report.rowsWritten
      ((stagedRows entries).map run.buffer.layout.fill) := by
  induction entries generalizing run with
  | nil => rw [stagedRows, List.filterMap_nil, List.map_nil, Buffer.replaceAll_nil]; rfl
  | cons entry entries ih =>
    obtain ⟨index, event, _ | row⟩ := entry
    · exact ih
    · exact ih.trans (Buffer.replaceAll_cons _ _ _).symm

theorem rowsWritten_enterAll {entries : List Entry} :
    (run.enterAll s entries).report.rowsWritten
      = run.report.rowsWritten + (stagedRows entries).length := by
  induction entries generalizing run with
  | nil => rfl
  | cons entry entries ih =>
    obtain ⟨index, event, _ | row⟩ := entry
    · exact ih
    · refine ih.trans ?_
      show run.report.rowsWritten + 1 + (stagedRows entries).length
        = run.report.rowsWritten + ((stagedRows entries).length + 1)
      omega

theorem emptyRecords_enterAll {entries : List Entry} :
    (run.enterAll s entries).report.emptyRecords
      = run.report.emptyRecords + entries.countP (·.row?.isNone) := by
  induction entries generalizing run with
  | nil => rfl
  | cons entry entries ih =>
    refine ih.trans ?_
    obtain ⟨index, event, _ | row⟩ := entry
    · simp only [List.countP_cons, enter, Report.addEmpty, Option.isNone_none, if_true]
      omega
    · simp only [List.countP_cons, enter, Report.addRow, Option.isNone_some, Bool.false_eq_true,
        if_false, Nat.add_zero]

end Run

namespace Decoder

variable {s : Settings} {format : FrameFormat} {source source' : Source} {indices : List Nat}
  {buffer : Buffer} {entries : List Entry} {index : Nat} {stop : Stop}

/-! ## Scans -/

theorem scan_eq_none_iff : scan s format source indices = (entries, none) ↔
    List.Forall₂ (fun index entry => examine s format source index = .ok entry)
      indices entries := by
  induction indices generalizing entries with
  | nil => simp [scan, eq_comm]
  | cons index indices ih =>
    unfold scan
    rw [List.forall₂_cons_left_iff]
    rcases examine s format source index with stop | entry
    · simp
    · simp only [Prod.mk.injEq, Except.ok.injEq, exists_eq_left', exists_and_left]
      constructor
      · rintro ⟨rfl, h⟩
        exact ⟨_, ih.mp (Prod.ext rfl h), rfl⟩
      · rintro ⟨rest, h, rfl⟩
        simp [ih.mpr h]

/-- A scan that stops has got past all records before the one that it stops at. -/
theorem scan_eq_some_iff : scan s format source indices = (entries, some stop) ↔
    ∃ before index after, indices = before ++ index :: after
      ∧ scan s format source before = (entries, none)
      ∧ examine s format source index = .error stop := by
  induction indices generalizing entries with
  | nil => simp [scan]
  | cons first indices ih =>
    constructor
    · intro h
      unfold scan at h
      rcases he : examine s format source first with stop' | entry
      · simp only [he, Prod.mk.injEq, Option.some.injEq] at h
        obtain ⟨rfl, rfl⟩ := h
        exact ⟨[], first, indices, rfl, rfl, he⟩
      · simp only [he, Prod.mk.injEq] at h
        obtain ⟨rfl, hs⟩ := h
        obtain ⟨before, index, after, rfl, hb, hi⟩ := ih.mp (Prod.ext rfl hs)
        refine ⟨first :: before, index, after, rfl, ?_, hi⟩
        rw [scan, he]
        simp [hb]
    · rintro ⟨before, index, after, h, hb, hi⟩
      rcases before with _ | ⟨head, before⟩
      · obtain ⟨rfl, rfl⟩ := List.cons_eq_cons.mp h
        cases hb
        simp [scan, hi]
      · rw [List.cons_append, List.cons.injEq] at h
        obtain ⟨rfl, rfl⟩ := h
        unfold scan at hb ⊢
        rcases he : examine s format source first with stop' | entry
        · simp [he] at hb
        · simp only [he, Prod.mk.injEq] at hb ⊢
          obtain ⟨rfl, hs⟩ := hb
          have hr := ih.mpr ⟨before, index, after, rfl, Prod.ext rfl hs, hi⟩
          simp [hr]

theorem examine_congr (h : source'.record? index = source.record? index) :
    examine s format source' index = examine s format source index := by
  rw [examine, examine, h]

theorem scan_congr (h : ∀ index ∈ indices, source'.record? index = source.record? index) :
    scan s format source' indices = scan s format source indices := by
  induction indices with
  | nil => rfl
  | cons index indices ih =>
    obtain ⟨hi, his⟩ := List.forall_mem_cons.mp h
    rw [scan, scan, examine_congr hi, ih his]

/-- Past the record that it stops at, a scan does not look. -/
theorem scan_of_stop {before after : List Nat}
    (hb : scan s format source before = (entries, none))
    (hi : examine s format source index = .error stop)
    (h : ∀ i ∈ before ++ [index], source'.record? i = source.record? i) :
    scan s format source' (before ++ index :: after) = (entries, some stop) := by
  refine scan_eq_some_iff.mpr ⟨before, index, after, rfl, ?_, ?_⟩
  · rw [← hb]
    exact scan_congr fun i hm => h i (List.mem_append_left _ hm)
  · rw [← hi]
    exact examine_congr (h index (List.mem_append_right _ (List.mem_singleton.mpr rfl)))

/-- A record is missing, encrypted, or fails to be read. -/
theorem cases_of_examine (h : examine s format source index = .error stop) :
    (∃ missing, source.record? index = .error missing
        ∧ stop.failure = (Fault.noRecord missing).inRecord index)
      ∨ (∃ record, source.record? index = .ok record ∧ record.flags.encrypted = true
        ∧ stop.failure = Fault.encrypted.inRecord index)
      ∨ ∃ record e, source.record? index = .ok record ∧ record.flags.encrypted = false
        ∧ (Frame.readName (.ofBytes record.bytes) = .error e
          ∨ ∃ head c, Frame.readName (.ofBytes record.bytes) = .ok (head, c)
            ∧ Frame.readBody s.identCapacity format c = .error e)
        ∧ stop.failure = ⟨e.fault, some index, some e.offset⟩ := by
  unfold examine at h
  rcases hr : source.record? index with missing | record
  · rw [hr] at h
    cases h
    exact .inl ⟨missing, rfl, rfl⟩
  simp only [hr, examineRecord] at h
  split_ifs at h with hp
  · cases h
    exact .inr (.inl ⟨record, rfl, hp, rfl⟩)
  have hp : record.flags.encrypted = false := Bool.eq_false_iff.mpr hp
  rcases hn : Frame.readName (.ofBytes record.bytes) with e | ⟨head, c⟩
  · simp only [hn] at h
    cases h
    exact .inr (.inr ⟨record, e, rfl, hp, .inl hn, rfl⟩)
  rcases hb : Frame.readBody s.identCapacity format c with e | row?
  · simp only [hn, hb] at h
    cases h
    exact .inr (.inr ⟨record, e, rfl, hp, .inr ⟨head, c, hn, hb⟩, rfl⟩)
  · simp only [hn, hb] at h
    cases h

theorem record_of_examine (h : examine s format source index = .error stop) :
    stop.failure.record = some index := by
  rcases cases_of_examine h with ⟨_, _, hf⟩ | ⟨_, _, _, hf⟩ | ⟨_, _, _, _, _, hf⟩ <;> rw [hf] <;> rfl

/-! ## Calls -/

theorem checkBuffer_eq_none_iff : checkBuffer s format indices buffer = none ↔
    buffer.size = indices.length ∧ buffer.layout = .ofSpan format.fields s.identCapacity := by
  unfold checkBuffer
  split_ifs with hs hl
  · simp [hs]
  · simp [hl]
  · exact ⟨fun _ => ⟨not_not.mp hs, not_not.mp hl⟩, fun _ => rfl⟩

theorem checkBuffer_bufferFor :
    checkBuffer s format indices (bufferFor s format indices.length) = none :=
  checkBuffer_eq_none_iff.mpr ⟨rfl, rfl⟩

theorem isLaidOut_bufferFor (rows : Nat) : (bufferFor s format rows).IsLaidOut :=
  Buffer.isLaidOut_blank ..

theorem decode_of_check {fault : Fault} (h : checkBuffer s format indices buffer = some fault) :
    decode s format source indices buffer = ⟨.error fault.alone, buffer, []⟩ := by
  rw [decode, h]

theorem ready_start (hl : buffer.IsLaidOut) (hc : checkBuffer s format indices buffer = none) :
    Run.Ready s format indices.length ⟨buffer, .start s, []⟩ := by
  obtain ⟨hs, hlayout⟩ := checkBuffer_eq_none_iff.mp hc
  exact ⟨hl, hlayout, Nat.le_of_eq ((Nat.zero_add _).trans hs.symm)⟩

/-- A call on a buffer that has been checked is a scan, and what it found is entered. -/
theorem decode_eq_outcome (hl : buffer.IsLaidOut)
    (hc : checkBuffer s format indices buffer = none) :
    decode s format source indices buffer
      = (Run.enterAll s ⟨buffer, .start s, []⟩ (scan s format source indices).1).outcome
          indices.length (scan s format source indices).2 := by
  rw [decode, hc]
  simp only [walk_eq (ready_start hl hc)]
  rcases (scan s format source indices).2 with _ | stop <;> rfl

/-- A call that succeeds has been through all records. -/
theorem scan_of_decode_eq_ok {report : Report} (hl : buffer.IsLaidOut)
    (h : (decode s format source indices buffer).result = .ok report) :
    checkBuffer s format indices buffer = none
      ∧ ∃ entries, scan s format source indices = (entries, none)
        ∧ report = (Run.enterAll s ⟨buffer, .start s, []⟩ entries).report := by
  rcases hc : checkBuffer s format indices buffer with _ | fault
  · rw [decode_eq_outcome hl hc] at h
    rcases hs : (scan s format source indices).2 with _ | stop
    · rw [hs] at h
      exact ⟨rfl, _, Prod.ext rfl hs, (Except.ok.inj h).symm⟩
    · rw [hs] at h
      exact (nomatch h)
  · rw [decode_of_check hc] at h
    exact (nomatch h)

theorem scan_of_decode_eq_error {failure : Failure} (hl : buffer.IsLaidOut)
    (hc : checkBuffer s format indices buffer = none)
    (h : (decode s format source indices buffer).result = .error failure) :
    ∃ entries stop, scan s format source indices = (entries, some stop)
      ∧ stop.failure = failure := by
  rw [decode_eq_outcome hl hc] at h
  rcases hs : (scan s format source indices).2 with _ | stop
  · rw [hs] at h
    exact (nomatch h)
  · rw [hs] at h
    exact ⟨_, stop, Prod.ext rfl hs, Except.error.inj h⟩

theorem result_of_scan_eq_some (hl : buffer.IsLaidOut)
    (hc : checkBuffer s format indices buffer = none)
    (hs : scan s format source indices = (entries, some stop)) :
    (decode s format source indices buffer).result = .error stop.failure := by
  rw [decode_eq_outcome hl hc, hs]
  rfl

/-- A call whose scan gets past all records succeeds, and counts what the scan found. -/
theorem result_of_scan (hl : buffer.IsLaidOut)
    (hc : checkBuffer s format indices buffer = none)
    (hs : scan s format source indices = (entries, none)) :
    ∃ report, (decode s format source indices buffer).result = .ok report
      ∧ report.rowsWritten = (stagedRows entries).length
      ∧ report.emptyRecords = entries.countP (·.row?.isNone) := by
  rw [decode_eq_outcome hl hc, hs]
  refine ⟨_, rfl, ?_, ?_⟩
  · rw [Run.rowsWritten_enterAll]
    exact Nat.zero_add _
  · rw [Run.emptyRecords_enterAll]
    exact Nat.zero_add _

/-- A call on a single record that cannot be decoded changes nothing. -/
theorem decode_of_examine (hc : checkBuffer s format [index] buffer = none)
    (he : examine s format source index = .error stop) :
    decode s format source [index] buffer = ⟨.error stop.failure, buffer, stop.events⟩ := by
  rw [decode, hc]
  simp only [walk, step_eq_examine, he, Run.halt, Run.emit, List.nil_append]

theorem length_entries_le : (scan s format source indices).1.length ≤ indices.length := by
  induction indices with
  | nil => exact Nat.le_refl 0
  | cons index indices ih =>
    unfold scan
    rcases examine s format source index with stop | entry
    · exact Nat.zero_le _
    · exact Nat.succ_le_succ ih

theorem buffer_decode (hl : buffer.IsLaidOut) (hc : checkBuffer s format indices buffer = none) :
    (decode s format source indices buffer).buffer = buffer.replaceAll 0
      ((stagedRows (scan s format source indices).1).map buffer.layout.fill) := by
  rw [decode_eq_outcome hl hc, Run.buffer_outcome, Run.buffer_enterAll]
  rfl

theorem layout_decode (hl : buffer.IsLaidOut) (hc : checkBuffer s format indices buffer = none) :
    (decode s format source indices buffer).buffer.layout = buffer.layout := by
  rw [buffer_decode hl hc]
  rfl

theorem isLaidOut_enterAll {run : Run} (h : run.Ready s format indices.length) :
    (run.enterAll s (scan s format source indices).1).buffer.IsLaidOut := by
  induction indices generalizing run with
  | nil => exact h.laidOut
  | cons index indices ih =>
    unfold scan
    rcases he : examine s format source index with stop | entry
    · exact h.laidOut
    · exact ih (ready_enter h he)

theorem isLaidOut_decode (hl : buffer.IsLaidOut) :
    (decode s format source indices buffer).buffer.IsLaidOut := by
  rcases hc : checkBuffer s format indices buffer with _ | fault
  · rw [decode_eq_outcome hl hc, Run.buffer_outcome]
    exact isLaidOut_enterAll (ready_start hl hc)
  · rw [decode_of_check hc]
    exact hl

/-- The rows that were found are the first rows of the buffer, and behind them nothing changes. -/
theorem stored?_decode (hl : buffer.IsLaidOut) (hc : checkBuffer s format indices buffer = none)
    (he : (scan s format source indices).1 = entries) (row : Nat) :
    (decode s format source indices buffer).buffer.stored? row
      = if row < (stagedRows entries).length
        then ((stagedRows entries)[row]?).map buffer.layout.fill else buffer.stored? row := by
  subst he
  have hle : ((stagedRows (scan s format source indices).1).map buffer.layout.fill).length
      ≤ buffer.size := by
    rw [List.length_map, (checkBuffer_eq_none_iff.mp hc).1]
    exact Nat.le_trans (List.length_filterMap_le ..) length_entries_le
  rw [buffer_decode hl hc, Buffer.stored?_replaceAll hle, List.length_map, List.getElem?_map]

end Decoder

end WellLog
