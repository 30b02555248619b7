import WellLog.Proofs.Flattening
import WellLog.Proofs.Holding
import WellLog.Proofs.ProbingFrames

/-!
# Nothing out of range

A decoder that reads records by offsets and stores rows in arrays, and is none where an index, a
slice or a difference is out of range, does what the decoder does (`FlatDecoder.decode_flat`); so
nothing ever is, whatever the records hold.

Behind the check of the buffer no row can be refused: there is always a row left for it
(`Decoder.ready_of_walk`), and its fields are of the kinds and sizes that the layout has for their
codes (`Frame.suits_of_readRow`).
-/

namespace WellLog

/-! ## Decoding into arrays -/

structure FlatRun where
  buffer : FlatBuffer
  report : Report
  log : List Event

structure FlatOutcome where
  result : Except Failure Report
  buffer : FlatBuffer
  log : List Event

def Run.flat (run : Run) : FlatRun := ⟨run.buffer.flat, run.report, run.log⟩

def Outcome.flat (outcome : Outcome) : FlatOutcome :=
  ⟨outcome.result, outcome.buffer.flat, outcome.log⟩

namespace FlatDecoder

variable (s : Settings) (format : FrameFormat) (source : Source)

def storeRow (index : Nat) (row : StagedRow) (run : FlatRun) : Option (FlatRun × Option Failure) :=
  match run.buffer.commit? run.report.rowsWritten row.fields with
  | none => none
  | some none => some (run, some (Fault.layoutMismatch.inRecord index))
  | some (some buffer) =>
    some
      ({ buffer
         report := run.report.addRow s.sequencePolicy index row.rowIndex
         log := run.log ++ Run.rowEvents s run.report index row.rowIndex }, none)

def decodeRecord (index : Nat) (record : Record) (run : FlatRun) :
    Option (FlatRun × Option Failure) :=
  if record.flags.encrypted then some (run, some (Fault.encrypted.inRecord index))
  else
    match Probe.readName.run record.bytes 0 with
    | none => none
    | some (.error e) => some (run, some ⟨e.fault, some index, some e.offset⟩)
    | some (.ok (head, position)) =>
      let run := { run with log := run.log ++ [Decoder.opened index record head] }
      match (Probe.readBody s.identCapacity format).run record.bytes position with
      | none => none
      | some (.error e) => some (run, some ⟨e.fault, some index, some e.offset⟩)
      | some (.ok (none, _)) => some ({ run with report := run.report.addEmpty }, none)
      | some (.ok (some row, _)) => storeRow s index row run

def step (index : Nat) (run : FlatRun) : Option (FlatRun × Option Failure) :=
  match source.record? index with
  | .error missing => some (run, some ((Fault.noRecord missing).inRecord index))
  | .ok record => decodeRecord s format index record run

def walk : List Nat → FlatRun → Option (FlatRun × Option Failure)
  | [], run => some (run, none)
  | index :: indices, run =>
    match step s format source index run with
    | none => none
    | some (run, none) => walk indices run
    | some (run, some failure) => some (run, some failure)

def decode (indices : List Nat) (buffer : FlatBuffer) : Option FlatOutcome :=
  match Decoder.checkBuffer s format indices buffer.cut with
  | some fault => some ⟨.error fault.alone, buffer, []⟩
  | none =>
    match walk s format source indices ⟨buffer, .start s, []⟩ with
    | none => none
    | some (run, some failure) => some ⟨.error failure, run.buffer, run.log⟩
    | some (run, none) =>
      let r := run.report
      some ⟨.ok r, run.buffer, run.log ++
        [.finished indices.length r.rowsWritten r.emptyRecords r.anomalies.length]⟩

/-! ## It is decoding -/

variable {s format source} {index : Nat} {run : Run}

theorem storeRow_flat (h : run.buffer.IsLaidOut) (index : Nat) (row : StagedRow) :
    storeRow s index row run.flat = some ((Decoder.storeRow s index row run).map Run.flat id) := by
  have hc := Buffer.commit?_flat h run.report.rowsWritten row.fields
  unfold storeRow Decoder.storeRow
  rcases hb : run.buffer.commit? run.report.rowsWritten row.fields with _ | buffer
  · rw [hb] at hc
    simp only [Run.flat, hc, Option.map_none]
    rfl
  · rw [hb] at hc
    simp only [Run.flat, hc, Option.map_some]
    rfl

theorem decodeRecord_flat (h : run.buffer.IsLaidOut) (index : Nat) (record : Record) :
    decodeRecord s format index record run.flat
      = some ((Decoder.decodeRecord s format index record run).map Run.flat id) := by
  unfold decodeRecord Decoder.decodeRecord
  by_cases he : record.flags.encrypted
  · rw [if_pos he, if_pos he]
    rfl
  rw [if_neg he, if_neg he]
  have hseek : Cursor.seek record.bytes 0 = .ofBytes record.bytes := rfl
  rcases Probe.tracks_readName record.bytes 0 (Nat.zero_le _) with
    ⟨e, hp, hr⟩ | ⟨head, position, hle, hp, hr⟩
  · rw [hseek] at hr
    simp only [hp, hr]
    rfl
  rw [hseek] at hr
  simp only [hp, hr]
  rcases Probe.tracks_readBody s.identCapacity format record.bytes position hle with
    ⟨e, hp, hr⟩ | ⟨row?, next, -, hp, hr⟩
  · simp only [hp, hr]
    rfl
  rcases row? with _ | row
  · simp only [hp, hr]
    rfl
  · simp only [hp, hr]
    have hopened : (run.emit [Decoder.opened index record head]).buffer.IsLaidOut := h
    exact storeRow_flat hopened index row

theorem step_flat (h : run.buffer.IsLaidOut) (index : Nat) :
    step s format source index run.flat
      = some ((Decoder.step s format source index run).map Run.flat id) := by
  unfold step Decoder.step
  rcases source.record? index with missing | record
  · rfl
  · exact decodeRecord_flat h index record

end FlatDecoder

theorem Run.Ready.lt_size {s : Settings} {format : FrameFormat} {left : Nat} {run : Run}
    (h : run.Ready s format (left + 1)) : run.report.rowsWritten < run.buffer.size :=
  Nat.lt_of_lt_of_le (Nat.lt_add_of_pos_right (Nat.succ_pos left)) h.room

namespace Decoder

variable {s : Settings} {format : FrameFormat} {source : Source} {run run' : Run}

theorem isLaidOut_storeRow (h : run.buffer.IsLaidOut) (index : Nat) (row : StagedRow) :
    (storeRow s index row run).1.buffer.IsLaidOut := by
  unfold storeRow
  split
  · next hc => exact h.commit? hc
  · exact h

theorem isLaidOut_step (h : run.buffer.IsLaidOut) (index : Nat) :
    (step s format source index run).1.buffer.IsLaidOut := by
  rw [step_eq_examine]
  rcases examine s format source index with stop | ⟨_, event, _ | row⟩
  · exact h
  · exact h
  · have hopened : (run.emit [event]).buffer.IsLaidOut := h
    exact isLaidOut_storeRow hopened index row

/-- As long as no record fails there is a row left for each of the records that follow. -/
theorem ready_of_walk {before : List Nat} {left : Nat}
    (h : run.Ready s format (before.length + left))
    (hw : walk s format source before run = (run', none)) : run'.Ready s format left := by
  induction before generalizing run with
  | nil =>
    cases hw
    rwa [List.length_nil, Nat.zero_add] at h
  | cons index before ih =>
    rw [List.length_cons, Nat.add_right_comm] at h
    unfold walk at hw
    rw [step_eq h] at hw
    rcases he : examine s format source index with stop | entry
    · simp only [he, Run.halt] at hw
      cases hw
    · simp only [he] at hw
      exact ih (ready_enter h he) hw

end Decoder

namespace FlatDecoder

variable {s : Settings} {format : FrameFormat} {source : Source} {run : Run}

theorem walk_flat (h : run.buffer.IsLaidOut) (indices : List Nat) :
    walk s format source indices run.flat
      = some ((Decoder.walk s format source indices run).map Run.flat id) := by
  induction indices generalizing run with
  | nil => rfl
  | cons index indices ih =>
    have hl : (Decoder.step s format source index run).1.buffer.IsLaidOut :=
      Decoder.isLaidOut_step h index
    unfold walk Decoder.walk
    rw [step_flat h]
    rcases hs : Decoder.step s format source index run with ⟨next, _ | failure⟩
    · rw [hs] at hl
      exact ih hl
    · rfl

/-- Nothing that the decoder does with the arrays or the records is out of range. -/
theorem decode_flat {buffer : Buffer} (h : buffer.IsLaidOut) (indices : List Nat) :
    decode s format source indices buffer.flat
      = some (Decoder.decode s format source indices buffer).flat := by
  have hw : walk s format source indices (Run.flat ⟨buffer, .start s, []⟩) = _ :=
    walk_flat h indices
  have hcut : Decoder.checkBuffer s format indices buffer.flat.cut
      = Decoder.checkBuffer s format indices buffer := rfl
  unfold decode Decoder.decode
  rw [hcut]
  rcases Decoder.checkBuffer s format indices buffer with _ | fault
  · simp only [Run.flat] at hw
    simp only [hw]
    rcases Decoder.walk s format source indices ⟨buffer, .start s, []⟩ with ⟨run, _ | failure⟩ <;>
      rfl
  · rfl

end FlatDecoder

/-! ## Fields and their columns -/

/-- A field is of the kind and the size that a column of the code has. -/
def Field.Suits (identCapacity : Nat) (code : Code) : Field → Prop
  | packed bytes => code.inlineWidth? identCapacity = some bytes.length
  | ident body => (code = .ident ∨ code = .units) ∧ body.length ≤ identCapacity
  | object _ => code.inlineWidth? identCapacity = none

theorem Datum.suits_field {identCapacity : Nat} {d : Datum} (h : d.Fits identCapacity) :
    d.field.Suits identCapacity d.code := by
  cases d with
  | numeric q =>
    have hi := q.code.length_image_read q.bytes
    rw [q.read_bytes] at hi
    exact congrArg some hi.symm
  | ident t => exact ⟨.inl rfl, h⟩
  | units t => exact ⟨.inr rfl, h⟩
  | _ => rfl

theorem Frame.suits_of_readRow {identCapacity : Nat} {format : FrameFormat} {c c' : Cursor}
    {staged : StagedRow} (h : readRow identCapacity format c = .ok (staged, c')) :
    List.Forall₂ (fun code field => Field.Suits identCapacity code field)
      format.fields staged.fields := by
  obtain ⟨row, hf, rfl, -⟩ := readRow_eq_ok_iff.mp h
  rw [← row.fields_codes]
  refine List.forall₂_map_left_iff.mpr (List.forall₂_map_right_iff.mpr ?_)
  exact List.forall₂_same.mpr fun d hd => Datum.suits_field (hf d hd)

/-! ## Faults of records -/

/-- The buffer does not match the request. -/
def Fault.IsMismatch : Fault → Prop
  | rowCountMismatch _ _ | layoutMismatch => True
  | _ => False

namespace Frame

variable {α β : Type} {identCapacity : Nat} {format : FrameFormat} {c : Cursor}

/-- If the read fails, it is not the buffer that is at fault. -/
def BlamesRecord (x : Except LocatedFault α) : Prop := ∀ e, x = .error e → ¬e.fault.IsMismatch

theorem blamesRecord_ok (a : α) : BlamesRecord (.ok a) := fun _ h => (nomatch h)

theorem BlamesRecord.bind {x : Except LocatedFault α} {f : α → Except LocatedFault β}
    (hx : BlamesRecord x) (hf : ∀ a, BlamesRecord (f a)) : BlamesRecord (x >>= f) := by
  intro e he
  rcases bind_eq_error_iff.mp he with he | ⟨a, -, he⟩
  · exact hx e he
  · exact hf a e he

theorem blamesRecord_located (part : RecordPart) (x : Except OutOfBounds α) :
    BlamesRecord (located part c x) := by
  cases x with
  | error e =>
    rintro _ ⟨⟩
    exact id
  | ok a => exact blamesRecord_ok a

theorem blamesRecord_readField (column : Nat) (code : Code) :
    BlamesRecord (readField identCapacity column code c) := by
  refine (blamesRecord_located _ _).bind fun x => ?_
  rcases x with ⟨refusal | field, c'⟩
  · rintro _ ⟨⟩
    cases refusal <;> exact id
  · exact blamesRecord_ok _

theorem blamesRecord_readFields (column : Nat) (span : Span) :
    BlamesRecord (readFields identCapacity column span c) := by
  induction span generalizing column c with
  | nil => exact blamesRecord_ok _
  | cons code codes ih =>
    exact (blamesRecord_readField column code).bind fun _ =>
      (ih _).bind fun _ => blamesRecord_ok _

theorem blamesRecord_readRow : BlamesRecord (readRow identCapacity format c) :=
  (blamesRecord_located _ _).bind fun _ => (blamesRecord_located _ _).bind fun _ =>
    (blamesRecord_readFields _ _).bind fun _ => (blamesRecord_located _ _).bind fun _ =>
      blamesRecord_ok _

theorem blamesRecord_readBody : BlamesRecord (readBody identCapacity format c) := by
  unfold readBody
  split_ifs
  · exact blamesRecord_ok _
  · refine blamesRecord_readRow.bind fun ⟨row, c'⟩ => ?_
    by_cases hc : c'.isExhausted = true
    · simp only [hc, if_true]
      exact blamesRecord_ok _
    · simp only [hc]
      rintro _ ⟨⟩
      exact id

end Frame

namespace Decoder

theorem not_isMismatch_of_examine {s : Settings} {format : FrameFormat} {source : Source}
    {index : Nat} {stop : Stop} (h : examine s format source index = .error stop) :
    ¬stop.failure.fault.IsMismatch := by
  rcases cases_of_examine h with ⟨_, _, hf⟩ | ⟨_, _, _, hf⟩ | ⟨_, e, _, _, hread, hf⟩
  · rw [hf]
    exact id
  · rw [hf]
    exact id
  · rw [hf]
    rcases hread with hn | ⟨_, _, -, hb⟩
    · exact Frame.blamesRecord_located _ _ e hn
    · exact Frame.blamesRecord_readBody e hb

theorem check_of_isMismatch {s : Settings} {format : FrameFormat} {source : Source}
    {indices : List Nat} {buffer : Buffer} {failure : Failure} (hl : buffer.IsLaidOut)
    (h : (decode s format source indices buffer).result = .error failure)
    (hm : failure.fault.IsMismatch) :
    failure.record = none ∧ checkBuffer s format indices buffer = some failure.fault := by
  rcases hc : checkBuffer s format indices buffer with _ | fault
  · obtain ⟨entries, stop, hs, rfl⟩ := scan_of_decode_eq_error hl hc h
    obtain ⟨before, index, after, -, -, he⟩ := scan_eq_some_iff.mp hs
    exact absurd hm (not_isMismatch_of_examine he)
  · rw [decode_of_check hc] at h
    cases h
    exact ⟨rfl, rfl⟩

theorem exists_commit {s : Settings} {format : FrameFormat} {left : Nat} {run : Run}
    (h : run.Ready s format (left + 1)) {c : Cursor} {staged : StagedRow}
    (hb : Frame.readBody s.identCapacity format c = .ok (some staged)) :
    ∃ buffer, run.buffer.commit? run.report.rowsWritten staged.fields = some buffer := by
  obtain ⟨row?, hf, hs, -⟩ := Frame.readBody_eq_ok_iff.mp hb
  obtain ⟨row, rfl, rfl⟩ := Option.map_eq_some_iff.mp hs
  have ha : run.buffer.layout.accepts (row.fields.map Datum.field) = true := by
    rw [h.layout, ← row.fields_codes]
    exact Datum.accepts_ofSpan (hf row rfl)
  exact ⟨_, h.laidOut.commit?_eq h.lt_size ha⟩

/-- Whatever stands in the arrays, and whatever the records hold. -/
theorem decode_arrays (s : Settings) (format : FrameFormat) (source : Source) (indices : List Nat)
    {arrays : FlatBuffer} (h : arrays.IsFull) :
    (∀ failure, (decode s format source indices arrays.cut).result = .error failure →
        failure.fault.IsMismatch →
        failure.record = none ∧ checkBuffer s format indices arrays.cut = some failure.fault)
      ∧ (checkBuffer s format indices arrays.cut = none → ∀ before index after run,
          indices = before ++ index :: after →
          walk s format source before ⟨arrays.cut, .start s, []⟩ = (run, none) →
          run.report.rowsWritten < run.buffer.size
            ∧ ∀ c row, Frame.readBody s.identCapacity format c = .ok (some row) →
              ∃ buffer, run.buffer.commit? run.report.rowsWritten row.fields = some buffer)
      ∧ (∀ c row c', Frame.readRow s.identCapacity format c = .ok (row, c') →
          List.Forall₂ (Field.Suits s.identCapacity) format.fields row.fields)
      ∧ FlatDecoder.decode s format source indices arrays
          = some (decode s format source indices arrays.cut).flat := by
  have hl := arrays.isLaidOut_cut h
  refine ⟨fun failure => check_of_isMismatch hl, ?_, fun c row c' => Frame.suits_of_readRow, ?_⟩
  · rintro hc before index after run rfl hw
    have hready := ready_start hl hc
    rw [List.length_append, List.length_cons] at hready
    have hrun := ready_of_walk hready hw
    exact ⟨hrun.lt_size, fun c row => exists_commit hrun⟩
  · have hflat : FlatDecoder.decode s format source indices arrays.cut.flat = _ :=
      FlatDecoder.decode_flat hl indices
    rwa [FlatBuffer.flat_cut h] at hflat

/-- A number of variable width is stored over what was there before; a buffer with a row too many
is refused. -/
theorem decode_arrays_uvari :
    (FlatDecoder.decode .standard (.single .uvari) (.constant [1, 0, 1, 70, 5, 44]) [7]
          ⟨.ofSpan [.uvari] 255, 1, [9, 9, 9, 9], []⟩).map (fun o => (o.result, o.buffer.bytes))
        = some (.ok ⟨1, 0, 6, [⟨7, 1, 5⟩]⟩, [44, 0, 0, 0])
      ∧ (∃ buffer, (FlatBuffer.cut ⟨.ofSpan [.uvari] 255, 1, [9, 9, 9, 9], []⟩).commit? 0
          [.packed [44, 0, 0, 0]] = some buffer)
      ∧ Field.Suits 255 .uvari (.packed [44, 0, 0, 0])
      ∧ ∃ failure, (decode .standard (.single .uvari) (.constant []) [7]
            (FlatBuffer.cut ⟨.ofSpan [.uvari] 255, 2, List.replicate 8 9, []⟩)).result
          = .error failure ∧ failure.record = none := by
  have hfull : FlatBuffer.IsFull ⟨.ofSpan [.uvari] 255, 1, [9, 9, 9, 9], []⟩ :=
    ⟨⟨[.uvari], 255, rfl⟩, rfl, rfl⟩
  obtain ⟨-, hcommit, hsuits, hflat⟩ := decode_arrays .standard (.single .uvari)
    (.constant [1, 0, 1, 70, 5, 44]) [7] hfull
  have hbody : Frame.readBody 255 (.single .uvari) ⟨4, [5, 44]⟩
      = .ok (some ⟨5, [.packed [44, 0, 0, 0]]⟩) := rfl
  have hrow : Frame.readRow 255 (.single .uvari) ⟨4, [5, 44]⟩
      = .ok (⟨5, [.packed [44, 0, 0, 0]]⟩, ⟨6, []⟩) := rfl
  refine ⟨?_, ?_, ?_, ?_⟩
  · rw [hflat]
    rfl
  · exact (hcommit rfl [] 7 [] _ rfl rfl).2 _ _ hbody
  · exact (List.forall₂_cons.mp (hsuits _ _ _ hrow)).1
  · have hfull : FlatBuffer.IsFull ⟨.ofSpan [.uvari] 255, 2, List.replicate 8 9, []⟩ :=
      ⟨⟨[.uvari], 255, rfl⟩, rfl, rfl⟩
    exact ⟨_, rfl, ((decode_arrays .standard (.single .uvari) (.constant []) [7] hfull).1
      (Fault.rowCountMismatch 2 1).alone rfl trivial).1⟩

end Decoder

end WellLog
