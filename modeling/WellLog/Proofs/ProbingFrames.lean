import WellLog.Proofs.Parsing
import WellLog.Proofs.Probing

/-!
# Frames by offsets

The reads of a frame as probes. A number is taken from an array of its width, the parts of a group
as slices of it, and a time from the eight bytes of one; each probe reads what the cursor reads
(`Probe.tracks_field`, `Probe.tracks_readName`, `Probe.tracks_readBody`).
-/

namespace WellLog

/-! ## Numbers and times -/

/-- The number of an array; the parts of a group are slices of it. -/
def Numeric.read? (code : Numeric) (bytes : List UInt8) : Option Number :=
  let single (i : Nat) := (slice? bytes (4 * i) (4 * i + 4)).map Binary32.ofRecord
  let double (i : Nat) := (slice? bytes (8 * i) (8 * i + 8)).map Binary64.ofRecord
  if bytes.length = code.width then
    match code with
    | .fsing1 => return .f32Pair (← single 0) (← single 1)
    | .fsing2 => return .f32Triple (← single 0) (← single 1) (← single 2)
    | .fdoub1 => return .f64Pair (← double 0) (← double 1)
    | .fdoub2 => return .f64Triple (← double 0) (← double 1) (← double 2)
    | .csingl => return .c32 (← single 0) (← single 1)
    | .cdoubl => return .c64 (← double 0) (← double 1)
    | code => some (code.read bytes)
  else none

theorem Numeric.read?_eq {code : Numeric} {bytes : List UInt8} (h : bytes.length = code.width) :
    code.read? bytes = some (code.read bytes) := by
  cases code <;> simp [read?, read, slice?, part, h, width]

def Dtime.ofBytes? (bytes : List UInt8) : Option Dtime := do
  let year ← bytes[0]?
  let zoneAndMonth ← bytes[1]?
  let day ← bytes[2]?
  let hour ← bytes[3]?
  let minute ← bytes[4]?
  let second ← bytes[5]?
  let high ← bytes[6]?
  let low ← bytes[7]?
  pure
    { year := year.toNat
      zone := zoneAndMonth.toNat / 16
      month := zoneAndMonth.toNat % 16
      day := day.toNat
      hour := hour.toNat
      minute := minute.toNat
      second := second.toNat
      millisecond := 256 * high.toNat + low.toNat }

theorem Dtime.ofBytes?_eq : ∀ {bytes : List UInt8}, bytes.length = 8 →
    ofBytes? bytes = some (ofBytes bytes)
  | [_, _, _, _, _, _, _, _], _ => rfl

namespace Probe

variable {ε α β γ : Type}

/-! ## The probes -/

def field (identCapacity : Nat) : Code → Probe OutOfBounds (Except Refusal Field)
  | .numeric n => do
    let bytes ← take n.width
    let number ← sure (n.read? bytes)
    pure (.ok (.number number))
  | .uvari | .origin => do
    let n ← uvari
    pure (.ok (.number (.i32 (Int32.ofNat n))))
  | .ident | .units => do
    let body ← ident
    pure (Field.ofIdent identCapacity body)
  | .ascii => do
    let body ← ascii
    pure (.ok (.object (.text (.decode body))))
  | .dtime => do
    let bytes ← take 8
    let time ← sure (Dtime.ofBytes? bytes)
    match time.timestamp? with
    | some t => pure (.ok (.object (.time t)))
    | none => pure (.error .notATime)
  | .obname => do
    let name ← objectName
    pure (.ok (.object (.name name)))
  | .objref => do
    let ref ← objectRef
    pure (.ok (.object (.ref ref)))
  | .attref => do
    let ref ← attributeRef
    pure (.ok (.object (.attribute ref)))

def skipSpan : Span → Probe OutOfBounds Unit
  | [] => pure ()
  | code :: rest => do
    skip code
    skipSpan rest

/-- A read of a part of a record; a failure lies where the part starts. -/
def located (part : RecordPart) (p : Probe OutOfBounds α) : Probe LocatedFault α :=
  ⟨fun bytes position =>
    match p.run bytes position with
    | none => none
    | some (.error e) => some (.error ⟨.corrupt part e.needed e.available, position⟩)
    | some (.ok x) => some (.ok x)⟩

def readName : Probe LocatedFault (Int32 × UInt8) := located .name nameHead

def readField (identCapacity column : Nat) (code : Code) : Probe LocatedFault Field := do
  let start ← here
  match ← located (.field column code) (field identCapacity code) with
  | .ok field => pure field
  | .error refusal => fail ⟨refusal.fault, start⟩

def readFields (identCapacity : Nat) : Nat → Span → Probe LocatedFault (List Field)
  | _, [] => pure []
  | column, code :: codes => do
    let field ← readField identCapacity column code
    let fields ← readFields identCapacity (column + 1) codes
    pure (field :: fields)

def readRow (identCapacity : Nat) (format : FrameFormat) : Probe LocatedFault StagedRow := do
  let rowIndex ← located .rowIndex uvari
  located .leading (skipSpan format.leading)
  let fields ← readFields identCapacity 0 format.fields
  located .trailing (skipSpan format.trailing)
  pure ⟨UInt32.ofNat rowIndex, fields⟩

def secondRow : Probe LocatedFault (Option StagedRow) := do
  let position ← here
  fail ⟨.secondRow (← remaining), position⟩

def readBody (identCapacity : Nat) (format : FrameFormat) :
    Probe LocatedFault (Option StagedRow) := do
  if ← isExhausted then
    pure none
  else
    let row ← readRow identCapacity format
    if ← isExhausted then pure (some row) else secondRow

/-! ## They read what cursors read -/

theorem tracks_sure_bind {a? : Option α} {a : α} {f : α → Probe ε γ} {read : Cursor → Except ε β}
    {out : γ → Cursor → β} (h : a? = some a) (hf : Tracks (f a) read out) :
    Tracks (sure a? >>= f) read out := by
  subst h
  exact hf

theorem tracks_field (identCapacity : Nat) (code : Code) :
    Tracks (field identCapacity code) (Field.read identCapacity code) Prod.mk := by
  cases code with
  | numeric n =>
    refine (tracks_take n.width).bind fun bytes ⟨_, _, h⟩ => ?_
    exact tracks_sure_bind (Numeric.read?_eq (Cursor.take_eq_ok_iff.mp h).1) (tracks_pure _ _)
  | uvari => exact tracks_uvari.bind fun _ _ => tracks_pure _ _
  | origin => exact tracks_uvari.bind fun _ _ => tracks_pure _ _
  | ident => exact tracks_ident.bind fun _ _ => tracks_pure _ _
  | units => exact tracks_ident.bind fun _ _ => tracks_pure _ _
  | ascii => exact tracks_ascii.bind fun _ _ => tracks_pure _ _
  | dtime =>
    refine (tracks_take 8).bind fun bytes ⟨_, _, h⟩ => ?_
    refine tracks_sure_bind (Dtime.ofBytes?_eq (Cursor.take_eq_ok_iff.mp h).1) ?_
    simp only [Field.ofTime]
    rcases (Dtime.ofBytes bytes).timestamp? with _ | t <;> exact tracks_pure _ _
  | obname => exact tracks_objectName.bind fun _ _ => tracks_pure _ _
  | objref => exact tracks_objectRef.bind fun _ _ => tracks_pure _ _
  | attref => exact tracks_attributeRef.bind fun _ _ => tracks_pure _ _

theorem tracks_skipSpan : ∀ span : Span, Tracks (skipSpan span) (Span.skip span) fun _ c => c
  | [] => tracks_pure () fun _ c => c
  | code :: rest => (tracks_skip code).bind fun _ _ => tracks_skipSpan rest

theorem Tracks.located {p : Probe OutOfBounds α} {read : Cursor → Except OutOfBounds β}
    {out : α → Cursor → β} (hp : Tracks p read out) (part : RecordPart) :
    Tracks (located part p) (fun c => Frame.located part c (read c)) out := by
  intro bytes position hle
  rcases hp bytes position hle with ⟨e, hpe, hr⟩ | ⟨a, next, hnext, hpa, hr⟩
  · refine .inl ⟨⟨.corrupt part e.needed e.available, position⟩, ?_, ?_⟩
    · simp only [Probe.located, hpe]
    · simp only [hr]
      rfl
  · refine .inr ⟨a, next, hnext, ?_, ?_⟩
    · simp only [Probe.located, hpa]
    · simp only [hr]
      rfl

theorem tracks_readName : Tracks readName Frame.readName Prod.mk := tracks_nameHead.located .name

theorem tracks_readField (identCapacity column : Nat) (code : Code) :
    Tracks (readField identCapacity column code) (Frame.readField identCapacity column code)
      Prod.mk := by
  intro bytes position hle
  have h := (tracks_field identCapacity code).located (.field column code) bytes position hle
  beta_reduce at h
  rcases h with ⟨e, hp, hr⟩ | ⟨refusal | field, next, hnext, hp, hr⟩
  · refine .inl ⟨e, ?_, ?_⟩
    · simp only [readField, Bind.bind, here, hp]
    · rw [Frame.readField, hr]
      rfl
  · refine .inl ⟨⟨refusal.fault, position⟩, ?_, ?_⟩
    · simp only [readField, Bind.bind, here, hp, fail]
    · rw [Frame.readField, hr]
      exact congrArg Except.error (Frame.refused_eq _ refusal)
  · refine .inr ⟨field, next, hnext, ?_, ?_⟩
    · simp only [readField, Bind.bind, here, hp]
      rfl
    · rw [Frame.readField, hr]
      rfl

theorem tracks_readFields (identCapacity : Nat) : ∀ (column : Nat) (span : Span),
    Tracks (readFields identCapacity column span) (Frame.readFields identCapacity column span)
      Prod.mk
  | _, [] => tracks_pure [] Prod.mk
  | column, code :: codes =>
    (tracks_readField identCapacity column code).bind fun _ _ =>
      (tracks_readFields identCapacity (column + 1) codes).bind fun _ _ => tracks_pure _ _

theorem tracks_readRow (identCapacity : Nat) (format : FrameFormat) :
    Tracks (readRow identCapacity format) (Frame.readRow identCapacity format) Prod.mk :=
  (tracks_uvari.located .rowIndex).bind fun _ _ =>
    ((tracks_skipSpan format.leading).located .leading).bind fun _ _ =>
      (tracks_readFields identCapacity 0 format.fields).bind fun _ _ =>
        ((tracks_skipSpan format.trailing).located .trailing).bind fun _ _ => tracks_pure _ _

theorem tracks_secondRow :
    Tracks secondRow (fun c => .error ⟨.secondRow c.remaining, c.position⟩) fun row? _ => row? := by
  intro bytes position hle
  refine .inl ⟨_, ?_, rfl⟩
  simp only [secondRow, Bind.bind, here, remaining, minus?, if_pos hle, Option.map_some, fail,
    Cursor.remaining, Cursor.seek, List.length_drop]

theorem tracks_isExhausted {p q : Probe ε α} {read read' : Cursor → Except ε β}
    {out : α → Cursor → β} (hp : Tracks p read out) (hq : Tracks q read' out) :
    Tracks (do if ← isExhausted then p else q)
      (fun c => if c.isExhausted then read c else read' c) out := by
  intro bytes position hle
  have h : (position == bytes.length) = (Cursor.seek bytes position).isExhausted := by
    rw [Bool.eq_iff_iff, beq_iff_eq, Frame.isExhausted_iff]
    simp only [Cursor.seek, List.drop_eq_nil_iff]
    omega
  simp only [Bind.bind, isExhausted, h]
  split_ifs
  · exact hp bytes position hle
  · exact hq bytes position hle

theorem tracks_readBody (identCapacity : Nat) (format : FrameFormat) :
    Tracks (readBody identCapacity format) (Frame.readBody identCapacity format)
      fun row? _ => row? :=
  tracks_isExhausted (tracks_pure none fun row? _ => row?)
    ((tracks_readRow identCapacity format).bind fun row _ =>
      tracks_isExhausted (tracks_pure (some row) fun row? _ => row?) tracks_secondRow)

end Probe

end WellLog
