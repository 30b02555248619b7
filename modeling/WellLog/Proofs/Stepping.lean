import WellLog.Proofs.Moving
import WellLog.Proofs.Overrunning

/-!
# One cursor, any reads

A cursor that is kept may be asked for anything in any order, and what it does next starts where it
has come to (`Step.all`). Whatever it is asked for, it goes forward or stays where it is, and it does
not leave the record. What it gives is what the bytes say that it has passed, and where bytes are
missing it has not moved (`Step.isSound_take`, `Step.isSound_all`).

The check in front of each read is one of words, whose sum may be too large for a word. Nothing
changes by that (`checkRoomOfWords_eq`).
-/

namespace WellLog

/-! ## Words -/

/-- The sum, if it is a word. -/
def addWords? (m n : UInt64) : Option UInt64 :=
  if m.toNat + n.toNat < UInt64.size then some (m + n) else none

/-- The check of an offset into a record. A sum that is no word lies behind the record, too. -/
def checkRoomOfWords (offset stop n : UInt64) : Except OutOfBounds Unit :=
  match addWords? offset n with
  | some last =>
    if last ≤ stop then .ok () else .error ⟨offset.toNat, n.toNat, stop.toNat - offset.toNat⟩
  | none => .error ⟨offset.toNat, n.toNat, stop.toNat - offset.toNat⟩

theorem checkRoomOfWords_eq (offset stop n : UInt64) :
    checkRoomOfWords offset stop n = checkRoom offset.toNat stop.toNat n.toNat := by
  have hstop : stop.toNat < UInt64.size := stop.toNat_lt
  unfold checkRoomOfWords addWords? checkRoom
  by_cases h : offset.toNat + n.toNat < UInt64.size
  · have hsum : (offset + n).toNat = offset.toNat + n.toNat := by
      rw [UInt64.toNat_add, Nat.mod_eq_of_lt h]
    simp only [h, if_true, UInt64.le_iff_toNat_le, hsum]
  · have hlast : ¬offset.toNat + n.toNat ≤ stop.toNat := by omega
    simp only [h, hlast, if_false]

/-! ## More motions -/

namespace Motion

variable {α β δ : Type}

/-- As many bytes as an array of the size has. -/
def array (n : Nat) : Motion (List UInt8) := do
  ensure n
  let bytes ← rest
  if n ≤ bytes.length then
    move n
    pure (bytes.take n)
  else short n

def skipEach : Span → Motion Unit
  | [] => pure ()
  | code :: span => do
    skip code
    skipEach span

def skipSpan (span : Span) : Motion Unit := wholly (skipEach span)

theorem Mirrors.mapRead {m : Motion α} {read : Cursor → Except OutOfBounds β}
    {out : α → Cursor → β} (f : β → δ) (hm : Mirrors m read out) :
    Mirrors m (fun c => (read c).map f) fun a c => f (out a c) := by
  intro bytes position hle
  rcases hm bytes position hle with ⟨e, hr, hread⟩ | ⟨a, next, hnext, hr, hread⟩
  · refine .inl ⟨e, hr, ?_⟩
    simp only [hread, Except.map]
  · refine .inr ⟨a, next, hnext, hr, ?_⟩
    simp only [hread, Except.map]

theorem mirrors_ensure (n : Nat) :
    Mirrors (ensure n) (fun c => (c.ensure n).map fun _ => ((), c)) Prod.mk := by
  intro bytes position hle
  by_cases h : position + n ≤ bytes.length
  · refine .inr ⟨(), position, hle, ?_, ?_⟩
    · simp only [ensure, checkRoom_of_le h]
    · simp only [Cursor.ensure_seek hle, checkRoom_of_le h, Except.map]
  · refine .inl ⟨⟨position, n, bytes.length - position⟩, ?_, ?_⟩
    · simp only [ensure, checkRoom_of_not_le h]
    · simp only [Cursor.ensure_seek hle, checkRoom_of_not_le h, Except.map]

theorem mirrors_array (n : Nat) : Mirrors (array n) (Cursor.take · n) Prod.mk := by
  intro bytes position hle
  by_cases h : position + n ≤ bytes.length
  · refine .inr ⟨_, position + n, h, ?_, Cursor.take_seek_of_le hle h⟩
    have hn : n ≤ (bytes.drop position).length := by
      rw [List.length_drop]
      omega
    rw [array, run_ensure_bind_of_le h]
    simp only [Bind.bind, rest, hn, if_true, move]
    rfl
  · exact .inl ⟨_, run_ensure_bind_of_not_le h, Cursor.take_seek_of_not_le hle h⟩

theorem follows_skipEach : ∀ span : Span, Follows (skipEach span) span.skip fun _ c => c
  | [] => follows_pure () fun _ c => c
  | code :: span => (mirrors_skip code).follows.bind fun _ => follows_skipEach span

theorem mirrors_skipSpan (span : Span) : Mirrors (skipSpan span) span.skip fun _ c => c :=
  (follows_skipEach span).wholly

end Motion

/-! ## Operations -/

/-- What a cursor can be asked for. -/
inductive Operation where
  | ensure (n : Nat)
  | advance (n : Nat)
  | take (n : Nat)
  | array (n : Nat)
  | uvari
  | ident
  | ascii
  | skip (code : Code)
  | skipSpan (span : Span)
  | objectName
  | nameHead
  | objectRef
  | attributeRef
  | field (identCapacity : Nat) (code : Code)

namespace Operation

/-- What an operation gives. The value of a field may be one that no row can hold. -/
def Value : Operation → Type
  | ensure _ | advance _ | skip _ | skipSpan _ => Unit
  | take _ | array _ | ident | ascii => List UInt8
  | uvari => Nat
  | objectName => ObjectName
  | nameHead => Int32 × UInt8
  | objectRef => ObjectRef
  | attributeRef => AttributeRef
  | field _ _ => Except Refusal Field

def motion : (o : Operation) → Motion o.Value
  | ensure n => Motion.ensure n
  | advance n => Motion.advance n
  | take n => Motion.take n
  | array n => Motion.array n
  | uvari => Motion.uvari
  | ident => Motion.ident
  | ascii => Motion.ascii
  | skip code => Motion.skip code
  | skipSpan span => Motion.skipSpan span
  | objectName => Motion.objectName
  | nameHead => Motion.nameHead
  | objectRef => Motion.objectRef
  | attributeRef => Motion.attributeRef
  | field identCapacity code => Motion.field identCapacity code

/-- The read of a cursor that returns another one. -/
def read : (o : Operation) → Cursor → Except OutOfBounds (o.Value × Cursor)
  | ensure n, c => (c.ensure n).map fun _ => ((), c)
  | advance n, c => (c.advance n).map fun c => ((), c)
  | take n, c => c.take n
  | array n, c => c.take n
  | uvari, c => c.uvari
  | ident, c => c.ident
  | ascii, c => c.ascii
  | skip code, c => (c.skip code).map fun c => ((), c)
  | skipSpan span, c => (span.skip c).map fun c => ((), c)
  | objectName, c => c.objectName
  | nameHead, c => c.nameHead
  | objectRef, c => c.objectRef
  | attributeRef, c => c.attributeRef
  | field identCapacity code, c => Field.read identCapacity code c

/-- The value is what the bytes say, and these are all bytes of it. -/
def Gives : (o : Operation) → o.Value → List UInt8 → Prop
  | ensure _, _, taken => taken = []
  | advance n, _, taken => taken.length = n
  | take n, bytes, taken => bytes = taken ∧ taken.length = n
  | array n, bytes, taken => bytes = taken ∧ taken.length = n
  | uvari, n, taken => ∃ w : VarNumber, w.value = n ∧ w.bytes = taken
  | ident, body, taken => ∃ t : ShortText, t.body = body ∧ t.bytes = taken
  | ascii, body, taken => ∃ t : CountedText, t.body = body ∧ t.bytes = taken
  | skip code, _, taken => ∃ d : Datum, d.code = code ∧ d.bytes = taken
  | skipSpan span, _, taken =>
    ∃ ds : List Datum, ds.map Datum.code = span ∧ ds.flatMap Datum.bytes = taken
  | objectName, name, taken => ∃ n : WrittenName, n.name = name ∧ n.bytes = taken
  | nameHead, head, taken => ∃ n : WrittenName, n.head = head ∧ n.bytes = taken
  | objectRef, ref, taken => ∃ (t : ShortText) (n : WrittenName),
    ⟨latin1 t.body, n.name⟩ = ref ∧ t.bytes ++ n.bytes = taken
  | attributeRef, ref, taken => ∃ (t : ShortText) (n : WrittenName) (l : ShortText),
    ⟨latin1 t.body, n.name, latin1 l.body⟩ = ref ∧ t.bytes ++ n.bytes ++ l.bytes = taken
  | field identCapacity code, r, taken =>
    ∃ d : Datum, d.code = code ∧ d.staged identCapacity = r ∧ d.bytes = taken

theorem mirrors : ∀ o : Operation, Motion.Mirrors o.motion o.read Prod.mk
  | ensure n => Motion.mirrors_ensure n
  | advance n => (Motion.mirrors_advance n).mapRead fun c => ((), c)
  | take n => Motion.mirrors_take n
  | array n => Motion.mirrors_array n
  | uvari => Motion.mirrors_uvari
  | ident => Motion.mirrors_ident
  | ascii => Motion.mirrors_ascii
  | skip code => (Motion.mirrors_skip code).mapRead fun c => ((), c)
  | skipSpan span => (Motion.mirrors_skipSpan span).mapRead fun c => ((), c)
  | objectName => Motion.mirrors_objectName
  | nameHead => Motion.mirrors_nameHead
  | objectRef => Motion.mirrors_objectRef
  | attributeRef => Motion.mirrors_attributeRef
  | field identCapacity code => Motion.mirrors_field identCapacity code

/-- The value is the one of the bytes between the two cursors. -/
theorem exists_gives {c c' : Cursor} : ∀ {o : Operation} {a : o.Value}, o.read c = .ok (a, c') →
    ∃ taken, o.Gives a taken ∧ c.Passes taken c' := by
  intro o a h
  cases o with
  | ensure n =>
    obtain ⟨_, -, hc⟩ := map_eq_ok_iff.mp h
    exact ⟨[], rfl, Cursor.passes_nil_iff.mpr (Prod.mk.inj hc).2.symm⟩
  | advance n =>
    obtain ⟨_, ha, hc⟩ := map_eq_ok_iff.mp h
    obtain ⟨taken, hl, hp⟩ := Cursor.advance_eq_ok_iff.mp ha
    exact ⟨taken, hl, (Prod.mk.inj hc).2 ▸ hp⟩
  | take n =>
    obtain ⟨hl, hp⟩ := Cursor.take_eq_ok_iff.mp h
    exact ⟨_, ⟨rfl, hl⟩, hp⟩
  | array n =>
    obtain ⟨hl, hp⟩ := Cursor.take_eq_ok_iff.mp h
    exact ⟨_, ⟨rfl, hl⟩, hp⟩
  | uvari =>
    obtain ⟨w, hw, hp⟩ := Cursor.uvari_eq_ok_iff.mp h
    exact ⟨_, ⟨w, hw, rfl⟩, hp⟩
  | ident =>
    obtain ⟨t, ht, hp⟩ := Cursor.ident_eq_ok_iff.mp h
    exact ⟨_, ⟨t, ht, rfl⟩, hp⟩
  | ascii =>
    obtain ⟨t, ht, hp⟩ := Cursor.ascii_eq_ok_iff.mp h
    exact ⟨_, ⟨t, ht, rfl⟩, hp⟩
  | skip code =>
    obtain ⟨_, hs, hc⟩ := map_eq_ok_iff.mp h
    obtain ⟨d, hd, hp⟩ := Cursor.skip_eq_ok_iff.mp hs
    exact ⟨_, ⟨d, hd, rfl⟩, (Prod.mk.inj hc).2 ▸ hp⟩
  | skipSpan span =>
    obtain ⟨_, hs, hc⟩ := map_eq_ok_iff.mp h
    obtain ⟨ds, hd, hp⟩ := Span.skip_eq_ok_iff.mp hs
    exact ⟨_, ⟨ds, hd, rfl⟩, (Prod.mk.inj hc).2 ▸ hp⟩
  | objectName =>
    obtain ⟨n, hn, hp⟩ := Cursor.objectName_eq_ok_iff.mp h
    exact ⟨_, ⟨n, hn, rfl⟩, hp⟩
  | nameHead =>
    obtain ⟨n, hn, hp⟩ := Cursor.nameHead_eq_ok_iff.mp h
    exact ⟨_, ⟨n, hn, rfl⟩, hp⟩
  | objectRef =>
    obtain ⟨t, n, hr, hp⟩ := Cursor.objectRef_eq_ok_iff.mp h
    exact ⟨_, ⟨t, n, hr, rfl⟩, hp⟩
  | attributeRef =>
    obtain ⟨t, n, l, hr, hp⟩ := Cursor.attributeRef_eq_ok_iff.mp h
    exact ⟨_, ⟨t, n, l, hr, rfl⟩, hp⟩
  | field identCapacity code =>
    obtain ⟨d, hd, hp, hr⟩ := Field.read_eq_ok_iff.mp h
    exact ⟨_, ⟨d, hd, hr, rfl⟩, hp⟩

/-- What fails lies behind the cursor, and bytes are missing there. -/
theorem overruns (c : Cursor) : ∀ o : Operation, c.Overruns (o.read c)
  | ensure n => Cursor.overruns_map_iff.mpr (Cursor.overruns_ensure n)
  | advance n => Cursor.overruns_map_iff.mpr (Cursor.overruns_advance n)
  | take n => Cursor.overruns_take n
  | array n => Cursor.overruns_take n
  | uvari => Cursor.overruns_uvari
  | ident => Cursor.overruns_ident
  | ascii => Cursor.overruns_ascii
  | skip code => Cursor.overruns_map_iff.mpr (Cursor.overruns_skip code)
  | skipSpan span => Cursor.overruns_map_iff.mpr (Cursor.overruns_skipSpan span)
  | objectName => Cursor.overruns_objectName
  | nameHead => Cursor.overruns_nameHead
  | objectRef => Cursor.overruns_objectRef
  | attributeRef => Cursor.overruns_attributeRef
  | field identCapacity code => Cursor.overruns_read identCapacity code

end Operation

/-! ## Steps -/

/-- Where the cursor was, what it gave, and where it is then. -/
structure Step where
  operation : Operation
  before : Nat
  result : Except OutOfBounds operation.Value
  after : Nat

namespace Step

def take (bytes : List UInt8) (position : Nat) (o : Operation) : Step :=
  let (result, after) := o.motion.run bytes position
  ⟨o, position, result, after⟩

/-- The steps of one cursor that begins at an offset. -/
def all (bytes : List UInt8) : Nat → List Operation → List Step
  | _, [] => []
  | position, o :: operations =>
    let step := take bytes position o
    step :: all bytes step.after operations

/-- The cursor goes over the bytes of what it gives, or it says what is missing and stays. -/
structure IsSound (bytes : List UInt8) (step : Step) : Prop where
  forward : step.before ≤ step.after
  within : step.after ≤ bytes.length
  remaining : minus? bytes.length step.after = some (Cursor.seek bytes step.after).remaining
  atEnd : (Cursor.seek bytes step.after).isExhausted = true ↔ step.after = bytes.length
  exhausted : (Cursor.seek bytes step.after).isExhausted = true
    ↔ (Cursor.seek bytes step.after).remaining = 0
  given : ∀ a, step.result = .ok a →
    ∃ taken, slice? bytes step.before step.after = some taken ∧ step.operation.Gives a taken
  missing : ∀ e, step.result = .error e → step.after = step.before
    ∧ step.before ≤ e.offset ∧ e.offset + e.available = bytes.length ∧ e.available < e.needed

section Seek

variable {bytes taken : List UInt8} {position next : Nat}

theorem minus?_eq_remaining (h : position ≤ bytes.length) :
    minus? bytes.length position = some (Cursor.seek bytes position).remaining := by
  rw [minus?, if_pos h, Cursor.remaining, Cursor.seek, List.length_drop]

theorem isExhausted_seek (h : position ≤ bytes.length) :
    (Cursor.seek bytes position).isExhausted = true ↔ position = bytes.length := by
  simp only [Cursor.isExhausted, Cursor.seek, List.isEmpty_iff, List.drop_eq_nil_iff]
  omega

theorem isExhausted_iff_remaining (c : Cursor) : c.isExhausted = true ↔ c.remaining = 0 := by
  rw [Cursor.isExhausted, Cursor.remaining, List.isEmpty_iff, List.length_eq_zero_iff]

/-- What lies between two offsets is a slice of the record. -/
theorem slice?_of_passes (hnext : next ≤ bytes.length)
    (h : (Cursor.seek bytes position).Passes taken (.seek bytes next)) :
    slice? bytes position next = some taken := by
  have hn : next = position + taken.length := h.position
  have hd : bytes.drop position = taken ++ bytes.drop next := h.rest
  rw [hn] at hnext ⊢
  rw [slice?_add hnext, hd, List.take_left]

end Seek

section Runs

variable {bytes : List UInt8} {position : Nat}

/-- Whatever is asked for, from any offset within the record. -/
theorem isSound_take (hle : position ≤ bytes.length) (o : Operation) :
    (take bytes position o).IsSound bytes := by
  rcases o.mirrors bytes position hle with ⟨e, hr, he⟩ | ⟨a, next, hnext, hr, ha⟩
  · have hstep : take bytes position o = ⟨o, position, .error e, position⟩ := by
      simp only [take, hr]
    -- What is missing is said of the cursor, whose end is that of the record.
    obtain ⟨hoffset, hstop, hlt⟩ := o.overruns _ e he
    have hend : (Cursor.seek bytes position).stop = bytes.length := by
      simp only [Cursor.stop, Cursor.remaining, Cursor.seek, List.length_drop]
      omega
    rw [hstep]
    refine ⟨Nat.le_refl _, hle, minus?_eq_remaining hle, isExhausted_seek hle,
      isExhausted_iff_remaining _, ?_, ?_⟩
    · rintro _ ⟨⟩
    · rintro _ ⟨⟩
      exact ⟨rfl, hoffset, hstop.trans hend, hlt⟩
  · have hstep : take bytes position o = ⟨o, position, .ok a, next⟩ := by simp only [take, hr]
    obtain ⟨taken, hgives, hp⟩ := Operation.exists_gives ha
    rw [hstep]
    refine ⟨hp.position_le, hnext, minus?_eq_remaining hnext, isExhausted_seek hnext,
      isExhausted_iff_remaining _, ?_, ?_⟩
    · rintro _ ⟨⟩
      exact ⟨taken, slice?_of_passes hnext hp, hgives⟩
    · rintro _ ⟨⟩

theorem isSound_of_mem_all : ∀ {operations : List Operation} {position : Nat},
    position ≤ bytes.length → ∀ step ∈ all bytes position operations, step.IsSound bytes
  | [], _, _ => fun _ h => (nomatch h)
  | o :: operations, position, hle => by
    have hstep := isSound_take hle o
    rw [all, List.forall_mem_cons]
    exact ⟨hstep, isSound_of_mem_all hstep.within⟩

/-- A cursor never goes back, however many steps it takes. -/
theorem pairwise_after_all : ∀ {operations : List Operation} {position : Nat},
    position ≤ bytes.length →
      (position :: (all bytes position operations).map after).Pairwise (· ≤ ·)
  | [], _, _ => List.pairwise_singleton _ _
  | o :: operations, position, hle => by
    have hstep := isSound_take hle o
    have hrest : (_ :: (all bytes _ operations).map after).Pairwise (· ≤ ·) :=
      pairwise_after_all hstep.within
    refine List.pairwise_cons.mpr ⟨?_, hrest⟩
    rw [all, List.map_cons, List.forall_mem_cons]
    exact ⟨hstep.forward, fun last hlast =>
      Nat.le_trans hstep.forward (List.rel_of_pairwise_cons hrest hlast)⟩

theorem map_operation_all : ∀ (operations : List Operation) (position : Nat),
    (all bytes position operations).map operation = operations
  | [], _ => rfl
  | o :: operations, position => by
    rw [all, List.map_cons, map_operation_all operations]
    rfl

/-- Whatever a cursor is asked for, and in which order. The steps are those of a cursor that stays
where it is on failure, and the check in front of each may be one of words. -/
theorem isSound_all (bytes : List UInt8) (operations : List Operation) :
    (all bytes 0 operations).map operation = operations
      ∧ (∀ step ∈ all bytes 0 operations, step.IsSound bytes)
      ∧ (0 :: (all bytes 0 operations).map after).Pairwise (· ≤ ·)
      ∧ (∀ o : Operation, Motion.Mirrors o.motion o.read Prod.mk)
      ∧ ∀ offset stop n : UInt64,
        checkRoomOfWords offset stop n = checkRoom offset.toNat stop.toNat n.toNat :=
  ⟨map_operation_all operations 0, isSound_of_mem_all (Nat.zero_le _),
    pairwise_after_all (Nat.zero_le _), Operation.mirrors, checkRoomOfWords_eq⟩

/-- The first read fails behind a count that is there, and the second begins at that count. -/
example : (all [9, 1, 70, 5] 0 [.skip .objref, .take 2, .ensure 2]).map after = [0, 2, 2] := rfl

end Runs

end Step

end WellLog
