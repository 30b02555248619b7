import WellLog.Cursor.Lemmas
import WellLog.Cursor.Names
import WellLog.Proofs.Reading
import WellLog.Proofs.Slicing

/-!
# Reading by offsets

A cursor holds what is left of a record, so nothing that it does can touch bytes that are not
there. A probe has the whole record and an offset into it instead, and where it would touch a byte
or take a slice that is not there, it is none. Each read of a cursor has a probe that touches the
bytes one by one as they are needed, and from every offset within the record the probe reads what
the cursor reads and ends at an offset within the record (`Probe.Tracks`): it is never none.

Probes are put together as the reads are, so this is proved for the few that touch bytes themselves
and follows for the others (`Probe.Tracks.bind`).
-/

namespace WellLog

/-- A read from an offset into the bytes of a record. It is none if it would touch bytes that are not
there, and otherwise fails or ends at another offset. -/
structure Probe (ε α : Type) where
  run : List UInt8 → Nat → Option (Except ε (α × Nat))

section Room

variable {position stop n : Nat}

theorem checkRoom_of_le (h : position + n ≤ stop) : checkRoom position stop n = .ok () := if_pos h

theorem checkRoom_of_not_le (h : ¬position + n ≤ stop) :
    checkRoom position stop n = .error ⟨position, n, stop - position⟩ := if_neg h

end Room

namespace Cursor

/-- The cursor that has come so far into the record. -/
def seek (bytes : List UInt8) (position : Nat) : Cursor := ⟨position, bytes.drop position⟩

variable {bytes : List UInt8} {position n : Nat}

theorem seek_add : seek bytes (position + n) = (seek bytes position).moved n := by
  simp only [seek, moved, List.drop_drop]

theorem seek_append (before rest : List UInt8) :
    seek (before ++ rest) before.length = ⟨before.length, rest⟩ := by
  rw [seek, List.drop_left]

theorem ensure_seek (h : position ≤ bytes.length) :
    (seek bytes position).ensure n = checkRoom position bytes.length n := by
  simp only [ensure, stop, remaining, seek, List.length_drop, Nat.add_sub_of_le h]

theorem take_seek_of_le (hle : position ≤ bytes.length) (h : position + n ≤ bytes.length) :
    (seek bytes position).take n
      = .ok ((bytes.drop position).take n, seek bytes (position + n)) := by
  rw [take, ensure_seek hle, checkRoom_of_le h]
  simp only [seek, moved, ok_bind, List.drop_drop]
  rfl

theorem take_seek_of_not_le (hle : position ≤ bytes.length) (h : ¬position + n ≤ bytes.length) :
    (seek bytes position).take n = .error ⟨position, n, bytes.length - position⟩ := by
  rw [take, ensure_seek hle, checkRoom_of_not_le h]
  rfl

end Cursor

namespace Probe

variable {ε α β γ : Type}

instance : Monad (Probe ε) where
  pure a := ⟨fun _ position => some (.ok (a, position))⟩
  bind p f := ⟨fun bytes position =>
    match p.run bytes position with
    | none => none
    | some (.error e) => some (.error e)
    | some (.ok (a, position)) => (f a).run bytes position⟩

/-- What has been taken from bytes at hand, which may not have been there. -/
def sure (a? : Option α) : Probe ε α := ⟨fun _ position => a?.map fun a => .ok (a, position)⟩

def fail (e : ε) : Probe ε α := ⟨fun _ _ => some (.error e)⟩

def here : Probe ε Nat := ⟨fun _ position => some (.ok (position, position))⟩

def move (n : Nat) : Probe ε Unit := ⟨fun _ position => some (.ok ((), position + n))⟩

def byteHere : Probe ε UInt8 :=
  ⟨fun bytes position => bytes[position]?.map fun b => .ok (b, position)⟩

def sliceHere (n : Nat) : Probe ε (List UInt8) :=
  ⟨fun bytes position =>
    (slice? bytes position (position + n)).map fun slice => .ok (slice, position)⟩

def remaining : Probe ε Nat :=
  ⟨fun bytes position => (minus? bytes.length position).map fun n => .ok (n, position)⟩

def isExhausted : Probe ε Bool :=
  ⟨fun bytes position => some (.ok (position == bytes.length, position))⟩

def ensure (n : Nat) : Probe OutOfBounds Unit :=
  ⟨fun bytes position => some ((checkRoom position bytes.length n).map fun _ => ((), position))⟩

def advance (n : Nat) : Probe OutOfBounds Unit := do
  ensure n
  move n

def take (n : Nat) : Probe OutOfBounds (List UInt8) := do
  ensure n
  let bytes ← sliceHere n
  move n
  pure bytes

def byte : Probe OutOfBounds UInt8 := do
  let bytes ← take 1
  sure bytes[0]?

/-- The next byte, which stays the next. -/
def peek : Probe OutOfBounds UInt8 := do
  ensure 1
  byteHere

def uvari : Probe OutOfBounds Nat := do
  let first ← peek
  let bytes ← take (Uvari.Width.ofFirst first).bytes
  pure (Uvari.value (.ofFirst first) bytes)

def ident : Probe OutOfBounds (List UInt8) := do
  let count ← peek
  ensure (1 + count.toNat)
  move 1
  take count.toNat

def ascii : Probe OutOfBounds (List UInt8) := do
  let count ← uvari
  take count

def skipName : Probe OutOfBounds Unit := do
  let _ ← uvari
  advance 1
  let _ ← ident
  pure ()

def skip : Code → Probe OutOfBounds Unit
  | .numeric n => advance n.width
  | .dtime => advance 8
  | .uvari | .origin => do
    let _ ← uvari
    pure ()
  | .ident | .units => do
    let _ ← ident
    pure ()
  | .ascii => do
    let _ ← ascii
    pure ()
  | .obname => skipName
  | .objref => do
    let _ ← ident
    skipName
  | .attref => do
    let _ ← ident
    skipName
    let _ ← ident
    pure ()

def originCopy : Probe OutOfBounds (Int32 × UInt8) := do
  let origin ← uvari
  let copy ← byte
  pure (Int32.ofNat origin, copy)

def objectName : Probe OutOfBounds ObjectName := do
  let (origin, copy) ← originCopy
  let id ← ident
  pure ⟨origin, copy, latin1 id⟩

def nameHead : Probe OutOfBounds (Int32 × UInt8) := do
  let head ← originCopy
  let _ ← ident
  pure head

def objectRef : Probe OutOfBounds ObjectRef := do
  let objectType ← ident
  let name ← objectName
  pure ⟨latin1 objectType, name⟩

def attributeRef : Probe OutOfBounds AttributeRef := do
  let ref ← objectRef
  let label ← ident
  pure ⟨ref.objectType, ref.name, latin1 label⟩

/-! ## Probes and cursors -/

/-- From each offset within a record the probe ends as the read of the cursor there. The read
returns what it took and the cursor behind it, put together in some way. -/
def Tracks (p : Probe ε α) (read : Cursor → Except ε β) (out : α → Cursor → β) : Prop :=
  ∀ bytes position, position ≤ bytes.length →
    (∃ e, p.run bytes position = some (.error e) ∧ read (.seek bytes position) = .error e)
      ∨ ∃ a next, next ≤ bytes.length ∧ p.run bytes position = some (.ok (a, next))
        ∧ read (.seek bytes position) = .ok (out a (.seek bytes next))

theorem tracks_pure (a : α) (out : α → Cursor → β) :
    Tracks (pure a : Probe ε α) (fun c => .ok (out a c)) out :=
  fun _ position h => .inr ⟨a, position, h, rfl, rfl⟩

/-- Behind a read the probes may rely on what it can return. -/
theorem Tracks.bind {p : Probe ε α} {read : Cursor → Except ε β} {out : α → Cursor → β}
    {f : α → Probe ε γ} {δ : Type} {g : β → Except ε δ} {out' : γ → Cursor → δ}
    (hp : Tracks p read out)
    (hf : ∀ a, (∃ c c', read c = .ok (out a c')) → Tracks (f a) (fun c => g (out a c)) out') :
    Tracks (p >>= f) (fun c => read c >>= g) out' := by
  intro bytes position h
  show _ ∨ ∃ a next, _ ∧ _ ∧ (read (.seek bytes position) >>= g) = _
  rcases hp bytes position h with ⟨e, hpe, hr⟩ | ⟨a, next, hnext, hpa, hr⟩
  · refine .inl ⟨e, ?_, ?_⟩
    · simp only [Bind.bind, hpe]
    · simp only [hr]
      rfl
  · have hbind : (p >>= f).run bytes position = (f a).run bytes next := by
      simp only [Bind.bind, hpa]
    simp only [hbind, hr, ok_bind]
    exact hf a ⟨_, _, hr⟩ bytes next hnext

/-- A read of which only the cursor behind it is used. -/
theorem Tracks.drop {p : Probe ε α} {read : Cursor → Except ε (α × Cursor)}
    (hp : Tracks p read Prod.mk) :
    Tracks (p >>= fun _ => pure ()) (fun c => read c >>= fun x => pure x.2) fun _ c => c :=
  hp.bind fun _ _ => tracks_pure () fun _ c => c

/-! ## Probes that touch bytes -/

section Steps

variable {bytes : List UInt8} {position n : Nat} {f : Unit → Probe OutOfBounds α}

theorem run_ensure_bind_of_le (h : position + n ≤ bytes.length) :
    (ensure n >>= f).run bytes position = (f ()).run bytes position := by
  simp only [Bind.bind, ensure, checkRoom_of_le h, Except.map]

theorem run_ensure_bind_of_not_le (h : ¬position + n ≤ bytes.length) :
    (ensure n >>= f).run bytes position
      = some (.error ⟨position, n, bytes.length - position⟩) := by
  simp only [Bind.bind, ensure, checkRoom_of_not_le h, Except.map]

theorem run_take_of_le (h : position + n ≤ bytes.length) :
    (take n).run bytes position = some (.ok ((bytes.drop position).take n, position + n)) := by
  rw [take, run_ensure_bind_of_le h]
  simp only [Bind.bind, sliceHere, slice?_add h, Option.map_some]
  rfl

end Steps

theorem tracks_take (n : Nat) : Tracks (take n) (Cursor.take · n) Prod.mk := by
  intro bytes position hle
  by_cases h : position + n ≤ bytes.length
  · exact .inr ⟨_, position + n, h, run_take_of_le h, Cursor.take_seek_of_le hle h⟩
  · exact .inl ⟨_, run_ensure_bind_of_not_le h, Cursor.take_seek_of_not_le hle h⟩

theorem tracks_advance (n : Nat) : Tracks (advance n) (Cursor.advance · n) fun _ c => c := by
  intro bytes position hle
  simp only [Cursor.advance_eq]
  by_cases h : position + n ≤ bytes.length
  · refine .inr ⟨(), position + n, h, run_ensure_bind_of_le h, ?_⟩
    rw [Cursor.take_seek_of_le hle h]
    rfl
  · refine .inl ⟨_, run_ensure_bind_of_not_le h, ?_⟩
    rw [Cursor.take_seek_of_not_le hle h]
    rfl

theorem tracks_peek :
    Tracks peek (fun c => c.ensure 1 >>= fun _ => .ok (c.rest.headD 0, c)) Prod.mk := by
  intro bytes position hle
  simp only [Cursor.ensure_seek hle]
  by_cases h : position + 1 ≤ bytes.length
  · refine .inr ⟨(bytes.drop position).headD 0, position, hle, ?_, ?_⟩
    · rw [peek, run_ensure_bind_of_le h, List.headD_eq_head?_getD, List.head?_drop]
      simp only [byteHere, List.getElem?_eq_getElem (Nat.lt_of_succ_le h), Option.map_some,
        Option.getD_some]
    · rw [checkRoom_of_le h]
      rfl
  · refine .inl ⟨_, run_ensure_bind_of_not_le h, ?_⟩
    rw [checkRoom_of_not_le h]
    rfl

/-- An identifier is checked with its count and taken without it. -/
theorem tracks_counted (n : Nat) :
    Tracks (do
        ensure (1 + n)
        move 1
        take n) (fun c => c.take (1 + n) >>= fun x => .ok (x.1.drop 1, x.2)) Prod.mk := by
  intro bytes position hle
  by_cases h : position + (1 + n) ≤ bytes.length
  · refine .inr ⟨(bytes.drop (position + 1)).take n, position + 1 + n, by omega, ?_, ?_⟩
    · rw [run_ensure_bind_of_le h]
      exact run_take_of_le (by omega)
    · simp only [Cursor.take_seek_of_le hle h, ok_bind, List.drop_take, List.drop_drop,
        Nat.add_sub_cancel_left, Nat.add_assoc]
  · refine .inl ⟨_, run_ensure_bind_of_not_le h, ?_⟩
    simp only [Cursor.take_seek_of_not_le hle h]
    rfl

/-! ## Probes that are put together -/

theorem tracks_uvari : Tracks uvari Cursor.uvari Prod.mk := by
  have h : Cursor.uvari = fun c => (c.ensure 1 >>= fun _ => .ok (c.rest.headD 0, c)) >>= fun x =>
      x.2.take (Uvari.Width.ofFirst x.1).bytes >>= fun y =>
        .ok (Uvari.value (.ofFirst x.1) y.1, y.2) := by
    funext c
    rw [Cursor.uvari]
    rcases c.ensure 1 with e | _ <;> rfl
  rw [h]
  refine tracks_peek.bind fun first _ => ?_
  dsimp only
  exact (tracks_take _).bind fun bytes _ => tracks_pure (Uvari.value (.ofFirst first) bytes) Prod.mk

theorem tracks_ident : Tracks ident Cursor.ident Prod.mk := by
  have h : Cursor.ident = fun c => (c.ensure 1 >>= fun _ => .ok (c.rest.headD 0, c)) >>= fun x =>
      x.2.take (1 + x.1.toNat) >>= fun y => .ok (y.1.drop 1, y.2) := by
    funext c
    rw [Cursor.ident]
    rcases c.ensure 1 with e | _ <;> rfl
  rw [h]
  exact tracks_peek.bind fun count _ => tracks_counted count.toNat

theorem tracks_ascii : Tracks ascii Cursor.ascii Prod.mk :=
  tracks_uvari.bind fun count _ => tracks_take count

theorem tracks_byte : Tracks byte Cursor.byte Prod.mk := by
  have h : Cursor.byte = fun c => c.take 1 >>= fun x => .ok (x.1.headD 0, x.2) := by
    funext c
    rw [Cursor.byte_eq]
    rcases c.take 1 with e | _ <;> rfl
  rw [h]
  refine (tracks_take 1).bind fun bytes htake => ?_
  obtain ⟨c, c', hc⟩ := htake
  obtain ⟨b, rfl⟩ := List.length_eq_one_iff.mp (Cursor.take_eq_ok_iff.mp hc).1
  exact tracks_pure b Prod.mk

theorem tracks_skipName : Tracks skipName Cursor.skipName fun _ c => c :=
  tracks_uvari.bind fun _ _ => (tracks_advance 1).bind fun _ _ => tracks_ident.drop

theorem tracks_skip (code : Code) : Tracks (skip code) (Cursor.skip · code) fun _ c => c := by
  cases code with
  | numeric n => exact tracks_advance n.width
  | dtime => exact tracks_advance 8
  | uvari => exact tracks_uvari.drop
  | origin => exact tracks_uvari.drop
  | ident => exact tracks_ident.drop
  | units => exact tracks_ident.drop
  | ascii => exact tracks_ascii.drop
  | obname => exact tracks_skipName
  | objref => exact tracks_ident.bind fun _ _ => tracks_skipName
  | attref =>
    exact tracks_ident.bind fun _ _ => tracks_skipName.bind fun _ _ => tracks_ident.drop

theorem tracks_originCopy : Tracks originCopy Cursor.originCopy Prod.mk :=
  tracks_uvari.bind fun _ _ => tracks_byte.bind fun _ _ => tracks_pure _ Prod.mk

theorem tracks_objectName : Tracks objectName Cursor.objectName Prod.mk :=
  tracks_originCopy.bind fun _ _ => tracks_ident.bind fun _ _ => tracks_pure _ Prod.mk

theorem tracks_nameHead : Tracks nameHead Cursor.nameHead Prod.mk :=
  tracks_originCopy.bind fun _ _ => tracks_ident.bind fun _ _ => tracks_pure _ Prod.mk

theorem tracks_objectRef : Tracks objectRef Cursor.objectRef Prod.mk :=
  tracks_ident.bind fun _ _ => tracks_objectName.bind fun _ _ => tracks_pure _ Prod.mk

theorem tracks_attributeRef : Tracks attributeRef Cursor.attributeRef Prod.mk :=
  tracks_objectRef.bind fun _ _ => tracks_ident.bind fun _ _ => tracks_pure _ Prod.mk

end Probe

end WellLog
