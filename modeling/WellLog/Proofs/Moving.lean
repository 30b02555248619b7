import WellLog.Proofs.Agreeing
import WellLog.Proofs.Probing

/-!
# Reading in place

A cursor that reads returns another one, and where it fails it returns none. A motion has one
offset into the record, which it changes as it goes. Where a read of several parts fails in a later
one, the offset is behind the parts that it has passed by then, unless the read has kept the offset
where it started and goes back to it.

Each read of a cursor has a motion that keeps just the offsets that it needs, and from every offset
within a record the motion does what the read of the cursor there does. Where that read fails, the
motion is back where it started (`Motion.Mirrors`).

Passing over a value and reading it come to the same place, or fail in the same way and stay where
they are, and so it is with a name that is read whole or without its identifier
(`Cursor.skip_agrees`).
-/

namespace WellLog

/-- A read that moves an offset into the bytes of a record, also where it fails. -/
structure Motion (α : Type) where
  run : List UInt8 → Nat → Except OutOfBounds α × Nat

namespace Motion

variable {α β γ δ : Type}

instance : Monad Motion where
  pure a := ⟨fun _ position => (.ok a, position)⟩
  bind m f := ⟨fun bytes position =>
    match m.run bytes position with
    | (.error e, position) => (.error e, position)
    | (.ok a, position) => (f a).run bytes position⟩

def here : Motion Nat := ⟨fun _ position => (.ok position, position)⟩

def rest : Motion (List UInt8) := ⟨fun bytes position => (.ok (bytes.drop position), position)⟩

def move (n : Nat) : Motion Unit := ⟨fun _ position => (.ok (), position + n)⟩

/-- There are fewer bytes left than are needed. -/
def short (n : Nat) : Motion α :=
  ⟨fun bytes position => (.error ⟨position, n, bytes.length - position⟩, position)⟩

def ensure (n : Nat) : Motion Unit :=
  ⟨fun bytes position => (checkRoom position bytes.length n, position)⟩

/-- Goes to an offset if the read fails. -/
def orBackTo (start : Nat) (m : Motion α) : Motion α :=
  ⟨fun bytes position =>
    match m.run bytes position with
    | (.error e, _) => (.error e, start)
    | (.ok a, position) => (.ok a, position)⟩

/-- Goes back to where the read has started if it fails. -/
def wholly (m : Motion α) : Motion α := do
  let start ← here
  m.orBackTo start

def advance (n : Nat) : Motion Unit := do
  ensure n
  move n

def take (n : Nat) : Motion (List UInt8) := do
  ensure n
  let bytes ← rest
  move n
  pure (bytes.take n)

def byte : Motion UInt8 := do
  let bytes ← take 1
  pure (bytes.headD 0)

def uvari : Motion Nat := do
  ensure 1
  let bytes ← rest
  let width := (Uvari.Width.ofFirst (bytes.headD 0)).bytes
  ensure width
  match Uvari.decode? bytes with
  | none => short width
  | some (n, consumed) =>
    move consumed
    pure n

def ident : Motion (List UInt8) := do
  ensure 1
  let bytes ← rest
  let count := (bytes.headD 0).toNat
  ensure (1 + count)
  move 1
  take count

def ascii : Motion (List UInt8) := do
  let start ← here
  let count ← uvari
  (take count).orBackTo start

def skipName : Motion Unit := do
  let _ ← uvari
  advance 1
  let _ ← ident
  pure ()

def skip : Code → Motion Unit
  | .numeric n => advance n.width
  | .dtime => advance 8
  | .uvari | .origin => wholly do
    let _ ← uvari
    pure ()
  | .ident | .units => wholly do
    let _ ← ident
    pure ()
  | .ascii => wholly do
    let _ ← ascii
    pure ()
  | .obname => wholly skipName
  | .objref => wholly do
    let _ ← ident
    skipName
  | .attref => wholly do
    let _ ← ident
    skipName
    let _ ← ident
    pure ()

def originCopy : Motion (Int32 × UInt8) := do
  let origin ← uvari
  let copy ← byte
  pure (Int32.ofNat origin, copy)

def objectName : Motion ObjectName := wholly do
  let (origin, copy) ← originCopy
  let id ← ident
  pure ⟨origin, copy, latin1 id⟩

def nameHead : Motion (Int32 × UInt8) := wholly do
  let head ← originCopy
  let _ ← ident
  pure head

def objectRef : Motion ObjectRef := wholly do
  let objectType ← ident
  let name ← objectName
  pure ⟨latin1 objectType, name⟩

def attributeRef : Motion AttributeRef := wholly do
  let ref ← objectRef
  let label ← ident
  pure ⟨ref.objectType, ref.name, latin1 label⟩

def field (identCapacity : Nat) : Code → Motion (Except Refusal Field)
  | .numeric n => do
    let bytes ← take n.width
    pure (.ok (.number (n.read bytes)))
  | .uvari | .origin => do
    let n ← uvari
    pure (.ok (.number (.i32 (Int32.ofNat n))))
  | .ident | .units => do
    let body ← ident
    pure (Field.ofIdent identCapacity body)
  | .ascii => do
    let body ← ascii
    pure (.ok (.object (.text (.decode body))))
  | .dtime => do
    let bytes ← take 8
    pure (Field.ofTime bytes)
  | .obname => do
    let name ← objectName
    pure (.ok (.object (.name name)))
  | .objref => do
    let ref ← objectRef
    pure (.ok (.object (.ref ref)))
  | .attref => do
    let ref ← attributeRef
    pure (.ok (.object (.attribute ref)))

/-! ## Motions and cursors -/

/-- From each offset within a record the motion ends as the read of the cursor there, but where it
fails it may have moved. -/
def Follows (m : Motion α) (read : Cursor → Except OutOfBounds β) (out : α → Cursor → β) : Prop :=
  ∀ bytes position, position ≤ bytes.length →
    (∃ e stop, m.run bytes position = (.error e, stop) ∧ read (.seek bytes position) = .error e)
      ∨ ∃ a next, next ≤ bytes.length ∧ m.run bytes position = (.ok a, next)
        ∧ read (.seek bytes position) = .ok (out a (.seek bytes next))

/-- The motion ends as the read of the cursor does, and where it fails it has not moved. -/
def Mirrors (m : Motion α) (read : Cursor → Except OutOfBounds β) (out : α → Cursor → β) : Prop :=
  ∀ bytes position, position ≤ bytes.length →
    (∃ e, m.run bytes position = (.error e, position)
        ∧ read (.seek bytes position) = .error e)
      ∨ ∃ a next, next ≤ bytes.length ∧ m.run bytes position = (.ok a, next)
        ∧ read (.seek bytes position) = .ok (out a (.seek bytes next))

section Relations

variable {m : Motion α} {f : α → Motion γ} {read : Cursor → Except OutOfBounds β}
  {g : β → Except OutOfBounds δ} {out : α → Cursor → β} {out' : γ → Cursor → δ}

theorem run_bind_of_error {bytes : List UInt8} {position stop : Nat} {e : OutOfBounds}
    (h : m.run bytes position = (.error e, stop)) :
    (m >>= f).run bytes position = (.error e, stop) := by
  simp only [Bind.bind, h]

theorem run_bind_of_ok {bytes : List UInt8} {position next : Nat} {a : α}
    (h : m.run bytes position = (.ok a, next)) :
    (m >>= f).run bytes position = (f a).run bytes next := by
  simp only [Bind.bind, h]

theorem Mirrors.follows (h : Mirrors m read out) : Follows m read out := by
  intro bytes position hle
  rcases h bytes position hle with ⟨e, hm, hr⟩ | hok
  · exact .inl ⟨e, position, hm, hr⟩
  · exact .inr hok

/-- Where the read of the cursor behind the first bytes fails, the motion fails and stays there. -/
theorem Mirrors.run_of_eq_error (h : Mirrors m read out) {before rest : List UInt8}
    {e : OutOfBounds} (hread : read ⟨before.length, rest⟩ = .error e) :
    m.run (before ++ rest) before.length = (.error e, before.length) := by
  rw [← Cursor.seek_append] at hread
  rcases h _ _ (Nat.le.intro List.length_append.symm) with ⟨e', hr, he⟩ | ⟨_, _, -, -, hok⟩
  · rw [hr, Except.error.inj (hread.symm.trans he)]
  · cases hread.symm.trans hok

theorem Mirrors.run_of_eq_ok (h : Mirrors m read out) {before rest : List UInt8} {b : β}
    (hread : read ⟨before.length, rest⟩ = .ok b) :
    ∃ a next, m.run (before ++ rest) before.length = (.ok a, next)
      ∧ out a (.seek (before ++ rest) next) = b := by
  rw [← Cursor.seek_append] at hread
  rcases h _ _ (Nat.le.intro List.length_append.symm) with ⟨_, -, he⟩ | ⟨a, next, -, hr, hok⟩
  · cases hread.symm.trans he
  · exact ⟨a, next, hr, Except.ok.inj (hok.symm.trans hread)⟩

theorem follows_pure (a : α) (out : α → Cursor → β) :
    Follows (pure a) (fun c => .ok (out a c)) out :=
  fun _ position hle => .inr ⟨a, position, hle, rfl, rfl⟩

theorem Follows.bind (hm : Follows m read out)
    (hf : ∀ a, Follows (f a) (fun c => g (out a c)) out') :
    Follows (m >>= f) (fun c => read c >>= g) out' := by
  intro bytes position hle
  rcases hm bytes position hle with ⟨e, stop, hr, hread⟩ | ⟨a, next, hnext, hr, hread⟩
  · refine .inl ⟨e, stop, run_bind_of_error hr, ?_⟩
    simp only [hread]
    rfl
  · simp only [run_bind_of_ok hr, hread, ok_bind]
    exact hf a bytes next hnext

/-- A read of which only the cursor behind it is used. -/
theorem Follows.drop {read : Cursor → Except OutOfBounds (α × Cursor)}
    (hm : Follows m read Prod.mk) :
    Follows (m >>= fun _ => pure ()) (fun c => read c >>= fun x => pure x.2) fun _ c => c :=
  hm.bind fun _ => follows_pure () fun _ c => c

theorem Follows.wholly (hm : Follows m read out) : Mirrors (wholly m) read out := by
  intro bytes position hle
  have hrun : (Motion.wholly m).run bytes position = (m.orBackTo position).run bytes position := rfl
  rcases hm bytes position hle with ⟨e, stop, hr, hread⟩ | ⟨a, next, hnext, hr, hread⟩
  · refine .inl ⟨e, ?_, hread⟩
    simp only [hrun, orBackTo, hr]
  · refine .inr ⟨a, next, hnext, ?_, hread⟩
    simp only [hrun, orBackTo, hr]

/-- A first part has not moved where it fails, and the second goes back to where that started. -/
theorem Mirrors.bind_orBackTo (hm : Mirrors m read out)
    (hf : ∀ a, Follows (f a) (fun c => g (out a c)) out') :
    Mirrors (here >>= fun start => m >>= fun a => (f a).orBackTo start)
      (fun c => read c >>= g) out' := by
  intro bytes position hle
  show (∃ e, (m >>= fun a => (f a).orBackTo position).run bytes position = (.error e, position) ∧ _)
    ∨ ∃ a next, _ ∧ (m >>= fun a => (f a).orBackTo position).run bytes position = _ ∧ _
  rcases hm bytes position hle with ⟨e, hr, hread⟩ | ⟨a, next, hnext, hr, hread⟩
  · refine .inl ⟨e, run_bind_of_error hr, ?_⟩
    simp only [hread]
    rfl
  · simp only [run_bind_of_ok hr, hread, ok_bind]
    rcases hf a bytes next hnext with ⟨e, stop, hr, hread⟩ | ⟨b, last, hlast, hr, hread⟩
    · exact .inl ⟨e, by simp only [orBackTo, hr], hread⟩
    · exact .inr ⟨b, last, hlast, by simp only [orBackTo, hr], hread⟩

/-- What is made of the value of a read cannot fail. -/
theorem Mirrors.map {h : β → δ} (f : α → γ) (hm : Mirrors m read out)
    (hh : ∀ a c, h (out a c) = out' (f a) c) :
    Mirrors (m >>= fun a => pure (f a)) (fun c => read c >>= fun b => pure (h b)) out' := by
  intro bytes position hle
  rcases hm bytes position hle with ⟨e, hr, hread⟩ | ⟨a, next, hnext, hr, hread⟩
  · refine .inl ⟨e, run_bind_of_error hr, ?_⟩
    simp only [hread]
    rfl
  · refine .inr ⟨f a, next, hnext, run_bind_of_ok hr, ?_⟩
    simp only [hread, ok_bind, hh]
    rfl

end Relations

/-! ## Motions that check and move -/

section Steps

variable {bytes : List UInt8} {position n : Nat} {f : Unit → Motion α}

theorem run_ensure_bind_of_le (h : position + n ≤ bytes.length) :
    (ensure n >>= f).run bytes position = (f ()).run bytes position := by
  simp only [Bind.bind, ensure, checkRoom_of_le h]

theorem run_ensure_bind_of_not_le (h : ¬position + n ≤ bytes.length) :
    (ensure n >>= f).run bytes position
      = (.error ⟨position, n, bytes.length - position⟩, position) := by
  simp only [Bind.bind, ensure, checkRoom_of_not_le h]

theorem run_take_of_le (h : position + n ≤ bytes.length) :
    (take n).run bytes position = (.ok ((bytes.drop position).take n), position + n) := by
  rw [take, run_ensure_bind_of_le h]
  rfl

end Steps

theorem mirrors_take (n : Nat) : Mirrors (take n) (Cursor.take · n) Prod.mk := by
  intro bytes position hle
  by_cases h : position + n ≤ bytes.length
  · exact .inr ⟨_, position + n, h, run_take_of_le h, Cursor.take_seek_of_le hle h⟩
  · exact .inl ⟨_, run_ensure_bind_of_not_le h, Cursor.take_seek_of_not_le hle h⟩

theorem mirrors_advance (n : Nat) : Mirrors (advance n) (Cursor.advance · n) fun _ c => c := by
  intro bytes position hle
  simp only [Cursor.advance_eq]
  by_cases h : position + n ≤ bytes.length
  · refine .inr ⟨(), position + n, h, run_ensure_bind_of_le h, ?_⟩
    rw [Cursor.take_seek_of_le hle h]
    rfl
  · refine .inl ⟨_, run_ensure_bind_of_not_le h, ?_⟩
    rw [Cursor.take_seek_of_not_le hle h]
    rfl

theorem mirrors_byte : Mirrors byte Cursor.byte Prod.mk := by
  have h : Cursor.byte = fun c => c.take 1 >>= fun x => pure (x.1.headD 0, x.2) := by
    funext c
    rw [Cursor.byte_eq]
    rcases c.take 1 with e | _ <;> rfl
  rw [h]
  exact (mirrors_take 1).map (h := fun x => (x.1.headD 0, x.2)) (·.headD 0) fun _ _ => rfl

theorem mirrors_uvari : Mirrors uvari Cursor.uvari Prod.mk := by
  intro bytes position hle
  by_cases hone : position + 1 ≤ bytes.length
  · have hensure : (Cursor.seek bytes position).ensure 1 = .ok () := by
      rw [Cursor.ensure_seek hle, checkRoom_of_le hone]
    have hu : (Cursor.seek bytes position).uvari
        = (Cursor.seek bytes position).take
            (Uvari.Width.ofFirst ((bytes.drop position).headD 0)).bytes >>= fun x =>
          pure (Uvari.value (.ofFirst ((bytes.drop position).headD 0)) x.1, x.2) := by
      rw [Cursor.uvari, hensure]
      rfl
    rw [hu, uvari, run_ensure_bind_of_le hone]
    by_cases hw : position + (Uvari.Width.ofFirst ((bytes.drop position).headD 0)).bytes
        ≤ bytes.length
    · rw [Cursor.take_seek_of_le hle hw] at hu ⊢
      -- What the cursor reads is what is decoded from the bytes behind the offset.
      have hd := (Cursor.takes_uvari.ok_iff _ _ _).mp (hu.trans (by rw [Cursor.seek_add]; rfl))
      refine .inr ⟨_, _, hw, (run_ensure_bind_of_le hw).trans ?_, rfl⟩
      rw [show Uvari.decode? (bytes.drop position) = _ from hd]
      rfl
    · refine .inl ⟨_, run_ensure_bind_of_not_le hw, ?_⟩
      rw [Cursor.take_seek_of_not_le hle hw]
      rfl
  · refine .inl ⟨_, run_ensure_bind_of_not_le hone, ?_⟩
    rw [Cursor.uvari, Cursor.ensure_seek hle, checkRoom_of_not_le hone]
    rfl

theorem mirrors_ident : Mirrors ident Cursor.ident Prod.mk := by
  intro bytes position hle
  by_cases hone : position + 1 ≤ bytes.length
  · have hensure : (Cursor.seek bytes position).ensure 1 = .ok () := by
      rw [Cursor.ensure_seek hle, checkRoom_of_le hone]
    have hi : (Cursor.seek bytes position).ident
        = (Cursor.seek bytes position).take (1 + ((bytes.drop position).headD 0).toNat) >>=
          fun x => pure (x.1.drop 1, x.2) := by
      rw [Cursor.ident, hensure]
      rfl
    rw [hi, ident, run_ensure_bind_of_le hone]
    generalize hcount : ((bytes.drop position).headD 0).toNat = count
    by_cases hc : position + (1 + count) ≤ bytes.length
    · refine .inr ⟨(bytes.drop (position + 1)).take count, position + 1 + count, by omega, ?_, ?_⟩
      · refine (run_ensure_bind_of_le (hcount ▸ hc)).trans ?_
        rw [← hcount]
        exact run_take_of_le (by omega)
      · rw [Cursor.take_seek_of_le hle hc]
        simp only [ok_bind, List.drop_take, List.drop_drop, Nat.add_sub_cancel_left, Nat.add_assoc]
        rfl
    · subst hcount
      refine .inl ⟨_, run_ensure_bind_of_not_le hc, ?_⟩
      rw [Cursor.take_seek_of_not_le hle hc]
      rfl
  · refine .inl ⟨_, run_ensure_bind_of_not_le hone, ?_⟩
    rw [Cursor.ident, Cursor.ensure_seek hle, checkRoom_of_not_le hone]
    rfl

/-! ## Motions that are put together -/

theorem mirrors_ascii : Mirrors ascii Cursor.ascii Prod.mk :=
  mirrors_uvari.bind_orBackTo fun count => (mirrors_take count).follows

theorem follows_skipName : Follows skipName Cursor.skipName fun _ c => c :=
  mirrors_uvari.follows.bind fun _ => (mirrors_advance 1).follows.bind fun _ =>
    mirrors_ident.follows.drop

theorem follows_originCopy : Follows originCopy Cursor.originCopy Prod.mk :=
  mirrors_uvari.follows.bind fun _ => mirrors_byte.follows.bind fun _ => follows_pure _ Prod.mk

theorem mirrors_objectName : Mirrors objectName Cursor.objectName Prod.mk :=
  Follows.wholly <| follows_originCopy.bind fun _ => mirrors_ident.follows.bind fun _ =>
    follows_pure _ Prod.mk

theorem mirrors_nameHead : Mirrors nameHead Cursor.nameHead Prod.mk :=
  Follows.wholly <| follows_originCopy.bind fun _ => mirrors_ident.follows.bind fun _ =>
    follows_pure _ Prod.mk

theorem mirrors_objectRef : Mirrors objectRef Cursor.objectRef Prod.mk :=
  Follows.wholly <| mirrors_ident.follows.bind fun _ => mirrors_objectName.follows.bind fun _ =>
    follows_pure _ Prod.mk

theorem mirrors_attributeRef : Mirrors attributeRef Cursor.attributeRef Prod.mk :=
  Follows.wholly <| mirrors_objectRef.follows.bind fun _ => mirrors_ident.follows.bind fun _ =>
    follows_pure _ Prod.mk

theorem mirrors_skip (code : Code) : Mirrors (skip code) (Cursor.skip · code) fun _ c => c := by
  cases code with
  | numeric n => exact mirrors_advance n.width
  | dtime => exact mirrors_advance 8
  | uvari => exact mirrors_uvari.follows.drop.wholly
  | origin => exact mirrors_uvari.follows.drop.wholly
  | ident => exact mirrors_ident.follows.drop.wholly
  | units => exact mirrors_ident.follows.drop.wholly
  | ascii => exact mirrors_ascii.follows.drop.wholly
  | obname => exact follows_skipName.wholly
  | objref => exact (mirrors_ident.follows.bind fun _ => follows_skipName).wholly
  | attref =>
    exact (mirrors_ident.follows.bind fun _ => follows_skipName.bind fun _ =>
      mirrors_ident.follows.drop).wholly

theorem mirrors_field (identCapacity : Nat) (code : Code) :
    Mirrors (field identCapacity code) (Field.read identCapacity code) Prod.mk := by
  cases code with
  | numeric n => exact (mirrors_take _).map _ fun _ _ => rfl
  | uvari => exact mirrors_uvari.map _ fun _ _ => rfl
  | origin => exact mirrors_uvari.map _ fun _ _ => rfl
  | ident => exact mirrors_ident.map _ fun _ _ => rfl
  | units => exact mirrors_ident.map _ fun _ _ => rfl
  | ascii => exact mirrors_ascii.map _ fun _ _ => rfl
  | dtime => exact (mirrors_take _).map _ fun _ _ => rfl
  | obname => exact mirrors_objectName.map _ fun _ _ => rfl
  | objref => exact mirrors_objectRef.map _ fun _ _ => rfl
  | attref => exact mirrors_attributeRef.map _ fun _ _ => rfl

/-- The type of the object has been passed when its name is found to be missing. -/
example : (skip .objref).run [9, 1, 70, 5] 1 = (.error ⟨4, 1, 0⟩, 1) := rfl

end Motion

/-! ## Passing over, reading and taking -/

theorem Cursor.skip_cases (c : Cursor) (code : Code) :
    (∃ n ≤ c.remaining, c.skip code = .ok (c.moved n)) ∨ ∃ e, c.skip code = .error e := by
  rcases hs : c.skip code with e | c'
  · exact .inr ⟨e, rfl⟩
  · obtain ⟨d, -, hp⟩ := skip_eq_ok_iff.mp hs
    obtain ⟨rfl, hle⟩ := hp.eq_moved
    exact .inl ⟨_, hle, rfl⟩

/-- What is read may be a value that no row can hold. The motions are what a cursor that stays where
it is on failure does. -/
theorem Cursor.skip_agrees (c : Cursor) (code : Code) (identCapacity : Nat) :
    ((∀ n, c.skip code = .ok (c.moved n)
          ↔ ∃ r, Field.read identCapacity code c = .ok (r, c.moved n))
        ∧ (∀ e, c.skip code = .error e ↔ Field.read identCapacity code c = .error e)
        ∧ ((∃ n ≤ c.remaining, c.skip code = .ok (c.moved n)) ∨ ∃ e, c.skip code = .error e))
      ∧ ((∀ head c', c.nameHead = .ok (head, c')
          ↔ ∃ name, c.objectName = .ok (name, c') ∧ (name.origin, name.copy) = head)
        ∧ ∀ e, c.nameHead = .error e ↔ c.objectName = .error e)
      ∧ (Takes uvari Uvari.decode? ∧ Takes ident ident? ∧ Takes ascii ascii?)
      ∧ (Motion.Mirrors (.skip code) (Cursor.skip · code) (fun _ c => c)
        ∧ Motion.Mirrors (.field identCapacity code) (Field.read identCapacity code) Prod.mk
        ∧ Motion.Mirrors .nameHead Cursor.nameHead Prod.mk
        ∧ Motion.Mirrors .objectName Cursor.objectName Prod.mk
        ∧ Motion.Mirrors .uvari Cursor.uvari Prod.mk
        ∧ Motion.Mirrors .ident Cursor.ident Prod.mk
        ∧ Motion.Mirrors .ascii Cursor.ascii Prod.mk) := by
  have hfield : (Field.read identCapacity code c).map Prod.snd = c.skip code :=
    Field.map_snd_read code
  refine ⟨⟨fun n => ?_, fun e => ?_, c.skip_cases code⟩, ⟨fun head c' => ?_, fun e => ?_⟩,
    ⟨takes_uvari, takes_ident, takes_ascii⟩, Motion.mirrors_skip code,
    Motion.mirrors_field identCapacity code, Motion.mirrors_nameHead, Motion.mirrors_objectName,
    Motion.mirrors_uvari, Motion.mirrors_ident, Motion.mirrors_ascii⟩
  · rw [← hfield]
    rcases Field.read identCapacity code c with e | ⟨r, c'⟩ <;> simp [Except.map]
  · rw [← hfield]
    rcases Field.read identCapacity code c with e | ⟨r, c'⟩ <;> simp [Except.map]
  · rw [c.nameHead_eq]
    rcases c.objectName with e | ⟨name, c'⟩ <;> simp [Except.map, and_comm]
  · rw [c.nameHead_eq]
    rcases c.objectName with e | ⟨name, c'⟩ <;> simp [Except.map]

end WellLog
