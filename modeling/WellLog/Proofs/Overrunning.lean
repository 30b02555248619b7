import WellLog.Proofs.Agreeing

/-!
# Reads that run over the end

A read fails only where bytes are missing. However many parts it has, what it says then is true of
the record: the offset is not in front of the read, what is available there goes to the end of the
record, and more is needed (`Cursor.overruns_skip`, `Cursor.overruns_read`).
-/

namespace WellLog.Cursor

/-- If the read fails, it needs more than there is left behind an offset that it has come to. -/
def Overruns {α : Type} (c : Cursor) (x : Except OutOfBounds α) : Prop :=
  ∀ e, x = .error e →
    c.position ≤ e.offset ∧ e.offset + e.available = c.stop ∧ e.available < e.needed

variable {α β : Type} {c c' : Cursor} {bytes : List UInt8}

theorem Passes.stop_eq (h : c.Passes bytes c') : c'.stop = c.stop := by
  rw [stop, stop, remaining, remaining, h.rest, h.position, List.length_append, Nat.add_assoc]

theorem Passes.position_le (h : c.Passes bytes c') : c.position ≤ c'.position := by
  rw [h.position]
  exact Nat.le_add_right _ _

theorem Overruns.of_passes {x : Except OutOfBounds α} (h : c'.Overruns x)
    (hp : c.Passes bytes c') : c.Overruns x := by
  intro e he
  obtain ⟨hposition, hstop, hlt⟩ := h e he
  exact ⟨Nat.le_trans hp.position_le hposition, hstop.trans hp.stop_eq, hlt⟩

theorem overruns_ok (a : α) : c.Overruns (.ok a) := fun _ he => (nomatch he)

theorem Overruns.bind {x : Except OutOfBounds α} {f : α → Except OutOfBounds β}
    (hx : c.Overruns x) (hf : ∀ a, x = .ok a → c.Overruns (f a)) : c.Overruns (x >>= f) := by
  intro e he
  rcases bind_eq_error_iff.mp he with he | ⟨a, ha, he⟩
  · exact hx e he
  · exact hf a ha e he

theorem overruns_map_iff {x : Except OutOfBounds α} {f : α → β} :
    c.Overruns (x.map f) ↔ c.Overruns x := by
  rcases x with e | a
  · simp only [Overruns, Except.map, Except.error.injEq]
  · exact ⟨fun _ => overruns_ok a, fun _ => overruns_ok (f a)⟩

/-! ## Reads of one value -/

theorem overruns_take (n : Nat) : c.Overruns (c.take n) := by
  intro e he
  rw [take_eq] at he
  split at he
  · cases he
  · next hn =>
    cases he
    exact ⟨Nat.le_refl _, rfl, Nat.lt_of_not_le hn⟩

theorem overruns_ensure (n : Nat) : c.Overruns (c.ensure n) := by
  have h : c.ensure n = (c.take n).map fun _ => () := by
    rw [ensure_eq, take_eq]
    split <;> rfl
  rw [h, overruns_map_iff]
  exact overruns_take n

theorem overruns_advance (n : Nat) : c.Overruns (c.advance n) := by
  rw [advance]
  exact (overruns_ensure n).bind fun _ _ => overruns_ok _

theorem overruns_uvari : c.Overruns c.uvari :=
  (overruns_ensure 1).bind fun _ _ => (overruns_take _).bind fun _ _ => overruns_ok _

theorem overruns_ident : c.Overruns c.ident :=
  (overruns_ensure 1).bind fun _ _ => (overruns_take _).bind fun _ _ => overruns_ok _

theorem overruns_ascii : c.Overruns c.ascii := by
  refine overruns_uvari.bind fun ⟨count, c'⟩ hu => ?_
  obtain ⟨_, -, hp⟩ := uvari_eq_ok_iff.mp hu
  exact (overruns_take count).of_passes hp

/-! ## Reads of several parts -/

theorem overruns_skipName : c.Overruns c.skipName := by
  refine overruns_uvari.bind fun ⟨_, c₁⟩ hu => ?_
  obtain ⟨_, -, hp⟩ := uvari_eq_ok_iff.mp hu
  refine Overruns.of_passes ?_ hp
  refine (overruns_advance 1).bind fun c₂ ha => ?_
  obtain ⟨_, -, hp⟩ := advance_eq_ok_iff.mp ha
  exact Overruns.of_passes (overruns_ident.bind fun _ _ => overruns_ok _) hp

theorem overruns_skip (code : Code) : c.Overruns (c.skip code) := by
  cases code with
  | numeric n => exact overruns_advance n.width
  | dtime => exact overruns_advance 8
  | uvari | origin => exact overruns_uvari.bind fun _ _ => overruns_ok _
  | ident | units => exact overruns_ident.bind fun _ _ => overruns_ok _
  | ascii => exact overruns_ascii.bind fun _ _ => overruns_ok _
  | obname => exact overruns_skipName
  | objref =>
    refine overruns_ident.bind fun ⟨_, c₁⟩ hi => ?_
    obtain ⟨_, -, hp⟩ := ident_eq_ok_iff.mp hi
    exact overruns_skipName.of_passes hp
  | attref =>
    refine overruns_ident.bind fun ⟨_, c₁⟩ hi => ?_
    obtain ⟨_, -, hp⟩ := ident_eq_ok_iff.mp hi
    refine Overruns.of_passes ?_ hp
    refine overruns_skipName.bind fun c₂ hs => ?_
    obtain ⟨_, hp⟩ := skipName_eq_ok_iff.mp hs
    exact Overruns.of_passes (overruns_ident.bind fun _ _ => overruns_ok _) hp

theorem overruns_skipSpan {c : Cursor} : ∀ span : Span, c.Overruns (span.skip c)
  | [] => overruns_ok c
  | code :: span => by
    refine (overruns_skip code).bind fun c' hs => ?_
    obtain ⟨_, -, hp⟩ := skip_eq_ok_iff.mp hs
    exact (overruns_skipSpan span).of_passes hp

/-- What is only read for its value ends where passing over it does. -/
theorem overruns_read (identCapacity : Nat) (code : Code) :
    c.Overruns (Field.read identCapacity code c) := by
  rw [← overruns_map_iff (f := Prod.snd), Field.map_snd_read]
  exact overruns_skip code

theorem overruns_nameHead : c.Overruns c.nameHead := by
  rw [← overruns_map_iff (f := Prod.snd), map_snd_nameHead]
  exact overruns_skipName

theorem overruns_objectName : c.Overruns c.objectName := by
  rw [← overruns_map_iff (f := Prod.snd), map_snd_objectName]
  exact overruns_skipName

theorem overruns_objectRef : c.Overruns c.objectRef := by
  refine overruns_ident.bind fun ⟨_, c₁⟩ hi => ?_
  obtain ⟨_, -, hp⟩ := ident_eq_ok_iff.mp hi
  exact Overruns.of_passes (overruns_objectName.bind fun _ _ => overruns_ok _) hp

theorem overruns_attributeRef : c.Overruns c.attributeRef := by
  refine overruns_objectRef.bind fun ⟨_, c₁⟩ hr => ?_
  obtain ⟨_, _, -, hp⟩ := objectRef_eq_ok_iff.mp hr
  exact Overruns.of_passes (overruns_ident.bind fun _ _ => overruns_ok _) hp

end WellLog.Cursor
