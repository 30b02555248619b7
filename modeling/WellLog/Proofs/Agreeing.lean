import WellLog.Proofs.Reading

/-!
# Readings of the same bytes agree

Numbers of variable width, identifiers and texts can be taken from the front of some bytes, or read
by a cursor that has these bytes left. Both take the same value and the same bytes, or neither takes
any (`Cursor.takes_uvari`, `Cursor.takes_ident`, `Cursor.takes_ascii`).

A name can be passed over, and it can be read whole or without its identifier. In each way the
cursor comes to the same place or fails for the same reason (`Cursor.map_snd_objectName`,
`Cursor.nameHead_eq`).
-/

namespace WellLog.Cursor

/-- The read is the decoding of the bytes that are left: it gives the value and moves behind the
bytes of it, and fails if there is none. -/
structure Takes {α : Type} (read : Cursor → Except OutOfBounds (α × Cursor))
    (decode? : List UInt8 → Option (α × Nat)) : Prop where
  ok_iff : ∀ c a n, read c = .ok (a, c.moved n) ↔ decode? c.rest = some (a, n)
  error_iff : ∀ c, (∃ e, read c = .error e) ↔ decode? c.rest = none

theorem moved_inj {c : Cursor} {m n : Nat} : c.moved m = c.moved n ↔ m = n := by
  refine ⟨fun h => ?_, fun h => h ▸ rfl⟩
  exact Nat.add_left_cancel (congrArg Cursor.position h)

theorem Passes.eq_moved {c c' : Cursor} {bytes : List UInt8} (h : c.Passes bytes c') :
    c' = c.moved bytes.length ∧ bytes.length ≤ c.remaining := by
  obtain ⟨hc, hc'⟩ := h.eq_mk
  constructor
  · rw [hc, hc']
    simp only [moved, List.drop_left]
  · rw [remaining, h.rest, List.length_append]
    exact Nat.le_add_right _ _

theorem Takes.of_toOption {α : Type} {read : Cursor → Except OutOfBounds (α × Cursor)}
    {decode? : List UInt8 → Option (α × Nat)}
    (h : ∀ c, (read c).toOption = (decode? c.rest).map fun x => (x.1, c.moved x.2)) :
    Takes read decode? := by
  constructor
  · intro c a n
    have hc := h c
    rcases hr : read c with e | x
    · rw [hr, eq_comm] at hc
      simp [Option.map_eq_none_iff.mp hc]
    · rw [hr, eq_comm] at hc
      obtain ⟨⟨b, m⟩, hd, rfl⟩ := Option.map_eq_some_iff.mp hc
      simp [hd, moved_inj]
  · intro c
    have hc := h c
    rcases hr : read c with e | x
    · rw [hr, eq_comm] at hc
      simp [Option.map_eq_none_iff.mp hc]
    · rw [hr, eq_comm] at hc
      obtain ⟨_, hd, -⟩ := Option.map_eq_some_iff.mp hc
      simp [hd]

/-! ## Values behind their width -/

theorem toOption_uvari (c : Cursor) :
    c.uvari.toOption = (Uvari.decode? c.rest).map fun x => (x.1, c.moved x.2) := by
  obtain ⟨position, _ | ⟨first, tail⟩⟩ := c
  · simp only [uvari, ensure_eq]
    rfl
  · rw [uvari, ensure_one_eq_ok_iff.mpr (List.cons_ne_nil first tail), ok_bind, Uvari.decode?]
    dsimp only [List.headD_cons]
    rw [take_eq, List.length_cons]
    split <;> rfl

theorem toOption_ident (c : Cursor) :
    c.ident.toOption = (ident? c.rest).map fun x => (x.1, c.moved x.2) := by
  obtain ⟨position, _ | ⟨count, tail⟩⟩ := c
  · simp only [ident, ensure_eq]
    rfl
  · rw [ident, ensure_one_eq_ok_iff.mpr (List.cons_ne_nil count tail), ok_bind, ident?]
    dsimp only [List.headD_cons]
    rw [take_eq, List.length_cons, Nat.add_comm 1]
    simp only [Nat.add_le_add_iff_right]
    split <;> rfl

theorem toOption_ascii (c : Cursor) :
    c.ascii.toOption = (ascii? c.rest).map fun x => (x.1, c.moved x.2) := by
  have hu := toOption_uvari c
  rw [ascii, ascii?]
  rcases hd : Uvari.decode? c.rest with _ | ⟨count, width⟩
  · rw [hd] at hu
    rcases hr : c.uvari with e | x
    · rfl
    · rw [hr] at hu
      cases hu
  · rw [hd] at hu
    rcases hr : c.uvari with e | x
    · rw [hr] at hu
      cases hu
    · rw [hr] at hu
      obtain rfl : x = (count, c.moved width) := Option.some.inj hu
      simp only [ok_bind, take_eq, Option.bind_eq_bind, Option.bind_some]
      show Except.toOption (if count ≤ (c.rest.drop width).length then _ else _) = _
      split
      · simp only [moved, List.drop_drop, Nat.add_assoc]
        rfl
      · rfl

theorem takes_uvari : Takes uvari Uvari.decode? := .of_toOption toOption_uvari

theorem takes_ident : Takes ident ident? := .of_toOption toOption_ident

theorem takes_ascii : Takes ascii ascii? := .of_toOption toOption_ascii

/-! ## Names -/

theorem nameHead_eq (c : Cursor) :
    c.nameHead = c.objectName.map fun x => ((x.1.origin, x.1.copy), x.2) := by
  rw [nameHead, objectName]
  rcases c.originCopy with _ | ⟨⟨origin, copy⟩, c⟩
  · rfl
  · show (c.ident >>= _) = Except.map _ (c.ident >>= _)
    rcases c.ident with _ | ⟨_, _⟩ <;> rfl

theorem map_snd_nameHead (c : Cursor) : c.nameHead.map Prod.snd = c.skipName := by
  rw [nameHead_eq, ← map_snd_objectName]
  cases c.objectName <;> rfl

end WellLog.Cursor
