import WellLog.Cursor

/-!
# What reads do to a cursor

Every read comes down to `Cursor.take`, which is one comparison (`Cursor.take_eq`). On the encoding
of a value each read returns that value and stops right behind it, wherever the encoding stands and
whatever follows it (`Cursor.uvari_encode`, `Cursor.ident_encodeIdent`,
`Cursor.ascii_encodeAscii`).
-/

namespace WellLog.Cursor

variable (c : Cursor)

theorem ensure_eq (n : Nat) :
    c.ensure n = if n ≤ c.rest.length then .ok () else .error ⟨c.position, n, c.rest.length⟩ := by
  simp only [ensure, checkRoom, stop, remaining, Nat.add_le_add_iff_left, Nat.add_sub_cancel_left]

theorem take_eq (n : Nat) :
    c.take n = if n ≤ c.rest.length then .ok (c.rest.take n, c.moved n)
      else .error ⟨c.position, n, c.rest.length⟩ := by
  rw [take, ensure_eq]
  split <;> rfl

theorem advance_eq (n : Nat) : c.advance n = (c.take n).map Prod.snd := by
  rw [take, advance, ensure_eq]
  split <;> rfl

theorem byte_eq : c.byte = (c.take 1).map fun (bytes, c) => (bytes.headD 0, c) := by
  rw [take, byte, ensure_eq]
  split
  · cases h : c.rest <;> simp [bind, Except.bind, pure, Except.pure, Except.map]
  · rfl

theorem stop_moved {n : Nat} (h : n ≤ c.rest.length) : (c.moved n).stop = c.stop := by
  simp only [stop, moved, remaining, List.length_drop]
  omega

section Encodings

variable (position : Nat) (rest : List UInt8)

theorem take_append {bytes : List UInt8} {n : Nat} (h : bytes.length = n) :
    take ⟨position, bytes ++ rest⟩ n = .ok (bytes, ⟨position + n, rest⟩) := by
  subst h
  simp [take_eq, moved]

theorem uvari_encode {width : Uvari.Width} {n : Nat} (h : n < width.limit) :
    uvari ⟨position, Uvari.encode width n ++ rest⟩ = .ok (n, ⟨position + width.bytes, rest⟩) := by
  obtain ⟨first, tail, eq, hw⟩ := Uvari.encode_eq_cons h
  have ht := take_append position rest (Uvari.length_encode width n)
  have he : ensure ⟨position, Uvari.encode width n ++ rest⟩ 1 = .ok () := by
    rw [ensure_eq, if_pos]
    simp [eq]
  have hf : (Uvari.encode width n ++ rest).headD 0 = first := by simp [eq]
  simp only [uvari, he, hf, hw]
  simp only [bind, Except.bind, ht, Uvari.value_encode h]
  rfl

theorem ident_encodeIdent {body : List UInt8} (h : body.length < 256) :
    ident ⟨position, encodeIdent body ++ rest⟩ =
      .ok (body, ⟨position + (1 + body.length), rest⟩) := by
  have hn : (UInt8.ofNat body.length).toNat = body.length := by
    rw [UInt8.toNat_ofNat', Nat.mod_eq_of_lt h]
  have hl : (encodeIdent body).length = 1 + body.length := by simp [encodeIdent, Nat.add_comm]
  have ht := take_append position rest hl
  have he : ensure ⟨position, encodeIdent body ++ rest⟩ 1 = .ok () := by
    rw [ensure_eq, if_pos]
    simp [encodeIdent]
  have hf : ((encodeIdent body ++ rest).headD 0).toNat = body.length := by simp [encodeIdent, hn]
  simp only [ident, he, hf]
  simp only [bind, Except.bind, ht]
  rfl

theorem ascii_encodeAscii {width : Uvari.Width} {body : List UInt8}
    (h : body.length < width.limit) :
    ascii ⟨position, encodeAscii width body ++ rest⟩ =
      .ok (body, ⟨position + width.bytes + body.length, rest⟩) := by
  have hu := uvari_encode position (body ++ rest) h
  have ht := take_append (position + width.bytes) rest (rfl : body.length = body.length)
  rw [encodeAscii, List.append_assoc, ascii]
  simp only [bind, Except.bind, hu, ht]

end Encodings

end WellLog.Cursor
