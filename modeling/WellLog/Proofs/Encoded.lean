import WellLog.Text.Repair

/-!
# Characters in UTF-8

The bytes of a text are those of its characters, one behind the other (`utf8_eq_flatMap`). A
character begins with a byte of a kind that stands nowhere else in it
(`exists_utf8EncodeChar_eq_cons`), and its bytes say where it ends (`utf8EncodeChar_append_inj`).
-/

namespace WellLog

open String (utf8EncodeChar)

theorem utf8_ofList (cs : List Char) : utf8 (String.ofList cs) = cs.flatMap utf8EncodeChar := by
  rw [utf8, String.toByteArray_ofList, List.utf8Encode, List.toList_data_toByteArray]

theorem utf8_eq_flatMap (s : String) : utf8 s = s.toList.flatMap utf8EncodeChar := by
  rw [← utf8_ofList, String.ofList_toList]

/-- The first byte could begin a character, and the later ones could not. -/
theorem exists_utf8EncodeChar_eq_cons (c : Char) :
    ∃ first tail, utf8EncodeChar c = first :: tail ∧ first.IsUTF8FirstByte
      ∧ ∀ b ∈ tail, ¬b.IsUTF8FirstByte := by
  obtain ⟨first, tail, h⟩ := List.exists_cons_of_ne_nil (String.utf8EncodeChar_ne_nil (c := c))
  have hi : ∀ i (hi : i < (utf8EncodeChar c).length),
      ((utf8EncodeChar c).get ⟨i, hi⟩).IsUTF8FirstByte ↔ i = 0 := fun i hi =>
    UInt8.isUTF8FirstByte_getElem_utf8EncodeChar
  refine ⟨first, tail, h, ?_, fun b hb => ?_⟩
  · simpa [h] using hi 0 (by simp [h])
  · obtain ⟨i, hlt, rfl⟩ := List.mem_iff_getElem.mp hb
    have := hi (i + 1) (by simp [h]; omega)
    simpa [h] using this

/-- No character begins as another does in full. -/
theorem utf8EncodeChar_append_inj {c d : Char} {r s : List UInt8}
    (h : utf8EncodeChar c ++ r = utf8EncodeChar d ++ s) : c = d ∧ r = s := by
  have hc := ByteArray.utf8DecodeChar?_utf8EncodeChar_append (b := r.toByteArray) (c := c)
  have hd := ByteArray.utf8DecodeChar?_utf8EncodeChar_append (b := s.toByteArray) (c := d)
  rw [← List.toByteArray_append] at hc hd
  rw [h, hd] at hc
  obtain rfl := Option.some.inj hc
  exact ⟨rfl, List.append_cancel_left h⟩

end WellLog
