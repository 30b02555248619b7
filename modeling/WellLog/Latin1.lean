/-!
# Identifiers as text

An identifier is written in Latin-1: each byte is the character of the same number. Nothing is lost
on the way, since the bytes can be read off the text again (`map_toNat_latin1`,
`latin1_injective`).
-/

namespace WellLog

/-- The text whose characters have the bytes as their numbers. -/
def latin1 (bytes : List UInt8) : String := String.ofList (bytes.map Char.ofUInt8)

@[simp] theorem toList_latin1 (bytes : List UInt8) :
    (latin1 bytes).toList = bytes.map Char.ofUInt8 := by
  simp [latin1]

theorem map_toNat_latin1 (bytes : List UInt8) :
    (latin1 bytes).toList.map Char.toNat = bytes.map UInt8.toNat := by
  rw [toList_latin1, List.map_map]
  exact List.map_congr_left fun _ _ => rfl

theorem latin1_injective {a b : List UInt8} (h : latin1 a = latin1 b) : a = b := by
  have hm : a.map UInt8.toNat = b.map UInt8.toNat := by
    rw [← map_toNat_latin1, ← map_toNat_latin1, h]
  exact (List.map_inj_right fun _ _ => UInt8.toNat_inj.mp).mp hm

end WellLog
