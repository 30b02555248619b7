import WellLog.Uvari

/-!
# Bytes behind their count

An identifier is its length in one byte and then that many bytes; a text counts its bytes by a
number of variable width. Both are read whole or not at all.
-/

namespace WellLog

/-- The body of the identifier at the start of the bytes, and the bytes that it takes in all. -/
def ident? : List UInt8 → Option (List UInt8 × Nat)
  | [] => none
  | count :: rest =>
    if count.toNat ≤ rest.length then some (rest.take count.toNat, 1 + count.toNat) else none

def ascii? (bytes : List UInt8) : Option (List UInt8 × Nat) := do
  let (count, width) ← Uvari.decode? bytes
  let rest := bytes.drop width
  if count ≤ rest.length then some (rest.take count, width + count) else none

/-- An identifier of a body of at most 255 bytes. -/
def encodeIdent (body : List UInt8) : List UInt8 := UInt8.ofNat body.length :: body

/-- A text, its length written in a width that can hold it. -/
def encodeAscii (width : Uvari.Width) (body : List UInt8) : List UInt8 :=
  Uvari.encode width body.length ++ body

theorem ident?_encodeIdent {body : List UInt8} (h : body.length < 256) (rest : List UInt8) :
    ident? (encodeIdent body ++ rest) = some (body, (encodeIdent body).length) := by
  have hn : (UInt8.ofNat body.length).toNat = body.length := by
    rw [UInt8.toNat_ofNat', Nat.mod_eq_of_lt h]
  simp [ident?, encodeIdent, hn, Nat.add_comm]

theorem ascii?_encodeAscii {width : Uvari.Width} {body : List UInt8} (h : body.length < width.limit)
    (rest : List UInt8) :
    ascii? (encodeAscii width body ++ rest) = some (body, (encodeAscii width body).length) := by
  have hd : (Uvari.encode width body.length ++ (body ++ rest)).drop width.bytes = body ++ rest := by
    rw [← Uvari.length_encode width body.length, List.drop_left]
  simp [ascii?, encodeAscii, Uvari.decode?_encode h, hd]

end WellLog
