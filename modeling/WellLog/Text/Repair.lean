/-!
# Texts of a record

A text should be UTF-8. Some writers put a degree sign into it as the single byte of Latin-1, so a
text that is not well-formed gets a second reading with each such byte replaced by the two bytes of
the character. What is not well-formed even then is kept as bytes.

The first reading accepts exactly the encodings of texts (`ofUtf8?_eq_some_iff`), so a well-formed
text is never changed (`RecordText.decode_utf8`).
-/

namespace WellLog

def ofUtf8? (bytes : List UInt8) : Option String := String.fromUTF8? ⟨bytes.toArray⟩

def utf8 (s : String) : List UInt8 := s.toByteArray.data.toList

theorem ofUtf8?_eq_some_iff {bytes : List UInt8} {s : String} :
    ofUtf8? bytes = some s ↔ bytes = utf8 s := by
  constructor
  · intro h
    unfold ofUtf8? String.fromUTF8? at h
    split at h
    · simp only [Option.some.injEq] at h
      subst h
      simp [utf8, String.fromUTF8]
    · contradiction
  · intro h
    have hb : (⟨bytes.toArray⟩ : ByteArray) = s.toByteArray := by simp [h, utf8]
    unfold ofUtf8? String.fromUTF8?
    simp only [hb, s.isValidUTF8, dif_pos]
    rfl

def degree : UInt8 := 0xb0

/-- Each byte that is a degree sign in Latin-1 becomes the two bytes of one in UTF-8. -/
def widenDegrees (bytes : List UInt8) : List UInt8 :=
  bytes.flatMap fun b => if b = degree then [0xc2, 0xb0] else [b]

inductive RecordText where
  | text (s : String)
  | bytes (raw : List UInt8)
  deriving DecidableEq, Repr

namespace RecordText

def decode (raw : List UInt8) : RecordText :=
  match ofUtf8? raw with
  | some s => text s
  | none =>
    match ofUtf8? (widenDegrees raw) with
    | some s => text s
    | none => bytes raw

def text? : RecordText → Option String
  | text s => some s
  | bytes _ => none

theorem decode_utf8 (s : String) : decode (utf8 s) = text s := by
  rw [decode, ofUtf8?_eq_some_iff.mpr rfl]

end RecordText

end WellLog
