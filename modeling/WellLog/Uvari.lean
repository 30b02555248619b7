import WellLog.Word

/-!
# Numbers of variable width

A number below `2 ^ 30` is written from the big end in one, two or four bytes; the top bits of the
first byte announce which. A number may be written in any width that can hold it, so it has several
encodings, and every one of them is read back, whatever follows it (`Uvari.decode?_encode`).
-/

namespace WellLog.Uvari

inductive Width where
  | one | two | four
  deriving DecidableEq, Repr

namespace Width

def bytes : Width → Nat
  | one => 1
  | two => 2
  | four => 4

/-- The numbers that fit are those below the limit. -/
def limit : Width → Nat
  | one => 0x80
  | two => 0x4000
  | four => 0x40000000

def mark : Width → Nat
  | one => 0
  | two => 0x8000
  | four => 0xc0000000

def ofFirst (first : UInt8) : Width :=
  if first < 0x80 then one else if first < 0xc0 then two else four

end Width

def value (width : Width) (bytes : List UInt8) : Nat := ofBigEndian bytes % width.limit

/-- The number at the start of the bytes and how many of them it takes. -/
def decode? : List UInt8 → Option (Nat × Nat)
  | [] => none
  | first :: rest =>
    let width := Width.ofFirst first
    if width.bytes ≤ rest.length + 1 then
      some (value width ((first :: rest).take width.bytes), width.bytes)
    else none

def encode (width : Width) (n : Nat) : List UInt8 := toBigEndian width.bytes (width.mark + n)

@[simp] theorem length_encode (width : Width) (n : Nat) : (encode width n).length = width.bytes :=
  length_toBigEndian ..

theorem value_encode {width : Width} {n : Nat} (h : n < width.limit) :
    value width (encode width n) = n := by
  rw [value, encode, ofBigEndian_toBigEndian]
  cases width <;> simp only [Width.bytes, Width.mark, Width.limit, wordCount] at h ⊢ <;> omega

theorem encode_eq_cons {width : Width} {n : Nat} (h : n < width.limit) :
    ∃ first rest, encode width n = first :: rest ∧ Width.ofFirst first = width := by
  cases width <;> simp only [Width.limit] at h
  · refine ⟨UInt8.ofNat (0 + n), [], rfl, ?_⟩
    simp only [Width.ofFirst, UInt8.lt_iff_toNat_lt, UInt8.toNat_ofNat', UInt8.reduceToNat]
    rw [if_pos (by omega)]
  · refine ⟨UInt8.ofNat ((0x8000 + n) / 256), [UInt8.ofNat (0x8000 + n)], rfl, ?_⟩
    simp only [Width.ofFirst, UInt8.lt_iff_toNat_lt, UInt8.toNat_ofNat', UInt8.reduceToNat]
    rw [if_neg (by omega), if_pos (by omega)]
  · refine ⟨UInt8.ofNat ((0xc0000000 + n) / 256 / 256 / 256), _, rfl, ?_⟩
    simp only [Width.ofFirst, UInt8.lt_iff_toNat_lt, UInt8.toNat_ofNat', UInt8.reduceToNat]
    rw [if_neg (by omega), if_neg (by omega)]

theorem decode?_encode {width : Width} {n : Nat} (h : n < width.limit) (rest : List UInt8) :
    decode? (encode width n ++ rest) = some (n, width.bytes) := by
  obtain ⟨first, tail, eq, hw⟩ := encode_eq_cons h
  have hl : tail.length + 1 = width.bytes := by rw [← length_encode width n, eq, List.length_cons]
  have ht : (first :: (tail ++ rest)).take width.bytes = encode width n := by
    rw [← List.cons_append, ← eq, ← length_encode width n, List.take_left]
  have hle : width.bytes ≤ (tail ++ rest).length + 1 := by rw [List.length_append]; omega
  rw [eq, List.cons_append, decode?, hw, if_pos hle, ht, value_encode h]

end WellLog.Uvari
