/-!
# Words of bytes

A word is a number written in base 256. A byte string read from its big end and written again from
its little end comes out reversed (`toLittleEndian_ofBigEndian`), and writing and reading a number
of at most `width` digits gives the number back (`ofLittleEndian_toLittleEndian`,
`ofBigEndian_toBigEndian`).
-/

namespace WellLog

/-- The number whose base-256 digits are the bytes, the most significant one first. -/
def ofBigEndian (bytes : List UInt8) : Nat :=
  bytes.foldl (fun n b => 256 * n + b.toNat) 0

/-- The number whose base-256 digits are the bytes, the least significant one first. -/
def ofLittleEndian : List UInt8 → Nat
  | [] => 0
  | b :: bs => b.toNat + 256 * ofLittleEndian bs

/-- How many numbers have at most `width` base-256 digits. -/
def wordCount : Nat → Nat
  | 0 => 1
  | width + 1 => 256 * wordCount width

/-- The last `width` base-256 digits of a number, the least significant one first. -/
def toLittleEndian : Nat → Nat → List UInt8
  | 0, _ => []
  | width + 1, n => UInt8.ofNat n :: toLittleEndian width (n / 256)

def toBigEndian (width n : Nat) : List UInt8 :=
  (toLittleEndian width n).reverse

@[simp] theorem length_toLittleEndian : ∀ width n, (toLittleEndian width n).length = width
  | 0, _ => rfl
  | width + 1, n => by simp [toLittleEndian, length_toLittleEndian width]

@[simp] theorem length_toBigEndian (width n : Nat) : (toBigEndian width n).length = width := by
  simp [toBigEndian]

theorem ofBigEndian_concat (bytes : List UInt8) (b : UInt8) :
    ofBigEndian (bytes ++ [b]) = 256 * ofBigEndian bytes + b.toNat := by
  simp [ofBigEndian]

theorem ofBigEndian_reverse : ∀ bytes, ofBigEndian bytes.reverse = ofLittleEndian bytes
  | [] => rfl
  | b :: bs => by
    simp only [List.reverse_cons, ofBigEndian_concat, ofBigEndian_reverse bs, ofLittleEndian]
    omega

theorem ofLittleEndian_lt : ∀ bytes, ofLittleEndian bytes < wordCount bytes.length
  | [] => Nat.zero_lt_one
  | b :: bs => by
    have hb := b.toNat_lt
    have hbs := ofLittleEndian_lt bs
    simp only [ofLittleEndian, List.length_cons, wordCount]
    omega

theorem ofBigEndian_lt (bytes : List UInt8) : ofBigEndian bytes < wordCount bytes.length := by
  simpa [← ofBigEndian_reverse] using ofLittleEndian_lt bytes.reverse

theorem toLittleEndian_ofLittleEndian :
    ∀ bytes, toLittleEndian bytes.length (ofLittleEndian bytes) = bytes
  | [] => rfl
  | b :: bs => by
    have hb := b.toNat_lt
    have hd : (b.toNat + 256 * ofLittleEndian bs) / 256 = ofLittleEndian bs := by omega
    simp only [List.length_cons, toLittleEndian, ofLittleEndian, hd,
      toLittleEndian_ofLittleEndian bs, List.cons.injEq, and_true]
    apply UInt8.toNat_inj.mp
    simp only [UInt8.toNat_ofNat']
    omega

theorem toLittleEndian_ofBigEndian (bytes : List UInt8) :
    toLittleEndian bytes.length (ofBigEndian bytes) = bytes.reverse := by
  have h := toLittleEndian_ofLittleEndian bytes.reverse
  simpa [← ofBigEndian_reverse] using h

theorem ofLittleEndian_toLittleEndian :
    ∀ width n, ofLittleEndian (toLittleEndian width n) = n % wordCount width
  | 0, n => (Nat.mod_one n).symm
  | width + 1, n => by
    simp only [toLittleEndian, ofLittleEndian, ofLittleEndian_toLittleEndian width,
      UInt8.toNat_ofNat', wordCount, Nat.mod_mul]

theorem ofBigEndian_toBigEndian (width n : Nat) :
    ofBigEndian (toBigEndian width n) = n % wordCount width := by
  rw [toBigEndian, ofBigEndian_reverse, ofLittleEndian_toLittleEndian]

end WellLog
