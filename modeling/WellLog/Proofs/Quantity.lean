import WellLog.Number

/-!
# Numbers as a record writes them

A number of a code is written part by part, each part from its big end; `Numeric.Holds` says which
numbers a code has. The three formats that are not IEEE 754 are written from their sign, exponent
and fraction. `Quantity` is a number of any code before it is written.

Every byte string of the width of a code is the writing of exactly one quantity of that code
(`Quantity.exists_bytes_eq`, `Quantity.eq_of_bytes_eq`), and reading it gives the number of the
quantity (`Quantity.read_bytes`).
-/

namespace WellLog

section Words

theorem toBigEndian_ofBigEndian (bytes : List UInt8) :
    toBigEndian bytes.length (ofBigEndian bytes) = bytes := by
  rw [toBigEndian, toLittleEndian_ofBigEndian, List.reverse_reverse]

theorem ofBigEndian_toBigEndian_of_lt {width n : Nat} (h : n < wordCount width) :
    ofBigEndian (toBigEndian width n) = n := by
  rw [ofBigEndian_toBigEndian, Nat.mod_eq_of_lt h]

theorem toBigEndian_inj {width m n : Nat} (hm : m < wordCount width) (hn : n < wordCount width)
    (h : toBigEndian width m = toBigEndian width n) : m = n := by
  have h' := congrArg ofBigEndian h
  rwa [ofBigEndian_toBigEndian_of_lt hm, ofBigEndian_toBigEndian_of_lt hn] at h'

theorem length_part {offset width : Nat} {bytes : List UInt8} (h : offset + width ≤ bytes.length) :
    (part offset width bytes).length = width := by
  simp only [part, List.length_take, List.length_drop]
  omega

/-- A group of two is its parts, one behind the other. -/
theorem part_append_part {width : Nat} {bytes : List UInt8} (h : bytes.length = width + width) :
    part 0 width bytes ++ part width width bytes = bytes := by
  have hd : (bytes.drop width).take width = bytes.drop width := by
    rw [List.take_of_length_le]
    simp only [List.length_drop]
    omega
  rw [part, part, List.drop_zero, hd, List.take_append_drop]

theorem part_append_part_append_part {width : Nat} {bytes : List UInt8}
    (h : bytes.length = width + width + width) :
    part 0 width bytes ++ part width width bytes ++ part (width + width) width bytes = bytes := by
  have hd : part (width + width) width bytes = bytes.drop (width + width) := by
    rw [part, List.take_of_length_le]
    simp only [List.length_drop]
    omega
  have ht : part 0 width bytes ++ part width width bytes = bytes.take (width + width) := by
    rw [List.take_add]
    rfl
  rw [hd, ht, List.take_append_drop]

@[simp] theorem swapPairs_swapPairs : ∀ bytes, swapPairs (swapPairs bytes) = bytes
  | [] => rfl
  | [_] => rfl
  | a :: b :: rest => by simp only [swapPairs, swapPairs_swapPairs rest]

@[simp] theorem length_swapPairs : ∀ bytes, (swapPairs bytes).length = bytes.length
  | [] => rfl
  | [_] => rfl
  | a :: b :: rest => by simp only [swapPairs, List.length_cons, length_swapPairs rest]

end Words

/-! ## Numbers that keep their bits -/

def Binary32.written (x : Binary32) : List UInt8 := toBigEndian 4 x.bits.toNat

def Binary64.written (x : Binary64) : List UInt8 := toBigEndian 8 x.bits.toNat

/-- The bytes of a number in a record, each part of it from its big end. -/
def Number.written : Number → List UInt8
  | .f32 x => x.written
  | .f32Pair x y => x.written ++ y.written
  | .f32Triple x y z => x.written ++ y.written ++ z.written
  | .f64 x => x.written
  | .f64Pair x y => x.written ++ y.written
  | .f64Triple x y z => x.written ++ y.written ++ z.written
  | .c32 re im => re.written ++ im.written
  | .c64 re im => re.written ++ im.written
  | .i8 n => toBigEndian 1 n.toUInt8.toNat
  | .i16 n => toBigEndian 2 n.toUInt16.toNat
  | .i32 n => toBigEndian 4 n.toUInt32.toNat
  | .u8 n => toBigEndian 1 n.toNat
  | .u16 n => toBigEndian 2 n.toNat
  | .u32 n => toBigEndian 4 n.toNat

/-- A code has the number, and the number is written with all its bits. -/
inductive Numeric.Holds : Numeric → Number → Prop where
  | fsingl (x : Binary32) : Holds .fsingl (.f32 x)
  | fsing1 (x y : Binary32) : Holds .fsing1 (.f32Pair x y)
  | fsing2 (x y z : Binary32) : Holds .fsing2 (.f32Triple x y z)
  | fdoubl (x : Binary64) : Holds .fdoubl (.f64 x)
  | fdoub1 (x y : Binary64) : Holds .fdoub1 (.f64Pair x y)
  | fdoub2 (x y z : Binary64) : Holds .fdoub2 (.f64Triple x y z)
  | csingl (re im : Binary32) : Holds .csingl (.c32 re im)
  | cdoubl (re im : Binary64) : Holds .cdoubl (.c64 re im)
  | sshort (n : Int8) : Holds .sshort (.i8 n)
  | snorm (n : Int16) : Holds .snorm (.i16 n)
  | slong (n : Int32) : Holds .slong (.i32 n)
  | ushort (n : UInt8) : Holds .ushort (.u8 n)
  | unorm (n : UInt16) : Holds .unorm (.u16 n)
  | ulong (n : UInt32) : Holds .ulong (.u32 n)
  | status (n : UInt8) : Holds .status (.u8 n)

@[simp] theorem Binary32.length_written (x : Binary32) : x.written.length = 4 :=
  length_toBigEndian ..

@[simp] theorem Binary64.length_written (x : Binary64) : x.written.length = 8 :=
  length_toBigEndian ..

@[simp] theorem Binary32.ofRecord_written (x : Binary32) : Binary32.ofRecord x.written = x := by
  have h : x.bits.toNat < wordCount 4 := x.bits.toNat_lt
  rw [ofRecord, written, ofBigEndian_toBigEndian_of_lt h, UInt32.ofNat_toNat]

@[simp] theorem Binary64.ofRecord_written (x : Binary64) : Binary64.ofRecord x.written = x := by
  have h : x.bits.toNat < wordCount 8 := x.bits.toNat_lt
  rw [ofRecord, written, ofBigEndian_toBigEndian_of_lt h, UInt64.ofNat_toNat]

theorem Binary32.written_ofRecord {bytes : List UInt8} (h : bytes.length = 4) :
    (Binary32.ofRecord bytes).written = bytes := by
  have hlt : ofBigEndian bytes < 4294967296 := by
    have hw := ofBigEndian_lt bytes
    rwa [h] at hw
  have hw := toBigEndian_ofBigEndian bytes
  rw [h] at hw
  rw [ofRecord, written, UInt32.toNat_ofNat_of_lt' hlt, hw]

theorem Binary64.written_ofRecord {bytes : List UInt8} (h : bytes.length = 8) :
    (Binary64.ofRecord bytes).written = bytes := by
  have hlt : ofBigEndian bytes < 18446744073709551616 := by
    have hw := ofBigEndian_lt bytes
    rwa [h] at hw
  have hw := toBigEndian_ofBigEndian bytes
  rw [h] at hw
  rw [ofRecord, written, UInt64.toNat_ofNat_of_lt' hlt, hw]

theorem Binary32.written_pair {bytes : List UInt8} (h : bytes.length = 8) :
    (ofRecord (part 0 4 bytes)).written ++ (ofRecord (part 4 4 bytes)).written = bytes := by
  rw [written_ofRecord (length_part (by omega)), written_ofRecord (length_part (by omega))]
  exact part_append_part h

theorem Binary32.written_triple {bytes : List UInt8} (h : bytes.length = 12) :
    (ofRecord (part 0 4 bytes)).written ++ (ofRecord (part 4 4 bytes)).written
      ++ (ofRecord (part 8 4 bytes)).written = bytes := by
  rw [written_ofRecord (length_part (by omega)), written_ofRecord (length_part (by omega)),
    written_ofRecord (length_part (by omega))]
  exact part_append_part_append_part h

theorem Binary64.written_pair {bytes : List UInt8} (h : bytes.length = 16) :
    (ofRecord (part 0 8 bytes)).written ++ (ofRecord (part 8 8 bytes)).written = bytes := by
  rw [written_ofRecord (length_part (by omega)), written_ofRecord (length_part (by omega))]
  exact part_append_part h

theorem Binary64.written_triple {bytes : List UInt8} (h : bytes.length = 24) :
    (ofRecord (part 0 8 bytes)).written ++ (ofRecord (part 8 8 bytes)).written
      ++ (ofRecord (part 16 8 bytes)).written = bytes := by
  rw [written_ofRecord (length_part (by omega)), written_ofRecord (length_part (by omega)),
    written_ofRecord (length_part (by omega))]
  exact part_append_part_append_part h

@[simp] theorem ofNat_ofBigEndian_toBigEndian_one (n : UInt8) :
    UInt8.ofNat (ofBigEndian (toBigEndian 1 n.toNat)) = n := by
  have h : n.toNat < wordCount 1 := n.toNat_lt
  rw [ofBigEndian_toBigEndian_of_lt h, UInt8.ofNat_toNat]

@[simp] theorem ofNat_ofBigEndian_toBigEndian_two (n : UInt16) :
    UInt16.ofNat (ofBigEndian (toBigEndian 2 n.toNat)) = n := by
  have h : n.toNat < wordCount 2 := n.toNat_lt
  rw [ofBigEndian_toBigEndian_of_lt h, UInt16.ofNat_toNat]

@[simp] theorem ofNat_ofBigEndian_toBigEndian_four (n : UInt32) :
    UInt32.ofNat (ofBigEndian (toBigEndian 4 n.toNat)) = n := by
  have h : n.toNat < wordCount 4 := n.toNat_lt
  rw [ofBigEndian_toBigEndian_of_lt h, UInt32.ofNat_toNat]

theorem toBigEndian_toNat_ofNat_one {bytes : List UInt8} (h : bytes.length = 1) :
    toBigEndian 1 (UInt8.ofNat (ofBigEndian bytes)).toNat = bytes := by
  have hlt := ofBigEndian_lt bytes
  have hw := toBigEndian_ofBigEndian bytes
  rw [h] at hlt hw
  rw [UInt8.toNat_ofNat_of_lt' hlt, hw]

theorem toBigEndian_toNat_ofNat_two {bytes : List UInt8} (h : bytes.length = 2) :
    toBigEndian 2 (UInt16.ofNat (ofBigEndian bytes)).toNat = bytes := by
  have hlt := ofBigEndian_lt bytes
  have hw := toBigEndian_ofBigEndian bytes
  rw [h] at hlt hw
  rw [UInt16.toNat_ofNat_of_lt' hlt, hw]

theorem toBigEndian_toNat_ofNat_four {bytes : List UInt8} (h : bytes.length = 4) :
    toBigEndian 4 (UInt32.ofNat (ofBigEndian bytes)).toNat = bytes := by
  have hlt := ofBigEndian_lt bytes
  have hw := toBigEndian_ofBigEndian bytes
  rw [h] at hlt hw
  rw [UInt32.toNat_ofNat_of_lt' hlt, hw]

namespace Numeric

variable {code : Numeric} {n : Number}

theorem Holds.length_written (h : code.Holds n) : n.written.length = code.width := by
  cases h <;> simp [Number.written, width]

/-- Reading the bytes of a number gives the number. -/
theorem Holds.read_written (h : code.Holds n) : code.read n.written = n := by
  cases h with
  | fsingl x =>
    have hx := part_single x.length_written
    simp only [read, Number.written, Nat.mul_zero, hx, Binary32.ofRecord_written]
  | fsing1 x y =>
    obtain ⟨hx, hy⟩ := part_pair x.length_written y.length_written
    simp only [read, Number.written, Nat.mul_zero, Nat.mul_one, hx, hy, Binary32.ofRecord_written]
  | fsing2 x y z =>
    obtain ⟨hx, hy, hz⟩ := part_triple x.length_written y.length_written z.length_written
    simp only [read, Number.written, Nat.mul_zero, Nat.mul_one, Nat.reduceMul, Nat.reduceAdd, hx,
      hy, hz, Binary32.ofRecord_written] at hz ⊢
  | fdoubl x =>
    have hx := part_single x.length_written
    simp only [read, Number.written, Nat.mul_zero, hx, Binary64.ofRecord_written]
  | fdoub1 x y =>
    obtain ⟨hx, hy⟩ := part_pair x.length_written y.length_written
    simp only [read, Number.written, Nat.mul_zero, Nat.mul_one, hx, hy, Binary64.ofRecord_written]
  | fdoub2 x y z =>
    obtain ⟨hx, hy, hz⟩ := part_triple x.length_written y.length_written z.length_written
    simp only [read, Number.written, Nat.mul_zero, Nat.mul_one, Nat.reduceMul, Nat.reduceAdd, hx,
      hy, hz, Binary64.ofRecord_written] at hz ⊢
  | csingl re im =>
    obtain ⟨hre, him⟩ := part_pair re.length_written im.length_written
    simp only [read, Number.written, Nat.mul_zero, Nat.mul_one, hre, him, Binary32.ofRecord_written]
  | cdoubl re im =>
    obtain ⟨hre, him⟩ := part_pair re.length_written im.length_written
    simp only [read, Number.written, Nat.mul_zero, Nat.mul_one, hre, him, Binary64.ofRecord_written]
  | sshort n => simp [read, Number.written]
  | snorm n => simp [read, Number.written]
  | slong n => simp [read, Number.written]
  | ushort n => simp [read, Number.written]
  | unorm n => simp [read, Number.written]
  | ulong n => simp [read, Number.written]
  | status n => simp [read, Number.written]

/-- The formats of the single precision numbers that are not IEEE 754. -/
def IsForeign (code : Numeric) : Prop := code = .fshort ∨ code = .isingl ∨ code = .vsingl

theorem holds_read (h : ¬code.IsForeign) (bytes : List UInt8) : code.Holds (code.read bytes) := by
  cases code <;> first | constructor | simp [IsForeign] at h

/-- Writing the number that was read gives the bytes. -/
theorem written_read (h : ¬code.IsForeign) {bytes : List UInt8}
    (hb : bytes.length = code.width) : (code.read bytes).written = bytes := by
  cases code with
  | fshort => simp [IsForeign] at h
  | isingl => simp [IsForeign] at h
  | vsingl => simp [IsForeign] at h
  | fsingl =>
    have hp : part 0 4 bytes = bytes := part_single hb
    simp only [read, Number.written, Nat.mul_zero, hp, Binary32.written_ofRecord hb]
  | fsing1 => exact Binary32.written_pair hb
  | fsing2 => exact Binary32.written_triple hb
  | fdoubl =>
    have hp : part 0 8 bytes = bytes := part_single hb
    simp only [read, Number.written, Nat.mul_zero, hp, Binary64.written_ofRecord hb]
  | fdoub1 => exact Binary64.written_pair hb
  | fdoub2 => exact Binary64.written_triple hb
  | csingl => exact Binary32.written_pair hb
  | cdoubl => exact Binary64.written_pair hb
  | sshort =>
    simp only [read, Number.written, UInt8.toUInt8_toInt8, toBigEndian_toNat_ofNat_one hb]
  | snorm =>
    simp only [read, Number.written, UInt16.toUInt16_toInt16, toBigEndian_toNat_ofNat_two hb]
  | slong =>
    simp only [read, Number.written, UInt32.toUInt32_toInt32, toBigEndian_toNat_ofNat_four hb]
  | ushort => exact toBigEndian_toNat_ofNat_one hb
  | unorm => exact toBigEndian_toNat_ofNat_two hb
  | ulong => exact toBigEndian_toNat_ofNat_four hb
  | status => exact toBigEndian_toNat_ofNat_one hb

end Numeric

/-! ## Numbers of other formats -/

/-- A signed fraction in units of `1 / 2048` and a binary exponent. -/
structure ShortFloat where
  fraction : Int
  exponent : Nat
  fraction_ge : -2048 ≤ fraction
  fraction_lt : fraction < 2048
  exponent_lt : exponent < 16

namespace ShortFloat

def word (x : ShortFloat) : Nat := 16 * (x.fraction % 4096).toNat + x.exponent

def value (x : ShortFloat) : Binary32 :=
  .nearest (decide (x.fraction < 0)) x.fraction.natAbs (x.exponent - 11 : Int)

theorem word_lt (x : ShortFloat) : x.word < 65536 := by
  have hx := x.exponent_lt
  simp only [word]
  omega

theorem word_injective {x y : ShortFloat} (h : x.word = y.word) : x = y := by
  obtain ⟨f, e, hf, hf', he⟩ := x
  obtain ⟨g, d, hg, hg', hd⟩ := y
  simp only [word] at h
  obtain rfl : e = d := by omega
  obtain rfl : f = g := by omega
  rfl

theorem exists_word_eq {n : Nat} (h : n < 65536) : ∃ x : ShortFloat, x.word = n := by
  by_cases hs : n / 16 < 2048
  · refine ⟨⟨n / 16, n % 16, by omega, by omega, by omega⟩, ?_⟩
    simp only [word]
    omega
  · refine ⟨⟨n / 16 - 4096, n % 16, by omega, by omega, by omega⟩, ?_⟩
    simp only [word]
    omega

theorem fshort_word (x : ShortFloat) : fshort (toBigEndian 2 x.word) = x.value := by
  have hw : ofBigEndian (toBigEndian 2 x.word) = x.word :=
    ofBigEndian_toBigEndian_of_lt x.word_lt
  have hge := x.fraction_ge
  have hlt := x.fraction_lt
  have hx := x.exponent_lt
  have hd : x.word / 16 = (x.fraction % 4096).toNat := by simp only [word]; omega
  have hm : x.word % 16 = x.exponent := by simp only [word]; omega
  simp only [fshort, hw, hd, hm, value]
  by_cases hn : x.fraction < 0
  · have hab : 4096 - (x.fraction % 4096).toNat = x.fraction.natAbs := by omega
    rw [if_neg (by omega), hab, decide_eq_true hn]
  · have hab : (x.fraction % 4096).toNat = x.fraction.natAbs := by omega
    rw [if_pos (by omega), hab, decide_eq_false hn]

end ShortFloat

/-- A sign, an exponent and a fraction, in a format that has so many exponents and fractions. -/
structure SignedFloat (exponents fractions : Nat) where
  negative : Bool
  exponent : Nat
  fraction : Nat
  exponent_lt : exponent < exponents
  fraction_lt : fraction < fractions

namespace SignedFloat

variable {exponents fractions : Nat}

/-- The sign above the exponent, and both above the fraction. -/
def word (x : SignedFloat exponents fractions) : Nat :=
  fractions * (exponents * x.negative.toNat + x.exponent) + x.fraction

variable (x : SignedFloat exponents fractions)

theorem word_mod : x.word % fractions = x.fraction := by
  rw [word, Nat.mul_add_mod, Nat.mod_eq_of_lt x.fraction_lt]

theorem word_div : x.word / fractions = exponents * x.negative.toNat + x.exponent := by
  have hf : 0 < fractions := Nat.zero_lt_of_lt x.fraction_lt
  rw [word, Nat.mul_add_div hf, Nat.div_eq_of_lt x.fraction_lt, Nat.add_zero]

theorem word_div_mod : x.word / fractions % exponents = x.exponent := by
  rw [word_div, Nat.mul_add_mod, Nat.mod_eq_of_lt x.exponent_lt]

theorem word_div_div : x.word / fractions / exponents = x.negative.toNat := by
  have he : 0 < exponents := Nat.zero_lt_of_lt x.exponent_lt
  rw [word_div, Nat.mul_add_div he, Nat.div_eq_of_lt x.exponent_lt, Nat.add_zero]

theorem word_lt : x.word < fractions * (exponents * 2) := by
  have hs : x.word / fractions / exponents < 2 := by
    rw [word_div_div]
    exact Bool.toNat_lt x.negative
  have he : 0 < exponents := Nat.zero_lt_of_lt x.exponent_lt
  have hf : 0 < fractions := Nat.zero_lt_of_lt x.fraction_lt
  rw [Nat.div_lt_iff_lt_mul he, Nat.div_lt_iff_lt_mul hf] at hs
  rwa [Nat.mul_comm, Nat.mul_comm exponents]

/-- The sign is the top bit. -/
theorem decide_le_word : decide (fractions * exponents ≤ x.word) = x.negative := by
  have he : 0 < exponents := Nat.zero_lt_of_lt x.exponent_lt
  have hf : 0 < fractions := Nat.zero_lt_of_lt x.fraction_lt
  have hs := x.word_div_div
  rw [Nat.div_div_eq_div_mul] at hs
  cases hn : x.negative with
  | false =>
    rw [hn, Bool.toNat_false, Nat.div_eq_zero_iff_lt (Nat.mul_pos hf he)] at hs
    exact decide_eq_false (Nat.not_le_of_lt hs)
  | true =>
    rw [hn, Bool.toNat_true] at hs
    refine decide_eq_true (Nat.le_of_not_lt fun hlt => ?_)
    rw [Nat.div_eq_of_lt hlt] at hs
    exact absurd hs Nat.zero_ne_one

variable {x}

theorem word_injective {y : SignedFloat exponents fractions} (h : x.word = y.word) : x = y := by
  have hf : x.fraction = y.fraction := by rw [← word_mod, h, word_mod]
  have he : x.exponent = y.exponent := by rw [← word_div_mod, h, word_div_mod]
  have hs : x.negative = y.negative := by rw [← decide_le_word, h, decide_le_word]
  cases x
  cases y
  simp only at hf he hs
  subst hf he hs
  rfl

theorem exists_word_eq {n : Nat} (h : n < fractions * (exponents * 2)) :
    ∃ x : SignedFloat exponents fractions, x.word = n := by
  have hf : 0 < fractions := Nat.pos_of_mul_pos_right (Nat.zero_lt_of_lt h)
  have hhigh : n / fractions < exponents * 2 := Nat.div_lt_of_lt_mul h
  have he : 0 < exponents := Nat.pos_of_mul_pos_right (Nat.zero_lt_of_lt hhigh)
  have hsign : n / fractions / exponents < 2 := Nat.div_lt_of_lt_mul hhigh
  refine ⟨⟨n / fractions / exponents == 1, n / fractions % exponents, n % fractions,
    Nat.mod_lt _ he, Nat.mod_lt _ hf⟩, ?_⟩
  have hs : (n / fractions / exponents == 1).toNat = n / fractions / exponents := by
    generalize n / fractions / exponents = sign at hsign
    obtain rfl | rfl : sign = 0 ∨ sign = 1 := by omega
    · rfl
    · rfl
  simp only [word, hs, Nat.div_add_mod]

end SignedFloat

/-- Seven bits of an exponent of sixteen and 24 of a fraction. -/
abbrev HexFloat := SignedFloat 128 0x1000000

/-- Eight bits of an exponent of two and 23 of a fraction. -/
abbrev SwappedFloat := SignedFloat 256 0x800000

namespace HexFloat

def value (x : HexFloat) : Binary32 :=
  .nearest x.negative x.fraction (4 * (x.exponent - 64 : Int) - 24)

theorem isingl_word (x : HexFloat) : isingl (toBigEndian 4 x.word) = x.value := by
  have hw : ofBigEndian (toBigEndian 4 x.word) = x.word :=
    ofBigEndian_toBigEndian_of_lt x.word_lt
  have hs : decide (0x80000000 ≤ x.word) = x.negative := x.decide_le_word
  simp only [isingl, hw, hs, x.word_div_mod, x.word_mod, value]

end HexFloat

namespace SwappedFloat

/-- Exponent zero is zero, or no number if the sign is set. -/
def value (x : SwappedFloat) : Binary32 :=
  if x.exponent = 0 then if x.negative then .nan else ⟨0⟩
  else .nearest x.negative (0x800000 + x.fraction) (x.exponent - 152 : Int)

theorem vsingl_word (x : SwappedFloat) :
    vsingl (swapPairs (toBigEndian 4 x.word)) = x.value := by
  have hw : ofBigEndian (toBigEndian 4 x.word) = x.word :=
    ofBigEndian_toBigEndian_of_lt x.word_lt
  have hs : decide (0x80000000 ≤ x.word) = x.negative := x.decide_le_word
  simp only [vsingl, swapPairs_swapPairs, hw, hs, x.word_div_mod, x.word_mod, value]

end SwappedFloat

/-- A number of some code, before it is written. -/
inductive Quantity where
  | plain (code : Numeric) (n : Number) (holds : code.Holds n)
  | fshort (x : ShortFloat)
  | isingl (x : HexFloat)
  | vsingl (x : SwappedFloat)

namespace Quantity

def code : Quantity → Numeric
  | plain code _ _ => code
  | fshort _ => .fshort
  | isingl _ => .isingl
  | vsingl _ => .vsingl

def number : Quantity → Number
  | plain _ n _ => n
  | fshort x => .f32 x.value
  | isingl x => .f32 x.value
  | vsingl x => .f32 x.value

def bytes : Quantity → List UInt8
  | plain _ n _ => n.written
  | fshort x => toBigEndian 2 x.word
  | isingl x => toBigEndian 4 x.word
  | vsingl x => swapPairs (toBigEndian 4 x.word)

@[simp] theorem length_bytes (q : Quantity) : q.bytes.length = q.code.width := by
  cases q with
  | plain code n holds => exact holds.length_written
  | fshort x => exact length_toBigEndian ..
  | isingl x => exact length_toBigEndian ..
  | vsingl x => exact (length_swapPairs _).trans (length_toBigEndian ..)

theorem read_bytes (q : Quantity) : q.code.read q.bytes = q.number := by
  cases q with
  | plain code n holds => exact holds.read_written
  | fshort x => simp only [code, bytes, number, Numeric.read, x.fshort_word]
  | isingl x => simp only [code, bytes, number, Numeric.read, x.isingl_word]
  | vsingl x => simp only [code, bytes, number, Numeric.read, x.vsingl_word]

theorem exists_bytes_eq (code : Numeric) {bytes : List UInt8} (h : bytes.length = code.width) :
    ∃ q : Quantity, q.code = code ∧ q.bytes = bytes := by
  have hlt := ofBigEndian_lt bytes
  have hw := toBigEndian_ofBigEndian bytes
  by_cases hf : code.IsForeign
  · obtain rfl | rfl | rfl := hf
    · rw [h] at hlt hw
      obtain ⟨x, hx⟩ := ShortFloat.exists_word_eq hlt
      exact ⟨fshort x, rfl, by rw [Quantity.bytes, hx]; exact hw⟩
    · rw [h] at hlt hw
      obtain ⟨x, hx⟩ : ∃ x : HexFloat, x.word = ofBigEndian bytes :=
        SignedFloat.exists_word_eq hlt
      exact ⟨isingl x, rfl, by rw [Quantity.bytes, hx]; exact hw⟩
    · have hlt := ofBigEndian_lt (swapPairs bytes)
      have hw := toBigEndian_ofBigEndian (swapPairs bytes)
      rw [length_swapPairs, h] at hlt hw
      obtain ⟨x, hx⟩ : ∃ x : SwappedFloat, x.word = ofBigEndian (swapPairs bytes) :=
        SignedFloat.exists_word_eq hlt
      refine ⟨vsingl x, rfl, ?_⟩
      rw [Quantity.bytes, hx, show toBigEndian 4 _ = swapPairs bytes from hw, swapPairs_swapPairs]
  · exact ⟨plain code (code.read bytes) (Numeric.holds_read hf bytes), rfl,
      Numeric.written_read hf h⟩

theorem eq_of_bytes_eq {q q' : Quantity} (hc : q.code = q'.code) (h : q.bytes = q'.bytes) :
    q = q' := by
  cases q with
  | plain code n holds =>
    cases q' with
    | plain code' n' holds' =>
      obtain rfl : code = code' := hc
      obtain rfl : n = n' := by
        rw [← holds.read_written, ← holds'.read_written]
        exact congrArg code.read h
      rfl
    | fshort x => cases hc; cases holds
    | isingl x => cases hc; cases holds
    | vsingl x => cases hc; cases holds
  | fshort x =>
    cases q' with
    | plain code' n' holds' => cases hc; cases holds'
    | fshort y => rw [ShortFloat.word_injective (toBigEndian_inj x.word_lt y.word_lt h)]
    | isingl y => cases hc
    | vsingl y => cases hc
  | isingl x =>
    cases q' with
    | plain code' n' holds' => cases hc; cases holds'
    | fshort y => cases hc
    | isingl y =>
      have hx : x.word < wordCount 4 := x.word_lt
      have hy : y.word < wordCount 4 := y.word_lt
      rw [SignedFloat.word_injective (toBigEndian_inj hx hy h)]
    | vsingl y => cases hc
  | vsingl x =>
    cases q' with
    | plain code' n' holds' => cases hc; cases holds'
    | fshort y => cases hc
    | isingl y => cases hc
    | vsingl y =>
      have hx : x.word < wordCount 4 := x.word_lt
      have hy : y.word < wordCount 4 := y.word_lt
      have hs := congrArg swapPairs h
      simp only [bytes, swapPairs_swapPairs] at hs
      rw [SignedFloat.word_injective (toBigEndian_inj hx hy hs)]

end Quantity

end WellLog
