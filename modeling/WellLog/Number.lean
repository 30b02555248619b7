import WellLog.Binary32
import WellLog.Code
import WellLog.Word

/-!
# Numbers in records and in slots

A record holds its numbers from the big end, a slot of a row from the little end. The three short
floating-point formats that are not IEEE 754 are converted to the single format on the way, with
one rounding; every other number keeps its bits.

`Numeric.read` takes a number from a record, `Number.image` is its slot, and `Numeric.ofImage` reads
the slot back: the image has the width of the slot (`Numeric.length_image_read`) and reading it
back gives the number (`Numeric.ofImage_image_read`).
-/

namespace WellLog

inductive Number where
  | f32 (x : Binary32)
  | f32Pair (x y : Binary32)
  | f32Triple (x y z : Binary32)
  | f64 (x : Binary64)
  | f64Pair (x y : Binary64)
  | f64Triple (x y z : Binary64)
  | c32 (re im : Binary32)
  | c64 (re im : Binary64)
  | i8 (n : Int8)
  | i16 (n : Int16)
  | i32 (n : Int32)
  | u8 (n : UInt8)
  | u16 (n : UInt16)
  | u32 (n : UInt32)
  deriving DecidableEq, Repr

def Binary32.ofRecord (bytes : List UInt8) : Binary32 := ⟨UInt32.ofNat (ofBigEndian bytes)⟩

def Binary64.ofRecord (bytes : List UInt8) : Binary64 := ⟨UInt64.ofNat (ofBigEndian bytes)⟩

def Binary32.ofSlot (bytes : List UInt8) : Binary32 := ⟨UInt32.ofNat (ofLittleEndian bytes)⟩

def Binary64.ofSlot (bytes : List UInt8) : Binary64 := ⟨UInt64.ofNat (ofLittleEndian bytes)⟩

def Binary32.image (x : Binary32) : List UInt8 := toLittleEndian 4 x.bits.toNat

def Binary64.image (x : Binary64) : List UInt8 := toLittleEndian 8 x.bits.toNat

def part (offset width : Nat) (bytes : List UInt8) : List UInt8 := (bytes.drop offset).take width

/-- Twelve bits of a signed fraction and four of a binary exponent. -/
def fshort (bytes : List UInt8) : Binary32 :=
  let raw := ofBigEndian bytes
  let fraction := raw / 16
  let exponent : Nat := raw % 16
  if fraction < 2048 then .nearest false fraction (exponent - 11 : Int)
  else .nearest true (4096 - fraction) (exponent - 11 : Int)

/-- A sign, seven bits of a hexadecimal exponent and 24 of a fraction below one. -/
def isingl (bytes : List UInt8) : Binary32 :=
  let raw := ofBigEndian bytes
  let exponent : Nat := raw / 0x1000000 % 128
  .nearest (decide (0x80000000 ≤ raw)) (raw % 0x1000000) (4 * (exponent - 64 : Int) - 24)

def swapPairs : List UInt8 → List UInt8
  | a :: b :: rest => b :: a :: swapPairs rest
  | rest => rest

/-- Little-endian words from the big end: a sign, eight bits of a binary exponent, and 23 of a
fraction behind a hidden half. Exponent zero is zero, or no number if the sign is set. -/
def vsingl (bytes : List UInt8) : Binary32 :=
  let raw := ofBigEndian (swapPairs bytes)
  let negative : Bool := 0x80000000 ≤ raw
  let exponent : Nat := raw / 0x800000 % 256
  if exponent = 0 then if negative then .nan else ⟨0⟩
  else .nearest negative (0x800000 + raw % 0x800000) (exponent - 152 : Int)

namespace Numeric

def read (code : Numeric) (bytes : List UInt8) : Number :=
  let single (i : Nat) := Binary32.ofRecord (part (4 * i) 4 bytes)
  let double (i : Nat) := Binary64.ofRecord (part (8 * i) 8 bytes)
  let whole := ofBigEndian bytes
  match code with
  | .fshort => .f32 (WellLog.fshort bytes)
  | .fsingl => .f32 (single 0)
  | .fsing1 => .f32Pair (single 0) (single 1)
  | .fsing2 => .f32Triple (single 0) (single 1) (single 2)
  | .isingl => .f32 (WellLog.isingl bytes)
  | .vsingl => .f32 (WellLog.vsingl bytes)
  | .fdoubl => .f64 (double 0)
  | .fdoub1 => .f64Pair (double 0) (double 1)
  | .fdoub2 => .f64Triple (double 0) (double 1) (double 2)
  | .csingl => .c32 (single 0) (single 1)
  | .cdoubl => .c64 (double 0) (double 1)
  | .sshort => .i8 (UInt8.ofNat whole).toInt8
  | .snorm => .i16 (UInt16.ofNat whole).toInt16
  | .slong => .i32 (UInt32.ofNat whole).toInt32
  | .ushort => .u8 (UInt8.ofNat whole)
  | .unorm => .u16 (UInt16.ofNat whole)
  | .ulong => .u32 (UInt32.ofNat whole)
  | .status => .u8 (UInt8.ofNat whole)

def slotWidth : Numeric → Nat
  | .fshort => 4
  | code => code.width

def ofImage (code : Numeric) (bytes : List UInt8) : Number :=
  let single (i : Nat) := Binary32.ofSlot (part (4 * i) 4 bytes)
  let double (i : Nat) := Binary64.ofSlot (part (8 * i) 8 bytes)
  let whole := ofLittleEndian bytes
  match code with
  | .fshort | .fsingl | .isingl | .vsingl => .f32 (single 0)
  | .fsing1 => .f32Pair (single 0) (single 1)
  | .fsing2 => .f32Triple (single 0) (single 1) (single 2)
  | .fdoubl => .f64 (double 0)
  | .fdoub1 => .f64Pair (double 0) (double 1)
  | .fdoub2 => .f64Triple (double 0) (double 1) (double 2)
  | .csingl => .c32 (single 0) (single 1)
  | .cdoubl => .c64 (double 0) (double 1)
  | .sshort => .i8 (UInt8.ofNat whole).toInt8
  | .snorm => .i16 (UInt16.ofNat whole).toInt16
  | .slong => .i32 (UInt32.ofNat whole).toInt32
  | .ushort | .status => .u8 (UInt8.ofNat whole)
  | .unorm => .u16 (UInt16.ofNat whole)
  | .ulong => .u32 (UInt32.ofNat whole)

end Numeric

def Number.image : Number → List UInt8
  | .f32 x => x.image
  | .f32Pair x y => x.image ++ y.image
  | .f32Triple x y z => x.image ++ y.image ++ z.image
  | .f64 x => x.image
  | .f64Pair x y => x.image ++ y.image
  | .f64Triple x y z => x.image ++ y.image ++ z.image
  | .c32 re im => re.image ++ im.image
  | .c64 re im => re.image ++ im.image
  | .i8 n => toLittleEndian 1 n.toUInt8.toNat
  | .i16 n => toLittleEndian 2 n.toUInt16.toNat
  | .i32 n => toLittleEndian 4 n.toUInt32.toNat
  | .u8 n => toLittleEndian 1 n.toNat
  | .u16 n => toLittleEndian 2 n.toNat
  | .u32 n => toLittleEndian 4 n.toNat

@[simp] theorem ofNat_ofLittleEndian_toLittleEndian_one (n : UInt8) :
    UInt8.ofNat (ofLittleEndian (toLittleEndian 1 n.toNat)) = n := by
  have h : n.toNat < wordCount 1 := n.toNat_lt
  rw [ofLittleEndian_toLittleEndian, Nat.mod_eq_of_lt h, UInt8.ofNat_toNat]

@[simp] theorem ofNat_ofLittleEndian_toLittleEndian_two (n : UInt16) :
    UInt16.ofNat (ofLittleEndian (toLittleEndian 2 n.toNat)) = n := by
  have h : n.toNat < wordCount 2 := n.toNat_lt
  rw [ofLittleEndian_toLittleEndian, Nat.mod_eq_of_lt h, UInt16.ofNat_toNat]

@[simp] theorem ofNat_ofLittleEndian_toLittleEndian_four (n : UInt32) :
    UInt32.ofNat (ofLittleEndian (toLittleEndian 4 n.toNat)) = n := by
  have h : n.toNat < wordCount 4 := n.toNat_lt
  rw [ofLittleEndian_toLittleEndian, Nat.mod_eq_of_lt h, UInt32.ofNat_toNat]

@[simp] theorem ofNat_ofLittleEndian_toLittleEndian_eight (n : UInt64) :
    UInt64.ofNat (ofLittleEndian (toLittleEndian 8 n.toNat)) = n := by
  have h : n.toNat < wordCount 8 := n.toNat_lt
  rw [ofLittleEndian_toLittleEndian, Nat.mod_eq_of_lt h, UInt64.ofNat_toNat]

@[simp] theorem Binary32.length_image (x : Binary32) : x.image.length = 4 :=
  length_toLittleEndian ..

@[simp] theorem Binary64.length_image (x : Binary64) : x.image.length = 8 :=
  length_toLittleEndian ..

@[simp] theorem Binary32.ofSlot_image (x : Binary32) : Binary32.ofSlot x.image = x := by
  simp only [ofSlot, image, ofNat_ofLittleEndian_toLittleEndian_four]

@[simp] theorem Binary64.ofSlot_image (x : Binary64) : Binary64.ofSlot x.image = x := by
  simp only [ofSlot, image, ofNat_ofLittleEndian_toLittleEndian_eight]

section Groups

variable {width : Nat} {a b c : List UInt8}

theorem part_single (ha : a.length = width) : part 0 width a = a := by
  simp [part, ← ha]

theorem part_pair (ha : a.length = width) (hb : b.length = width) :
    part 0 width (a ++ b) = a ∧ part width width (a ++ b) = b := by
  subst ha
  simp [part, ← hb]

theorem part_triple (ha : a.length = width) (hb : b.length = width) (hc : c.length = width) :
    part 0 width (a ++ b ++ c) = a ∧ part width width (a ++ b ++ c) = b
      ∧ part (width + width) width (a ++ b ++ c) = c := by
  subst ha
  refine ⟨by simp [part], by simp [part, ← hb], ?_⟩
  have hab : a.length + a.length = (a ++ b).length := by rw [List.length_append, hb]
  rw [part, hab, List.drop_left, ← hc, List.take_length]

end Groups

namespace Binary32

variable (x y z : Binary32)

@[simp] theorem part_image : part 0 4 x.image = x.image := part_single x.length_image

@[simp] theorem part_image_pair :
    part 0 4 (x.image ++ y.image) = x.image ∧ part 4 4 (x.image ++ y.image) = y.image :=
  part_pair x.length_image y.length_image

@[simp] theorem part_image_triple :
    part 0 4 (x.image ++ y.image ++ z.image) = x.image
      ∧ part 4 4 (x.image ++ y.image ++ z.image) = y.image
      ∧ part 8 4 (x.image ++ y.image ++ z.image) = z.image :=
  part_triple x.length_image y.length_image z.length_image

end Binary32

namespace Binary64

variable (x y z : Binary64)

@[simp] theorem part_image : part 0 8 x.image = x.image := part_single x.length_image

@[simp] theorem part_image_pair :
    part 0 8 (x.image ++ y.image) = x.image ∧ part 8 8 (x.image ++ y.image) = y.image :=
  part_pair x.length_image y.length_image

@[simp] theorem part_image_triple :
    part 0 8 (x.image ++ y.image ++ z.image) = x.image
      ∧ part 8 8 (x.image ++ y.image ++ z.image) = y.image
      ∧ part 16 8 (x.image ++ y.image ++ z.image) = z.image :=
  part_triple x.length_image y.length_image z.length_image

end Binary64

namespace Numeric

theorem length_image_read (code : Numeric) (bytes : List UInt8) :
    (code.read bytes).image.length = code.slotWidth := by
  cases code <;> simp [read, Number.image, slotWidth, width]

/-- A slot gives back the number that was put into it. -/
theorem ofImage_image_read (code : Numeric) (bytes : List UInt8) :
    code.ofImage (code.read bytes).image = code.read bytes := by
  cases code <;>
    simp only [read, ofImage, Number.image, Nat.mul_zero, Nat.mul_one, Nat.reduceMul,
      Binary32.part_image, Binary32.part_image_pair, Binary32.part_image_triple,
      Binary64.part_image, Binary64.part_image_pair, Binary64.part_image_triple,
      Binary32.ofSlot_image, Binary64.ofSlot_image, UInt8.toUInt8_toInt8,
      UInt16.toUInt16_toInt16, UInt32.toUInt32_toInt32, ofNat_ofLittleEndian_toLittleEndian_one,
      ofNat_ofLittleEndian_toLittleEndian_two, ofNat_ofLittleEndian_toLittleEndian_four]

end Numeric

end WellLog
