import WellLog.Proofs.Agreeing
import WellLog.Proofs.Stored

/-!
# What a field keeps of a record

The bytes of a value say where it ends: they are stretches of a fixed width or behind their own
count, one after the other (`Datum.extends_bytes`). The slot of a number that keeps its bits is its
bytes turned round part by part (`Numeric.image_read`).

Whatever field is read, `Field.keeps_of_read` says where the cursor stands behind it, what kind of
field it is and what of the bytes it holds, and which number a column gives back for it.
-/

namespace WellLog

/-! ## Where a value ends -/

/-- Bytes that say themselves how many they are. -/
inductive Stretch where
  | fixed (width : Nat)
  | uvari
  | ident
  | ascii

namespace Stretch

def width? : Stretch → List UInt8 → Option Nat
  | fixed width, bytes => if width ≤ bytes.length then some width else none
  | uvari, bytes => (Uvari.decode? bytes).map Prod.snd
  | ident, bytes => (ident? bytes).map Prod.snd
  | ascii, bytes => (ascii? bytes).map Prod.snd

/-- The stretches at the start of the bytes, one behind the other. -/
def extent? : List Stretch → List UInt8 → Option Nat
  | [], _ => some 0
  | s :: ss, bytes => (s.width? bytes).bind fun n => (extent? ss (bytes.drop n)).map (n + ·)

/-- The bytes are such stretches, whatever follows them. -/
def Extends (ss : List Stretch) (bytes : List UInt8) : Prop :=
  ∀ rest, extent? ss (bytes ++ rest) = some bytes.length

variable {ss ts : List Stretch} {a b : List UInt8}

theorem extent?_append (bytes : List UInt8) : ∀ ss : List Stretch,
    extent? (ss ++ ts) bytes
      = (extent? ss bytes).bind fun n => (extent? ts (bytes.drop n)).map (n + ·)
  | [] => by simp only [List.nil_append, extent?, Option.bind_some, List.drop_zero, Nat.zero_add,
      Option.map_id']
  | s :: ss => by
    rw [List.cons_append, extent?, extent?, Option.bind_assoc]
    refine Option.bind_congr fun n _ => ?_
    rw [extent?_append, Option.map_bind, Option.bind_map]
    refine Option.bind_congr fun m _ => ?_
    simp only [Function.comp_apply, Option.map_map, List.drop_drop, Nat.add_assoc]
    rfl

theorem Extends.append (ha : Extends ss a) (hb : Extends ts b) : Extends (ss ++ ts) (a ++ b) := by
  intro rest
  rw [extent?_append, List.append_assoc, ha, Option.bind_some, List.drop_left, hb, Option.map_some,
    List.length_append]

theorem extends_singleton {s : Stretch} (h : ∀ rest, s.width? (a ++ rest) = some a.length) :
    Extends [s] a := by
  intro rest
  rw [extent?, h, Option.bind_some]
  rfl

theorem extends_fixed (bytes : List UInt8) : Extends [fixed bytes.length] bytes := by
  refine extends_singleton fun rest => if_pos ?_
  rw [List.length_append]
  exact Nat.le_add_right _ _

theorem extends_uvari (n : VarNumber) : Extends [uvari] n.bytes := by
  refine extends_singleton fun rest => ?_
  rw [width?, VarNumber.bytes, Uvari.decode?_encode n.fits, Uvari.length_encode]
  rfl

theorem extends_ident (t : ShortText) : Extends [ident] t.bytes := by
  refine extends_singleton fun rest => ?_
  rw [width?, ShortText.bytes, ident?_encodeIdent t.fits]
  rfl

theorem extends_ascii (t : CountedText) : Extends [ascii] t.bytes := by
  refine extends_singleton fun rest => ?_
  rw [width?, CountedText.bytes, ascii?_encodeAscii t.fits]
  rfl

theorem extends_name (n : WrittenName) : Extends [uvari, fixed 1, ident] n.bytes :=
  (extends_uvari n.origin).append ((extends_fixed [n.copy]).append (extends_ident n.id))

end Stretch

/-- The stretches of a value of the code. -/
def Code.stretches : Code → List Stretch
  | .numeric n => [.fixed n.width]
  | .uvari | .origin => [.uvari]
  | .ident | .units => [.ident]
  | .ascii => [.ascii]
  | .dtime => [.fixed 8]
  | .obname => [.uvari, .fixed 1, .ident]
  | .objref => [.ident, .uvari, .fixed 1, .ident]
  | .attref => [.ident, .uvari, .fixed 1, .ident, .ident]

/-- How many of the bytes the value of the code takes that stands at their start. -/
def Code.extent? (code : Code) (bytes : List UInt8) : Option Nat :=
  Stretch.extent? code.stretches bytes

/-- The bytes of a datum say where it ends. -/
theorem Datum.extends_bytes (d : Datum) : Stretch.Extends d.code.stretches d.bytes := by
  cases d with
  | numeric q =>
    have h := Stretch.extends_fixed q.bytes
    rwa [q.length_bytes] at h
  | uvari n => exact Stretch.extends_uvari n
  | origin n => exact Stretch.extends_uvari n
  | ident t => exact Stretch.extends_ident t
  | units t => exact Stretch.extends_ident t
  | ascii t => exact Stretch.extends_ascii t
  | dtime t => exact Stretch.extends_fixed t.bytes
  | obname n => exact Stretch.extends_name n
  | objref t n => exact (Stretch.extends_ident t).append (Stretch.extends_name n)
  | attref t n l =>
    exact ((Stretch.extends_ident t).append (Stretch.extends_name n)).append
      (Stretch.extends_ident l)

theorem Datum.length_bytes_of_fixedWidth? {d : Datum} {n : Nat}
    (h : d.code.fixedWidth? = some n) : d.bytes.length = n := by
  cases d with
  | numeric q => exact q.length_bytes.trans (Option.some.inj h)
  | dtime t => exact Option.some.inj h
  | _ => cases h

/-! ## Bytes turned round -/

/-- The parts of the bytes in their order, each with its bytes turned round. -/
def reverseParts (width : Nat) (bytes : List UInt8) : List UInt8 :=
  (List.range (bytes.length / width)).flatMap fun i => (part (width * i) width bytes).reverse

section ReverseParts

variable {width : Nat}

@[simp] theorem reverseParts_nil (width : Nat) : reverseParts width [] = [] := by
  rw [reverseParts, List.length_nil, Nat.zero_div, List.range_zero, List.flatMap_nil]

theorem reverseParts_append {a : List UInt8} (hw : 0 < width) (ha : a.length = width)
    (b : List UInt8) : reverseParts width (a ++ b) = a.reverse ++ reverseParts width b := by
  have hcount : (a ++ b).length / width = b.length / width + 1 := by
    rw [List.length_append, ha, Nat.add_comm, Nat.add_div_right _ hw]
  have hfirst : part (width * 0) width (a ++ b) = a := by
    rw [part, Nat.mul_zero, List.drop_zero, ← ha, List.take_left]
  have hnext : ∀ i, part (width * (i + 1)) width (a ++ b) = part (width * i) width b := by
    intro i
    rw [part, part, Nat.mul_succ, Nat.add_comm, ← ha, ← List.drop_drop, List.drop_left]
  rw [reverseParts, hcount, List.range_succ_eq_map, List.flatMap_cons, hfirst, List.flatMap_map]
  simp only [Nat.succ_eq_add_one, hnext]
  rfl

theorem reverseParts_toBigEndian_append (hw : 0 < width) (n : Nat) (b : List UInt8) :
    reverseParts width (toBigEndian width n ++ b)
      = toLittleEndian width n ++ reverseParts width b := by
  rw [reverseParts_append hw (length_toBigEndian width n), toBigEndian, List.reverse_reverse]

theorem reverseParts_toBigEndian (hw : 0 < width) (n : Nat) :
    reverseParts width (toBigEndian width n) = toLittleEndian width n := by
  have h := reverseParts_toBigEndian_append hw n []
  rwa [List.append_nil, reverseParts_nil, List.append_nil] at h

end ReverseParts

namespace Numeric

/-- The width of each number of a group, and of a number that stands alone. -/
def partWidth : Numeric → Nat
  | .fsing1 | .fsing2 | .csingl => 4
  | .fdoub1 | .fdoub2 | .cdoubl => 8
  | code => code.width

variable {code : Numeric} {n : Number} {bytes : List UInt8}

/-- The slot of a number is its bytes in a record, turned round part by part. -/
theorem Holds.image_eq (h : code.Holds n) : n.image = reverseParts code.partWidth n.written := by
  cases h <;>
    simp [Number.image, Number.written, Binary32.image, Binary32.written, Binary64.image,
      Binary64.written, partWidth, width, reverseParts_toBigEndian,
      reverseParts_toBigEndian_append]

/-- A number whose format does not change keeps all its bytes. -/
theorem image_read (h : ¬code.IsForeign) (hb : bytes.length = code.width) :
    (code.read bytes).image = reverseParts code.partWidth bytes := by
  rw [(holds_read h bytes).image_eq, written_read h hb]

end Numeric

/-! ## Fields -/

/-- The codes whose values are objects. -/
def Code.objects : List Code := [.ascii, .dtime, .obname, .objref, .attref]

/-- The codes whose values are identifiers. -/
def Code.idents : List Code := [.ident, .units]

/-- The codes of one number of variable width. -/
def Code.words : List Code := [.uvari, .origin]

/-- An inline column of the code has the number as its value where a row holds the image. -/
def Code.GivesBack (code : Code) (image : List UInt8) (x : Number) : Prop :=
  ∀ (row : Row) (offset : Nat), row.Holds (.inline offset image.length) (.packed image) →
    row.value? ⟨code, .inline offset image.length⟩ = some (.number x)

theorem Code.givesBack {code : Code} {image : List UInt8} {x : Number}
    (h : code.ofSlot? image = some (.number x)) : code.GivesBack image x := by
  intro row offset hrow
  have hvalue : row.value? ⟨code, .inline offset image.length⟩
      = Column.valueOf? ⟨code, .inline offset image.length⟩ (.packed image) :=
    Row.value?_of_holds hrow
  exact hvalue.trans h

namespace Field

/-- What a field of the code keeps of the bytes in front of the cursor, and where the cursor is
behind it. -/
structure Keeps (identCapacity : Nat) (code : Code) (c : Cursor) (field : Field) (c' : Cursor) :
    Prop where
  extent : ∃ n, code.extent? c.rest = some n ∧ n ≤ c.remaining ∧ c' = c.moved n
  fixed : ∀ n, code.fixedWidth? = some n → n ≤ c.remaining ∧ c' = c.moved n
  object : (∃ o, field = .object o) ↔ code ∈ Code.objects
  ident : (∃ body, field = .ident body) ↔ code ∈ Code.idents
  body : ∀ body, field = .ident body →
    body.length ≤ identCapacity ∧ ∃ width, ident? c.rest = some (body, width)
  packed : code ∉ Code.objects → code ∉ Code.idents →
    ∃ image, field = .packed image ∧ code.inlineWidth? identCapacity = some image.length
  numeric : ∀ n, code = .numeric n → ∃ image, field = .packed image
    ∧ (¬n.IsForeign → image = reverseParts n.partWidth (c.rest.take n.width))
    ∧ code.GivesBack image (n.read (c.rest.take n.width))
  word : code ∈ Code.words → ∃ value width x, Uvari.decode? c.rest = some (value, width)
    ∧ field = .packed (toLittleEndian 4 value)
    ∧ code.GivesBack (toLittleEndian 4 value) (.i32 x) ∧ x.toInt = value

variable {identCapacity : Nat} {code : Code} {c c' : Cursor} {field : Field}

theorem image_ofNat_value (n : VarNumber) :
    (Number.i32 (Int32.ofNat n.value)).image = toLittleEndian 4 n.value := by
  have hlt : n.value < 4294967296 := Nat.lt_trans n.value_lt (by decide)
  simp [Number.image, Nat.mod_eq_of_lt hlt]

/-- The slot of a number is as wide as that of its code, and gives the number back. -/
theorem givesBack_of_number {d : Datum} {x : Number} {width : Nat} (hfits : d.Fits identCapacity)
    (hfield : d.field = number x) (hvalue : d.value = .number x)
    (hw : d.code.inlineWidth? identCapacity = some width) :
    x.image.length = width ∧ d.code.GivesBack x.image x := by
  obtain ⟨ha, hv⟩ := Datum.accepts_inline hfits hw 0
  rw [hfield] at ha hv
  rw [hvalue] at hv
  exact ⟨beq_iff_eq.mp ha, Code.givesBack hv⟩

theorem exists_image_of_passes {q : Quantity} (h : c.Passes q.bytes c') :
    ∃ image, number q.number = .packed image
      ∧ (¬q.code.IsForeign → image = reverseParts q.code.partWidth (c.rest.take q.code.width))
      ∧ (Code.numeric q.code).GivesBack image (q.code.read (c.rest.take q.code.width)) := by
  have hfits : (Datum.numeric q).Fits 0 := trivial
  have hsource : c.rest.take q.code.width = q.bytes := by
    rw [h.rest, ← q.length_bytes]
    exact List.take_left
  rw [hsource]
  refine ⟨_, rfl, fun hforeign => ?_, ?_⟩
  · rw [← q.read_bytes]
    exact Numeric.image_read hforeign q.length_bytes
  · rw [q.read_bytes]
    exact (givesBack_of_number hfits rfl rfl rfl).2

theorem exists_word_of_passes {d : Datum} {n : VarNumber} (h : c.Passes n.bytes c')
    (hback : d.code.GivesBack (Number.i32 (Int32.ofNat n.value)).image
      (.i32 (Int32.ofNat n.value))) :
    ∃ value width x, Uvari.decode? c.rest = some (value, width)
      ∧ number (.i32 (Int32.ofNat n.value)) = .packed (toLittleEndian 4 value)
      ∧ d.code.GivesBack (toLittleEndian 4 value) (.i32 x) ∧ x.toInt = value := by
  rw [image_ofNat_value] at hback
  rw [number, image_ofNat_value]
  refine ⟨n.value, n.width.bytes, _, ?_, rfl, hback, n.toInt_ofNat_value⟩
  rw [h.rest]
  exact Uvari.decode?_encode n.fits c'.rest

theorem exists_width_of_passes {t : ShortText} (h : c.Passes t.bytes c') :
    ∃ width, ident? c.rest = some (t.body, width) :=
  ⟨_, h.rest ▸ ident?_encodeIdent t.fits c'.rest⟩

/-- The field of a datum keeps the bytes of the datum. -/
theorem keeps_of_passes {d : Datum} (hf : d.Fits identCapacity) (h : c.Passes d.bytes c') :
    Keeps identCapacity d.code c d.field c' := by
  obtain ⟨hmoved, hle⟩ := h.eq_moved
  constructor
  case extent => exact ⟨_, h.rest ▸ d.extends_bytes c'.rest, hle, hmoved⟩
  case fixed =>
    intro n hn
    obtain rfl := Datum.length_bytes_of_fixedWidth? hn
    exact ⟨hle, hmoved⟩
  case object => cases d <;> simp [Datum.field, Datum.code, Code.objects, number]
  case ident => cases d <;> simp [Datum.field, Datum.code, Code.idents, number]
  case body =>
    cases d with
    | ident t | units t =>
      rintro body ⟨⟩
      exact ⟨hf, exists_width_of_passes h⟩
    | _ =>
      intro body hb
      cases hb
  case packed =>
    intro ho hi
    cases d with
    | numeric q =>
      have hslot := (givesBack_of_number hf rfl rfl rfl).1
      exact ⟨_, rfl, congrArg some hslot.symm⟩
    | uvari n | origin n => exact ⟨_, rfl, rfl⟩
    | ident t | units t => simp [Datum.code, Code.idents] at hi
    | _ => simp [Datum.code, Code.objects] at ho
  case numeric =>
    cases d with
    | numeric q =>
      rintro n ⟨⟩
      exact exists_image_of_passes h
    | _ =>
      intro n hn
      cases hn
  case word =>
    cases d with
    | uvari n | origin n =>
      exact fun _ => exists_word_of_passes h (givesBack_of_number hf rfl rfl rfl).2
    | _ => simp [Datum.code, Code.words]

/-- A field that is read keeps what stood in front of the cursor. -/
theorem keeps_of_read (h : read identCapacity code c = .ok (.ok field, c')) :
    Keeps identCapacity code c field c' := by
  obtain ⟨d, rfl, hp, hs⟩ := read_eq_ok_iff.mp h
  obtain ⟨hf, rfl⟩ := Datum.staged_eq_ok_iff.mp hs
  exact keeps_of_passes hf hp

/-- A pair whose first part is not a number, with a byte behind it. -/
theorem keeps_of_read_pair :
    read 4 (.numeric .fsing1) ⟨3, [0x7f, 0xc0, 0, 1, 0x80, 0, 0, 2, 9]⟩
        = .ok (.ok (.packed [1, 0, 0xc0, 0x7f, 2, 0, 0, 0x80]), ⟨11, [9]⟩)
      ∧ Keeps 4 (.numeric .fsing1) ⟨3, [0x7f, 0xc0, 0, 1, 0x80, 0, 0, 2, 9]⟩
        (.packed [1, 0, 0xc0, 0x7f, 2, 0, 0, 0x80]) ⟨11, [9]⟩ :=
  ⟨rfl, keeps_of_read rfl⟩

end Field

end WellLog
