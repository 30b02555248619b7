import WellLog.Proofs.Encoded
import WellLog.Proofs.Naming

/-!
# Names in the order of their bytes

UTF-8 keeps the order of characters: what is encoded in front of anything comes before what a larger
character is encoded in (`before_utf8EncodeChar`), so texts are in the order of their bytes
(`compare_utf8`). Latin-1 keeps the order too, as a byte is the number of its character
(`compare_latin1`).

So names that have been read are in the order of what was written for them, part by part and byte by
byte, though a byte may have become two (`Cursor.readsInOrder_names`). They are equal in this order
only if they are the same (`ObjectName.compare_eq_iff`).
-/

namespace WellLog

open String (utf8EncodeChar)

/-! ## Orders that agree -/

/-- What is smaller, and what is equal, decides how two values compare. -/
theorem compareOfLessAndEq_congr {α β : Type} [LT α] [DecidableLT α] [DecidableEq α] [LT β]
    [DecidableLT β] [DecidableEq β] {a b : α} {x y : β} (hlt : a < b ↔ x < y)
    (heq : a = b ↔ x = y) : compareOfLessAndEq a b = compareOfLessAndEq x y := by
  simp only [compareOfLessAndEq, hlt, heq]

theorem compare_map {α β : Type} [Ord α] [Ord β] {f : α → β}
    (h : ∀ a b, compare (f a) (f b) = compare a b) :
    ∀ as bs : List α, compare (as.map f) (bs.map f) = compare as bs
  | [], [] => rfl
  | [], _ :: _ => rfl
  | _ :: _, [] => rfl
  | a :: as, b :: bs => by
    simp only [List.map_cons, List.compare_cons_cons, h, compare_map h as bs]

theorem compare_append_left (r s : List UInt8) :
    ∀ a : List UInt8, compare (a ++ r) (a ++ s) = compare r s
  | [] => rfl
  | b :: a => by
    rw [List.cons_append, List.cons_append, List.compare_cons_cons, Std.compare_self,
      Ordering.eq_then, compare_append_left r s a]

theorem compare_chars_eq : ∀ cs ds : List Char, compare cs ds = compareOfLessAndEq cs ds
  | [], [] => rfl
  | [], d :: ds => by
    rw [compareOfLessAndEq, if_pos (List.nil_lt_cons d ds)]
    rfl
  | c :: cs, [] => by
    rw [compareOfLessAndEq, if_neg (List.not_lt_nil _), if_neg (List.cons_ne_nil c cs)]
    rfl
  | c :: cs, d :: ds => by
    rw [List.compare_cons_cons, compare_chars_eq cs ds,
      show compare c d = compareOfLessAndEq c d from rfl]
    simp only [compareOfLessAndEq, List.cons_lt_cons_iff, List.cons.injEq]
    by_cases hlt : c < d
    · simp only [hlt, if_true, true_or, Ordering.lt_then]
    by_cases heq : c = d
    · obtain rfl := heq
      simp only [hlt, if_false, if_true, true_and, false_or, Ordering.eq_then]
    · simp only [hlt, heq, if_false, false_and, or_self, Ordering.gt_then]

theorem compare_toList (s t : String) : compare s.toList t.toList = compare s t := by
  rw [compare_chars_eq]
  exact compareOfLessAndEq_congr String.lt_iff.symm String.toList_inj

/-! ## Characters -/

/-- The bytes come before the others, whatever follows either. -/
def Before (a b : List UInt8) : Prop := ∀ r s, compare (a ++ r) (b ++ s) = .lt

theorem before_ofNat_cons {m n : Nat} (h : m < n) (hn : n < 256) (a b : List UInt8) :
    Before (.ofNat m :: a) (.ofNat n :: b) := by
  intro r s
  have hlt : UInt8.ofNat m < UInt8.ofNat n := 
    (UInt8.ofNat_lt_iff_lt (Nat.lt_trans h hn) hn).mpr h
  rw [List.cons_append, List.cons_append, List.compare_cons_cons, Std.compare_eq_lt.mpr hlt]
  rfl

theorem Before.append {a b : List UInt8} (h : Before a b) (r s : List UInt8) :
    Before (a ++ r) (b ++ s) := by
  intro r' s'
  rw [List.append_assoc, List.append_assoc]
  exact h _ _

theorem Before.append_left {a b : List UInt8} (h : Before a b) (front : List UInt8) :
    Before (front ++ a) (front ++ b) := by
  intro r s
  rw [List.append_assoc, List.append_assoc, compare_append_left]
  exact h r s

/-- Numbers below the limit are encoded in their order. -/
def EncodesInOrder (limit : Nat) (encode : Nat → List UInt8) : Prop :=
  ∀ ⦃m n⦄, m < n → n < limit → Before (encode m) (encode n)

/-- A number in so many bytes with six of its bits each, behind a byte that has a mark and the rest
of it. -/
def sextets (mark : Nat) : Nat → Nat → List UInt8
  | 0, n => [.ofNat (n + mark)]
  | count + 1, n => sextets mark count (n / 64) ++ [.ofNat (n % 64 + 128)]

namespace EncodesInOrder

variable {limit further : Nat} {encode encode' : Nat → List UInt8}

theorem single (mark : Nat) : EncodesInOrder (256 - mark) (sextets mark 0) := fun _ _ h hn =>
  before_ofNat_cons (Nat.add_lt_add_right h mark) (by omega) [] []

theorem behind {mark count : Nat} (h : EncodesInOrder limit (sextets mark count)) :
    EncodesInOrder (limit * 64) (sextets mark (count + 1)) := by
  intro m n hmn hn
  -- The last six bits decide only where all others are the same.
  rcases Nat.lt_or_ge (m / 64) (n / 64) with hlt | hge
  · exact (h hlt (by omega)).append _ _
  · have heq : m / 64 = n / 64 := by omega
    rw [sextets, sextets, heq]
    exact (before_ofNat_cons (by omega) (by omega) [] []).append_left _

theorem glue (h : EncodesInOrder limit encode) (h' : EncodesInOrder further encode')
    (hacross : ∀ m n, m < limit → limit ≤ n → n < further → Before (encode m) (encode' n)) :
    EncodesInOrder further fun n => if n < limit then encode n else encode' n := by
  intro m n hmn hn
  by_cases hm : m < limit
  · by_cases hnl : n < limit
    · simpa only [hm, hnl, if_true] using h hmn hnl
    · simpa only [hm, hnl, if_true, if_false] using hacross m n hm (Nat.le_of_not_lt hnl) hn
  · have hnl : ¬n < limit := by omega
    simpa only [hm, hnl, if_false] using h' hmn hn

theorem mono (h : EncodesInOrder further encode) (hle : limit ≤ further) :
    EncodesInOrder limit encode := fun _ _ hmn hn => h hmn (by omega)

end EncodesInOrder

/-- The bytes of the character of a number. -/
def utf8Bytes (n : Nat) : List UInt8 :=
  if n < 0x80 then sextets 0 0 n
  else if n < 0x800 then sextets 0xc0 1 n
  else if n < 0x10000 then sextets 0xe0 2 n
  else sextets 0xf0 3 n

theorem toNat_lt (c : Char) : c.toNat < 0x110000 := by
  have h : c.toNat.isValidChar := c.valid
  rw [Nat.isValidChar] at h
  omega

theorem utf8EncodeChar_eq (c : Char) : utf8EncodeChar c = utf8Bytes c.toNat := by
  have hc := toNat_lt c
  unfold utf8EncodeChar utf8Bytes
  simp only [Char.toNat_val, ← Nat.lt_succ_iff]
  generalize c.toNat = n at hc ⊢
  -- A first byte has room for more bits than the number has left.
  split_ifs
  · rfl
  · have h : n / 64 % 32 = n / 64 := Nat.mod_eq_of_lt (by omega)
    rw [h]
    rfl
  · have h : n / 4096 % 16 = n / 64 / 64 := by omega
    rw [h]
    rfl
  · have h : n / 262144 % 8 = n / 64 / 64 / 64 := by omega
    have h' : n / 4096 = n / 64 / 64 := by omega
    rw [h, h']
    rfl

theorem encodesInOrder_utf8Bytes : EncodesInOrder 0x110000 utf8Bytes := by
  have h4 : EncodesInOrder 0x110000 (sextets 0xf0 3) :=
    (EncodesInOrder.single 0xf0).behind.behind.behind.mono (by decide)
  have h3 : EncodesInOrder 0x10000 (sextets 0xe0 2) :=
    (EncodesInOrder.single 0xe0).behind.behind.mono (by decide)
  have h2 : EncodesInOrder 0x800 (sextets 0xc0 1) :=
    (EncodesInOrder.single 0xc0).behind.mono (by decide)
  have h1 : EncodesInOrder 0x80 (sextets 0 0) := (EncodesInOrder.single 0).mono (by decide)
  refine h1.glue (h2.glue (h3.glue h4 ?_) ?_) ?_
  · intro m n hm hn hlt
    exact before_ofNat_cons (by omega) (by omega) _ _
  · intro m n hm hn hlt
    split_ifs
    · exact before_ofNat_cons (by omega) (by omega) _ _
    · exact before_ofNat_cons (by omega) (by omega) _ _
  · intro m n hm hn hlt
    split_ifs
    · exact before_ofNat_cons (by omega) (by omega) _ _
    · exact before_ofNat_cons (by omega) (by omega) _ _
    · exact before_ofNat_cons (by omega) (by omega) _ _

theorem before_utf8EncodeChar {c d : Char} (h : c < d) :
    Before (utf8EncodeChar c) (utf8EncodeChar d) := by
  rw [utf8EncodeChar_eq, utf8EncodeChar_eq]
  exact encodesInOrder_utf8Bytes h (toNat_lt d)

/-- The first characters decide, and what follows them only if they are the same. -/
theorem compare_utf8EncodeChar_append (c d : Char) (r s : List UInt8) :
    compare (utf8EncodeChar c ++ r) (utf8EncodeChar d ++ s)
      = (compare c d).then (compare r s) := by
  rcases hcd : compare c d with _ | _ | _
  · exact before_utf8EncodeChar (compareOfLessAndEq_eq_lt.mp hcd) r s
  · obtain rfl := Std.LawfulEqCmp.eq_of_compare hcd
    exact compare_append_left r s _
  · have hdc : compare d c = .lt := Std.OrientedCmp.gt_iff_lt.mp hcd
    have h := before_utf8EncodeChar (compareOfLessAndEq_eq_lt.mp hdc) s r
    exact Std.OrientedCmp.gt_iff_lt.mpr h

/-! ## Texts -/

theorem compare_flatMap_utf8EncodeChar : ∀ cs ds : List Char,
    compare (cs.flatMap utf8EncodeChar) (ds.flatMap utf8EncodeChar) = compare cs ds
  | [], [] => rfl
  | [], d :: ds => by
    obtain ⟨first, tail, hd, -⟩ := exists_utf8EncodeChar_eq_cons d
    rw [List.flatMap_cons, hd]
    rfl
  | c :: cs, [] => by
    obtain ⟨first, tail, hc, -⟩ := exists_utf8EncodeChar_eq_cons c
    rw [List.flatMap_cons, hc]
    rfl
  | c :: cs, d :: ds => by
    rw [List.flatMap_cons, List.flatMap_cons, compare_utf8EncodeChar_append,
      compare_flatMap_utf8EncodeChar cs ds, List.compare_cons_cons]

/-- Texts are in the order of their bytes. -/
theorem compare_utf8 (s t : String) : compare (utf8 s) (utf8 t) = compare s t := by
  rw [utf8_eq_flatMap, utf8_eq_flatMap, compare_flatMap_utf8EncodeChar, compare_toList]

theorem compare_ofUInt8 (x y : UInt8) :
    compare (Char.ofUInt8 x) (Char.ofUInt8 y) = compare x y := by
  have hlt : Char.ofUInt8 x < Char.ofUInt8 y ↔ x < y := by
    rw [Char.lt_def, UInt32.lt_iff_toNat_lt, UInt8.lt_iff_toNat_lt]
    rfl
  have heq : Char.ofUInt8 x = Char.ofUInt8 y ↔ x = y := by
    rw [← Char.toNat_inj, ← UInt8.toNat_inj]
    rfl
  exact compareOfLessAndEq_congr hlt heq

theorem compare_latin1 (a b : List UInt8) : compare (latin1 a) (latin1 b) = compare a b := by
  rw [← compare_toList, toList_latin1, toList_latin1]
  exact compare_map compare_ofUInt8 a b

/-- The larger byte is a character of two bytes and not the first of them. -/
example : compare (latin1 [0x7a, 0xff]) (latin1 [0xe9]) = .lt := by decide

/-! ## Names -/

/-- Signed words compare as the numbers that they were made of. -/
theorem VarNumber.compare_ofNat_value (m n : VarNumber) :
    compare (Int32.ofNat m.value) (Int32.ofNat n.value) = compare m.value n.value := by
  have hlt : Int32.ofNat m.value < Int32.ofNat n.value ↔ m.value < n.value := by
    rw [Int32.lt_iff_toInt_lt, m.toInt_ofNat_value, n.toInt_ofNat_value, Int.ofNat_lt]
  exact compareOfLessAndEq_congr hlt VarNumber.ofNat_value_eq_iff

namespace WrittenName

instance : Ord WrittenName where
  compare a b :=
    (compare a.origin.value b.origin.value).then <| (compare a.copy b.copy).then <|
      compare a.id.body b.id.body

theorem compare_name (a b : WrittenName) : compare a.name b.name = compare a b :=
  congrArg₂ Ordering.then (a.origin.compare_ofNat_value b.origin) <|
    congrArg (Ordering.then _) (compare_latin1 _ _)

end WrittenName

namespace WrittenRef

instance : Ord WrittenRef where
  compare a b := (compare a.objectType.body b.objectType.body).then <| compare a.name b.name

theorem compare_value (a b : WrittenRef) : compare a.value b.value = compare a b :=
  congrArg₂ Ordering.then (compare_latin1 _ _) (WrittenName.compare_name _ _)

end WrittenRef

namespace WrittenAttribute

instance : Ord WrittenAttribute where
  compare a b :=
    (compare a.ref.objectType.body b.ref.objectType.body).then <|
      (compare a.ref.name b.ref.name).then <| compare a.label.body b.label.body

theorem compare_value (a b : WrittenAttribute) : compare a.value b.value = compare a b :=
  congrArg₂ Ordering.then (compare_latin1 _ _) <|
    congrArg₂ Ordering.then (WrittenName.compare_name _ _) (compare_latin1 _ _)

end WrittenAttribute

/-! ## Names that are the same -/

theorem ObjectName.compare_eq_iff {a b : ObjectName} : compare a b = .eq ↔ a = b := by
  obtain ⟨origin, copy, id⟩ := a
  obtain ⟨origin', copy', id'⟩ := b
  show ((compare origin origin').then <| (compare copy copy').then <| compare id id') = .eq ↔ _
  simp only [Ordering.then_eq_eq, Std.LawfulEqCmp.compare_eq_iff_eq, ObjectName.mk.injEq]

theorem ObjectName.hasParts_iff_compare (a b : ObjectName) :
    a.hasParts b.parts = true ↔ compare a b = .eq := by
  rw [hasParts_iff, compare_eq_iff]

theorem ObjectRef.compare_eq_iff {a b : ObjectRef} : compare a b = .eq ↔ a = b := by
  obtain ⟨objectType, name⟩ := a
  obtain ⟨objectType', name'⟩ := b
  show ((compare objectType objectType').then <| compare name name') = .eq ↔ _
  simp only [Ordering.then_eq_eq, Std.LawfulEqCmp.compare_eq_iff_eq, ObjectName.compare_eq_iff,
    ObjectRef.mk.injEq]

theorem ObjectRef.hasParts_iff_compare (a b : ObjectRef) :
    a.hasParts b.parts = true ↔ compare a b = .eq := by
  rw [hasParts_iff, compare_eq_iff]

theorem AttributeRef.compare_eq_iff {a b : AttributeRef} : compare a b = .eq ↔ a = b := by
  obtain ⟨objectType, name, label⟩ := a
  obtain ⟨objectType', name', label'⟩ := b
  show ((compare objectType objectType').then <| (compare name name').then <|
    compare label label') = .eq ↔ _
  simp only [Ordering.then_eq_eq, Std.LawfulEqCmp.compare_eq_iff_eq, ObjectName.compare_eq_iff,
    AttributeRef.mk.injEq]

theorem AttributeRef.hasParts_iff_compare (a b : AttributeRef) :
    a.hasParts b.parts = true ↔ compare a b = .eq := by
  rw [hasParts_iff, compare_eq_iff]

namespace Cursor

/-- What is read has been written, and two values that are read are in the order of what was written
for them. -/
structure ReadsInOrder {α β : Type} [Ord α] [Ord β]
    (read : Cursor → Except OutOfBounds (α × Cursor)) (bytes : β → List UInt8) : Prop where
  written : ∀ c a c', read c = .ok (a, c') → ∃ w, c.Passes (bytes w) c'
  compare_eq : ∀ c a c' d b d' w w', read c = .ok (a, c') → read d = .ok (b, d') →
    c.Passes (bytes w) c' → d.Passes (bytes w') d' → compare a b = compare w w'

theorem IsLossless.readsInOrder {α β : Type} [Ord α] [Ord β]
    {read : Cursor → Except OutOfBounds (α × Cursor)} {bytes : β → List UInt8} {value : β → α}
    {Says : β → α → Prop} {Rewidened : β → β → Prop} (h : IsLossless read bytes Says Rewidened)
    (hmeans : ∀ {w a}, Says w a ↔ value w = a) (hbytes : ∀ {w w'}, bytes w = bytes w' → w = w')
    (hcompare : ∀ w w', compare (value w) (value w') = compare w w') : ReadsInOrder read bytes := by
  constructor
  case written =>
    intro c a c' hc
    obtain ⟨w, -, hw⟩ := h.written c a c' hc
    exact ⟨w, hw⟩
  case compare_eq =>
    intro c a c' d b d' w w' hc hd hw hw'
    obtain ⟨v, ha, hv⟩ := h.written c a c' hc
    obtain ⟨v', hb, hv'⟩ := h.written d b d' hd
    obtain rfl := hbytes (hw.bytes_unique hv)
    obtain rfl := hbytes (hw'.bytes_unique hv')
    rw [← hmeans.mp ha, ← hmeans.mp hb, hcompare]

/-- Names and references are in the order of what was written for them. -/
theorem readsInOrder_names :
    ReadsInOrder objectName WrittenName.bytes ∧ ReadsInOrder objectRef WrittenRef.bytes
      ∧ ReadsInOrder attributeRef WrittenAttribute.bytes :=
  ⟨isLossless_objectName.readsInOrder WrittenName.says_iff WrittenName.bytes_inj
      WrittenName.compare_name,
    isLossless_objectRef.readsInOrder WrittenRef.says_iff WrittenRef.bytes_inj
      WrittenRef.compare_value,
    isLossless_attributeRef.readsInOrder WrittenAttribute.says_iff WrittenAttribute.bytes_inj
      WrittenAttribute.compare_value⟩

end Cursor

/-- A text compares as its bytes in UTF-8, one that was read from Latin-1 as the bytes of that, and
a name as its parts. It has the parts of another one if the two compare as equal. -/
theorem compare_as_bytes :
    (∀ a b : List UInt8, compare (utf8 (latin1 a)) (utf8 (latin1 b)) = compare a b)
      ∧ (∀ a b : List UInt8, latin1 a = latin1 b ↔ a = b)
      ∧ (∀ a : List UInt8, (latin1 a).length = a.length)
      ∧ (∀ s t : String, compare s t = compare (utf8 s) (utf8 t))
      ∧ Cursor.ReadsInOrder Cursor.objectName WrittenName.bytes
      ∧ Cursor.ReadsInOrder Cursor.objectRef WrittenRef.bytes
      ∧ Cursor.ReadsInOrder Cursor.attributeRef WrittenAttribute.bytes
      ∧ (∀ (name : ObjectName) (origin : Int32) (copy : UInt8) (id : String),
        name.hasParts (origin, copy, id) = true ↔ compare name ⟨origin, copy, id⟩ = .eq)
      ∧ (∀ (ref : ObjectRef) (objectType : String) (origin : Int32) (copy : UInt8) (id : String),
        ref.hasParts (objectType, origin, copy, id) = true
          ↔ compare ref ⟨objectType, origin, copy, id⟩ = .eq)
      ∧ ∀ (ref : AttributeRef) (objectType : String) (origin : Int32) (copy : UInt8)
        (id label : String), ref.hasParts (objectType, (origin, copy, id), label) = true
          ↔ compare ref ⟨objectType, ⟨origin, copy, id⟩, label⟩ = .eq := by
  obtain ⟨hname, href, hattribute⟩ := Cursor.readsInOrder_names
  refine ⟨fun a b => ?_, fun a b => ⟨latin1_injective, fun h => h ▸ rfl⟩, fun a => ?_,
    fun s t => (compare_utf8 s t).symm, hname, href, hattribute, ?_, ?_, ?_⟩
  · rw [compare_utf8, compare_latin1]
  · rw [← String.length_toList, toList_latin1, List.length_map]
  · exact fun name origin copy id => name.hasParts_iff_compare ⟨origin, copy, id⟩
  · exact fun ref objectType origin copy id =>
      ref.hasParts_iff_compare ⟨objectType, origin, copy, id⟩
  · exact fun ref objectType origin copy id label =>
      ref.hasParts_iff_compare ⟨objectType, ⟨origin, copy, id⟩, label⟩

end WellLog
