import WellLog.Proofs.Reading

/-!
# Names are read without loss

A name is written with its origin in any width that can hold it, so one value has several encodings;
nothing else is lost or added. A read takes an encoding whole wherever it stands, every value that
is read has its encoding in front of the cursor, and two values are equal where their encodings
differ in the width of the origin only (`Cursor.IsLossless`).

This holds of the names of objects, and of the references to objects and to their attributes
(`Cursor.isLossless_names`).
-/

namespace WellLog

/-! ## What encodings say -/

/-- The text has one character for each byte of the body, and their numbers are the same. -/
def ShortText.Spells (t : ShortText) (s : String) : Prop :=
  ∀ k : Nat, s.toList[k]?.map Char.toNat = t.body[k]?.map UInt8.toNat

theorem ShortText.spells_iff {t : ShortText} {s : String} : t.Spells s ↔ latin1 t.body = s := by
  have hmap : t.Spells s ↔ s.toList.map Char.toNat = (latin1 t.body).toList.map Char.toNat := by
    rw [map_toNat_latin1, List.ext_getElem?_iff]
    simp only [Spells, List.getElem?_map]
  rw [hmap, List.map_inj_right fun _ _ => Char.toNat_inj.mp, String.toList_inj, eq_comm]

theorem ShortText.latin1_body_eq_iff {t u : ShortText} : latin1 t.body = latin1 u.body ↔ t = u := by
  refine ⟨fun h => ?_, fun h => h ▸ rfl⟩
  obtain ⟨body, _⟩ := t
  obtain ⟨body', _⟩ := u
  obtain rfl : body = body' := latin1_injective h
  rfl

/-- The width of a number is not seen in its signed word. -/
theorem VarNumber.ofNat_value_eq_iff {m n : VarNumber} :
    Int32.ofNat m.value = Int32.ofNat n.value ↔ m.value = n.value := by
  refine ⟨fun h => ?_, fun h => h ▸ rfl⟩
  have hi := congrArg Int32.toInt h
  rw [m.toInt_ofNat_value, n.toInt_ofNat_value] at hi
  exact Int.ofNat_inj.mp hi

namespace WrittenName

structure Says (w : WrittenName) (name : ObjectName) : Prop where
  origin : name.origin.toInt = w.origin.value
  copy : name.copy = w.copy
  id : w.id.Spells name.id

/-- The other encoding differs at most in the width of the origin. -/
def Rewidened (w w' : WrittenName) : Prop :=
  ∃ origin : VarNumber, origin.value = w.origin.value ∧ w' = { w with origin }

variable {w w' : WrittenName}

theorem says_iff {name : ObjectName} : w.Says name ↔ w.name = name := by
  have horigin : name.origin.toInt = w.origin.value ↔ Int32.ofNat w.origin.value = name.origin := by
    rw [← w.origin.toInt_ofNat_value, Int32.toInt_inj, eq_comm]
  rw [WrittenName.name, ObjectName.mk.injEq, ← horigin, ← ShortText.spells_iff]
  exact ⟨fun h => ⟨h.origin, h.copy.symm, h.id⟩, fun ⟨ho, hc, hi⟩ => ⟨ho, hc.symm, hi⟩⟩

theorem name_eq_iff : w.name = w'.name ↔ w.Rewidened w' := by
  rw [name, name, ObjectName.mk.injEq, VarNumber.ofNat_value_eq_iff, ShortText.latin1_body_eq_iff]
  constructor
  · rintro ⟨ho, hc, hi⟩
    exact ⟨w'.origin, ho.symm, by rw [hc, hi]⟩
  · rintro ⟨_, ho, rfl⟩
    exact ⟨ho.symm, rfl, rfl⟩

theorem bytes_inj (h : w.bytes = w'.bytes) : w = w' :=
  (append_inj (r := []) (s := []) (by rw [h])).1

end WrittenName

/-- A reference to an object. -/
structure WrittenRef where
  objectType : ShortText
  name : WrittenName

namespace WrittenRef

def bytes (w : WrittenRef) : List UInt8 := w.objectType.bytes ++ w.name.bytes

def value (w : WrittenRef) : ObjectRef := ⟨latin1 w.objectType.body, w.name.name⟩

structure Says (w : WrittenRef) (value : ObjectRef) : Prop where
  objectType : w.objectType.Spells value.objectType
  name : w.name.Says value.name

def Rewidened (w w' : WrittenRef) : Prop :=
  w.objectType = w'.objectType ∧ w.name.Rewidened w'.name

variable {w w' : WrittenRef}

theorem says_iff {value : ObjectRef} : w.Says value ↔ w.value = value := by
  rw [WrittenRef.value, ObjectRef.mk.injEq, ← ShortText.spells_iff, ← WrittenName.says_iff]
  exact ⟨fun h => ⟨h.objectType, h.name⟩, fun ⟨ht, hn⟩ => ⟨ht, hn⟩⟩

theorem value_eq_iff : w.value = w'.value ↔ w.Rewidened w' := by
  rw [value, value, ObjectRef.mk.injEq, ShortText.latin1_body_eq_iff, WrittenName.name_eq_iff]
  rfl

theorem append_inj {r s : List UInt8} (h : w.bytes ++ r = w'.bytes ++ s) : w = w' ∧ r = s := by
  simp only [bytes, List.append_assoc] at h
  obtain ⟨ht, hrest⟩ := ShortText.append_inj h
  obtain ⟨hn, hr⟩ := WrittenName.append_inj hrest
  exact ⟨congrArg₂ WrittenRef.mk ht hn, hr⟩

theorem bytes_inj (h : w.bytes = w'.bytes) : w = w' :=
  (append_inj (r := []) (s := []) (by rw [h])).1

end WrittenRef

/-- A reference to an attribute of an object. -/
structure WrittenAttribute where
  ref : WrittenRef
  label : ShortText

namespace WrittenAttribute

def bytes (w : WrittenAttribute) : List UInt8 := w.ref.bytes ++ w.label.bytes

def value (w : WrittenAttribute) : AttributeRef :=
  ⟨latin1 w.ref.objectType.body, w.ref.name.name, latin1 w.label.body⟩

structure Says (w : WrittenAttribute) (value : AttributeRef) : Prop where
  ref : w.ref.Says ⟨value.objectType, value.name⟩
  label : w.label.Spells value.label

def Rewidened (w w' : WrittenAttribute) : Prop :=
  w.ref.Rewidened w'.ref ∧ w.label = w'.label

variable {w w' : WrittenAttribute}

theorem says_iff {value : AttributeRef} : w.Says value ↔ w.value = value := by
  rw [WrittenAttribute.value, AttributeRef.mk.injEq, ← and_assoc, ← ObjectRef.mk.injEq,
    ← ShortText.spells_iff]
  exact ⟨fun h => ⟨WrittenRef.says_iff.mp h.ref, h.label⟩,
    fun ⟨hr, hl⟩ => ⟨WrittenRef.says_iff.mpr hr, hl⟩⟩

theorem value_eq_iff : w.value = w'.value ↔ w.Rewidened w' := by
  rw [value, value, AttributeRef.mk.injEq, ← and_assoc, ← ObjectRef.mk.injEq,
    ShortText.latin1_body_eq_iff]
  exact and_congr_left' WrittenRef.value_eq_iff

theorem bytes_inj (h : w.bytes = w'.bytes) : w = w' := by
  obtain ⟨hr, hrest⟩ := WrittenRef.append_inj h
  have hlabel : w.label = w'.label := (ShortText.append_inj (r := []) (s := []) (by rw [hrest])).1
  exact congrArg₂ WrittenAttribute.mk hr hlabel

end WrittenAttribute

namespace Cursor

/-- A read takes each encoding whole, wherever it stands and whatever follows, and gives what the
encoding says. It takes nothing else, and equal values come from encodings that are equal up to the
width of the origin. -/
structure IsLossless {α β : Type} (read : Cursor → Except OutOfBounds (α × Cursor))
    (bytes : β → List UInt8) (Says : β → α → Prop) (Rewidened : β → β → Prop) : Prop where
  taken : ∀ w position rest, ∃ a, Says w a
    ∧ read ⟨position, bytes w ++ rest⟩ = .ok (a, ⟨position + (bytes w).length, rest⟩)
  written : ∀ c a c', read c = .ok (a, c') → ∃ w, Says w a ∧ c.Passes (bytes w) c'
  eq_iff : ∀ c a c' d b d' e f, read c = .ok (a, c') → read d = .ok (b, d') →
    c.Passes e c' → d.Passes f d' →
      (a = b ↔ ∃ w w', bytes w = e ∧ bytes w' = f ∧ Rewidened w w')

theorem Passes.bytes_unique {c c' : Cursor} {a b : List UInt8} (ha : c.Passes a c')
    (hb : c.Passes b c') : a = b :=
  List.append_cancel_right (ha.rest.symm.trans hb.rest)

theorem IsLossless.of_eq_ok_iff {α β : Type} {read : Cursor → Except OutOfBounds (α × Cursor)}
    {bytes : β → List UInt8} {value : β → α} {Says : β → α → Prop} {Rewidened : β → β → Prop}
    (hread : ∀ {c a c'}, read c = .ok (a, c') ↔ ∃ w, value w = a ∧ c.Passes (bytes w) c')
    (hmeans : ∀ {w a}, Says w a ↔ value w = a)
    (hvalue : ∀ {w w'}, value w = value w' ↔ Rewidened w w')
    (hbytes : ∀ {w w'}, bytes w = bytes w' → w = w') :
    IsLossless read bytes Says Rewidened := by
  constructor
  case taken =>
    intro w position rest
    exact ⟨value w, hmeans.mpr rfl, hread.mpr ⟨w, rfl, rfl, rfl⟩⟩
  case written =>
    intro c a c' h
    obtain ⟨w, hw, hp⟩ := hread.mp h
    exact ⟨w, hmeans.mpr hw, hp⟩
  case eq_iff =>
    intro c a c' d b d' e f hc hd he hf
    obtain ⟨w, rfl, hw⟩ := hread.mp hc
    obtain ⟨w', rfl, hw'⟩ := hread.mp hd
    obtain rfl := he.bytes_unique hw
    obtain rfl := hf.bytes_unique hw'
    rw [hvalue]
    constructor
    · exact fun h => ⟨w, w', rfl, rfl, h⟩
    · rintro ⟨v, v', hv, hv', h⟩
      rwa [hbytes hv, hbytes hv'] at h

theorem isLossless_objectName :
    IsLossless objectName WrittenName.bytes WrittenName.Says WrittenName.Rewidened :=
  .of_eq_ok_iff objectName_eq_ok_iff WrittenName.says_iff WrittenName.name_eq_iff
    WrittenName.bytes_inj

theorem isLossless_objectRef :
    IsLossless objectRef WrittenRef.bytes WrittenRef.Says WrittenRef.Rewidened := by
  refine .of_eq_ok_iff ?_ WrittenRef.says_iff WrittenRef.value_eq_iff WrittenRef.bytes_inj
  intro c ref c'
  rw [objectRef_eq_ok_iff]
  exact ⟨fun ⟨t, n, h⟩ => ⟨⟨t, n⟩, h⟩, fun ⟨⟨t, n⟩, h⟩ => ⟨t, n, h⟩⟩

theorem isLossless_attributeRef :
    IsLossless attributeRef WrittenAttribute.bytes WrittenAttribute.Says
      WrittenAttribute.Rewidened := by
  refine .of_eq_ok_iff ?_ WrittenAttribute.says_iff WrittenAttribute.value_eq_iff
    WrittenAttribute.bytes_inj
  intro c value c'
  rw [attributeRef_eq_ok_iff]
  exact ⟨fun ⟨t, n, l, h⟩ => ⟨⟨⟨t, n⟩, l⟩, h⟩, fun ⟨⟨⟨t, n⟩, l⟩, h⟩ => ⟨t, n, l, h⟩⟩

/-- Names and references are read without loss. -/
theorem isLossless_names :
    IsLossless objectName WrittenName.bytes WrittenName.Says WrittenName.Rewidened
      ∧ IsLossless objectRef WrittenRef.bytes WrittenRef.Says WrittenRef.Rewidened
      ∧ IsLossless attributeRef WrittenAttribute.bytes WrittenAttribute.Says
          WrittenAttribute.Rewidened :=
  ⟨isLossless_objectName, isLossless_objectRef, isLossless_attributeRef⟩

end Cursor

end WellLog
