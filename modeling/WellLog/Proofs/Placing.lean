import Mathlib.Data.List.Forall2
import WellLog.Row
import WellLog.Proofs.Slicing

/-!
# Rows are filled from front to back

The places of a layout follow one another, so a row that its fields have been written into is what
was in front of the first place and then one piece for each field (`Row.storeAll_place`). Nothing
else is left of the row that was there before.

Each piece is in the place of its column (`Row.holds_ofFields`), and the column reads it back
(`Row.map_value?_ofFields`).
-/

namespace WellLog

section Overwrite

variable {bytes image : List UInt8} {offset : Nat}

theorem length_overwrite (h : offset + image.length ≤ bytes.length) :
    (overwrite bytes offset image).length = bytes.length := by
  simp only [overwrite, List.length_append, List.length_take, List.length_drop]
  omega

theorem take_overwrite (h : offset + image.length ≤ bytes.length) :
    (overwrite bytes offset image).take (offset + image.length) = bytes.take offset ++ image := by
  have hl : (bytes.take offset ++ image).length = offset + image.length := by
    simp only [List.length_append, List.length_take]
    omega
  rw [overwrite, List.take_left' hl]

theorem take_set {α : Type} {l : List α} {slot : Nat} {a : α} (h : slot < l.length) :
    (l.set slot a).take (slot + 1) = l.take slot ++ [a] := by
  have hs : slot < (l.set slot a).length := by rwa [List.length_set]
  rw [List.take_succ_eq_append_getElem hs, List.take_set_of_le (Nat.le_refl slot),
    List.getElem_set_self]

end Overwrite

theorem length_identImage {width : Nat} {body : List UInt8} (h : 4 * body.length ≤ width) :
    (identImage width body).length = width := by
  have hb : (body.flatMap (toLittleEndian 4 ·.toNat)).length = 4 * body.length := by
    simp only [List.length_flatMap, length_toLittleEndian, List.map_const', List.sum_replicate_nat,
      Nat.mul_comm]
  rw [identImage, List.length_append, List.length_replicate, hb, Nat.add_sub_of_le h]

theorem toLittleEndian_four_toNat (c : UInt8) : toLittleEndian 4 c.toNat = [c, 0, 0, 0] := by
  have h : c.toNat / 256 = 0 := Nat.div_eq_of_lt c.toNat_lt
  simp only [toLittleEndian, h, UInt8.ofNat_toNat, Nat.zero_div]
  rfl

/-- A character is a word of which only the lowest byte is not zero. -/
theorem identImage_eq (width : Nat) (body : List UInt8) :
    identImage width body
      = body.flatMap (fun c => [c, 0, 0, 0]) ++ List.replicate (width - 4 * body.length) 0 := by
  simp only [identImage, toLittleEndian_four_toNat]

namespace Row

/-- The bytes and objects of the one in front of those of the other. -/
instance : Append Row := ⟨fun a b => ⟨a.bytes ++ b.bytes, a.objects ++ b.objects⟩⟩

variable (a b c : Row)

@[simp] theorem bytes_append : (a ++ b).bytes = a.bytes ++ b.bytes := rfl

@[simp] theorem objects_append : (a ++ b).objects = a.objects ++ b.objects := rfl

theorem append_assoc : a ++ b ++ c = a ++ (b ++ c) := by
  show Row.mk _ _ = Row.mk _ _
  simp only [bytes_append, objects_append, List.append_assoc]

/-- What a field leaves in a place that accepts it. -/
def piece : Storage → Field → Row
  | .inline _ _, .packed bytes => ⟨bytes, []⟩
  | .inline _ width, .ident body => ⟨identImage width body, []⟩
  | .object _, .object o => ⟨[], [o]⟩
  | _, _ => ⟨[], []⟩

/-- The row that fields fill, if nothing is left of what was there. -/
def ofFields : List Column → List Field → Row
  | column :: columns, field :: fields => piece column.storage field ++ ofFields columns fields
  | _, _ => ⟨[], []⟩

theorem ofFields_cons (column : Column) (columns : List Column) (field : Field)
    (fields : List Field) : ofFields (column :: columns) (field :: fields)
      = piece column.storage field ++ ofFields columns fields := rfl

/-- The part of a row in front of an offset and a slot. -/
def front (row : Row) (offset slot : Nat) : Row := ⟨row.bytes.take offset, row.objects.take slot⟩

/-- A row of a layout has all its bytes and all its slots. -/
structure Fits (layout : Layout) (row : Row) : Prop where
  bytes : row.bytes.length = layout.inlineStride
  objects : row.objects.length = layout.objectStride

theorem fits_blank (layout : Layout) : (blank layout).Fits layout :=
  ⟨List.length_replicate, List.length_replicate⟩

end Row

namespace Layout

variable {identCapacity : Nat}

theorem columns_cons (column : Column) (layout : Layout) :
    (layout.cons column).columns = column :: layout.columns := rfl

theorem accepts_cons_iff {column : Column} {layout : Layout} {fields : List Field} :
    (layout.cons column).accepts fields = true ↔ ∃ field rest, fields = field :: rest
      ∧ column.storage.accepts field = true ∧ layout.accepts rest = true := by
  cases fields with
  | nil => simp [accepts, cons]
  | cons field rest =>
    have h : (layout.cons column).accepts (field :: rest)
        = (column.storage.accepts field && layout.accepts rest) := by
      simp [accepts, cons, Bool.and_left_comm]
    rw [h, Bool.and_eq_true]
    constructor
    · rintro ⟨hf, hr⟩
      exact ⟨field, rest, rfl, hf, hr⟩
    · rintro ⟨_, _, ⟨⟩, hf, hr⟩
      exact ⟨hf, hr⟩

theorem le_inlineStride_place (span : Span) : ∀ offset slot,
    offset ≤ (place identCapacity offset slot span).inlineStride := by
  induction span with
  | nil => exact fun offset slot => Nat.le_refl offset
  | cons code rest ih =>
    intro offset slot
    unfold place
    split
    · exact Nat.le_trans (Nat.le_add_right ..) (ih _ _)
    · exact ih _ _

theorem le_objectStride_place (span : Span) : ∀ offset slot,
    slot ≤ (place identCapacity offset slot span).objectStride := by
  induction span with
  | nil => exact fun offset slot => Nat.le_refl slot
  | cons code rest ih =>
    intro offset slot
    unfold place
    split
    · exact ih _ _
    · exact Nat.le_trans (Nat.le_add_right ..) (ih _ _)

end Layout

/-- The place of the column is one for its code, and the rows of the layout have it. -/
def Column.IsWithin (layout : Layout) (column : Column) : Prop :=
  match column.storage, column.code.inlineWidth? layout.identCapacity with
  | .inline offset width, some codeWidth =>
    width = codeWidth ∧ offset + width ≤ layout.inlineStride
  | .object slot, none => slot < layout.objectStride
  | _, _ => False

theorem Column.isWithin_inline_iff {layout : Layout} {code : Code} {offset width : Nat} :
    (Column.mk code (.inline offset width)).IsWithin layout
      ↔ code.inlineWidth? layout.identCapacity = some width
        ∧ offset + width ≤ layout.inlineStride := by
  unfold IsWithin
  rcases code.inlineWidth? layout.identCapacity with _ | codeWidth
  · simp
  · simp [eq_comm]

theorem Column.isWithin_object_iff {layout : Layout} {code : Code} {slot : Nat} :
    (Column.mk code (.object slot)).IsWithin layout
      ↔ code.inlineWidth? layout.identCapacity = none ∧ slot < layout.objectStride := by
  unfold IsWithin
  rcases code.inlineWidth? layout.identCapacity with _ | codeWidth <;> simp

theorem Layout.identCapacity_place {identCapacity : Nat} (span : Span) : ∀ offset slot,
    (place identCapacity offset slot span).identCapacity = identCapacity := by
  induction span with
  | nil => exact fun offset slot => rfl
  | cons code rest ih =>
    intro offset slot
    unfold place
    split <;> exact ih _ _

theorem Layout.isWithin_place {identCapacity : Nat} (span : Span) : ∀ offset slot,
    ∀ column ∈ (place identCapacity offset slot span).columns,
      column.IsWithin (place identCapacity offset slot span) := by
  induction span with
  | nil => exact fun offset slot column h => absurd h List.not_mem_nil
  | cons code rest ih =>
    intro offset slot
    rcases hw : code.inlineWidth? identCapacity with _ | width
    · simp only [place, hw, columns_cons, List.forall_mem_cons]
      refine ⟨?_, ih offset (slot + 1)⟩
      have hlt : slot < (place identCapacity offset (slot + 1) rest).objectStride :=
        le_objectStride_place rest offset (slot + 1)
      exact Column.isWithin_object_iff.mpr ⟨by rw [cons, identCapacity_place, hw], hlt⟩
    · simp only [place, hw, columns_cons, List.forall_mem_cons]
      refine ⟨?_, ih (offset + width) slot⟩
      have hle : offset + width ≤ (place identCapacity (offset + width) slot rest).inlineStride :=
        le_inlineStride_place rest (offset + width) slot
      exact Column.isWithin_inline_iff.mpr ⟨by rw [cons, identCapacity_place, hw], hle⟩

theorem Layout.isWithin_ofSpan {identCapacity : Nat} {span : Span} {column : Column}
    (h : column ∈ (ofSpan span identCapacity).columns) :
    column.IsWithin (ofSpan span identCapacity) :=
  isWithin_place span 0 0 column h

/-- The value that a column has when it holds a field that its place accepts. -/
def Column.valueOf? (column : Column) (field : Field) : Option Value :=
  match column.storage, field with
  | .inline _ _, .packed bytes => column.code.ofSlot? bytes
  | .inline _ width, .ident body => column.code.ofSlot? (identImage width body)
  | .object _, .object o => some (.object o)
  | _, _ => none

namespace Row

variable {identCapacity : Nat} {row : Row} {storage : Storage} {field : Field}

/-- An inline place takes an image of its width, whatever the field is. -/
theorem exists_store_inline {offset width : Nat}
    (ha : (Storage.inline offset width).accepts field = true) : ∃ image : List UInt8,
      image.length = width ∧ piece (.inline offset width) field = ⟨image, []⟩
        ∧ ∀ row : Row, row.store (.inline offset width) field
            = ⟨overwrite row.bytes offset image, row.objects⟩ := by
  cases field with
  | packed image => exact ⟨image, by simpa [Storage.accepts] using ha, rfl, fun row => rfl⟩
  | ident body =>
    have hb : 4 * body.length ≤ width := by simpa [Storage.accepts] using ha
    exact ⟨identImage width body, length_identImage hb, rfl, fun row => rfl⟩
  | object o => exact absurd ha Bool.false_ne_true

theorem exists_store_object {slot : Nat} (ha : (Storage.object slot).accepts field = true) :
    ∃ o : Object, field = .object o := by
  cases field with
  | packed bytes => exact absurd ha Bool.false_ne_true
  | ident body => exact absurd ha Bool.false_ne_true
  | object o => exact ⟨o, rfl⟩

theorem length_ofFields {span : Span} {fields : List Field} {offset slot : Nat}
    (ha : (Layout.place identCapacity offset slot span).accepts fields = true) :
    offset + (ofFields (Layout.place identCapacity offset slot span).columns fields).bytes.length
        = (Layout.place identCapacity offset slot span).inlineStride
      ∧ slot
          + (ofFields (Layout.place identCapacity offset slot span).columns fields).objects.length
        = (Layout.place identCapacity offset slot span).objectStride := by
  induction span generalizing fields offset slot with
  | nil => exact ⟨rfl, rfl⟩
  | cons code rest ih =>
    rcases hw : code.inlineWidth? identCapacity with _ | width
    · simp only [Layout.place, hw, Layout.columns_cons] at ha ⊢
      obtain ⟨field, fields, rfl, hf, hrest⟩ := Layout.accepts_cons_iff.mp ha
      obtain ⟨o, rfl⟩ := exists_store_object hf
      obtain ⟨hb, ho⟩ := ih hrest
      refine ⟨hb, Eq.trans ?_ ho⟩
      rw [ofFields_cons, objects_append, List.length_append, ← Nat.add_assoc]
      rfl
    · simp only [Layout.place, hw, Layout.columns_cons] at ha ⊢
      obtain ⟨field, fields, rfl, hf, hrest⟩ := Layout.accepts_cons_iff.mp ha
      obtain ⟨image, rfl, hp, -⟩ := exists_store_inline hf
      obtain ⟨hb, ho⟩ := ih hrest
      rw [ofFields_cons, hp, bytes_append, objects_append, List.length_append, ← Nat.add_assoc]
      exact ⟨hb, ho⟩

theorem front_store_object {offset slot : Nat} {o : Object} (h : slot < row.objects.length) :
    (row.store (.object slot) (.object o)).front offset (slot + 1)
      = row.front offset slot ++ piece (.object slot) (.object o) := by
  show Row.mk _ (List.take _ (List.set _ _ _))
    = Row.mk (_ ++ []) (row.objects.take slot ++ [o])
  rw [take_set h, List.append_nil]
  rfl

theorem front_store_inline {offset width slot : Nat}
    (ha : (Storage.inline offset width).accepts field = true)
    (h : offset + width ≤ row.bytes.length) :
    (row.store (.inline offset width) field).front (offset + width) slot
      = row.front offset slot ++ piece (.inline offset width) field := by
  obtain ⟨image, rfl, hp, hs⟩ := exists_store_inline ha
  rw [hs, hp]
  show Row.mk (List.take _ (overwrite _ _ _)) _
    = Row.mk (row.bytes.take offset ++ image) (_ ++ [])
  rw [take_overwrite h, List.append_nil]
  rfl

theorem fits_store_object {layout : Layout} {slot : Nat} {o : Object} (h : row.Fits layout) :
    (row.store (.object slot) (.object o)).Fits layout :=
  ⟨h.bytes, List.length_set.trans h.objects⟩

theorem fits_store_inline {layout : Layout} {offset width : Nat}
    (ha : (Storage.inline offset width).accepts field = true)
    (hle : offset + width ≤ row.bytes.length) (h : row.Fits layout) :
    (row.store (.inline offset width) field).Fits layout := by
  obtain ⟨image, rfl, -, hs⟩ := exists_store_inline ha
  rw [hs]
  exact ⟨(length_overwrite hle).trans h.bytes, h.objects⟩

/-- Writing fields leaves what is in front of the first place, and puts the fields behind it. -/
theorem storeAll_place {span : Span} {fields : List Field} {offset slot : Nat}
    (hr : row.Fits (.place identCapacity offset slot span))
    (ha : (Layout.place identCapacity offset slot span).accepts fields = true) :
    row.storeAll (Layout.place identCapacity offset slot span).columns fields
      = row.front offset slot
        ++ ofFields (Layout.place identCapacity offset slot span).columns fields := by
  induction span generalizing row fields offset slot with
  | nil =>
    obtain ⟨bytes, objects⟩ := row
    obtain ⟨hb, ho⟩ : bytes.length = offset ∧ objects.length = slot := ⟨hr.bytes, hr.objects⟩
    show Row.mk bytes objects = Row.mk (bytes.take offset ++ []) (objects.take slot ++ [])
    rw [List.append_nil, List.append_nil, List.take_of_length_le (Nat.le_of_eq hb),
      List.take_of_length_le (Nat.le_of_eq ho)]
  | cons code rest ih =>
    rcases hw : code.inlineWidth? identCapacity with _ | width
    · simp only [Layout.place, hw, Layout.columns_cons] at hr ha ⊢
      obtain ⟨field, fields, rfl, hf, hrest⟩ := Layout.accepts_cons_iff.mp ha
      obtain ⟨o, rfl⟩ := exists_store_object hf
      have hlt : slot < row.objects.length := by
        rw [hr.objects]
        exact Layout.le_objectStride_place rest offset (slot + 1)
      have hr' : row.Fits (.place identCapacity offset (slot + 1) rest) := ⟨hr.bytes, hr.objects⟩
      rw [storeAll, ih (fits_store_object hr') hrest, front_store_object hlt, append_assoc,
        ofFields_cons]
    · simp only [Layout.place, hw, Layout.columns_cons] at hr ha ⊢
      obtain ⟨field, fields, rfl, hf, hrest⟩ := Layout.accepts_cons_iff.mp ha
      have hle : offset + width ≤ row.bytes.length := by
        rw [hr.bytes]
        exact Layout.le_inlineStride_place rest _ _
      have hr' : row.Fits (.place identCapacity (offset + width) slot rest) :=
        ⟨hr.bytes, hr.objects⟩
      rw [storeAll, ih (fits_store_inline hf hle hr') hrest, front_store_inline hf hle,
        append_assoc, ofFields_cons]

/-- Nothing is left of a row when fields have been written into it. -/
theorem storeAll_ofSpan {span : Span} {fields : List Field}
    (hr : row.Fits (.ofSpan span identCapacity))
    (ha : (Layout.ofSpan span identCapacity).accepts fields = true) :
    row.storeAll (Layout.ofSpan span identCapacity).columns fields
      = ofFields (Layout.ofSpan span identCapacity).columns fields :=
  storeAll_place hr ha

theorem fits_ofFields {span : Span} {fields : List Field}
    (ha : (Layout.ofSpan span identCapacity).accepts fields = true) :
    (ofFields (Layout.ofSpan span identCapacity).columns fields).Fits
      (.ofSpan span identCapacity) := by
  obtain ⟨hb, ho⟩ := length_ofFields ha
  exact ⟨(Nat.zero_add _).symm.trans hb, (Nat.zero_add _).symm.trans ho⟩

/-- Each place has what was given for it: an image as it is, the characters of an identifier as words
with zeros behind them, an object. -/
def Holds (row : Row) : Storage → Field → Prop
  | .inline offset width, .packed image => slice? row.bytes offset (offset + width) = some image
  | .inline offset width, .ident body => slice? row.bytes offset (offset + width)
      = some (body.flatMap (fun c => [c, 0, 0, 0]) ++ List.replicate (width - 4 * body.length) 0)
  | .object slot, .object o => row.objects[slot]? = some o
  | _, _ => False

theorem holds_inline {offset width : Nat} (ha : (Storage.inline offset width).accepts field = true)
    (h : slice? row.bytes offset (offset + width)
      = some (piece (.inline offset width) field).bytes) :
    row.Holds (.inline offset width) field := by
  cases field with
  | packed image => exact h
  | ident body =>
    rw [Holds, h, piece, identImage_eq]
  | object o => exact absurd ha Bool.false_ne_true

theorem value?_of_holds {column : Column} (h : row.Holds column.storage field) :
    row.value? column = column.valueOf? field := by
  have hpart : ∀ {offset width : Nat} {image : List UInt8},
      slice? row.bytes offset (offset + width) = some image →
        part offset width row.bytes = image := by
    intro offset width image hs
    rw [slice?] at hs
    split at hs
    · rw [Nat.add_sub_cancel_left] at hs
      exact Option.some.inj hs
    · cases hs
  obtain ⟨code, storage⟩ := column
  rcases storage with ⟨offset, width⟩ | slot
  · cases field with
    | packed image => simp only [value?, Column.valueOf?, hpart h]
    | ident body => simp only [value?, Column.valueOf?, hpart h, identImage_eq]
    | object o => exact h.elim
  · cases field with
    | packed image => exact h.elim
    | ident body => exact h.elim
    | object o =>
      have ho : row.objects[slot]? = some o := h
      simp only [value?, Column.valueOf?, ho, Option.map_some]

/-- Each piece is in its place, whatever row of places stands in front. -/
theorem holds_ofFields {span : Span} {fields : List Field} {offset slot : Nat} (row : Row)
    (hb : row.bytes.length = offset) (ho : row.objects.length = slot)
    (ha : (Layout.place identCapacity offset slot span).accepts fields = true) :
    List.Forall₂ (fun column field =>
        (row ++ ofFields (Layout.place identCapacity offset slot span).columns fields).Holds
          column.storage field)
      (Layout.place identCapacity offset slot span).columns fields := by
  induction span generalizing row fields offset slot with
  | nil =>
    cases fields with
    | nil => exact .nil
    | cons field fields => exact absurd ha Bool.false_ne_true
  | cons code rest ih =>
    rcases hw : code.inlineWidth? identCapacity with _ | width
    · simp only [Layout.place, hw, Layout.columns_cons] at ha ⊢
      obtain ⟨field, fields, rfl, hf, hrest⟩ := Layout.accepts_cons_iff.mp ha
      obtain ⟨o, rfl⟩ := exists_store_object hf
      rw [ofFields_cons, ← append_assoc]
      refine .cons ?_ (ih _ (by simpa [piece] using hb) (by simpa [piece] using ho) hrest)
      simp [Holds, piece, ← ho]
    · simp only [Layout.place, hw, Layout.columns_cons] at ha ⊢
      obtain ⟨field, fields, rfl, hf, hrest⟩ := Layout.accepts_cons_iff.mp ha
      obtain ⟨image, hi, hp, -⟩ := exists_store_inline hf
      rw [ofFields_cons, ← append_assoc]
      refine .cons (holds_inline hf ?_) (ih _ (by simp [hp, hb, hi]) (by simpa [hp] using ho) hrest)
      rw [bytes_append, bytes_append, hp, ← hb, ← hi, slice?_append]

/-- Each piece is read back by its column. -/
theorem map_value?_ofFields {span : Span} {fields : List Field} {offset slot : Nat} (row : Row)
    (hb : row.bytes.length = offset) (ho : row.objects.length = slot)
    (ha : (Layout.place identCapacity offset slot span).accepts fields = true) :
    (Layout.place identCapacity offset slot span).columns.map
        (row ++ ofFields (Layout.place identCapacity offset slot span).columns fields).value?
      = List.zipWith Column.valueOf?
          (Layout.place identCapacity offset slot span).columns fields := by
  have hmap : ∀ {row : Row} {columns : List Column} {fields : List Field},
      List.Forall₂ (fun column field => row.Holds column.storage field) columns fields →
        columns.map row.value? = List.zipWith Column.valueOf? columns fields := by
    intro row columns fields h
    induction h with
    | nil => rfl
    | cons hf _ ih => rw [List.map_cons, List.zipWith_cons_cons, value?_of_holds hf, ih]
  exact hmap (holds_ofFields row hb ho ha)

end Row

end WellLog
