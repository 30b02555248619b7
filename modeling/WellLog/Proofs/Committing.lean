import Mathlib.Data.List.TakeWhile
import WellLog.Fault
import WellLog.Proofs.Flattening
import WellLog.Proofs.Stored

/-!
# All of a row or nothing

Storing the fields of a row looks at all of them first and then writes them one after another into
the arrays of the buffer, where a field of the wrong kind would stop it with some of them written.
This does not happen: either all fields are taken, or the arrays stay as they are
(`FlatBuffer.commit_eq`).

They are taken exactly if the row exists and each column has a field that its place takes. Then each
place has its own field, and no other row is touched (`Buffer.commit_stores`).
-/

namespace WellLog

/-! ## What a place takes -/

/-- An inline place takes an image of just its width, or an identifier for which it has room. -/
inductive Storage.Takes : Storage → Field → Prop
  | packed {offset width : Nat} {image : List UInt8} (h : image.length = width) :
    Takes (.inline offset width) (.packed image)
  | ident {offset width : Nat} {body : List UInt8} (h : 4 * body.length ≤ width) :
    Takes (.inline offset width) (.ident body)
  | object {slot : Nat} {o : Object} : Takes (.object slot) (.object o)

/-- The place and the field are of one kind, whatever their sizes. -/
def Storage.isFor : Storage → Field → Bool
  | .inline _ _, .packed _ | .inline _ _, .ident _ | .object _, .object _ => true
  | _, _ => false

theorem Storage.accepts_iff {storage : Storage} {field : Field} :
    storage.accepts field = true ↔ storage.Takes field := by
  rcases storage with ⟨offset, width⟩ | slot
  · cases field with
    | packed image =>
      exact ⟨fun h => .packed (beq_iff_eq.mp h), fun | .packed h => beq_iff_eq.mpr h⟩
    | ident body =>
      exact ⟨fun h => .ident (of_decide_eq_true h), fun | .ident h => decide_eq_true h⟩
    | object o => exact ⟨fun h => absurd h Bool.false_ne_true, fun h => nomatch h⟩
  · cases field with
    | packed image => exact ⟨fun h => absurd h Bool.false_ne_true, fun h => nomatch h⟩
    | ident body => exact ⟨fun h => absurd h Bool.false_ne_true, fun h => nomatch h⟩
    | object o => exact ⟨fun _ => .object, fun _ => rfl⟩

theorem Storage.isFor_of_accepts {storage : Storage} {field : Field}
    (h : storage.accepts field = true) : storage.isFor field = true := by
  obtain _ | _ | _ := accepts_iff.mp h <;> rfl

theorem Layout.accepts_iff {layout : Layout} {fields : List Field} :
    layout.accepts fields = true
      ↔ List.Forall₂ (fun column field => column.storage.Takes field) layout.columns fields := by
  simp only [accepts, Bool.and_eq_true, beq_iff_eq, List.all_eq_true, Prod.forall,
    Storage.accepts_iff, List.forall₂_iff_zip]

/-! ## Writing in place -/

/-- Writes field after field. What has been written stays where a field of the wrong kind follows,
and all is none if something that is written is out of range. -/
def Row.storeEach? : Row → List Column → List Field → Option (Except Fault Unit × Row)
  | row, column :: columns, field :: fields =>
    if column.storage.isFor field then do
      let row ← row.store? column.storage field
      row.storeEach? columns fields
    else some (.error .layoutMismatch, row)
  | row, _, _ => some (.ok (), row)

theorem Row.storeEach?_eq {columns : List Column} {fields : List Field}
    (ha : (columns.zip fields).all (fun (column, field) => column.storage.accepts field) = true) :
    ∀ row : Row, row.storeEach? columns fields
      = (row.storeAll? columns fields).map fun new => (.ok (), new) := by
  induction columns generalizing fields with
  | nil => exact fun row => rfl
  | cons column columns ih =>
    cases fields with
    | nil => exact fun row => rfl
    | cons field fields =>
      intro row
      rw [List.zip_cons_cons, List.all_cons, Bool.and_eq_true] at ha
      -- A field that is accepted is of the right kind, so the writing does not stop at it.
      rw [storeEach?, storeAll?, if_pos (Storage.isFor_of_accepts ha.1)]
      cases row.store? column.storage field with
      | none => rfl
      | some new => exact ih ha.2 new

namespace FlatBuffer

/-- What storing fields in a row returns, and the buffer as it is then. -/
def commit (b : FlatBuffer) (row : Nat) (fields : List Field) :
    Option (Except Fault Unit × FlatBuffer) :=
  if row < b.size then do
    let old ← b.row? row
    if b.layout.accepts fields then
      let (result, new) ← old.storeEach? b.layout.columns fields
      return (result, ← b.replace? row new)
    else return (.error .layoutMismatch, b)
  else return (.error .layoutMismatch, b)

/-- The buffer is a new one with all the fields, or the old one. -/
theorem commit_eq (b : FlatBuffer) (row : Nat) (fields : List Field) :
    b.commit row fields = (b.commit? row fields).map fun
      | some new => (.ok (), new)
      | none => (.error .layoutMismatch, b) := by
  unfold commit commit?
  by_cases hr : row < b.size
  · rw [if_pos hr, if_pos hr]
    rcases b.row? row with _ | old
    · rfl
    · simp only [Option.bind_eq_bind, Option.bind_some]
      by_cases ha : b.layout.accepts fields = true
      · rw [if_pos ha, if_pos ha, Row.storeEach?_eq (Bool.and_eq_true_iff.mp ha).2]
        rcases old.storeAll? b.layout.columns fields with _ | new
        · rfl
        · simp only [Option.map_some, Option.bind_some]
          cases b.replace? row new <;> rfl
      · rw [if_neg ha, if_neg ha]
        rfl
  · rw [if_neg hr, if_neg hr]
    rfl

/-! ## Reading

As with storing, what is read is none at all if something that it takes is out of range.
-/

/-- The bytes of a row, if it is one of the buffer. -/
def rowBytes? (b : FlatBuffer) (row : Nat) : Option (Option (List UInt8)) :=
  if row < b.size then do
    return some
      (← slice? b.bytes (row * b.layout.inlineStride) ((row + 1) * b.layout.inlineStride))
  else return none

/-- The objects of a row, if it is one of the buffer. -/
def rowObjects? (b : FlatBuffer) (row : Nat) : Option (Option (List Object)) :=
  if row < b.size then do
    return some
      (← slice? b.objects (row * b.layout.objectStride) ((row + 1) * b.layout.objectStride))
  else return none

/-- The value in a column of a row, if there are such a row and such a column. -/
def value? (b : FlatBuffer) (row column : Nat) : Option (Option Value) :=
  match b.layout.columns[column]? with
  | none => return none
  | some ⟨_, .object slot⟩ => do
    let objects ← b.rowObjects? row
    return objects.bind fun objects => objects[slot]?.map .object
  | some ⟨code, .inline offset width⟩ => do
    let bytes ← b.rowBytes? row
    return bytes.bind fun bytes => (slice? bytes offset (offset + width)).bind code.ofSlot?

end FlatBuffer

namespace Buffer

variable {b b' : Buffer} {row : Nat} {fields : List Field}

theorem rowBytes?_flat (h : b.IsLaidOut) (row : Nat) :
    b.flat.rowBytes? row = some (b.rowBytes? row) := by
  unfold FlatBuffer.rowBytes? Buffer.rowBytes? stored?
  by_cases hr : row < b.size
  · have hbytes := slice?_flatMap_range (fun other ho => (h.fits other ho).bytes) hr
    simp only [flat, hbytes, hr, if_true, Option.bind_eq_bind, Option.bind_some]
    rfl
  · rw [if_neg (show ¬row < b.flat.size from hr), if_neg hr]
    rfl

theorem rowObjects?_flat (h : b.IsLaidOut) (row : Nat) :
    b.flat.rowObjects? row = some (b.rowObjects? row) := by
  unfold FlatBuffer.rowObjects? Buffer.rowObjects? stored?
  by_cases hr : row < b.size
  · have hobjects := slice?_flatMap_range (fun other ho => (h.fits other ho).objects) hr
    simp only [flat, hobjects, hr, if_true, Option.bind_eq_bind, Option.bind_some]
    rfl
  · rw [if_neg (show ¬row < b.flat.size from hr), if_neg hr]
    rfl

/-- In the arrays of a buffer that is laid out a value is read as in the buffer. -/
theorem value?_flat (h : b.IsLaidOut) (row column : Nat) :
    b.flat.value? row column = some (b.value? row column) := by
  unfold FlatBuffer.value? Buffer.value?
  rw [show b.flat.layout = b.layout from rfl]
  rcases hc : b.layout.columns[column]? with _ | ⟨code, ⟨offset, width⟩ | slot⟩
  · rfl
  · simp only [rowBytes?_flat h, Buffer.rowBytes?, Option.bind_eq_bind, Option.bind_some,
      Option.bind_map, Function.comp_def]
    rcases hs : b.stored? row with _ | old
    · rfl
    · obtain ⟨hr, rfl⟩ := stored?_eq_some_iff.mp hs
      have hle : offset + width ≤ (b.rows row).bytes.length := by
        rw [(h.fits row hr).bytes]
        exact (Column.isWithin_inline_iff.mp (h.isWithin _ (List.mem_of_getElem? hc))).2
      simp only [Option.bind_some, slice?_add hle]
      rfl
  · simp only [rowObjects?_flat h, Buffer.rowObjects?, Option.bind_eq_bind, Option.bind_some,
      Option.bind_map, Function.comp_def]
    rcases hs : b.stored? row with _ | old <;> rfl

/-! ## Rows that are stored -/

/-- The new buffer has the fields in the row, and everything else is as it was in the old one. An
identifier is read back up to its first null character. -/
structure Stores (b : Buffer) (row : Nat) (fields : List Field) (b' : Buffer) : Prop where
  layout : b'.layout = b.layout
  size : b'.size = b.size
  laidOut : b'.IsLaidOut
  others : ∀ other, other ≠ row → b'.stored? other = b.stored? other
  held : ∃ new, b'.stored? row = some new ∧ b'.flat.row? row = some new
    ∧ b.flat.replace? row new = some b'.flat
    ∧ List.Forall₂ (fun column field => new.Holds column.storage field) b.layout.columns fields
  read : ∀ column, b'.flat.value? row column = some (b'.value? row column)
  objects : ∀ column o, fields[column]? = some (.object o) →
    b'.value? row column = some (.object o)
  idents : ∀ column body, fields[column]? = some (.ident body) →
    ∀ code storage, b.layout.columns[column]? = some ⟨code, storage⟩ →
      code = .ident ∨ code = .units →
        b'.value? row column = some (.ident (latin1 (body.takeWhile (· ≠ 0))))
          ∧ (0 ∉ body → b'.value? row column = some (.ident (latin1 body)))

theorem exists_getElem?_of_forall₂ {α β : Type} {R : α → β → Prop} {as : List α} {bs : List β}
    (h : List.Forall₂ R as bs) {i : Nat} {y : β} (hi : bs[i]? = some y) :
    ∃ x, as[i]? = some x ∧ R x y := by
  induction h generalizing i with
  | nil => cases hi
  | @cons x _ _ _ hxy _ ih =>
    cases i with
    | zero =>
      obtain rfl := Option.some.inj hi
      exact ⟨x, rfl, hxy⟩
    | succ i => exact ih hi

theorem holds_ofFields (h : b.IsLaidOut) (ha : b.layout.accepts fields = true) :
    List.Forall₂ (fun column field =>
        (Row.ofFields b.layout.columns fields).Holds column.storage field)
      b.layout.columns fields := by
  obtain ⟨span, identCapacity, hl⟩ := h.ofSpan
  rw [hl] at ha ⊢
  exact Row.holds_ofFields ⟨[], []⟩ rfl rfl ha

/-- What a row holds is read back by its column. -/
theorem value?_of_holds {new : Row} {column : Nat} {field : Field} (hs : b.stored? row = some new)
    (hh : List.Forall₂ (fun column field => new.Holds column.storage field)
      b.layout.columns fields) (hf : fields[column]? = some field) :
    ∃ place, b.layout.columns[column]? = some place ∧ new.Holds place.storage field
      ∧ b.value? row column = place.valueOf? field := by
  obtain ⟨place, hp, hplace⟩ := exists_getElem?_of_forall₂ hh hf
  refine ⟨place, hp, hplace, ?_⟩
  simp only [Buffer.value?, hp, hs, Option.bind_eq_bind, Option.bind_some]
  exact Row.value?_of_holds hplace

/-- The slot of an identifier has a word for each character that the layout allows. -/
theorem valueOf?_ident {layout : Layout} {code : Code} {storage : Storage}
    (hw : (Column.mk code storage).IsWithin layout) (hc : code = .ident ∨ code = .units)
    (body : List UInt8) :
    Column.valueOf? ⟨code, storage⟩ (.ident body)
      = some (.ident (latin1 (body.takeWhile (· ≠ 0)))) := by
  have hwidth : code.inlineWidth? layout.identCapacity = some (4 * layout.identCapacity) := by
    rcases hc with rfl | rfl <;> rfl
  have hslot : ∀ bytes, code.ofSlot? bytes = some (.ident (ofIdentImage bytes)) := by
    rcases hc with rfl | rfl <;> exact fun _ => rfl
  rcases storage with ⟨offset, width⟩ | slot
  · obtain rfl : 4 * layout.identCapacity = width :=
      Option.some.inj (hwidth.symm.trans (Column.isWithin_inline_iff.mp hw).1)
    simp only [Column.valueOf?, hslot, ofIdentImage_identImage]
  · cases hwidth.symm.trans (Column.isWithin_object_iff.mp hw).1

theorem stores_replace (h : b.IsLaidOut) (hr : row < b.size)
    (ha : b.layout.accepts fields = true) :
    b.Stores row fields (b.replace row (.ofFields b.layout.columns fields)) := by
  have hnew : (b.replace row (.ofFields b.layout.columns fields)).IsLaidOut := h.replace ha
  have hstored : (b.replace row (.ofFields b.layout.columns fields)).stored? row
      = some (.ofFields b.layout.columns fields) := by
    rw [stored?_replace _ hr, if_pos rfl]
  have hheld := holds_ofFields h ha
  refine ⟨rfl, rfl, hnew, fun other ho => ?_, ⟨_, hstored, ?_, ?_, hheld⟩,
    value?_flat hnew row, fun column o hf => ?_, fun column body hf code storage hc hcode => ?_⟩
  · rw [stored?_replace _ hr, if_neg ho]
  · rw [row?_flat hnew hr]
    exact congrArg some (stored?_eq_some_iff.mp hstored).2
  · exact replace?_flat h hr (h.fits_ofFields ha)
  · obtain ⟨⟨code, offset | slot⟩, -, hplace, hv⟩ := value?_of_holds hstored hheld hf
    · exact hplace.elim
    · exact hv
  · obtain ⟨place, hp, -, hv⟩ := value?_of_holds hstored hheld hf
    obtain rfl : ⟨code, storage⟩ = place := Option.some.inj (hc.symm.trans hp)
    rw [valueOf?_ident (h.isWithin _ (List.mem_of_getElem? hc)) hcode] at hv
    refine ⟨hv, fun hz => ?_⟩
    rw [hv, List.takeWhile_eq_self_iff.mpr]
    intro c hmem
    exact decide_eq_true fun hc => hz (hc ▸ hmem)

/-- The buffer may hold anything, and the fields may be any. -/
theorem commit_stores (h : b.IsLaidOut) (row : Nat) (fields : List Field) :
    (row < b.size ∧ List.Forall₂ (fun column field => column.storage.Takes field)
        b.layout.columns fields →
      ∃ b', b.commit? row fields = some b' ∧ b.flat.commit row fields = some (.ok (), b'.flat)
        ∧ b.Stores row fields b')
    ∧ (¬(row < b.size ∧ List.Forall₂ (fun column field => column.storage.Takes field)
        b.layout.columns fields) →
      b.commit? row fields = none
        ∧ b.flat.commit row fields = some (.error .layoutMismatch, b.flat)) := by
  have hflat : b.flat.commit row fields = _ := FlatBuffer.commit_eq b.flat row fields
  rw [commit?_flat h] at hflat
  rw [← Layout.accepts_iff]
  constructor
  · rintro ⟨hr, ha⟩
    have hc := h.commit?_eq hr ha
    rw [hc] at hflat
    exact ⟨_, hc, hflat, stores_replace h hr ha⟩
  · intro hnot
    have hc : b.commit? row fields = none := by
      rw [Option.eq_none_iff_forall_ne_some]
      intro b' hc
      obtain ⟨old, hold, ha, -⟩ := commit?_eq_some_iff.mp hc
      exact hnot ⟨(stored?_eq_some_iff.mp hold).1, ha⟩
    rw [hc] at hflat
    exact ⟨hc, hflat⟩

/-- An identifier takes the place of a longer one, of which nothing is left, and one of three
characters is refused. -/
theorem commit_stores_ident : ∃ b b' : Buffer,
    (blank (.ofSpan [.ident, .ascii] 2) 2).commit? 1 [.ident [65, 66], .object .absent] = some b
      ∧ b.commit? 1 [.ident [90], .object .absent] = some b'
      ∧ b'.stored? 1 = some ⟨[90, 0, 0, 0, 0, 0, 0, 0], [.absent]⟩
      ∧ b'.stored? 0 = some (.blank (.ofSpan [.ident, .ascii] 2))
      ∧ b'.value? 1 0 = some (.ident "Z")
      ∧ b.flat.commit 1 [.ident [65, 66, 67], .object .absent]
        = some (.error .layoutMismatch, b.flat) := by
  have hblank : (blank (.ofSpan [.ident, .ascii] 2) 2).IsLaidOut := isLaidOut_blank _ _ _
  have htakes : ∀ body : List UInt8, 4 * body.length ≤ 8 →
      List.Forall₂ (fun column field => column.storage.Takes field)
        (Layout.ofSpan [.ident, .ascii] 2).columns [.ident body, .object .absent] := fun body hb =>
    .cons (.ident hb) (.cons .object .nil)
  obtain ⟨b, hb, -, hstores⟩ :=
    (commit_stores hblank 1 _).1 ⟨by decide, htakes [65, 66] (by decide)⟩
  obtain ⟨b', hb', -, hstores'⟩ := (commit_stores hstores.laidOut 1 _).1
    ⟨by rw [hstores.size]; decide, by rw [hstores.layout]; exact htakes [90] (by decide)⟩
  obtain ⟨-, hrefused⟩ :=
    (commit_stores hstores.laidOut 1 [.ident [65, 66, 67], .object .absent]).2 (by
      rw [← Layout.accepts_iff, hstores.layout, hstores.size]
      decide)
  have hz := (hstores'.idents 0 [90] rfl .ident (.inline 0 8)
    (by rw [hstores.layout]; rfl) (.inl rfl)).1
  obtain rfl := Option.some.inj hb
  obtain rfl := Option.some.inj hb'
  exact ⟨_, _, hb, hb', rfl, rfl, hz, hrefused⟩

end Buffer

end WellLog
