import Mathlib.Data.List.GetD
import WellLog.Buffer
import WellLog.Proofs.Placing

/-!
# Buffers that are laid out

A buffer that has been made for some columns stays one, whatever is stored in it: each of its rows
has the bytes and the slots of its layout (`Buffer.IsLaidOut.commit?`).

In such a buffer a row is stored whole, and nothing is left of the row that was there
(`Buffer.IsLaidOut.commit?_eq`).
-/

namespace WellLog

/-- What a column of the code holds when nothing has been stored in it. -/
def Code.blank? (identCapacity : Nat) (code : Code) : Option Value :=
  match code.inlineWidth? identCapacity with
  | some width => code.ofSlot? (List.replicate width 0)
  | none => some (.object .absent)

theorem Row.value?_blank {layout : Layout} {column : Column} (h : column.IsWithin layout) :
    (blank layout).value? column = column.code.blank? layout.identCapacity := by
  obtain ⟨code, ⟨offset, width⟩ | slot⟩ := column
  · obtain ⟨hw, hle⟩ := Column.isWithin_inline_iff.mp h
    have hmin : min width (layout.inlineStride - offset) = width := by omega
    simp only [value?, blank, Code.blank?, hw, part, List.drop_replicate, List.take_replicate, hmin]
  · obtain ⟨hw, hlt⟩ := Column.isWithin_object_iff.mp h
    simp only [value?, blank, Code.blank?, hw, List.getElem?_replicate, hlt, if_true,
      Option.map_some]

namespace Buffer

/-- The places of the buffer are those of some columns, and its rows are cut to them. -/
structure IsLaidOut (b : Buffer) : Prop where
  ofSpan : ∃ span identCapacity, b.layout = .ofSpan span identCapacity
  fits : ∀ row < b.size, (b.rows row).Fits b.layout

variable {b b' : Buffer}

theorem isLaidOut_blank (span : Span) (identCapacity size : Nat) :
    (blank (.ofSpan span identCapacity) size).IsLaidOut :=
  ⟨⟨span, identCapacity, rfl⟩, fun _ _ => Row.fits_blank _⟩

theorem IsLaidOut.isWithin (h : b.IsLaidOut) :
    ∀ column ∈ b.layout.columns, column.IsWithin b.layout := by
  obtain ⟨span, identCapacity, hl⟩ := h.ofSpan
  rw [hl]
  exact fun column => Layout.isWithin_ofSpan

theorem IsLaidOut.commit?_eq {row : Nat} {fields : List Field} (h : b.IsLaidOut)
    (hr : row < b.size) (ha : b.layout.accepts fields = true) :
    b.commit? row fields = some (b.replace row (.ofFields b.layout.columns fields)) := by
  obtain ⟨span, identCapacity, hl⟩ := h.ofSpan
  have hf := h.fits row hr
  rw [hl] at hf ha
  rw [commit?_eq_some_iff]
  refine ⟨b.rows row, stored?_eq_some_iff.mpr ⟨hr, rfl⟩, by rw [hl, ha], ?_⟩
  rw [hl, Row.storeAll_ofSpan hf ha]

theorem IsLaidOut.fits_ofFields {fields : List Field} (h : b.IsLaidOut)
    (ha : b.layout.accepts fields = true) :
    (Row.ofFields b.layout.columns fields).Fits b.layout := by
  obtain ⟨span, identCapacity, hl⟩ := h.ofSpan
  rw [hl] at ha ⊢
  exact Row.fits_ofFields ha

theorem IsLaidOut.replace {row : Nat} {fields : List Field} (h : b.IsLaidOut)
    (ha : b.layout.accepts fields = true) :
    (b.replace row (.ofFields b.layout.columns fields)).IsLaidOut := by
  refine ⟨h.ofSpan, fun other ho => ?_⟩
  unfold Buffer.replace
  by_cases he : other = row
  · simp only [he, if_true]
    exact h.fits_ofFields ha
  · simp only [he, if_false]
    exact h.fits other ho

theorem IsLaidOut.commit? {row : Nat} {fields : List Field} (h : b.IsLaidOut)
    (hc : b.commit? row fields = some b') : b'.IsLaidOut := by
  obtain ⟨old, hold, ha, -⟩ := commit?_eq_some_iff.mp hc
  rw [h.commit?_eq (stored?_eq_some_iff.mp hold).1 ha, Option.some.injEq] at hc
  exact hc ▸ h.replace ha

theorem value?_of_stored?_eq_none {row : Nat} (h : b.stored? row = none) (column : Nat) :
    b.value? row column = none := by
  rw [value?, h]
  cases b.layout.columns[column]? <;> rfl

/-! ## Blank rows -/

theorem value?_blank (span : Span) (identCapacity size row column : Nat) :
    (blank (.ofSpan span identCapacity) size).value? row column
      = if row < size then span[column]?.bind (Code.blank? identCapacity) else none := by
  have hcode := congrArg (·[column]?) (Layout.map_code_ofSpan span identCapacity)
  simp only [List.getElem?_map] at hcode
  show (Layout.ofSpan span identCapacity).columns[column]?.bind _ = _
  rw [← hcode]
  rcases hc : (Layout.ofSpan span identCapacity).columns[column]? with _ | place
  · simp
  · have hw := Layout.isWithin_ofSpan (List.mem_of_getElem? hc)
    have hcapacity : (Layout.ofSpan span identCapacity).identCapacity = identCapacity :=
      Layout.identCapacity_place span 0 0
    by_cases hr : row < size
    · simp [hr, Row.value?_blank hw, hcapacity]
    · simp [hr]

/-! ## Runs of rows -/

/-- The buffer with the rows of a list in place of its own, from a number on. -/
def replaceAll (b : Buffer) (first : Nat) (new : List Row) : Buffer :=
  { b with
    rows := fun row => if first ≤ row then new.getD (row - first) (b.rows row) else b.rows row }

theorem replaceAll_nil (first : Nat) : b.replaceAll first [] = b := by
  simp [replaceAll]

theorem replaceAll_cons (first : Nat) (row : Row) (new : List Row) :
    b.replaceAll first (row :: new) = (b.replace first row).replaceAll (first + 1) new := by
  unfold replaceAll Buffer.replace
  congr 1
  funext other
  simp only
  rcases Nat.lt_trichotomy other first with hlt | rfl | hlt
  · rw [if_neg (by omega), if_neg (by omega), if_neg (by omega)]
  · rw [if_pos (by omega), if_neg (by omega), if_pos rfl, Nat.sub_self, List.getD_cons_zero]
  · have hs : other - first = other - (first + 1) + 1 := by omega
    rw [if_pos (by omega), if_pos (by omega), if_neg (by omega), hs, List.getD_cons_succ]

/-- The rows of the list are the first ones, the others are those that were there. -/
theorem stored?_replaceAll {new : List Row} (h : new.length ≤ b.size) (row : Nat) :
    (b.replaceAll 0 new).stored? row = if row < new.length then new[row]? else b.stored? row := by
  unfold stored? replaceAll
  simp only [Nat.zero_le, if_true, Nat.sub_zero]
  by_cases hn : row < new.length
  · rw [if_pos hn, if_pos (Nat.lt_of_lt_of_le hn h), List.getElem?_eq_getElem hn,
      List.getD_eq_getElem _ _ hn]
  · rw [if_neg hn, List.getD_eq_default _ _ (Nat.le_of_not_lt hn)]

end Buffer

end WellLog
