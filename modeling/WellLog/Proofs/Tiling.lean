import WellLog.Proofs.Decoding

/-!
# Layouts tile their rows

A layout is filled column by column, with the bytes and the slots that are taken so far. Each column
keeps what was there a tiling (`Layout.IsTiling.add`), so the inline places of a layout follow one
another from the first byte of a row to the last, and the others are the slots in turn
(`Layout.isTiling_ofSpan`). As long as the sizes stay within the largest one, checking them changes
nothing (`Layout.filled?_eq`).

The columns of a layout tell the codes that it was made for, and it keeps its capacity, so no two
spans or capacities have one layout (`Layout.ofSpan_inj`).
-/

namespace WellLog

/-! ## Ranges -/

/-- Ranges that follow one another, without gap or overlap. -/
def Tiles : Nat → List (Nat × Nat) → Nat → Prop
  | start, [], stop => start = stop
  | start, range :: ranges, stop =>
    range.1 = start ∧ range.1 ≤ range.2 ∧ Tiles range.2 ranges stop

theorem Tiles.concat {width : Nat} : ∀ {start stop : Nat} {ranges : List (Nat × Nat)},
    Tiles start ranges stop → Tiles start (ranges ++ [(stop, stop + width)]) (stop + width)
  | _, _, [], h => ⟨h.symm, Nat.le_add_right _ _, rfl⟩
  | _, _, _ :: _, ⟨hstart, hle, h⟩ => ⟨hstart, hle, h.concat⟩

theorem Tiles.le : ∀ {start stop : Nat} {ranges : List (Nat × Nat)},
    Tiles start ranges stop → start ≤ stop
  | _, _, [], h => Nat.le_of_eq h
  | _, _, _ :: _, ⟨hstart, hle, h⟩ => hstart ▸ Nat.le_trans hle h.le

/-- The ranges cover what lies between the ends. -/
theorem Tiles.exists_mem_iff {p : Nat} : ∀ {start stop : Nat} {ranges : List (Nat × Nat)},
    Tiles start ranges stop →
      ((∃ range ∈ ranges, range.1 ≤ p ∧ p < range.2) ↔ start ≤ p ∧ p < stop)
  | start, stop, [], h => by
    have h : start = stop := h
    simp only [List.not_mem_nil, false_and, exists_false, false_iff]
    omega
  | _, _, _ :: _, ⟨hstart, hle, h⟩ => by
    have hstop := h.le
    simp only [List.mem_cons, exists_eq_or_imp, h.exists_mem_iff]
    omega

theorem Tiles.le_of_mem : ∀ {start stop : Nat} {ranges : List (Nat × Nat)},
    Tiles start ranges stop → ∀ range ∈ ranges, start ≤ range.1
  | _, _, range :: _, ⟨hstart, hle, h⟩, other, hother => by
    rcases List.mem_cons.mp hother with rfl | hother
    · exact Nat.le_of_eq hstart.symm
    · have hrest := h.le_of_mem other hother
      omega

/-- No range begins in front of the end of an earlier one. -/
theorem Tiles.pairwise : ∀ {start stop : Nat} {ranges : List (Nat × Nat)},
    Tiles start ranges stop → ranges.Pairwise fun a b => a.2 ≤ b.1
  | _, _, [], _ => .nil
  | _, _, _ :: _, ⟨_, _, h⟩ => .cons h.le_of_mem h.pairwise

/-! ## Places -/

namespace Storage

/-- The first byte of an inline place and the one behind it. -/
def range? : Storage → Option (Nat × Nat)
  | .inline offset width => some (offset, offset + width)
  | .object _ => none

def width? : Storage → Option Nat
  | .inline _ width => some width
  | .object _ => none

def slot? : Storage → Option Nat
  | .inline _ _ => none
  | .object slot => some slot

end Storage

/-- How many bytes the inline places of a span take. -/
def Span.inlineTotal (identCapacity : Nat) : Span → Nat
  | [] => 0
  | code :: rest => (code.inlineWidth? identCapacity).getD 0 + inlineTotal identCapacity rest

/-- How many objects a span has. -/
def Span.objectTotal (identCapacity : Nat) (fields : Span) : Nat :=
  fields.countP fun code => (code.inlineWidth? identCapacity).isNone

namespace Layout

def ranges (layout : Layout) : List (Nat × Nat) := layout.columns.filterMap (·.storage.range?)

def slots (layout : Layout) : List Nat := layout.columns.filterMap (·.storage.slot?)

def empty (identCapacity : Nat) : Layout := ⟨[], 0, 0, identCapacity⟩

def push (layout : Layout) (column : Column) (inlineStride objectStride : Nat) : Layout :=
  ⟨layout.columns ++ [column], inlineStride, objectStride, layout.identCapacity⟩

/-- The layout with one column more, behind the others. -/
def add (layout : Layout) (code : Code) : Layout :=
  match code.inlineWidth? layout.identCapacity with
  | some width =>
    layout.push ⟨code, .inline layout.inlineStride width⟩ (layout.inlineStride + width)
      layout.objectStride
  | none =>
    layout.push ⟨code, .object layout.objectStride⟩ layout.inlineStride (layout.objectStride + 1)

/-- A size, if it is not too large. -/
def size? (largest n : Nat) : Option Nat := if n ≤ largest then some n else none

/-- The layout with one column more, if no size on the way is too large. -/
def add? (largest : Nat) (layout : Layout) (code : Code) : Option Layout :=
  match code.inlineWidth? layout.identCapacity with
  | some width => do
    let width ← size? largest width
    let stride ← size? largest (layout.inlineStride + width)
    pure (layout.push ⟨code, .inline layout.inlineStride width⟩ stride layout.objectStride)
  | none => do
    let slots ← size? largest (layout.objectStride + 1)
    pure (layout.push ⟨code, .object layout.objectStride⟩ layout.inlineStride slots)

def filled? (largest : Nat) (fields : Span) (identCapacity : Nat) : Option Layout :=
  fields.foldlM (add? largest) (empty identCapacity)

/-- The columns are those of the codes, each in a place for its code, and the places follow one
another. -/
structure IsTiling (layout : Layout) (fields : Span) (capacity : Nat) : Prop where
  identCapacity : layout.identCapacity = capacity
  codes : layout.columns.map Column.code = fields
  widths : ∀ column ∈ layout.columns, column.storage.width? = column.code.inlineWidth? capacity
  ranges : Tiles 0 layout.ranges layout.inlineStride
  slots : layout.slots = List.range layout.objectStride

variable {layout : Layout} {code : Code} {fields rest : Span} {capacity capacity' largest : Nat}

/-! ## One column more -/

theorem filterMap_columns_push {α : Type} (f : Column → Option α) {column : Column}
    {inlineStride objectStride : Nat} :
    (layout.push column inlineStride objectStride).columns.filterMap f
      = layout.columns.filterMap f ++ (f column).toList := by
  rw [push, List.filterMap_append]
  cases h : f column <;> simp [h]

theorem identCapacity_add : (layout.add code).identCapacity = layout.identCapacity := by
  unfold add
  split <;> rfl

theorem inlineStride_add : (layout.add code).inlineStride
    = layout.inlineStride + (code.inlineWidth? layout.identCapacity).getD 0 := by
  unfold add
  cases code.inlineWidth? layout.identCapacity <;> rfl

theorem objectStride_add : (layout.add code).objectStride
    = layout.objectStride + if (code.inlineWidth? layout.identCapacity).isNone then 1 else 0 := by
  unfold add
  cases code.inlineWidth? layout.identCapacity <;> rfl

theorem IsTiling.push {column : Column} {inlineStride objectStride : Nat}
    (h : layout.IsTiling fields capacity)
    (hwidth : column.storage.width? = column.code.inlineWidth? capacity)
    (hranges : Tiles 0 (layout.ranges ++ column.storage.range?.toList) inlineStride)
    (hslots : layout.slots ++ column.storage.slot?.toList = List.range objectStride) :
    (layout.push column inlineStride objectStride).IsTiling (fields ++ [column.code]) capacity where
  identCapacity := h.identCapacity
  codes := by rw [Layout.push, List.map_append, h.codes, List.map_singleton]
  widths := by
    intro other hother
    rcases List.mem_append.mp hother with hmem | hmem
    · exact h.widths other hmem
    · rwa [List.mem_singleton.mp hmem]
  ranges := by rwa [Layout.ranges, filterMap_columns_push]
  slots := by rwa [Layout.slots, filterMap_columns_push]

/-- A column more is a tile more. -/
theorem IsTiling.add (h : layout.IsTiling fields capacity) (code : Code) :
    (layout.add code).IsTiling (fields ++ [code]) capacity := by
  unfold Layout.add
  rw [h.identCapacity]
  rcases hw : code.inlineWidth? capacity with _ | width
  · refine h.push hw.symm ?_ ?_
    · rw [Storage.range?, Option.toList_none, List.append_nil]
      exact h.ranges
    · rw [Storage.slot?, Option.toList_some, List.range_succ, h.slots]
  · refine h.push hw.symm h.ranges.concat ?_
    rw [Storage.slot?, Option.toList_none, List.append_nil]
    exact h.slots

/-! ## All columns -/

theorem isTiling_empty (capacity : Nat) : (empty capacity).IsTiling [] capacity where
  identCapacity := rfl
  codes := rfl
  widths := fun _ h => absurd h List.not_mem_nil
  ranges := rfl
  slots := rfl

theorem IsTiling.foldl : ∀ (rest : Span) {layout : Layout} {fields : Span},
    layout.IsTiling fields capacity →
      (rest.foldl Layout.add layout).IsTiling (fields ++ rest) capacity
  | [], _, _, h => by rwa [List.append_nil]
  | code :: rest, _, _, h => by
    rw [List.append_cons]
    exact (h.add code).foldl rest

/-- Placing columns from an offset and a slot on is adding them to what is there. -/
theorem foldl_add_eq_place : ∀ (fields : Span) (columns : List Column) (offset slot : Nat),
    fields.foldl add ⟨columns, offset, slot, capacity⟩
      = ⟨columns ++ (place capacity offset slot fields).columns,
          (place capacity offset slot fields).inlineStride,
          (place capacity offset slot fields).objectStride, capacity⟩
  | [], columns, _, _ => by rw [place, List.append_nil]; rfl
  | code :: rest, columns, offset, slot => by
    rw [List.foldl_cons, add, place]
    rcases code.inlineWidth? capacity with _ | width
    · simp only [push, foldl_add_eq_place rest, cons, ← List.append_cons]
    · simp only [push, foldl_add_eq_place rest, cons, ← List.append_cons]

theorem ofSpan_eq_foldl (fields : Span) (capacity : Nat) :
    ofSpan fields capacity = fields.foldl add (empty capacity) := by
  rw [empty, foldl_add_eq_place, List.nil_append, ofSpan]
  exact congrArg (Layout.mk _ _ _) (identCapacity_place fields 0 0)

theorem isTiling_ofSpan (fields : Span) (capacity : Nat) :
    (ofSpan fields capacity).IsTiling fields capacity := by
  rw [ofSpan_eq_foldl]
  exact (isTiling_empty capacity).foldl fields

example : (ofSpan [.origin, .ident, .ascii, .dtime, .uvari] 255).columns.map Column.storage
    = [.inline 0 4, .inline 4 1020, .object 0, .object 1, .inline 1024 4] := by decide

/-! ## Sizes -/

theorem inlineStride_foldl : ∀ (fields : Span) (layout : Layout),
    (fields.foldl add layout).inlineStride
      = layout.inlineStride + fields.inlineTotal layout.identCapacity
  | [], _ => rfl
  | code :: rest, layout => by
    rw [List.foldl_cons, inlineStride_foldl rest, inlineStride_add, identCapacity_add,
      Span.inlineTotal, Nat.add_assoc]

theorem objectStride_foldl : ∀ (fields : Span) (layout : Layout),
    (fields.foldl add layout).objectStride
      = layout.objectStride + fields.objectTotal layout.identCapacity
  | [], _ => rfl
  | code :: rest, layout => by
    rw [List.foldl_cons, objectStride_foldl rest, objectStride_add, identCapacity_add,
      Span.objectTotal, Span.objectTotal, List.countP_cons]
    omega

/-- The sizes of a layout are not too large. -/
def IsSized (largest : Nat) (layout : Layout) : Prop :=
  layout.inlineStride ≤ largest ∧ layout.objectStride ≤ largest

instance : Decidable (IsSized largest layout) := inferInstanceAs (Decidable (_ ∧ _))

theorem IsSized.of_foldl (h : IsSized largest (fields.foldl add layout)) :
    IsSized largest layout := by
  unfold IsSized at h ⊢
  rw [inlineStride_foldl, objectStride_foldl] at h
  omega

theorem size?_of_le {n : Nat} (h : n ≤ largest) : size? largest n = some n := if_pos h

theorem size?_of_not_le {n : Nat} (h : ¬n ≤ largest) : size? largest n = none := if_neg h

theorem add?_eq (h : IsSized largest layout) :
    add? largest layout code
      = if IsSized largest (layout.add code) then some (layout.add code) else none := by
  obtain ⟨hinline, hobject⟩ := h
  unfold add? add
  rcases code.inlineWidth? layout.identCapacity with _ | width
  · by_cases hs : layout.objectStride + 1 ≤ largest
    · rw [size?_of_le hs, if_pos ⟨hinline, hs⟩]
      rfl
    · rw [size?_of_not_le hs, if_neg fun hsized => hs hsized.2]
      rfl
  · by_cases hs : layout.inlineStride + width ≤ largest
    · have hw : width ≤ largest := Nat.le_trans (Nat.le_add_left ..) hs
      simp only [size?_of_le hw, size?_of_le hs, Option.bind_eq_bind, Option.bind_some]
      rw [if_pos ⟨hs, hobject⟩]
      rfl
    · have hsized : ¬IsSized largest (layout.push ⟨code, .inline layout.inlineStride width⟩
          (layout.inlineStride + width) layout.objectStride) := fun hsized => hs hsized.1
      rw [if_neg hsized]
      by_cases hw : width ≤ largest
      · simp only [size?_of_le hw, size?_of_not_le hs, Option.bind_eq_bind, Option.bind_some,
          Option.bind_none]
      · simp only [size?_of_not_le hw, Option.bind_eq_bind, Option.bind_none]

theorem foldlM_add? : ∀ (fields : Span) {layout : Layout}, IsSized largest layout →
    fields.foldlM (add? largest) layout
      = if IsSized largest (fields.foldl add layout) then some (fields.foldl add layout) else none
  | [], _, h => (if_pos h).symm
  | code :: rest, layout, h => by
    rw [List.foldlM_cons, add?_eq h, List.foldl_cons]
    by_cases hadd : IsSized largest (layout.add code)
    · rw [if_pos hadd]
      exact foldlM_add? rest hadd
    · -- A size that is too large stays so, whatever is added.
      rw [if_neg hadd, if_neg fun hall => hadd hall.of_foldl]
      rfl

/-- A layout is filled unless a row has more bytes or objects than can be counted. -/
theorem filled?_eq (largest : Nat) (fields : Span) (capacity : Nat) :
    filled? largest fields capacity
      = if fields.inlineTotal capacity ≤ largest ∧ fields.objectTotal capacity ≤ largest
        then some (ofSpan fields capacity) else none := by
  have hempty : IsSized largest (empty capacity) := ⟨Nat.zero_le _, Nat.zero_le _⟩
  rw [filled?, foldlM_add? fields hempty, ofSpan_eq_foldl]
  simp only [IsSized, inlineStride_foldl, objectStride_foldl, empty, Nat.zero_add]

/-! ## What a layout was made for -/

theorem ofSpan_inj : ofSpan fields capacity = ofSpan rest capacity'
    ↔ fields = rest ∧ capacity = capacity' := by
  constructor
  · intro h
    have hfields := (isTiling_ofSpan fields capacity).codes
    have hcapacity := (isTiling_ofSpan fields capacity).identCapacity
    rw [h] at hfields hcapacity
    exact ⟨hfields.symm.trans (isTiling_ofSpan rest capacity').codes,
      hcapacity.symm.trans (isTiling_ofSpan rest capacity').identCapacity⟩
  · rintro ⟨rfl, rfl⟩
    rfl

/-- The places of a layout tile its rows, and it tells the fields and the capacity it is for. -/
theorem ofSpan_tiles :
    (∀ (fields : Span) (capacity : Nat), (ofSpan fields capacity).IsTiling fields capacity
      ∧ (∀ p, (∃ range ∈ (ofSpan fields capacity).ranges, range.1 ≤ p ∧ p < range.2)
        ↔ p < (ofSpan fields capacity).inlineStride)
      ∧ (ofSpan fields capacity).ranges.Pairwise fun a b => a.2 ≤ b.1)
    ∧ (∀ (largest : Nat) (fields : Span) (capacity : Nat), filled? largest fields capacity
      = if fields.inlineTotal capacity ≤ largest ∧ fields.objectTotal capacity ≤ largest
        then some (ofSpan fields capacity) else none)
    ∧ (∀ (fields fields' : Span) (capacity capacity' : Nat),
      ofSpan fields capacity = ofSpan fields' capacity'
        ↔ fields = fields' ∧ capacity = capacity')
    ∧ ∀ (s : Settings) (format : FrameFormat) (indices : List Nat) (buffer : Buffer)
        (fields : Span) (capacity : Nat), buffer.layout = ofSpan fields capacity →
      (Decoder.checkBuffer s format indices buffer = none
        ↔ buffer.size = indices.length ∧ fields = format.fields ∧ capacity = s.identCapacity) := by
  refine ⟨fun fields capacity => ?_, filled?_eq, fun _ _ _ _ => ofSpan_inj,
    fun s format indices buffer fields capacity h => ?_⟩
  · have h := isTiling_ofSpan fields capacity
    refine ⟨h, fun p => ?_, h.ranges.pairwise⟩
    rw [h.ranges.exists_mem_iff]
    exact ⟨And.right, fun hp => ⟨Nat.zero_le p, hp⟩⟩
  · rw [Decoder.checkBuffer_eq_none_iff, h, ofSpan_inj]

theorem ofSpan_tiles_other_capacity :
    (Buffer.blank (ofSpan [.uvari, .ascii] 8) 1).layout = ofSpan [.uvari, .ascii] 8
      ∧ Decoder.checkBuffer ⟨8, .reset, 1, true⟩ ⟨[], [.uvari, .ascii], [], by decide⟩ [0]
        (.blank (ofSpan [.uvari, .ascii] 8) 1) = none
      ∧ Decoder.checkBuffer ⟨255, .reset, 1, true⟩ ⟨[], [.uvari, .ascii], [], by decide⟩ [0]
        (.blank (ofSpan [.uvari, .ascii] 8) 1) ≠ none := by
  have hl : (Buffer.blank (ofSpan [.uvari, .ascii] 8) 1).layout = ofSpan [.uvari, .ascii] 8 := rfl
  have hiff (s : Settings) :=
    ofSpan_tiles.2.2.2 s ⟨[], [.uvari, .ascii], [], by decide⟩ [0] _ _ _ hl
  exact ⟨hl, (hiff _).mpr ⟨rfl, rfl, rfl⟩, fun h => absurd ((hiff _).mp h).2.2 (by decide)⟩

end Layout

end WellLog
