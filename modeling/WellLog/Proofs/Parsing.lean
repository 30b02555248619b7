import WellLog.Proofs.Content
import WellLog.Proofs.Reading

/-!
# Records are read as their contents

What follows a name is read exactly if it is nothing or the bytes of a row that fits, and what is
read is what they hold (`Frame.readBody_eq_ok_iff`). No part of a record is the beginning of another
such part, so a row that has been cut short is no row, and the read of the part that has the first
missing byte is the one that fails (`Frame.endsAt_readRow`).
-/

namespace WellLog

namespace Cursor

variable {c c' : Cursor} {a b : List UInt8} {k : Nat}

/-- Cut off somewhere, the bytes end within what stands in front, or all of it can be passed. -/
theorem cut_cases (h : c.rest = (a ++ b).take k) :
    k < a.length ∧ c.rest = a.take k
      ∨ ∃ j c', k = a.length + j ∧ c.Passes a c' ∧ c'.rest = b.take j := by
  by_cases hk : k < a.length
  · rw [List.take_append_of_le_length (Nat.le_of_lt hk)] at h
    exact .inl ⟨hk, h⟩
  · obtain ⟨j, rfl⟩ := Nat.exists_eq_add_of_le (Nat.le_of_not_lt hk)
    rw [List.take_length_add_append] at h
    exact .inr ⟨j, ⟨_, b.take j⟩, rfl, ⟨h, rfl⟩, rfl⟩

/-- Bytes that can begin no other way than whole are not passed when they have been cut. -/
theorem not_passes_of_cut (hcut : ∀ s, a ++ [] = b ++ s → [] = s) (hk : k < a.length)
    (h : c.rest = a.take k) : ¬c.Passes b c' := by
  intro hp
  have ha : a ++ [] = b ++ (c'.rest ++ a.drop k) := by
    rw [← List.append_assoc, ← hp.rest, h, List.take_append_drop, List.append_nil]
  have hd : a.drop k = [] := (List.append_eq_nil_iff.mp (hcut _ ha).symm).2
  exact absurd (List.drop_eq_nil_iff.mp hd) (Nat.not_le_of_lt hk)

end Cursor

def Refusal.fault : Refusal → Fault
  | .tooLong length capacity => .fieldTooLong length capacity
  | .notATime => .notATime

namespace Frame

theorem refused_eq (start : Cursor) (refusal : Refusal) :
    refused start refusal = ⟨refusal.fault, start.position⟩ := by
  cases refusal <;> rfl

/-- The read fails because the record ends within a part. -/
def EndsIn {α : Type} (part : RecordPart) (start : Nat) (x : Except LocatedFault α) : Prop :=
  ∃ needed available, x = .error ⟨.corrupt part needed available, start⟩

variable {α β : Type} {identCapacity column : Nat} {format : FrameFormat} {part : RecordPart}
  {c c' : Cursor}

theorem located_eq_ok_iff {x : Except OutOfBounds α} {a : α} :
    located part c x = .ok a ↔ x = .ok a := by
  cases x with
  | error e => exact ⟨fun h => (nomatch h), fun h => (nomatch h)⟩
  | ok b => simp only [located, Except.ok.injEq]

theorem endsIn_located {x : Except OutOfBounds α} (h : ∀ a, x ≠ .ok a) :
    EndsIn part c.position (located part c x) := by
  cases x with
  | error e => exact ⟨e.needed, e.available, rfl⟩
  | ok a => exact absurd rfl (h a)

theorem EndsIn.bind {start : Nat} {x : Except LocatedFault α} (h : EndsIn part start x)
    (f : α → Except LocatedFault β) : EndsIn part start (x >>= f) := by
  obtain ⟨needed, available, rfl⟩ := h
  exact ⟨needed, available, rfl⟩

/-- The bytes of the units start at an offset and have been cut at the `k`-th, and the read fails
in the part where that one should be. -/
def EndsAt {α : Type} (units : List RecordUnit) (k offset : Nat) (x : Except LocatedFault α) :
    Prop :=
  ∃ part start, LiesIn units k part start ∧ EndsIn part (offset + start) x

theorem EndsIn.endsAt {bytes : List UInt8} {k offset : Nat} {x : Except LocatedFault α}
    (h : EndsIn part offset x) (hk : k < bytes.length) : EndsAt [⟨part, bytes⟩] k offset x :=
  ⟨part, 0, .head hk, h⟩

/-- Either a read fails, or it passes its units and the reads behind it see the cut. -/
theorem endsAt_bind (units : List RecordUnit) {more : List RecordUnit} {a b : List UInt8} {k : Nat}
    {x : Except LocatedFault α} {f : α → Except LocatedFault β}
    (ha : units.flatMap RecordUnit.bytes = a) (hk : k < (a ++ b).length)
    (h : c.rest = (a ++ b).take k)
    (hcut : k < a.length → c.rest = a.take k → EndsAt units k c.position x)
    (hrest : ∀ j c', j < b.length → c'.rest = b.take j → c.Passes a c' →
      EndsAt more j c'.position (x >>= f)) :
    EndsAt (units ++ more) k c.position (x >>= f) := by
  subst ha
  rcases Cursor.cut_cases h with ⟨hk, h⟩ | ⟨j, c', rfl, hp, h⟩
  · obtain ⟨part, start, hl, he⟩ := hcut hk h
    exact ⟨part, start, hl.append_right more, he.bind f⟩
  · rw [List.length_append, Nat.add_lt_add_iff_left] at hk
    obtain ⟨part, start, hl, he⟩ := hrest j c' hk h hp
    refine ⟨part, _, hl.append_left units, ?_⟩
    rwa [← Nat.add_assoc, ← hp.position]

/-! ## Names and fields -/

theorem readName_eq_ok_iff {head : Int32 × UInt8} :
    readName c = .ok (head, c') ↔ ∃ n : WrittenName, n.head = head ∧ c.Passes n.bytes c' := by
  rw [readName, located_eq_ok_iff, Cursor.nameHead_eq_ok_iff]

theorem endsIn_readName {n : WrittenName} {k : Nat} (hk : k < n.bytes.length)
    (h : c.rest = n.bytes.take k) : EndsIn .name c.position (readName c) := by
  refine endsIn_located fun ⟨head, c'⟩ hok => ?_
  obtain ⟨m, -, hm⟩ := Cursor.nameHead_eq_ok_iff.mp hok
  exact Cursor.not_passes_of_cut (fun s hs => (WrittenName.append_inj hs).2) hk h hm

theorem readField_eq_ok_iff {code : Code} {field : Field} :
    readField identCapacity column code c = .ok (field, c') ↔ ∃ d : Datum,
      d.code = code ∧ d.Fits identCapacity ∧ d.field = field ∧ c.Passes d.bytes c' := by
  rw [readField]
  simp only [bind_eq_ok_iff, Prod.exists, located_eq_ok_iff, Field.read_eq_ok_iff]
  constructor
  · rintro ⟨r, e, ⟨d, hc, hd, hr⟩, h⟩
    cases r with
    | error refusal => exact (nomatch h)
    | ok f =>
      simp only [Except.ok.injEq, Prod.mk.injEq] at h
      obtain ⟨rfl, rfl⟩ := h
      obtain ⟨hf, rfl⟩ := Datum.staged_eq_ok_iff.mp hr
      exact ⟨d, hc, hf, rfl, hd⟩
  · rintro ⟨d, hc, hf, rfl, hd⟩
    have hs := Datum.staged_eq_ok_iff.mpr ⟨hf, rfl⟩
    exact ⟨_, c', ⟨d, hc, hd, hs⟩, rfl⟩

theorem endsIn_readField {d : Datum} {k : Nat} (hk : k < d.bytes.length)
    (h : c.rest = d.bytes.take k) :
    EndsIn (.field column d.code) c.position (readField identCapacity column d.code c) := by
  refine EndsIn.bind (endsIn_located fun ⟨r, c'⟩ hok => ?_) _
  obtain ⟨e, he, hp, -⟩ := Field.read_eq_ok_iff.mp hok
  exact Cursor.not_passes_of_cut (fun s hs => (Datum.append_inj he.symm hs).2) hk h hp

theorem readFields_eq_ok_iff {fields : List Field} {codes : Span} :
    readFields identCapacity column codes c = .ok (fields, c') ↔ ∃ ds : List Datum,
      ds.map Datum.code = codes ∧ (∀ d ∈ ds, d.Fits identCapacity) ∧ ds.map Datum.field = fields
        ∧ c.Passes (ds.flatMap Datum.bytes) c' := by
  induction codes generalizing column c c' fields with
  | nil =>
    unfold readFields
    constructor
    · rintro ⟨⟩
      exact ⟨[], rfl, by simp, rfl, Cursor.passes_nil_iff.mpr rfl⟩
    · rintro ⟨ds, hc, -, rfl, hp⟩
      obtain rfl := List.map_eq_nil_iff.mp hc
      rw [Cursor.passes_nil_iff.mp hp]
      rfl
  | cons code codes ih =>
    simp only [readFields, bind_eq_ok_iff, Prod.exists, readField_eq_ok_iff, ih, pure_eq_ok_iff,
      Prod.mk.injEq]
    constructor
    · rintro ⟨_, e, ⟨d, hc, hf, rfl, hd⟩, _, e', ⟨ds, hcs, hfs, rfl, hds⟩, rfl, rfl⟩
      refine ⟨d :: ds, by rw [List.map_cons, hc, hcs], ?_, rfl, ?_⟩
      · exact List.forall_mem_cons.mpr ⟨hf, hfs⟩
      · exact Cursor.passes_append_iff.mpr ⟨e, hd, hds⟩
    · rintro ⟨_, hc, hf, rfl, hp⟩
      obtain ⟨d, ds, rfl, hc, hcs⟩ := List.map_eq_cons_iff.mp hc
      obtain ⟨hf, hfs⟩ := List.forall_mem_cons.mp hf
      obtain ⟨e, hd, hds⟩ := Cursor.passes_append_iff.mp hp
      exact ⟨_, e, ⟨d, hc, hf, rfl, hd⟩, _, c', ⟨ds, hcs, hfs, rfl, hds⟩, rfl, rfl⟩

theorem endsAt_readFields {ds : List Datum} {k : Nat} (column : Nat) (c : Cursor)
    (hf : ∀ d ∈ ds, d.Fits identCapacity) (hk : k < (ds.flatMap Datum.bytes).length)
    (h : c.rest = (ds.flatMap Datum.bytes).take k) :
    EndsAt (fieldUnits column ds) k c.position
      (readFields identCapacity column (ds.map Datum.code) c) := by
  induction ds generalizing column c k with
  | nil => simp at hk
  | cons d ds ih =>
    obtain ⟨hfd, hfs⟩ := List.forall_mem_cons.mp hf
    rw [List.map_cons, readFields]
    refine endsAt_bind [⟨_, d.bytes⟩] (by simp) hk h
      (fun hk h => (endsIn_readField hk h).endsAt hk) ?_
    intro j c' hj hr hp
    rw [readField_eq_ok_iff.mpr ⟨d, rfl, hfd, rfl, hp⟩, ok_bind]
    obtain ⟨part, start, hl, he⟩ := ih (column + 1) c' hfs hj hr
    exact ⟨part, start, hl, he.bind _⟩

/-! ## Rows and records -/

theorem readRow_eq_ok_iff {staged : StagedRow} :
    readRow identCapacity format c = .ok (staged, c') ↔ ∃ row : FrameRow format,
      row.Fits identCapacity ∧ row.staged = staged ∧ c.Passes row.bytes c' := by
  simp only [readRow, bind_eq_ok_iff, Prod.exists, located_eq_ok_iff, Cursor.uvari_eq_ok_iff,
    Span.skip_eq_ok_iff, readFields_eq_ok_iff, pure_eq_ok_iff, Prod.mk.injEq, FrameRow.bytes,
    Cursor.passes_append_iff]
  constructor
  · rintro ⟨_, c₁, ⟨n, rfl, hn⟩, c₂, ⟨ls, hlc, hls⟩, _, c₃, ⟨ds, hdc, hf, rfl, hds⟩, c₄,
      ⟨ts, htc, hts⟩, rfl, rfl⟩
    exact ⟨⟨n, ls, ds, ts, hlc, hdc, htc⟩, hf, rfl, c₁, hn, c₂, hls, c₃, hds, hts⟩
  · rintro ⟨⟨n, ls, ds, ts, hlc, hdc, htc⟩, hf, rfl, c₁, hn, c₂, hls, c₃, hds, hts⟩
    exact ⟨_, c₁, ⟨n, rfl, hn⟩, c₂, ⟨ls, hlc, hls⟩, _, c₃, ⟨ds, hdc, hf, rfl, hds⟩, c',
      ⟨ts, htc, hts⟩, rfl, rfl⟩

theorem endsIn_skip {ds : List Datum} {span : Span} {k : Nat} (hc : ds.map Datum.code = span)
    (hk : k < (ds.flatMap Datum.bytes).length) (h : c.rest = (ds.flatMap Datum.bytes).take k) :
    EndsIn part c.position (located part c (Span.skip span c)) := by
  refine endsIn_located fun c' hok => ?_
  obtain ⟨es, he, hp⟩ := Span.skip_eq_ok_iff.mp hok
  have hcut : ∀ s, ds.flatMap Datum.bytes ++ [] = es.flatMap Datum.bytes ++ s → [] = s :=
    fun s hs => (Datum.flatMap_append_inj (hc.trans he.symm) hs).2
  exact Cursor.not_passes_of_cut hcut hk h hp

/-- A row that has been cut is read up to the part with the first missing byte. -/
theorem endsAt_readRow {row : FrameRow format} {k : Nat} (hf : row.Fits identCapacity)
    (hk : k < row.bytes.length) (h : c.rest = row.bytes.take k) :
    EndsAt row.units k c.position (readRow identCapacity format c) := by
  obtain ⟨n, ls, ds, ts, hlc, hdc, htc⟩ := row
  unfold FrameRow.units readRow
  refine endsAt_bind [⟨_, n.bytes⟩] (by simp) hk h ?_ ?_
  · intro hk h
    refine (endsIn_located fun ⟨_, c'⟩ hok => ?_).endsAt hk
    obtain ⟨m, -, hm⟩ := Cursor.uvari_eq_ok_iff.mp hok
    exact Cursor.not_passes_of_cut (fun s hs => (VarNumber.append_inj hs).2) hk h hm
  intro k₁ c₁ hk h hn
  rw [located_eq_ok_iff.mpr (Cursor.uvari_eq_ok_iff.mpr ⟨n, rfl, hn⟩), ok_bind]
  refine endsAt_bind [⟨_, ls.flatMap Datum.bytes⟩] (by simp) hk h
    (fun hk h => (endsIn_skip hlc hk h).endsAt hk) ?_
  intro k₂ c₂ hk h hl
  rw [located_eq_ok_iff.mpr (Span.skip_eq_ok_iff.mpr ⟨ls, hlc, hl⟩), ok_bind]
  refine endsAt_bind (fieldUnits 0 ds) (flatMap_fieldUnits 0 ds) hk h ?_ ?_
  · intro hk h
    rw [← hdc]
    exact endsAt_readFields 0 c₂ hf hk h
  intro k₃ c₃ hk h hd
  rw [readFields_eq_ok_iff.mpr ⟨ds, hdc, hf, rfl, hd⟩, ok_bind]
  exact ((endsIn_skip htc hk h).bind _).endsAt hk

theorem isExhausted_iff : c.isExhausted = true ↔ c.rest = [] := List.isEmpty_iff

theorem readBody_eq_ok_iff {staged? : Option StagedRow} :
    readBody identCapacity format c = .ok staged? ↔ ∃ row? : Option (FrameRow format),
      (∀ row ∈ row?, row.Fits identCapacity) ∧ row?.map FrameRow.staged = staged?
        ∧ c.rest = row?.elim [] FrameRow.bytes := by
  unfold readBody
  by_cases hc : c.isExhausted
  · rw [if_pos hc]
    rw [isExhausted_iff] at hc
    rw [hc]
    constructor
    · rintro ⟨⟩
      exact ⟨none, by simp, rfl, rfl⟩
    · rintro ⟨_ | row, -, rfl, h⟩
      · rfl
      · exact absurd h.symm row.bytes_ne_nil
  · rw [if_neg hc]
    rw [isExhausted_iff] at hc
    simp only [bind_eq_ok_iff, Prod.exists, readRow_eq_ok_iff]
    constructor
    · rintro ⟨_, c', ⟨row, hf, rfl, hp⟩, h⟩
      split_ifs at h with hc'
      cases h
      rw [isExhausted_iff] at hc'
      refine ⟨some row, by simpa using hf, rfl, ?_⟩
      rw [hp.rest, hc', List.append_nil]
      rfl
    · rintro ⟨_ | row, hf, rfl, h⟩
      · exact absurd h hc
      · refine ⟨_, ⟨c.position + row.bytes.length, []⟩, ⟨row, hf row rfl, rfl, ⟨?_, rfl⟩⟩, rfl⟩
        rw [h, List.append_nil]
        rfl

/-- Bytes behind a row are taken for a second one. -/
theorem readBody_append {row : FrameRow format} {more : List UInt8} (hf : row.Fits identCapacity)
    (hm : more ≠ []) (h : c.rest = row.bytes ++ more) :
    readBody identCapacity format c
      = .error ⟨.secondRow more.length, c.position + row.bytes.length⟩ := by
  have hc : ¬c.isExhausted := by
    rw [isExhausted_iff, h, List.append_eq_nil_iff]
    exact fun hn => hm hn.2
  have hr : readRow identCapacity format c
      = .ok (row.staged, ⟨c.position + row.bytes.length, more⟩) :=
    readRow_eq_ok_iff.mpr ⟨row, hf, rfl, ⟨h, rfl⟩⟩
  have hx : ¬(⟨c.position + row.bytes.length, more⟩ : Cursor).isExhausted := by
    rwa [isExhausted_iff]
  rw [readBody, if_neg hc, hr, ok_bind]
  exact if_neg hx

theorem endsAt_readBody {row : FrameRow format} {k : Nat} (hf : row.Fits identCapacity)
    (h0 : 0 < k) (hk : k < row.bytes.length) (h : c.rest = row.bytes.take k) :
    EndsAt row.units k c.position (readBody identCapacity format c) := by
  have hc : ¬c.isExhausted := by
    rw [isExhausted_iff, h, List.take_eq_nil_iff]
    rintro (rfl | hn)
    · exact Nat.lt_irrefl 0 h0
    · exact row.bytes_ne_nil hn
  obtain ⟨part, start, hl, he⟩ := endsAt_readRow hf hk h
  rw [readBody, if_neg hc]
  exact ⟨part, start, hl, he.bind _⟩

end Frame

end WellLog
